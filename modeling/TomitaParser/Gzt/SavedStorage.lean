import Mathlib.Algebra.GroupWithZero.Nat
import Mathlib.Algebra.BigOperators.Group.List.Basic
import TomitaParser.Lib.Codec
import TomitaParser.Gzt.CompactStorage
/-! # Saved storage

The storage that a builder is saved as: the items, and the sets one after the other in one vector.
-/

namespace TomitaParser.Gzt
open OrderedSet

/-- `TVectorsVector`: the vectors one after the other, and where each starts. -/
structure VectorsVector where
  allItems : List ℕ := []
  firstIndex : List ℕ := []

namespace VectorsVector

/-- The constructor from vectors, where `size` items are there already. -/
def joinFrom (size : ℕ) : List (List ℕ) → Option (List ℕ × List ℕ)
  | [] => some ([], [ui32 size])
  | values :: source =>
    if 2 ^ 32 - 1 ≤ size then none
    else (joinFrom (size + values.length) source).map fun r => (values ++ r.1, size :: r.2)

def join (source : List (List ℕ)) : Option VectorsVector :=
  (joinFrom 0 source).map fun r => ⟨r.1, r.2⟩

/-- `Size`. -/
def size (v : VectorsVector) : ℕ := v.firstIndex.length - 1

/-- `operator[]`. -/
def get (v : VectorsVector) (index : ℕ) : List ℕ :=
  match v.firstIndex[index]?, v.firstIndex[index + 1]? with
  | some first, some last => (v.allItems.drop first).take (last - first)
  | _, _ => []

end VectorsVector

/-- `TCompactStorage`. -/
structure CompactStorage where
  items : List ℕ := []
  itemSets : VectorsVector := {}

namespace CompactStorage

def getItem (s : CompactStorage) (index : ℕ) : Option ℕ := s.items[index >>> 1]?

/-- `operator[]`. -/
def get (s : CompactStorage) (index : ℕ) : List ℕ :=
  if index &&& 1 = 0 then (s.getItem index).toList
  else (s.itemSets.get (index >>> 1)).filterMap s.getItem

/-- `Verify`: the first set, if any, is the empty one. -/
def verify (s : CompactStorage) : Bool := s.itemSets.size == 0 || (s.itemSets.get 0).isEmpty

/-- `Save` and `Load`. -/
def codec : Codec CompactStorage :=
  (((Codec.word.list.pair (Codec.word.list.pair Codec.word.list))).via
    (fun s : CompactStorage => (s.items, s.itemSets.allItems, s.itemSets.firstIndex))
    (fun r => ⟨r.1, ⟨r.2.1, r.2.2⟩⟩) fun _ => rfl).checked verify

end CompactStorage

/-- `TCompactStorageBuilder::Save`: what a loaded storage is read from. -/
def CompactStorageBuilder.toStorage (b : CompactStorageBuilder ℕ) : Option CompactStorage := do
  if 2 ^ 32 - 1 < toItemIndex b.items.length then none
  if 2 ^ 32 - 1 < toSetIndex b.itemSets.length then none
  match b.itemSets.head? with
  | some ⟨[], _⟩ => return ⟨b.items, ← VectorsVector.join (b.itemSets.map (·.items))⟩
  | _ => none

namespace VectorsVector

theorem joinFrom_spec (size : ℕ) (source : List (List ℕ))
    (hsize : size + source.flatten.length < 2 ^ 32 - 1) :
    ∃ first, joinFrom size source = some (source.flatten, first) ∧
      first.length = source.length + 1 ∧
      ∀ k ≤ source.length, first[k]? = some (size + (source.take k).flatten.length) := by
  induction source generalizing size with
  | nil =>
    refine ⟨[size], ?_, rfl, ?_⟩
    · rw [joinFrom, ui32_of_lt (by simpa using Nat.lt_of_lt_pred hsize)]
      rfl
    · intro k hk
      rw [List.length_nil, Nat.le_zero] at hk
      rw [hk]
      rfl
  | cons values source ih =>
    rw [List.flatten_cons, List.length_append] at hsize
    obtain ⟨first, hjoin, hlength, hfirst⟩ := ih (size + values.length) (by omega)
    refine ⟨size :: first, ?_, by simp [hlength], ?_⟩
    · rw [joinFrom, if_neg (by omega), hjoin]
      rfl
    · intro k hk
      cases k with
      | zero => rfl
      | succ k =>
        rw [List.getElem?_cons_succ, hfirst k (by simpa using hk), List.take_succ_cons,
          List.flatten_cons, List.length_append, Nat.add_assoc]

/-- A joined vector is found at its place. -/
theorem join_spec (source : List (List ℕ)) (hsize : source.flatten.length < 2 ^ 32 - 1) :
    ∃ v, join source = some v ∧ v.allItems = source.flatten ∧ v.size = source.length ∧
      (∀ first ∈ v.firstIndex, first < 2 ^ 32) ∧
      ∀ k values, source[k]? = some values → v.get k = values := by
  obtain ⟨first, hjoin, hlength, hfirst⟩ := joinFrom_spec 0 source (by simpa using hsize)
  refine ⟨⟨source.flatten, first⟩, by simp [join, hjoin], rfl, by simp [size, hlength], ?_, ?_⟩
  · intro x hx
    obtain ⟨k, hk⟩ := List.getElem?_of_mem hx
    have hle : k ≤ source.length := by
      have := (List.getElem?_eq_some_iff.mp hk).1
      simp only [hlength] at this
      omega
    rw [hfirst k hle, Option.some.injEq, Nat.zero_add] at hk
    have htake : (source.take k).flatten.length ≤ source.flatten.length := by
      have := congrArg (fun l => (List.flatten l).length) (List.take_append_drop k source)
      simp only [List.flatten_append, List.length_append] at this
      omega
    omega
  · intro k values hk
    obtain ⟨hlt, hget⟩ := List.getElem?_eq_some_iff.mp hk
    have hsplit : source = source.take k ++ values :: source.drop (k + 1) := by
      rw [← hget, ← List.drop_eq_getElem_cons hlt, List.take_append_drop]
    have htake : source.take (k + 1) = source.take k ++ [values] := by
      rw [List.take_add_one, hk]
      rfl
    rw [get, hfirst k (by omega), hfirst (k + 1) (by omega)]
    simp only [Nat.zero_add, htake, List.flatten_append, List.flatten_cons, List.flatten_nil,
      List.append_nil, List.length_append, Nat.add_sub_cancel_left]
    have hflat : source.flatten =
        (source.take k).flatten ++ (values ++ (source.drop (k + 1)).flatten) := by
      rw [← List.flatten_cons, ← List.flatten_append, ← hsplit]
    rw [hflat, List.drop_left, List.take_left]

end VectorsVector

namespace CompactStorageBuilder

/-- `CalculateTotalSetsSize`. -/
def totalSetsSize {T : Type*} (b : CompactStorageBuilder T) : ℕ :=
  (b.itemSets.map fun set => set.items.length).sum

theorem get_of_join {b : CompactStorageBuilder ℕ} {v : VectorsVector}
    (hget : ∀ k values, (b.itemSets.map (·.items))[k]? = some values → v.get k = values)
    {index : ℕ} {items : Finset ℕ} (h : b.Denotes index items) :
    CompactStorage.get ⟨b.items, v⟩ index = b.get index := by
  have hvalid := h.valid
  have hitem : CompactStorage.getItem ⟨b.items, v⟩ = b.getItem := by
    funext i
    simp only [CompactStorage.getItem, getItem, Nat.shiftRight_eq_div_pow, Nat.pow_one]
  rw [CompactStorage.get, CompactStorageBuilder.get, hitem, Nat.and_one_is_mod,
    Nat.shiftRight_eq_div_pow, Nat.pow_one]
  by_cases hsingle : isSingleItem index = true
  · rw [if_pos hsingle, if_pos (by simpa [isSingleItem] using hsingle)]
  · rw [if_neg hsingle, if_neg (by simpa [isSingleItem] using hsingle)]
    rw [if_neg hsingle, Option.isSome_iff_exists] at hvalid
    obtain ⟨set, hset⟩ := hvalid
    rw [getItemSet_items, hset, Option.getD_some, hget (index / 2) set]
    rw [List.getElem?_map]
    exact hset

/-- A builder whose counts fit is saved, and the storage has the builder's sets. -/
theorem toStorage_spec {b : CompactStorageBuilder ℕ} (hb : b.WellFormed)
    (hitems : 2 * b.items.length < 2 ^ 32) (hsets : 2 * b.itemSets.length + 1 < 2 ^ 32)
    (htotal : b.totalSetsSize < 2 ^ 32 - 1) (hwords : ∀ i ∈ b.items, i < 2 ^ 32) :
    ∃ s, b.toStorage = some s ∧ CompactStorage.codec.valid s ∧
      ∀ index items, b.Denotes index items → ∀ i, i ∈ s.get index ↔ i ∈ items := by
  have hflatten : (b.itemSets.map (·.items)).flatten.length < 2 ^ 32 - 1 := by
    rw [List.length_flatten, List.map_map]
    exact htotal
  obtain ⟨v, hjoin, hall, hsize, hfirst, hget⟩ := VectorsVector.join_spec _ hflatten
  rw [List.length_map] at hsize
  obtain ⟨front, others, hcons⟩ : ∃ front others, b.itemSets = ⟨[], front⟩ :: others := by
    have hempty := hb.empty
    cases hsets : b.itemSets with
    | nil => simp [slotItems, hsets] at hempty
    | cons set others =>
      simp only [slotItems, hsets, List.getElem?_cons_zero, Option.map_some,
        Option.some.injEq] at hempty
      exact ⟨set.refCount, others, by rw [← hempty]⟩
  refine ⟨⟨b.items, v⟩, ?_, ⟨⟨⟨by simp only; omega, hwords⟩, ⟨?_, ?_⟩, ⟨?_, hfirst⟩⟩, ?_⟩, ?_⟩
  · rw [toStorage, if_neg (by simp only [toItemIndex]; omega),
      if_neg (by simp only [toSetIndex]; omega), hjoin, hcons]
    rfl
  · simp only [hall]
    omega
  · intro i hi
    simp only [hall, List.mem_flatten, List.mem_map] at hi
    obtain ⟨_, ⟨set, hset, rfl⟩, hi⟩ := hi
    obtain ⟨slot, hslot⟩ := List.getElem?_of_mem hset
    have hset' := hb.sets slot set.items (by simp [slotItems, hslot])
    have := (hset'.single i hi).2
    show i < 2 ^ 32
    omega
  · simp only
    have : v.firstIndex.length ≤ v.size + 1 := by
      simp only [VectorsVector.size]
      omega
    omega
  · have hzero := hget 0 [] (by rw [hcons]; rfl)
    simp [CompactStorage.verify, hzero]
  · intro index items hdenotes i
    rw [get_of_join hget hdenotes, mem_get, hdenotes.holds i]

section Growth
variable {T : Type*} [DecidableEq T] {hash : List ℕ → ℕ} {uniq : Bool}

theorem add_growth (b : CompactStorageBuilder T) (item : T) :
    (b.add item).1.items.length ≤ b.items.length + 1 ∧ (b.add item).1.itemSets = b.itemSets ∧
      ∀ x ∈ (b.add item).1.items, x ∈ b.items ∨ x = item := by
  unfold add
  cases b.itemIndex.lookup item with
  | some i => exact ⟨Nat.le_succ _, rfl, fun x hx => .inl hx⟩
  | none => exact ⟨by simp, rfl, fun x hx => by simpa using hx⟩

theorem addRangeToSet_growth (b : CompactStorageBuilder T) (set : List ℕ) (range : List T) :
    let r := b.addRangeToSet set range
    r.1.items.length ≤ b.items.length + range.length ∧ r.2.length ≤ set.length + range.length ∧
      r.1.itemSets = b.itemSets ∧ ∀ x ∈ r.1.items, x ∈ b.items ∨ x ∈ range := by
  induction range generalizing b set with
  | nil => exact ⟨Nat.le_refl _, Nat.le_refl _, rfl, fun x hx => .inl hx⟩
  | cons item range ih =>
    obtain ⟨hlength, hsets, hmem⟩ := add_growth b item
    obtain ⟨hlength', hset', hsets', hmem'⟩ := ih (b.add item).1 (insertBy natLt (b.add item).2 set)
    have hinsert := @length_insertBy_le _ natLt (b.add item).2 set
    refine ⟨?_, ?_, hsets'.trans hsets, ?_⟩
    · exact le_trans hlength' (by rw [List.length_cons]; omega)
    · exact le_trans hset' (by rw [List.length_cons]; omega)
    · intro x hx
      rcases hmem' x hx with hx | hx
      · rcases hmem x hx with hx | rfl
        · exact .inl hx
        · exact .inr List.mem_cons_self
      · exact .inr (List.mem_cons_of_mem _ hx)

omit [DecidableEq T] in
theorem modifySet_addRef_growth (b : CompactStorageBuilder T) (slot : ℕ) :
    (b.modifySet slot addRef).items = b.items ∧
      (b.modifySet slot addRef).itemSets.length = b.itemSets.length ∧
      (b.modifySet slot addRef).totalSetsSize = b.totalSetsSize := by
  refine ⟨rfl, by simp [modifySet], ?_⟩
  have hmap : (b.modifySet slot addRef).itemSets.map (fun set => set.items.length) =
      b.itemSets.map fun set => set.items.length := by
    apply List.ext_getElem?
    intro k
    simp only [modifySet, List.getElem?_map, List.getElem?_modify]
    cases b.itemSets[k]? with
    | none => rfl
    | some set => by_cases hk : slot = k <;> simp [hk, addRef]
  rw [totalSetsSize, hmap, totalSetsSize]

omit [DecidableEq T] in
theorem indexatorAdd_growth (b : CompactStorageBuilder T) (set : RefItemSet) :
    (b.indexatorAdd hash uniq set).1.items = b.items ∧
      ((b.indexatorAdd hash uniq set).1.itemSets = b.itemSets ∨
        (b.indexatorAdd hash uniq set).1.itemSets = b.itemSets ++ [set]) := by
  unfold indexatorAdd
  cases uniq with
  | false => exact ⟨rfl, .inr rfl⟩
  | true =>
    simp only [if_true]
    split
    · exact ⟨rfl, .inr rfl⟩
    · exact ⟨rfl, .inl rfl⟩

omit [DecidableEq T] in
/-- A slot that is added has two members at least. -/
theorem addSetOrSingle_growth (b : CompactStorageBuilder T) (set : List ℕ) :
    let r := b.addSetOrSingle hash uniq set
    r.1.items = b.items ∧ 2 * r.1.itemSets.length ≤ 2 * b.itemSets.length + set.length ∧
      r.1.totalSetsSize ≤ b.totalSetsSize + set.length := by
  unfold addSetOrSingle
  split
  · exact ⟨rfl, Nat.le_add_right _ _, Nat.le_add_right _ _⟩
  · rename_i hsingle
    unfold addSet
    by_cases hempty : set = []
    · rw [if_pos hempty]
      exact ⟨rfl, Nat.le_add_right _ _, Nat.le_add_right _ _⟩
    · rw [if_neg hempty]
      have htwo : 2 ≤ set.length := by
        rcases set with _ | ⟨i, _ | ⟨j, set⟩⟩
        · exact absurd rfl hempty
        · exact absurd rfl (hsingle i)
        · simp
      obtain ⟨hitems, hsets⟩ := @indexatorAdd_growth T hash uniq b ⟨set, 0⟩
      obtain ⟨hitems', hlength', hsize'⟩ := modifySet_addRef_growth
        (b.indexatorAdd hash uniq ⟨set, 0⟩).1 (b.indexatorAdd hash uniq ⟨set, 0⟩).2
      refine ⟨hitems'.trans hitems, ?_, ?_⟩
      · simp only [hlength']
        rcases hsets with hsets | hsets
        · rw [hsets]
          omega
        · rw [hsets, List.length_append, List.length_singleton]
          omega
      · simp only [hsize']
        rcases hsets with hsets | hsets
        · rw [totalSetsSize, hsets, totalSetsSize]
          omega
        · rw [totalSetsSize, hsets, List.map_append, List.sum_append, totalSetsSize]
          simp

theorem addRange_growth (b : CompactStorageBuilder T) (range : List T) :
    let r := b.addRange hash uniq range
    r.1.items.length ≤ b.items.length + range.length ∧
      2 * r.1.itemSets.length ≤ 2 * b.itemSets.length + range.length ∧
      r.1.totalSetsSize ≤ b.totalSetsSize + range.length ∧
      ∀ x ∈ r.1.items, x ∈ b.items ∨ x ∈ range := by
  obtain ⟨hitems, hset, hsets, hmem⟩ := addRangeToSet_growth b [] range
  obtain ⟨hitems', hsets', htotal'⟩ := @addSetOrSingle_growth T hash uniq
    (b.addRangeToSet [] range).1 (b.addRangeToSet [] range).2
  simp only [List.length_nil, Nat.zero_add] at hset
  have htotal : (b.addRangeToSet [] range).1.totalSetsSize = b.totalSetsSize := by
    rw [totalSetsSize, hsets, totalSetsSize]
  rw [hsets] at hsets'
  rw [htotal] at htotal'
  refine ⟨?_, ?_, ?_, ?_⟩
  · simp only [addRange, hitems']
    exact hitems
  · simp only [addRange]
    omega
  · simp only [addRange]
    omega
  · simp only [addRange, hitems']
    exact hmem

theorem create_growth : (create hash uniq : CompactStorageBuilder T).items = [] ∧
    (create hash uniq : CompactStorageBuilder T).itemSets.length ≤ 1 ∧
    (create hash uniq : CompactStorageBuilder T).totalSetsSize = 0 := by
  obtain ⟨hitems, hsets⟩ := @indexatorAdd_growth T hash uniq {} ⟨[], 0⟩
  refine ⟨hitems, ?_, ?_⟩
  · rw [create]
    rcases hsets with hsets | hsets
    · rw [hsets]
      exact Nat.zero_le _
    · rw [hsets]
      exact Nat.le_refl _
  · rw [create, totalSetsSize]
    rcases hsets with hsets | hsets
    · rw [hsets]
      rfl
    · rw [hsets]
      rfl

end Growth

end CompactStorageBuilder
end TomitaParser.Gzt
