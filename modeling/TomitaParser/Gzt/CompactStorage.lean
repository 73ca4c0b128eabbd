import Mathlib.Algebra.GroupWithZero.Nat
import Mathlib.Data.Multiset.Count
import Mathlib.Data.Finset.Basic
import Mathlib.Data.Finset.Dedup
import Mathlib.Data.Finset.Lattice.Lemmas
import TomitaParser.Gzt.HashIndex
/-! # Store of sets

The builder that gives out an index for a set of items. Equal sets share a slot, a slot knows how
many holders it has, and a slot with one holder is changed in place. -/

namespace TomitaParser.Gzt
open OrderedSet

/-- `TRefItemSet`: a set of item indices in order, with the number of its holders. -/
structure RefItemSet where
  items : List ℕ
  refCount : ℕ := 0

/-- `TCompactStorageBuilder`. Even indices are single items, odd ones are sets. -/
structure CompactStorageBuilder (T : Type*) where
  items : List T := []
  itemIndex : List (T × ℕ) := []
  itemSets : List RefItemSet := []
  index : HashIndex := {}

namespace CompactStorageBuilder
variable {T : Type*}

def emptySetIndex : ℕ := 1

def isSingleItem (index : ℕ) : Bool := index % 2 == 0

def toItemIndex (i : ℕ) : ℕ := 2 * i

def toSetIndex (i : ℕ) : ℕ := 2 * i + 1

section Operations
variable [DecidableEq T] (hash : List ℕ → ℕ) (uniq : Bool) (b : CompactStorageBuilder T)

def getItem (index : ℕ) : Option T := b.items[index / 2]?

/-- The set of an odd index. -/
def getItemSet (index : ℕ) : RefItemSet := b.itemSets.getD (index / 2) ⟨[], 0⟩

/-- `operator[]`: the items of an index. -/
def get (index : ℕ) : List T :=
  if isSingleItem index then (b.getItem index).toList
  else (b.getItemSet index).items.filterMap b.getItem

/-- `HasItemAt`. -/
def hasItemAt (index : ℕ) (item : T) : Bool :=
  match b.itemIndex.lookup item with
  | none => false
  | some i => if isSingleItem index then index == i else (b.getItemSet index).items.contains i

/-- `Add`. -/
def add (item : T) : CompactStorageBuilder T × ℕ :=
  match b.itemIndex.lookup item with
  | some i => (b, i)
  | none =>
    ({ b with items := b.items ++ [item],
              itemIndex := b.itemIndex ++ [(item, toItemIndex b.items.length)] },
      toItemIndex b.items.length)

/-- `TIndexator::Add`: an equal set is looked up only if sets are unique. -/
def indexatorAdd (set : RefItemSet) : CompactStorageBuilder T × ℕ :=
  if uniq then
    let r := HashIndex.insert hash (b.itemSets.map (·.items)) b.index set.items b.itemSets.length
    let b := { b with index := r.1 }
    if r.2.2 then ({ b with itemSets := b.itemSets ++ [set] }, r.2.1) else (b, r.2.1)
  else ({ b with itemSets := b.itemSets ++ [set] }, b.itemSets.length)

/-- Changes the set in a slot. -/
def modifySet (slot : ℕ) (f : RefItemSet → RefItemSet) : CompactStorageBuilder T :=
  { b with itemSets := b.itemSets.modify slot f }

def addRef (set : RefItemSet) : RefItemSet := { set with refCount := set.refCount + 1 }

def release (set : RefItemSet) : RefItemSet := { set with refCount := set.refCount - 1 }

/-- `AddSet`. -/
def addSet (items : List ℕ) : CompactStorageBuilder T × ℕ :=
  if items = [] then (b, emptySetIndex)
  else
    let r := b.indexatorAdd hash uniq ⟨items, 0⟩
    (r.1.modifySet r.2 addRef, toSetIndex r.2)

/-- `AddSetOrSingle`. -/
def addSetOrSingle (items : List ℕ) : CompactStorageBuilder T × ℕ :=
  match items with
  | [i] => (b, i)
  | items => b.addSet hash uniq items

/-- `AddTo`. -/
def addTo (index : ℕ) (item : T) : CompactStorageBuilder T × ℕ :=
  let (b, itemIndex) := b.add item
  if index = emptySetIndex ∨ index = itemIndex then (b, itemIndex)
  else if isSingleItem index then
    b.addSet hash uniq (insertBy natLt itemIndex (insertBy natLt index []))
  else
    let existing := b.getItemSet index
    if 1 < existing.refCount then
      (b.modifySet (index / 2) release).addSet hash uniq
        (insertBy natLt itemIndex existing.items)
    else
      (b.modifySet (index / 2) fun set => { set with items := insertBy natLt itemIndex set.items },
        index)

/-- `RemoveFrom`. -/
def removeFrom (index : ℕ) (item : T) : CompactStorageBuilder T × ℕ :=
  match b.itemIndex.lookup item with
  | none => (b, index)
  | some i =>
    if isSingleItem index then (b, if i = index then emptySetIndex else index)
    else
      let existing := b.getItemSet index
      if existing.items = [] then (b, emptySetIndex)
      else if 1 < existing.refCount then
        (b.modifySet (index / 2) release).addSetOrSingle hash uniq (existing.items.filter (· ≠ i))
      else
        let erased :=
          (b.modifySet (index / 2) fun set => { set with items := set.items.filter (· ≠ i) }, index)
        -- a special case: set of 2 items
        match existing.items with
        | [first, second] =>
          if first = i then (b, second)
          else if second = i then (b, first)
          else erased
        | _ => erased

/-- `AddRangeToSet`. -/
def addRangeToSet (set : List ℕ) (items : List T) : CompactStorageBuilder T × List ℕ :=
  items.foldl (fun r item =>
    let a := r.1.add item
    (a.1, insertBy natLt a.2 r.2)) (b, set)

/-- `AddRange`. -/
def addRange (items : List T) : CompactStorageBuilder T × ℕ :=
  let r := b.addRangeToSet [] items
  r.1.addSetOrSingle hash uniq r.2

/-- `AddRangeTo`. -/
def addRangeTo (index : ℕ) (items : List T) : CompactStorageBuilder T × ℕ :=
  let (b, newSet) := b.addRangeToSet [] items
  if isSingleItem index then b.addSetOrSingle hash uniq (insertBy natLt index newSet)
  else
    let existing := b.getItemSet index
    if existing.items = [] then b.addSet hash uniq newSet
    else if existing.refCount ≤ 1 then
      (b.modifySet (index / 2) fun set => { set with items := insertAll natLt newSet set.items },
        index)
    else
      (b.modifySet (index / 2) release).addSet hash uniq (insertAll natLt existing.items newSet)

/-- `Merge`. -/
def merge (indices : List ℕ) : CompactStorageBuilder T × ℕ :=
  b.addSetOrSingle hash uniq (indices.foldl (fun set index =>
    if isSingleItem index then insertBy natLt index set
    else insertAll natLt (b.getItemSet index).items set) [])

end Operations

/-- The constructor: the empty set is the first set. -/
def create [DecidableEq T] (hash : List ℕ → ℕ) (uniq : Bool) : CompactStorageBuilder T :=
  (indexatorAdd hash uniq {} ⟨[], 0⟩).1

/-- The items of a slot. -/
def slotItems (b : CompactStorageBuilder T) (slot : ℕ) : Option (List ℕ) :=
  b.itemSets[slot]?.map (·.items)

/-- The number of holders that a slot counts. -/
def refCount (b : CompactStorageBuilder T) (slot : ℕ) : ℕ :=
    (b.itemSets[slot]?.map (·.refCount)).getD 0

/-- A set of indices in order, each of a stored item. -/
structure IndexSet (b : CompactStorageBuilder T) (set : List ℕ) : Prop where
  sorted : set.Pairwise (natLt · · = true)
  single : ∀ i ∈ set, isSingleItem i = true ∧ i / 2 < b.items.length

/-- The invariant of a builder on its own: the index of items is exact, slot 0 is the empty set, and
the sets hold indices of items. -/
structure WellFormed [DecidableEq T] (b : CompactStorageBuilder T) : Prop where
  index : ∀ item i, b.itemIndex.lookup item = some i ↔
    isSingleItem i = true ∧ b.items[i / 2]? = some item
  empty : b.slotItems 0 = some []
  sets : ∀ slot set, b.slotItems slot = some set → IndexSet b set

/-- The indices of the items of an index. -/
def members (b : CompactStorageBuilder T) (index : ℕ) : List ℕ :=
  if isSingleItem index then [index] else (b.slotItems (index / 2)).getD []

/-- A set of items is the one of some indices. -/
def Holds (b : CompactStorageBuilder T) (set : List ℕ) (items : Finset T) : Prop :=
  ∀ item, item ∈ items ↔ ∃ i ∈ set, b.items[i / 2]? = some item

/-- An index stands for a set of items. -/
structure Denotes (b : CompactStorageBuilder T) (index : ℕ) (items : Finset T) : Prop where
  valid : if isSingleItem index then index / 2 < b.items.length
    else (b.slotItems (index / 2)).isSome = true
  holds : Holds b (b.members index) items

/-- Every holder's index stands for the holder's set, and no slot has more holders than it counts.
-/
structure Owned (b : CompactStorageBuilder T) (holders : Multiset (ℕ × Finset T)) : Prop where
  denotes : ∀ h ∈ holders, b.Denotes h.1 h.2
  counted : ∀ slot, 0 < slot →
    (holders.map Prod.fst).count (toSetIndex slot) ≤ b.refCount slot

section Basic
variable {b : CompactStorageBuilder T}

@[simp] theorem isSingleItem_toSetIndex (slot : ℕ) : isSingleItem (toSetIndex slot) = false := by
  simp only [isSingleItem, toSetIndex, beq_eq_false_iff_ne]
  omega

@[simp] theorem toSetIndex_div (slot : ℕ) : toSetIndex slot / 2 = slot := by
  simp only [toSetIndex]
  omega

theorem toSetIndex_of_not_single {index : ℕ} (h : isSingleItem index = false) :
    toSetIndex (index / 2) = index := by
  simp only [isSingleItem, beq_eq_false_iff_ne] at h
  simp only [toSetIndex]
  omega

theorem getItemSet_items (index : ℕ) :
    (b.getItemSet index).items = (b.slotItems (index / 2)).getD [] := by
  simp only [getItemSet, slotItems, List.getD_eq_getElem?_getD]
  cases b.itemSets[index / 2]? <;> rfl

theorem getItemSet_refCount (index : ℕ) :
    (b.getItemSet index).refCount = b.refCount (index / 2) := by
  simp only [getItemSet, refCount, List.getD_eq_getElem?_getD]
  cases b.itemSets[index / 2]? <;> rfl

theorem members_of_set {index : ℕ} (h : isSingleItem index = false) :
    b.members index = (b.getItemSet index).items := by
  rw [members, h, getItemSet_items]
  rfl

theorem mem_get {index : ℕ} {item : T} :
    item ∈ b.get index ↔ ∃ i ∈ b.members index, b.items[i / 2]? = some item := by
  by_cases h : isSingleItem index = true
  · simp [get, members, h, getItem]
  · simp [get, members, h, getItem, getItemSet_items]

theorem WellFormed.members_single [DecidableEq T] (hb : b.WellFormed) {index : ℕ} {items : Finset T}
    (h : b.Denotes index items) : IndexSet b (b.members index) := by
  have hvalid := h.valid
  by_cases hsingle : isSingleItem index = true
  · rw [if_pos hsingle] at hvalid
    rw [members, if_pos hsingle]
    exact ⟨List.pairwise_singleton _ _, by simpa using ⟨hsingle, hvalid⟩⟩
  · rw [if_neg hsingle, Option.isSome_iff_exists] at hvalid
    obtain ⟨set, hset⟩ := hvalid
    rw [members, if_neg hsingle, hset]
    exact hb.sets _ _ hset

theorem slotItems_modifySet (slot j : ℕ) (f : RefItemSet → RefItemSet) :
    (b.modifySet slot f).slotItems j =
      if slot = j then b.itemSets[j]?.map fun set => (f set).items else b.slotItems j := by
  simp only [slotItems, modifySet, List.getElem?_modify]
  by_cases h : slot = j <;> simp [h, Function.comp_def]

theorem refCount_modifySet (slot j : ℕ) (f : RefItemSet → RefItemSet) :
    (b.modifySet slot f).refCount j =
      if slot = j then (b.itemSets[j]?.map fun set => (f set).refCount).getD 0
      else b.refCount j := by
  simp only [refCount, modifySet, List.getElem?_modify]
  by_cases h : slot = j <;> simp [h, Function.comp_def]

theorem slotItems_modifySet_of_items (slot : ℕ) {f : RefItemSet → RefItemSet}
    (hf : ∀ set, (f set).items = set.items) : (b.modifySet slot f).slotItems = b.slotItems := by
  funext j
  rw [slotItems_modifySet]
  by_cases h : slot = j
  · simp [h, hf, slotItems]
  · rw [if_neg h]

theorem Holds.congr {b' : CompactStorageBuilder T} {set : List ℕ} {items : Finset T}
    (hset : IndexSet b set) (hitems : b.items <+: b'.items) (h : Holds b set items) :
    Holds b' set items := by
  intro item
  rw [h item]
  apply exists_congr
  intro i
  apply and_congr_right
  intro hi
  obtain ⟨more, hmore⟩ := hitems
  rw [← hmore, List.getElem?_append_left (hset.single i hi).2]

theorem IndexSet.mono {b' : CompactStorageBuilder T} {set : List ℕ} (h : IndexSet b set)
    (hitems : b.items <+: b'.items) : IndexSet b' set :=
  ⟨h.sorted, fun i hi => ⟨(h.single i hi).1, lt_of_lt_of_le (h.single i hi).2 hitems.length_le⟩⟩

theorem Denotes.congr [DecidableEq T] {b' : CompactStorageBuilder T} (hb : b.WellFormed) {index : ℕ}
    {items : Finset T} (h : b.Denotes index items) (hitems : b.items <+: b'.items)
    (hslot : isSingleItem index = false → b'.slotItems (index / 2) = b.slotItems (index / 2)) :
    b'.Denotes index items := by
  have hmembers : b'.members index = b.members index := by
    by_cases hsingle : isSingleItem index = true
    · simp [members, hsingle]
    · simp [members, hsingle, hslot (by simpa using hsingle)]
  constructor
  · have hvalid := h.valid
    by_cases hsingle : isSingleItem index = true
    · rw [if_pos hsingle] at hvalid ⊢
      exact lt_of_lt_of_le hvalid hitems.length_le
    · rw [if_neg hsingle] at hvalid ⊢
      rwa [hslot (by simpa using hsingle)]
  · rw [hmembers]
    exact h.holds.congr (hb.members_single h) hitems

theorem Owned.of_cons {h : ℕ × Finset T} {holders : Multiset (ℕ × Finset T)}
    (hown : b.Owned (h ::ₘ holders)) : b.Owned holders := by
  constructor
  · exact fun other hmem => hown.denotes other (Multiset.mem_cons_of_mem hmem)
  · intro slot hslot
    have hcount := hown.counted slot hslot
    rw [Multiset.map_cons] at hcount
    exact le_trans (Multiset.count_le_count_cons _ _ _) hcount

theorem Owned.cons {index : ℕ} {items : Finset T} {holders : Multiset (ℕ × Finset T)}
    (hown : b.Owned holders) (h : b.Denotes index items)
    (hcount : ∀ slot, 0 < slot → toSetIndex slot = index →
      (holders.map Prod.fst).count index + 1 ≤ b.refCount slot) :
    b.Owned ((index, items) ::ₘ holders) := by
  constructor
  · intro other hother
    rcases Multiset.mem_cons.mp hother with rfl | hother
    · exact h
    · exact hown.denotes other hother
  · intro slot hslot
    rw [Multiset.map_cons, Multiset.count_cons]
    by_cases heq : toSetIndex slot = index
    · simpa [heq] using hcount slot hslot heq
    · simpa [heq] using hown.counted slot hslot

theorem Owned.cons_single {index : ℕ} {items : Finset T} {holders : Multiset (ℕ × Finset T)}
    (hown : b.Owned holders) (hsingle : isSingleItem index = true) (h : b.Denotes index items) :
    b.Owned ((index, items) ::ₘ holders) := by
  apply hown.cons h
  rintro slot - rfl
  simp at hsingle

theorem WellFormed.denotes_empty [DecidableEq T] (hb : b.WellFormed) :
    b.Denotes emptySetIndex ∅ := by
  constructor
  · simp [emptySetIndex, isSingleItem, hb.empty]
  · intro item
    simp [emptySetIndex, members, isSingleItem, hb.empty]

theorem Owned.cons_empty [DecidableEq T] {holders : Multiset (ℕ × Finset T)} (hb : b.WellFormed)
    (hown : b.Owned holders) : b.Owned ((emptySetIndex, ∅) ::ₘ holders) := by
  apply hown.cons hb.denotes_empty
  intro slot hslot heq
  simp only [toSetIndex, emptySetIndex] at heq
  omega

theorem Owned.congr [DecidableEq T] {b' : CompactStorageBuilder T} (hb : b.WellFormed)
    {holders : Multiset (ℕ × Finset T)} (hown : b.Owned holders) (hitems : b.items <+: b'.items)
    (hslots : ∀ h ∈ holders, isSingleItem h.1 = false →
      b'.slotItems (h.1 / 2) = b.slotItems (h.1 / 2))
    (hcounted : ∀ slot, 0 < slot →
      (holders.map Prod.fst).count (toSetIndex slot) ≤ b'.refCount slot) :
    b'.Owned holders :=
  ⟨fun h hmem => (hown.denotes h hmem).congr hb hitems (hslots h hmem), hcounted⟩

theorem WellFormed.congr [DecidableEq T] {b' : CompactStorageBuilder T} (hb : b.WellFormed)
    (hitems : b'.items = b.items) (hindex : b'.itemIndex = b.itemIndex)
    (hsets : b'.slotItems = b.slotItems) : b'.WellFormed := by
  constructor
  · intro item i
    rw [hitems, hindex]
    exact hb.index item i
  · rw [hsets]
    exact hb.empty
  · intro slot set hset
    rw [hsets] at hset
    exact (hb.sets slot set hset).mono (hitems ▸ List.prefix_refl _)

end Basic

section Operations
variable [DecidableEq T] {hash : List ℕ → ℕ} {uniq : Bool} {b : CompactStorageBuilder T}
  {holders : Multiset (ℕ × Finset T)}

/-- What `add` does: the item is stored, and nothing else changes. -/
structure Added (b : CompactStorageBuilder T) (item : T) (r : CompactStorageBuilder T × ℕ) :
    Prop where
  wellFormed : r.1.WellFormed
  items : b.items <+: r.1.items
  itemSets : r.1.itemSets = b.itemSets
  single : isSingleItem r.2 = true
  item : r.1.items[r.2 / 2]? = some item

theorem add_spec (hb : b.WellFormed) (item : T) : Added b item (b.add item) := by
  unfold add
  cases hlookup : b.itemIndex.lookup item with
  | some i =>
    obtain ⟨hsingle, hitem⟩ := (hb.index item i).mp hlookup
    exact ⟨hb, List.prefix_refl _, rfl, hsingle, hitem⟩
  | none =>
    have hnew : ∀ j : ℕ, b.items[j]? ≠ some item := by
      intro j hj
      have := (hb.index item (2 * j)).mpr ⟨by simp [isSingleItem], by simpa using hj⟩
      rw [hlookup] at this
      cases this
    refine ⟨?_, List.prefix_append _ _, rfl, by simp [isSingleItem, toItemIndex], ?_⟩
    · constructor
      · intro other i
        simp only [List.lookup_append, List.lookup_cons, List.lookup_nil]
        by_cases hother : other = item
        · subst hother
          rw [hlookup]
          simp only [beq_self_eq_true, Option.none_or, Option.some.injEq, toItemIndex]
          constructor
          · rintro rfl
            simp [isSingleItem]
          · rintro ⟨hsingle, hi⟩
            simp only [isSingleItem, beq_iff_eq] at hsingle
            rcases lt_trichotomy (i / 2) b.items.length with hlt | heq | hgt
            · rw [List.getElem?_append_left hlt] at hi
              exact absurd hi (hnew _)
            · omega
            · rw [List.getElem?_eq_none (by simp; omega)] at hi
              cases hi
        · have hne : (other == item) = false := by simpa using hother
          simp only [hne, Option.or_none]
          rw [hb.index other i]
          apply and_congr_right
          intro _
          rcases lt_trichotomy (i / 2) b.items.length with hlt | heq | hgt
          · rw [List.getElem?_append_left hlt]
          · rw [heq]
            simpa using fun h => hother h.symm
          · rw [List.getElem?_eq_none (by omega), List.getElem?_eq_none (by simp; omega)]
      · exact hb.empty
      · intro slot set hset
        exact (hb.sets slot set hset).mono (List.prefix_append _ _)
    · simp [toItemIndex]

theorem Added.slotItems {item : T} {r : CompactStorageBuilder T × ℕ} (h : Added b item r) :
    r.1.slotItems = b.slotItems := by
  funext slot
  rw [CompactStorageBuilder.slotItems, CompactStorageBuilder.slotItems, h.itemSets]

theorem Added.owned {item : T} {r : CompactStorageBuilder T × ℕ} (h : Added b item r)
    (hb : b.WellFormed) (hown : b.Owned holders) : r.1.Owned holders := by
  apply hown.congr hb h.items
  · intro _ _ _
    rw [h.slotItems]
  · intro slot hslot
    have hcount := hown.counted slot hslot
    simpa only [refCount, h.itemSets] using hcount

theorem Added.denotes {item : T} {r : CompactStorageBuilder T × ℕ} (h : Added b item r) :
    r.1.Denotes r.2 {item} := by
  constructor
  · rw [if_pos h.single]
    exact (List.getElem?_eq_some_iff.mp h.item).1
  · intro other
    simp [members, h.single, h.item, eq_comm]

/-- What a slot for a set is: an old one with the same set, or a new one. -/
structure SlotFor (b : CompactStorageBuilder T) (set : List ℕ) (r : CompactStorageBuilder T × ℕ) :
    Prop where
  items : r.1.items = b.items
  itemIndex : r.1.itemIndex = b.itemIndex
  slot : r.1.slotItems r.2 = some set
  keeps : ∀ slot other, b.slotItems slot = some other → r.1.slotItems slot = some other
  only : ∀ slot other, r.1.slotItems slot = some other → b.slotItems slot = some other ∨ other = set
  refCount : r.1.refCount = b.refCount

omit [DecidableEq T] in
theorem slotFor_append (b : CompactStorageBuilder T) (set : List ℕ) (index : HashIndex) :
    SlotFor b set
      ({ b with index := index, itemSets := b.itemSets ++ [⟨set, 0⟩] }, b.itemSets.length) := by
  refine ⟨rfl, rfl, by simp [slotItems], ?_, ?_, ?_⟩
  · intro slot other hother
    simp only [slotItems, Option.map_eq_some_iff] at hother ⊢
    obtain ⟨s, hs, rfl⟩ := hother
    refine ⟨s, ?_, rfl⟩
    rw [List.getElem?_append_left (List.getElem?_eq_some_iff.mp hs).1]
    exact hs
  · intro slot other hother
    simp only [slotItems, Option.map_eq_some_iff] at hother ⊢
    obtain ⟨s, hs, rfl⟩ := hother
    rcases lt_or_ge slot b.itemSets.length with hlt | hge
    · rw [List.getElem?_append_left hlt] at hs
      exact .inl ⟨s, hs, rfl⟩
    · rw [List.getElem?_append_right hge, List.getElem?_singleton] at hs
      split at hs
      · simp only [Option.some.injEq] at hs
        exact .inr (by rw [← hs])
      · cases hs
  · funext slot
    simp only [CompactStorageBuilder.refCount]
    rcases lt_or_ge slot b.itemSets.length with hlt | hge
    · rw [List.getElem?_append_left hlt]
    · rw [List.getElem?_append_right hge, List.getElem?_singleton, List.getElem?_eq_none hge]
      split <;> rfl

omit [DecidableEq T] in
theorem indexatorAdd_spec (b : CompactStorageBuilder T) (set : List ℕ) :
    SlotFor b set (b.indexatorAdd hash uniq ⟨set, 0⟩) := by
  unfold indexatorAdd
  cases uniq with
  | false => exact slotFor_append b set b.index
  | true =>
    simp only [if_true]
    have hspec := HashIndex.insert_spec hash (b.itemSets.map (·.items)) b.index set
      b.itemSets.length
    generalize HashIndex.insert hash (b.itemSets.map (·.items)) b.index set b.itemSets.length = r
      at hspec
    rcases hspec with ⟨hfound, hkey⟩ | ⟨hinserted, hindex⟩
    · rw [hfound]
      refine ⟨rfl, rfl, ?_, fun _ _ h => h, fun _ _ h => .inl h, rfl⟩
      simpa [slotItems, List.getElem?_map] using hkey
    · rw [hinserted, hindex]
      exact slotFor_append b set r.1

/-- A set that is given out has a holder more, and every other holder keeps its set. -/
theorem addSet_spec (hb : b.WellFormed) (hown : b.Owned holders) {set : List ℕ}
    (hset : IndexSet b set) {items : Finset T} (hitems : Holds b set items) :
    let r := b.addSet hash uniq set
    r.1.WellFormed ∧ r.1.Owned ((r.2, items) ::ₘ holders) := by
  unfold addSet
  by_cases hempty : set = []
  · rw [if_pos hempty]
    have hnone : items = ∅ := by
      rw [Finset.eq_empty_iff_forall_notMem]
      intro item hitem
      obtain ⟨i, hi, -⟩ := (hitems item).mp hitem
      simp [hempty] at hi
    rw [hnone]
    exact ⟨hb, hown.cons_empty hb⟩
  · rw [if_neg hempty]
    have hspec : SlotFor b set (b.indexatorAdd hash uniq ⟨set, 0⟩) := indexatorAdd_spec b set
    generalize b.indexatorAdd hash uniq ⟨set, 0⟩ = r at hspec
    have hprefix : b.items <+: (r.1.modifySet r.2 addRef).items := by
      rw [modifySet, hspec.items]
    have hslots : (r.1.modifySet r.2 addRef).slotItems = r.1.slotItems :=
      slotItems_modifySet_of_items r.2 fun _ => rfl
    have hpos : 0 < r.2 := by
      rw [Nat.pos_iff_ne_zero]
      intro hzero
      have hslot := hspec.slot
      rw [hzero, hspec.keeps 0 [] hb.empty] at hslot
      exact hempty (Option.some.inj hslot).symm
    have hrefs : ∀ slot, (r.1.modifySet r.2 addRef).refCount slot =
        b.refCount slot + if slot = r.2 then 1 else 0 := by
      intro slot
      rw [refCount_modifySet, ← hspec.refCount]
      by_cases hslot : slot = r.2
      · subst hslot
        have hsome := hspec.slot
        simp only [slotItems, Option.map_eq_some_iff] at hsome
        obtain ⟨s, hs, -⟩ := hsome
        simp [refCount, hs, addRef]
      · rw [if_neg (Ne.symm hslot), if_neg hslot, Nat.add_zero]
    have hholders : (r.1.modifySet r.2 addRef).Owned holders := by
      apply hown.congr hb hprefix
      · intro h hmem hsingle
        rw [hslots]
        have hvalid := (hown.denotes h hmem).valid
        rw [hsingle] at hvalid
        obtain ⟨other, hother⟩ := Option.isSome_iff_exists.mp hvalid
        rw [hother]
        exact hspec.keeps _ _ hother
      · intro slot hslot
        rw [hrefs]
        exact le_trans (hown.counted slot hslot) (Nat.le_add_right _ _)
    constructor
    · constructor
      · intro item i
        have hsame := hb.index item i
        rwa [← hspec.items, ← hspec.itemIndex] at hsame
      · rw [hslots]
        exact hspec.keeps 0 [] hb.empty
      · intro slot other hother
        rw [hslots] at hother
        rcases hspec.only slot other hother with hold | rfl
        · exact (hb.sets slot other hold).mono hprefix
        · exact hset.mono hprefix
    · apply hholders.cons
      · constructor
        · simp only [isSingleItem_toSetIndex, Bool.false_eq_true, if_false, toSetIndex_div]
          rw [hslots, hspec.slot]
          rfl
        · have hmembers : (r.1.modifySet r.2 addRef).members (toSetIndex r.2) = set := by
            rw [members, isSingleItem_toSetIndex, toSetIndex_div, hslots, hspec.slot]
            rfl
          rw [hmembers]
          exact hitems.congr hset hprefix
      · intro slot hslot heq
        have hsame : slot = r.2 := by
          simp only [toSetIndex] at heq
          omega
        subst hsame
        rw [hrefs, if_pos rfl]
        exact Nat.add_le_add_right (hown.counted r.2 hpos) 1

theorem addSetOrSingle_spec (hb : b.WellFormed) (hown : b.Owned holders) {set : List ℕ}
    (hset : IndexSet b set) {items : Finset T} (hitems : Holds b set items) :
    let r := b.addSetOrSingle hash uniq set
    r.1.WellFormed ∧ r.1.Owned ((r.2, items) ::ₘ holders) := by
  unfold addSetOrSingle
  split
  · rename_i i
    obtain ⟨hsingle, hlt⟩ := hset.single i (List.mem_singleton_self i)
    refine ⟨hb, hown.cons_single hsingle ⟨?_, ?_⟩⟩
    · rwa [if_pos hsingle]
    · rwa [members, if_pos hsingle]
  · exact addSet_spec hb hown hset hitems

theorem release_spec (hb : b.WellFormed) {index : ℕ} {items : Finset T}
    (hown : b.Owned ((index, items) ::ₘ holders)) (hsingle : isSingleItem index = false) :
    (b.modifySet (index / 2) release).WellFormed ∧
      (b.modifySet (index / 2) release).Owned holders := by
  have hslots : (b.modifySet (index / 2) release).slotItems = b.slotItems :=
    slotItems_modifySet_of_items _ fun _ => rfl
  refine ⟨hb.congr rfl rfl hslots, hown.of_cons.congr hb (List.prefix_refl _) ?_ ?_⟩
  · intro _ _ _
    rw [hslots]
  · intro slot hslot
    have hcount := hown.counted slot hslot
    rw [Multiset.map_cons, Multiset.count_cons] at hcount
    rw [refCount_modifySet]
    by_cases heq : index / 2 = slot
    · subst heq
      rw [toSetIndex_of_not_single hsingle] at hcount ⊢
      rw [if_pos rfl] at hcount ⊢
      simp only [refCount, release] at hcount ⊢
      cases hget : b.itemSets[index / 2]? with
      | none =>
        rw [hget] at hcount
        simp at hcount
      | some s =>
        rw [hget] at hcount
        simp only [Option.map_some, Option.getD_some] at hcount ⊢
        omega
    · rw [if_neg heq]
      omega

/-- The set in a slot with one holder is replaced. -/
theorem replace_spec (hb : b.WellFormed) {index : ℕ} {items items' : Finset T}
    (hown : b.Owned ((index, items) ::ₘ holders)) (hsingle : isSingleItem index = false)
    (hindex : index ≠ emptySetIndex) (hone : (b.getItemSet index).refCount ≤ 1)
    (f : List ℕ → List ℕ) (hset : IndexSet b (f (b.members index)))
    (hitems : Holds b (f (b.members index)) items') :
    let b' := b.modifySet (index / 2) fun set => { set with items := f set.items }
    b'.WellFormed ∧ b'.Owned ((index, items') ::ₘ holders) := by
  intro b'
  have hslot : 0 < index / 2 := by
    simp only [isSingleItem, beq_eq_false_iff_ne, emptySetIndex] at hsingle hindex
    omega
  have hindexEq := toSetIndex_of_not_single hsingle
  have hrefs : b'.refCount = b.refCount := by
    funext slot
    rw [refCount_modifySet]
    by_cases heq : index / 2 = slot
    · subst heq
      rw [if_pos rfl]
      rfl
    · rw [if_neg heq]
  have hvalid := (hown.denotes _ (Multiset.mem_cons_self _ _)).valid
  rw [hsingle] at hvalid
  obtain ⟨old, hold⟩ := Option.isSome_iff_exists.mp hvalid
  have hmembers : b.members index = old := by
    rw [members, hsingle, hold]
    rfl
  rw [hmembers] at hset hitems
  have hnew : b'.slotItems (index / 2) = some (f old) := by
    rw [slotItems_modifySet, if_pos rfl]
    simp only [slotItems, Option.map_eq_some_iff] at hold
    obtain ⟨s, hs, rfl⟩ := hold
    rw [hs]
    rfl
  have hothers : ∀ slot, slot ≠ index / 2 → b'.slotItems slot = b.slotItems slot := by
    intro slot hne
    rw [slotItems_modifySet, if_neg (Ne.symm hne)]
  -- the slot counts one holder, which is the one at hand
  have halone : (holders.map Prod.fst).count index = 0 := by
    have hcount := hown.counted (index / 2) hslot
    rw [Multiset.map_cons, hindexEq, Multiset.count_cons_self] at hcount
    rw [getItemSet_refCount] at hone
    omega
  have hne : ∀ h ∈ holders, h.1 ≠ index := by
    intro h hmem heq
    have hmap : index ∈ holders.map Prod.fst := Multiset.mem_map.mpr ⟨h, hmem, heq⟩
    exact Multiset.count_eq_zero.mp halone hmap
  constructor
  · refine ⟨hb.index, ?_, ?_⟩
    · rw [hothers 0 (by omega)]
      exact hb.empty
    · intro slot set hslotSet
      by_cases heq : slot = index / 2
      · subst heq
        rw [hnew, Option.some.injEq] at hslotSet
        rw [← hslotSet]
        exact hset.mono (List.prefix_refl _)
      · rw [hothers slot heq] at hslotSet
        exact (hb.sets slot set hslotSet).mono (List.prefix_refl _)
  · have hholders : b'.Owned holders := by
      have hprefix : b.items <+: b'.items := List.prefix_refl _
      apply hown.of_cons.congr hb hprefix
      · intro h hmem hh
        apply hothers
        intro heq
        apply hne h hmem
        rw [← toSetIndex_of_not_single hh, heq, hindexEq]
      · intro slot hslot
        rw [hrefs]
        exact hown.of_cons.counted slot hslot
    apply hholders.cons
    · constructor
      · rw [hsingle]
        simp [hnew]
      · have hmembers' : b'.members index = f old := by
          rw [members, hsingle, hnew]
          rfl
        rw [hmembers']
        exact hitems.congr hset (List.prefix_refl _)
    · intro slot hslot heq
      rw [halone, hrefs]
      have hcount := hown.counted slot hslot
      rw [Multiset.map_cons, heq, Multiset.count_cons_self] at hcount
      omega

omit [DecidableEq T] in
theorem IndexSet.insertBy {set : List ℕ} (h : IndexSet b set) {i : ℕ}
    (hsingle : isSingleItem i = true) (hi : i / 2 < b.items.length) :
    IndexSet b (insertBy natLt i set) := by
  constructor
  · exact pairwise_insertBy natLt_trans h.sorted
  · intro j hj
    rw [mem_insertBy_natLt] at hj
    rcases hj with rfl | hj
    · exact ⟨hsingle, hi⟩
    · exact h.single j hj

theorem Holds.insertBy {set : List ℕ} {items : Finset T} (h : Holds b set items) {i : ℕ} {item : T}
    (hi : b.items[i / 2]? = some item) : Holds b (insertBy natLt i set) (insert item items) := by
  intro other
  rw [Finset.mem_insert, h other]
  simp only [mem_insertBy_natLt, or_and_right, exists_or, exists_eq_left, hi, Option.some.injEq]
  rw [eq_comm]

omit [DecidableEq T] in
theorem IndexSet.insertAll {set set' : List ℕ} (h : IndexSet b set) (h' : IndexSet b set') :
    IndexSet b (insertAll natLt set' set) := by
  constructor
  · exact pairwise_insertAll natLt_trans h.sorted
  · intro j hj
    rw [mem_insertAll_natLt] at hj
    exact hj.elim (h'.single j) (h.single j)

theorem Holds.insertAll {set set' : List ℕ} {items items' : Finset T} (h : Holds b set items)
    (h' : Holds b set' items') : Holds b (insertAll natLt set' set) (items ∪ items') := by
  intro other
  rw [Finset.mem_union, h other, h' other]
  simp only [mem_insertAll_natLt, or_and_right, exists_or]
  exact or_comm

omit [DecidableEq T] in
theorem IndexSet.filter {set : List ℕ} (h : IndexSet b set) (p : ℕ → Bool) :
    IndexSet b (set.filter p) :=
  ⟨h.sorted.filter p, fun i hi => h.single i (List.mem_of_mem_filter hi)⟩

omit [DecidableEq T] in
theorem IndexSet.nil : IndexSet b [] := ⟨List.Pairwise.nil, fun i hi => by simp at hi⟩

theorem WellFormed.eq_index (hb : b.WellFormed) {item : T} {i j : ℕ}
    (hi : b.itemIndex.lookup item = some i) (hj : isSingleItem j = true)
    (hitem : b.items[j / 2]? = some item) : j = i := by
  have := (hb.index item j).mpr ⟨hj, hitem⟩
  rw [hi, Option.some.injEq] at this
  exact this.symm

theorem Holds.erase (hb : b.WellFormed) {set : List ℕ} {items : Finset T} (hset : IndexSet b set)
    (h : Holds b set items) {i : ℕ} {item : T} (hi : b.itemIndex.lookup item = some i) :
    Holds b (set.filter (· ≠ i)) (items.erase item) := by
  have hitem := ((hb.index item i).mp hi).2
  intro other
  rw [Finset.mem_erase, h other]
  constructor
  · rintro ⟨hne, j, hj, hother⟩
    refine ⟨j, ?_, hother⟩
    rw [List.mem_filter]
    refine ⟨hj, ?_⟩
    rw [decide_eq_true_eq]
    rintro rfl
    rw [hother, Option.some.injEq] at hitem
    exact hne hitem
  · rintro ⟨j, hj, hother⟩
    rw [List.mem_filter, decide_eq_true_eq] at hj
    refine ⟨?_, j, hj.1, hother⟩
    rintro rfl
    exact hj.2 (hb.eq_index hi (hset.single j hj.1).1 hother)

omit [DecidableEq T] in
theorem Denotes.unique {index : ℕ} {items items' : Finset T} (h : b.Denotes index items)
    (h' : b.Denotes index items') : items = items' := by
  apply Finset.ext
  intro item
  rw [h.holds item, h'.holds item]

theorem addTo_spec (hb : b.WellFormed) {index : ℕ} {items : Finset T}
    (hown : b.Owned ((index, items) ::ₘ holders)) (item : T) :
    let r := b.addTo hash uniq index item
    r.1.WellFormed ∧ r.1.Owned ((r.2, insert item items) ::ₘ holders) := by
  have hadded := add_spec hb item
  have hown' := hadded.owned hb hown
  unfold addTo
  generalize b.add item = a at hadded hown'
  obtain ⟨b', i⟩ := a
  have hb' := hadded.wellFormed
  have hi := hadded.item
  have hdenotes := hown'.denotes _ (Multiset.mem_cons_self _ _)
  simp only at hb' hi hdenotes hown' ⊢
  have hlt : i / 2 < b'.items.length := (List.getElem?_eq_some_iff.mp hi).1
  by_cases hcase : index = emptySetIndex ∨ index = i
  · rw [if_pos hcase]
    have hinsert : insert item items = {item} := by
      rcases hcase with rfl | rfl
      · rw [hdenotes.unique hb'.denotes_empty]
        rfl
      · rw [hdenotes.unique hadded.denotes]
        simp
    rw [hinsert]
    exact ⟨hb', hown'.of_cons.cons_single hadded.single hadded.denotes⟩
  · rw [if_neg hcase]
    by_cases hsingle : isSingleItem index = true
    · rw [if_pos hsingle]
      have hmembers : b'.members index = [index] := by rw [members, if_pos hsingle]
      have hset := hb'.members_single hdenotes
      have hitems := hdenotes.holds
      rw [hmembers] at hset hitems
      exact addSet_spec hb' hown'.of_cons (hset.insertBy hadded.single hlt) (hitems.insertBy hi)
    · rw [if_neg hsingle]
      have hfalse : isSingleItem index = false := by simpa using hsingle
      have hset := hb'.members_single hdenotes
      have hitems := hdenotes.holds
      by_cases hcount : 1 < (b'.getItemSet index).refCount
      · rw [if_pos hcount]
        obtain ⟨hb2, hown2⟩ := release_spec hb' hown' hfalse
        rw [← members_of_set hfalse]
        exact addSet_spec hb2 hown2
          ((hset.insertBy hadded.single hlt).mono (List.prefix_refl _))
          ((hitems.insertBy hi).congr (hset.insertBy hadded.single hlt) (List.prefix_refl _))
      · rw [if_neg hcount]
        exact replace_spec hb' hown' hfalse (fun h => hcase (.inl h)) (by omega)
          (OrderedSet.insertBy natLt i) (hset.insertBy hadded.single hlt) (hitems.insertBy hi)

theorem removeFrom_spec (hb : b.WellFormed) {index : ℕ} {items : Finset T}
    (hown : b.Owned ((index, items) ::ₘ holders)) (item : T) :
    let r := b.removeFrom hash uniq index item
    r.1.WellFormed ∧ r.1.Owned ((r.2, items.erase item) ::ₘ holders) := by
  have hdenotes := hown.denotes _ (Multiset.mem_cons_self _ _)
  simp only at hdenotes
  have hset := hb.members_single hdenotes
  have hitems := hdenotes.holds
  unfold removeFrom
  cases hlookup : b.itemIndex.lookup item with
  | none =>
    have habsent : item ∉ items := by
      rw [hitems item]
      rintro ⟨j, hj, hitem⟩
      have := (hb.index item j).mpr ⟨(hset.single j hj).1, hitem⟩
      rw [hlookup] at this
      cases this
    rw [Finset.erase_eq_of_notMem habsent]
    exact ⟨hb, hown⟩
  | some i =>
    have herase := hitems.erase hb hset hlookup
    have hfilter := hset.filter (· ≠ i)
    obtain ⟨hsingleI, hitemI⟩ := (hb.index item i).mp hlookup
    by_cases hsingle : isSingleItem index = true
    · simp only [hsingle, if_true]
      have hmembers : b.members index = [index] := by rw [members, if_pos hsingle]
      rw [hmembers] at herase hitems
      by_cases heq : i = index
      · rw [if_pos heq]
        have hnone : items.erase item = ∅ := by
          rw [Finset.eq_empty_iff_forall_notMem]
          intro other hother
          obtain ⟨j, hj, -⟩ := (herase other).mp hother
          simp [heq] at hj
        rw [hnone]
        exact ⟨hb, hown.of_cons.cons_empty hb⟩
      · rw [if_neg heq]
        refine ⟨hb, hown.of_cons.cons_single hsingle ⟨hdenotes.valid, ?_⟩⟩
        rw [hmembers]
        simpa [Ne.symm heq] using herase
    · have hfalse : isSingleItem index = false := by simpa using hsingle
      simp only [hfalse, Bool.false_eq_true, if_false]
      rw [← members_of_set hfalse]
      by_cases hempty : b.members index = []
      · rw [if_pos hempty]
        rw [hempty] at herase
        have hnone : items.erase item = ∅ := by
          rw [Finset.eq_empty_iff_forall_notMem]
          intro other hother
          obtain ⟨j, hj, -⟩ := (herase other).mp hother
          simp at hj
        rw [hnone]
        exact ⟨hb, hown.of_cons.cons_empty hb⟩
      · rw [if_neg hempty]
        by_cases hcount : 1 < (b.getItemSet index).refCount
        · rw [if_pos hcount]
          obtain ⟨hb2, hown2⟩ := release_spec hb hown hfalse
          exact addSetOrSingle_spec hb2 hown2 (hfilter.mono (List.prefix_refl _))
            (herase.congr hfilter (List.prefix_refl _))
        · rw [if_neg hcount]
          have hindex : index ≠ emptySetIndex := by
            rintro rfl
            apply hempty
            simp [members, emptySetIndex, isSingleItem, hb.empty]
          have herased := replace_spec hb hown hfalse hindex (by omega)
            (fun set => set.filter (· ≠ i)) hfilter herase
          have hone : ∀ j, isSingleItem j = true → j / 2 < b.items.length →
              (b.members index).filter (· ≠ i) = [j] →
              b.WellFormed ∧ b.Owned ((j, items.erase item) ::ₘ holders) := by
            intro j hj hlt hpair
            rw [hpair] at herase
            refine ⟨hb, hown.of_cons.cons_single hj ⟨by rwa [if_pos hj], ?_⟩⟩
            rwa [members, if_pos hj]
          split
          · rename_i first second hpair
            rw [hpair] at hset hone
            have hlt : first < second := by simpa [natLt] using hset.sorted
            have h1 := hset.single first (by simp)
            have h2 := hset.single second (by simp)
            by_cases hfirst : first = i
            · rw [if_pos hfirst]
              apply hone second h2.1 h2.2
              have hne : second ≠ i := by omega
              simp [hfirst, hne]
            · rw [if_neg hfirst]
              by_cases hsecond : second = i
              · rw [if_pos hsecond]
                apply hone first h1.1 h1.2
                simp [hfirst, hsecond]
              · rw [if_neg hsecond]
                exact herased
          · exact herased

theorem addRangeToSet_spec (hb : b.WellFormed) (hown : b.Owned holders) {set : List ℕ}
    {items : Finset T} (hset : IndexSet b set) (hitems : Holds b set items) (range : List T) :
    let r := b.addRangeToSet set range
    r.1.WellFormed ∧ r.1.Owned holders ∧ r.1.itemSets = b.itemSets ∧ b.items <+: r.1.items ∧
      IndexSet r.1 r.2 ∧ Holds r.1 r.2 (items ∪ range.toFinset) := by
  induction range generalizing b set items with
  | nil =>
    refine ⟨hb, hown, rfl, List.prefix_refl _, hset, ?_⟩
    rw [List.toFinset_nil, Finset.union_empty]
    exact hitems
  | cons item range ih =>
    have hadded := add_spec hb item
    have hlt : (b.add item).2 / 2 < (b.add item).1.items.length :=
      (List.getElem?_eq_some_iff.mp hadded.item).1
    obtain ⟨hb', hown', hsets, hprefix, hset', hitems'⟩ := ih hadded.wellFormed
      (hadded.owned hb hown)
      ((hset.mono hadded.items).insertBy hadded.single hlt)
      ((hitems.congr hset hadded.items).insertBy hadded.item)
    refine ⟨hb', hown', hsets.trans hadded.itemSets, hadded.items.trans hprefix, hset', ?_⟩
    have hunion : insert item items ∪ range.toFinset = items ∪ (item :: range).toFinset := by
      ext other
      simp only [Finset.mem_union, Finset.mem_insert, List.mem_toFinset, List.mem_cons]
      tauto
    rw [← hunion]
    exact hitems'

theorem addRange_spec (hb : b.WellFormed) (hown : b.Owned holders) (range : List T) :
    let r := b.addRange hash uniq range
    r.1.WellFormed ∧ r.1.Owned ((r.2, range.toFinset) ::ₘ holders) := by
  have hempty : Holds b [] (∅ : Finset T) := by
    intro item
    simp
  obtain ⟨hb', hown', -, -, hset, hitems⟩ := addRangeToSet_spec hb hown IndexSet.nil hempty range
  rw [Finset.empty_union] at hitems
  exact addSetOrSingle_spec hb' hown' hset hitems

theorem addRangeTo_spec (hb : b.WellFormed) {index : ℕ} {items : Finset T}
    (hown : b.Owned ((index, items) ::ₘ holders)) (range : List T) :
    let r := b.addRangeTo hash uniq index range
    r.1.WellFormed ∧ r.1.Owned ((r.2, items ∪ range.toFinset) ::ₘ holders) := by
  have hempty : Holds b [] (∅ : Finset T) := by
    intro item
    simp
  have hadded := addRangeToSet_spec hb hown IndexSet.nil hempty range
  unfold addRangeTo
  generalize b.addRangeToSet [] range = a at hadded
  obtain ⟨b', newSet⟩ := a
  obtain ⟨hb', hown', -, -, hnewSet, hnewItems⟩ := hadded
  simp only [Finset.empty_union] at hb' hown' hnewSet hnewItems ⊢
  have hdenotes := hown'.denotes _ (Multiset.mem_cons_self _ _)
  have hset := hb'.members_single hdenotes
  have hitems := hdenotes.holds
  simp only at hset hitems
  by_cases hsingle : isSingleItem index = true
  · rw [if_pos hsingle]
    have hmembers : b'.members index = [index] := by rw [members, if_pos hsingle]
    rw [hmembers] at hset hitems
    obtain ⟨h1, h2⟩ := hset.single index (List.mem_singleton_self _)
    have hall := hnewItems.insertAll hitems
    rw [Finset.union_comm] at hall
    exact addSetOrSingle_spec hb' hown'.of_cons (hnewSet.insertAll hset) hall
  · have hfalse : isSingleItem index = false := by simpa using hsingle
    rw [if_neg hsingle, ← members_of_set hfalse]
    by_cases hnil : b'.members index = []
    · rw [if_pos hnil]
      rw [hnil] at hitems
      have hnone : items = ∅ := by
        rw [Finset.eq_empty_iff_forall_notMem]
        intro item hitem
        obtain ⟨j, hj, -⟩ := (hitems item).mp hitem
        simp at hj
      rw [hnone, Finset.empty_union]
      exact addSet_spec hb' hown'.of_cons hnewSet hnewItems
    · rw [if_neg hnil]
      have hindex : index ≠ emptySetIndex := by
        rintro rfl
        apply hnil
        simp [members, emptySetIndex, isSingleItem, hb'.empty]
      by_cases hcount : (b'.getItemSet index).refCount ≤ 1
      · rw [if_pos hcount]
        exact replace_spec hb' hown' hfalse hindex hcount (OrderedSet.insertAll natLt newSet)
          (hset.insertAll hnewSet) (hitems.insertAll hnewItems)
      · rw [if_neg hcount]
        obtain ⟨hb2, hown2⟩ := release_spec hb' hown' hfalse
        have hall := hnewItems.insertAll hitems
        rw [Finset.union_comm] at hall
        have hallSet := hnewSet.insertAll hset
        exact addSet_spec hb2 hown2 (hallSet.mono (List.prefix_refl _))
          (hall.congr hallSet (List.prefix_refl _))

/-- The union that `merge` builds. -/
theorem merge_spec (hb : b.WellFormed) (hown : b.Owned holders) (chosen : List (ℕ × Finset T))
    (hchosen : ∀ h ∈ chosen, h ∈ holders) :
    let r := b.merge hash uniq (chosen.map Prod.fst)
    r.1.WellFormed ∧
      r.1.Owned ((r.2, chosen.foldl (fun items h => items ∪ h.2) ∅) ::ₘ holders) := by
  have hfold : ∀ (set : List ℕ) (items : Finset T), IndexSet b set → Holds b set items →
      IndexSet b ((chosen.map Prod.fst).foldl (fun set index =>
        if isSingleItem index then insertBy natLt index set
        else insertAll natLt (b.getItemSet index).items set) set) ∧
      Holds b ((chosen.map Prod.fst).foldl (fun set index =>
        if isSingleItem index then insertBy natLt index set
        else insertAll natLt (b.getItemSet index).items set) set)
        (chosen.foldl (fun items h => items ∪ h.2) items) := by
    induction chosen with
    | nil => exact fun set items hset hitems => ⟨hset, hitems⟩
    | cons h chosen ih =>
      intro set items hset hitems
      have hdenotes := hown.denotes h (hchosen h List.mem_cons_self)
      have hmembers := hb.members_single hdenotes
      have hstep : (if isSingleItem h.1 then insertBy natLt h.1 set
          else insertAll natLt (b.getItemSet h.1).items set) =
          insertAll natLt (b.members h.1) set := by
        by_cases hsingle : isSingleItem h.1 = true
        · rw [if_pos hsingle, members, if_pos hsingle]
          rfl
        · rw [if_neg hsingle, members_of_set (by simpa using hsingle)]
      rw [List.map_cons, List.foldl_cons, List.foldl_cons, hstep]
      exact ih (fun h hmem => hchosen h (List.mem_cons_of_mem _ hmem)) _ _
        (hset.insertAll hmembers) (hitems.insertAll hdenotes.holds)
  have hempty : Holds b [] (∅ : Finset T) := by
    intro item
    simp
  obtain ⟨hset, hitems⟩ := hfold [] ∅ IndexSet.nil hempty
  exact addSetOrSingle_spec hb hown hset hitems

theorem create_wellFormed (hash : List ℕ → ℕ) (uniq : Bool) :
    (create hash uniq : CompactStorageBuilder T).WellFormed := by
  have hspec : SlotFor ({} : CompactStorageBuilder T) [] (indexatorAdd hash uniq {} ⟨[], 0⟩) :=
    indexatorAdd_spec {} []
  have hslot : (indexatorAdd hash uniq ({} : CompactStorageBuilder T) ⟨[], 0⟩).2 = 0 := by
    cases uniq with
    | false => rfl
    | true =>
      have hinsert := HashIndex.insert_spec hash [] {} [] 0
      simp only [indexatorAdd, if_true, List.map_nil, List.length_nil]
      generalize HashIndex.insert hash [] {} [] 0 = r at hinsert
      rcases hinsert with ⟨-, hkey⟩ | ⟨hinserted, hindex⟩
      · simp at hkey
      · rw [hinserted, hindex]
        rfl
  constructor
  · intro item i
    rw [create, hspec.items, hspec.itemIndex]
    simp
  · have := hspec.slot
    rwa [hslot] at this
  · intro slot set hset
    rcases hspec.only slot set hset with h | rfl
    · simp [slotItems] at h
    · exact IndexSet.nil

end Operations

/-- A builder and its holders, each with the set that its history gives. -/
structure Run (T : Type*) where
  builder : CompactStorageBuilder T
  holders : Multiset (ℕ × Finset T)

section Runs
variable [DecidableEq T] (hash : List ℕ → ℕ) (uniq : Bool)

/-- One operation. An index that is passed as the first argument of `addTo`, `addRangeTo` or
`removeFrom` is given up by its holder. -/
inductive Step : Run T → Run T → Prop
  | empty (b holders) : Step ⟨b, holders⟩ ⟨b, (emptySetIndex, ∅) ::ₘ holders⟩
  | drop (b h holders) : Step ⟨b, h ::ₘ holders⟩ ⟨b, holders⟩
  | add (b : CompactStorageBuilder T) (holders) (item : T) :
    Step ⟨b, holders⟩ ⟨(b.add item).1, ((b.add item).2, {item}) ::ₘ holders⟩
  | addTo (b : CompactStorageBuilder T) (index items holders) (item : T) :
    Step ⟨b, (index, items) ::ₘ holders⟩ ⟨(b.addTo hash uniq index item).1,
      ((b.addTo hash uniq index item).2, insert item items) ::ₘ holders⟩
  | addRange (b : CompactStorageBuilder T) (holders) (range : List T) :
    Step ⟨b, holders⟩ ⟨(b.addRange hash uniq range).1,
      ((b.addRange hash uniq range).2, range.toFinset) ::ₘ holders⟩
  | addRangeTo (b : CompactStorageBuilder T) (index items holders) (range : List T) :
    Step ⟨b, (index, items) ::ₘ holders⟩ ⟨(b.addRangeTo hash uniq index range).1,
      ((b.addRangeTo hash uniq index range).2, items ∪ range.toFinset) ::ₘ holders⟩
  | merge (b : CompactStorageBuilder T) (holders) (chosen : List (ℕ × Finset T))
    (hchosen : ∀ h ∈ chosen, h ∈ holders) :
    Step ⟨b, holders⟩ ⟨(b.merge hash uniq (chosen.map Prod.fst)).1,
      ((b.merge hash uniq (chosen.map Prod.fst)).2,
        chosen.foldl (fun items h => items ∪ h.2) ∅) ::ₘ holders⟩
  | removeFrom (b : CompactStorageBuilder T) (index items holders) (item : T) :
    Step ⟨b, (index, items) ::ₘ holders⟩ ⟨(b.removeFrom hash uniq index item).1,
      ((b.removeFrom hash uniq index item).2, items.erase item) ::ₘ holders⟩

/-- The states that a sequence of operations leads to. -/
inductive Reachable : Run T → Prop
  | create : Reachable ⟨create hash uniq, 0⟩
  | step {r r' : Run T} : Reachable r → Step hash uniq r r' → Reachable r'

variable {hash uniq}

theorem step_owned {r r' : Run T} (h : Step hash uniq r r') (hb : r.builder.WellFormed)
    (hown : r.builder.Owned r.holders) :
    r'.builder.WellFormed ∧ r'.builder.Owned r'.holders := by
  cases h with
  | empty => exact ⟨hb, hown.cons_empty hb⟩
  | drop => exact ⟨hb, hown.of_cons⟩
  | add b holders item =>
    have hadded := add_spec hb item
    exact ⟨hadded.wellFormed, (hadded.owned hb hown).cons_single hadded.single hadded.denotes⟩
  | addTo => exact addTo_spec hb hown _
  | addRange => exact addRange_spec hb hown _
  | addRangeTo => exact addRangeTo_spec hb hown _
  | merge b holders chosen hchosen => exact merge_spec hb hown chosen hchosen
  | removeFrom => exact removeFrom_spec hb hown _

theorem reachable_owned {r : Run T} (h : Reachable hash uniq r) :
    r.builder.WellFormed ∧ r.builder.Owned r.holders := by
  induction h with
  | create => exact ⟨create_wellFormed hash uniq, by simp, by simp⟩
  | step _ hstep ih => exact step_owned hstep ih.1 ih.2

theorem hasItemAt_iff {b : CompactStorageBuilder T} (hb : b.WellFormed) {index : ℕ}
    {items : Finset T} (h : b.Denotes index items) (item : T) :
    b.hasItemAt index item = true ↔ item ∈ items := by
  have hset := hb.members_single h
  rw [h.holds item, hasItemAt]
  cases hlookup : b.itemIndex.lookup item with
  | none =>
    simp only [Bool.false_eq_true, false_iff]
    rintro ⟨j, hj, hitem⟩
    have := (hb.index item j).mpr ⟨(hset.single j hj).1, hitem⟩
    rw [hlookup] at this
    cases this
  | some i =>
    have hi := ((hb.index item i).mp hlookup).2
    have hmem : (∃ j ∈ b.members index, b.items[j / 2]? = some item) ↔ i ∈ b.members index := by
      constructor
      · rintro ⟨j, hj, hitem⟩
        rwa [← hb.eq_index hlookup (hset.single j hj).1 hitem]
      · exact fun hmem => ⟨i, hmem, hi⟩
    rw [hmem]
    simp only
    by_cases hsingle : isSingleItem index = true
    · rw [members, if_pos hsingle, if_pos hsingle, List.mem_singleton, beq_iff_eq]
      exact eq_comm
    · rw [members_of_set (by simpa using hsingle), if_neg hsingle, List.contains_iff_mem]

/-- The index of every holder stands for exactly the set that the holder's history gives. -/
theorem reachable_denotes {r : Run T} (h : Reachable hash uniq r) (index : ℕ) (items : Finset T)
    (hmem : (index, items) ∈ r.holders) :
    (∀ item, item ∈ r.builder.get index ↔ item ∈ items) ∧
      ∀ item, r.builder.hasItemAt index item = true ↔ item ∈ items := by
  obtain ⟨hb, hown⟩ := reachable_owned h
  have hdenotes := hown.denotes _ hmem
  exact ⟨fun item => mem_get.trans (hdenotes.holds item).symm, hasItemAt_iff hb hdenotes⟩

/-- Two holders of one set, of whom one then adds an item. -/
def sharedRun : Run ℕ :=
  let r1 := (create List.sum true).addRange List.sum true [10, 20]
  let r2 := r1.1.addRange List.sum true [20, 10]
  let r3 := r2.1.addTo List.sum true r2.2 30
  ⟨r3.1, (r3.2, insert 30 [20, 10].toFinset) ::ₘ (r1.2, [10, 20].toFinset) ::ₘ 0⟩

theorem sharedRun_reachable : Reachable List.sum true sharedRun :=
  (((Reachable.create).step (.addRange _ _ [10, 20])).step (.addRange _ _ [20, 10])).step
    (.addTo _ _ _ _ 30)

theorem reachable_denotes_shared :
    (3, {10, 20}) ∈ sharedRun.holders ∧
      (∀ item, item ∈ sharedRun.builder.get 3 ↔ item ∈ ({10, 20} : Finset ℕ)) ∧
      ∀ item, sharedRun.builder.hasItemAt 3 item = true ↔ item ∈ ({10, 20} : Finset ℕ) :=
  have hmem : (3, {10, 20}) ∈ sharedRun.holders := by decide
  ⟨hmem, reachable_denotes sharedRun_reachable 3 {10, 20} hmem⟩

end Runs

end CompactStorageBuilder
end TomitaParser.Gzt
