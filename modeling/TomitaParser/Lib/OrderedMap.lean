import Mathlib.Order.Lattice
import Mathlib.Data.List.Basic
import Mathlib.Data.List.Pairwise
import Mathlib.Order.Basic
/-! # Ordered maps as sorted lists

A map is the list of its entries, in the order of their keys. Its content is the function that finds
the value of a key: two maps with the same content are equal. -/

/-- A map with its entries in the order of their keys. -/
structure OrderedMap (κ : Type*) (α : Type*) [LinearOrder κ] where
  entries : List (κ × α)
  sorted : entries.Pairwise fun a b => a.1 < b.1

namespace OrderedMap
variable {κ α : Type*} [LinearOrder κ]

/-- The value of a key in a list of entries. -/
def lookup (k : κ) : List (κ × α) → Option α
  | [] => none
  | e :: l => if e.1 = k then some e.2 else lookup k l

/-- The entries with a value put under a key. -/
def insertEntry (k : κ) (v : α) : List (κ × α) → List (κ × α)
  | [] => [(k, v)]
  | e :: l =>
    if k < e.1 then (k, v) :: e :: l
    else if e.1 < k then e :: insertEntry k v l
    else (k, v) :: l

theorem mem_insertEntry {k : κ} {v : α} {l : List (κ × α)} {e : κ × α}
    (he : e ∈ insertEntry k v l) : e = (k, v) ∨ e ∈ l := by
  induction l with
  | nil => exact Or.inl (List.mem_singleton.mp he)
  | cons d l ih =>
    rw [insertEntry] at he
    split_ifs at he with hlt hgt
    · exact List.mem_cons.mp he
    · rcases List.mem_cons.mp he with rfl | he
      · exact Or.inr List.mem_cons_self
      · exact (ih he).imp_right (List.mem_cons_of_mem d)
    · exact (List.mem_cons.mp he).imp_right (List.mem_cons_of_mem d)

theorem sorted_insertEntry {k : κ} {v : α} {l : List (κ × α)}
    (hl : l.Pairwise fun a b => a.1 < b.1) :
    (insertEntry k v l).Pairwise fun a b => a.1 < b.1 := by
  induction l with
  | nil => exact List.pairwise_singleton _ _
  | cons d l ih =>
    obtain ⟨hd, htail⟩ := List.pairwise_cons.mp hl
    rw [insertEntry]
    split_ifs with hlt hgt
    · refine List.pairwise_cons.mpr ⟨fun e he => ?_, hl⟩
      rcases List.mem_cons.mp he with rfl | he
      · exact hlt
      · exact lt_trans hlt (hd e he)
    · refine List.pairwise_cons.mpr ⟨fun e he => ?_, ih htail⟩
      rcases mem_insertEntry he with rfl | he
      · exact hgt
      · exact hd e he
    · have heq : d.1 = k := le_antisymm (not_lt.mp hlt) (not_lt.mp hgt)
      exact List.pairwise_cons.mpr ⟨fun e he => heq ▸ hd e he, htail⟩

/-- The map without entries. -/
def empty : OrderedMap κ α := ⟨[], List.Pairwise.nil⟩

/-- The value of a key. -/
def find (m : OrderedMap κ α) (k : κ) : Option α := lookup k m.entries

/-- A value is put under a key, in place of the one that was there. -/
def insert (m : OrderedMap κ α) (k : κ) (v : α) : OrderedMap κ α :=
  ⟨insertEntry k v m.entries, sorted_insertEntry m.sorted⟩

/-- A value is put under a key that has none; a key that has one keeps it. -/
def insertNew (m : OrderedMap κ α) (k : κ) (v : α) : OrderedMap κ α :=
  if (m.find k).isSome then m else m.insert k v

/-- The entry of a key is taken out. -/
def erase (m : OrderedMap κ α) (k : κ) : OrderedMap κ α :=
  ⟨m.entries.filter (·.1 ≠ k), m.sorted.filter _⟩

/-- Entries are put into a map one after the other. -/
def insertAll (m : OrderedMap κ α) (l : List (κ × α)) : OrderedMap κ α :=
  l.foldl (fun m e => m.insert e.1 e.2) m

@[simp] theorem lookup_nil (k : κ) : lookup k ([] : List (κ × α)) = none := rfl

theorem lookup_eq_none {k : κ} {l : List (κ × α)} : lookup k l = none ↔ ∀ e ∈ l, e.1 ≠ k := by
  induction l with
  | nil => simp
  | cons d l ih =>
    rw [lookup]
    by_cases hd : d.1 = k
    · simp [hd]
    · simp [hd, ih]

theorem lookup_eq_some {k : κ} {v : α} {l : List (κ × α)}
    (hl : l.Pairwise fun a b => a.1 < b.1) : lookup k l = some v ↔ (k, v) ∈ l := by
  induction l with
  | nil => simp
  | cons d l ih =>
    obtain ⟨hd, htail⟩ := List.pairwise_cons.mp hl
    rw [lookup, List.mem_cons]
    split_ifs with hk
    · rw [Option.some.injEq]
      constructor
      · intro h
        exact Or.inl (Prod.ext hk.symm h.symm)
      · rintro (h | h)
        · rw [← h]
        · exact absurd hk (ne_of_lt (hd _ h))
    · rw [ih htail]
      constructor
      · exact Or.inr
      · rintro (h | h)
        · exact absurd (by rw [← h]) hk
        · exact h

theorem find_eq_some (m : OrderedMap κ α) {k : κ} {v : α} :
    m.find k = some v ↔ (k, v) ∈ m.entries := lookup_eq_some m.sorted

theorem find_eq_none (m : OrderedMap κ α) {k : κ} :
    m.find k = none ↔ ∀ e ∈ m.entries, e.1 ≠ k := lookup_eq_none

theorem lookup_insertEntry (k x : κ) (v : α) (l : List (κ × α)) :
    lookup x (insertEntry k v l) = if k = x then some v else lookup x l := by
  induction l with
  | nil => rfl
  | cons d l ih =>
    rw [insertEntry]
    by_cases hlt : k < d.1
    · rw [if_pos hlt, lookup]
    · by_cases hgt : d.1 < k
      · rw [if_neg hlt, if_pos hgt, lookup, ih, lookup]
        by_cases hx : d.1 = x
        · rw [if_pos hx, if_pos hx, if_neg (ne_of_gt (hx ▸ hgt))]
        · rw [if_neg hx, if_neg hx]
      · have hd : d.1 = k := le_antisymm (not_lt.mp hlt) (not_lt.mp hgt)
        rw [if_neg hlt, if_neg hgt, lookup, lookup, hd]
        by_cases hx : k = x
        · rw [if_pos hx, if_pos hx]
        · rw [if_neg hx, if_neg hx, if_neg hx]

@[simp] theorem find_empty (k : κ) : (empty : OrderedMap κ α).find k = none := rfl

theorem find_insert (m : OrderedMap κ α) (k x : κ) (v : α) :
    (m.insert k v).find x = if k = x then some v else m.find x :=
  lookup_insertEntry k x v m.entries

theorem find_insertNew (m : OrderedMap κ α) (k x : κ) (v : α) :
    (m.insertNew k v).find x = if k = x ∧ m.find x = none then some v else m.find x := by
  rw [insertNew]
  by_cases hk : k = x
  · subst hk
    cases h : m.find k with
    | none => simp [find_insert]
    | some w => simp [h]
  · have hno : ¬ (k = x ∧ m.find x = none) := fun h => hk h.1
    rw [if_neg hno]
    split_ifs
    · rfl
    · rw [find_insert, if_neg hk]

theorem find_erase (m : OrderedMap κ α) (k x : κ) :
    (m.erase k).find x = if k = x then none else m.find x := by
  split_ifs with hk
  · rw [find_eq_none]
    intro e he
    simpa [hk] using (List.mem_filter.mp he).2
  · cases hx : m.find x with
    | none =>
      rw [find_eq_none] at hx ⊢
      exact fun e he => hx e (List.mem_of_mem_filter he)
    | some v =>
      rw [find_eq_some] at hx ⊢
      exact List.mem_filter.mpr ⟨hx, by simpa using Ne.symm hk⟩

theorem eq_of_lookup {l l' : List (κ × α)} (hl : l.Pairwise fun a b => a.1 < b.1)
    (hl' : l'.Pairwise fun a b => a.1 < b.1) (h : ∀ k, lookup k l = lookup k l') : l = l' := by
  have hmem : ∀ e, e ∈ l ↔ e ∈ l' := by
    rintro ⟨k, v⟩
    rw [← lookup_eq_some hl, h k, lookup_eq_some hl']
  have hnodup : ∀ {s : List (κ × α)}, s.Pairwise (fun a b => a.1 < b.1) → s.Nodup := fun hs =>
    hs.imp fun hab heq => absurd (congrArg Prod.fst heq) (ne_of_lt hab)
  apply ((List.perm_ext_iff_of_nodup (hnodup hl) (hnodup hl')).mpr hmem).eq_of_pairwise _ hl hl'
  intro a b _ _ hab hba
  exact absurd (lt_trans hab hba) (lt_irrefl _)

@[ext] theorem ext {m m' : OrderedMap κ α} (h : ∀ k, m.find k = m'.find k) : m = m' := by
  have hentries : m.entries = m'.entries := eq_of_lookup m.sorted m'.sorted h
  cases m
  cases m'
  subst hentries
  rfl

theorem insert_insert (m : OrderedMap κ α) (k : κ) (v w : α) :
    (m.insert k v).insert k w = m.insert k w := by
  ext1 x
  simp only [find_insert]
  by_cases hk : k = x
  · rw [if_pos hk, if_pos hk]
  · rw [if_neg hk, if_neg hk, if_neg hk]

theorem find_insertAll (m : OrderedMap κ α) {l : List (κ × α)}
    (hl : l.Pairwise fun a b => a.1 < b.1) (x : κ) :
    (m.insertAll l).find x = (lookup x l).or (m.find x) := by
  induction l generalizing m with
  | nil => rfl
  | cons d l ih =>
    obtain ⟨hd, htail⟩ := List.pairwise_cons.mp hl
    have hrest : (m.insertAll (d :: l)).find x = (lookup x l).or ((m.insert d.1 d.2).find x) :=
      ih (m.insert d.1 d.2) htail
    rw [hrest, find_insert, lookup]
    by_cases hx : d.1 = x
    · have hnone : lookup x l = none := lookup_eq_none.mpr fun e he => hx ▸ ne_of_gt (hd e he)
      rw [if_pos hx, if_pos hx, hnone]
      rfl
    · rw [if_neg hx, if_neg hx]

theorem insertAll_entries (m : OrderedMap κ α) : empty.insertAll m.entries = m := by
  apply ext
  intro k
  rw [find_insertAll empty m.sorted, find_empty, Option.or_none]
  rfl

end OrderedMap
