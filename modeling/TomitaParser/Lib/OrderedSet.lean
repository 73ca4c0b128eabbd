import Mathlib.Data.List.Sort
import Mathlib.Data.List.Nodup
/-! # Ordered sets as sorted lists

A set ordered by a comparator holds no two elements that the comparator calls equivalent. It is
kept as the list of its elements in order. -/

namespace OrderedSet
variable {α : Type*}

/-- Neither element comes before the other. -/
def Equivalent (lt : α → α → Bool) (a b : α) : Prop := lt a b = false ∧ lt b a = false

/-- Insert in order; an element equivalent to one present is dropped. -/
def insertBy (lt : α → α → Bool) (a : α) : List α → List α
  | [] => [a]
  | b :: l =>
    if lt a b then a :: b :: l
    else if lt b a then b :: insertBy lt a l
    else b :: l

/-- Insert the elements of `as` one after the other. -/
def insertAll (lt : α → α → Bool) (as : List α) (l : List α) : List α :=
  as.foldl (fun l a => insertBy lt a l) l

variable {lt : α → α → Bool} {a x : α} {l : List α}

theorem mem_of_mem_insertBy (h : x ∈ insertBy lt a l) : x = a ∨ x ∈ l := by
  induction l with
  | nil => exact Or.inl (List.mem_singleton.mp h)
  | cons b l ih =>
    rw [insertBy] at h
    split_ifs at h with h1 h2
    · exact List.mem_cons.mp h
    · rcases List.mem_cons.mp h with h | h
      · exact Or.inr (h ▸ List.mem_cons_self)
      · exact (ih h).imp_right (List.mem_cons_of_mem b)
    · exact Or.inr h

theorem mem_insertBy_of_mem (h : x ∈ l) : x ∈ insertBy lt a l := by
  induction l with
  | nil => simp at h
  | cons b l ih =>
    rw [insertBy]
    split_ifs with h1 h2
    · exact List.mem_cons_of_mem a h
    · rcases List.mem_cons.mp h with h | h
      · exact h ▸ List.mem_cons_self
      · exact List.mem_cons_of_mem b (ih h)
    · exact h

theorem exists_equiv_mem_insertBy (a : α) (l : List α) :
    ∃ b ∈ insertBy lt a l, b = a ∨ (b ∈ l ∧ Equivalent lt a b) := by
  induction l with
  | nil => exact ⟨a, List.mem_singleton_self a, Or.inl rfl⟩
  | cons b l ih =>
    rw [insertBy]
    split_ifs with h1 h2
    · exact ⟨a, List.mem_cons_self, Or.inl rfl⟩
    · obtain ⟨c, hc, h⟩ := ih
      exact ⟨c, List.mem_cons_of_mem b hc, h.imp_right (And.imp_left (List.mem_cons_of_mem b))⟩
    · exact ⟨b, List.mem_cons_self,
        Or.inr ⟨List.mem_cons_self, by simpa using h1, by simpa using h2⟩⟩

theorem mem_insertBy (hext : ∀ b ∈ l, Equivalent lt a b → b = a) :
    x ∈ insertBy lt a l ↔ x = a ∨ x ∈ l := by
  constructor
  · exact mem_of_mem_insertBy
  · rintro (rfl | h)
    · obtain ⟨b, hb, rfl | ⟨hbl, he⟩⟩ := @exists_equiv_mem_insertBy α lt x l
      · exact hb
      · exact hext b hbl he ▸ hb
    · exact mem_insertBy_of_mem h

theorem length_insertBy_le : (insertBy lt a l).length ≤ l.length + 1 := by
  induction l with
  | nil => simp [insertBy]
  | cons b l ih =>
    rw [insertBy]
    split_ifs <;> simp only [List.length_cons] <;> omega

theorem length_le_insertBy : l.length ≤ (insertBy lt a l).length := by
  induction l with
  | nil => simp
  | cons b l ih =>
    rw [insertBy]
    split_ifs <;> simp only [List.length_cons] <;> omega

theorem pairwise_insertBy (htrans : ∀ a b c, lt a b = true → lt b c = true → lt a c = true)
    (h : l.Pairwise (lt · · = true)) : (insertBy lt a l).Pairwise (lt · · = true) := by
  induction l with
  | nil => simp [insertBy]
  | cons b l ih =>
    obtain ⟨hb, hl⟩ := List.pairwise_cons.mp h
    rw [insertBy]
    split_ifs with h1 h2
    · refine List.pairwise_cons.mpr ⟨fun c hc => ?_, h⟩
      rcases List.mem_cons.mp hc with rfl | hc
      · exact h1
      · exact htrans a b c h1 (hb c hc)
    · refine List.pairwise_cons.mpr ⟨fun c hc => ?_, ih hl⟩
      rcases mem_of_mem_insertBy hc with rfl | hc
      · exact h2
      · exact hb c hc
    · exact h

theorem insertBy_eq_or_length (a : α) (l : List α) :
    insertBy lt a l = l ∨ (insertBy lt a l).length = l.length + 1 := by
  induction l with
  | nil => exact Or.inr rfl
  | cons b l ih =>
    rw [insertBy]
    split_ifs with h1 h2
    · exact Or.inr rfl
    · exact ih.imp (congrArg (b :: ·)) (fun h => by rw [List.length_cons, h, List.length_cons])
    · exact Or.inl rfl

section insertAll

variable {as : List α}

theorem insertAll_cons (a : α) (as l : List α) :
    insertAll lt (a :: as) l = insertAll lt as (insertBy lt a l) := rfl

theorem mem_of_mem_insertAll (h : x ∈ insertAll lt as l) : x ∈ as ∨ x ∈ l := by
  induction as generalizing l with
  | nil => exact Or.inr h
  | cons a as ih =>
    rcases ih h with h | h
    · exact Or.inl (List.mem_cons_of_mem a h)
    · exact (mem_of_mem_insertBy h).imp_left (fun h => List.mem_cons.mpr (Or.inl h))

theorem mem_insertAll_of_mem (h : x ∈ l) : x ∈ insertAll lt as l := by
  induction as generalizing l with
  | nil => exact h
  | cons a as ih => exact ih (mem_insertBy_of_mem h)

theorem mem_insertAll
    (hext : ∀ a ∈ as, ∀ b, (b ∈ as ∨ b ∈ l) → Equivalent lt a b → b = a) :
    x ∈ insertAll lt as l ↔ x ∈ as ∨ x ∈ l := by
  refine ⟨mem_of_mem_insertAll, ?_⟩
  induction as generalizing l with
  | nil => simp [insertAll]
  | cons a as ih =>
    rintro (h | h)
    · rcases List.mem_cons.mp h with rfl | h
      · have hx : x ∈ insertBy lt x l :=
          (mem_insertBy fun b hb he => hext x List.mem_cons_self b (Or.inr hb) he).mpr (Or.inl rfl)
        rw [insertAll_cons]
        exact mem_insertAll_of_mem hx
      · refine ih (fun c hc b hb he => ?_) (Or.inl h)
        refine hext c (List.mem_cons_of_mem a hc) b ?_ he
        rcases hb with hb | hb
        · exact Or.inl (List.mem_cons_of_mem a hb)
        · exact (mem_of_mem_insertBy hb).imp_left (fun h => List.mem_cons.mpr (Or.inl h))
    · exact mem_insertAll_of_mem h

theorem exists_equiv_mem_insertAll (ha : a ∈ as) :
    ∃ b ∈ insertAll lt as l, b = a ∨ Equivalent lt a b := by
  induction as generalizing l with
  | nil => exact absurd ha List.not_mem_nil
  | cons c as ih =>
    rw [insertAll_cons]
    rcases List.mem_cons.mp ha with rfl | ha
    · obtain ⟨b, hb, h⟩ := @exists_equiv_mem_insertBy α lt a l
      exact ⟨b, mem_insertAll_of_mem hb, h.imp_right And.right⟩
    · exact ih ha

theorem pairwise_insertAll (htrans : ∀ a b c, lt a b = true → lt b c = true → lt a c = true)
    (h : l.Pairwise (lt · · = true)) : (insertAll lt as l).Pairwise (lt · · = true) := by
  induction as generalizing l with
  | nil => exact h
  | cons a as ih => exact ih (pairwise_insertBy htrans h)

theorem length_le_insertAll : l.length ≤ (insertAll lt as l).length := by
  induction as generalizing l with
  | nil => exact le_refl _
  | cons a as ih => exact le_trans length_le_insertBy ih

theorem insertAll_eq_of_length_le (h : (insertAll lt as l).length ≤ l.length) :
    insertAll lt as l = l := by
  induction as generalizing l with
  | nil => rfl
  | cons a as ih =>
    rw [insertAll_cons] at h ⊢
    rcases @insertBy_eq_or_length α lt a l with he | hlen
    · rw [he] at h ⊢
      exact ih h
    · have := @length_le_insertAll α lt (insertBy lt a l) as
      omega

end insertAll

/-- A comparator that tells different elements apart. -/
structure Total (lt : α → α → Bool) : Prop where
  irrefl : ∀ a, lt a a = false
  trans : ∀ a b c, lt a b = true → lt b c = true → lt a c = true
  ext : ∀ a b, Equivalent lt a b → b = a

section Total
variable {as bs : List α} (hlt : Total lt)
include hlt

theorem Total.asymm {a b : α} (h : lt a b = true) : lt b a = false := by
  by_contra hba
  have haa := hlt.trans a b a h (by simpa using hba)
  rw [hlt.irrefl] at haa
  cases haa

theorem Total.insertBy_self (a : α) (l : List α) :
    insertBy lt a (insertBy lt a l) = insertBy lt a l := by
  have hirrefl := hlt.irrefl a
  induction l with
  | nil => simp [insertBy, hirrefl]
  | cons b l ih =>
    by_cases hab : lt a b = true
    · simp [insertBy, hab, hirrefl]
    · by_cases hba : lt b a = true
      · simp [insertBy, hab, hba, ih]
      · simp [insertBy, hab, hba]

theorem Total.insertBy_comm_of_lt {a b : α} (hab : lt a b = true) (l : List α) :
    insertBy lt a (insertBy lt b l) = insertBy lt b (insertBy lt a l) := by
  have hba := hlt.asymm hab
  induction l with
  | nil => simp [insertBy, hab, hba]
  | cons c l ih => grind [insertBy, hlt.trans, hlt.asymm, hlt.ext, Equivalent]

theorem Total.insertBy_comm (a b : α) (l : List α) :
    insertBy lt a (insertBy lt b l) = insertBy lt b (insertBy lt a l) := by
  by_cases hab : lt a b = true
  · exact hlt.insertBy_comm_of_lt hab l
  · by_cases hba : lt b a = true
    · exact (hlt.insertBy_comm_of_lt hba l).symm
    · rw [hlt.ext a b ⟨by simpa using hab, by simpa using hba⟩]

theorem Total.insertAll_insertBy (a : α) (as l : List α) :
    insertAll lt as (insertBy lt a l) = insertBy lt a (insertAll lt as l) := by
  induction as generalizing l with
  | nil => rfl
  | cons b as ih => rw [insertAll_cons, insertAll_cons, hlt.insertBy_comm b a, ih]

theorem Total.insertAll_comm (as bs l : List α) :
    insertAll lt as (insertAll lt bs l) = insertAll lt bs (insertAll lt as l) := by
  induction bs generalizing l with
  | nil => rfl
  | cons b bs ih => rw [insertAll_cons, insertAll_cons, ih, hlt.insertAll_insertBy]

theorem Total.insertBy_insertAll (ha : a ∈ as) (l : List α) :
    insertBy lt a (insertAll lt as l) = insertAll lt as l := by
  induction as generalizing l with
  | nil => exact absurd ha List.not_mem_nil
  | cons b as ih =>
    rcases List.mem_cons.mp ha with rfl | ha
    · rw [insertAll_cons, hlt.insertAll_insertBy, hlt.insertBy_self]
    · exact ih ha _

theorem Total.insertAll_of_subset (h : ∀ b ∈ bs, b ∈ as) (l : List α) :
    insertAll lt bs (insertAll lt as l) = insertAll lt as l := by
  induction bs with
  | nil => rfl
  | cons b bs ih =>
    rw [insertAll_cons, hlt.insertBy_insertAll (h b List.mem_cons_self)]
    exact ih fun c hc => h c (List.mem_cons_of_mem b hc)

theorem Total.insertAll_congr (h : ∀ x, x ∈ as ↔ x ∈ bs) (l : List α) :
    insertAll lt as l = insertAll lt bs l := by
  calc insertAll lt as l = insertAll lt bs (insertAll lt as l) :=
        (hlt.insertAll_of_subset (fun b hb => (h b).mpr hb) l).symm
    _ = insertAll lt as (insertAll lt bs l) := hlt.insertAll_comm bs as l
    _ = insertAll lt bs l := hlt.insertAll_of_subset (fun a ha => (h a).mp ha) l

end Total

/-- The natural numbers in increasing order. -/
def natLt (a b : ℕ) : Bool := decide (a < b)

theorem natLt_trans (a b c : ℕ) (hab : natLt a b = true) (hbc : natLt b c = true) :
    natLt a c = true := by
  simp only [natLt, decide_eq_true_eq] at *
  omega

theorem natLt_ext {a b : ℕ} (h : Equivalent natLt a b) : b = a := by
  simp only [Equivalent, natLt, decide_eq_false_iff_not] at h
  omega

@[simp] theorem mem_insertBy_natLt {a x : ℕ} {l : List ℕ} :
    x ∈ insertBy natLt a l ↔ x = a ∨ x ∈ l :=
  mem_insertBy fun _ _ h => natLt_ext h

@[simp] theorem mem_insertAll_natLt {x : ℕ} {as l : List ℕ} :
    x ∈ insertAll natLt as l ↔ x ∈ as ∨ x ∈ l :=
  mem_insertAll fun _ _ _ _ h => natLt_ext h

end OrderedSet
