import Mathlib.Data.List.Basic
/-! # Maps ordered by a comparison

The entries of a map stand in the order of a comparison, and a search takes the first entry that is
not less than the key, if the key is not less than it. The search finds what was put under a key,
as long as the comparison is a strict total order on the keys in use. -/

namespace ComparedMap
variable {κ α : Type} (lt : κ → κ → Bool)

/-- The values under a key. -/
def find (k : κ) : List (κ × List α) → Option (List α)
  | [] => none
  | e :: m => if lt e.1 k then find k m else if lt k e.1 then none else some e.2

/-- A value is added behind those under a key. -/
def pushBack (k : κ) (x : α) : List (κ × List α) → List (κ × List α)
  | [] => [(k, [x])]
  | e :: m =>
    if lt e.1 k then e :: pushBack k x m
    else if lt k e.1 then (k, [x]) :: e :: m
    else (e.1, e.2 ++ [x]) :: m

/-- The values under a key, none where there is no entry. -/
def valuesAt (k : κ) (m : List (κ × List α)) : List α := (find lt k m).getD []

/-- The comparison is a strict total order on some keys. -/
structure TotalOn (p : κ → Prop) : Prop where
  irrefl : ∀ {a}, p a → lt a a = false
  trans : ∀ {a b c}, p a → p b → p c → lt a b = true → lt b c = true → lt a c = true
  connected : ∀ {a b}, p a → p b → a ≠ b → lt a b = true ∨ lt b a = true

variable {lt} {p : κ → Prop}

theorem TotalOn.asymm (h : TotalOn lt p) {a b : κ} (ha : p a) (hb : p b) (hab : lt a b = true) :
    lt b a = false := by
  by_contra hba
  have haa := h.trans ha hb ha hab (eq_true_of_ne_false hba)
  rw [h.irrefl ha] at haa
  cases haa

theorem TotalOn.eq_of_not_lt (h : TotalOn lt p) {a b : κ} (ha : p a) (hb : p b)
    (hab : lt a b = false) (hba : lt b a = false) : a = b := by
  by_contra hne
  rcases h.connected ha hb hne with hlt | hlt
  · rw [hab] at hlt
    cases hlt
  · rw [hba] at hlt
    cases hlt

theorem valuesAt_of_not_mem (h : TotalOn lt p) {k : κ} (hk : p k) :
    ∀ {m : List (κ × List α)}, (∀ e ∈ m, p e.1) → (∀ e ∈ m, e.1 ≠ k) → valuesAt lt k m = [] := by
  intro m
  induction m with
  | nil =>
    intro _ _
    rfl
  | cons e m ih =>
    intro hkeys hne
    have he := hkeys e List.mem_cons_self
    rw [valuesAt, find]
    by_cases hlt : lt e.1 k = true
    · rw [if_pos hlt]
      exact ih (fun d hd => hkeys d (List.mem_cons_of_mem e hd))
        fun d hd => hne d (List.mem_cons_of_mem e hd)
    · rw [if_neg hlt]
      rcases h.connected he hk (hne e List.mem_cons_self) with hlt' | hlt'
      · exact absurd hlt' hlt
      · rw [if_pos hlt']
        rfl

theorem key_of_mem_pushBack {k : κ} {x : α} {e : κ × List α} :
    ∀ {m : List (κ × List α)}, e ∈ pushBack lt k x m → e.1 = k ∨ ∃ d ∈ m, d.1 = e.1 := by
  intro m
  induction m with
  | nil =>
    intro he
    rw [pushBack, List.mem_singleton] at he
    exact Or.inl (congrArg Prod.fst he)
  | cons d m ih =>
    intro he
    rw [pushBack] at he
    split_ifs at he with hlt hgt
    · rcases List.mem_cons.mp he with rfl | he
      · exact Or.inr ⟨e, List.mem_cons_self, rfl⟩
      · rcases ih he with h | ⟨d', hd', h⟩
        · exact Or.inl h
        · exact Or.inr ⟨d', List.mem_cons_of_mem d hd', h⟩
    · rcases List.mem_cons.mp he with rfl | he
      · exact Or.inl rfl
      · exact Or.inr ⟨e, he, rfl⟩
    · rcases List.mem_cons.mp he with rfl | he
      · exact Or.inr ⟨d, List.mem_cons_self, rfl⟩
      · exact Or.inr ⟨e, List.mem_cons_of_mem d he, rfl⟩

/-- A value that is put under a key is found there, and the other keys find what they did. -/
theorem valuesAt_pushBack [DecidableEq κ] (h : TotalOn lt p) {k k' : κ} (hk : p k) (hk' : p k')
    (x : α) : ∀ {m : List (κ × List α)}, (∀ e ∈ m, p e.1) →
    valuesAt lt k' (pushBack lt k x m) =
      if k' = k then valuesAt lt k m ++ [x] else valuesAt lt k' m := by
  intro m
  induction m with
  | nil =>
    intro _
    by_cases heq : k' = k
    · subst heq
      simp [valuesAt, pushBack, find, h.irrefl hk]
    · rw [if_neg heq]
      simp only [valuesAt, pushBack, find]
      rcases h.connected hk hk' (Ne.symm heq) with hlt | hlt
      · simp [hlt]
      · simp [hlt, h.asymm hk' hk hlt]
  | cons e m ih =>
    intro hkeys
    have he := hkeys e List.mem_cons_self
    have hm : ∀ d ∈ m, p d.1 := fun d hd => hkeys d (List.mem_cons_of_mem e hd)
    have htail := ih hm
    simp only [valuesAt] at htail ⊢
    by_cases hlt : lt e.1 k = true
    · simp only [pushBack, hlt, if_true, find]
      by_cases hlt' : lt e.1 k' = true
      · simp only [hlt', if_true]
        exact htail
      · have hne : k' ≠ k := by
          rintro rfl
          exact hlt' hlt
        simp only [hlt', Bool.false_eq_true, if_false, hne]
    · by_cases hgt : lt k e.1 = true
      · simp only [pushBack, hlt, hgt, Bool.false_eq_true, if_false, if_true, find]
        by_cases heq : k' = k
        · subst heq
          simp [h.irrefl hk]
        · simp only [heq, if_false]
          rcases h.connected hk hk' (Ne.symm heq) with hlt' | hlt'
          · simp [hlt']
          · have hk'e : lt k' e.1 = true := h.trans hk' hk he hlt' hgt
            simp [hlt', h.asymm hk' hk hlt', hk'e, h.asymm hk' he hk'e]
      · have hek : e.1 = k := h.eq_of_not_lt he hk (eq_false_of_ne_true hlt)
          (eq_false_of_ne_true hgt)
        simp only [pushBack, hlt, hgt, Bool.false_eq_true, if_false, find]
        by_cases heq : k' = k
        · simp [heq, hek, h.irrefl hk]
        · simp only [heq, if_false]
          rcases h.connected he hk' (by rw [hek]; exact Ne.symm heq) with hlt' | hlt'
          · simp [hlt']
          · simp [hlt', h.asymm hk' he hlt']

end ComparedMap
