import Mathlib.Data.List.Lex
import Mathlib.Data.List.Sort
/-! # Ternary search trees

A node has a symbol. To its left and to its right are the nodes with smaller and larger symbols at
the same place of a key, and forward are those for the next place. -/

namespace TernaryTree
variable {κ V : Type*}

/-- Where to go on from a node: `final` is the payload of the node itself. -/
inductive Direction where
  | left
  | final
  | next
  | right
  deriving DecidableEq, Repr

inductive Tree (κ V : Type*) where
  | nil
  | node (label : κ) (payload : Option V) (left forward right : Tree κ V)

/-- An entry behind a symbol. -/
def extend (label : κ) (entry : List κ × V) : List κ × V := (label :: entry.1, entry.2)

/-- The entry of the node itself, if it has a payload. -/
def own (label : κ) : Option V → List (List κ × V)
  | none => []
  | some v => [([label], v)]

namespace Tree

/-- The keys with their payloads, in the order of the tree. -/
def entries : Tree κ V → List (List κ × V)
  | nil => []
  | node label payload left forward right =>
    left.entries ++ (own label payload ++ (forward.entries.map (extend label) ++ right.entries))

/-- The symbols for the first place of a key. -/
def labels : Tree κ V → List κ
  | nil => []
  | node label _ left _ right => left.labels ++ label :: right.labels

/-- There is something at every end of the tree. -/
def Live : Tree κ V → Prop
  | nil => True
  | node _ payload left forward right =>
    (payload = none → forward ≠ nil) ∧ left.Live ∧ forward.Live ∧ right.Live

theorem mem_labels {t : Tree κ V} {entry : List κ × V} (h : entry ∈ t.entries) :
    ∃ c cs, entry.1 = c :: cs ∧ c ∈ t.labels := by
  induction t generalizing entry with
  | nil => simp [entries] at h
  | node label payload left forward right ihLeft _ ihRight =>
    simp only [entries, List.mem_append, List.mem_map] at h
    rcases h with h | h | ⟨later, -, rfl⟩ | h
    · obtain ⟨c, cs, hentry, hc⟩ := ihLeft h
      exact ⟨c, cs, hentry, List.mem_append_left _ hc⟩
    · cases payload with
      | none => simp [own] at h
      | some v =>
        rw [own, List.mem_singleton] at h
        exact ⟨label, [], by rw [h], by simp [labels]⟩
    · exact ⟨label, later.1, rfl, by simp [labels]⟩
    · obtain ⟨c, cs, hentry, hc⟩ := ihRight h
      exact ⟨c, cs, hentry, by simp [labels, hc]⟩

theorem exists_middle {label : κ} {payload : Option V} {forward : Tree κ V} {entry : List κ × V}
    (h : entry ∈ own label payload ++ forward.entries.map (extend label)) :
    ∃ cs, entry.1 = label :: cs := by
  rw [List.mem_append, List.mem_map] at h
  rcases h with h | ⟨later, -, rfl⟩
  · cases payload with
    | none => simp [own] at h
    | some v =>
      rw [own, List.mem_singleton] at h
      exact ⟨[], by rw [h]⟩
  · exact ⟨later.1, rfl⟩

variable [LinearOrder κ]

/-- The symbols of each place are in the order of a search tree. -/
def Ordered : Tree κ V → Prop
  | nil => True
  | node label _ left forward right =>
    (∀ c ∈ left.labels, c < label) ∧ (∀ c ∈ right.labels, label < c) ∧ left.Ordered ∧
      forward.Ordered ∧ right.Ordered

theorem own_lt_extend {label : κ} {payload : Option V} {entry : List κ × V}
    (hentry : entry ∈ own label payload) {later : List κ × V} (hne : later.1 ≠ []) :
    entry.1 < (extend label later).1 := by
  cases payload with
  | none => simp [own] at hentry
  | some v =>
    rw [own, List.mem_singleton] at hentry
    rw [hentry, extend, List.cons_lt_cons_iff]
    obtain ⟨c, cs, hcs⟩ := List.exists_cons_of_ne_nil hne
    rw [hcs]
    exact Or.inr ⟨rfl, List.nil_lt_cons c cs⟩

theorem Ordered.left_lt {label : κ} {payload : Option V} {left forward right : Tree κ V}
    (h : (node label payload left forward right).Ordered) {entry : List κ × V}
    (hentry : entry ∈ left.entries) {c : κ} (hc : label ≤ c) (cs : List κ) :
    entry.1 < c :: cs := by
  obtain ⟨d, ds, hd, hmem⟩ := mem_labels hentry
  rw [hd, List.cons_lt_cons_iff]
  exact Or.inl (lt_of_lt_of_le (h.1 d hmem) hc)

theorem Ordered.lt_right {label : κ} {payload : Option V} {left forward right : Tree κ V}
    (h : (node label payload left forward right).Ordered) {entry : List κ × V}
    (hentry : entry ∈ right.entries) {c : κ} (hc : c ≤ label) (cs : List κ) :
    c :: cs < entry.1 := by
  obtain ⟨d, ds, hd, hmem⟩ := mem_labels hentry
  rw [hd, List.cons_lt_cons_iff]
  exact Or.inl (lt_of_le_of_lt hc (h.2.1 d hmem))

/-- The entries come in the order of their keys. -/
theorem Ordered.sorted {t : Tree κ V} (h : t.Ordered) :
    t.entries.Pairwise fun entry later => entry.1 < later.1 := by
  induction t with
  | nil => exact List.Pairwise.nil
  | node label payload left forward right ihLeft ihForward ihRight =>
    have hmiddle : (own label payload ++ forward.entries.map (extend label)).Pairwise
        fun entry later => entry.1 < later.1 := by
      rw [List.pairwise_append]
      refine ⟨?_, ?_, ?_⟩
      · cases payload with
        | none => exact List.Pairwise.nil
        | some v => exact List.pairwise_singleton _ _
      · rw [List.pairwise_map]
        apply (ihForward h.2.2.2.1).imp
        intro entry later hlt
        rw [extend, extend, List.cons_lt_cons_iff]
        exact Or.inr ⟨rfl, hlt⟩
      · intro entry hentry later hlater
        obtain ⟨rest, hrest, rfl⟩ := List.mem_map.mp hlater
        obtain ⟨c, cs, hcs, -⟩ := mem_labels hrest
        exact own_lt_extend hentry (by simp [hcs])
    rw [entries, ← List.append_assoc (own label payload), List.pairwise_append,
      List.pairwise_append]
    refine ⟨ihLeft h.2.2.1, ⟨hmiddle, ihRight h.2.2.2.2, ?_⟩, ?_⟩
    · intro entry hentry later hlater
      obtain ⟨cs, hcs⟩ := exists_middle hentry
      rw [hcs]
      exact h.lt_right hlater (le_refl label) cs
    · intro entry hentry later hlater
      rcases List.mem_append.mp hlater with hlater | hlater
      · obtain ⟨cs, hcs⟩ := exists_middle hlater
        rw [hcs]
        exact h.left_lt hentry (le_refl label) cs
      · obtain ⟨c, cs, hcs, hc⟩ := mem_labels hlater
        rw [hcs]
        exact h.left_lt hentry (h.2.1 c hc).le cs

/-- What there is behind a symbol for the first place of a key. -/
def search : Tree κ V → κ → Option (Option V × Tree κ V)
  | nil, _ => none
  | node label payload left forward right, c =>
    if c < label then left.search c else if label < c then right.search c
    else some (payload, forward)

/-- How many entries are below a key, as a walk down the tree counts them. -/
def rank : Tree κ V → List κ → ℕ
  | nil, _ => 0
  | node _ _ _ _ _, [] => 0
  | node label payload left forward right, c :: cs =>
    if c < label then left.rank (c :: cs)
    else
      if label < c then
        left.entries.length + ((own label payload).length + (forward.entries.length +
          right.rank (c :: cs)))
      else
        left.entries.length +
          (if cs = [] then 0 else (own label payload).length + forward.rank cs)

theorem rank_nil_key (t : Tree κ V) : t.rank [] = 0 := by
  cases t <;> rfl

/-- The walk counts right. -/
theorem Ordered.countP_eq {t : Tree κ V} (h : t.Ordered) (key : List κ) :
    t.entries.countP (fun entry => entry.1 < key) = t.rank key := by
  induction t generalizing key with
  | nil => rfl
  | node label payload left forward right ihLeft ihForward ihRight =>
    cases key with
    | nil => simp [rank]
    | cons c cs =>
      rw [entries, List.countP_append, List.countP_append, List.countP_append, rank]
      have hnone : ∀ es : List (List κ × V), (∀ e ∈ es, c :: cs ≤ e.1) →
          es.countP (fun entry => entry.1 < c :: cs) = 0 := by
        intro es hes
        rw [List.countP_eq_zero]
        intro e he
        simpa using not_lt.mpr (hes e he)
      have hall : ∀ es : List (List κ × V), (∀ e ∈ es, e.1 < c :: cs) →
          es.countP (fun entry => entry.1 < c :: cs) = es.length := by
        intro es hes
        rw [List.countP_eq_length]
        intro e he
        simpa using hes e he
      by_cases hlt : c < label
      · rw [if_pos hlt, ihLeft h.2.2.1, hnone (own label payload), hnone (forward.entries.map _),
          hnone right.entries]
        · rfl
        · intro e he
          exact (h.lt_right he hlt.le cs).le
        · intro e he
          obtain ⟨ds, hds⟩ := @exists_middle κ V label payload forward e
            (List.mem_append_right _ he)
          rw [hds]
          exact (List.cons_lt_cons_iff.mpr (Or.inl hlt)).le
        · intro e he
          obtain ⟨ds, hds⟩ := @exists_middle κ V label payload forward e
            (List.mem_append_left _ he)
          rw [hds]
          exact (List.cons_lt_cons_iff.mpr (Or.inl hlt)).le
      · rw [if_neg hlt, hall left.entries]
        · by_cases hgt : label < c
          · rw [if_pos hgt, hall (own label payload), hall (forward.entries.map _),
              List.length_map, ihRight h.2.2.2.2]
            · intro e he
              obtain ⟨ds, hds⟩ := @exists_middle κ V label payload forward e
                (List.mem_append_right _ he)
              rw [hds]
              exact List.cons_lt_cons_iff.mpr (Or.inl hgt)
            · intro e he
              obtain ⟨ds, hds⟩ := @exists_middle κ V label payload forward e
                (List.mem_append_left _ he)
              rw [hds]
              exact List.cons_lt_cons_iff.mpr (Or.inl hgt)
          · obtain rfl : c = label := le_antisymm (not_lt.mp hgt) (not_lt.mp hlt)
            rw [if_neg hgt, hnone right.entries]
            · have hforward : (forward.entries.map (extend c)).countP
                  (fun entry => entry.1 < c :: cs) = forward.rank cs := by
                rw [List.countP_map, ← ihForward h.2.2.2.1]
                apply List.countP_congr
                intro e _
                simp [extend]
              rw [hforward]
              by_cases hcs : cs = []
              · rw [if_pos hcs, hcs, rank_nil_key]
                cases payload with
                | none => rfl
                | some v => simp [own]
              · rw [if_neg hcs, hall (own c payload), Nat.add_zero]
                intro e he
                exact @own_lt_extend κ V _ c payload e he (cs, e.2) hcs
            · intro e he
              exact (h.lt_right he (le_refl c) cs).le
        · intro e he
          exact h.left_lt he (not_lt.mp hlt) cs

end Tree

end TernaryTree
