import Mathlib.Data.List.Nodup
import Mathlib.Data.List.Infix
import Mathlib.Data.Finset.Card
import Mathlib.Data.Finset.Range
import Mathlib.Logic.Relation
/-! # Connected components by a growing work list

The numbers below `n` are taken up in turn. The component of a number that is not marked yet is
collected in a list that grows while it is read; only later numbers are looked at. -/

namespace Components
variable (rel : ℕ → ℕ → Bool) (n : ℕ)

structure Search where
  processed : ℕ → Bool
  current : List ℕ

/-- A number related to `c` is marked and put to the list, if it is not marked yet. -/
def visit (c : ℕ) (s : Search) (j : ℕ) : Search :=
  if !s.processed j && rel c j then ⟨fun k => k == j || s.processed k, s.current ++ [j]⟩ else s

/-- The numbers behind the seed are looked at. -/
def scan (seed c : ℕ) (s : Search) : Search :=
  (List.range' (seed + 1) (n - (seed + 1))).foldl (visit rel c) s

/-- The list from the place `place` on is read to its end. -/
def grow (seed : ℕ) : ℕ → ℕ → Search → Option Search
  | 0, _, _ => none
  | fuel + 1, place, s =>
    match s.current[place]? with
    | none => some s
    | some c => grow seed fuel (place + 1) (scan rel n seed c s)

/-- The lists of all seeds among some numbers. -/
def collect (fuel : ℕ) : List ℕ → (ℕ → Bool) → Option (List (List ℕ))
  | [], _ => some []
  | seed :: seeds, processed =>
    if processed seed then collect fuel seeds processed
    else (grow rel n seed fuel 0 ⟨processed, [seed]⟩).bind fun s =>
      (collect fuel seeds s.processed).map (s.current :: ·)

/-- Two numbers below `n` that a chain of related ones connects. -/
def Connected : ℕ → ℕ → Prop :=
  Relation.ReflTransGen fun i j => i < n ∧ j < n ∧ rel i j = true

variable {rel n}

theorem Connected.symm (hrel : ∀ i j, rel i j = rel j i) {i j : ℕ} (h : Connected rel n i j) :
    Connected rel n j i := by
  induction h with
  | refl => exact Relation.ReflTransGen.refl
  | tail _ hstep ih =>
    exact Relation.ReflTransGen.head ⟨hstep.2.1, hstep.1, by rw [hrel]; exact hstep.2.2⟩ ih

theorem Connected.mem_of_closed {i j : ℕ} (h : Connected rel n i j) {inside : ℕ → Prop}
    (hclosed : ∀ a b, inside a → b < n → rel a b = true → inside b) (hi : inside i) :
    inside j := by
  induction h with
  | refl => exact hi
  | tail _ hstep ih => exact hclosed _ _ ih hstep.2.1 hstep.2.2

/-- What the list of a seed has grown to, when its entries before `place` have been read. -/
structure Grown (rel : ℕ → ℕ → Bool) (n seed : ℕ) (before : ℕ → Bool) (s : Search) : Prop where
  head : ∃ rest, s.current = seed :: rest ∧ ∀ j ∈ rest, seed < j ∧ before j = false
  nodup : s.current.Nodup
  lt : ∀ j ∈ s.current, j < n
  connected : ∀ j ∈ s.current, Connected rel n seed j
  processed : ∀ j, s.processed j = true ↔ before j = true ∨ j ∈ s.current ∧ j ≠ seed

/-- The numbers of a component. -/
structure IsComponent (rel : ℕ → ℕ → Bool) (n : ℕ) (component : List ℕ) : Prop where
  nodup : component.Nodup
  mem_iff : ∃ seed < n, seed ∈ component ∧
    ∀ j, j ∈ component ↔ j < n ∧ Connected rel n seed j

theorem IsComponent.mem_iff_connected (hrel : ∀ i j, rel i j = rel j i) {component : List ℕ}
    (h : IsComponent rel n component) {i : ℕ} (hi : i ∈ component) (j : ℕ) :
    j ∈ component ↔ j < n ∧ Connected rel n i j := by
  obtain ⟨-, seed, -, -, hmem⟩ := h
  have hseed := ((hmem i).mp hi).2
  rw [hmem j]
  constructor
  · intro hj
    exact ⟨hj.1, (hseed.symm hrel).trans hj.2⟩
  · intro hj
    exact ⟨hj.1, hseed.trans hj.2⟩

theorem Grown.start {seed : ℕ} {before : ℕ → Bool} (hlt : seed < n) :
    Grown rel n seed before ⟨before, [seed]⟩ where
  head := ⟨[], rfl, by simp⟩
  nodup := List.nodup_singleton seed
  lt j hj := by
    rw [List.mem_singleton.mp hj]
    exact hlt
  connected j hj := by
    rw [List.mem_singleton.mp hj]
    exact Relation.ReflTransGen.refl
  processed j := by
    constructor
    · intro h
      exact Or.inl h
    · intro h
      rcases h with h | ⟨hj, hne⟩
      · exact h
      · exact absurd (List.mem_singleton.mp hj) hne

/-- A turn of the scan keeps what holds of the list, marks the number if it is related, and takes
nothing away. -/
theorem Grown.visit {seed c j : ℕ} {before : ℕ → Bool} {s : Search}
    (h : Grown rel n seed before s) (hc : c ∈ s.current) (hj : seed < j) (hlt : j < n) :
    Grown rel n seed before (visit rel c s j) ∧ s.current <+: (visit rel c s j).current ∧
      (∀ k, s.processed k = true → (visit rel c s j).processed k = true) ∧
      (rel c j = true → (visit rel c s j).processed j = true) := by
  rw [Components.visit]
  by_cases hnew : (!s.processed j && rel c j) = true
  · rw [if_pos hnew]
    rw [Bool.and_eq_true, Bool.not_eq_true'] at hnew
    obtain ⟨hmarked, hrelated⟩ := hnew
    have hbefore : before j = false := by
      by_contra hno
      rw [Bool.not_eq_false] at hno
      have := (h.processed j).mpr (Or.inl hno)
      rw [hmarked] at this
      cases this
    have hfresh : j ∉ s.current := by
      intro hmem
      have := (h.processed j).mpr (Or.inr ⟨hmem, by omega⟩)
      rw [hmarked] at this
      cases this
    obtain ⟨rest, hcurrent, hrest⟩ := h.head
    refine ⟨⟨⟨rest ++ [j], by rw [hcurrent]; rfl, ?_⟩, ?_, ?_, ?_, ?_⟩, List.prefix_append _ _,
      ?_, ?_⟩
    · intro k hk
      rcases List.mem_append.mp hk with hk | hk
      · exact hrest k hk
      · rw [List.mem_singleton.mp hk]
        exact ⟨hj, hbefore⟩
    · exact List.nodup_append.mpr ⟨h.nodup, List.nodup_singleton j, by
        intro a ha b hb
        rw [List.mem_singleton.mp hb]
        rintro rfl
        exact hfresh ha⟩
    · intro k hk
      rcases List.mem_append.mp hk with hk | hk
      · exact h.lt k hk
      · rw [List.mem_singleton.mp hk]
        exact hlt
    · intro k hk
      rcases List.mem_append.mp hk with hk | hk
      · exact h.connected k hk
      · rw [List.mem_singleton.mp hk]
        exact (h.connected c hc).tail ⟨h.lt c hc, hlt, hrelated⟩
    · intro k
      dsimp only
      rw [Bool.or_eq_true, beq_iff_eq, h.processed k, List.mem_append, List.mem_singleton]
      constructor
      · intro hk
        rcases hk with rfl | hk | hk
        · exact Or.inr ⟨Or.inr rfl, by omega⟩
        · exact Or.inl hk
        · exact Or.inr ⟨Or.inl hk.1, hk.2⟩
      · intro hk
        rcases hk with hk | ⟨hk | hk, hne⟩
        · exact Or.inr (Or.inl hk)
        · exact Or.inr (Or.inr ⟨hk, hne⟩)
        · exact Or.inl hk
    · intro k hk
      dsimp only
      rw [hk, Bool.or_true]
    · intro _
      dsimp only
      rw [beq_self_eq_true, Bool.true_or]
  · rw [if_neg hnew]
    refine ⟨h, List.prefix_refl _, fun k hk => hk, ?_⟩
    intro hrelated
    rw [hrelated, Bool.and_true, Bool.not_eq_true', Bool.not_eq_false] at hnew
    exact hnew

theorem Grown.foldl {seed c : ℕ} {before : ℕ → Bool} (numbers : List ℕ) : ∀ {s : Search},
    Grown rel n seed before s → c ∈ s.current → (∀ j ∈ numbers, seed < j ∧ j < n) →
    Grown rel n seed before (numbers.foldl (Components.visit rel c) s) ∧
      s.current <+: (numbers.foldl (Components.visit rel c) s).current ∧
      (∀ k, s.processed k = true →
        (numbers.foldl (Components.visit rel c) s).processed k = true) ∧
      ∀ j ∈ numbers, rel c j = true →
        (numbers.foldl (Components.visit rel c) s).processed j = true := by
  induction numbers with
  | nil =>
    intro s h _ _
    exact ⟨h, List.prefix_refl _, fun k hk => hk, by simp⟩
  | cons j numbers ih =>
    intro s h hc hnumbers
    obtain ⟨hj, hlt⟩ := hnumbers j List.mem_cons_self
    obtain ⟨hvisit, hpre, hkeeps, hmarks⟩ := h.visit hc hj hlt
    obtain ⟨hrest, hpre', hkeeps', hmarks'⟩ := ih hvisit (hpre.subset hc)
      fun k hk => hnumbers k (List.mem_cons_of_mem j hk)
    rw [List.foldl_cons]
    refine ⟨hrest, hpre.trans hpre', fun k hk => hkeeps' k (hkeeps k hk), ?_⟩
    intro k hk hrelated
    rcases List.mem_cons.mp hk with rfl | hk
    · exact hkeeps' k (hmarks hrelated)
    · exact hmarks' k hk hrelated

theorem Grown.length_le {seed : ℕ} {before : ℕ → Bool} {s : Search}
    (h : Grown rel n seed before s) : s.current.length ≤ n := by
  have hsubset : s.current.toFinset ⊆ Finset.range n := by
    intro j hj
    exact Finset.mem_range.mpr (h.lt j (List.mem_toFinset.mp hj))
  calc s.current.length = s.current.toFinset.card := (List.toFinset_card_of_nodup h.nodup).symm
    _ ≤ (Finset.range n).card := Finset.card_le_card hsubset
    _ = n := Finset.card_range n

/-- Every number behind the seed that is related to one of the list is marked. -/
def Closed (rel : ℕ → ℕ → Bool) (n seed : ℕ) (s : Search) : Prop :=
  ∀ c ∈ s.current, ∀ j, seed < j → j < n → rel c j = true → s.processed j = true

/-- The list is read to its end. -/
theorem grow_spec {seed : ℕ} {before : ℕ → Bool} (left : ℕ) : ∀ (place : ℕ) (s : Search),
    Grown rel n seed before s → place ≤ s.current.length → n ≤ place + left →
    (∀ c ∈ s.current.take place, ∀ j, seed < j → j < n → rel c j = true →
      s.processed j = true) →
    ∃ s', (∀ fuel, left < fuel → grow rel n seed fuel place s = some s') ∧
      Grown rel n seed before s' ∧ Closed rel n seed s' := by
  induction left with
  | zero =>
    intro place s h hplace hleft hread
    have hend : s.current.length = place := by
      have := h.length_le
      omega
    refine ⟨s, ?_, h, ?_⟩
    · intro fuel hfuel
      cases fuel with
      | zero => omega
      | succ fuel => rw [grow, List.getElem?_eq_none (by omega)]
    · intro c hc
      rw [← hend, List.take_length] at hread
      exact hread c hc
  | succ left ih =>
    intro place s h hplace hleft hread
    cases hnext : s.current[place]? with
    | none =>
      have hend : s.current.length = place := by
        have := List.getElem?_eq_none_iff.mp hnext
        omega
      refine ⟨s, ?_, h, ?_⟩
      · intro fuel hfuel
        cases fuel with
        | zero => omega
        | succ fuel => rw [grow, hnext]
      · intro c hc
        rw [← hend, List.take_length] at hread
        exact hread c hc
    | some c =>
      obtain ⟨hlt, hget⟩ := List.getElem?_eq_some_iff.mp hnext
      have hc : c ∈ s.current := List.mem_of_getElem? hnext
      obtain ⟨hgrown, hpre, hkeeps, hmarks⟩ := Grown.foldl
        (List.range' (seed + 1) (n - (seed + 1))) h hc (by
          intro j hj
          rw [List.mem_range'_1] at hj
          omega)
      obtain ⟨s', hruns, hfinal⟩ := ih (place + 1) (scan rel n seed c s) hgrown
        (Nat.succ_le_of_lt (hlt.trans_le hpre.length_le)) (by omega) (by
          intro d hd j hseed hj hrelated
          have htake : (scan rel n seed c s).current.take (place + 1) =
              s.current.take (place + 1) := by
            obtain ⟨more, hmore⟩ := hpre
            rw [scan, ← hmore, List.take_append_of_le_length (by omega)]
          rw [htake, List.take_add_one, hnext] at hd
          rcases List.mem_append.mp hd with hd | hd
          · exact hkeeps j (hread d hd j hseed hj hrelated)
          · have hdc : d = c := by simpa using hd
            rw [hdc] at hrelated
            exact hmarks j (List.mem_range'_1.mpr (by omega)) hrelated)
      refine ⟨s', ?_, hfinal⟩
      intro fuel hfuel
      cases fuel with
      | zero => omega
      | succ fuel =>
        rw [grow, hnext]
        exact hruns fuel (by omega)

/-- The numbers that have been dealt with are closed under the relation. -/
def Settled (rel : ℕ → ℕ → Bool) (n : ℕ) (done : ℕ → Prop) : Prop :=
  ∀ a b, a < n → done a → b < n → rel a b = true → done b

/-- The list of a seed is its component. -/
theorem Grown.isComponent (hrel : ∀ i j, rel i j = rel j i) {seed : ℕ} {before : ℕ → Bool}
    {s : Search} (hlt : seed < n) (hseed : before seed = false) (h : Grown rel n seed before s)
    (hclosed : Closed rel n seed s)
    (hsettled : Settled rel n fun j => j < seed ∨ before j = true) :
    IsComponent rel n s.current := by
  obtain ⟨rest, hcurrent, hrest⟩ := h.head
  have hmem : seed ∈ s.current := by
    rw [hcurrent]
    exact List.mem_cons_self
  have hnotDone : ∀ c ∈ s.current, ¬ (c < seed ∨ before c = true) := by
    intro c hc
    rw [hcurrent] at hc
    rcases List.mem_cons.mp hc with rfl | hc
    · rw [hseed]
      simp
    · obtain ⟨hgt, hbefore⟩ := hrest c hc
      rw [hbefore]
      simp only [Bool.false_eq_true, or_false]
      omega
  have hstep : ∀ a b, a ∈ s.current → b < n → rel a b = true → b ∈ s.current := by
    intro a b ha hb hrelated
    have hback : ¬ (b < seed ∨ before b = true) := fun hdone =>
      hnotDone a ha (hsettled b a hb hdone (h.lt a ha) (by rw [hrel]; exact hrelated))
    by_cases heq : b = seed
    · rw [heq]
      exact hmem
    · have hmarked := hclosed a ha b (by omega) hb hrelated
      rcases (h.processed b).mp hmarked with hbefore | ⟨hcurrent, -⟩
      · exact absurd (Or.inr hbefore) hback
      · exact hcurrent
  refine ⟨h.nodup, seed, hlt, hmem, ?_⟩
  intro j
  constructor
  · intro hj
    exact ⟨h.lt j hj, h.connected j hj⟩
  · intro hj
    exact hj.2.mem_of_closed hstep hmem

/-- After the list of a seed the numbers up to it and the marked ones are settled. -/
theorem Grown.settled {seed : ℕ} {before : ℕ → Bool}
    {s : Search} (h : Grown rel n seed before s) (hcomponent : IsComponent rel n s.current)
    (hsettled : Settled rel n fun j => j < seed ∨ before j = true) :
    Settled rel n fun j => j < seed + 1 ∨ s.processed j = true := by
  obtain ⟨rest, hcurrent, -⟩ := h.head
  obtain ⟨-, first, -, -, hmem⟩ := hcomponent
  have hdone : ∀ j, (j < seed + 1 ∨ s.processed j = true) ↔
      (j < seed ∨ before j = true) ∨ j ∈ s.current := by
    intro j
    rw [h.processed j]
    by_cases heq : j = seed
    · have hmemSeed : j ∈ s.current := by
        rw [heq, hcurrent]
        exact List.mem_cons_self
      constructor
      · intro _
        exact Or.inr hmemSeed
      · intro _
        exact Or.inl (by omega)
    · constructor
      · intro hj
        rcases hj with hj | hj | hj
        · exact Or.inl (Or.inl (by omega))
        · exact Or.inl (Or.inr hj)
        · exact Or.inr hj.1
      · intro hj
        rcases hj with (hj | hj) | hj
        · exact Or.inl (by omega)
        · exact Or.inr (Or.inl hj)
        · exact Or.inr (Or.inr ⟨hj, heq⟩)
  intro a b ha hdoneA hb hrelated
  rw [hdone] at hdoneA ⊢
  rcases hdoneA with hdoneA | hcurrentA
  · exact Or.inl (hsettled a b ha hdoneA hb hrelated)
  · refine Or.inr ((hmem b).mpr ⟨hb, ?_⟩)
    exact ((hmem a).mp hcurrentA).2.tail ⟨ha, hb, hrelated⟩

/-- The lists of the seeds are the components of the numbers that were not settled before. -/
theorem collect_spec (hrel : ∀ i j, rel i j = rel j i) (left : ℕ) : ∀ (seed : ℕ)
    (before : ℕ → Bool), seed + left = n →
    Settled rel n (fun j => j < seed ∨ before j = true) →
    ∃ components, (∀ fuel, n < fuel →
        collect rel n fuel (List.range' seed left) before = some components) ∧
      (∀ component ∈ components, IsComponent rel n component) ∧
      ∀ j < n, ¬ (j < seed ∨ before j = true) → ∃ component ∈ components, j ∈ component := by
  induction left with
  | zero =>
    intro seed before hseed _
    refine ⟨[], fun _ _ => rfl, by simp, ?_⟩
    intro j hj hnot
    exact absurd (Or.inl (by omega)) hnot
  | succ left ih =>
    intro seed before hseed hsettled
    by_cases hmarked : before seed = true
    · have hsame : Settled rel n fun j => j < seed + 1 ∨ before j = true := by
        have hiff : ∀ j, (j < seed + 1 ∨ before j = true) ↔ (j < seed ∨ before j = true) := by
          intro j
          by_cases heq : j = seed
          · rw [heq, hmarked]
            simp
          · constructor
            · intro h
              exact h.imp_left fun hlt => by omega
            · intro h
              exact h.imp_left fun hlt => by omega
        intro a b ha hdone hb hrelated
        rw [hiff] at hdone ⊢
        exact hsettled a b ha hdone hb hrelated
      obtain ⟨components, hruns, hcomponents, hcovers⟩ := ih (seed + 1) before (by omega) hsame
      refine ⟨components, ?_, hcomponents, ?_⟩
      · intro fuel hfuel
        rw [List.range'_succ, collect, if_pos hmarked]
        exact hruns fuel hfuel
      · intro j hj hnot
        refine hcovers j hj ?_
        intro hdone
        apply hnot
        rcases hdone with hlt | hbefore
        · by_cases heq : j = seed
          · exact Or.inr (by rw [heq]; exact hmarked)
          · exact Or.inl (by omega)
        · exact Or.inr hbefore
    · have hfresh : before seed = false := by simpa using hmarked
      have hlt : seed < n := by omega
      obtain ⟨s, hgrow, hgrown, hclosed⟩ := grow_spec n 0 ⟨before, [seed]⟩
        (Grown.start hlt) (Nat.zero_le _) (by omega) (by simp)
      have hcomponent := hgrown.isComponent hrel hlt hfresh hclosed hsettled
      obtain ⟨components, hruns, hcomponents, hcovers⟩ := ih (seed + 1) s.processed (by omega)
        (hgrown.settled hcomponent hsettled)
      refine ⟨s.current :: components, ?_, ?_, ?_⟩
      · intro fuel hfuel
        rw [List.range'_succ, collect, if_neg hmarked, hgrow fuel hfuel, Option.bind_some,
          hruns fuel hfuel, Option.map_some]
      · intro component hmem
        rcases List.mem_cons.mp hmem with rfl | hmem
        · exact hcomponent
        · exact hcomponents component hmem
      · intro j hj hnot
        by_cases hcurrent : j ∈ s.current
        · exact ⟨s.current, List.mem_cons_self, hcurrent⟩
        · obtain ⟨component, hmem, hjmem⟩ := hcovers j hj (by
            intro hdone
            rcases hdone with hlt' | hprocessed
            · have heq : j = seed := by
                by_contra hne
                exact hnot (Or.inl (by omega))
              obtain ⟨rest, hlist, -⟩ := hgrown.head
              apply hcurrent
              rw [heq, hlist]
              exact List.mem_cons_self
            · rcases (hgrown.processed j).mp hprocessed with hbefore | hmem
              · exact hnot (Or.inr hbefore)
              · exact hcurrent hmem.1)
          exact ⟨component, List.mem_cons_of_mem _ hmem, hjmem⟩

theorem collect_components (hrel : ∀ i j, rel i j = rel j i) (n : ℕ) :
    ∃ components, (∀ fuel, n < fuel →
        collect rel n fuel (List.range' 0 n) (fun _ => false) = some components) ∧
      (∀ component ∈ components, IsComponent rel n component) ∧
      ∀ j < n, ∃ component ∈ components, j ∈ component := by
  obtain ⟨components, hruns, hcomponents, hcovers⟩ := collect_spec hrel n 0 (fun _ => false)
    (Nat.zero_add n) (by
      intro a b _ hdone
      simp at hdone)
  exact ⟨components, hruns, hcomponents, fun j hj => hcovers j hj (by simp)⟩

end Components
