import Mathlib.Algebra.Order.Ring.Int
import TomitaParser.Lib.Loop
import TomitaParser.Lib.OrderedSet
/-! # Filters of a grammar

A sentence passes a filter if words for all its items stand in it, one after the other and not too
far apart. They are looked for with a stack while the search goes up and down the items. -/

namespace TomitaParser.Rusie
open LoopRun

/-- `CFilterPair`: an item, and how many words may stand between it and the next item. -/
structure FilterPair where
  itemId : ℤ
  wordDistance : ℤ
deriving DecidableEq

/-- `CFilterStore`, with the number of its items. -/
structure FilterStore where
  uniqueFilterItems : ℕ
  filterSet : List (List FilterPair)

/-- `yset<int>`, in order. -/
def intSet (ids : List ℤ) : List ℤ := OrderedSet.insertAll (fun a b => decide (a < b)) ids []

/-- `FilterItemToWords`: an item has an entry if words have been found for it, which are what
`AssignFilterItems` has `assigned` to it. -/
def filterItemToWords (filters : FilterStore) (assigned : ℕ → List ℤ) (id : ℤ) :
    Option (List ℤ) :=
  if 0 ≤ id ∧ id < filters.uniqueFilterItems ∧ assigned id.toNat ≠ [] then
    some (intSet (assigned id.toNat))
  else none

/-- `TemplateStack` and `j`, the item that a word is looked for. -/
structure TemplateSearch where
  templateStack : List ℤ
  j : ℤ

namespace TemplateSearch
variable (filter : List FilterPair) (words : ℤ → Option (List ℤ))

/-- A word may stand after the last one of the stack. -/
def fits (stack : List ℤ) (j w : ℤ) : Bool :=
  decide (j < 1) ||
    match filter[(j - 1).toNat]?, stack[(j - 1).toNat]? with
    | some previous, some last => decide (w - last - 1 ≤ previous.wordDistance ∧ 0 < w - last)
    | _, _ => false

/-- The stack below the item, and the words from `it_wrd_id` on. If the stack has a word for the
item, the search has come back to it. -/
def resume (ids : List ℤ) (s : TemplateSearch) : List ℤ × List ℤ :=
  match s.templateStack.getLast? with
  | some last =>
    if (s.templateStack.length : ℤ) = s.j + 1 then
      (s.templateStack.dropLast, (ids.dropWhile (· ≠ last)).tail)
    else (s.templateStack, ids)
  | none => (s.templateStack, ids)

/-- One item up if a word fits, and one down if none does. -/
def advance (stack ids : List ℤ) (j : ℤ) : LoopStep TemplateSearch Bool :=
  match ids.find? (fits filter stack j) with
  | some w => .next ⟨stack ++ [w], j + 1⟩
  | none => if j - 1 < 0 then .exit true ⟨stack, j - 1⟩ else .next ⟨stack, j - 1⟩

/-- A turn of the loop over the items of a filter. -/
def turn (s : TemplateSearch) : LoopStep TemplateSearch Bool :=
  if (filter.length : ℤ) ≤ s.j then .exit true s
  else
    match filter[s.j.toNat]?.bind fun item => words item.itemId with
    | none => .exit true s
    | some ids =>
      if ids = [] then .exit true s
      else
        let r := s.resume ids
        advance filter r.1 r.2 s.j

/-- Whether the words of a filter are found, `none` if the loop has not ended in `fuel` turns. -/
def checkFilter (fuel : ℕ) : Option Bool :=
  let r := runLoop (turn filter words) false fuel ⟨[], 0⟩
  if r.1 then some (decide ((filter.length : ℤ) = r.2.j)) else none

end TemplateSearch

/-- `CheckFilters`. -/
def checkFilters (filters : FilterStore) (assigned : ℕ → List ℤ) (fuel : ℕ) : Option Bool :=
  if filters.filterSet.length = 0 then some true
  else
    filters.filterSet.foldr (fun filter rest =>
      (TemplateSearch.checkFilter filter (filterItemToWords filters assigned) fuel).bind
        fun found =>
        if found then some true else rest) (some false)

section Placements
variable {filter : List FilterPair} {words : ℤ → Option (List ℤ)}

/-- Words for the first items of a filter, in order and near enough to each other. -/
structure Placement (filter : List FilterPair) (words : ℤ → Option (List ℤ)) (stack : List ℤ) :
    Prop where
  isWord : ∀ (j : ℕ) (item : FilterPair) (w : ℤ), filter[j]? = some item → stack[j]? = some w →
    ∃ ids, words item.itemId = some ids ∧ w ∈ ids
  near : ∀ (j : ℕ) (item : FilterPair) (v w : ℤ), filter[j]? = some item → stack[j]? = some v →
    stack[j + 1]? = some w →
    v < w ∧ w - v - 1 ≤ item.wordDistance

/-- Words for all items. -/
def IsFull (filter : List FilterPair) (words : ℤ → Option (List ℤ)) (stack : List ℤ) : Prop :=
  stack.length = filter.length ∧ Placement filter words stack

theorem placement_nil : Placement filter words [] := by
  constructor <;> simp

theorem Placement.take {stack full : List ℤ} (h : Placement filter words full)
    (hstart : stack <+: full) : Placement filter words stack := by
  obtain ⟨rest, rfl⟩ := hstart
  have hget : ∀ {j : ℕ} {w : ℤ}, stack[j]? = some w → (stack ++ rest)[j]? = some w := by
    intro j w hw
    obtain ⟨hj, -⟩ := List.getElem?_eq_some_iff.mp hw
    rw [List.getElem?_append_left hj, hw]
  constructor
  · intro j item w hitem hw
    exact h.isWord j item w hitem (hget hw)
  · intro j item v w hitem hv hw
    exact h.near j item v w hitem (hget hv) (hget hw)

theorem fits_iff {stack : List ℤ} {w : ℤ} (hlt : stack.length < filter.length) :
    TemplateSearch.fits filter stack stack.length w = true ↔
      ∀ (j : ℕ) (item : FilterPair) (v : ℤ), filter[j]? = some item → stack[j]? = some v →
        stack.length = j + 1 →
        v < w ∧ w - v - 1 ≤ item.wordDistance := by
  unfold TemplateSearch.fits
  cases hlen : stack.length with
  | zero =>
    simp only [Nat.cast_zero, zero_lt_one, decide_true, Bool.true_or, true_iff]
    omega
  | succ n =>
    have hn : n < filter.length := by omega
    have hstack : n < stack.length := by omega
    have hfilter? : filter[n]? = some filter[n] := List.getElem?_eq_getElem hn
    have hstack? : stack[n]? = some stack[n] := List.getElem?_eq_getElem hstack
    have hindex : ((n + 1 : ℕ) : ℤ) - 1 = n := by omega
    have hfalse : ¬ ((n + 1 : ℕ) : ℤ) < 1 := by omega
    rw [decide_eq_false hfalse, Bool.false_or, hindex, Int.toNat_natCast, hfilter?, hstack?]
    simp only [decide_eq_true_eq]
    constructor
    · rintro ⟨hnear, hpos⟩ j item v hitem hv hj
      obtain rfl : n = j := by omega
      rw [hfilter?] at hitem
      rw [hstack?] at hv
      cases hitem
      cases hv
      exact ⟨by omega, hnear⟩
    · intro h
      obtain ⟨hpos, hnear⟩ := h n _ _ hfilter? hstack? rfl
      exact ⟨hnear, by omega⟩

/-- A placement grows by a word of the next item that fits. -/
theorem Placement.concat {stack ids : List ℤ} {item : FilterPair} {w : ℤ}
    (h : Placement filter words stack) (hitem : filter[stack.length]? = some item)
    (hids : words item.itemId = some ids) (hw : w ∈ ids)
    (hfits : TemplateSearch.fits filter stack stack.length w = true) :
    Placement filter words (stack ++ [w]) := by
  obtain ⟨hlt, -⟩ := List.getElem?_eq_some_iff.mp hitem
  have hnear := (fits_iff hlt).mp hfits
  have hcases : ∀ {j : ℕ} {x : ℤ}, (stack ++ [w])[j]? = some x →
      stack[j]? = some x ∨ j = stack.length ∧ x = w := by
    intro j x hx
    rcases Nat.lt_trichotomy j stack.length with hj | hj | hj
    · rw [List.getElem?_append_left hj] at hx
      exact Or.inl hx
    · rw [hj, List.getElem?_concat_length, Option.some.injEq] at hx
      exact Or.inr ⟨hj, hx.symm⟩
    · rw [List.getElem?_eq_none (by rw [List.length_append, List.length_singleton]; omega)] at hx
      cases hx
  constructor
  · intro j item' x hitem' hx
    rcases hcases hx with hx | ⟨rfl, rfl⟩
    · exact h.isWord j item' x hitem' hx
    · rw [hitem] at hitem'
      cases hitem'
      exact ⟨ids, hids, hw⟩
  · intro j item' v x hitem' hv hx
    rcases hcases hx with hx | ⟨hj, rfl⟩
    · have hv' : stack[j]? = some v := by
        obtain ⟨hj, -⟩ := List.getElem?_eq_some_iff.mp hx
        rw [List.getElem?_append_left (by omega)] at hv
        exact hv
      exact h.near j item' v x hitem' hv' hx
    · rw [List.getElem?_append_left (by omega)] at hv
      exact hnear j item' v hitem' hv (by omega)

theorem IsFull.fits {stack full : List ℤ} {w : ℤ} (h : IsFull filter words full)
    (hstart : stack ++ [w] <+: full) {item : FilterPair}
    (hitem : filter[stack.length]? = some item) :
    (∃ ids, words item.itemId = some ids ∧ w ∈ ids) ∧
      TemplateSearch.fits filter stack stack.length w = true := by
  obtain ⟨hlt, -⟩ := List.getElem?_eq_some_iff.mp hitem
  have hplaced := h.2.take hstart
  have hw : (stack ++ [w])[stack.length]? = some w := List.getElem?_concat_length
  refine ⟨hplaced.isWord _ item w hitem hw, (fits_iff hlt).mpr ?_⟩
  intro j item' v hitem' hv hj
  apply hplaced.near j item' v w hitem'
  · rw [List.getElem?_append_left (by omega), hv]
  · rw [← hj]
    exact hw

theorem IsFull.next {stack full : List ℤ} (h : IsFull filter words full) (hstart : stack <+: full)
    (hlt : stack.length < filter.length) : ∃ w, stack ++ [w] <+: full := by
  obtain ⟨rest, rfl⟩ := hstart
  cases rest with
  | nil =>
    have := h.1
    rw [List.append_nil] at this
    omega
  | cons w rest => exact ⟨w, rest, by rw [List.append_assoc]; rfl⟩

/-- How the search goes on from a state in which it has put `stack` below it: it finds a full
placement, it comes back because no placement goes on from the stack, or it ends without one. -/
inductive SearchEnds (filter : List FilterPair) (words : ℤ → Option (List ℤ)) (stack : List ℤ)
    (s : TemplateSearch) : Prop
  | found (full : List ℤ) (hfull : IsFull filter words full)
      (h : LeadsTo (TemplateSearch.turn filter words) s ⟨full, full.length⟩)
  | back (hne : stack ≠ []) (hnone : ∀ full, IsFull filter words full → ¬ stack <+: full)
      (h : LeadsTo (TemplateSearch.turn filter words) s ⟨stack, (stack.length : ℤ) - 1⟩)
  | stopped (hnone : ∀ full, ¬ IsFull filter words full) (s' s'' : TemplateSearch)
      (h : LeadsTo (TemplateSearch.turn filter words) s s')
      (hexit : TemplateSearch.turn filter words s' = .exit true s'')
      (hj : (filter.length : ℤ) ≠ s''.j)

theorem SearchEnds.of_leadsTo {stack : List ℤ} {s s' : TemplateSearch}
    (hleads : LeadsTo (TemplateSearch.turn filter words) s s')
    (h : SearchEnds filter words stack s') : SearchEnds filter words stack s := by
  cases h with
  | found full hfull h => exact SearchEnds.found full hfull (hleads.trans h)
  | back hne hnone h => exact SearchEnds.back hne hnone (hleads.trans h)
  | stopped hnone s₁ s₂ h hexit hj => exact SearchEnds.stopped hnone s₁ s₂ (hleads.trans h) hexit hj

theorem turn_eq {s : TemplateSearch} {item : FilterPair} {ids : List ℤ} {n : ℕ} (hn : s.j = n)
    (hitem : filter[n]? = some item) (hids : words item.itemId = some ids) (hne : ids ≠ []) :
    TemplateSearch.turn filter words s =
      TemplateSearch.advance filter (s.resume ids).1 (s.resume ids).2 n := by
  obtain ⟨hlt, -⟩ := List.getElem?_eq_some_iff.mp hitem
  unfold TemplateSearch.turn
  rw [if_neg (by omega), hn, Int.toNat_natCast, hitem]
  simp only [Option.bind_some, hids, if_neg hne]

theorem turn_fresh {stack ids : List ℤ} {item : FilterPair}
    (hitem : filter[stack.length]? = some item) (hids : words item.itemId = some ids)
    (hne : ids ≠ []) :
    TemplateSearch.turn filter words ⟨stack, stack.length⟩ =
      TemplateSearch.advance filter stack ids stack.length := by
  rw [turn_eq rfl hitem hids hne]
  have hresume : (⟨stack, stack.length⟩ : TemplateSearch).resume ids = (stack, ids) := by
    unfold TemplateSearch.resume
    split
    · rw [if_neg (by simp)]
    · rfl
  rw [hresume]

theorem turn_back {stack before after : List ℤ} {item : FilterPair} {w : ℤ}
    (hitem : filter[stack.length]? = some item)
    (hids : words item.itemId = some (before ++ w :: after)) (hnew : w ∉ before) :
    TemplateSearch.turn filter words ⟨stack ++ [w], stack.length⟩ =
      TemplateSearch.advance filter stack after stack.length := by
  rw [turn_eq rfl hitem hids (List.append_ne_nil_of_right_ne_nil _ (List.cons_ne_nil _ _))]
  have hdrop : ((before ++ w :: after).dropWhile (· ≠ w)).tail = after := by
    rw [List.dropWhile_append_of_pos fun x hx => by
      rw [decide_eq_true_eq]
      rintro rfl
      exact hnew hx]
    simp
  have hresume : (⟨stack ++ [w], stack.length⟩ : TemplateSearch).resume (before ++ w :: after) =
      (stack, after) := by
    unfold TemplateSearch.resume
    simp only [List.getLast?_append, List.getLast?_singleton, Option.some_or, List.length_append,
      List.length_singleton, Nat.cast_add, Nat.cast_one, if_true, List.dropLast_concat, hdrop]
  rw [hresume]

/-- If the search goes on from every word of an item as it should, it does so from the item. -/
theorem searchEnds_advance {stack ids : List ℤ} {item : FilterPair}
    (hitem : filter[stack.length]? = some item) (hids : words item.itemId = some ids)
    (hsorted : ids.Pairwise (· < ·)) (hplaced : Placement filter words stack)
    (hnext : ∀ w, Placement filter words (stack ++ [w]) →
      SearchEnds filter words (stack ++ [w]) ⟨stack ++ [w], (stack ++ [w]).length⟩)
    (before after : List ℤ) (hsplit : ids = before ++ after)
    (htried : ∀ w ∈ before, ∀ full, IsFull filter words full → ¬ stack ++ [w] <+: full)
    (s : TemplateSearch) (hs : TemplateSearch.turn filter words s =
      TemplateSearch.advance filter stack after stack.length) :
    SearchEnds filter words stack s := by
  obtain ⟨hlt, -⟩ := List.getElem?_eq_some_iff.mp hitem
  induction hlen : after.length using Nat.strong_induction_on generalizing before after s with
  | _ n ih =>
    cases hfind : after.find? (TemplateSearch.fits filter stack stack.length) with
    | none =>
      have hnone : ∀ full, IsFull filter words full → ¬ stack <+: full := by
        intro full h hstart
        obtain ⟨w, hstart'⟩ := h.next hstart hlt
        obtain ⟨⟨ids', hids', hw⟩, hfits⟩ := h.fits hstart' hitem
        rw [hids, Option.some.injEq] at hids'
        rw [← hids', hsplit, List.mem_append] at hw
        rcases hw with hw | hw
        · exact htried w hw full h hstart'
        · exact List.find?_eq_none.mp hfind w hw hfits
      rw [TemplateSearch.advance, hfind] at hs
      cases stack with
      | nil =>
        rw [if_pos (by simp)] at hs
        apply SearchEnds.stopped (fun full h => hnone full h (List.nil_prefix)) s _
          (LeadsTo.refl _ _) hs
        simp only
        omega
      | cons v stack =>
        rw [if_neg (by simp)] at hs
        exact SearchEnds.back (List.cons_ne_nil _ _) hnone (LeadsTo.of_next hs)
    | some w =>
      rw [TemplateSearch.advance, hfind] at hs
      obtain ⟨hfits, tried, rest, rfl, hnot⟩ := List.find?_eq_some_iff_append.mp hfind
      have hw : w ∈ ids := by
        rw [hsplit]
        simp
      have hleads : LeadsTo (TemplateSearch.turn filter words) s
          ⟨stack ++ [w], (stack ++ [w]).length⟩ := by
        rw [List.length_append, List.length_singleton, Nat.cast_add, Nat.cast_one]
        exact LeadsTo.of_next hs
      apply SearchEnds.of_leadsTo hleads
      cases hnext w (hplaced.concat hitem hids hw hfits) with
      | found full h hfound => exact SearchEnds.found full h hfound
      | stopped hnone s₁ s₂ h hexit hj => exact SearchEnds.stopped hnone s₁ s₂ h hexit hj
      | back hne hnone h =>
        have hlevel : ((stack ++ [w]).length : ℤ) - 1 = stack.length := by simp
        rw [hlevel] at h
        apply SearchEnds.of_leadsTo h
        have hsplit' : ids = (before ++ tried ++ [w]) ++ rest := by
          rw [hsplit]
          simp
        have hnew : w ∉ before ++ tried := by
          intro hmem
          rw [hsplit', List.append_assoc, List.pairwise_append] at hsorted
          have := hsorted.2.2 w hmem w (by simp)
          omega
        have hids' : words item.itemId = some (before ++ tried ++ w :: rest) := by
          rw [hids, hsplit', List.append_assoc]
          rfl
        have hback := turn_back hitem hids' hnew
        apply ih rest.length (by simp at hlen; omega) (before ++ tried ++ [w]) rest hsplit' ?_ _
          hback rfl
        intro x hx full h' hstart
        rcases List.mem_append.mp hx with hx | hx
        · rcases List.mem_append.mp hx with hx | hx
          · exact htried x hx full h' hstart
          · have hfits' := (h'.fits hstart hitem).2
            have hno := hnot x hx
            rw [hfits'] at hno
            cases hno
        · rw [List.mem_singleton.mp hx] at hstart
          exact hnone full h' hstart

/-- Every level of the search ends as it should. -/
theorem searchEnds (hsorted : ∀ id ids, words id = some ids → ids.Pairwise (· < ·)) (m : ℕ)
    (stack : List ℤ) (hm : stack.length + m = filter.length)
    (hplaced : Placement filter words stack) :
    SearchEnds filter words stack ⟨stack, stack.length⟩ := by
  induction m generalizing stack with
  | zero => exact SearchEnds.found stack ⟨hm, hplaced⟩ (LeadsTo.refl _ _)
  | succ m ih =>
    have hlt : stack.length < filter.length := by omega
    have hitem : filter[stack.length]? = some filter[stack.length] := List.getElem?_eq_getElem hlt
    -- without words for the item the loop ends at once
    have hmissing : (words filter[stack.length].itemId).getD [] = [] →
        SearchEnds filter words stack ⟨stack, stack.length⟩ := by
      intro hwords
      apply SearchEnds.stopped _ ⟨stack, stack.length⟩ ⟨stack, stack.length⟩ (LeadsTo.refl _ _)
      · unfold TemplateSearch.turn
        rw [if_neg (by simp; omega)]
        simp only [Int.toNat_natCast, hitem, Option.bind_some]
        cases hids : words filter[stack.length].itemId with
        | none => rfl
        | some ids =>
          rw [hids, Option.getD_some] at hwords
          exact if_pos hwords
      · simp only
        omega
      · intro full hfull
        have hlt' : stack.length < full.length := by
          rw [hfull.1]
          exact hlt
        have hnext : full[stack.length]? = some full[stack.length] :=
          List.getElem?_eq_getElem hlt'
        obtain ⟨ids, hids, hmem⟩ := hfull.2.isWord _ _ _ hitem hnext
        rw [hids, Option.getD_some] at hwords
        rw [hwords] at hmem
        cases hmem
    cases hids : words filter[stack.length].itemId with
    | none => exact hmissing (by rw [hids]; rfl)
    | some ids =>
      by_cases hne : ids = []
      · exact hmissing (by rw [hids, hne]; rfl)
      · apply searchEnds_advance hitem hids (hsorted _ _ hids) hplaced _ [] ids rfl (by simp) _
          (turn_fresh hitem hids hne)
        intro w hw
        exact ih (stack ++ [w]) (by simp; omega) hw

theorem checkFilter_spec (hsorted : ∀ id ids, words id = some ids → ids.Pairwise (· < ·)) :
    ∃ N, ∀ fuel, N ≤ fuel → ∃ found, TemplateSearch.checkFilter filter words fuel = some found ∧
      (found = true ↔ ∃ full, IsFull filter words full) := by
  have hends := searchEnds hsorted filter.length [] (Nat.zero_add _) placement_nil
  cases hends with
  | found full hfull h =>
    have hexit : TemplateSearch.turn filter words ⟨full, full.length⟩ =
        .exit true ⟨full, full.length⟩ := by
      rw [TemplateSearch.turn, if_pos (by simp [hfull.1])]
    obtain ⟨N, hN⟩ := h.result hexit
    refine ⟨N, fun fuel hfuel => ⟨true, ?_, fun _ => ⟨full, hfull⟩, fun _ => rfl⟩⟩
    have hrun := hN false fuel hfuel
    simp only [List.length_nil, Nat.cast_zero] at hrun
    simp only [TemplateSearch.checkFilter, hrun, if_true, hfull.1, decide_true]
  | back hne _ _ => exact absurd rfl hne
  | stopped hnone s s' h hexit hj =>
    obtain ⟨N, hN⟩ := h.result hexit
    have hnot : ¬ ∃ full, IsFull filter words full := fun ⟨full, hfull⟩ => hnone full hfull
    refine ⟨N, fun fuel hfuel => ⟨false, ?_, by simp [hnot]⟩⟩
    have hrun := hN false fuel hfuel
    simp only [List.length_nil, Nat.cast_zero] at hrun
    simp only [TemplateSearch.checkFilter, hrun, if_true, decide_eq_false hj]

end Placements

/-- The words that have been assigned to an item. -/
def FilterStore.IsPosition (filters : FilterStore) (assigned : ℕ → List ℤ) (id w : ℤ) : Prop :=
  0 ≤ id ∧ id < filters.uniqueFilterItems ∧ w ∈ assigned id.toNat

/-- Words stand for all items of a filter, each after the one before and near enough to it. -/
def FilterStore.IsFound (filters : FilterStore) (assigned : ℕ → List ℤ)
    (filter : List FilterPair) : Prop :=
  ∃ p : ℕ → ℤ, (∀ j, (h : j < filter.length) → filters.IsPosition assigned filter[j].itemId (p j)) ∧
    ∀ j, (h : j + 1 < filter.length) → p j < p (j + 1) ∧
      p (j + 1) - p j - 1 ≤ filter[j].wordDistance

theorem mem_intSet {ids : List ℤ} {w : ℤ} : w ∈ intSet ids ↔ w ∈ ids := by
  rw [intSet, OrderedSet.mem_insertAll]
  · simp
  · intro a _ b _ h
    simp only [OrderedSet.Equivalent, decide_eq_false_iff_not] at h
    omega

theorem pairwise_intSet (ids : List ℤ) : (intSet ids).Pairwise (· < ·) := by
  have h := @OrderedSet.pairwise_insertAll ℤ (fun a b => decide (a < b)) [] ids
    (by simp only [decide_eq_true_eq]; omega) List.Pairwise.nil
  simp only [decide_eq_true_eq] at h
  exact h

theorem isPosition_iff {filters : FilterStore} {assigned : ℕ → List ℤ} {id w : ℤ} :
    filters.IsPosition assigned id w ↔
      ∃ ids, filterItemToWords filters assigned id = some ids ∧ w ∈ ids := by
  unfold FilterStore.IsPosition filterItemToWords
  constructor
  · rintro ⟨hpos, hlt, hw⟩
    exact ⟨_, if_pos ⟨hpos, hlt, List.ne_nil_of_mem hw⟩, mem_intSet.mpr hw⟩
  · rintro ⟨ids, hids, hw⟩
    split at hids
    · rename_i h
      cases hids
      exact ⟨h.1, h.2.1, mem_intSet.mp hw⟩
    · cases hids

theorem isFound_iff {filters : FilterStore} {assigned : ℕ → List ℤ} {filter : List FilterPair} :
    filters.IsFound assigned filter ↔
      ∃ full, IsFull filter (filterItemToWords filters assigned) full := by
  constructor
  · rintro ⟨p, hwords, hnear⟩
    refine ⟨(List.range filter.length).map p, by simp, ?_, ?_⟩
    · intro j item w hitem hw
      obtain ⟨hj, rfl⟩ := List.getElem?_eq_some_iff.mp hitem
      rw [List.getElem?_map, List.getElem?_range hj, Option.map_some, Option.some.injEq] at hw
      rw [← hw]
      exact isPosition_iff.mp (hwords j hj)
    · intro j item v w hitem hv hw
      obtain ⟨hj', -⟩ := List.getElem?_eq_some_iff.mp hw
      rw [List.length_map, List.length_range] at hj'
      obtain ⟨hj, rfl⟩ := List.getElem?_eq_some_iff.mp hitem
      rw [List.getElem?_map, List.getElem?_range hj, Option.map_some, Option.some.injEq] at hv
      rw [List.getElem?_map, List.getElem?_range hj', Option.map_some, Option.some.injEq] at hw
      rw [← hv, ← hw]
      exact hnear j hj'
  · rintro ⟨full, hlength, hplaced⟩
    have hget : ∀ j, j < filter.length → full[j]? = some (full.getD j 0) := by
      intro j hj
      rw [List.getD_eq_getElem?_getD, List.getElem?_eq_getElem (by omega), Option.getD_some]
    refine ⟨fun j => full.getD j 0, ?_, ?_⟩
    · intro j hj
      exact isPosition_iff.mpr
        (hplaced.isWord j _ _ (List.getElem?_eq_getElem hj) (hget j hj))
    · intro j hj
      exact hplaced.near j _ _ _ (List.getElem?_eq_getElem (by omega)) (hget j (by omega))
        (hget (j + 1) hj)

/-- `CheckFilters` ends, and a sentence passes if there are no filters or one of them is found. -/
theorem checkFilters_exact (filters : FilterStore) (assigned : ℕ → List ℤ) :
    ∃ N, ∀ fuel, N ≤ fuel → ∃ passed, checkFilters filters assigned fuel = some passed ∧
      (passed = true ↔
        filters.filterSet = [] ∨ ∃ filter ∈ filters.filterSet,
          filters.IsFound assigned filter) := by
  have hsorted : ∀ id ids, filterItemToWords filters assigned id = some ids →
      ids.Pairwise (· < ·) := by
    intro id ids hids
    unfold filterItemToWords at hids
    split at hids
    · cases hids
      exact pairwise_intSet _
    · cases hids
  have hloop : ∀ filterSet : List (List FilterPair), ∃ N, ∀ fuel, N ≤ fuel → ∃ passed,
      filterSet.foldr (fun filter rest =>
        (TemplateSearch.checkFilter filter (filterItemToWords filters assigned) fuel).bind
          fun found => if found then some true else rest) (some false) = some passed ∧
      (passed = true ↔ ∃ filter ∈ filterSet, filters.IsFound assigned filter) := by
    intro filterSet
    induction filterSet with
    | nil => exact ⟨0, fun _ _ => ⟨false, rfl, by simp⟩⟩
    | cons filter filterSet ih =>
      obtain ⟨N, hN⟩ := ih
      obtain ⟨M, hM⟩ := @checkFilter_spec filter _ hsorted
      refine ⟨max N M, fun fuel hfuel => ?_⟩
      obtain ⟨passed, hpassed, hiff⟩ := hN fuel (by omega)
      obtain ⟨found, hfound, hfoundIff⟩ := hM fuel (by omega)
      rw [← isFound_iff] at hfoundIff
      rw [List.foldr_cons, hpassed, hfound, Option.bind_some]
      cases found with
      | true => exact ⟨true, rfl, by simp [hfoundIff.mp rfl]⟩
      | false =>
        have hnot : ¬ filters.IsFound assigned filter := fun h => by
          have := hfoundIff.mpr h
          cases this
        exact ⟨passed, rfl, by simp [hiff, hnot]⟩
  by_cases hempty : filters.filterSet = []
  · refine ⟨0, fun fuel _ => ⟨true, ?_, fun _ => Or.inl hempty, fun _ => rfl⟩⟩
    rw [checkFilters, if_pos (by rw [hempty]; rfl)]
  · obtain ⟨N, hN⟩ := hloop filters.filterSet
    refine ⟨N, fun fuel hfuel => ?_⟩
    obtain ⟨passed, hpassed, hiff⟩ := hN fuel hfuel
    refine ⟨passed, ?_, by simp [hiff, hempty]⟩
    rw [checkFilters, if_neg (by simpa using hempty), hpassed]

end TomitaParser.Rusie
