import Mathlib.Data.List.Destutter
import TomitaParser.Trie.RootSpans
import TomitaParser.Rusie.PeriodAmbiguity
/-! # The parser of a chain

`RunParser`: the input sequence is processed, and of its occurrences either all are kept, each
period once, or those that `SolveAmbiguity` chooses. -/

set_option linter.unusedSectionVars false

namespace TomitaParser
open TrieHolder

variable {σ Agr : Type*} {Item Group : Type} [Inhabited Item]

/-- An occurrence as the choice between periods reads it. -/
def Occurrence.toPeriod (o : Occurrence Item) : Rusie.Occurrence Item :=
  ⟨o.first, o.second, o.grammarRuleNo, o.inputItem⟩

/-- The pair that occurrences are compared by. -/
def Rusie.Occurrence.pair (o : Rusie.Occurrence Item) : ℕ × ℕ := (o.first, o.second)

/-- The order that either branch sorts the occurrences by. -/
def occurrenceLt (allowAmbiguity : Bool) (x y : Rusie.Occurrence Item) : Bool :=
  if allowAmbiguity then pairLt x.pair y.pair else Rusie.sortByRightBorder x y

/-- `std::sort` of the occurrences. -/
structure SortedOccurrences (allowAmbiguity : Bool)
    (occurrences sorted : List (Rusie.Occurrence Item)) : Prop where
  perm : sorted.Perm occurrences
  sorted : sorted.Pairwise fun x y => occurrenceLt allowAmbiguity y x = false

/-- `std::unique`: what equals the last occurrence kept is left out. -/
def uniqueOccurrences (sorted : List (Rusie.Occurrence Item)) : List (Rusie.Occurrence Item) :=
  sorted.destutter fun x y => x.pair ≠ y.pair

/-- `RunParser`, after the occurrences are sorted. -/
def runParser (ops : Rusie.WeightGroup Item Group) (allowAmbiguity : Bool)
    (sorted : List (Rusie.Occurrence Item)) : List (Rusie.Occurrence Item) :=
  if allowAmbiguity then uniqueOccurrences sorted else Rusie.solveAmbiguity ops sorted

theorem pairLt_trans {x y z : ℕ × ℕ} (h₁ : pairLt x y = true) (h₂ : pairLt y z = true) :
    pairLt x z = true := by
  unfold pairLt at *
  split_ifs at h₁ h₂ ⊢ <;> simp only [decide_eq_true_eq] at * <;> omega

theorem pairLt_of_ne {x y : ℕ × ℕ} (h : pairLt y x = false) (hne : x ≠ y) : pairLt x y = true := by
  unfold pairLt at *
  split_ifs at h ⊢ with h₁ h₂ <;>
    simp only [decide_eq_true_eq, decide_eq_false_iff_not] at *
  · omega
  · omega
  · omega
  · have : x.2 ≠ y.2 := fun h₂ => hne (Prod.ext (not_not.mp h₁) h₂)
    omega

theorem exists_mem_destutter' {sorted : List (Rusie.Occurrence Item)} :
    ∀ (last o : Rusie.Occurrence Item), o ∈ last :: sorted →
      ∃ o' ∈ sorted.destutter' (fun x y => x.pair ≠ y.pair) last, o'.pair = o.pair := by
  induction sorted with
  | nil =>
    intro last o ho
    exact ⟨last, List.mem_destutter' _ _ last, by rw [List.mem_singleton.mp ho]⟩
  | cons next sorted ih =>
    intro last o ho
    by_cases hne : last.pair ≠ next.pair
    · rw [List.destutter'_cons, if_pos hne]
      rcases List.mem_cons.mp ho with rfl | ho
      · exact ⟨o, List.mem_cons_self, rfl⟩
      · obtain ⟨o', ho', hpair⟩ := ih next o ho
        exact ⟨o', List.mem_cons_of_mem _ ho', hpair⟩
    · rw [List.destutter'_cons, if_neg hne]
      rcases List.mem_cons.mp ho with rfl | ho
      · exact ⟨o, List.mem_destutter' _ _ _, rfl⟩
      rcases List.mem_cons.mp ho with rfl | ho
      · exact ⟨last, List.mem_destutter' _ _ _, not_not.mp hne⟩
      · exact ih last o (List.mem_cons_of_mem _ ho)

theorem exists_mem_uniqueOccurrences {sorted : List (Rusie.Occurrence Item)}
    {o : Rusie.Occurrence Item} (ho : o ∈ sorted) :
    ∃ o' ∈ uniqueOccurrences sorted, o'.pair = o.pair := by
  cases sorted with
  | nil => exact absurd ho List.not_mem_nil
  | cons last sorted =>
    rw [uniqueOccurrences, List.destutter_cons']
    exact exists_mem_destutter' last o ho

theorem uniqueOccurrences_ascending {occurrences sorted : List (Rusie.Occurrence Item)}
    (h : SortedOccurrences true occurrences sorted) :
    (uniqueOccurrences sorted).Pairwise fun x y => pairLt x.pair y.pair = true := by
  have hsub : (uniqueOccurrences sorted).Sublist sorted := List.destutter_sublist _ _
  have hsorted : (uniqueOccurrences sorted).Pairwise fun x y => pairLt y.pair x.pair = false :=
    h.sorted.sublist hsub
  have hchain : (uniqueOccurrences sorted).IsChain fun x y => x.pair ≠ y.pair :=
    List.isChain_destutter _ _
  have hboth : (uniqueOccurrences sorted).IsChain fun x y => pairLt x.pair y.pair = true := by
    refine List.isChain_iff_getElem.mpr fun i hi => ?_
    have hne := List.isChain_iff_getElem.mp hchain i hi
    exact pairLt_of_ne (List.pairwise_iff_getElem.mp hsorted i (i + 1) _ _ (Nat.lt_succ_self i)) hne
  have : IsTrans (Rusie.Occurrence Item) fun x y => pairLt x.pair y.pair = true :=
    ⟨fun _ _ _ => pairLt_trans⟩
  exact hboth.pairwise

/-- The number of words in periods. -/
def totalLength (spans : List (ℕ × ℕ)) : ℕ := (spans.map fun s => s.2 - s.1).sum

/-- The periods have no word in common. -/
def Disjoint (spans : List (ℕ × ℕ)) : Prop :=
  spans.Pairwise fun x y => x.2 ≤ y.1 ∨ y.2 ≤ x.1

section Kept
variable {occurrences sorted : List (Rusie.Occurrence Item)} {P : ℕ → ℕ → Prop}

theorem runParser_ambiguous (ops : Rusie.WeightGroup Item Group)
    (hoccurrences : ∀ i j, (∃ o ∈ occurrences, o.pair = (i, j)) ↔ P i j)
    (hsorted : SortedOccurrences true occurrences sorted) :
    (∀ i j, (i, j) ∈ (runParser ops true sorted).map (·.pair) ↔ P i j) ∧
      ((runParser ops true sorted).map (·.pair)).Pairwise fun x y => pairLt x y = true := by
  have hrun : runParser ops true sorted = uniqueOccurrences sorted := if_pos rfl
  rw [hrun]
  refine ⟨fun i j => ?_, List.pairwise_map.mpr (uniqueOccurrences_ascending hsorted)⟩
  rw [← hoccurrences i j, List.mem_map]
  constructor
  · rintro ⟨o, ho, hpair⟩
    have hmem := (List.destutter_sublist _ _).subset ho
    exact ⟨o, hsorted.perm.subset hmem, hpair⟩
  · rintro ⟨o, ho, hpair⟩
    obtain ⟨o', ho', hpair'⟩ := exists_mem_uniqueOccurrences (hsorted.perm.symm.subset ho)
    exact ⟨o', ho', hpair'.trans hpair⟩

theorem exists_occurrences (hoccurrences : ∀ i j, P i j → ∃ o ∈ occurrences, o.pair = (i, j))
    (spans : List (ℕ × ℕ)) (hspans : ∀ s ∈ spans, P s.1 s.2) :
    ∃ other : List (Rusie.Occurrence Item), other.map (·.pair) = spans ∧
      ∀ o ∈ other, o ∈ occurrences := by
  induction spans with
  | nil => exact ⟨[], rfl, fun o ho => absurd ho List.not_mem_nil⟩
  | cons s spans ih =>
    obtain ⟨other, hmap, hmem⟩ := ih fun s' hs' => hspans s' (List.mem_cons_of_mem s hs')
    obtain ⟨o, ho, hpair⟩ := hoccurrences s.1 s.2 (hspans s List.mem_cons_self)
    refine ⟨o :: other, by rw [List.map_cons, hmap, hpair], ?_⟩
    intro o' ho'
    rcases List.mem_cons.mp ho' with rfl | ho'
    · exact ho
    · exact hmem o' ho'

theorem totalCoverage_eq_totalLength {ops : Rusie.WeightGroup Item Group}
    (hcover : ∀ item, ops.getCoverage item = 0) (occurrences : List (Rusie.Occurrence Item)) :
    Rusie.totalCoverage ops occurrences = totalLength (occurrences.map (·.pair)) := by
  have hone : ∀ o : Rusie.Occurrence Item, o.coverage ops = o.second - o.first := by
    intro o
    unfold Rusie.Occurrence.coverage
    cases o.inputItem with
    | none => exact if_pos rfl
    | some item => exact if_pos (hcover item)
  simp only [Rusie.totalCoverage, totalLength, List.map_map, hone]
  rfl

/-- The choice keeps periods without common words, and where items count the words they stand on no
other such periods have more words. -/
theorem runParser_chosen (ops : Rusie.WeightGroup Item Group)
    (hproper : ∀ i j, P i j → i < j)
    (hoccurrences : ∀ i j, (∃ o ∈ occurrences, o.pair = (i, j)) ↔ P i j)
    (hsorted : SortedOccurrences false occurrences sorted) :
    let kept := (runParser ops false sorted).map (·.pair)
    (∀ s ∈ kept, P s.1 s.2) ∧ Disjoint kept ∧
      ((∀ item, ops.getCoverage item = 0) → ∀ spans : List (ℕ × ℕ), (∀ s ∈ spans, P s.1 s.2) →
        Disjoint spans → totalLength spans ≤ totalLength kept) := by
  intro kept
  have hlt : ∀ o ∈ occurrences, o.first < o.second := fun o ho =>
    hproper _ _ ((hoccurrences o.first o.second).mp ⟨o, ho, rfl⟩)
  have hsorted' : Rusie.SortedAs occurrences sorted := ⟨hsorted.perm, hsorted.sorted⟩
  have hkept : kept = (Rusie.solveAmbiguity ops sorted).map (·.pair) := rfl
  rw [hkept]
  refine ⟨?_, ?_, ?_⟩
  · intro s hs
    obtain ⟨o, ho, rfl⟩ := List.mem_map.mp hs
    have hmem := (Rusie.solveAmbiguity_subperm ops hlt hsorted').subset ho
    exact (hoccurrences _ _).mp ⟨o, hmem, rfl⟩
  · exact List.pairwise_map.mpr (Rusie.solveAmbiguity_nonOverlapping ops hlt hsorted')
  · intro hcover spans hspans hdisjoint
    obtain ⟨other, hmap, hmem⟩ :=
      exists_occurrences (fun i j h => (hoccurrences i j).mpr h) spans hspans
    have hnon : Rusie.NonOverlapping other := by
      rw [← hmap] at hdisjoint
      exact List.pairwise_map.mp hdisjoint
    have hnodup : other.Nodup := by
      refine List.Pairwise.imp_of_mem ?_ hnon
      rintro o o' ho _ hapart rfl
      have := hlt o (hmem o ho)
      omega
    have hbest := (Rusie.solveAmbiguity_best ops hlt hsorted'
      (List.subperm_of_subset hnodup hmem) hnon).1
    rwa [totalCoverage_eq_totalLength hcover, totalCoverage_eq_totalLength hcover, hmap] at hbest

end Kept

/-- What a run over the words of a chain keeps: all periods that the root of the grammar derives,
each once; or, where they compete, periods without common words and with as many words as
possible. -/
theorem runParser_rootSpans (G : EncodedGrammar) (agreements : List (List Agr))
    (factory : InputItemFactory σ Agr Item) (hacc : Accepting factory) {T : TrieHolder}
    (hT : G.buildAutomat = some T) {words : List (List ℕ)} (hwords : G.Assigned words) (heap : σ)
    (ops : Rusie.WeightGroup Item Group) :
    ∃ N, ∀ fuel, N ≤ fuel →
      let cfg := G.parserConfig agreements factory { robust := true }
      limitReached (parseWords cfg G.augmentedGrammar.getEndOfStreamSymbol fuel
          (startPoints T words) 0 words (initGlrParser (newGlrParser heap))).2 = false →
        let occurrences :=
          (process cfg G.augmentedGrammar T fuel words heap).2.2.map (·.toPeriod)
        (∀ sorted, SortedOccurrences true occurrences sorted →
          let kept := (runParser ops true sorted).map (·.pair)
          (∀ i j, (i, j) ∈ kept ↔ i < j ∧ G.RootSpan words i j) ∧
            kept.Pairwise fun x y => pairLt x y = true) ∧
        ∀ sorted, SortedOccurrences false occurrences sorted →
          let kept := (runParser ops false sorted).map (·.pair)
          (∀ s ∈ kept, s.1 < s.2 ∧ G.RootSpan words s.1 s.2) ∧ Disjoint kept ∧
            ((∀ item, ops.getCoverage item = 0) → ∀ spans : List (ℕ × ℕ),
              (∀ s ∈ spans, s.1 < s.2 ∧ G.RootSpan words s.1 s.2) → Disjoint spans →
                totalLength spans ≤ totalLength kept) := by
  obtain ⟨N, hN⟩ := process_rootSpans G agreements factory hacc hT hwords heap
  refine ⟨N, fun fuel hfuel => ?_⟩
  intro cfg hlimit occurrences
  have hspans := (hN fuel hfuel hlimit).2
  have hoccurrences : ∀ i j, (∃ o ∈ occurrences, o.pair = (i, j)) ↔
      i < j ∧ G.RootSpan words i j := by
    intro i j
    rw [← hspans i j]
    constructor
    · rintro ⟨o, ho, hpair⟩
      obtain ⟨o', ho', rfl⟩ := List.mem_map.mp ho
      exact ⟨o', ho', congrArg Prod.fst hpair, congrArg Prod.snd hpair⟩
    · rintro ⟨o, ho, rfl, rfl⟩
      exact ⟨o.toPeriod, List.mem_map_of_mem ho, rfl⟩
  refine ⟨fun sorted hsorted => runParser_ambiguous ops hoccurrences hsorted, ?_⟩
  intro sorted hsorted
  exact runParser_chosen ops (fun i j h => h.1) hoccurrences hsorted

theorem runParser_rootSpans_oneWord :
    ∃ N, ∀ fuel, N ≤ fuel →
      let cfg := oneWordGrammar.parserConfig [[()], []] acceptAllFactory { robust := true }
      limitReached (parseWords cfg oneWordGrammar.augmentedGrammar.getEndOfStreamSymbol fuel
          (startPoints oneWordTrie [[1, 2], [2]]) 0 [[1, 2], [2]]
          (initGlrParser (newGlrParser ()))).2 = false →
        let occurrences := (process cfg oneWordGrammar.augmentedGrammar oneWordTrie fuel
          [[1, 2], [2]] ()).2.2.map (·.toPeriod)
        (∀ sorted, SortedOccurrences true occurrences sorted →
          (0, 1) ∈ (runParser Rusie.weightless true sorted).map (·.pair)) ∧
        ∀ sorted, SortedOccurrences false occurrences sorted →
          1 ≤ totalLength ((runParser Rusie.weightless false sorted).map (·.pair)) := by
  obtain ⟨N, hN⟩ := runParser_rootSpans oneWordGrammar [[()], []] acceptAllFactory
    acceptAllFactory_accepting (show oneWordGrammar.buildAutomat = some oneWordTrie by decide)
    (show oneWordGrammar.Assigned [[1, 2], [2]] from ⟨by decide, by decide, by decide⟩) ()
    Rusie.weightless
  refine ⟨N, fun fuel hfuel => ?_⟩
  intro cfg hlimit occurrences
  obtain ⟨hall, hchosen⟩ := hN fuel hfuel hlimit
  refine ⟨fun sorted hsorted => ((hall sorted hsorted).1 0 1).mpr ⟨Nat.one_pos, rootSpan_oneWord⟩, ?_⟩
  intro sorted hsorted
  refine (hchosen sorted hsorted).2.2 (fun _ => rfl) [(0, 1)] ?_ (List.pairwise_singleton _ _)
  intro s hs
  rw [List.mem_singleton.mp hs]
  exact ⟨Nat.one_pos, rootSpan_oneWord⟩

end TomitaParser
