import TomitaParser.Glr.ClosureLoop
/-! # The parser always ends

With the break at the limit of symbol nodes every call of `ParseSymbol` ends, whatever the factory
does: from some fuel on its result no longer depends on the fuel. -/

set_option linter.unusedSectionVars false

namespace TomitaParser
open OrderedSet LoopRun Cfg

variable {σ Agr Item : Type*} [Inhabited Item]
variable {G : WorkGrammar} {C : CollectionSet} {W : ℕ → ℕ → Prop}
variable {cfg : ParserConfig σ Agr Item} {symbols : List ℕ} {p p' p₀ : GlrParser σ Item}

theorem limitReached_actor (symbols : List ℕ) (p : GlrParser σ Item) :
    limitReached (actor cfg symbols p) = limitReached p := by
  cases h : p.activeNodes with
  | nil => rw [actor, h]
  | cons v rest =>
    have he : ActorEffect cfg symbols v { p with activeNodes := rest } (actor cfg symbols p) :=
      actor_effect h
    have hgss : (actor cfg symbols p).toGss = p.toGss := he.toGss
    rw [limitReached, limitReached, hgss, he.createdGroups]

private theorem closureStep_ends (hG : G.WellFormed)
    (heos : G.isMeta G.getEndOfStreamSymbol = false) (hC : Automaton G C)
    (hT : TableFor G C cfg.table) (hbreak : cfg.options.breakAfterMaxSymbolNodesCount = true)
    (hp : ClosureInv G C cfg.table W p) (hlimit : limitReached p = false) :
    ∃ N s, (∀ fuel, N ≤ fuel → closureStep cfg fuel symbols p = s) ∧
      s.Spec (fun p' => limitReached p' = false ∧ loopMeasure p' < loopMeasure p)
        (fun status _ => status ≠ RunStatus.outOfFuel) := by
  by_cases hactive : p.activeNodes = []
  · cases hreds : p.pendingReductions with
    | nil =>
      refine ⟨0, .exit .finished p, fun fuel _ => ?_, RunStatus.finished_ne⟩
      simp [closureStep, hactive, hreds]
    | cons red rest =>
      obtain ⟨R, hR⟩ := hp.reductions red (by rw [hreds]; exact List.mem_cons_self)
      obtain ⟨N, p', hrun, hs, _⟩ := @reducer_finishes _ _ _ _ _ _ _ _ symbols _ _ _ hG heos hC
        hT hp rest hreds hR
      have hlt := loopMeasure_reducer hreds hlimit hs.progress
      refine ⟨N, if limitReached p' && cfg.options.breakAfterMaxSymbolNodesCount then
        .exit .interrupted p' else .next p', fun fuel hfuel => ?_, ?_⟩
      · simp [closureStep, hactive, hreds, hrun fuel hfuel]
      · rw [hbreak, Bool.and_true]
        split_ifs with hreached
        · exact RunStatus.interrupted_ne
        · exact ⟨by simpa using hreached, hlt⟩
  · have hlimit' : limitReached (actor cfg symbols p) = false := by
      rw [limitReached_actor, hlimit]
    refine ⟨0, .next (actor cfg symbols p), fun fuel _ => ?_, hlimit', loopMeasure_actor hactive⟩
    simp [closureStep, hactive, hlimit']

/-- Below the limit the closure loop ends by itself. -/
theorem closureLoop_ends (hG : G.WellFormed)
    (heos : G.isMeta G.getEndOfStreamSymbol = false) (hC : Automaton G C)
    (hT : TableFor G C cfg.table) (hbreak : cfg.options.breakAfterMaxSymbolNodesCount = true)
    (hp : ClosureInv G C cfg.table W p) (hW : ∀ a ∈ symbols, W p.current a)
    (hlimit : limitReached p = false) :
    ∃ N r, (∀ fuel, N ≤ fuel → ∀ n, N ≤ n →
        runLoop (closureStep cfg fuel symbols) .outOfFuel n p = r) ∧ r.1 ≠ .outOfFuel := by
  have hstep : ∀ q, ClosureRun G C W cfg p q ∧ limitReached q = false → ¬False →
      ∃ N s, (∀ fuel, N ≤ fuel → closureStep cfg fuel symbols q = s) ∧
        s.Spec (fun q' => (ClosureRun G C W cfg p q' ∧ limitReached q' = false) ∧
          InvImage (· < ·) loopMeasure q' q) (fun status _ => status ≠ RunStatus.outOfFuel) := by
    rintro q ⟨hq, hqlimit⟩ _
    have hW' : ∀ a ∈ symbols, W q.current a := by
      rw [hq.current]
      exact hW
    obtain ⟨N, s, heq, hspec⟩ := @closureStep_ends _ _ _ _ _ _ W _ symbols q hG heos hC hT hbreak
      hq.inv hqlimit
    refine ⟨N, s, heq, ?_⟩
    have hrun := closureStep_closureRun hG heos hC hT hq.inv hW' N
    rw [heq N (le_refl N)] at hrun
    cases s with
    | next q' => exact ⟨⟨hq.trans hrun, hspec.1⟩, hspec.2⟩
    | exit status q' => exact hspec
  have hend : ∃ N, (∀ fuel, N ≤ fuel → ∀ n, N ≤ n → False) ∨
      ∃ b a', (∀ fuel, N ≤ fuel → ∀ n, N ≤ n →
        runLoop (closureStep cfg fuel symbols) .outOfFuel n p = (b, a')) ∧ b ≠ .outOfFuel :=
    runLoop_eventually (InvImage.wf loopMeasure wellFounded_lt) _ (fun _ => False) _ hstep
      (fun _ _ h => h.elim) p ⟨ClosureRun.refl hp, hlimit⟩
  obtain ⟨N, hN | ⟨b, a', hrun, hpost⟩⟩ := hend
  · exact (hN N (le_refl N) N (le_refl N)).elim
  · exact ⟨N, (b, a'), hrun, hpost⟩

/-- The call that follows from the end of the closure loop. -/
def finishCall (cfg : ParserConfig σ Agr Item) (firstReducedStateNode : ℕ)
    (r : RunStatus × GlrParser σ Item) : RunStatus × Bool × GlrParser σ Item :=
  if r.1 ≠ .finished then (r.1, false, r.2)
  else
    let next := nextLevel cfg firstReducedStateNode r.2
    (.finished, cfg.options.robust || next.1, next.2)

theorem parseSymbol_eq (fuel : ℕ) (symbols : List ℕ) (startPoint : Bool) (p : GlrParser σ Item) :
    parseSymbol cfg fuel symbols startPoint p = finishCall cfg p.stateNodes.length
      (runLoop (closureStep cfg fuel symbols) .outOfFuel fuel (startSymbol startPoint p)) := rfl

theorem parseSymbol_ends (hG : G.WellFormed)
    (heos : G.isMeta G.getEndOfStreamSymbol = false) (hC : Automaton G C)
    (hT : TableFor G C cfg.table) (hbreak : cfg.options.breakAfterMaxSymbolNodesCount = true)
    (hp : IdleInv G C cfg.table W p) (hlimit : limitReached p = false) (symbols : List ℕ)
    (hW : ∀ a ∈ symbols, W p.current a) (startPoint : Bool) :
    ∃ N r, (∀ fuel, N ≤ fuel → parseSymbol cfg fuel symbols startPoint p = r) ∧
      r.1 ≠ .outOfFuel := by
  have hstart : ClosureInv G C cfg.table W (startSymbol startPoint p) := hp.startSymbol startPoint
  have hW' : ∀ a ∈ symbols, W (startSymbol startPoint p).current a := hW
  have hlimit' : limitReached (startSymbol startPoint p) = false := hlimit
  obtain ⟨N, r, hrun, hr⟩ := closureLoop_ends hG heos hC hT hbreak hstart hW' hlimit'
  refine ⟨N, finishCall cfg p.stateNodes.length r, fun fuel hfuel => ?_, ?_⟩
  · rw [parseSymbol_eq, hrun fuel hfuel fuel hfuel]
  · unfold finishCall
    split_ifs
    · exact hr
    · exact RunStatus.finished_ne

theorem nextLevel_of_no_shifts (hdisable : p.disableWordsStateNodes = false)
    (hshifts : p.pendingShifts = []) (first : ℕ) :
    (nextLevel cfg first p).2.symbolNodes = p.symbolNodes ∧
      (nextLevel cfg first p).2.createdGroups = p.createdGroups ∧
      (nextLevel cfg first p).2.stateNodes = p.stateNodes := by
  have hfinish : finishLevel cfg first p =
    (p.updateGss (p.setLastLevel p.stateNodes.length)).updateGss
      ((p.setLastLevel p.stateNodes.length).pushLevel p.stateNodes.length) := by
    have hno : ¬(p.updateGss (p.setLastLevel p.stateNodes.length)).disableWordsStateNodes =
      true := by
      rw [show (p.updateGss (p.setLastLevel p.stateNodes.length)).disableWordsStateNodes =
        p.disableWordsStateNodes from rfl, hdisable]
      exact Bool.false_ne_true
    rw [finishLevel]
    dsimp only
    rw [if_neg hno]
    rfl
  have hnone : (finishLevel cfg first p).pendingShifts = [] := by
    rw [hfinish]
    exact hshifts
  unfold nextLevel shifter
  rw [hnone, hfinish]
  exact ⟨rfl, rfl, rfl⟩

/-- At the limit a call finds nothing new: it is interrupted, or it has nothing to do. -/
theorem parseSymbol_limit (hbreak : cfg.options.breakAfterMaxSymbolNodesCount = true)
    (hp : IdleInv G C cfg.table W p) (hlimit : limitReached p = true) (symbols : List ℕ)
    (startPoint : Bool) {fuel : ℕ} (hfuel : 0 < fuel) :
    (parseSymbol cfg fuel symbols startPoint p).1 ≠ .outOfFuel ∧
      (parseSymbol cfg fuel symbols startPoint p).2.2.symbolNodes = p.symbolNodes ∧
      (parseSymbol cfg fuel symbols startPoint p).2.2.createdGroups = p.createdGroups := by
  obtain ⟨n, rfl⟩ := Nat.exists_eq_succ_of_ne_zero (Nat.ne_of_gt hfuel)
  obtain ⟨q, hq⟩ : ∃ q, q = startSymbol startPoint p := ⟨_, rfl⟩
  have hreds : q.pendingReductions = [] := by
    rw [hq]
    exact hp.reductions
  have hqlimit : limitReached q = true := by
    rw [hq]
    exact hlimit
  have hqgss : q.symbolNodes = p.symbolNodes ∧ q.createdGroups = p.createdGroups := by
    rw [hq]
    exact ⟨rfl, rfl⟩
  rw [parseSymbol_eq, ← hq]
  by_cases hactive : q.activeNodes = []
  · have hstep : closureStep cfg (n + 1) symbols q = .exit .finished q := by
      simp [closureStep, hactive, hreds]
    have hnext := @nextLevel_of_no_shifts _ _ _ _ cfg q (by rw [hq]; rfl)
      (by rw [hq]; exact hp.shifts) p.stateNodes.length
    rw [runLoop_exit hstep, finishCall, if_neg (fun h => h rfl)]
    exact ⟨RunStatus.finished_ne, hnext.1.trans hqgss.1, hnext.2.1.trans hqgss.2⟩
  · obtain ⟨v, rest, hcons⟩ := List.exists_cons_of_ne_nil hactive
    have he : ActorEffect cfg symbols v { q with activeNodes := rest } (actor cfg symbols q) :=
      actor_effect hcons
    have hgss : (actor cfg symbols q).toGss = q.toGss := he.toGss
    have hstep : closureStep cfg (n + 1) symbols q = .exit .interrupted (actor cfg symbols q) := by
      simp [closureStep, hactive, hbreak, limitReached_actor, hqlimit]
    rw [runLoop_exit hstep, finishCall, if_pos RunStatus.interrupted_ne_finished]
    refine ⟨RunStatus.interrupted_ne, ?_, ?_⟩
    · rw [hgss]
      exact hqgss.1
    · rw [he.createdGroups]
      exact hqgss.2

end TomitaParser
