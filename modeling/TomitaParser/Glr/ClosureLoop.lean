import Mathlib.Data.Prod.Lex
import Mathlib.Order.Interval.Finset.Nat
import TomitaParser.Glr.Frozen
/-! # The closure loop runs to its end

With a factory that rejects nothing, the loop ends with every shift noted and every reduction done,
unless the parser meets its limit on symbol nodes. -/

set_option linter.unusedSectionVars false

namespace TomitaParser
open OrderedSet LoopRun Cfg

variable {σ Agr Item : Type*} [Inhabited Item]
variable {G : WorkGrammar} {C : CollectionSet} {W : ℕ → ℕ → Prop}
variable {cfg : ParserConfig σ Agr Item} {symbols : List ℕ} {startPoint : Bool}
variable {p₀ p p' : GlrParser σ Item}

/-- A reduction the table asks for at the state node `v`. -/
structure Asked (G : WorkGrammar) (C : CollectionSet) (symbols : List ℕ) (g : Gss Item) (v : ℕ)
    (R : WorkRule) : Prop where
  mem : R ∈ G.encodedRules
  left : R.leftPart ≠ G.getNewRoot
  finished : ⟨R, R.rightPart.items.length⟩ ∈ C.itemSet (g.stateNode v).stateNo
  follow : ∃ a ∈ symbols, a ∈ G.buildFollowSet.get R.leftPart

/-- The invariant of the loop: a state node of the current position waits for Actor, or its shifts
are noted and its reductions are pending or done. -/
structure LoopInv (G : WorkGrammar) (C : CollectionSet) (W : ℕ → ℕ → Prop)
    (cfg : ParserConfig σ Agr Item) (symbols : List ℕ) (startPoint : Bool)
    (p₀ p : GlrParser σ Item) : Prop where
  run : ClosureRun G C W cfg p₀ p
  frozen : Frozen p₀.current p₀.toGss p.toGss
  disable : p.disableWordsStateNodes = false
  shifts : ∀ v, v < p.stateNodes.length → (p.position v = p.current ∨ (startPoint = true ∧ v = 0)) →
    v ∉ p.activeNodes → ∀ a ∈ symbols, ∀ q, C.getGotoValue a (p.stateNode v).stateNo = some q →
      ⟨v, q, a⟩ ∈ p.pendingShifts
  reductions : ∀ v, p.position v = p.current → v ∉ p.activeNodes →
    ∀ s ∈ (p.stateNode v).symbolChildren, ∀ R, Asked G C symbols p.toGss v R →
      ⟨s, v, getRuleInfo cfg.table.ruleInfos R⟩ ∈ p.pendingReductions ∨ Done p.toGss v s R

theorem Asked.mem_cell (hT : TableFor G C cfg.table) {g : Gss Item} {v : ℕ} {R : WorkRule}
    (h : Asked G C symbols g v R) : ∃ a ∈ symbols, getRuleInfo cfg.table.ruleInfos R ∈
      (cfg.table.cell (g.stateNode v).stateNo a).reduceRules := by
  obtain ⟨a, ha, hfollow⟩ := h.follow
  exact ⟨a, ha, (hT.reduce _ _ _).mpr ⟨R, h.mem, h.left, h.finished, hfollow, rfl⟩⟩

theorem ReduceRule.unique (hG : G.WellFormed) (hT : TableFor G C cfg.table) {r : ℕ}
    {R R' : WorkRule} (h : ReduceRule G cfg.table r R) (h' : ReduceRule G cfg.table r R') :
    R = R' := by
  have h₁ := hT.info R h.mem
  have h₂ := hT.info R' h'.mem
  rw [← h.no] at h₁
  rw [← h'.no] at h₂
  exact hG.ruleNo_inj R h.mem R' h'.mem (h₁.originalRuleNo.symm.trans h₂.originalRuleNo)

theorem LoopInv.actor (hT : TableFor G C cfg.table) (hp : LoopInv G C W cfg symbols startPoint p₀ p)
    (hW : ∀ a ∈ symbols, W p₀.current a) :
    LoopInv G C W cfg symbols startPoint p₀ (actor cfg symbols p) := by
  have hcurrent := hp.run.current
  have hrun : ClosureRun G C W cfg p (TomitaParser.actor cfg symbols p) := by
    refine actor_closureRun hT hp.run.inv ?_
    rw [hcurrent]
    exact hW
  cases hactive : p.activeNodes with
  | nil =>
    rw [TomitaParser.actor, hactive]
    exact hp
  | cons v rest =>
    have he : ActorEffect cfg symbols v { p with activeNodes := rest }
      (TomitaParser.actor cfg symbols p) := actor_effect hactive
    generalize TomitaParser.actor cfg symbols p = p' at he hrun
    have hgss : p'.toGss = p.toGss := he.toGss
    have hold : ∀ u, u ∉ rest → u ≠ v → u ∉ p.activeNodes := by
      intro u hu hne
      rw [hactive, List.mem_cons, not_or]
      exact ⟨hne, hu⟩
    refine ⟨hp.run.trans hrun, ?_, he.disable.trans hp.disable, ?_, ?_⟩
    · rw [hgss]
      exact hp.frozen
    · rw [hgss, he.activeNodes]
      intro u hlt hu hnot a ha q hq
      rw [he.shifts]
      by_cases huv : u = v
      · refine Or.inr ⟨huv, ha, ?_⟩
        rw [hT.gotoLine, ← huv]
        exact hq
      · exact Or.inl (hp.shifts u hlt hu (hold u hnot huv) a ha q hq)
    · rw [hgss, he.activeNodes]
      intro u hu hnot s hs R hR
      by_cases huv : u = v
      · obtain ⟨a, ha, hr⟩ := hR.mem_cell hT
        refine Or.inl ((he.reductions _).mpr (Or.inr ⟨huv, ?_, a, ha, ?_⟩))
        · rw [← huv]
          exact hs
        · rw [← huv]
          exact hr
      · rcases hp.reductions u hu (hold u hnot huv) s hs R hR with hmem | hdone
        · exact Or.inl ((he.reductions _).mpr (Or.inl hmem))
        · exact Or.inr hdone

/-- The reducer moves one reduction from pending to done. -/
theorem LoopInv.reducer (hG : G.WellFormed) (hT : TableFor G C cfg.table)
    (hp : LoopInv G C W cfg symbols startPoint p₀ p)
    (hgroup : cfg.options.groupNonTerminal = -1) {red : PendingReduction} {R : WorkRule}
    {rest : List PendingReduction} (h : p.pendingReductions = red :: rest)
    (hR : ReductionOk G C cfg.table p.toGss red R)
    (hs : Searching G C W cfg symbols { p with pendingReductions := rest } p')
    (hcov : Covered p.toGss red.lastStateNodeNo R p' [red.symbolNodeNo, red.lastStateNodeNo]) :
    LoopInv G C W cfg symbols startPoint p₀ p' := by
  obtain ⟨p₁, hp₁⟩ : ∃ p₁ : GlrParser σ Item, p₁ = { p with pendingReductions := rest } := ⟨_, rfl⟩
  have hgss : p₁.toGss = p.toGss := by rw [hp₁]
  have hrun := hs.closureRun
  have heff := hs.effect
  rw [← hp₁] at heff
  have hinv := hp.run.inv.gss
  have hinv₁ : GssInv G C cfg.table W p₁.toGss := by
    rw [hgss]
    exact hinv
  have hext : Gss.Ext p.toGss p'.toGss := by
    rw [← hgss]
    exact heff.ext
  have hfrozen : Frozen p.current p.toGss p'.toGss := by
    rw [← hgss]
    exact heff.frozen hinv₁ hs.inv.gss
  -- a node that does not wait now did not wait before, and was there
  have hold : ∀ u, u ∉ p'.activeNodes → u ∉ p.activeNodes := by
    intro u hu hmem
    exact hu (heff.active_mono u (by rw [hp₁]; exact hmem))
  have hlt : ∀ u, u ∉ p'.activeNodes → u < p'.stateNodes.length → u < p.stateNodes.length := by
    intro u hu hlt
    by_contra hle
    refine hu (heff.node_new u ?_ hlt)
    rw [hgss]
    exact not_lt.mp hle
  refine ⟨hp.run.trans hrun, ?_, ?_, ?_, ?_⟩
  · refine hp.frozen.trans ?_
    rw [← hp.run.current]
    exact hfrozen
  · rw [heff.disable hgroup, hp₁]
    exact hp.disable
  · intro u hu hat hnot a ha q hq
    have hu' := hlt u hnot hu
    rw [hext.position, hext.current] at hat
    rw [hext.stateNo u hu'] at hq
    rw [heff.shifts, hp₁]
    exact hp.shifts u hu' hat (hold u hnot) a ha q hq
  · intro u hat hnot s hs' R' hR'
    rw [hext.position, hext.current] at hat
    have hu := hlt u hnot (p'.lt_of_mem_symbolChildren hs')
    by_cases hmem : s ∈ (p.stateNode u).symbolChildren
    · have hasked : Asked G C symbols p.toGss u R' := by
        refine ⟨hR'.mem, hR'.left, ?_, hR'.follow⟩
        rw [← hext.stateNo u hu]
        exact hR'.finished
      have hkeep : Done p.toGss u s R' → Done p'.toGss u s R' := by
        intro hd
        rw [← hgss] at hd hmem
        exact hd.reduceEffect heff hinv₁ hs.inv.gss hmem
      rcases hp.reductions u hat (hold u hnot) s hmem R' hasked with hpend | hdone
      · rw [h] at hpend
        rcases List.mem_cons.mp hpend with rfl | hpend
        · -- this is the reduction that was taken up
          refine Or.inr ?_
          obtain rfl : R = R' := hR.rule.unique hG hT ⟨hR'.mem, hR'.left, rfl⟩
          intro path ht hlen hsuffix
          have ht' : Trail p.toGss u true path := by
            rw [← hgss] at hmem ⊢
            refine Trail.back (fun _ => True) trivial hmem ?_ ?_ ht hsuffix
            · exact fun x t _ ht => heff.nodeChildren t (hinv₁.symbol_lt x t ht)
            · exact fun x t w _ ht hw => ⟨trivial, heff.below hinv₁ hs.inv.gss ht hw⟩
          have hlt : 1 < path.length := by
            have := hsuffix.length_le
            simp only [List.length_cons, List.length_nil] at this
            omega
          have hedge := hcov path ht' hlen hsuffix
          rw [hext.position, hat, pathStart, hext.inputStart _ (ht'.leftmost_lt hinv hlt)]
          exact hedge
        · refine Or.inl (heff.reductions _ ?_)
          rw [hp₁]
          exact hpend
      · exact Or.inr (hkeep hdone)
    · have hnew := (heff.child_new u s hs' (by rw [hgss]; exact hmem)).resolve_left hnot
      obtain ⟨a, ha, hr⟩ := hR'.mem_cell hT
      exact Or.inl (hnew a ha _ hr)

theorem limitReached_mono (hs : p.symbolNodes.length ≤ p'.symbolNodes.length)
    (hc : p.createdGroups ≤ p'.createdGroups) (h : limitReached p = true) :
    limitReached p' = true := by
  simp only [limitReached, Bool.or_eq_true, decide_eq_true_eq] at h ⊢
  omega

/-- What a turn makes smaller: the room for symbol nodes, or else the work lists. -/
def loopMeasure (p : GlrParser σ Item) : ℕ ×ₗ ℕ ×ₗ ℕ :=
  toLex (maxSymbolNodesCount - p.symbolNodes.length,
    toLex (p.activeNodes.length, p.pendingReductions.length))

theorem loopMeasure_actor (hp : p.activeNodes ≠ []) :
    loopMeasure (actor cfg symbols p) < loopMeasure p := by
  cases hactive : p.activeNodes with
  | nil => exact absurd hactive hp
  | cons v rest =>
    have he : ActorEffect cfg symbols v { p with activeNodes := rest } (actor cfg symbols p) :=
      actor_effect hactive
    have hgss : (actor cfg symbols p).toGss = p.toGss := he.toGss
    simp only [loopMeasure, hgss, he.activeNodes, hactive, List.length_cons]
    refine Prod.Lex.toLex_lt_toLex.mpr (Or.inr ⟨rfl, ?_⟩)
    exact Prod.Lex.toLex_lt_toLex.mpr (Or.inl (Nat.lt_succ_self _))

theorem loopMeasure_reducer {red : PendingReduction} {rest : List PendingReduction}
    (h : p.pendingReductions = red :: rest) (hlimit : limitReached p = false)
    (hp : Progress { p with pendingReductions := rest } p') :
    loopMeasure p' < loopMeasure p := by
  simp only [limitReached, Bool.or_eq_false_iff, decide_eq_false_iff_not, not_le] at hlimit
  rcases hp with hlt | ⟨hlen, hactive, hreds⟩
  · have hlt' : p.symbolNodes.length < p'.symbolNodes.length := hlt
    exact Prod.Lex.toLex_lt_toLex.mpr (Or.inl (by dsimp only; omega))
  · have hlen' : p'.symbolNodes.length = p.symbolNodes.length := hlen
    simp only [loopMeasure, hlen', hactive, hreds, h, List.length_cons]
    refine Prod.Lex.toLex_lt_toLex.mpr (Or.inr ⟨rfl, ?_⟩)
    exact Prod.Lex.toLex_lt_toLex.mpr (Or.inr ⟨rfl, Nat.lt_succ_self _⟩)

/-- The loop is at its end, with nothing left to do. -/
structure LoopDone (G : WorkGrammar) (C : CollectionSet) (W : ℕ → ℕ → Prop)
    (cfg : ParserConfig σ Agr Item) (symbols : List ℕ) (startPoint : Bool)
    (p₀ p : GlrParser σ Item) : Prop extends LoopInv G C W cfg symbols startPoint p₀ p where
  noActive : p.activeNodes = []
  noReductions : p.pendingReductions = []

/-- One turn below the limit, with enough fuel for the reducer. -/
private theorem closureStep_turn (hG : G.WellFormed)
    (heos : G.isMeta G.getEndOfStreamSymbol = false) (hC : Automaton G C)
    (hT : TableFor G C cfg.table) (hacc : Accepting cfg.factory)
    (hgroup : cfg.options.groupNonTerminal = -1) (hW : ∀ a ∈ symbols, W p₀.current a)
    (hp : LoopInv G C W cfg symbols startPoint p₀ p) (hlimit : limitReached p = false) :
    ∃ N s, (∀ fuel, N ≤ fuel → closureStep cfg fuel symbols p = s) ∧
      s.Spec (fun p' => LoopInv G C W cfg symbols startPoint p₀ p' ∧ loopMeasure p' < loopMeasure p)
        (fun status p' => limitReached p' = true ∨
          (status = .finished ∧ LoopDone G C W cfg symbols startPoint p₀ p')) := by
  by_cases hactive : p.activeNodes = []
  · cases hreds : p.pendingReductions with
    | nil =>
      refine ⟨0, .exit .finished p, fun fuel _ => ?_, Or.inr ⟨rfl, hp, hactive, hreds⟩⟩
      simp [closureStep, hactive, hreds]
    | cons red rest =>
      obtain ⟨R, hR⟩ := hp.run.inv.reductions red (by rw [hreds]; exact List.mem_cons_self)
      obtain ⟨N, p', hrun, hs, hcov⟩ := @reducer_finishes _ _ _ _ _ _ _ _ symbols _ _ _ hG heos hC
        hT hp.run.inv rest hreds hR
      have hnext := hp.reducer hG hT hgroup hreds hR hs (hcov hacc)
      have hlt := loopMeasure_reducer hreds hlimit hs.progress
      refine ⟨N, if limitReached p' && cfg.options.breakAfterMaxSymbolNodesCount then
        .exit .interrupted p' else .next p', fun fuel hfuel => ?_, ?_⟩
      · simp [closureStep, hactive, hreds, hrun fuel hfuel]
      · split_ifs with hbreak
        · simp only [Bool.and_eq_true] at hbreak
          exact Or.inl hbreak.1
        · exact ⟨hnext, hlt⟩
  · have hnext := hp.actor hT hW
    have hlimit' : limitReached (actor cfg symbols p) = false := by
      cases h : p.activeNodes with
      | nil => exact absurd h hactive
      | cons v rest =>
        have he : ActorEffect cfg symbols v { p with activeNodes := rest } (actor cfg symbols p) :=
          actor_effect h
        have hgss : (actor cfg symbols p).toGss = p.toGss := he.toGss
        rw [← hlimit, limitReached, limitReached, hgss, he.createdGroups]
    refine ⟨0, .next (actor cfg symbols p), fun fuel _ => ?_, hnext, loopMeasure_actor hactive⟩
    simp [closureStep, hactive, hlimit']

/-- The loop ends with everything done, or the parser meets its limit. -/
theorem closureLoop_complete (hG : G.WellFormed)
    (heos : G.isMeta G.getEndOfStreamSymbol = false) (hC : Automaton G C)
    (hT : TableFor G C cfg.table) (hacc : Accepting cfg.factory)
    (hgroup : cfg.options.groupNonTerminal = -1) (hW : ∀ a ∈ symbols, W p.current a)
    (hp : LoopInv G C W cfg symbols startPoint p p) :
    ∃ N, (∀ fuel, N ≤ fuel → limitReached
        (runLoop (closureStep cfg fuel symbols) .outOfFuel fuel p).2 = true) ∨
      ∃ p', (∀ fuel, N ≤ fuel →
          runLoop (closureStep cfg fuel symbols) .outOfFuel fuel p = (.finished, p')) ∧
        LoopDone G C W cfg symbols startPoint p p' := by
  have hstep : ∀ q, LoopInv G C W cfg symbols startPoint p q →
      ¬(ClosureRun G C W cfg p q ∧ limitReached q = true) →
      ∃ N s, (∀ fuel, N ≤ fuel → closureStep cfg fuel symbols q = s) ∧
        s.Spec (fun q' => LoopInv G C W cfg symbols startPoint p q' ∧
            InvImage (· < ·) loopMeasure q' q)
          (fun status q' => limitReached q' = true ∨
            (status = .finished ∧ LoopDone G C W cfg symbols startPoint p q')) := by
    intro q hq hstop
    refine closureStep_turn hG heos hC hT hacc hgroup hW hq ?_
    by_contra hlimit
    exact hstop ⟨hq.run, by simpa using hlimit⟩
  have hkeep : ∀ fuel q, ClosureRun G C W cfg p q ∧ limitReached q = true →
      (closureStep cfg fuel symbols q).Spec
        (fun q' => ClosureRun G C W cfg p q' ∧ limitReached q' = true)
        (fun _ q' => ClosureRun G C W cfg p q' ∧ limitReached q' = true) := by
    rintro fuel q ⟨hq, hlimit⟩
    have hW' : ∀ a ∈ symbols, W q.current a := by
      rw [hq.current]
      exact hW
    refine (closureStep_closureRun hG heos hC hT hq.inv hW' fuel).mono ?_ ?_
    · exact fun q' h => ⟨hq.trans h, limitReached_mono h.symbols h.createdGroups hlimit⟩
    · exact fun _ q' h => ⟨hq.trans h.1, limitReached_mono h.1.symbols h.1.createdGroups hlimit⟩
  obtain ⟨N, hN⟩ := runLoop_eventually (InvImage.wf loopMeasure wellFounded_lt) _ _ _ hstep hkeep
    p hp
  refine ⟨N, ?_⟩
  rcases hN with hstop | ⟨status, p', hrun, hlimit | ⟨rfl, hdone⟩⟩
  · exact Or.inl fun fuel hf => (hstop fuel hf fuel hf).2
  · refine Or.inl fun fuel hf => ?_
    rw [hrun fuel hf fuel hf]
    exact hlimit
  · exact Or.inr ⟨p', fun fuel hf => hrun fuel hf fuel hf, hdone⟩

end TomitaParser
