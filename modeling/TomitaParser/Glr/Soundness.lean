import TomitaParser.Glr.Shift
/-! # Soundness of the parser

Whatever the factory rejects and however the run ends, the symbol nodes are roots of derivations. -/

set_option linter.unusedSectionVars false

namespace TomitaParser
open OrderedSet LoopRun Cfg

variable {σ Agr Item : Type*} [Inhabited Item]
variable {G : WorkGrammar} {C : CollectionSet} {W : ℕ → ℕ → Prop}
variable {cfg : ParserConfig σ Agr Item}

/-- What the turns of the closure loop keep, `p₀` being the parser before them. -/
structure ClosureRun (G : WorkGrammar) (C : CollectionSet) (W : ℕ → ℕ → Prop)
    (cfg : ParserConfig σ Agr Item) (p₀ p : GlrParser σ Item) : Prop where
  inv : ClosureInv G C cfg.table W p
  current : p.current = p₀.current
  symbols : p₀.symbolNodes.length ≤ p.symbolNodes.length
  createdGroups : p₀.createdGroups ≤ p.createdGroups

theorem ClosureRun.refl {p : GlrParser σ Item} (hp : ClosureInv G C cfg.table W p) :
    ClosureRun G C W cfg p p := ⟨hp, rfl, le_refl _, le_refl _⟩

theorem ClosureRun.trans {p₀ p p' : GlrParser σ Item} (h₁ : ClosureRun G C W cfg p₀ p)
    (h₂ : ClosureRun G C W cfg p p') : ClosureRun G C W cfg p₀ p' :=
  ⟨h₂.inv, h₂.current.trans h₁.current, h₁.symbols.trans h₂.symbols,
    h₁.createdGroups.trans h₂.createdGroups⟩

theorem Searching.closureRun {symbols rest} {p p' : GlrParser σ Item}
    (h : Searching G C W cfg symbols { p with pendingReductions := rest } p') :
    ClosureRun G C W cfg p p' :=
  ⟨h.inv, h.effect.ext.current, h.effect.ext.symbols, h.effect.createdGroups⟩

theorem actor_closureRun (hT : TableFor G C cfg.table) {symbols : List ℕ} {p : GlrParser σ Item}
    (hp : ClosureInv G C cfg.table W p) (hW : ∀ a ∈ symbols, W p.current a) :
    ClosureRun G C W cfg p (actor cfg symbols p) := by
  cases hactive : p.activeNodes with
  | nil =>
    rw [actor, hactive]
    exact ClosureRun.refl hp
  | cons v rest =>
    have he : ActorEffect cfg symbols v { p with activeNodes := rest } (actor cfg symbols p) :=
      actor_effect hactive
    have hgss : (actor cfg symbols p).toGss = p.toGss := he.toGss
    refine ⟨hp.actor hT hW, ?_, ?_, ?_⟩
    · rw [hgss]
    · rw [hgss]
    · rw [he.createdGroups]

theorem closureStep_closureRun (hG : G.WellFormed) (heos : G.isMeta G.getEndOfStreamSymbol = false)
    (hC : Automaton G C) (hT : TableFor G C cfg.table) {symbols : List ℕ} {p : GlrParser σ Item}
    (hp : ClosureInv G C cfg.table W p) (hW : ∀ a ∈ symbols, W p.current a) (fuel : ℕ) :
    (closureStep cfg fuel symbols p).Spec (ClosureRun G C W cfg p)
      (fun status p' => ClosureRun G C W cfg p p' ∧
        (status = .finished → p'.pendingReductions = [])) := by
  unfold closureStep
  by_cases hdone : (p.activeNodes.isEmpty && p.pendingReductions.isEmpty) = true
  · rw [if_pos hdone]
    simp only [Bool.and_eq_true, List.isEmpty_iff] at hdone
    exact ⟨ClosureRun.refl hp, fun _ => hdone.2⟩
  · rw [if_neg hdone]
    have hrun : ClosureRun G C W cfg p (if p.activeNodes.isEmpty then reducer cfg fuel symbols p
        else (.finished, actor cfg symbols p)).2 := by
      split_ifs
      · cases hred : p.pendingReductions with
        | nil =>
          rw [reducer, hred]
          exact ClosureRun.refl hp
        | cons red rest => exact (reducer_searching hG heos hC hT hp hred fuel).closureRun
      · exact actor_closureRun hT hp hW
    generalize (if p.activeNodes.isEmpty then reducer cfg fuel symbols p
        else (.finished, actor cfg symbols p)) = r at hrun ⊢
    dsimp only
    split_ifs with hstatus
    · exact ⟨hrun, fun h => absurd h hstatus⟩
    · refine ⟨hrun, fun h => ?_⟩
      cases h
    · exact hrun

theorem closureLoop_closureRun (hG : G.WellFormed)
    (heos : G.isMeta G.getEndOfStreamSymbol = false) (hC : Automaton G C)
    (hT : TableFor G C cfg.table) {symbols : List ℕ} {p : GlrParser σ Item}
    (hp : ClosureInv G C cfg.table W p) (hW : ∀ a ∈ symbols, W p.current a) (fuel n : ℕ) :
    ClosureRun G C W cfg p (runLoop (closureStep cfg fuel symbols) .outOfFuel n p).2 ∧
      ((runLoop (closureStep cfg fuel symbols) .outOfFuel n p).1 = .finished →
        (runLoop (closureStep cfg fuel symbols) .outOfFuel n p).2.pendingReductions = []) := by
  refine runLoop_post (ClosureRun G C W cfg p)
    (fun (status : RunStatus) p' => ClosureRun G C W cfg p p' ∧
      (status = .finished → p'.pendingReductions = [])) ?_ ?_ n p (ClosureRun.refl hp)
  · intro q hq
    have hW' : ∀ a ∈ symbols, W q.current a := by
      rw [hq.current]
      exact hW
    have hstep := closureStep_closureRun hG heos hC hT hq.inv hW' fuel
    exact hstep.mono (fun q' h => hq.trans h) fun _ q' h => ⟨hq.trans h.1, h.2⟩
  · intro q hq
    exact ⟨hq, fun h => by cases h⟩

/-- Going to the next position ends in the idle state. -/
theorem nextLevel_spec (hC : Automaton G C) {p : GlrParser σ Item}
    (hp : ClosureInv G C cfg.table W p) (hreds : p.pendingReductions = []) (first : ℕ) :
    IdleInv G C cfg.table W (nextLevel cfg first p).2 ∧
      (nextLevel cfg first p).2.current = p.current + 1 ∧
      p.symbolNodes.length ≤ (nextLevel cfg first p).2.symbolNodes.length ∧
      p.createdGroups ≤ (nextLevel cfg first p).2.createdGroups := by
  obtain ⟨hinv, heff, hshifts⟩ := finishLevel_spec hp hreds first
  unfold nextLevel
  obtain ⟨p₁, hp₁⟩ : ∃ p₁, p₁ = finishLevel cfg first p := ⟨_, rfl⟩
  rw [← hp₁] at hinv heff hshifts ⊢
  obtain ⟨hinv₂, heff₂, _⟩ := foldl_shiftOne_spec hC p₁.pendingShifts
    { p₁ with pendingShifts := [] } ⟨hinv.gss, hinv.reductions, hinv.levels, hinv.leaf⟩ (by
      intro sh hsh
      rw [heff.shifts] at hsh
      show ShiftOk C W p₁.toGss (p₁.current - 1) sh
      rw [heff.current]
      exact hshifts sh hsh)
  change ShiftInv G C cfg.table W (shifter cfg p₁) at hinv₂
  change ShiftEffect { p₁ with pendingShifts := [] } (shifter cfg p₁) at heff₂
  have hcurrent : (shifter cfg p₁).current = p.current + 1 := by
    rw [heff₂.ext.current, heff.current]
  have hlevels := hinv₂.levels
  refine ⟨⟨hinv₂.gss.setLastLevel, hinv₂.reductions, heff₂.shifts, ?_, ?_⟩, ?_, ?_, ?_⟩
  · show ((shifter cfg p₁).inputLevels.dropLast ++
      [(shifter cfg p₁).stateNodes.length]).getLastD 0 = (shifter cfg p₁).stateNodes.length
    simp
  · intro hone
    have hone' : ((shifter cfg p₁).inputLevels.dropLast ++ [_]).length = 1 := hone
    simp only [List.length_append, List.length_dropLast, List.length_singleton] at hone'
    omega
  · rw [← hcurrent]
    exact Gss.current_setLastLevel _ _ hinv₂.gss.levels_ne
  · exact heff.symbols.ge.trans heff₂.ext.symbols
  · exact heff.createdGroups.ge.trans heff₂.createdGroups.ge

/-- What one call of `ParseSymbol` does, whatever its result. -/
structure CallSpec (G : WorkGrammar) (C : CollectionSet) (W : ℕ → ℕ → Prop)
    (cfg : ParserConfig σ Agr Item) (p : GlrParser σ Item)
    (r : RunStatus × Bool × GlrParser σ Item) : Prop where
  gss : GssInv G C cfg.table W r.2.2.toGss
  idle : r.1 = .finished → IdleInv G C cfg.table W r.2.2 ∧ r.2.2.current = p.current + 1
  symbols : p.symbolNodes.length ≤ r.2.2.symbolNodes.length
  createdGroups : p.createdGroups ≤ r.2.2.createdGroups

theorem parseSymbol_spec (hG : G.WellFormed) (heos : G.isMeta G.getEndOfStreamSymbol = false)
    (hC : Automaton G C) (hT : TableFor G C cfg.table) {symbols : List ℕ} {p : GlrParser σ Item}
    (hp : IdleInv G C cfg.table W p) (hW : ∀ a ∈ symbols, W p.current a) (fuel : ℕ)
    (startPoint : Bool) : CallSpec G C W cfg p (parseSymbol cfg fuel symbols startPoint p) := by
  have hstart : ClosureInv G C cfg.table W (startSymbol startPoint p) := hp.startSymbol startPoint
  have hW' : ∀ a ∈ symbols, W (startSymbol startPoint p).current a := hW
  obtain ⟨hrun, hdone⟩ := closureLoop_closureRun hG heos hC hT hstart hW' fuel fuel
  unfold parseSymbol
  generalize runLoop (closureStep cfg fuel symbols) .outOfFuel fuel (startSymbol startPoint p) = r
    at hrun hdone ⊢
  dsimp only
  split_ifs with hstatus
  · exact ⟨hrun.inv.gss, fun h => absurd h hstatus, hrun.symbols, hrun.createdGroups⟩
  · obtain ⟨hidle, hcurrent, hsymbols, hgroups⟩ := nextLevel_spec hC hrun.inv
      (hdone (not_not.mp hstatus)) p.stateNodes.length
    rw [hrun.current] at hcurrent
    exact ⟨hidle.gss, fun _ => ⟨hidle, hcurrent⟩, hrun.symbols.trans hsymbols,
      hrun.createdGroups.trans hgroups⟩

theorem initGlrParser_idle (G : WorkGrammar) (C : CollectionSet) (T : GlrTable Agr)
    (W : ℕ → ℕ → Prop) (p : GlrParser σ Item) : IdleInv G C T W (initGlrParser p) := by
  have hnode : ∀ v, (initGlrParser p).stateNode v = {} := by
    intro v
    cases v <;> rfl
  have hnone : ∀ v, ∀ s, s ∉ ((initGlrParser p).stateNode v).symbolChildren := by
    intro v s hs
    rw [hnode] at hs
    exact absurd hs List.not_mem_nil
  refine ⟨⟨Nat.one_pos, rfl, List.cons_ne_nil _ _, ?_, List.pairwise_singleton _ _,
    le_refl _, ?_, ?_,
    ?_, ?_, ?_⟩, rfl, rfl, rfl, fun _ => rfl⟩
  · intro l hl
    rw [List.mem_singleton.mp hl]
    exact Nat.one_pos
  · exact fun v s hs => absurd hs (hnone v s)
  · exact fun v s hs => absurd hs (hnone v s)
  · exact fun v s hs => absurd hs (hnone v s)
  · exact fun v _ s hs => absurd hs (hnone v s)
  · exact fun s hs => absurd hs (Nat.not_lt_zero s)

/-- The `i`-th symbol set of the input has the symbol `a`. -/
def WordHas (words : List (List ℕ × Bool)) (i a : ℕ) : Prop := ∃ w, words[i]? = some w ∧ a ∈ w.1

theorem parseSymbols_spec (hG : G.WellFormed) (heos : G.isMeta G.getEndOfStreamSymbol = false)
    (hC : Automaton G C) (hT : TableFor G C cfg.table) (fuel : ℕ) {words : List (List ℕ × Bool)}
    (rest : List (List ℕ × Bool)) : ∀ p : GlrParser σ Item, words.drop p.current = rest →
      IdleInv G C cfg.table (WordHas words) p →
      GssInv G C cfg.table (WordHas words) (parseSymbols cfg fuel rest p).2.toGss ∧
        p.symbolNodes.length ≤ (parseSymbols cfg fuel rest p).2.symbolNodes.length ∧
        p.createdGroups ≤ (parseSymbols cfg fuel rest p).2.createdGroups := by
  induction rest with
  | nil =>
    intro p _ hp
    exact ⟨hp.gss, le_refl _, le_refl _⟩
  | cons w rest ih =>
    intro p hrest hp
    have hword : words[p.current]? = some w := by
      rw [← List.head?_drop, hrest, List.head?_cons]
    have hW : ∀ a ∈ w.1, WordHas words p.current a := fun a ha => ⟨w, hword, ha⟩
    have hcall := parseSymbol_spec hG heos hC hT hp hW fuel w.2
    rw [parseSymbols]
    split_ifs with hstatus
    · exact ⟨hcall.gss, hcall.symbols, hcall.createdGroups⟩
    · obtain ⟨hidle, hcurrent⟩ := hcall.idle (not_not.mp hstatus)
      obtain ⟨h₁, h₂, h₃⟩ := ih _ (by
        rw [hcurrent, ← List.tail_drop, hrest, List.tail_cons]) hidle
      exact ⟨h₁, hcall.symbols.trans h₂, hcall.createdGroups.trans h₃⟩

section Sound
variable (G : EncodedGrammar) (agreements : List (List Agr)) (factory : InputItemFactory σ Agr Item)
  (options : ParserOptions)

/-- A parser over the table that is built for the grammar. -/
def EncodedGrammar.parserConfig : ParserConfig σ Agr Item where
  table := (buildGlrTable G.augmentedGrammar).swapRuleAgreements agreements
  factory := factory
  options := options

theorem EncodedGrammar.parserConfig_tableFor :
    TableFor G.augmentedGrammar (computeCollection G.augmentedGrammar)
      (G.parserConfig agreements factory options).table :=
  (buildGlrTable_tableFor G.augmentedGrammar_wellFormed).swapRuleAgreements agreements

/-- Every entry of the parse children names a rule for the node's symbol, the children spell its
right part and tile the node's interval; a leaf is a symbol of the one word it covers. -/
theorem parseSymbols_sound (fuel : ℕ) (words : List (List ℕ × Bool)) (p : GlrParser σ Item) :
    let cfg := G.parserConfig agreements factory options
    let g := (parseSymbols cfg fuel words (initGlrParser p)).2.toGss
    ∀ s, s < g.symbolNodes.length →
      (∀ pc ∈ (g.symbolNode s).parseChildren,
        (∃ R ∈ G.encodedRules, (cfg.table.ruleInfo pc.reduceRule).Matches R ∧
          R.leftPart = (g.symbolNode s).symbolNo ∧
          pc.items.map (fun c => (g.symbolNode c).symbolNo) = R.rightPart.items) ∧
        (∀ c ∈ pc.items, c < g.symbolNodes.length) ∧
        g.Tiles (g.symbolNode s).inputStart pc.items (g.symbolNode s).inputEnd) ∧
      ((g.symbolNode s).parseChildren = [] →
        (g.symbolNode s).inputEnd = (g.symbolNode s).inputStart + 1 ∧
          WordHas words (g.symbolNode s).inputStart (g.symbolNode s).symbolNo) ∧
      Spans G.Production (WordHas words) [(g.symbolNode s).symbolNo] (g.symbolNode s).inputStart
        (g.symbolNode s).inputEnd := by
  intro cfg g s hs
  have hG := G.augmentedGrammar_wellFormed
  have hT := G.parserConfig_tableFor agreements factory options
  have hinv := (parseSymbols_spec hG G.augmentedGrammar_augmented.endOfStream_terminal
    (computeCollection_automaton hG.toNumbered) hT fuel words (initGlrParser p) rfl
    (initGlrParser_idle _ _ _ _ p)).1
  have hok := hinv.symbol s hs
  refine ⟨?_, hok.leaf, ?_⟩
  · intro pc hpc
    have hparse := hok.parse pc hpc
    obtain ⟨R, hR, hleft, hspelled⟩ := hparse.rule
    refine ⟨⟨R, ?_, ?_, hleft, hspelled⟩, hparse.items_lt, hparse.tiles⟩
    · rcases G.mem_augmentedGrammar_rules.mp hR.mem with rfl | hmem
      · exact absurd G.augmentedGrammar_getNewRoot.symm hR.left
      · exact hmem
    · rw [hR.no]
      exact hT.info R hR.mem
  · refine hok.spans.mono ?_ fun _ _ h => h
    intro A rhs h
    exact G.augmentedGrammar_innerProduction.mp h

end Sound
end TomitaParser
