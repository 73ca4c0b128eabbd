import TomitaParser.Glr.Unlimited
/-! # Enabled symbol nodes

Only groups of a syntactic analysis disable words. A parser that is not set up for one never
disables a symbol node. -/

set_option linter.unusedSectionVars false

namespace TomitaParser
open LoopRun

variable {σ Agr Item : Type*} [Inhabited Item]

/-- No symbol node is disabled, and no group has been built that would disable one. -/
structure Enabled (p : GlrParser σ Item) : Prop where
  symbols : ∀ sn ∈ p.symbolNodes, sn.disabled = false
  words : p.disableWordsStateNodes = false

variable {cfg : ParserConfig σ Agr Item} {p : GlrParser σ Item}

theorem Enabled.of_eq {q : GlrParser σ Item} (h : Enabled p)
    (hsymbols : q.symbolNodes = p.symbolNodes)
    (hwords : q.disableWordsStateNodes = p.disableWordsStateNodes) : Enabled q :=
  ⟨hsymbols ▸ h.symbols, hwords.trans h.words⟩

theorem Enabled.addSymbolNode (h : Enabled p) (v : ℕ) {sn : SymbolNode Item}
    (hsn : sn.disabled = false) : Enabled (p.updateGss (p.addSymbolNode v sn)) := by
  refine ⟨?_, h.words⟩
  intro sn' hsn'
  rcases List.mem_append.mp hsn' with hold | hnew
  · exact h.symbols sn' hold
  · rw [List.mem_singleton.mp hnew]
    exact hsn

theorem Enabled.modifySymbolNode (h : Enabled p) (s : ℕ) {f : SymbolNode Item → SymbolNode Item}
    (hf : ∀ sn, (f sn).disabled = sn.disabled) :
    Enabled (p.updateGss (p.modifySymbolNode s f)) := by
  refine ⟨?_, h.words⟩
  intro sn' hsn'
  obtain ⟨i, hi, rfl⟩ := List.mem_iff_getElem.mp hsn'
  change i < (p.symbolNodes.modify s f).length at hi
  change ((p.symbolNodes.modify s f)[i]).disabled = false
  rw [List.length_modify] at hi
  rw [List.getElem_modify]
  split_ifs
  · rw [hf]
    exact h.symbols _ (List.getElem_mem hi)
  · exact h.symbols _ (List.getElem_mem hi)

theorem Enabled.actor (h : Enabled p) (symbols : List ℕ) : Enabled (actor cfg symbols p) := by
  unfold TomitaParser.actor
  split
  · exact h
  · rename_i v rest _
    have hfold : ∀ (symbols : List ℕ) (q : GlrParser σ Item), Enabled q →
        Enabled (symbols.foldl (actorSymbol cfg v) q) := by
      intro symbols
      induction symbols with
      | nil => exact fun _ hq => hq
      | cons a symbols ih => exact fun q hq => ih _ (hq.of_eq rfl rfl)
    exact hfold symbols _ (h.of_eq rfl rfl)

theorem disabled_addInputItem (weight : Item → ℕ) (item : Item) (sn : SymbolNode Item) :
    (sn.addInputItem weight item).disabled = sn.disabled := by
  unfold SymbolNode.addInputItem
  split_ifs <;> rfl

theorem Enabled.enterItem (h : Enabled p) (symbols : List ℕ) (f : FoundReduction) (item : Item)
    (leftPart gotoLine newNode : ℕ) :
    Enabled (enterItem cfg symbols f item leftPart gotoLine newNode p) := by
  unfold TomitaParser.enterItem
  dsimp only
  split
  · exact h.modifySymbolNode _ fun sn => disabled_addInputItem _ _ sn
  · split_ifs
    · exact h.addSymbolNode newNode rfl
    · exact (h.addSymbolNode newNode rfl).of_eq rfl rfl

theorem noteGroup_of_unset (hgroup : cfg.options.groupNonTerminal = -1) (leftPart : ℕ)
    (span : ℕ × ℕ) : noteGroup cfg leftPart span p = p := by
  rw [noteGroup, if_neg]
  omega

theorem Enabled.reduceOnePath (hgroup : cfg.options.groupNonTerminal = -1) (h : Enabled p)
    (symbols : List ℕ) (reduceRule : ℕ) (path : List ℕ) :
    Enabled (reduceOnePath cfg symbols reduceRule path p) := by
  unfold TomitaParser.reduceOnePath
  dsimp only
  split
  · exact h.of_eq rfl rfl
  · rw [noteGroup_of_unset hgroup]
    apply Enabled.enterItem
    split_ifs
    · exact h.of_eq (createOrReuseNode_symbolNodes _ _ _) rfl
    · exact h.of_eq (createOrReuseNode_symbolNodes _ _ _) rfl

theorem Enabled.reducer (hgroup : cfg.options.groupNonTerminal = -1) (h : Enabled p) (fuel : ℕ)
    (symbols : List ℕ) : Enabled (reducer cfg fuel symbols p).2 := by
  unfold TomitaParser.reducer
  split
  · exact h
  · rename_i red rest _
    refine runLoop_post (fun (s : GlrParser σ Item × DfsStack) => Enabled s.1)
      (fun _ s => Enabled s.1) ?_ (fun _ hs => hs) fuel _ (h.of_eq rfl rfl)
    intro s hs
    unfold dfsStep
    dsimp only
    have hp : Enabled (if s.2.length == 2 * (cfg.table.ruleInfo red.reduceRule).ruleLength + 1 then
        TomitaParser.reduceOnePath cfg symbols red.reduceRule (s.2.map Prod.fst) s.1 else s.1) := by
      split_ifs
      · exact hs.reduceOnePath hgroup symbols _ _
      · exact hs
    generalize (if s.2.length == 2 * (cfg.table.ruleInfo red.reduceRule).ruleLength + 1 then
      TomitaParser.reduceOnePath cfg symbols red.reduceRule (s.2.map Prod.fst) s.1 else s.1) = q
      at hp ⊢
    split_ifs
    · exact hp
    · exact hp

theorem Enabled.closureLoop (hgroup : cfg.options.groupNonTerminal = -1) (h : Enabled p)
    (fuel : ℕ) (symbols : List ℕ) (turns : ℕ) :
    Enabled (runLoop (closureStep cfg fuel symbols) .outOfFuel turns p).2 := by
  apply runLoop_post Enabled (fun _ p => Enabled p) _ (fun _ hp => hp) _ _ h
  intro p hp
  unfold closureStep
  dsimp only
  split_ifs
  all_goals first
    | exact hp
    | exact hp.reducer hgroup fuel symbols
    | exact hp.actor symbols

theorem Enabled.shiftOne (h : Enabled p) (shift : PendingShift) :
    Enabled (shiftOne cfg p shift) := by
  unfold TomitaParser.shiftOne
  split_ifs
  · exact h
  · dsimp only
    have hnode : Enabled (p.updateGss (createOrReuseNode cfg p.toGss shift.nextStateNo).2.2) :=
      h.of_eq (createOrReuseNode_symbolNodes _ _ _) rfl
    generalize p.updateGss (createOrReuseNode cfg p.toGss shift.nextStateNo).2.2 = q at hnode ⊢
    generalize (createOrReuseNode cfg p.toGss shift.nextStateNo).2.1 = node
    have hlink : ∀ (q : GlrParser σ Item), Enabled q → ∀ s,
        Enabled (q.updateGss (q.modifySymbolNode s fun sn =>
          if sn.nodeChildren.contains shift.stateNodeNo then sn
          else { sn with nodeChildren := sn.nodeChildren ++ [shift.stateNodeNo] })) := by
      intro q hq s
      apply hq.modifySymbolNode
      intro sn
      split_ifs <;> rfl
    unfold shiftInto
    dsimp only
    split
    · exact hlink q hnode _
    · split
      · exact hnode.of_eq rfl rfl
      · exact (hlink _ (hnode.addSymbolNode _ rfl) _).of_eq rfl rfl

theorem Enabled.nextLevel (h : Enabled p) (first : ℕ) : Enabled (nextLevel cfg first p).2 := by
  have hfinish : Enabled (finishLevel cfg first p) := by
    have hno : (p.updateGss (p.setLastLevel p.stateNodes.length)).disableWordsStateNodes = false :=
      h.words
    rw [finishLevel]
    dsimp only
    rw [hno, if_neg Bool.false_ne_true]
    exact h.of_eq rfl rfl
  have hfold : ∀ (shifts : List PendingShift) (q : GlrParser σ Item), Enabled q →
      Enabled (shifts.foldl (TomitaParser.shiftOne cfg) q) := by
    intro shifts
    induction shifts with
    | nil => exact fun _ hq => hq
    | cons shift shifts ih => exact fun q hq => ih _ (hq.shiftOne shift)
  have hshifter : Enabled (shifter cfg (finishLevel cfg first p)) :=
    hfold _ _ (hfinish.of_eq rfl rfl)
  exact ⟨hshifter.symbols, rfl⟩

theorem Enabled.parseSymbol (hgroup : cfg.options.groupNonTerminal = -1) (h : Enabled p)
    (fuel : ℕ) (symbols : List ℕ) (startPoint : Bool) :
    Enabled (parseSymbol cfg fuel symbols startPoint p).2.2 := by
  have hstart : Enabled (startSymbol startPoint p) := ⟨h.symbols, rfl⟩
  have hloop := @Enabled.closureLoop _ _ _ _ cfg _ hgroup hstart fuel symbols fuel
  unfold TomitaParser.parseSymbol
  dsimp only
  split_ifs
  · exact hloop
  · exact hloop.nextLevel _

theorem Enabled.parseSymbols (hgroup : cfg.options.groupNonTerminal = -1) (fuel : ℕ)
    (words : List (List ℕ × Bool)) (h : Enabled p) :
    Enabled (parseSymbols cfg fuel words p).2 := by
  induction words generalizing p with
  | nil => exact h
  | cons w words ih =>
    rw [TomitaParser.parseSymbols]
    have hcall := h.parseSymbol hgroup fuel w.1 w.2
    split_ifs
    · exact hcall
    · exact ih hcall

end TomitaParser
