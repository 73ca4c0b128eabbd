import TomitaParser.Glr.Search
/-! # Levels of the input

The borders between the positions of the input, and the closing of a level. -/

set_option linter.unusedSectionVars false

namespace TomitaParser
open OrderedSet LoopRun Cfg

variable {σ Agr Item : Type*} [Inhabited Item]
variable {G : WorkGrammar} {C : CollectionSet} {T : GlrTable Agr} {W : ℕ → ℕ → Prop}
variable {g h : Gss Item}

private theorem GssInv.relevel (hg : GssInv G C T W g) {levels : List ℕ} (hne : levels ≠ [])
    (hpos : ∀ l ∈ levels, 0 < l) (hsorted : levels.Pairwise (· ≤ ·))
    (hlast : levels.getLastD 0 ≤ g.stateNodes.length)
    (hposition : ∀ v, v < g.stateNodes.length →
      ({ g with inputLevels := levels } : Gss Item).position v = g.position v)
    (hcurrent : g.current ≤ levels.length - 1) :
    GssInv G C T W { g with inputLevels := levels } := by
  refine ⟨hg.nonempty, hg.nodeZero, hne, hpos, hsorted, hlast, hg.symbol_lt, ?_, ?_, hg.owner, ?_⟩
  · intro v s hs
    rw [hposition v (g.lt_of_mem_symbolChildren hs)]
    exact hg.inputEnd v s hs
  · intro v s hs w hw
    have hedge := hg.edge v s hs w hw
    refine ⟨hedge.lt, hedge.goto, ?_⟩
    rw [hposition w hedge.lt]
    exact hedge.position
  · intro s hs
    have hsym := hg.symbol s hs
    refine ⟨hsym.start_lt, hsym.end_le.trans hcurrent, hsym.leaf, ?_, hsym.spans⟩
    intro pc hpc
    have hparse := hsym.parse pc hpc
    exact ⟨hparse.items_lt, hparse.rule, hparse.tiles.of_spans (fun _ _ => rfl) fun _ _ => rfl⟩

theorem GssInv.setLastLevel (hg : GssInv G C T W g) :
    GssInv G C T W (g.setLastLevel g.stateNodes.length) := by
  refine hg.relevel (by simp) ?_ ?_ (by simp) ?_ ?_
  · intro l hl
    rcases List.mem_append.mp hl with hl | hl
    · exact hg.levels_pos l (List.mem_of_mem_dropLast hl)
    · rw [List.mem_singleton.mp hl]
      exact hg.nonempty
  · refine List.pairwise_append.mpr ⟨?_, List.pairwise_singleton _ _, ?_⟩
    · exact hg.levels_sorted.sublist (List.dropLast_sublist _)
    · intro l hl l' hl'
      rw [List.mem_singleton.mp hl']
      exact (hg.levels_le l hl).trans hg.last_le
  · intro v _
    simp [Gss.position]
  · have := List.length_pos_of_ne_nil hg.levels_ne
    simp only [Gss.current, List.length_append, List.length_dropLast, List.length_singleton]
    omega

@[simp] theorem Gss.current_setLastLevel (g : Gss Item) (n : ℕ) (hne : g.inputLevels ≠ []) :
    (g.setLastLevel n).current = g.current := by
  have := List.length_pos_of_ne_nil hne
  simp only [Gss.current, Gss.setLastLevel, List.length_append, List.length_dropLast,
    List.length_singleton]
  omega

theorem Gss.position_setLastLevel (g : Gss Item) (n v : ℕ) :
    (g.setLastLevel n).position v = g.position v := by
  simp [Gss.position, Gss.setLastLevel]

theorem GssInv.position_pushLevel (hg : GssInv G C T W g)
    (hlast : g.lastLevel = g.stateNodes.length) {v : ℕ} (hv : v < g.stateNodes.length) :
    (g.pushLevel g.stateNodes.length).position v = g.position v := by
  have hne := hg.levels_ne
  have hlevels : g.inputLevels = g.inputLevels.dropLast ++ [g.stateNodes.length] := by
    conv_lhs => rw [← List.dropLast_append_getLast hne]
    rw [← hlast, Gss.lastLevel, List.getLastD_eq_getLast?, List.getLast?_eq_some_getLast hne]
    rfl
  simp only [Gss.position, Gss.pushLevel, List.dropLast_concat]
  conv_lhs => rw [hlevels]
  simp only [List.countP_append, List.countP_singleton, decide_eq_true_eq]
  rw [if_neg (by omega)]
  rfl

theorem GssInv.pushLevel (hg : GssInv G C T W g) (hlast : g.lastLevel = g.stateNodes.length) :
    GssInv G C T W (g.pushLevel g.stateNodes.length) := by
  refine hg.relevel (by simp) ?_ ?_ (by simp) ?_ ?_
  · intro l hl
    rcases List.mem_append.mp hl with hl | hl
    · exact hg.levels_pos l hl
    · rw [List.mem_singleton.mp hl]
      exact hg.nonempty
  · refine List.pairwise_append.mpr ⟨hg.levels_sorted, List.pairwise_singleton _ _, ?_⟩
    intro l hl l' hl'
    rw [List.mem_singleton.mp hl', ← hlast]
    rw [← List.dropLast_append_getLast hg.levels_ne] at hl
    rcases List.mem_append.mp hl with hl | hl
    · exact hg.levels_le l hl
    · rw [List.mem_singleton.mp hl, Gss.lastLevel, List.getLastD_eq_getLast?,
        List.getLast?_eq_some_getLast hg.levels_ne]
      rfl
  · exact fun v hv => hg.position_pushLevel hlast hv
  · simp [Gss.current]

@[simp] theorem Gss.current_pushLevel (g : Gss Item) (n : ℕ) (hne : g.inputLevels ≠ []) :
    (g.pushLevel n).current = g.current + 1 := by
  have := List.length_pos_of_ne_nil hne
  simp only [Gss.current, Gss.pushLevel, List.length_append, List.length_singleton]
  omega

/-- What the disabling of words leaves alone. -/
structure DisableEffect (g h : Gss Item) : Prop where
  levels : h.inputLevels = g.inputLevels
  states : h.stateNodes.length = g.stateNodes.length
  stateNo : ∀ v, (h.stateNode v).stateNo = (g.stateNode v).stateNo
  symbols : h.symbolNodes.length = g.symbolNodes.length

theorem DisableEffect.refl (g : Gss Item) : DisableEffect g g := ⟨rfl, rfl, fun _ => rfl, rfl⟩

theorem DisableEffect.trans {k : Gss Item} (h₁ : DisableEffect g h) (h₂ : DisableEffect h k) :
    DisableEffect g k :=
  ⟨h₂.levels.trans h₁.levels, h₂.states.trans h₁.states,
    fun v => (h₂.stateNo v).trans (h₁.stateNo v), h₂.symbols.trans h₁.symbols⟩

private theorem disableSymbolNode_spec (o : ParserOptions) (canDisable : Bool) (first : ℕ)
    (s : Gss Item × ℕ) (n : ℕ) (hg : GssInv G C T W s.1) :
    GssInv G C T W (disableSymbolNode o canDisable first s n).1 ∧
      DisableEffect s.1 (disableSymbolNode o canDisable first s n).1 := by
  simp only [disableSymbolNode]
  split_ifs
  · refine ⟨?_, rfl, rfl, fun _ => rfl, by simp⟩
    refine hg.modifySymbolNode ⟨fun _ => rfl, fun _ => rfl, fun _ => rfl, fun _ _ h => h⟩ ?_ ?_ ?_
    · intro _ _ w hw hnot
      exact absurd hw hnot
    · exact fun h => h
    · intro _ pc hpc hnot
      exact absurd hpc hnot
  · exact ⟨hg, DisableEffect.refl _⟩

/-- Dropping the children of a state node loses edges only. -/
private theorem clear_spec (hg : GssInv G C T W g) (v : ℕ) :
    GssInv G C T W { g with
        stateNodes := g.stateNodes.modify v fun n => { n with symbolChildren := [] } } ∧
      DisableEffect g { g with
        stateNodes := g.stateNodes.modify v fun n => { n with symbolChildren := [] } } := by
  obtain ⟨h, hdef⟩ : ∃ h : Gss Item, h = { g with
    stateNodes := g.stateNodes.modify v fun n => { n with symbolChildren := [] } } := ⟨_, rfl⟩
  rw [← hdef]
  have hnode : ∀ u, h.stateNode u =
      if u = v ∧ v < g.stateNodes.length then { g.stateNode v with symbolChildren := [] }
      else g.stateNode u := by
    intro u
    rw [hdef]
    simp only [Gss.stateNode, List.getD_eq_getElem?_getD, List.getElem?_modify]
    by_cases hu : v = u
    · subst hu
      by_cases hlt : v < g.stateNodes.length
      · simp [hlt]
      · simp [hlt]
    · simp [hu, Ne.symm hu]
  have hstates : h.stateNodes.length = g.stateNodes.length := by
    rw [hdef]
    simp
  have hlevels : h.inputLevels = g.inputLevels := by rw [hdef]
  have hsymbols : h.symbolNodes = g.symbolNodes := by rw [hdef]
  have hsymbol : ∀ s, h.symbolNode s = g.symbolNode s := by
    intro s
    rw [Gss.symbolNode, hsymbols, Gss.symbolNode]
  have hposition : ∀ u, h.position u = g.position u := by
    intro u
    rw [Gss.position, hlevels, Gss.position]
  have hstateNo : ∀ u, (h.stateNode u).stateNo = (g.stateNode u).stateNo := by
    intro u
    rw [hnode]
    split_ifs with hu
    · rw [hu.1]
    · rfl
  have hsub : ∀ u, ∀ s ∈ (h.stateNode u).symbolChildren, s ∈ (g.stateNode u).symbolChildren := by
    intro u s hs
    rw [hnode] at hs
    split_ifs at hs
    · exact absurd hs List.not_mem_nil
    · exact hs
  refine ⟨⟨?_, ?_, ?_, ?_, ?_, ?_, ?_, ?_, ?_, ?_, ?_⟩, hlevels, hstates, hstateNo, ?_⟩
  · rw [hstates]
    exact hg.nonempty
  · rw [hnode]
    split_ifs with h0
    · rw [← h0.1, hg.nodeZero]
    · exact hg.nodeZero
  · rw [hlevels]
    exact hg.levels_ne
  · rw [hlevels]
    exact hg.levels_pos
  · rw [hlevels]
    exact hg.levels_sorted
  · rw [Gss.lastLevel, hlevels, hstates]
    exact hg.last_le
  · intro u s hs
    rw [hsymbols]
    exact hg.symbol_lt u s (hsub u s hs)
  · intro u s hs
    rw [hsymbol, hposition]
    exact hg.inputEnd u s (hsub u s hs)
  · intro u s hs w hw
    rw [hsymbol] at hw ⊢
    have hedge := hg.edge u s (hsub u s hs) w hw
    refine ⟨?_, ?_, ?_⟩
    · rw [hstates]
      exact hedge.lt
    · rw [hstateNo, hstateNo]
      exact hedge.goto
    · rw [hposition]
      exact hedge.position
  · intro u u' s hs hs'
    exact hg.owner u u' s (hsub u s hs) (hsub u' s hs')
  · intro s hs
    rw [hsymbols] at hs
    rw [hsymbol]
    have hsym := hg.symbol s hs
    refine ⟨hsym.start_lt, ?_, hsym.leaf, ?_, hsym.spans⟩
    · rw [Gss.current, hlevels]
      exact hsym.end_le
    · intro pc hpc
      have hparse := hsym.parse pc hpc
      refine ⟨?_, ?_, hparse.tiles.of_spans (fun t _ => by rw [hsymbol]) fun t _ => by rw [hsymbol]⟩
      · rw [hsymbols]
        exact hparse.items_lt
      · simp only [hsymbol]
        exact hparse.rule
  · rw [hsymbols]

private theorem foldl_disableSymbolNode_spec (o : ParserOptions) (canDisable : Bool) (first : ℕ)
    (symbols : List ℕ) (s : Gss Item × ℕ) (hg : GssInv G C T W s.1) :
    GssInv G C T W (symbols.foldl (disableSymbolNode o canDisable first) s).1 ∧
      DisableEffect s.1 (symbols.foldl (disableSymbolNode o canDisable first) s).1 := by
  induction symbols generalizing s with
  | nil => exact ⟨hg, DisableEffect.refl _⟩
  | cons n symbols ih =>
    obtain ⟨hg₁, he₁⟩ := disableSymbolNode_spec o canDisable first s n hg
    obtain ⟨hg₂, he₂⟩ := ih _ hg₁
    exact ⟨hg₂, he₁.trans he₂⟩

private theorem disableStateNode_spec (o : ParserOptions) (canDisable : Bool) (first : ℕ)
    (hg : GssInv G C T W g) (sh : PendingShift) :
    GssInv G C T W (disableStateNode o canDisable first g sh) ∧
      DisableEffect g (disableStateNode o canDisable first g sh) := by
  have hfold := foldl_disableSymbolNode_spec o canDisable first
    (g.stateNode sh.stateNodeNo).symbolChildren.reverse (g, 0) hg
  simp only [disableStateNode]
  split_ifs
  · obtain ⟨hg₂, he₂⟩ := clear_spec hfold.1 sh.stateNodeNo
    exact ⟨hg₂, hfold.2.trans he₂⟩
  · exact hfold

theorem foldl_disableStateNode_spec (o : ParserOptions) (canDisable : Bool) (first : ℕ)
    (shifts : List PendingShift) (g : Gss Item) (hg : GssInv G C T W g) :
    GssInv G C T W (shifts.foldl (disableStateNode o canDisable first) g) ∧
      DisableEffect g (shifts.foldl (disableStateNode o canDisable first) g) := by
  induction shifts generalizing g with
  | nil => exact ⟨hg, DisableEffect.refl _⟩
  | cons sh shifts ih =>
    obtain ⟨hg₁, he₁⟩ := disableStateNode_spec o canDisable first hg sh
    obtain ⟨hg₂, he₂⟩ := ih _ hg₁
    exact ⟨hg₂, he₁.trans he₂⟩

section Phases
variable (G : WorkGrammar) (C : CollectionSet) (T : GlrTable Agr) (W : ℕ → ℕ → Prop)

/-- The parser between two symbols of the input. -/
structure IdleInv (p : GlrParser σ Item) : Prop where
  gss : GssInv G C T W p.toGss
  reductions : p.pendingReductions = []
  shifts : p.pendingShifts = []
  last : p.lastLevel = p.stateNodes.length
  single : p.inputLevels.length = 1 → p.stateNodes.length = 1

/-- The parser while it shifts: the nodes of the new level have leaves only. -/
structure ShiftInv (p : GlrParser σ Item) : Prop where
  gss : GssInv G C T W p.toGss
  reductions : p.pendingReductions = []
  levels : 1 < p.inputLevels.length
  leaf : ∀ v, p.lastLevel ≤ v → ∀ s ∈ (p.stateNode v).symbolChildren,
    (p.symbolNode s).parseChildren = []

end Phases

theorem mem_startNodes {startPoint : Bool} {v : ℕ} :
    v ∈ startNodes g startPoint ↔ (startPoint = true ∧ v = 0) ∨
      (v < g.lastLevel ∧ (g.inputLevels.length ≤ 1 ∨
        g.inputLevels.getD (g.inputLevels.length - 2) 0 ≤ v)) := by
  have hdrop : ∀ n k, v ∈ (List.range n).drop k ↔ v < n ∧ k ≤ v := by
    intro n k
    rw [List.mem_drop_iff_getElem]
    simp only [List.getElem_range, List.length_range]
    constructor
    · rintro ⟨j, hj, rfl⟩
      omega
    · intro h
      exact ⟨v - k, by omega, by omega⟩
  simp only [startNodes]
  split_ifs with h₁ h₂ h₂
  · rw [mem_insertBy_natLt, hdrop]
    simp [h₁, h₂]
  · rw [mem_insertBy_natLt, hdrop]
    simp [h₁, h₂]
  · rw [hdrop]
    simp [h₁, h₂]
  · rw [hdrop]
    simp [h₁, h₂]

/-- Between two symbols the last but one border is the first node of the current position. -/
theorem IdleInv.position_eq {p : GlrParser σ Item} (hp : IdleInv G C T W p) (v : ℕ) :
    p.position v = p.current ↔ (p.inputLevels.length ≤ 1 ∨
      p.inputLevels.getD (p.inputLevels.length - 2) 0 ≤ v) := by
  have hpos := List.length_pos_of_ne_nil hp.gss.levels_ne
  rw [Gss.position, Gss.current, ← List.length_dropLast, List.countP_eq_length]
  simp only [decide_eq_true_eq]
  by_cases hone : p.inputLevels.length ≤ 1
  · have hnil : p.inputLevels.dropLast = [] := by
      rw [← List.length_eq_zero_iff, List.length_dropLast]
      omega
    simp [hnil, hone]
  · have hlt : p.inputLevels.length - 2 < p.inputLevels.dropLast.length := by
      rw [List.length_dropLast]
      omega
    have hget : p.inputLevels.getD (p.inputLevels.length - 2) 0 =
        p.inputLevels.dropLast[p.inputLevels.length - 2] := by
      rw [List.getElem_dropLast, List.getD_eq_getElem _ _ (by omega)]
    rw [hget]
    simp only [hone, false_or]
    constructor
    · intro h
      exact h _ (List.getElem_mem hlt)
    · intro h l hl
      obtain ⟨k, hk, rfl⟩ := List.mem_iff_getElem.mp hl
      refine le_trans ?_ h
      have hsorted := hp.gss.levels_sorted.sublist (List.dropLast_sublist _)
      rcases Nat.eq_or_lt_of_le (show k ≤ p.inputLevels.length - 2 by
        rw [List.length_dropLast] at hk
        omega) with rfl | hlt'
      · exact le_refl _
      · exact List.pairwise_iff_getElem.mp hsorted _ _ hk hlt hlt'

theorem IdleInv.startSymbol {p : GlrParser σ Item} (hp : IdleInv G C T W p) (startPoint : Bool) :
    ClosureInv G C T W (startSymbol startPoint p) := by
  refine ⟨hp.gss, ?_, ?_, ?_, ?_⟩
  · intro v hv s hs
    have hlt : v < p.stateNodes.length := p.lt_of_mem_symbolChildren hs
    change p.getFirstNodeNoOfCurrentClosure ≤ v at hv
    unfold Gss.getFirstNodeNoOfCurrentClosure at hv
    split_ifs at hv with hlen
    · -- at the start of the input only node 0 is there
      have hone := hp.single (by simpa using hlen)
      have h0 := hp.gss.ne_zero hs
      omega
    · rw [hp.last] at hv
      omega
  · intro v hv
    rcases mem_startNodes.mp hv with ⟨_, rfl⟩ | ⟨hlt, hstart⟩
    · exact ⟨hp.gss.nonempty, Or.inl rfl⟩
    · rw [hp.last] at hlt
      exact ⟨hlt, Or.inr ((hp.position_eq v).mpr hstart)⟩
  · intro red hred
    have hnil : red ∈ p.pendingReductions := hred
    rw [hp.reductions] at hnil
    exact absurd hnil List.not_mem_nil
  · intro sh hsh
    have hnil : sh ∈ p.pendingShifts := hsh
    rw [hp.shifts] at hnil
    exact absurd hnil List.not_mem_nil

/-- What the closing of a level leaves alone. -/
structure FinishEffect (p p' : GlrParser σ Item) : Prop where
  states : p'.stateNodes.length = p.stateNodes.length
  symbols : p'.symbolNodes.length = p.symbolNodes.length
  current : p'.current = p.current + 1
  shifts : p'.pendingShifts = p.pendingShifts
  createdGroups : p'.createdGroups = p.createdGroups
  last : p'.lastLevel = p.stateNodes.length

theorem finishLevel_spec {cfg : ParserConfig σ Agr Item} {p : GlrParser σ Item}
    (hp : ClosureInv G C cfg.table W p) (hreds : p.pendingReductions = []) (first : ℕ) :
    ShiftInv G C cfg.table W (finishLevel cfg first p) ∧
      FinishEffect p (finishLevel cfg first p) ∧
      ∀ sh ∈ p.pendingShifts, ShiftOk C W (finishLevel cfg first p).toGss p.current sh := by
  have hne := hp.gss.levels_ne
  have hbase := hp.gss.setLastLevel
  -- the parser after the words are disabled, if they are
  obtain ⟨p₁, hp₁, hg₁, he₁, hshifts, hreds₁, hgroups⟩ :
      ∃ p₁ : GlrParser σ Item, finishLevel cfg first p =
        p₁.updateGss (p₁.pushLevel p₁.stateNodes.length) ∧
        GssInv G C cfg.table W p₁.toGss ∧
        DisableEffect (p.setLastLevel p.stateNodes.length) p₁.toGss ∧
        p₁.pendingShifts = p.pendingShifts ∧ p₁.pendingReductions = p.pendingReductions ∧
        p₁.createdGroups = p.createdGroups := by
    have hclose := fun (c : Prop) [Decidable c] (a b r : GlrParser σ Item)
      (h : (if c then a else b) = r) => congrArg
        (fun q : GlrParser σ Item => q.updateGss (q.pushLevel q.stateNodes.length)) h
    by_cases hdisable : p.disableWordsStateNodes = true
    · obtain ⟨hg, he⟩ := foldl_disableStateNode_spec cfg.options _ _ _ _ hbase
      exact ⟨_, hclose _ _ _ _ (if_pos hdisable), hg, he, rfl, rfl, rfl⟩
    · exact ⟨_, hclose _ _ _ _ (if_neg hdisable), hbase, DisableEffect.refl _, rfl, rfl, rfl⟩
  have hlen : p₁.stateNodes.length = p.stateNodes.length := he₁.states
  have hlevels : p₁.inputLevels ≠ [] := hg₁.levels_ne
  have hlast : p₁.lastLevel = p₁.stateNodes.length := by
    rw [Gss.lastLevel, he₁.levels, hlen]
    simp [Gss.setLastLevel]
  have hcurrent : p₁.current = p.current := by
    rw [Gss.current, he₁.levels]
    exact Gss.current_setLastLevel p.toGss _ hne
  have hposition : ∀ v, v < p.stateNodes.length →
      (p₁.pushLevel p₁.stateNodes.length).position v = p.position v := by
    intro v hv
    rw [hg₁.position_pushLevel hlast (by omega), Gss.position, he₁.levels]
    exact Gss.position_setLastLevel p.toGss _ v
  rw [hp₁]
  refine ⟨⟨hg₁.pushLevel hlast, hreds₁.trans hreds, ?_, ?_⟩,
    ⟨hlen, he₁.symbols, ?_, hshifts, hgroups, ?_⟩, ?_⟩
  · have := List.length_pos_of_ne_nil hlevels
    show 1 < (p₁.inputLevels ++ [_]).length
    simp only [List.length_append, List.length_singleton]
    omega
  · intro v hv s hs
    have hlt := p₁.lt_of_mem_symbolChildren hs
    have hle : (p₁.inputLevels ++ [p₁.stateNodes.length]).getLastD 0 ≤ v := hv
    simp only [List.getLastD_concat] at hle
    omega
  · rw [← hcurrent]
    exact Gss.current_pushLevel p₁.toGss _ hlevels
  · show (p₁.inputLevels ++ [p₁.stateNodes.length]).getLastD 0 = _
    simp [hlen]
  · intro sh hsh
    have hok := hp.shifts sh hsh
    refine ⟨?_, ?_, hok.symbol, ?_⟩
    · show sh.stateNodeNo < p₁.stateNodes.length
      rw [hlen]
      exact hok.lt
    · rw [show (p₁.updateGss (p₁.pushLevel p₁.stateNodes.length)).position sh.stateNodeNo =
        p.position sh.stateNodeNo from hposition _ hok.lt]
      exact hok.position
    · show C.getGotoValue sh.symbolNo (p₁.stateNode sh.stateNodeNo).stateNo = _
      rw [he₁.stateNo]
      exact hok.goto

end TomitaParser
