import TomitaParser.Glr.Closure
/-! # Reducing one path

The item of a reduction is entered into the stack, which keeps the invariant. -/

set_option linter.unusedSectionVars false

namespace TomitaParser
open OrderedSet LoopRun Cfg

variable {σ Agr Item : Type*} [Inhabited Item]

section Invariant
variable {G : WorkGrammar} {C : CollectionSet} {T : GlrTable Agr} {W : ℕ → ℕ → Prop}
variable {g h : Gss Item}

/-- The node for a goto state: reused from the current closure or appended. -/
structure NodeFor (g : Gss Item) (q : ℕ) (created : Bool) (n : ℕ) (g' : Gss Item) : Prop where
  result : if created then n = g.stateNodes.length ∧ g' = g.addStateNode q else g' = g
  lt : n < g'.stateNodes.length
  ne_zero : n ≠ 0
  stateNo : (g'.stateNode n).stateNo = q
  frontier : g.getFirstNodeNoOfCurrentClosure ≤ n

theorem NodeFor.ext {q n : ℕ} {created : Bool} (hn : NodeFor g q created n h) : Gss.Ext g h := by
  have hr := hn.result
  split_ifs at hr
  · rw [hr.2]
    exact Gss.ext_addStateNode g q
  · rw [hr]
    exact Gss.Ext.refl g

theorem NodeFor.gss {q n : ℕ} {created : Bool} (hn : NodeFor g q created n h)
    (hg : GssInv G C T W g) : GssInv G C T W h := by
  have hr := hn.result
  split_ifs at hr
  · rw [hr.2]
    exact hg.addStateNode q
  · rw [hr]
    exact hg

theorem NodeFor.stateNode {q n : ℕ} {created : Bool} (hn : NodeFor g q created n h) {v : ℕ}
    (hv : v < g.stateNodes.length) : h.stateNode v = g.stateNode v := by
  have hr := hn.result
  split_ifs at hr
  · rw [hr.2, Gss.stateNode_addStateNode, if_neg (by omega)]
  · rw [hr]

theorem NodeFor.symbolNodes {q n : ℕ} {created : Bool} (hn : NodeFor g q created n h) :
    h.symbolNodes = g.symbolNodes := by
  have hr := hn.result
  split_ifs at hr
  · rw [hr.2]
    rfl
  · rw [hr]

theorem createOrReuseNode_nodeFor (cfg : ParserConfig σ Agr Item) (hg : GssInv G C T W g) {q : ℕ}
    (hq : q ≠ 0) :
    NodeFor g q (createOrReuseNode cfg g q).1 (createOrReuseNode cfg g q).2.1
      (createOrReuseNode cfg g q).2.2 := by
  unfold createOrReuseNode
  cases hfind : findReusable cfg g q with
  | none =>
    refine ⟨by simp, by simp, ?_, ?_, ?_⟩
    · have := hg.nonempty
      exact Nat.ne_of_gt this
    · simp [Gss.stateNode_addStateNode]
    · have := hg.last_le
      unfold Gss.getFirstNodeNoOfCurrentClosure
      split_ifs <;> dsimp only <;> omega
  | some n =>
    unfold findReusable at hfind
    split_ifs at hfind with hroot hsyn
    · -- the state of node 0 is never the target of a transition
      rw [hg.nodeZero] at hroot
      simp only [Bool.and_eq_true, beq_iff_eq] at hroot
      exact absurd hroot.2.symm hq
    · have hstate := List.find?_some hfind
      obtain ⟨k, hk, hn⟩ := List.mem_iff_getElem.mp (List.mem_of_find?_eq_some hfind)
      rw [List.getElem_drop, List.getElem_range] at hn
      rw [List.length_drop, List.length_range] at hk
      simp only [beq_iff_eq] at hstate
      refine ⟨rfl, by dsimp only; omega, ?_, hstate, by dsimp only; omega⟩
      rintro rfl
      rw [hg.nodeZero] at hstate
      exact hq hstate.symm

/-- What a stretch of reductions may change. -/
structure ReduceEffect (cfg : ParserConfig σ Agr Item) (symbols : List ℕ)
    (p p' : GlrParser σ Item) : Prop where
  ext : Gss.Ext p.toGss p'.toGss
  nodeChildren : ∀ s, s < p.symbolNodes.length →
    (p'.symbolNode s).nodeChildren = (p.symbolNode s).nodeChildren
  symbolChildren : ∀ v, v < p.getFirstNodeNoOfCurrentClosure →
    (p'.stateNode v).symbolChildren = (p.stateNode v).symbolChildren
  active_mono : ∀ v ∈ p.activeNodes, v ∈ p'.activeNodes
  active_new : ∀ v ∈ p'.activeNodes, v ∈ p.activeNodes ∨ p.stateNodes.length ≤ v
  node_new : ∀ v, p.stateNodes.length ≤ v → v < p'.stateNodes.length → v ∈ p'.activeNodes
  shifts : p'.pendingShifts = p.pendingShifts
  reductions : ∀ red ∈ p.pendingReductions, red ∈ p'.pendingReductions
  child_new : ∀ v, ∀ s ∈ (p'.stateNode v).symbolChildren, s ∉ (p.stateNode v).symbolChildren →
    v ∈ p'.activeNodes ∨ ∀ a ∈ symbols,
      ∀ r ∈ (cfg.table.cell (p'.stateNode v).stateNo a).reduceRules,
        ⟨s, v, r⟩ ∈ p'.pendingReductions
  createdGroups : p.createdGroups ≤ p'.createdGroups
  disable : cfg.options.groupNonTerminal = -1 →
    p'.disableWordsStateNodes = p.disableWordsStateNodes

theorem ReduceEffect.refl (cfg : ParserConfig σ Agr Item) (symbols : List ℕ)
    {p p' : GlrParser σ Item} (hgss : p'.toGss = p.toGss) (ha : p'.activeNodes = p.activeNodes)
    (hs : p'.pendingShifts = p.pendingShifts) (hr : p'.pendingReductions = p.pendingReductions)
    (hc : p.createdGroups ≤ p'.createdGroups)
    (hd : cfg.options.groupNonTerminal = -1 →
      p'.disableWordsStateNodes = p.disableWordsStateNodes) :
    ReduceEffect cfg symbols p p' := by
  refine ⟨?_, ?_, ?_, ?_, ?_, ?_, hs, ?_, ?_, hc, hd⟩
  · rw [hgss]
    exact Gss.Ext.refl _
  · rw [hgss]
    exact fun _ _ => rfl
  · rw [hgss]
    exact fun _ _ => rfl
  · rw [ha]
    exact fun _ h => h
  · rw [ha]
    exact fun _ h => Or.inl h
  · rw [hgss]
    intro v h₁ h₂
    omega
  · rw [hr]
    exact fun _ h => h
  · rw [hgss]
    exact fun _ _ h h' => absurd h h'

theorem ReduceEffect.trans {cfg : ParserConfig σ Agr Item} {symbols : List ℕ}
    {p p' p'' : GlrParser σ Item} (h₁ : ReduceEffect cfg symbols p p')
    (h₂ : ReduceEffect cfg symbols p' p'') : ReduceEffect cfg symbols p p'' where
  ext := h₁.ext.trans h₂.ext
  nodeChildren s hs :=
    (h₂.nodeChildren s (hs.trans_le h₁.ext.symbols)).trans (h₁.nodeChildren s hs)
  symbolChildren v hv := by
    rw [h₂.symbolChildren v (by rw [h₁.ext.frontier]; exact hv), h₁.symbolChildren v hv]
  active_mono v hv := h₂.active_mono v (h₁.active_mono v hv)
  active_new v hv := by
    rcases h₂.active_new v hv with hv | hv
    · exact h₁.active_new v hv
    · exact Or.inr (h₁.ext.states.trans hv)
  node_new v hv hv' := by
    by_cases h : v < p'.stateNodes.length
    · exact h₂.active_mono v (h₁.node_new v hv h)
    · exact h₂.node_new v (not_lt.mp h) hv'
  shifts := h₂.shifts.trans h₁.shifts
  reductions red hred := h₂.reductions red (h₁.reductions red hred)
  child_new v s hs hnot := by
    by_cases h : s ∈ (p'.stateNode v).symbolChildren
    · refine (h₁.child_new v s h hnot).imp (h₂.active_mono v) ?_
      intro hred a ha r hr
      rw [h₂.ext.stateNo v (p'.lt_of_mem_symbolChildren h)] at hr
      exact h₂.reductions _ (hred a ha r hr)
    · exact h₂.child_new v s hs h
  createdGroups := h₁.createdGroups.trans h₂.createdGroups
  disable h := (h₂.disable h).trans (h₁.disable h)

theorem ReduceEffect.below {cfg : ParserConfig σ Agr Item} {symbols : List ℕ}
    {p p' : GlrParser σ Item} (he : ReduceEffect cfg symbols p p') (hp : GssInv G C T W p.toGss)
    (hp' : GssInv G C T W p'.toGss) {u s w : ℕ} (hs : s ∈ (p.stateNode u).symbolChildren)
    (hw : w ∈ (p.symbolNode s).nodeChildren) :
    (p'.stateNode w).symbolChildren = (p.stateNode w).symbolChildren := by
  rcases (hp.edge u s hs w hw).position with rfl | hpos
  · rw [hp.nodeZero, hp'.nodeZero]
  · refine he.symbolChildren w ?_
    by_contra hlt
    have h₁ := hp.frontier_position (not_lt.mp hlt)
    have h₂ := (hp.symbol s (hp.symbol_lt u s hs)).start_lt
    have h₃ := (hp.symbol s (hp.symbol_lt u s hs)).end_le
    omega

theorem FoundOk.ext (he : Gss.Ext g h) {R : WorkRule} {f : FoundReduction}
    (hf : FoundOk G C T g R f) (hne : f.symbols ≠ []) :
    FoundOk G C T h R f ∧ f.inputStart h = f.inputStart g ∧ f.inputEnd h = f.inputEnd g := by
  have hhead : f.symbols.headD 0 ∈ f.symbols := by
    cases hs : f.symbols with
    | nil => exact absurd hs hne
    | cons s rest => exact List.mem_cons_self
  have hlast : f.symbols.getLastD 0 ∈ f.symbols := by
    rw [List.getLastD_eq_getLast?, List.getLast?_eq_some_getLast hne]
    exact List.getLast_mem hne
  have hstart : f.inputStart h = f.inputStart g := he.inputStart _ (hf.items_lt _ hhead)
  have hend : f.inputEnd h = f.inputEnd g := he.inputEnd _ (hf.items_lt _ hlast)
  refine ⟨⟨hf.rule, fun s hs => (hf.items_lt s hs).trans_le he.symbols, ?_, ?_, ?_,
    hf.child.trans_le he.states, ?_, ?_⟩, hstart, hend⟩
  · rw [← hf.spelled]
    exact List.map_congr_left fun s hs => he.symbolNo s (hf.items_lt s hs)
  · rw [hstart, hend]
    exact hf.tiles.of_spans (fun s hs => he.inputStart s (hf.items_lt s hs))
      (fun s hs => he.inputEnd s (hf.items_lt s hs))
  · rw [hend, he.current]
    exact hf.inputEnd
  · rw [he.position, hstart]
    exact hf.childPosition
  · rw [he.stateNo _ hf.child]
    exact hf.goto

theorem FoundOk.parseOk {R : WorkRule} {f : FoundReduction} (hf : FoundOk G C T g R f)
    {sn : SymbolNode Item} (hsym : sn.symbolNo = R.leftPart)
    (hstart : sn.inputStart = f.inputStart g) (hend : sn.inputEnd = f.inputEnd g) :
    ParseOk G T g sn ⟨f.reduceRule, f.symbols⟩ := by
  refine ⟨hf.items_lt, ⟨R, hf.rule, hsym.symm, hf.spelled⟩, ?_⟩
  rw [hstart, hend]
  exact hf.tiles

theorem FoundOk.symbolOk (hg : GssInv G C T W g) {R : WorkRule} {f : FoundReduction}
    (hf : FoundOk G C T g R f) (hne : f.symbols ≠ []) {sn : SymbolNode Item}
    (hsym : sn.symbolNo = R.leftPart) (hstart : sn.inputStart = f.inputStart g)
    (hend : sn.inputEnd = f.inputEnd g)
    (hparse : sn.parseChildren = [⟨f.reduceRule, f.symbols⟩]) : SymbolOk G T W g sn := by
  have hspans : Spans G.InnerProduction W (f.symbols.map fun s => (g.symbolNode s).symbolNo)
      (f.inputStart g) (f.inputEnd g) :=
    hf.tiles.spans fun s hs => (hg.symbol s (hf.items_lt s hs)).spans
  refine ⟨?_, ?_, ?_, ?_, ?_⟩
  · rw [hstart, hend]
    cases hs : f.symbols with
    | nil => exact absurd hs hne
    | cons s rest =>
      have ht := hf.tiles
      rw [hs] at ht
      have h₁ := (hg.symbol s (hf.items_lt s (by rw [hs]; exact List.mem_cons_self))).start_lt
      have h₂ := ht.2.le fun t hmem =>
        (hg.symbol t (hf.items_lt t (by rw [hs]; exact List.mem_cons_of_mem s hmem))).start_lt
      have h₃ := ht.1
      omega
  · rw [hend, hf.inputEnd]
  · intro hnil
    rw [hparse] at hnil
    cases hnil
  · intro pc hpc
    rw [hparse] at hpc
    rw [List.mem_singleton.mp hpc]
    exact hf.parseOk hsym hstart hend
  · rw [hstart, hend, hsym]
    rw [hf.spelled] at hspans
    refine Spans.rule ⟨R, hf.rule.mem, hf.rule.left, rfl, rfl⟩ hspans (Spans.nil _)

theorem hasPathOfLengthTwo_spec {cfg : ParserConfig σ Agr Item} {p : GlrParser σ Item}
    {item : Item} {source target inputStart s : ℕ}
    (h : hasPathOfLengthTwo cfg p item source target inputStart = some s) :
    s ∈ (p.stateNode source).symbolChildren ∧ target ∈ (p.symbolNode s).nodeChildren ∧
      inputStart = (p.symbolNode s).inputStart := by
  unfold hasPathOfLengthTwo at h
  split_ifs at h
  have hs := List.find?_some h
  simp only [Bool.and_eq_true, List.contains_eq_mem, decide_eq_true_eq, beq_iff_eq] at hs
  exact ⟨List.mem_of_find?_eq_some h, hs.1, hs.2.2.2⟩

/-- Some state node of position `j` leads to `w` over a symbol node for `X` that starts at `i`. -/
def HasEdge (g : Gss Item) (w X i j : ℕ) : Prop :=
  ∃ v, ∃ s ∈ (g.stateNode v).symbolChildren, w ∈ (g.symbolNode s).nodeChildren ∧
    (g.symbolNode s).symbolNo = X ∧ (g.symbolNode s).inputStart = i ∧ g.position v = j

theorem HasEdge.ext (hg : GssInv G C T W g) (he : Gss.Ext g h) {w X i j : ℕ}
    (hedge : HasEdge g w X i j) : HasEdge h w X i j := by
  obtain ⟨v, s, hs, hw, hX, hi, hv⟩ := hedge
  have hlt := hg.symbol_lt v s hs
  refine ⟨v, s, he.symbolChildren v (g.lt_of_mem_symbolChildren hs) s hs,
    he.nodeChildren s hlt w hw, (he.symbolNo s hlt).trans hX, (he.inputStart s hlt).trans hi, ?_⟩
  rw [he.position]
  exact hv

/-- What entering an item does, whatever the factory says of the nodes there. -/
structure EnterSpec (G : WorkGrammar) (C : CollectionSet) (W : ℕ → ℕ → Prop)
    (cfg : ParserConfig σ Agr Item) (symbols : List ℕ) (p p' : GlrParser σ Item)
    (w X i n : ℕ) : Prop where
  inv : ClosureInv G C cfg.table W p'
  effect : ReduceEffect cfg symbols p p'
  edge : HasEdge p'.toGss w X i p.current
  progress : p.symbolNodes.length < p'.symbolNodes.length ∨
    ((p.stateNode n).symbolChildren ≠ [] ∧ p'.symbolNodes.length = p.symbolNodes.length ∧
      p'.activeNodes = p.activeNodes ∧ p'.pendingReductions = p.pendingReductions)

section Enter
variable {cfg : ParserConfig σ Agr Item} {symbols : List ℕ} {p : GlrParser σ Item} {R : WorkRule}
  {f : FoundReduction} {item : Item} {n q : ℕ}

private theorem enterItem_pack (hC : Automaton G C) (hp : ClosureInv G C cfg.table W p)
    (hf : FoundOk G C cfg.table p.toGss R f)
    (hq : C.getGotoValue R.leftPart (p.stateNode f.childNode).stateNo = some q)
    (hn : p.getFirstNodeNoOfCurrentClosure ≤ n) (hstate : (p.stateNode n).stateNo = q) {s : ℕ}
    (hs : hasPathOfLengthTwo cfg p item n f.childNode (f.inputStart p.toGss) = some s) :
    EnterSpec G C W cfg symbols p (enterItem cfg symbols f item R.leftPart q n p)
      f.childNode R.leftPart (f.inputStart p.toGss) n := by
  obtain ⟨hchild, htarget, hstart⟩ := hasPathOfLengthTwo_spec hs
  have hposition := hp.gss.frontier_position hn
  -- both the node found and the new item lead from `w` to the same state, which has one symbol
  have hsym : (p.symbolNode s).symbolNo = R.leftPart := by
    have hgoto := (hp.gss.edge n s hchild f.childNode htarget).goto
    rw [hstate] at hgoto
    exact hC.accessing _ _ _ _ _ hgoto hq
  have hend : (p.symbolNode s).inputEnd = f.inputEnd p.toGss := by
    rw [hp.gss.inputEnd n s hchild, hposition, hf.inputEnd]
  have hkeeps : Gss.KeepsSpan fun sn : SymbolNode Item =>
      { sn.addInputItem (cfg.factory.weight p.heap) item with
        parseChildren := (sn.addInputItem (cfg.factory.weight p.heap) item).parseChildren ++
          [⟨f.reduceRule, f.symbols⟩] } := by
    refine ⟨?_, ?_, ?_, ?_⟩ <;> intro sn <;> simp only [SymbolNode.addInputItem] <;>
      split_ifs <;> first | rfl | exact fun _ h => h
  have hnode : ∀ sn : SymbolNode Item,
      (sn.addInputItem (cfg.factory.weight p.heap) item).nodeChildren = sn.nodeChildren := by
    intro sn
    simp only [SymbolNode.addInputItem]
    split_ifs <;> rfl
  have hparse : ∀ sn : SymbolNode Item,
      (sn.addInputItem (cfg.factory.weight p.heap) item).parseChildren = sn.parseChildren := by
    intro sn
    simp only [SymbolNode.addInputItem]
    split_ifs <;> rfl
  have hresult : enterItem cfg symbols f item R.leftPart q n p =
      p.updateGss (p.modifySymbolNode s fun sn : SymbolNode Item =>
        { sn.addInputItem (cfg.factory.weight p.heap) item with
          parseChildren := (sn.addInputItem (cfg.factory.weight p.heap) item).parseChildren ++
            [⟨f.reduceRule, f.symbols⟩] }) := by
    simp only [enterItem, hs]
  have hext := Gss.ext_modifySymbolNode p.toGss s hkeeps
  have hinv := hp.gss.modifySymbolNode hkeeps (s := s)
    (by
      intro v _ w hw hnot
      rw [hnode] at hw
      exact absurd hw hnot)
    (by simp)
    (by
      intro _ pc hpc hnot
      rw [hparse, List.mem_append] at hpc
      rw [List.mem_singleton.mp (hpc.resolve_left hnot)]
      exact hf.parseOk hsym hstart.symm hend)
  rw [hresult]
  refine ⟨⟨hinv, ?_, ?_, ?_, ?_⟩, ⟨hext, ?_, ?_, ?_, ?_, ?_, rfl, ?_, ?_, le_refl _, fun _ => rfl⟩,
    ?_, Or.inr ⟨List.ne_nil_of_mem hchild, ?_, rfl, rfl⟩⟩
  · intro v hv t ht
    show ((p.modifySymbolNode s _).symbolNode t).parseChildren ≠ []
    rw [Gss.symbolNode_modifySymbolNode]
    split_ifs with h
    · simp
    · exact hp.fresh v hv t ht
  · exact hp.active
  · intro red hred
    obtain ⟨R', hR'⟩ := hp.reductions red hred
    exact ⟨R', hR'.ext hext⟩
  · exact fun sh hsh => (hp.shifts sh hsh).ext hext
  · intro t _
    show ((p.modifySymbolNode s _).symbolNode t).nodeChildren = _
    rw [Gss.symbolNode_modifySymbolNode]
    split_ifs with h
    · rw [h.1]
      exact hnode _
    · rfl
  · exact fun _ _ => rfl
  · exact fun _ h => h
  · exact fun _ h => Or.inl h
  · intro v h₁ h₂
    exact absurd h₂ (not_lt.mpr h₁)
  · exact fun _ h => h
  · exact fun _ _ h h' => absurd h h'
  · refine HasEdge.ext hp.gss hext ?_
    exact ⟨n, s, hchild, htarget, hsym, hstart.symm, hposition⟩
  · exact Gss.length_symbolNodes_modifySymbolNode ..

private theorem enterItem_new (hp : ClosureInv G C cfg.table W p)
    (hf : FoundOk G C cfg.table p.toGss R f) (hne : f.symbols ≠ [])
    (hT : TableFor G C cfg.table)
    (hq : C.getGotoValue R.leftPart (p.stateNode f.childNode).stateNo = some q)
    (hlt : n < p.stateNodes.length) (hn0 : n ≠ 0)
    (hn : p.getFirstNodeNoOfCurrentClosure ≤ n) (hstate : (p.stateNode n).stateNo = q)
    (hs : hasPathOfLengthTwo cfg p item n f.childNode (f.inputStart p.toGss) = none) :
    EnterSpec G C W cfg symbols p (enterItem cfg symbols f item R.leftPart q n p)
      f.childNode R.leftPart (f.inputStart p.toGss) n := by
  have hposition := hp.gss.frontier_position hn
  obtain ⟨sn, hsn⟩ : ∃ sn : SymbolNode Item, sn =
      { symbolNo := R.leftPart, item, inputStart := f.inputStart p.toGss
        inputEnd := f.inputEnd p.toGss, nodeChildren := [f.childNode]
        parseChildren := [⟨f.reduceRule, f.symbols⟩]
        terminals := terminalsOf p.toGss f.symbols } := ⟨_, rfl⟩
  have hext := Gss.ext_addSymbolNode p.toGss n sn
  have hinv : GssInv G C cfg.table W (p.addSymbolNode n sn) := by
    refine hp.gss.addSymbolNode hn0 hlt ?_ ?_ ?_
    · rw [hsn, hposition]
      exact hf.inputEnd
    · intro w hw
      rw [hsn, List.mem_singleton] at hw
      subst hw
      refine ⟨hf.child, ?_, ?_⟩
      · rw [hsn, hstate]
        exact hq
      · rw [hsn]
        exact hf.childPosition
    · exact hf.symbolOk hp.gss hne (by rw [hsn]) (by rw [hsn]) (by rw [hsn]) (by rw [hsn])
  have hnew : (p.addSymbolNode n sn).symbolNode p.symbolNodes.length = sn := by
    rw [Gss.symbolNode_addSymbolNode, if_pos rfl]
  have hold : ∀ s, s < p.symbolNodes.length →
      (p.addSymbolNode n sn).symbolNode s = p.symbolNode s := by
    intro s hs
    rw [Gss.symbolNode_addSymbolNode, if_neg (by omega)]
  have hchild : p.symbolNodes.length ∈ ((p.addSymbolNode n sn).stateNode n).symbolChildren := by
    rw [Gss.stateNode_addSymbolNode, if_pos ⟨rfl, hlt⟩]
    simp
  have hchildren : ∀ v, ∀ s ∈ ((p.addSymbolNode n sn).stateNode v).symbolChildren,
      s ∈ (p.stateNode v).symbolChildren ∨ (v = n ∧ s = p.symbolNodes.length) := by
    intro v s hs
    rw [Gss.stateNode_addSymbolNode] at hs
    split_ifs at hs with h
    · rcases List.mem_append.mp hs with hs | hs
      · exact Or.inl (h.1 ▸ hs)
      · exact Or.inr ⟨h.1, List.mem_singleton.mp hs⟩
    · exact Or.inl hs
  have hreds : ∀ a, ∀ r ∈ (cfg.table.cell q a).reduceRules, ∃ R',
      ReductionOk G C cfg.table (p.addSymbolNode n sn) ⟨p.symbolNodes.length, n, r⟩ R' := by
    intro a r hr
    obtain ⟨R', hR', hleft, hfin, _, hno⟩ := (hT.reduce _ _ _).mp hr
    refine ⟨R', ⟨hR', hleft, hno⟩, hchild, ?_, ?_⟩
    · show (p.addSymbolNode n sn).position n = _
      rw [hext.position, hext.current]
      exact hposition
    · show _ ∈ C.itemSet ((p.addSymbolNode n sn).stateNode n).stateNo
      rw [hext.stateNo n hlt, hstate]
      exact hfin
  -- the two outcomes differ in the pending reductions only
  obtain ⟨p', hp', hgss, hactive, hshifts, hred, hpend, hgroups, hdisable⟩ :
      ∃ p', enterItem cfg symbols f item R.leftPart q n p = p' ∧
        p'.toGss = p.addSymbolNode n sn ∧ p'.activeNodes = p.activeNodes ∧
        p'.pendingShifts = p.pendingShifts ∧
        (∀ red ∈ p'.pendingReductions, red ∈ p.pendingReductions ∨ ∃ a ∈ symbols,
          ∃ r ∈ (cfg.table.cell q a).reduceRules, red = ⟨p.symbolNodes.length, n, r⟩) ∧
        ((∀ red ∈ p.pendingReductions, red ∈ p'.pendingReductions) ∧
          (n ∈ p.activeNodes ∨ ∀ a ∈ symbols, ∀ r ∈ (cfg.table.cell q a).reduceRules,
            ⟨p.symbolNodes.length, n, r⟩ ∈ p'.pendingReductions)) ∧
        p'.createdGroups = p.createdGroups ∧
        p'.disableWordsStateNodes = p.disableWordsStateNodes := by
    have hunfold : enterItem cfg symbols f item R.leftPart q n p =
        if p.activeNodes.contains n then p.updateGss (p.addSymbolNode n sn)
        else { p.updateGss (p.addSymbolNode n sn) with
          pendingReductions := insertAll PendingReduction.lt
            (symbols.flatMap fun a =>
              reductionsFor (cfg.table.cell q a).reduceRules [p.symbolNodes.length] n)
            p.pendingReductions } := by
      simp only [enterItem, hs, hsn]
    by_cases hcontains : p.activeNodes.contains n
    · rw [if_pos hcontains] at hunfold
      refine ⟨_, hunfold, rfl, rfl, rfl, fun _ h => Or.inl h, ⟨fun _ h => h, Or.inl ?_⟩,
        rfl, rfl⟩
      simpa using hcontains
    · rw [if_neg hcontains] at hunfold
      refine ⟨_, hunfold, rfl, rfl, rfl, ?_, ⟨?_, Or.inr ?_⟩, rfl, rfl⟩
      · intro red hmem
        simp only [mem_insertAll_pendingReduction, List.mem_flatMap, mem_reductionsFor,
          List.mem_singleton] at hmem
        rcases hmem with ⟨a, ha, hr, hsym, hlast⟩ | hmem
        · refine Or.inr ⟨a, ha, _, hr, ?_⟩
          cases red
          simp_all
        · exact Or.inl hmem
      · intro red hmem
        simp only [mem_insertAll_pendingReduction]
        exact Or.inr hmem
      · intro a ha r hr
        simp only [mem_insertAll_pendingReduction, List.mem_flatMap, mem_reductionsFor,
          List.mem_singleton]
        exact Or.inl ⟨a, ha, hr, trivial, trivial⟩
  rw [hp']
  refine ⟨⟨?_, ?_, ?_, ?_, ?_⟩, ⟨?_, ?_, ?_, ?_, ?_, ?_, hshifts, hpend.1, ?_, ?_, ?_⟩, ?_,
    Or.inl ?_⟩
  · rw [hgss]
    exact hinv
  · rw [hgss]
    intro v hv s hs
    rw [hext.frontier] at hv
    rcases hchildren v s hs with hs | ⟨_, rfl⟩
    · rw [hold s (hp.gss.symbol_lt v s hs)]
      exact hp.fresh v hv s hs
    · rw [hnew, hsn]
      simp
  · rw [hgss, hactive]
    intro v hv
    rw [Gss.length_stateNodes_addSymbolNode, hext.position, hext.current]
    exact hp.active v hv
  · rw [hgss]
    intro red hmem
    rcases hred red hmem with hmem | ⟨a, _, r, hr, rfl⟩
    · obtain ⟨R', hR'⟩ := hp.reductions red hmem
      exact ⟨R', hR'.ext hext⟩
    · exact hreds a r hr
  · rw [hgss, hshifts, hext.current]
    exact fun sh hsh => (hp.shifts sh hsh).ext hext
  · rw [hgss]
    exact hext
  · rw [hgss]
    intro s hs
    rw [hold s hs]
  · rw [hgss]
    intro v hv
    rw [Gss.stateNode_addSymbolNode, if_neg (by omega)]
  · rw [hactive]
    exact fun _ h => h
  · rw [hactive]
    exact fun _ h => Or.inl h
  · rw [hgss]
    intro v h₁ h₂
    rw [Gss.length_stateNodes_addSymbolNode] at h₂
    omega
  · rw [hgss, hactive]
    intro v s hs hnot
    rcases hchildren v s hs with hs | ⟨rfl, rfl⟩
    · exact absurd hs hnot
    · rw [hext.stateNo v hlt, hstate]
      exact hpend.2
  · rw [hgroups]
  · exact fun _ => hdisable
  · rw [hgss]
    refine ⟨n, p.symbolNodes.length, hchild, ?_, ?_, ?_, ?_⟩
    · rw [hnew, hsn]
      exact List.mem_singleton_self _
    · rw [hnew, hsn]
    · rw [hnew, hsn]
    · rw [hext.position]
      exact hposition
  · rw [hgss, Gss.length_symbolNodes_addSymbolNode]
    exact Nat.lt_succ_self _

private theorem enterItem_spec (hC : Automaton G C) (hT : TableFor G C cfg.table)
    (hp : ClosureInv G C cfg.table W p) (hf : FoundOk G C cfg.table p.toGss R f)
    (hne : f.symbols ≠ [])
    (hq : C.getGotoValue R.leftPart (p.stateNode f.childNode).stateNo = some q)
    (hlt : n < p.stateNodes.length) (hn0 : n ≠ 0)
    (hn : p.getFirstNodeNoOfCurrentClosure ≤ n) (hstate : (p.stateNode n).stateNo = q) :
    EnterSpec G C W cfg symbols p (enterItem cfg symbols f item R.leftPart q n p)
      f.childNode R.leftPart (f.inputStart p.toGss) n := by
  cases hs : hasPathOfLengthTwo cfg p item n f.childNode (f.inputStart p.toGss) with
  | some s => exact enterItem_pack hC hp hf hq hn hstate hs
  | none => exact enterItem_new hp hf hne hT hq hlt hn0 hn hstate hs

end Enter

/-- The parser as it is when an item is entered: the goto node is there. -/
structure Prepared (cfg : ParserConfig σ Agr Item) (created : Bool) (n : ℕ)
    (p p' : GlrParser σ Item) : Prop where
  activeNodes : p'.activeNodes = if created then insertBy natLt n p.activeNodes else p.activeNodes
  reductions : p'.pendingReductions = p.pendingReductions
  shifts : p'.pendingShifts = p.pendingShifts
  createdGroups : p.createdGroups ≤ p'.createdGroups
  disable : cfg.options.groupNonTerminal = -1 →
    p'.disableWordsStateNodes = p.disableWordsStateNodes

private theorem Prepared.effect {cfg : ParserConfig σ Agr Item} {symbols : List ℕ}
    {p p' : GlrParser σ Item} {created : Bool} {n q : ℕ} (h : Prepared cfg created n p p')
    (hn : NodeFor p.toGss q created n p'.toGss) : ReduceEffect cfg symbols p p' := by
  have hext := hn.ext
  have hactive : ∀ v, v ∈ p'.activeNodes ↔ (created = true ∧ v = n) ∨ v ∈ p.activeNodes := by
    intro v
    rw [h.activeNodes]
    split_ifs with hc <;> simp [hc]
  refine ⟨hext, ?_, ?_, ?_, ?_, ?_, h.shifts, ?_, ?_, h.createdGroups, h.disable⟩
  · intro s _
    simp only [Gss.symbolNode, hn.symbolNodes]
  · intro v hv
    by_cases hlt : v < p.stateNodes.length
    · rw [hn.stateNode hlt]
    · have hle := hn.frontier
      have hlt' := hn.lt
      have hr := hn.result
      split_ifs at hr with hc
      · have hlen : p'.stateNodes.length = p.stateNodes.length + 1 := by
          rw [hr.2, Gss.length_stateNodes_addStateNode]
        have := hr.1
        rw [p'.stateNode_of_le (by omega), p.stateNode_of_le (by omega)]
      · rw [hr] at hlt' ⊢
  · intro v hv
    exact (hactive v).mpr (Or.inr hv)
  · intro v hv
    rcases (hactive v).mp hv with ⟨hc, rfl⟩ | hv
    · have hr := hn.result
      rw [if_pos hc] at hr
      exact Or.inr hr.1.ge
    · exact Or.inl hv
  · intro v h₁ h₂
    have hr := hn.result
    split_ifs at hr with hc
    · rw [hr.2, Gss.length_stateNodes_addStateNode] at h₂
      exact (hactive v).mpr (Or.inl ⟨hc, by omega⟩)
    · rw [hr] at h₂
      omega
  · intro red hred
    rw [h.reductions]
    exact hred
  · -- the new node has no children yet
    intro v s hs hnot
    by_cases hlt : v < p.stateNodes.length
    · rw [hn.stateNode hlt] at hs
      exact absurd hs hnot
    · have hr := hn.result
      split_ifs at hr with hc
      · rw [hr.2, Gss.stateNode_addStateNode] at hs
        split_ifs at hs
        · exact absurd hs List.not_mem_nil
        · exact absurd hs hnot
      · rw [hr] at hs
        exact absurd hs hnot

private theorem Prepared.inv {cfg : ParserConfig σ Agr Item} {p p' : GlrParser σ Item}
    {created : Bool} {n q : ℕ} (h : Prepared cfg created n p p')
    (hn : NodeFor p.toGss q created n p'.toGss) (hp : ClosureInv G C cfg.table W p) :
    ClosureInv G C cfg.table W p' := by
  have hext := hn.ext
  refine ⟨hn.gss hp.gss, ?_, ?_, ?_, ?_⟩
  · intro v hv s hs
    rw [hext.frontier] at hv
    have hold : s ∈ (p.stateNode v).symbolChildren := by
      have hr := hn.result
      split_ifs at hr
      · rw [hr.2, Gss.stateNode_addStateNode] at hs
        split_ifs at hs
        · exact absurd hs List.not_mem_nil
        · exact hs
      · rwa [hr] at hs
    simp only [Gss.symbolNode, hn.symbolNodes]
    exact hp.fresh v hv s hold
  · intro v hv
    rw [h.activeNodes] at hv
    have hold : v ∈ p.activeNodes →
        v < p'.stateNodes.length ∧ (v = 0 ∨ p'.position v = p'.current) := by
      intro hv
      rw [hext.position, hext.current]
      exact ⟨(hp.active v hv).1.trans_le hext.states, (hp.active v hv).2⟩
    split_ifs at hv
    · rw [mem_insertBy_natLt] at hv
      rcases hv with rfl | hv
      · refine ⟨hn.lt, Or.inr ?_⟩
        rw [hext.position, hext.current]
        exact hp.gss.frontier_position hn.frontier
      · exact hold hv
    · exact hold hv
  · intro red hred
    rw [h.reductions] at hred
    obtain ⟨R, hR⟩ := hp.reductions red hred
    exact ⟨R, hR.ext hext⟩
  · intro sh hsh
    rw [h.shifts] at hsh
    rw [hext.current]
    exact (hp.shifts sh hsh).ext hext

/-- A factory that rejects nothing. -/
structure Accepting (F : InputItemFactory σ Agr Item) : Prop where
  createNewItem : ∀ st A agr i j m children, (F.createNewItem st A agr i j m children).1 ≠ none
  createLeafItem : ∀ st a i, (F.createLeafItem st a i).1 ≠ none

/-- A stretch of reductions adds symbol nodes, or leaves the work lists as they are. -/
def Progress (p p' : GlrParser σ Item) : Prop :=
  p.symbolNodes.length < p'.symbolNodes.length ∨
    (p'.symbolNodes.length = p.symbolNodes.length ∧ p'.activeNodes = p.activeNodes ∧
      p'.pendingReductions = p.pendingReductions)

theorem Progress.refl (p : GlrParser σ Item) : Progress p p := Or.inr ⟨rfl, rfl, rfl⟩

theorem Progress.trans {p p' p'' : GlrParser σ Item} (h₁ : Progress p p')
    (h₂ : Progress p' p'') : Progress p p'' := by
  rcases h₁ with h₁ | ⟨hlen, hactive, hreds⟩
  · rcases h₂ with h₂ | ⟨h₂, _⟩
    · exact Or.inl (by omega)
    · exact Or.inl (by omega)
  · rcases h₂ with h₂ | ⟨hlen', hactive', hreds'⟩
    · exact Or.inl (by omega)
    · exact Or.inr ⟨hlen'.trans hlen, hactive'.trans hactive, hreds'.trans hreds⟩

/-- What reducing one path does: an accepting factory gets its edge. -/
structure PathSpec (G : WorkGrammar) (C : CollectionSet) (W : ℕ → ℕ → Prop)
    (cfg : ParserConfig σ Agr Item) (symbols : List ℕ) (p p' : GlrParser σ Item)
    (w X i : ℕ) : Prop where
  inv : ClosureInv G C cfg.table W p'
  effect : ReduceEffect cfg symbols p p'
  edge : Accepting cfg.factory → HasEdge p'.toGss w X i p.current
  progress : Progress p p'

theorem reduceOnePath_spec {cfg : ParserConfig σ Agr Item} {symbols : List ℕ}
    {p : GlrParser σ Item} {R : WorkRule} {r : ℕ} {path : List ℕ} (hC : Automaton G C)
    (hT : TableFor G C cfg.table) (hp : ClosureInv G C cfg.table W p)
    (hf : FoundOk G C cfg.table p.toGss R ⟨r, pathSymbols path, path.headD 0⟩)
    (hne : pathSymbols path ≠ []) :
    PathSpec G C W cfg symbols p (reduceOnePath cfg symbols r path p) (path.headD 0) R.leftPart
      (FoundReduction.inputStart ⟨r, pathSymbols path, path.headD 0⟩ p.toGss) := by
  obtain ⟨f, hfdef⟩ : ∃ f : FoundReduction, f = ⟨r, pathSymbols path, path.headD 0⟩ := ⟨_, rfl⟩
  have hr : r = getRuleInfo cfg.table.ruleInfos R := hf.rule.no
  have hleft : (cfg.table.ruleInfo r).leftPart = R.leftPart := by
    rw [hr]
    exact (hT.info R hf.rule.mem).leftPart
  obtain ⟨q, hq⟩ := hf.goto
  have hgoto : ((cfg.table.cell (p.stateNode (path.headD 0)).stateNo R.leftPart).gotoLine).getD 0 =
      q := by
    rw [hT.gotoLine, hq]
    rfl
  rw [← hfdef] at hf ⊢
  rcases hcreate : cfg.factory.createNewItem p.heap R.leftPart
    (cfg.table.ruleInfo r).ruleAgreement (f.inputStart p.toGss) (f.inputEnd p.toGss)
    (cfg.table.ruleInfo r).synMainItemNo ((pathSymbols path).map fun s => (p.symbolNode s).item)
    with ⟨result, heap⟩
  cases result with
  | none =>
    -- a rejected item leaves only its mark on the factory
    have hresult : reduceOnePath cfg symbols r path p = { p with heap } := by
      simp only [reduceOnePath, hleft, ← hfdef, hcreate]
    rw [hresult]
    refine ⟨⟨hp.gss, hp.fresh, hp.active, hp.reductions, hp.shifts⟩,
      ReduceEffect.refl cfg symbols rfl rfl rfl rfl (le_refl _) fun _ => rfl, ?_,
      Or.inr ⟨rfl, rfl, rfl⟩⟩
    intro hacc
    refine absurd ?_ (hacc.createNewItem p.heap R.leftPart (cfg.table.ruleInfo r).ruleAgreement
      (f.inputStart p.toGss) (f.inputEnd p.toGss) (cfg.table.ruleInfo r).synMainItemNo
      ((pathSymbols path).map fun s => (p.symbolNode s).item))
    rw [hcreate]
  | some item =>
    have hnode := createOrReuseNode_nodeFor cfg hp.gss (hC.goto_ne_zero _ _ _ hq)
    rcases hcr : createOrReuseNode cfg p.toGss q with ⟨created, n, g⟩
    rw [hcr] at hnode
    -- the parser between finding the node and entering the item
    obtain ⟨p₁, hp₁, hg₁, hprep⟩ : ∃ p₁, reduceOnePath cfg symbols r path p =
        enterItem cfg symbols f item R.leftPart q n p₁ ∧ p₁.toGss = g ∧
          Prepared cfg created n p p₁ := by
      obtain ⟨p₀, hp₀⟩ : ∃ p₀, p₀ = noteGroup cfg R.leftPart (f.inputStart p.toGss,
          f.inputEnd p.toGss) { p with
            heap, createdGroups := p.createdGroups + cfg.factory.factsCount heap item } := ⟨_, rfl⟩
      have hgss₀ : p₀.toGss = p.toGss := by
        rw [hp₀, noteGroup]
        split_ifs <;> rfl
      refine ⟨if created then { p₀.updateGss g with
          activeNodes := insertBy natLt n (p₀.updateGss g).activeNodes }
        else p₀.updateGss g, ?_, ?_, ?_⟩
      · simp only [reduceOnePath, hleft, ← hfdef, hcreate, ← hp₀, hgoto, hgss₀, hcr]
      · split_ifs <;> rfl
      · have hbase : p₀.activeNodes = p.activeNodes ∧
            p₀.pendingReductions = p.pendingReductions ∧ p₀.pendingShifts = p.pendingShifts ∧
            p.createdGroups ≤ p₀.createdGroups ∧ (cfg.options.groupNonTerminal = -1 →
              p₀.disableWordsStateNodes = p.disableWordsStateNodes) := by
          rw [hp₀, noteGroup]
          split_ifs with hgroup
          · refine ⟨rfl, rfl, rfl, Nat.le_add_right _ _, fun hno => ?_⟩
            rw [hno] at hgroup
            omega
          · exact ⟨rfl, rfl, rfl, Nat.le_add_right _ _, fun _ => rfl⟩
        obtain ⟨h₁, h₂, h₃, h₄, h₅⟩ := hbase
        split_ifs with hc
        · refine ⟨?_, h₂, h₃, h₄, h₅⟩
          rw [if_pos hc, ← h₁]
          rfl
        · refine ⟨?_, h₂, h₃, h₄, h₅⟩
          rw [if_neg hc, ← h₁]
          rfl
    have hnode' : NodeFor p.toGss q created n p₁.toGss := by
      rw [hg₁]
      exact hnode
    have hext := hnode'.ext
    have hf₁ := hf.ext hext (by rw [hfdef]; exact hne)
    have hspec : EnterSpec G C W cfg symbols p₁
        (enterItem cfg symbols f item R.leftPart q n p₁) f.childNode R.leftPart
        (f.inputStart p₁.toGss) n := by
      refine enterItem_spec hC hT (hprep.inv hnode' hp) hf₁.1 (by rw [hfdef]; exact hne) ?_
        hnode'.lt hnode'.ne_zero (by rw [hext.frontier]; exact hnode'.frontier) hnode'.stateNo
      rw [hext.stateNo _ hf.child, hfdef]
      exact hq
    have heffect : ReduceEffect cfg symbols p p₁ := hprep.effect hnode'
    rw [hp₁]
    refine ⟨hspec.inv, heffect.trans hspec.effect, fun _ => ?_, ?_⟩
    · have hedge := hspec.edge
      rw [hf₁.2.1, hext.current] at hedge
      rw [hfdef] at hedge ⊢
      exact hedge
    · have hlen : p₁.symbolNodes.length = p.symbolNodes.length := by rw [hnode'.symbolNodes]
      rcases hspec.progress with h | ⟨hchild, h₁, h₂, h₃⟩
      · exact Or.inl (by omega)
      · -- a node with children was there before
        have hold : created = false := by
          cases created with
          | false => rfl
          | true =>
            have hres := hnode'.result
            rw [if_pos rfl] at hres
            rw [hres.2, hres.1, Gss.stateNode_addStateNode, if_pos rfl] at hchild
            exact absurd rfl hchild
        refine Or.inr ⟨h₁.trans hlen, h₂.trans ?_, h₃.trans hprep.reductions⟩
        rw [hprep.activeNodes, hold]
        rfl

end Invariant
end TomitaParser
