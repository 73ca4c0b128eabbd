import Mathlib.Data.Finset.Prod
import TomitaParser.Glr.Completeness
import TomitaParser.Glr.Termination
/-! # The parser ends without its limit

With a factory whose items all compare equal with equal weight, a closure makes one state node a
state, and one symbol node for each pair of state nodes and start position. -/

set_option linter.unusedSectionVars false

namespace TomitaParser
open OrderedSet LoopRun Cfg

variable {σ Agr Item : Type*} [Inhabited Item]
variable {G : WorkGrammar} {C : CollectionSet} {W : ℕ → ℕ → Prop}
variable {cfg : ParserConfig σ Agr Item} {symbols : List ℕ} {p p' p₀ : GlrParser σ Item}
variable {g h : Gss Item}

/-- All items compare equal and weigh the same, state nodes are reused, and there is no break. -/
structure Merging (cfg : ParserConfig σ Agr Item) : Prop where
  equalNodes : ∀ heap a b, cfg.factory.equalNodes heap a b = true
  weight : ∀ heap a b, cfg.factory.weight heap a = cfg.factory.weight heap b
  reuse : cfg.options.synAnOptions = false
  noBreak : cfg.options.breakAfterMaxSymbolNodesCount = false

/-- A symbol node that starts at `i` leads from the state node `v` down to `w`. -/
def HasArc (g : Gss Item) (v w i : ℕ) : Prop :=
  ∃ s ∈ (g.stateNode v).symbolChildren, w ∈ (g.symbolNode s).nodeChildren ∧
    (g.symbolNode s).inputStart = i

theorem HasArc.ext {T : GlrTable Agr} (hg : GssInv G C T W g) (he : Gss.Ext g h) {v w i : ℕ}
    (harc : HasArc g v w i) : HasArc h v w i := by
  obtain ⟨s, hs, hw, hi⟩ := harc
  have hlt := hg.symbol_lt v s hs
  refine ⟨s, he.symbolChildren v (g.lt_of_mem_symbolChildren hs) s hs,
    he.nodeChildren s hlt w hw, ?_⟩
  rw [he.inputStart s hlt, hi]

theorem hasArc_addSymbolNode {n : ℕ} (hn : n < g.stateNodes.length) {sn : SymbolNode Item} {w : ℕ}
    (hw : w ∈ sn.nodeChildren) : HasArc (g.addSymbolNode n sn) n w sn.inputStart := by
  refine ⟨g.symbolNodes.length, ?_, ?_, ?_⟩
  · rw [Gss.stateNode_addSymbolNode, if_pos ⟨rfl, hn⟩]
    simp
  · rw [Gss.symbolNode_addSymbolNode, if_pos rfl]
    exact hw
  · rw [Gss.symbolNode_addSymbolNode, if_pos rfl]

theorem not_hasArc_of_hasPath (hm : Merging cfg) {item : Item} {n w i : ℕ}
    (h : hasPathOfLengthTwo cfg p item n w i = none) : ¬HasArc p.toGss n w i := by
  rintro ⟨s, hs, hw, hi⟩
  have hlimit : ¬(decide (maxSymbolNodesCount ≤ p.symbolNodes.length) &&
      cfg.options.breakAfterMaxSymbolNodesCount) = true := by
    rw [hm.noBreak, Bool.and_false]
    exact Bool.false_ne_true
  rw [hasPathOfLengthTwo, if_neg hlimit] at h
  have hnot := List.find?_eq_none.mp h s hs
  apply hnot
  simp [hw, hm.equalNodes, hm.weight p.heap item (p.symbolNode s).item, hi]

/-- A stretch of reductions gains an arc, or leaves the work lists as they are. -/
def ArcProgress (p p' : GlrParser σ Item) : Prop :=
  (∃ v w i, ¬HasArc p.toGss v w i ∧ HasArc p'.toGss v w i) ∨
    (p'.activeNodes = p.activeNodes ∧ p'.pendingReductions = p.pendingReductions)

theorem ArcProgress.refl (p : GlrParser σ Item) : ArcProgress p p := Or.inr ⟨rfl, rfl⟩

theorem ArcProgress.trans {T : GlrTable Agr} {p p' p'' : GlrParser σ Item}
    (hp : GssInv G C T W p.toGss) (hp' : GssInv G C T W p'.toGss)
    (he : Gss.Ext p.toGss p'.toGss) (he' : Gss.Ext p'.toGss p''.toGss) (h₁ : ArcProgress p p')
    (h₂ : ArcProgress p' p'') : ArcProgress p p'' := by
  rcases h₁ with ⟨v, w, i, hno, harc⟩ | ⟨hactive, hreds⟩
  · exact Or.inl ⟨v, w, i, hno, harc.ext hp' he'⟩
  · rcases h₂ with ⟨v, w, i, hno, harc⟩ | ⟨hactive', hreds'⟩
    · exact Or.inl ⟨v, w, i, fun h => hno (h.ext hp he), harc⟩
    · exact Or.inr ⟨hactive'.trans hactive, hreds'.trans hreds⟩

/-- The state nodes from `n` on stand for different states. -/
structure Distinct (C : CollectionSet) (n : ℕ) (g : Gss Item) : Prop where
  inj : ∀ v w, n ≤ v → v < w → w < g.stateNodes.length →
    (g.stateNode v).stateNo ≠ (g.stateNode w).stateNo
  lt : ∀ v, n ≤ v → v < g.stateNodes.length → (g.stateNode v).stateNo < C.itemSets.length

theorem Distinct.length_le {n : ℕ} (hd : Distinct C n g) :
    g.stateNodes.length ≤ n + C.itemSets.length := by
  have hcard : (Finset.Ico n g.stateNodes.length).card ≤
      (Finset.range C.itemSets.length).card := by
    apply Finset.card_le_card_of_injOn fun v => (g.stateNode v).stateNo
    · intro v hv
      have hv' := Finset.mem_Ico.mp hv
      exact Finset.mem_coe.mpr (Finset.mem_range.mpr (hd.lt v hv'.1 hv'.2))
    · intro v hv w hw heq
      have hv' := Finset.mem_Ico.mp hv
      have hw' := Finset.mem_Ico.mp hw
      rcases lt_trichotomy v w with hlt | h | hlt
      · exact absurd heq (hd.inj v w hv'.1 hlt hw'.2)
      · exact h
      · exact absurd heq.symm (hd.inj w v hw'.1 hlt hv'.2)
  rw [Nat.card_Ico, Finset.card_range] at hcard
  omega

theorem Distinct.congr {n : ℕ} (hd : Distinct C n g)
    (hlen : h.stateNodes.length = g.stateNodes.length)
    (hstate : ∀ v, (h.stateNode v).stateNo = (g.stateNode v).stateNo) : Distinct C n h := by
  constructor
  · intro v w hv hvw hw
    rw [hstate, hstate]
    exact hd.inj v w hv hvw (by omega)
  · intro v hv hlt
    rw [hstate]
    exact hd.lt v hv (by omega)

theorem createOrReuseNode_symbolNodes (cfg : ParserConfig σ Agr Item) (g : Gss Item) (q : ℕ) :
    (createOrReuseNode cfg g q).2.2.symbolNodes = g.symbolNodes := by
  unfold createOrReuseNode
  split <;> rfl

theorem createOrReuseNode_ext (cfg : ParserConfig σ Agr Item) (g : Gss Item) (q : ℕ) :
    Gss.Ext g (createOrReuseNode cfg g q).2.2 := by
  unfold createOrReuseNode
  split
  · exact Gss.Ext.refl g
  · exact Gss.ext_addStateNode g q

/-- A state node is made only for a state that has none in the closure. -/
theorem createOrReuseNode_distinct (hm : Merging cfg) {n q : ℕ}
    (hn : g.getFirstNodeNoOfCurrentClosure ≤ n) (hq : q < C.itemSets.length)
    (hd : Distinct C n g) : Distinct C n (createOrReuseNode cfg g q).2.2 := by
  unfold createOrReuseNode
  cases hfind : findReusable cfg g q with
  | some v => exact hd
  | none =>
    have hnone : ∀ v, n ≤ v → v < g.stateNodes.length → (g.stateNode v).stateNo ≠ q := by
      intro v hv hlt heq
      unfold findReusable at hfind
      rw [hm.reuse, if_neg Bool.false_ne_true] at hfind
      split_ifs at hfind
      have hmem : v ∈ (List.range g.stateNodes.length).drop g.getFirstNodeNoOfCurrentClosure := by
        rw [List.mem_drop_iff_getElem]
        refine ⟨v - g.getFirstNodeNoOfCurrentClosure, ?_, ?_⟩
        · rw [List.length_range]
          omega
        · rw [List.getElem_range]
          omega
      have := List.find?_eq_none.mp hfind v hmem
      rw [heq, beq_self_eq_true] at this
      exact this rfl
    constructor
    · intro v w hv hvw hw
      rw [Gss.length_stateNodes_addStateNode] at hw
      rw [Gss.stateNode_addStateNode, if_neg (by omega), Gss.stateNode_addStateNode]
      split_ifs with hlast
      · exact hnone v hv (by omega)
      · exact hd.inj v w hv hvw (by omega)
    · intro v hv hlt
      rw [Gss.length_stateNodes_addStateNode] at hlt
      rw [Gss.stateNode_addStateNode]
      split_ifs with hlast
      · exact hq
      · exact hd.lt v hv (by omega)

theorem enterItem_cases (hm : Merging cfg) (symbols : List ℕ) (f : FoundReduction) (item : Item)
    (leftPart q n : ℕ) (p : GlrParser σ Item) :
    (∃ s fn, (enterItem cfg symbols f item leftPart q n p).toGss = p.modifySymbolNode s fn) ∨
      ∃ sn : SymbolNode Item, sn.nodeChildren = [f.childNode] ∧
        ¬HasArc p.toGss n f.childNode sn.inputStart ∧
        (enterItem cfg symbols f item leftPart q n p).toGss = p.addSymbolNode n sn := by
  cases hs : hasPathOfLengthTwo cfg p item n f.childNode (f.inputStart p.toGss) with
  | some s =>
    left
    refine ⟨s, fun sn => { sn.addInputItem (cfg.factory.weight p.heap) item with
      parseChildren := (sn.addInputItem (cfg.factory.weight p.heap) item).parseChildren ++
        [⟨f.reduceRule, f.symbols⟩] }, ?_⟩
    simp only [enterItem, hs]
    rfl
  | none =>
    right
    refine ⟨{ symbolNo := leftPart, item, inputStart := f.inputStart p.toGss
              inputEnd := f.inputEnd p.toGss, nodeChildren := [f.childNode]
              parseChildren := [⟨f.reduceRule, f.symbols⟩]
              terminals := terminalsOf p.toGss f.symbols }, rfl, not_hasArc_of_hasPath hm hs, ?_⟩
    simp only [enterItem, hs]
    split_ifs <;> rfl

/-- The state a reduction of a path leads to. -/
def gotoOf (cfg : ParserConfig σ Agr Item) (r : ℕ) (path : List ℕ) (p : GlrParser σ Item) : ℕ :=
  ((cfg.table.cell (p.stateNode (path.headD 0)).stateNo
    (cfg.table.ruleInfo r).leftPart).gotoLine).getD 0

/-- The item of a reduction is entered once its state node is found or made. -/
theorem reduceOnePath_eq_enterItem (symbols : List ℕ) (r : ℕ) (path : List ℕ)
    (p : GlrParser σ Item) {item : Item} {heap : σ}
    (hcreate : cfg.factory.createNewItem p.heap (cfg.table.ruleInfo r).leftPart
      (cfg.table.ruleInfo r).ruleAgreement
      (FoundReduction.inputStart ⟨r, pathSymbols path, path.headD 0⟩ p.toGss)
      (FoundReduction.inputEnd ⟨r, pathSymbols path, path.headD 0⟩ p.toGss)
      (cfg.table.ruleInfo r).synMainItemNo
      ((pathSymbols path).map fun s => (p.symbolNode s).item) = (some item, heap)) :
    ∃ p₁ : GlrParser σ Item, reduceOnePath cfg symbols r path p =
        enterItem cfg symbols ⟨r, pathSymbols path, path.headD 0⟩ item
          (cfg.table.ruleInfo r).leftPart (gotoOf cfg r path p)
          (createOrReuseNode cfg p.toGss (gotoOf cfg r path p)).2.1 p₁ ∧
      p₁.toGss = (createOrReuseNode cfg p.toGss (gotoOf cfg r path p)).2.2 ∧
      p₁.activeNodes = (if (createOrReuseNode cfg p.toGss (gotoOf cfg r path p)).1 then
        insertBy natLt (createOrReuseNode cfg p.toGss (gotoOf cfg r path p)).2.1 p.activeNodes
        else p.activeNodes) ∧
      p₁.pendingReductions = p.pendingReductions := by
  obtain ⟨f, hf⟩ : ∃ f : FoundReduction, f = ⟨r, pathSymbols path, path.headD 0⟩ := ⟨_, rfl⟩
  rw [← hf] at hcreate ⊢
  rcases hcr : createOrReuseNode cfg p.toGss (gotoOf cfg r path p) with ⟨created, n, g⟩
  obtain ⟨p₀, hp₀⟩ : ∃ p₀, p₀ = noteGroup cfg (cfg.table.ruleInfo r).leftPart
      (f.inputStart p.toGss, f.inputEnd p.toGss) { p with
        heap, createdGroups := p.createdGroups + cfg.factory.factsCount heap item } := ⟨_, rfl⟩
  obtain ⟨hgss, hactive, hreds⟩ : p₀.toGss = p.toGss ∧ p₀.activeNodes = p.activeNodes ∧
      p₀.pendingReductions = p.pendingReductions := by
    rw [hp₀, noteGroup]
    split_ifs
    · exact ⟨rfl, rfl, rfl⟩
    · exact ⟨rfl, rfl, rfl⟩
  have hgoto : ((cfg.table.cell (p.stateNode (path.headD 0)).stateNo
      (cfg.table.ruleInfo r).leftPart).gotoLine).getD 0 = gotoOf cfg r path p := rfl
  refine ⟨if created then { p₀.updateGss g with
      activeNodes := insertBy natLt n (p₀.updateGss g).activeNodes }
    else p₀.updateGss g, ?_, ?_, ?_, ?_⟩
  · simp only [reduceOnePath, ← hf, hcreate, ← hp₀, hgss, hgoto, hcr]
  · split_ifs
    · rfl
    · rfl
  · rw [← hactive]
    split_ifs
    · rfl
    · rfl
  · rw [← hreds]
    split_ifs
    · rfl
    · rfl

theorem reduceOnePath_cases (hm : Merging cfg) (symbols : List ℕ) (r : ℕ) (path : List ℕ)
    (p : GlrParser σ Item) :
    (reduceOnePath cfg symbols r path p).toGss = p.toGss ∨
      (∃ s fn, (reduceOnePath cfg symbols r path p).toGss =
        (createOrReuseNode cfg p.toGss (gotoOf cfg r path p)).2.2.modifySymbolNode s fn) ∨
      ∃ sn : SymbolNode Item, sn.nodeChildren = [path.headD 0] ∧
        ¬HasArc (createOrReuseNode cfg p.toGss (gotoOf cfg r path p)).2.2
          (createOrReuseNode cfg p.toGss (gotoOf cfg r path p)).2.1 (path.headD 0) sn.inputStart ∧
        (reduceOnePath cfg symbols r path p).toGss =
          (createOrReuseNode cfg p.toGss (gotoOf cfg r path p)).2.2.addSymbolNode
            (createOrReuseNode cfg p.toGss (gotoOf cfg r path p)).2.1 sn := by
  rcases hcreate : cfg.factory.createNewItem p.heap (cfg.table.ruleInfo r).leftPart
    (cfg.table.ruleInfo r).ruleAgreement
    (FoundReduction.inputStart ⟨r, pathSymbols path, path.headD 0⟩ p.toGss)
    (FoundReduction.inputEnd ⟨r, pathSymbols path, path.headD 0⟩ p.toGss)
    (cfg.table.ruleInfo r).synMainItemNo ((pathSymbols path).map fun s => (p.symbolNode s).item)
    with ⟨result, heap⟩
  cases result with
  | none =>
    left
    simp only [reduceOnePath, hcreate]
  | some item =>
    right
    obtain ⟨p₁, hp₁, hg₁, _⟩ := reduceOnePath_eq_enterItem symbols r path p hcreate
    have hcases := enterItem_cases hm symbols ⟨r, pathSymbols path, path.headD 0⟩ item
      (cfg.table.ruleInfo r).leftPart (gotoOf cfg r path p)
      (createOrReuseNode cfg p.toGss (gotoOf cfg r path p)).2.1 p₁
    rw [hp₁, ← hg₁]
    exact hcases

/-- Reducing a path keeps the states of the closure apart, and gains an arc if it adds a symbol
node. -/
theorem reduceOnePath_arcs {R : WorkRule} {r n : ℕ} {path : List ℕ} (hm : Merging cfg)
    (symbols : List ℕ) (hC : Automaton G C) (hT : TableFor G C cfg.table)
    (hp : ClosureInv G C cfg.table W p)
    (hf : FoundOk G C cfg.table p.toGss R ⟨r, pathSymbols path, path.headD 0⟩)
    (hne : pathSymbols path ≠ []) (hn : p.getFirstNodeNoOfCurrentClosure ≤ n)
    (hd : Distinct C n p.toGss) :
    Distinct C n (reduceOnePath cfg symbols r path p).toGss ∧
      ArcProgress p (reduceOnePath cfg symbols r path p) := by
  have hspec : PathSpec G C W cfg symbols p (reduceOnePath cfg symbols r path p) (path.headD 0)
      R.leftPart (FoundReduction.inputStart ⟨r, pathSymbols path, path.headD 0⟩ p.toGss) :=
    reduceOnePath_spec hC hT hp hf hne
  obtain ⟨q, hq⟩ := hf.goto
  have hgoto : gotoOf cfg r path p = q := by
    have hr : r = getRuleInfo cfg.table.ruleInfos R := hf.rule.no
    rw [gotoOf, hr, (hT.info R hf.rule.mem).leftPart, hT.gotoLine, hq]
    rfl
  have hcases := reduceOnePath_cases hm symbols r path p
  rw [hgoto] at hcases
  have hnode := createOrReuseNode_nodeFor cfg hp.gss (hC.goto_ne_zero _ _ _ hq)
  have hext := createOrReuseNode_ext cfg p.toGss q
  have hdist := createOrReuseNode_distinct hm hn (hC.goto_lt _ _ _ hq) hd
  have hsym := createOrReuseNode_symbolNodes cfg p.toGss q
  generalize createOrReuseNode cfg p.toGss q = c at hcases hnode hext hdist hsym
  have hquiet : (reduceOnePath cfg symbols r path p).symbolNodes.length = p.symbolNodes.length →
      ArcProgress p (reduceOnePath cfg symbols r path p) := by
    intro hlen
    rcases hspec.progress with hgrew | ⟨_, hactive, hreds⟩
    · omega
    · exact Or.inr ⟨hactive, hreds⟩
  rcases hcases with hgss | ⟨s, fn, hgss⟩ | ⟨sn, hchildren, hno, hgss⟩
  · rw [hgss]
    exact ⟨hd, hquiet (by rw [hgss])⟩
  · constructor
    · rw [hgss]
      exact hdist.congr rfl fun _ => rfl
    · apply hquiet
      rw [hgss, Gss.length_symbolNodes_modifySymbolNode, hsym]
  · constructor
    · rw [hgss]
      apply hdist.congr (Gss.length_stateNodes_addSymbolNode ..)
      intro v
      rw [Gss.stateNode_addSymbolNode]
      split_ifs with h
      · rw [h.1]
      · rfl
    · left
      refine ⟨c.2.1, path.headD 0, sn.inputStart, fun h => hno (h.ext hp.gss hext), ?_⟩
      rw [hgss]
      apply hasArc_addSymbolNode hnode.lt
      rw [hchildren]
      exact List.mem_singleton_self _

/-- A whole reduction does as its paths do. -/
theorem reducer_arcs {red : PendingReduction} {R : WorkRule} {rest : List PendingReduction} {n : ℕ}
    (hm : Merging cfg) (symbols : List ℕ) (hG : G.WellFormed)
    (heos : G.isMeta G.getEndOfStreamSymbol = false) (hC : Automaton G C)
    (hT : TableFor G C cfg.table) (hp : ClosureInv G C cfg.table W p)
    (h : p.pendingReductions = red :: rest) (hR : ReductionOk G C cfg.table p.toGss red R)
    (hn : p.getFirstNodeNoOfCurrentClosure ≤ n) (hd : Distinct C n p.toGss) (fuel : ℕ) :
    Distinct C n (reducer cfg fuel symbols p).2.toGss ∧
      ArcProgress { p with pendingReductions := rest } (reducer cfg fuel symbols p).2 := by
  have hlen := hR.ruleLength hT
  apply (reducer_rule (W := W) (Q := fun p' => Distinct C n p'.toGss ∧
    ArcProgress { p with pendingReductions := rest } p') hG heos hC hT hp h hR _
    ⟨hd, ArcProgress.refl _⟩ fuel).2
  rintro p' b path hs ht ⟨hd', harc⟩
  rw [visit, hlen]
  by_cases hfull : path.length = 2 * R.rightPart.items.length + 1
  · rw [if_pos (by simpa using hfull)]
    obtain rfl : b = true := by
      have := ht.length_mod
      cases b with
      | true => rfl
      | false =>
        simp only [Bool.toNat_false] at this
        omega
    have hright := List.length_pos_of_ne_nil (hG.right_ne R hR.rule.mem)
    have hne : pathSymbols path ≠ [] := pathSymbols_ne (by omega)
    have hf := ht.found hG heos hp.gss hC hR.rule hR.finished hR.position hfull
    obtain ⟨hf', _, _⟩ := hf.ext hs.effect.ext hne
    have hfrontier : p'.getFirstNodeNoOfCurrentClosure ≤ n := by
      rw [hs.effect.ext.frontier]
      exact hn
    obtain ⟨hd'', harc'⟩ := reduceOnePath_arcs hm symbols hC hT hs.inv hf' hne
      hfrontier hd'
    have hspec : PathSpec G C W cfg symbols p' _ _ _ _ := reduceOnePath_spec hC hT hs.inv hf' hne
    exact ⟨hd'', harc.trans hp.gss hs.inv.gss hs.effect.ext hspec.effect.ext harc'⟩
  · rw [if_neg (by simpa using hfull)]
    exact ⟨hd', harc⟩

open Classical in
/-- The arcs the stack may still gain between its first `n` state nodes. -/
noncomputable def missingArcs (n : ℕ) (g : Gss Item) : Finset (ℕ × ℕ × ℕ) :=
  (Finset.range n ×ˢ Finset.range n ×ˢ Finset.range (g.current + 1)).filter fun a =>
    ¬HasArc g a.1 a.2.1 a.2.2

/-- What a turn makes smaller: the room for arcs, or else the work lists. -/
noncomputable def arcMeasure (n : ℕ) (p : GlrParser σ Item) : ℕ ×ₗ ℕ ×ₗ ℕ :=
  toLex ((missingArcs n p.toGss).card,
    toLex (p.activeNodes.length, p.pendingReductions.length))

theorem missingArcs_subset {T : GlrTable Agr} {n : ℕ} (hg : GssInv G C T W g)
    (he : Gss.Ext g h) : missingArcs n h ⊆ missingArcs n g := by
  intro a ha
  simp only [missingArcs, Finset.mem_filter, he.current] at ha ⊢
  exact ⟨ha.1, fun harc => ha.2 (harc.ext hg he)⟩

theorem card_missingArcs_lt {T : GlrTable Agr} {n : ℕ} (hg : GssInv G C T W g)
    (hh : GssInv G C T W h) (he : Gss.Ext g h) (hlen : h.stateNodes.length ≤ n) {v w i : ℕ}
    (hno : ¬HasArc g v w i) (harc : HasArc h v w i) :
    (missingArcs n h).card < (missingArcs n g).card := by
  have hcurrent := he.current
  apply Finset.card_lt_card
  refine ⟨missingArcs_subset hg he, fun hsub => ?_⟩
  obtain ⟨s, hs, hw, hi⟩ := harc
  have hv := h.lt_of_mem_symbolChildren hs
  have hedge := (hh.edge v s hs w hw).lt
  have hsymbol := hh.symbol s (hh.symbol_lt v s hs)
  have hstart := hsymbol.start_lt
  have hend := hsymbol.end_le
  have hmem : (v, w, i) ∈ missingArcs n g := by
    simp only [missingArcs, Finset.mem_filter, Finset.mem_product, Finset.mem_range]
    exact ⟨⟨by omega, by omega, by omega⟩, hno⟩
  have hnot := hsub hmem
  simp only [missingArcs, Finset.mem_filter] at hnot
  exact hnot.2 ⟨s, hs, hw, hi⟩

theorem arcMeasure_reducer {T : GlrTable Agr} {n : ℕ} {red : PendingReduction}
    {rest : List PendingReduction} (h : p.pendingReductions = red :: rest)
    (hp : GssInv G C T W p.toGss) (hp' : GssInv G C T W p'.toGss)
    (he : Gss.Ext p.toGss p'.toGss) (hlen : p'.stateNodes.length ≤ n)
    (harc : ArcProgress { p with pendingReductions := rest } p') :
    arcMeasure n p' < arcMeasure n p := by
  apply Prod.Lex.toLex_lt_toLex.mpr
  rcases harc with ⟨v, w, i, hno, hyes⟩ | ⟨hactive, hreds⟩
  · left
    exact card_missingArcs_lt hp hp' he hlen hno hyes
  · have hactive' : p'.activeNodes = p.activeNodes := hactive
    rcases Nat.lt_or_eq_of_le (Finset.card_le_card (missingArcs_subset hp he)) with hlt | heq
    · exact Or.inl hlt
    · right
      refine ⟨heq, Prod.Lex.toLex_lt_toLex.mpr (Or.inr ⟨by rw [hactive'], ?_⟩)⟩
      rw [hreds, h]
      exact Nat.lt_succ_self _

theorem arcMeasure_actor {n : ℕ} (hp : p.activeNodes ≠ []) :
    arcMeasure n (actor cfg symbols p) < arcMeasure n p := by
  cases hactive : p.activeNodes with
  | nil => exact absurd hactive hp
  | cons v rest =>
    have he : ActorEffect cfg symbols v { p with activeNodes := rest } (actor cfg symbols p) :=
      actor_effect hactive
    have hgss : (actor cfg symbols p).toGss = p.toGss := he.toGss
    apply Prod.Lex.toLex_lt_toLex.mpr
    right
    refine ⟨by rw [hgss], Prod.Lex.toLex_lt_toLex.mpr (Or.inl ?_)⟩
    rw [he.activeNodes, hactive]
    exact Nat.lt_succ_self _

/-- What the closure loop keeps that began with `n` state nodes. -/
structure ArcInv (G : WorkGrammar) (C : CollectionSet) (W : ℕ → ℕ → Prop)
    (cfg : ParserConfig σ Agr Item) (n i : ℕ) (p : GlrParser σ Item) : Prop where
  inv : ClosureInv G C cfg.table W p
  current : p.current = i
  frontier : p.getFirstNodeNoOfCurrentClosure ≤ n
  distinct : Distinct C n p.toGss

/-- One turn, with enough fuel for the reducer. -/
theorem closureStep_arcs {n i : ℕ} (hm : Merging cfg) (hG : G.WellFormed)
    (heos : G.isMeta G.getEndOfStreamSymbol = false) (hC : Automaton G C)
    (hT : TableFor G C cfg.table) (hW : ∀ a ∈ symbols, W i a) (hp : ArcInv G C W cfg n i p) :
    ∃ N s, (∀ fuel, N ≤ fuel → closureStep cfg fuel symbols p = s) ∧
      s.Spec (fun p' => ArcInv G C W cfg n i p' ∧
          arcMeasure (n + C.itemSets.length) p' < arcMeasure (n + C.itemSets.length) p)
        (fun status _ => status = RunStatus.finished) := by
  by_cases hactive : p.activeNodes = []
  · cases hreds : p.pendingReductions with
    | nil =>
      refine ⟨0, .exit .finished p, fun fuel _ => ?_, rfl⟩
      simp [closureStep, hactive, hreds]
    | cons red rest =>
      obtain ⟨R, hR⟩ := hp.inv.reductions red (by rw [hreds]; exact List.mem_cons_self)
      obtain ⟨N, p', hrun, hs, _⟩ := @reducer_finishes _ _ _ _ _ _ _ _ symbols _ _ _ hG heos hC
        hT hp.inv rest hreds hR
      have harcs := reducer_arcs hm symbols hG heos hC hT hp.inv hreds hR hp.frontier
        hp.distinct N
      rw [hrun N (le_refl N)] at harcs
      obtain ⟨hd, harc⟩ := harcs
      have hext := hs.effect.ext
      refine ⟨N, .next p', fun fuel hfuel => ?_, ⟨hs.inv, ?_, ?_, hd⟩, ?_⟩
      · simp [closureStep, hactive, hreds, hrun fuel hfuel, hm.noBreak]
      · rw [hext.current]
        exact hp.current
      · rw [hext.frontier]
        exact hp.frontier
      · exact arcMeasure_reducer hreds hp.inv.gss hs.inv.gss hext hd.length_le harc
  · have hgss : (actor cfg symbols p).toGss = p.toGss := by
      obtain ⟨v, rest, hcons⟩ := List.exists_cons_of_ne_nil hactive
      have he : ActorEffect cfg symbols v { p with activeNodes := rest } (actor cfg symbols p) :=
        actor_effect hcons
      exact he.toGss
    refine ⟨0, .next (actor cfg symbols p), fun fuel _ => ?_, ⟨?_, ?_, ?_, ?_⟩,
      arcMeasure_actor hactive⟩
    · simp [closureStep, hactive, hm.noBreak]
    · apply hp.inv.actor hT
      rw [hp.current]
      exact hW
    · rw [hgss]
      exact hp.current
    · rw [hgss]
      exact hp.frontier
    · rw [hgss]
      exact hp.distinct

theorem closureLoop_unlimited (hm : Merging cfg) (hG : G.WellFormed)
    (heos : G.isMeta G.getEndOfStreamSymbol = false) (hC : Automaton G C)
    (hT : TableFor G C cfg.table) {n : ℕ} (hW : ∀ a ∈ symbols, W p.current a)
    (hp : ArcInv G C W cfg n p.current p) :
    ∃ N p', ∀ fuel, N ≤ fuel → ∀ k, N ≤ k →
      runLoop (closureStep cfg fuel symbols) .outOfFuel k p = (.finished, p') := by
  have hend : ∃ N, (∀ fuel, N ≤ fuel → ∀ k, N ≤ k → False) ∨
      ∃ b a', (∀ fuel, N ≤ fuel → ∀ k, N ≤ k →
        runLoop (closureStep cfg fuel symbols) .outOfFuel k p = (b, a')) ∧
          b = RunStatus.finished :=
    runLoop_eventually
      (InvImage.wf (arcMeasure (n + C.itemSets.length)) wellFounded_lt)
      (ArcInv G C W cfg n p.current) (fun _ => False) (fun status _ => status = RunStatus.finished)
      (fun q hq _ => closureStep_arcs hm hG heos hC hT hW hq) (fun _ _ h => h.elim) p hp
  obtain ⟨N, hN | ⟨b, p', hrun, rfl⟩⟩ := hend
  · exact (hN N (le_refl N) N (le_refl N)).elim
  · exact ⟨N, p', hrun⟩

theorem parseSymbol_unlimited (hm : Merging cfg) (hG : G.WellFormed)
    (heos : G.isMeta G.getEndOfStreamSymbol = false) (hC : Automaton G C)
    (hT : TableFor G C cfg.table) (hp : IdleInv G C cfg.table W p) (symbols : List ℕ)
    (hW : ∀ a ∈ symbols, W p.current a) (startPoint : Bool) :
    ∃ N r, (∀ fuel, N ≤ fuel → parseSymbol cfg fuel symbols startPoint p = r) ∧
      r.1 = .finished := by
  have hstart : ClosureInv G C cfg.table W (startSymbol startPoint p) := hp.startSymbol startPoint
  have hinv : ArcInv G C W cfg p.stateNodes.length (startSymbol startPoint p).current
      (startSymbol startPoint p) := by
    refine ⟨hstart, rfl, ?_, ?_⟩
    · show p.getFirstNodeNoOfCurrentClosure ≤ p.stateNodes.length
      have := hp.gss.last_le
      unfold Gss.getFirstNodeNoOfCurrentClosure
      split_ifs <;> omega
    · constructor
      · intro v w hv hvw hw
        have hw' : w < p.stateNodes.length := hw
        omega
      · intro v hv hlt
        have hlt' : v < p.stateNodes.length := hlt
        omega
  obtain ⟨N, p', hrun⟩ := closureLoop_unlimited hm hG heos hC hT
    (show ∀ a ∈ symbols, W (startSymbol startPoint p).current a from hW) hinv
  refine ⟨N, finishCall cfg p.stateNodes.length (.finished, p'), fun fuel hfuel => ?_, rfl⟩
  rw [parseSymbol_eq, hrun fuel hfuel fuel hfuel]

theorem parseSymbols_unlimited (hm : Merging cfg) (hG : G.WellFormed)
    (heos : G.isMeta G.getEndOfStreamSymbol = false) (hC : Automaton G C)
    (hT : TableFor G C cfg.table) (words : List (List ℕ × Bool)) :
    ∀ p : GlrParser σ Item, IdleInv G C cfg.table (fun _ _ => True) p →
      ∃ N r, (∀ fuel, N ≤ fuel → parseSymbols cfg fuel words p = r) ∧ r.1 = .finished := by
  induction words with
  | nil =>
    intro p _
    exact ⟨0, (.finished, p), fun _ _ => rfl, rfl⟩
  | cons w words ih =>
    intro p hp
    obtain ⟨N, r, hrun, hr⟩ := parseSymbol_unlimited hm hG heos hC hT hp w.1
      (fun _ _ => trivial) w.2
    have hcall : CallSpec G C (fun _ _ => True) cfg p (parseSymbol cfg N w.1 w.2 p) :=
      parseSymbol_spec hG heos hC hT hp (fun _ _ => trivial) N w.2
    have hidle := hcall.idle
    rw [hrun N (le_refl N)] at hidle
    obtain ⟨M, r', hrun', hr'⟩ := ih r.2.2 (hidle hr).1
    refine ⟨max N M, r', fun fuel hfuel => ?_, hr'⟩
    rw [parseSymbols, hrun fuel (by omega)]
    rw [if_neg (by rw [hr]; exact fun h => h rfl)]
    exact hrun' fuel (by omega)

theorem parseSymbols_limit (hG : G.WellFormed)
    (heos : G.isMeta G.getEndOfStreamSymbol = false) (hC : Automaton G C)
    (hT : TableFor G C cfg.table) (hbreak : cfg.options.breakAfterMaxSymbolNodesCount = true)
    {fuel : ℕ} (hfuel : 0 < fuel) (words : List (List ℕ × Bool)) :
    ∀ p : GlrParser σ Item, IdleInv G C cfg.table (fun _ _ => True) p → limitReached p = true →
      (parseSymbols cfg fuel words p).1 ≠ .outOfFuel := by
  induction words with
  | nil =>
    intro p _ _
    exact RunStatus.noConfusion
  | cons w words ih =>
    intro p hp hlimit
    obtain ⟨hne, hsymbols, hgroups⟩ := parseSymbol_limit hbreak hp hlimit w.1 w.2 hfuel
    have hcall : CallSpec G C (fun _ _ => True) cfg p (parseSymbol cfg fuel w.1 w.2 p) :=
      parseSymbol_spec hG heos hC hT hp (fun _ _ => trivial) fuel w.2
    rw [parseSymbols]
    split_ifs with hstatus
    · exact hne
    · apply ih _ (hcall.idle (not_not.mp hstatus)).1
      exact limitReached_mono (by rw [hsymbols]) hgroups.ge hlimit

/-- With the break the calls end whatever the factory does. -/
theorem parseSymbols_limited (hG : G.WellFormed)
    (heos : G.isMeta G.getEndOfStreamSymbol = false) (hC : Automaton G C)
    (hT : TableFor G C cfg.table) (hbreak : cfg.options.breakAfterMaxSymbolNodesCount = true)
    (words : List (List ℕ × Bool)) :
    ∀ p : GlrParser σ Item, IdleInv G C cfg.table (fun _ _ => True) p →
      ∃ N, ∀ fuel, N ≤ fuel → (parseSymbols cfg fuel words p).1 ≠ .outOfFuel := by
  induction words with
  | nil =>
    intro p _
    exact ⟨0, fun _ _ => RunStatus.noConfusion⟩
  | cons w words ih =>
    intro p hp
    cases hlimit : limitReached p with
    | true =>
      exact ⟨1, fun fuel hfuel => parseSymbols_limit hG heos hC hT hbreak hfuel (w :: words) p hp
        hlimit⟩
    | false =>
      obtain ⟨N, r, hrun, hr⟩ := parseSymbol_ends hG heos hC hT hbreak hp hlimit w.1
        (fun _ _ => trivial) w.2
      by_cases hfinished : r.1 = .finished
      · have hcall : CallSpec G C (fun _ _ => True) cfg p (parseSymbol cfg N w.1 w.2 p) :=
          parseSymbol_spec hG heos hC hT hp (fun _ _ => trivial) N w.2
        have hidle := hcall.idle
        rw [hrun N (le_refl N)] at hidle
        obtain ⟨M, hM⟩ := ih r.2.2 (hidle hfinished).1
        refine ⟨max N M, fun fuel hfuel => ?_⟩
        rw [parseSymbols, hrun fuel (by omega), if_neg (not_not.mpr hfinished)]
        exact hM fuel (by omega)
      · refine ⟨N, fun fuel hfuel => ?_⟩
        rw [parseSymbols, hrun fuel hfuel, if_pos hfinished]
        exact hr

/-- The grammar with the rules `S → S` and `S → a`. -/
def selfRule : EncodedGrammar where
  uniqueGrammarItems := [{ type := .siMeta, itemStrId := "S" },
    { type := .siString, itemStrId := "a", grammarRoot := false }]
  encodedRules := [⟨1, 0, ⟨[0], 0⟩⟩, ⟨0, 0, ⟨[1], 0⟩⟩]
  agreementCount := 2
  wellFormed := ⟨⟨⟨by decide, by decide, by decide⟩, by decide⟩, by decide⟩
  ruleNo_lt := by decide
  oneRoot := by decide
  noReserved := oneWordGrammar.noReserved

/-- The parser of clauses: groups and words have numbers, and there is no break. -/
def synAnConfig : ParserConfig Unit Unit Unit :=
  selfRule.parserConfig [[()], [()], []] acceptAllFactory
    { synAnOptions := true, breakAfterMaxSymbolNodesCount := false, wordTerminal := 1
      groupNonTerminal := 0 }

/-- The last state node has just been made, over a symbol node for `S`. -/
structure Cycling (p : GlrParser Unit Unit) : Prop where
  active : p.activeNodes = [p.stateNodes.length - 1]
  reductions : p.pendingReductions = []
  nodeZero : p.stateNode 0 = {}
  last : p.stateNode (p.stateNodes.length - 1) = ⟨1, [p.symbolNodes.length - 1]⟩
  many : 1 < p.stateNodes.length
  symbols : 0 < p.symbolNodes.length
  symbol : (p.symbolNode (p.symbolNodes.length - 1)).nodeChildren = [0]

theorem cycling_actor {p : GlrParser Unit Unit} (h : Cycling p) (fuel : ℕ) :
    ∃ p', closureStep synAnConfig fuel [2] p = .next p' ∧ p'.toGss = p.toGss ∧
      p'.activeNodes = [] ∧
      p'.pendingReductions = [⟨p.symbolNodes.length - 1, p.stateNodes.length - 1, 1⟩] := by
  obtain ⟨q, hq⟩ : ∃ q : GlrParser Unit Unit, q = { p with activeNodes := [] } := ⟨_, rfl⟩
  have hactor : actor synAnConfig [2] p =
      actorSymbol synAnConfig (p.stateNodes.length - 1) q 2 := by
    rw [actor, h.active, hq]
    rfl
  have hlast : q.stateNode (p.stateNodes.length - 1) = ⟨1, [p.symbolNodes.length - 1]⟩ := by
    rw [hq]
    exact h.last
  refine ⟨actor synAnConfig [2] p, ?_, ?_, ?_, ?_⟩
  · have hbreak : synAnConfig.options.breakAfterMaxSymbolNodesCount = false := rfl
    simp [closureStep, h.active, hbreak]
  · rw [hactor, hq]
    rfl
  · rw [hactor, hq]
    rfl
  · have hcell : (synAnConfig.table.cell 1 2).reduceRules = [1] := by decide
    have hreds : q.pendingReductions = [] := by
      rw [hq]
      exact h.reductions
    rw [hactor]
    simp only [actorSymbol, hlast, hcell, hreds]
    rfl

/-- The reduction of `S → S` makes the next state node. -/
theorem cycling_reduceOnePath {p : GlrParser Unit Unit} (h0 : p.stateNode 0 = {})
    (hactive : p.activeNodes = []) (hreds : p.pendingReductions = []) (s u : ℕ) :
    ∃ sn : SymbolNode Unit, sn.nodeChildren = [0] ∧
      (reduceOnePath synAnConfig [2] 1 [0, s, u] p).toGss =
        (p.addStateNode 1).addSymbolNode p.stateNodes.length sn ∧
      (reduceOnePath synAnConfig [2] 1 [0, s, u] p).activeNodes = [p.stateNodes.length] ∧
      (reduceOnePath synAnConfig [2] 1 [0, s, u] p).pendingReductions = [] := by
  have hleft : (synAnConfig.table.ruleInfo 1).leftPart = 0 := by decide
  have hcell : (synAnConfig.table.cell 0 0).gotoLine = some 1 := by decide
  have hgoto : gotoOf synAnConfig 1 [0, s, u] p = 1 := by
    rw [gotoOf, hleft, List.headD_cons, h0, hcell]
    rfl
  -- no state node is ever reused
  have hnode : createOrReuseNode synAnConfig p.toGss 1 =
      (true, p.stateNodes.length, p.addStateNode 1) := rfl
  obtain ⟨p₁, hp₁, hg₁, ha₁, hr₁⟩ := @reduceOnePath_eq_enterItem _ _ _ _ synAnConfig [2] 1
    [0, s, u] p () () rfl
  rw [hgoto, hnode] at hp₁ hg₁ ha₁
  rw [hactive, if_pos rfl] at ha₁
  rw [hp₁, hleft]
  have hnone : hasPathOfLengthTwo synAnConfig p₁ () p.stateNodes.length 0
      (FoundReduction.inputStart ⟨1, [s], 0⟩ p₁.toGss) = none := by
    rw [hasPathOfLengthTwo, hg₁, Gss.stateNode_addStateNode, if_pos rfl]
    split_ifs
    · rfl
    · rfl
  have hcontains : p₁.activeNodes.contains p.stateNodes.length = true := by
    rw [ha₁]
    simp [insertBy]
  obtain ⟨sn, hsn⟩ : ∃ sn : SymbolNode Unit, sn =
      { symbolNo := 0, item := (), inputStart := FoundReduction.inputStart ⟨1, [s], 0⟩ p₁.toGss
        inputEnd := FoundReduction.inputEnd ⟨1, [s], 0⟩ p₁.toGss, nodeChildren := [0]
        parseChildren := [⟨1, [s]⟩], terminals := terminalsOf p₁.toGss [s] } := ⟨_, rfl⟩
  have henter : enterItem synAnConfig [2] ⟨1, [s], 0⟩ () 0 1 p.stateNodes.length p₁ =
      p₁.updateGss (p₁.addSymbolNode p.stateNodes.length sn) := by
    simp only [enterItem, hnone, hcontains, if_true, hsn]
  refine ⟨sn, by rw [hsn], ?_, ?_, ?_⟩
  · have hg : p₁.toGss = p.addStateNode 1 := hg₁
    rw [← hg]
    exact congrArg GlrParser.toGss henter
  · exact (congrArg GlrParser.activeNodes henter).trans ha₁
  · exact (congrArg GlrParser.pendingReductions henter).trans (hr₁.trans hreds)

/-- The reduction leads to such a state again. -/
theorem cycling_reducer {p : GlrParser Unit Unit} (h : Cycling p) {q : GlrParser Unit Unit}
    (hgss : q.toGss = p.toGss) (hactive : q.activeNodes = [])
    (hreds : q.pendingReductions = [⟨p.symbolNodes.length - 1, p.stateNodes.length - 1, 1⟩])
    (fuel : ℕ) :
    ∃ p', closureStep synAnConfig (fuel + 2) [2] q = .next p' ∧ Cycling p' := by
  obtain ⟨s, hs⟩ : ∃ s, s = p.symbolNodes.length - 1 := ⟨_, rfl⟩
  obtain ⟨u, hu⟩ : ∃ u, u = p.stateNodes.length - 1 := ⟨_, rfl⟩
  rw [← hs, ← hu] at hreds
  have hlen : (synAnConfig.table.ruleInfo 1).ruleLength = 1 := by decide
  obtain ⟨q₀, hq₀⟩ : ∃ q₀ : GlrParser Unit Unit, q₀ = { q with pendingReductions := [] } := ⟨_, rfl⟩
  have hgss₀ : q₀.toGss = p.toGss := by
    rw [hq₀]
    exact hgss
  have h0 : q₀.stateNode 0 = {} := by
    rw [hgss₀]
    exact h.nodeZero
  have hsym : (q₀.symbolNode s).nodeChildren = [0] := by
    rw [hgss₀, hs]
    exact h.symbol
  obtain ⟨sn, hsn, hg, ha, hr⟩ := cycling_reduceOnePath h0 (by rw [hq₀]; exact hactive)
    (by rw [hq₀]) s u
  generalize hp' : reduceOnePath synAnConfig [2] 1 [0, s, u] q₀ = p' at hg ha hr
  have hmany := h.many
  have hsymbols := h.symbols
  rw [hgss₀] at hg ha
  have h0' : p'.stateNode 0 = {} := by
    rw [hg, Gss.stateNode_addSymbolNode, if_neg (by omega), Gss.stateNode_addStateNode,
      if_neg (by omega)]
    exact h.nodeZero
  have hsym' : (p'.symbolNode s).nodeChildren = [0] := by
    have hne : s ≠ (p.addStateNode 1).symbolNodes.length := by
      have hnodes : (p.addStateNode 1).symbolNodes = p.symbolNodes := rfl
      rw [hnodes]
      omega
    rw [hg, Gss.symbolNode_addSymbolNode, if_neg hne, Gss.symbolNode_addStateNode, hs]
    exact h.symbol
  have hdown : dfsStep synAnConfig [2] 1 (q₀, [(s, 0), (u, 0)]) =
      .next (q₀, [(0, 0), (s, 0), (u, 0)]) := by
    simp [dfsStep, hlen, dfsMove, nodesBelow, hsym]
  have hup : dfsStep synAnConfig [2] 1 (q₀, [(0, 0), (s, 0), (u, 0)]) =
      .exit .finished (p', [(u, 0)]) := by
    simp [dfsStep, hlen, hp', dfsMove, nodesBelow, backtrack, h0', hsym']
  have hreducer : reducer synAnConfig (fuel + 2) [2] q = (.finished, p') := by
    simp only [reducer, hreds]
    rw [← hq₀, runLoop_next hdown, runLoop_exit hup]
  refine ⟨p', ?_, ?_⟩
  · have hbreak : synAnConfig.options.breakAfterMaxSymbolNodesCount = false := rfl
    simp [closureStep, hactive, hreds, hreducer, hbreak]
  · have hstates : p'.stateNodes.length = p.stateNodes.length + 1 := by
      rw [hg, Gss.length_stateNodes_addSymbolNode, Gss.length_stateNodes_addStateNode]
    have hlength : p'.symbolNodes.length = p.symbolNodes.length + 1 := by
      rw [hg, Gss.length_symbolNodes_addSymbolNode]
      rfl
    refine ⟨?_, hr, h0', ?_, by omega, by omega, ?_⟩
    · rw [ha, hstates]
      rfl
    · rw [hstates, hlength, Nat.add_sub_cancel, Nat.add_sub_cancel, hg,
        Gss.stateNode_addSymbolNode, if_pos (by simp), Gss.stateNode_addStateNode, if_pos rfl]
      rfl
    · have hnodes : p.symbolNodes.length = (p.addStateNode 1).symbolNodes.length := rfl
      rw [hlength, Nat.add_sub_cancel, hg, Gss.symbolNode_addSymbolNode, if_pos hnodes]
      exact hsn

theorem cycling_runs (fuel n : ℕ) : ∀ p : GlrParser Unit Unit, Cycling p →
    (runLoop (closureStep synAnConfig (fuel + 2) [2]) .outOfFuel n p).1 = .outOfFuel := by
  induction n using Nat.strong_induction_on with
  | _ n ih =>
    intro p h
    obtain ⟨q, hstep, hgss, hactive, hreds⟩ := cycling_actor h (fuel + 2)
    obtain ⟨p', hstep', h'⟩ := cycling_reducer h hgss hactive hreds fuel
    match n with
    | 0 => rfl
    | 1 =>
      rw [runLoop_next hstep]
      rfl
    | n + 2 =>
      rw [runLoop_next hstep, runLoop_next hstep']
      exact ih n (by omega) p' h'

/-- The parser with the word `a` shifted. -/
def wordShifted : GlrParser Unit Unit :=
  (parseSymbol synAnConfig 3 [1, 2] true (initGlrParser (newGlrParser ()))).2.2

/-- The parser with `a` reduced to `S`. -/
def wordReduced : GlrParser Unit Unit :=
  (reducer synAnConfig 3 [2] (actor synAnConfig [2] (startSymbol false wordShifted))).2

end TomitaParser
