import TomitaParser.Lib.PathSearch
import TomitaParser.Glr.Unlimited
/-! # The paths the reducer reduces

In every state of the parser the reducer calls `ReduceOnePath` once for each path of the length of
the rule, although the stack grows meanwhile. -/

set_option linter.unusedSectionVars false

namespace TomitaParser
open OrderedSet LoopRun Cfg

variable {σ Agr Item : Type*} [Inhabited Item]

/-- The parser at the head of the loop of `ParseSymbol` for some symbols, in any run after
`InitGLRParser`. -/
inductive AtLoop (cfg : ParserConfig σ Agr Item) : List ℕ → GlrParser σ Item → Prop where
  | first (symbols : List ℕ) (startPoint : Bool) (p : GlrParser σ Item) :
    AtLoop cfg symbols (startSymbol startPoint (initGlrParser p))
  | turn {symbols : List ℕ} {p p' : GlrParser σ Item} (h : AtLoop cfg symbols p) (fuel : ℕ)
      (hstep : closureStep cfg fuel symbols p = .next p') : AtLoop cfg symbols p'
  | nextSymbol {symbols : List ℕ} {p p' : GlrParser σ Item} (h : AtLoop cfg symbols p) (fuel : ℕ)
      (hstep : closureStep cfg fuel symbols p = .exit .finished p') (symbols' : List ℕ)
      (startPoint : Bool) (firstReducedStateNode : ℕ) :
    AtLoop cfg symbols' (startSymbol startPoint (nextLevel cfg firstReducedStateNode p').2)

/-- The children of a node are different, and there. -/
structure DistinctChildren (g : Gss Item) : Prop where
  symbols : ∀ v, (g.stateNode v).symbolChildren.Nodup
  lt : ∀ v, ∀ s ∈ (g.stateNode v).symbolChildren, s < g.symbolNodes.length
  nodes : ∀ s, (g.symbolNode s).nodeChildren.Nodup

namespace DistinctChildren
variable {g : Gss Item}

theorem addStateNode (h : DistinctChildren g) (q : ℕ) : DistinctChildren (g.addStateNode q) where
  symbols := by
    intro v
    rw [Gss.stateNode_addStateNode]
    split_ifs
    · exact List.nodup_nil
    · exact h.symbols v
  lt := by
    intro v s hs
    rw [Gss.stateNode_addStateNode] at hs
    split_ifs at hs
    · cases hs
    · exact h.lt v s hs
  nodes := h.nodes

theorem addSymbolNode (h : DistinctChildren g) (v : ℕ) {sn : SymbolNode Item}
    (hsn : sn.nodeChildren.Nodup) : DistinctChildren (g.addSymbolNode v sn) where
  symbols := by
    intro u
    rw [Gss.stateNode_addSymbolNode]
    split_ifs
    · rw [List.nodup_append]
      refine ⟨h.symbols v, List.nodup_singleton _, ?_⟩
      intro s hs s' hs'
      rw [List.mem_singleton.mp hs']
      exact (h.lt v s hs).ne
    · exact h.symbols u
  lt := by
    intro u s hs
    rw [Gss.length_symbolNodes_addSymbolNode]
    rw [Gss.stateNode_addSymbolNode] at hs
    split_ifs at hs
    · rcases List.mem_append.mp hs with hs | hs
      · exact Nat.lt_succ_of_lt (h.lt v s hs)
      · rw [List.mem_singleton.mp hs]
        exact Nat.lt_succ_self _
    · exact Nat.lt_succ_of_lt (h.lt u s hs)
  nodes := by
    intro s
    rw [Gss.symbolNode_addSymbolNode]
    split_ifs
    · exact hsn
    · exact h.nodes s

theorem modifySymbolNode (h : DistinctChildren g) (s : ℕ) {f : SymbolNode Item → SymbolNode Item}
    (hf : ∀ sn, sn.nodeChildren.Nodup → (f sn).nodeChildren.Nodup) :
    DistinctChildren (g.modifySymbolNode s f) where
  symbols := h.symbols
  lt := by
    intro v t ht
    rw [Gss.length_symbolNodes_modifySymbolNode]
    exact h.lt v t ht
  nodes := by
    intro t
    rw [Gss.symbolNode_modifySymbolNode]
    split_ifs
    · exact hf _ (h.nodes s)
    · exact h.nodes t

theorem createOrReuseNode (h : DistinctChildren g) (cfg : ParserConfig σ Agr Item) (q : ℕ) :
    DistinctChildren (createOrReuseNode cfg g q).2.2 := by
  rw [TomitaParser.createOrReuseNode]
  cases findReusable cfg g q with
  | none => exact h.addStateNode q
  | some v => exact h

end DistinctChildren

section Kept
variable {cfg : ParserConfig σ Agr Item} {p p' : GlrParser σ Item} {symbols : List ℕ}

theorem nodeChildren_addInputItem (weight : Item → ℕ) (item : Item) (sn : SymbolNode Item) :
    (sn.addInputItem weight item).nodeChildren = sn.nodeChildren := by
  rw [SymbolNode.addInputItem]
  split_ifs
  · rfl
  · rfl

theorem enterItem_distinct (h : DistinctChildren p.toGss) (f : FoundReduction) (item : Item)
    (leftPart gotoLine newNode : ℕ) :
    DistinctChildren (enterItem cfg symbols f item leftPart gotoLine newNode p).toGss := by
  simp only [enterItem]
  cases hasPathOfLengthTwo cfg p item newNode f.childNode (f.inputStart p.toGss) with
  | some s =>
    apply h.modifySymbolNode
    intro sn hsn
    show (sn.addInputItem _ item).nodeChildren.Nodup
    rw [nodeChildren_addInputItem]
    exact hsn
  | none =>
    simp only
    split_ifs
    · exact h.addSymbolNode newNode (List.nodup_singleton _)
    · exact h.addSymbolNode newNode (List.nodup_singleton _)

theorem reduceOnePath_distinct (h : DistinctChildren p.toGss) (reduceRule : ℕ) (path : List ℕ) :
    DistinctChildren (reduceOnePath cfg symbols reduceRule path p).toGss := by
  simp only [reduceOnePath]
  split
  · exact h
  · rename_i item heap _
    have hnote : ∀ (leftPart : ℕ) (span : ℕ × ℕ) (q : GlrParser σ Item),
        (noteGroup cfg leftPart span q).toGss = q.toGss := by
      intro leftPart span q
      rw [noteGroup]
      split_ifs
      · rfl
      · rfl
    apply enterItem_distinct
    rw [hnote]
    have hnode := h.createOrReuseNode cfg
    split_ifs
    · exact hnode _
    · exact hnode _

theorem visit_distinct (h : DistinctChildren p.toGss) (reduceRule : ℕ) (path : List ℕ) :
    DistinctChildren (visit cfg symbols reduceRule path p).toGss := by
  rw [visit]
  split_ifs
  · exact reduceOnePath_distinct h reduceRule path
  · exact h

theorem reducer_distinct (h : DistinctChildren p.toGss) (fuel : ℕ) :
    DistinctChildren (reducer cfg fuel symbols p).2.toGss := by
  cases hred : p.pendingReductions with
  | nil =>
    rw [reducer, hred]
    exact h
  | cons red rest =>
    simp only [reducer, hred]
    apply runLoop_post (fun s : GlrParser σ Item × DfsStack => DistinctChildren s.1.toGss)
      (fun _ (s : GlrParser σ Item × DfsStack) => DistinctChildren s.1.toGss)
    · intro s hs
      rw [dfsStep_eq]
      simp only
      split_ifs
      · exact visit_distinct hs red.reduceRule _
      · exact visit_distinct hs red.reduceRule _
    · intro s hs
      exact hs
    · exact h

theorem actor_toGss (symbols : List ℕ) (p : GlrParser σ Item) :
    (actor cfg symbols p).toGss = p.toGss := by
  cases hactive : p.activeNodes with
  | nil => rw [actor, hactive]
  | cons v rest =>
    have he : ActorEffect cfg symbols v { p with activeNodes := rest } (actor cfg symbols p) :=
      actor_effect hactive
    exact he.toGss

theorem closureStep_distinct (h : DistinctChildren p.toGss) (fuel : ℕ) :
    (closureStep cfg fuel symbols p).Spec (fun q => DistinctChildren q.toGss)
      (fun _ q => DistinctChildren q.toGss) := by
  unfold closureStep
  by_cases hdone : (p.activeNodes.isEmpty && p.pendingReductions.isEmpty) = true
  · rw [if_pos hdone]
    exact h
  · rw [if_neg hdone]
    have hrun : DistinctChildren (if p.activeNodes.isEmpty then reducer cfg fuel symbols p
        else (.finished, actor cfg symbols p)).2.toGss := by
      split_ifs
      · exact reducer_distinct h fuel
      · rw [actor_toGss]
        exact h
    generalize (if p.activeNodes.isEmpty then reducer cfg fuel symbols p
        else (.finished, actor cfg symbols p)) = r at hrun ⊢
    dsimp only
    split_ifs
    · exact hrun
    · exact hrun
    · exact hrun

theorem disableSymbolNode_distinct (o : ParserOptions) (canDisable : Bool) (first : ℕ)
    {s : Gss Item × ℕ} (h : DistinctChildren s.1) (n : ℕ) :
    DistinctChildren (disableSymbolNode o canDisable first s n).1 := by
  simp only [disableSymbolNode]
  split_ifs
  · exact h.modifySymbolNode n fun _ hsn => hsn
  · exact h

theorem foldl_disableSymbolNode_distinct (o : ParserOptions) (canDisable : Bool) (first : ℕ)
    (nodes : List ℕ) {s : Gss Item × ℕ} (h : DistinctChildren s.1) :
    DistinctChildren (nodes.foldl (disableSymbolNode o canDisable first) s).1 := by
  induction nodes generalizing s with
  | nil => exact h
  | cons n nodes ih => exact ih (disableSymbolNode_distinct o canDisable first h n)

theorem DistinctChildren.congr {g k : Gss Item} (h : DistinctChildren g)
    (hs : k.stateNodes = g.stateNodes) (hn : k.symbolNodes = g.symbolNodes) :
    DistinctChildren k := by
  have hstate : ∀ v, k.stateNode v = g.stateNode v := by
    intro v
    rw [Gss.stateNode, Gss.stateNode, hs]
  have hsymbol : ∀ s, k.symbolNode s = g.symbolNode s := by
    intro s
    rw [Gss.symbolNode, Gss.symbolNode, hn]
  constructor
  · intro v
    rw [hstate]
    exact h.symbols v
  · intro v s hv
    rw [hstate] at hv
    rw [hn]
    exact h.lt v s hv
  · intro s
    rw [hsymbol]
    exact h.nodes s

theorem clearChildren_distinct {g k : Gss Item} (h : DistinctChildren g) (v : ℕ)
    (hs : k.stateNodes = g.stateNodes.modify v fun n => { n with symbolChildren := [] })
    (hn : k.symbolNodes = g.symbolNodes) : DistinctChildren k := by
  have hnode : ∀ u, (k.stateNode u).symbolChildren = [] ∨
      (k.stateNode u).symbolChildren = (g.stateNode u).symbolChildren := by
    intro u
    rw [Gss.stateNode, Gss.stateNode, hs]
    simp only [List.getD_eq_getElem?_getD, List.getElem?_modify]
    by_cases hu : v = u
    · left
      simp only [if_pos hu]
      cases g.stateNodes[u]? <;> rfl
    · right
      simp only [if_neg hu]
      cases g.stateNodes[u]? <;> rfl
  constructor
  · intro u
    rcases hnode u with heq | heq
    · rw [heq]
      exact List.nodup_nil
    · rw [heq]
      exact h.symbols u
  · intro u s hu
    rw [hn]
    rcases hnode u with heq | heq
    · rw [heq] at hu
      cases hu
    · rw [heq] at hu
      exact h.lt u s hu
  · intro s
    rw [Gss.symbolNode, hn]
    exact h.nodes s

theorem foldl_disableStateNode_distinct (o : ParserOptions) (canDisable : Bool) (first : ℕ)
    (shifts : List PendingShift) {g : Gss Item} (h : DistinctChildren g) :
    DistinctChildren (shifts.foldl (disableStateNode o canDisable first) g) := by
  induction shifts generalizing g with
  | nil => exact h
  | cons shift shifts ih =>
    apply ih
    have hfold := @foldl_disableSymbolNode_distinct Item _ o canDisable first
      (g.stateNode shift.stateNodeNo).symbolChildren.reverse (g, 0) h
    simp only [disableStateNode]
    split_ifs
    · exact clearChildren_distinct hfold shift.stateNodeNo rfl rfl
    · exact hfold

theorem disableWords_distinct (h : DistinctChildren p.toGss) :
    DistinctChildren (disableWordsSrtateNodes cfg p).toGss := by
  rw [disableWordsSrtateNodes]
  exact foldl_disableStateNode_distinct cfg.options _ _ p.pendingShifts h

theorem finishLevel_distinct (h : DistinctChildren p.toGss) (first : ℕ) :
    DistinctChildren (finishLevel cfg first p).toGss := by
  rw [finishLevel]
  generalize hq : p.updateGss (p.setLastLevel p.stateNodes.length) = q
  have hstart : DistinctChildren q.toGss := by
    rw [← hq]
    exact h.congr rfl rfl
  have hpush : ∀ {q' : GlrParser σ Item}, DistinctChildren q'.toGss →
      DistinctChildren (q'.updateGss (q'.pushLevel q'.stateNodes.length)).toGss :=
    fun h' => h'.congr rfl rfl
  by_cases hdisable : q.disableWordsStateNodes = true
  · simp only [if_pos hdisable]
    apply hpush
    apply disableWords_distinct
    exact hstart
  · simp only [if_neg hdisable]
    exact hpush hstart

theorem link_distinct {g : Gss Item} (h : DistinctChildren g) (s v : ℕ) :
    DistinctChildren (g.modifySymbolNode s fun sn =>
      if sn.nodeChildren.contains v then sn
      else { sn with nodeChildren := sn.nodeChildren ++ [v] }) := by
  apply h.modifySymbolNode
  intro sn hsn
  split_ifs with hin
  · exact hsn
  · rw [List.contains_iff_mem] at hin
    rw [List.nodup_append]
    refine ⟨hsn, List.nodup_singleton v, ?_⟩
    intro w hw w' hw' heq
    rw [heq, List.mem_singleton.mp hw'] at hw
    exact hin hw

theorem shiftInto_distinct (h : DistinctChildren p.toGss) (shift : PendingShift) (node : ℕ) :
    DistinctChildren (shiftInto cfg shift node p).toGss := by
  simp only [shiftInto]
  split
  · exact link_distinct h _ _
  · split
    · exact h
    · exact link_distinct (h.addSymbolNode node List.nodup_nil) _ _

theorem shifter_distinct (h : DistinctChildren p.toGss) :
    DistinctChildren (shifter cfg p).toGss := by
  rw [shifter]
  generalize p.pendingShifts = shifts
  have hfold : ∀ (shifts : List PendingShift) (q : GlrParser σ Item),
      DistinctChildren q.toGss → DistinctChildren (shifts.foldl (shiftOne cfg) q).toGss := by
    intro shifts
    induction shifts with
    | nil =>
      intro q hq
      exact hq
    | cons shift shifts ih =>
      intro q hq
      apply ih
      rw [shiftOne]
      split_ifs
      · exact hq
      · exact shiftInto_distinct (hq.createOrReuseNode cfg shift.nextStateNo) shift _
  exact hfold shifts _ h

theorem nextLevel_distinct (h : DistinctChildren p.toGss) (first : ℕ) :
    DistinctChildren (nextLevel cfg first p).2.toGss := by
  have hshift := @shifter_distinct σ Agr Item _ cfg _ (@finishLevel_distinct σ Agr Item _ cfg p h first)
  exact ⟨hshift.symbols, hshift.lt, hshift.nodes⟩

theorem initGlrParser_distinct (p : GlrParser σ Item) :
    DistinctChildren (initGlrParser p).toGss := by
  have hnone : ∀ v, ((initGlrParser p).stateNode v).symbolChildren = [] := by
    intro v
    cases v <;> rfl
  constructor
  · intro v
    rw [hnone]
    exact List.nodup_nil
  · intro v s hs
    rw [hnone] at hs
    cases hs
  · intro s
    exact List.nodup_nil

end Kept

section States
variable {G : WorkGrammar} {C : CollectionSet} {cfg : ParserConfig σ Agr Item}
variable {symbols : List ℕ} {p : GlrParser σ Item}

/-- The words are of no interest here. -/
def anyWord : ℕ → ℕ → Prop := fun _ _ => True

theorem AtLoop.inv (hG : G.WellFormed) (heos : G.isMeta G.getEndOfStreamSymbol = false)
    (hC : Automaton G C) (hT : TableFor G C cfg.table) (h : AtLoop cfg symbols p) :
    ClosureInv G C cfg.table anyWord p ∧ DistinctChildren p.toGss := by
  induction h with
  | first symbols startPoint p =>
    exact ⟨(initGlrParser_idle G C cfg.table anyWord p).startSymbol startPoint,
      initGlrParser_distinct p⟩
  | @turn symbols p p' _ fuel hstep ih =>
    have hrun := @closureStep_closureRun _ _ _ _ _ _ _ _ hG heos hC hT symbols _ ih.1
      (fun _ _ => trivial) fuel
    have hdistinct := @closureStep_distinct σ Agr Item _ cfg p symbols ih.2 fuel
    rw [hstep] at hrun hdistinct
    exact ⟨hrun.inv, hdistinct⟩
  | @nextSymbol symbols p p' _ fuel hstep symbols' startPoint first ih =>
    have hrun := @closureStep_closureRun _ _ _ _ _ _ _ _ hG heos hC hT symbols _ ih.1
      (fun _ _ => trivial) fuel
    have hdistinct := @closureStep_distinct σ Agr Item _ cfg p symbols ih.2 fuel
    rw [hstep] at hrun hdistinct
    have hnext := (nextLevel_spec hC hrun.1.inv (hrun.2 rfl) first).1
    exact ⟨hnext.startSymbol startPoint, nextLevel_distinct hdistinct first⟩

end States

theorem DistinctChildren.childrenOf {g : Gss Item} (h : DistinctChildren g) (path : List ℕ) :
    (childrenOf g path).Nodup := by
  rw [TomitaParser.childrenOf, nodesBelow]
  split_ifs
  · exact h.nodes _
  · exact h.symbols _

section Paths
variable {G : WorkGrammar} {C : CollectionSet} {W : ℕ → ℕ → Prop}
variable {cfg : ParserConfig σ Agr Item} {symbols : List ℕ} {p₀ p : GlrParser σ Item}
variable {red : PendingReduction} {R : WorkRule}

/-- The alternating paths a reduction is about: as long as the rule, and beginning with the state
node and the symbol node of the reduction. -/
structure RulePath (g : Gss Item) (red : PendingReduction) (ruleLength : ℕ) (path : List ℕ) :
    Prop where
  trail : Trail g red.lastStateNodeNo true path
  length : path.length = 2 * ruleLength + 1
  begins : [red.symbolNodeNo, red.lastStateNodeNo] <:+ path

theorem rulePath_iff {g : Gss Item} {ruleLength : ℕ} {path : List ℕ}
    (hchild : red.symbolNodeNo ∈ (g.stateNode red.lastStateNodeNo).symbolChildren) :
    RulePath g red ruleLength path ↔
      PathSearch.Extends (childrenOf g) [red.symbolNodeNo, red.lastStateNodeNo] path ∧
        path.length = 2 * ruleLength + 1 := by
  constructor
  · intro h
    exact ⟨h.trail.extends_of_suffix h.begins (List.cons_ne_nil _ _), h.length⟩
  · intro h
    obtain ⟨b, ht⟩ := (Trail.symbol Trail.base hchild).extends h.1
    have hmod := ht.length_mod
    rw [h.2] at hmod
    cases b with
    | true => exact ⟨ht, h.2, h.1.suffix⟩
    | false =>
      rw [Bool.toNat_false] at hmod
      omega

theorem Searching.rulePath_iff (h₀ : GssInv G C cfg.table W p₀.toGss)
    (hp : Searching G C W cfg symbols p₀ p)
    (hchild : red.symbolNodeNo ∈ (p₀.stateNode red.lastStateNodeNo).symbolChildren)
    (ruleLength : ℕ) (path : List ℕ) :
    RulePath p.toGss red ruleLength path ↔ RulePath p₀.toGss red ruleLength path := by
  constructor
  · intro h
    rw [TomitaParser.rulePath_iff hchild]
    refine ⟨?_, h.length⟩
    apply @PathSearch.Extends.congr _ _ _ _ (childrenOf p.toGss)
    · intro q hq
      obtain ⟨b, ht⟩ := (Trail.symbol Trail.base hchild).extends hq
      have hlen := hq.suffix.length_le
      cases ht with
      | base =>
        simp only [List.length_cons, List.length_nil] at hlen
        omega
      | symbol below hs =>
        exact (Trail.symbol below hs).frozen h₀ hp.effect hp.inv.gss
      | @state s w rest below hw =>
        exact (Trail.state below hw).frozen h₀ hp.effect hp.inv.gss
    · exact h.trail.extends_of_suffix h.begins (List.cons_ne_nil _ _)
  · intro h
    exact ⟨h.trail.ext h₀ hp.effect.ext, h.length, h.begins⟩

theorem reducerPaths_spec (hG : G.WellFormed) (heos : G.isMeta G.getEndOfStreamSymbol = false)
    (hC : Automaton G C) (hT : TableFor G C cfg.table) (hp : ClosureInv G C cfg.table W p)
    (hdistinct : DistinctChildren p.toGss) {rest : List PendingReduction}
    (hred : p.pendingReductions = red :: rest) :
    ∃ N, ∀ fuel, N ≤ fuel → (reducer cfg fuel symbols p).1 = .finished ∧
      (reducerPaths cfg fuel symbols p).Nodup ∧
      ∀ path, path ∈ reducerPaths cfg fuel symbols p ↔
        RulePath p.toGss red (cfg.table.ruleInfo red.reduceRule).ruleLength path := by
  obtain ⟨R, hR⟩ := hp.reductions red (by rw [hred]; exact List.mem_cons_self)
  obtain ⟨N, found, hrun, hnodup, hfound⟩ := @reducer_visits _ _ _ _ _ _ _ _ symbols _ _ _ hG heos
    hC hT hp _ hred hR
  refine ⟨N, ?_⟩
  intro fuel hfuel
  obtain ⟨hfinished, hpaths⟩ := hrun fuel hfuel
  rw [hpaths]
  refine ⟨hfinished, hnodup hdistinct.childrenOf, ?_⟩
  intro path
  rw [hfound, rulePath_iff hR.child]

end Paths

/-- In every state the parser can reach, the reducer calls `ReduceOnePath` once for every path of the
rule from the nodes of the reduction, and for nothing else. The paths are the same before and after,
although the stack grows. -/
theorem reducer_reduces_rulePaths (G : EncodedGrammar) (agreements : List (List Agr))
    (factory : InputItemFactory σ Agr Item) (options : ParserOptions) (symbols : List ℕ)
    (p : GlrParser σ Item) (red : PendingReduction) (rest : List PendingReduction)
    (h : AtLoop (G.parserConfig agreements factory options) symbols p)
    (hred : p.pendingReductions = red :: rest) :
    let cfg := G.parserConfig agreements factory options
    let ruleLength := (cfg.table.ruleInfo red.reduceRule).ruleLength
    ∃ N, ∀ fuel, N ≤ fuel →
      let r := reducer cfg fuel symbols p
      let paths := reducerPaths cfg fuel symbols p
      r.1 = .finished ∧
        r.2 = paths.foldl (fun q path => reduceOnePath cfg symbols red.reduceRule path q)
          { p with pendingReductions := rest } ∧
        paths.Nodup ∧
        ∀ path, (path ∈ paths ↔ RulePath p.toGss red ruleLength path) ∧
          (RulePath r.2.toGss red ruleLength path ↔ RulePath p.toGss red ruleLength path) := by
  intro cfg ruleLength
  have hG := G.augmentedGrammar_wellFormed
  have heos := G.augmentedGrammar_augmented.endOfStream_terminal
  have hC := computeCollection_automaton hG.toNumbered
  have hT := G.parserConfig_tableFor agreements factory options
  obtain ⟨hinv, hdistinct⟩ := h.inv hG heos hC hT
  obtain ⟨R, hR⟩ := hinv.reductions red (by rw [hred]; exact List.mem_cons_self)
  obtain ⟨N, hN⟩ := reducerPaths_spec hG heos hC hT hinv hdistinct hred
  refine ⟨N, ?_⟩
  intro fuel hfuel r paths
  obtain ⟨hfinished, hnodup, hpaths⟩ := hN fuel hfuel
  refine ⟨hfinished, reducerPaths_foldl hred fuel, hnodup, ?_⟩
  intro path
  have hsearch : Searching _ _ anyWord cfg symbols { p with pendingReductions := rest } r.2 :=
    reducer_searching hG heos hC hT hinv hred fuel
  have hstart : Searching _ _ anyWord cfg symbols { p with pendingReductions := rest }
    { p with pendingReductions := rest } := searching_start hinv hred
  exact ⟨hpaths path, hsearch.rulePath_iff hstart.inv.gss hR.child ruleLength path⟩

/-- The parser after the word `a`, with its reduction to `S` pending. -/
def reductionPending : GlrParser Unit Unit := actor synAnConfig [2] (startSymbol false wordShifted)

theorem reducer_reduces_rulePaths_word :
    let ruleLength := (synAnConfig.table.ruleInfo 0).ruleLength
    ∃ N, ∀ fuel, N ≤ fuel →
      let r := reducer synAnConfig fuel [2] reductionPending
      let paths := reducerPaths synAnConfig fuel [2] reductionPending
      r.1 = .finished ∧
        r.2 = paths.foldl (fun q path => reduceOnePath synAnConfig [2] 0 path q)
          { reductionPending with pendingReductions := [] } ∧
        paths.Nodup ∧
        ∀ path, (path ∈ paths ↔ RulePath reductionPending.toGss ⟨0, 1, 0⟩ ruleLength path) ∧
          (RulePath r.2.toGss ⟨0, 1, 0⟩ ruleLength path ↔
            RulePath reductionPending.toGss ⟨0, 1, 0⟩ ruleLength path) := by
  have hfirst : AtLoop synAnConfig [1, 2] (startSymbol true (initGlrParser (newGlrParser ()))) :=
    AtLoop.first [1, 2] true (newGlrParser ())
  have hshift := hfirst.turn 3 (show closureStep synAnConfig 3 [1, 2] _ = .next _ from rfl)
  have hnext := hshift.nextSymbol 3
    (show closureStep synAnConfig 3 [1, 2] _ = .exit .finished _ from rfl) [2] false 1
  have hword := hnext.turn 3 (show closureStep synAnConfig 3 [2] _ = .next _ from rfl)
  exact reducer_reduces_rulePaths selfRule [[()], [()], []] acceptAllFactory
    { synAnOptions := true, breakAfterMaxSymbolNodesCount := false, wordTerminal := 1
      groupNonTerminal := 0 } [2] reductionPending ⟨0, 1, 0⟩ [] hword rfl

end TomitaParser
