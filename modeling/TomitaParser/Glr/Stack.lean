import TomitaParser.Glr.Parser
/-! # The invariant of the graph-structured stack -/

set_option linter.unusedSectionVars false

namespace TomitaParser
open Cfg

namespace Gss
variable {Item : Type*} [Inhabited Item] (g : Gss Item)

/-- The position the parser is at. -/
def current : ℕ := g.inputLevels.length - 1

/-- The position a state node was made at, counted by the borders before it. -/
def position (v : ℕ) : ℕ := g.inputLevels.dropLast.countP (· ≤ v)

/-- The symbol nodes cover the input from `i` to `j` one after the other. -/
def Tiles : ℕ → List ℕ → ℕ → Prop
  | i, [], j => i = j
  | i, s :: rest, j => (g.symbolNode s).inputStart = i ∧ Tiles (g.symbolNode s).inputEnd rest j

theorem stateNode_of_le {v : ℕ} (h : g.stateNodes.length ≤ v) : g.stateNode v = {} :=
  List.getD_eq_default _ _ h

theorem lt_of_mem_symbolChildren {v s : ℕ} (h : s ∈ (g.stateNode v).symbolChildren) :
    v < g.stateNodes.length := by
  by_contra hv
  rw [g.stateNode_of_le (not_lt.mp hv)] at h
  exact absurd h List.not_mem_nil

theorem stateNode_addStateNode (q v : ℕ) :
    (g.addStateNode q).stateNode v =
      if v = g.stateNodes.length then { stateNo := q } else g.stateNode v := by
  simp only [stateNode, addStateNode]
  rcases lt_trichotomy v g.stateNodes.length with h | h | h
  · rw [List.getD_append _ _ _ _ h, if_neg (by omega)]
  · subst h
    simp
  · rw [List.getD_eq_default _ _ (by simp; omega), if_neg (by omega),
      List.getD_eq_default _ _ (by omega)]

@[simp] theorem symbolNode_addStateNode (q s : ℕ) :
    (g.addStateNode q).symbolNode s = g.symbolNode s := rfl

@[simp] theorem length_stateNodes_addStateNode (q : ℕ) :
    (g.addStateNode q).stateNodes.length = g.stateNodes.length + 1 := by simp [addStateNode]

theorem stateNode_addSymbolNode (v : ℕ) (sn : SymbolNode Item) (u : ℕ) :
    (g.addSymbolNode v sn).stateNode u =
      if u = v ∧ v < g.stateNodes.length then
        { g.stateNode v with
          symbolChildren := (g.stateNode v).symbolChildren ++ [g.symbolNodes.length] }
      else g.stateNode u := by
  simp only [stateNode, addSymbolNode, List.getD_eq_getElem?_getD, List.getElem?_modify]
  by_cases h : v = u
  · subst h
    by_cases hlt : v < g.stateNodes.length
    · simp [hlt]
    · simp [hlt]
  · simp [h, Ne.symm h]

theorem symbolNode_addSymbolNode (v : ℕ) (sn : SymbolNode Item) (s : ℕ) :
    (g.addSymbolNode v sn).symbolNode s =
      if s = g.symbolNodes.length then sn else g.symbolNode s := by
  simp only [symbolNode, addSymbolNode]
  rcases lt_trichotomy s g.symbolNodes.length with h | h | h
  · rw [List.getD_append _ _ _ _ h, if_neg (by omega)]
  · subst h
    simp
  · rw [List.getD_eq_default _ _ (by simp; omega), if_neg (by omega),
      List.getD_eq_default _ _ (by omega)]

@[simp] theorem length_symbolNodes_addSymbolNode (v : ℕ) (sn : SymbolNode Item) :
    (g.addSymbolNode v sn).symbolNodes.length = g.symbolNodes.length + 1 := by
  simp [addSymbolNode]

@[simp] theorem length_stateNodes_addSymbolNode (v : ℕ) (sn : SymbolNode Item) :
    (g.addSymbolNode v sn).stateNodes.length = g.stateNodes.length := by
  simp [addSymbolNode]

theorem symbolNode_modifySymbolNode (s : ℕ) (f : SymbolNode Item → SymbolNode Item) (t : ℕ) :
    (g.modifySymbolNode s f).symbolNode t =
      if t = s ∧ s < g.symbolNodes.length then f (g.symbolNode s) else g.symbolNode t := by
  simp only [symbolNode, modifySymbolNode, List.getD_eq_getElem?_getD, List.getElem?_modify]
  by_cases h : s = t
  · subst h
    by_cases hlt : s < g.symbolNodes.length
    · simp [hlt]
    · simp [hlt]
  · simp [h, Ne.symm h]

@[simp] theorem stateNode_modifySymbolNode (s : ℕ) (f : SymbolNode Item → SymbolNode Item)
    (v : ℕ) : (g.modifySymbolNode s f).stateNode v = g.stateNode v := rfl

@[simp] theorem length_symbolNodes_modifySymbolNode (s : ℕ)
    (f : SymbolNode Item → SymbolNode Item) :
    (g.modifySymbolNode s f).symbolNodes.length = g.symbolNodes.length := by
  simp [modifySymbolNode]

/-- Nodes keep their numbers, states, symbols and spans; edges are only added. -/
structure Ext (g h : Gss Item) : Prop where
  levels : h.inputLevels = g.inputLevels
  states : g.stateNodes.length ≤ h.stateNodes.length
  stateNo : ∀ v, v < g.stateNodes.length → (h.stateNode v).stateNo = (g.stateNode v).stateNo
  symbols : g.symbolNodes.length ≤ h.symbolNodes.length
  symbolNo : ∀ s, s < g.symbolNodes.length → (h.symbolNode s).symbolNo = (g.symbolNode s).symbolNo
  inputStart : ∀ s, s < g.symbolNodes.length →
    (h.symbolNode s).inputStart = (g.symbolNode s).inputStart
  inputEnd : ∀ s, s < g.symbolNodes.length → (h.symbolNode s).inputEnd = (g.symbolNode s).inputEnd
  symbolChildren : ∀ v, v < g.stateNodes.length →
    ∀ s ∈ (g.stateNode v).symbolChildren, s ∈ (h.stateNode v).symbolChildren
  nodeChildren : ∀ s, s < g.symbolNodes.length →
    ∀ w ∈ (g.symbolNode s).nodeChildren, w ∈ (h.symbolNode s).nodeChildren

variable {g} {h k : Gss Item}

theorem Ext.refl (g : Gss Item) : Ext g g :=
  ⟨rfl, le_refl _, fun _ _ => rfl, le_refl _, fun _ _ => rfl, fun _ _ => rfl, fun _ _ => rfl,
    fun _ _ _ hs => hs, fun _ _ _ hw => hw⟩

theorem Ext.trans (h₁ : Ext g h) (h₂ : Ext h k) : Ext g k where
  levels := h₂.levels.trans h₁.levels
  states := h₁.states.trans h₂.states
  stateNo v hv := (h₂.stateNo v (hv.trans_le h₁.states)).trans (h₁.stateNo v hv)
  symbols := h₁.symbols.trans h₂.symbols
  symbolNo s hs := (h₂.symbolNo s (hs.trans_le h₁.symbols)).trans (h₁.symbolNo s hs)
  inputStart s hs := (h₂.inputStart s (hs.trans_le h₁.symbols)).trans (h₁.inputStart s hs)
  inputEnd s hs := (h₂.inputEnd s (hs.trans_le h₁.symbols)).trans (h₁.inputEnd s hs)
  symbolChildren v hv s hs :=
    h₂.symbolChildren v (hv.trans_le h₁.states) s (h₁.symbolChildren v hv s hs)
  nodeChildren s hs w hw := h₂.nodeChildren s (hs.trans_le h₁.symbols) w (h₁.nodeChildren s hs w hw)

theorem Ext.position (he : Ext g h) (v : ℕ) : h.position v = g.position v := by
  rw [Gss.position, he.levels, Gss.position]

theorem Ext.current (he : Ext g h) : h.current = g.current := by
  rw [Gss.current, he.levels, Gss.current]

theorem ext_addStateNode (g : Gss Item) (q : ℕ) : Ext g (g.addStateNode q) where
  levels := rfl
  states := by simp
  stateNo v hv := by rw [stateNode_addStateNode, if_neg (by omega)]
  symbols := le_refl _
  symbolNo _ _ := rfl
  inputStart _ _ := rfl
  inputEnd _ _ := rfl
  symbolChildren v hv s hs := by rwa [stateNode_addStateNode, if_neg (by omega)]
  nodeChildren _ _ _ hw := hw

theorem ext_addSymbolNode (g : Gss Item) (v : ℕ) (sn : SymbolNode Item) :
    Ext g (g.addSymbolNode v sn) where
  levels := rfl
  states := by simp
  stateNo u _ := by
    rw [stateNode_addSymbolNode]
    split_ifs with h
    · rw [h.1]
    · rfl
  symbols := by simp
  symbolNo s hs := by rw [symbolNode_addSymbolNode, if_neg (by omega)]
  inputStart s hs := by rw [symbolNode_addSymbolNode, if_neg (by omega)]
  inputEnd s hs := by rw [symbolNode_addSymbolNode, if_neg (by omega)]
  symbolChildren u _ s hs := by
    rw [stateNode_addSymbolNode]
    split_ifs with h
    · rw [h.1] at hs
      exact List.mem_append_left _ hs
    · exact hs
  nodeChildren s hs w hw := by rwa [symbolNode_addSymbolNode, if_neg (by omega)]

/-- An update of a symbol node that keeps its symbol and span and drops no child. -/
structure KeepsSpan (f : SymbolNode Item → SymbolNode Item) : Prop where
  symbolNo : ∀ sn, (f sn).symbolNo = sn.symbolNo
  inputStart : ∀ sn, (f sn).inputStart = sn.inputStart
  inputEnd : ∀ sn, (f sn).inputEnd = sn.inputEnd
  nodeChildren : ∀ sn, ∀ w ∈ sn.nodeChildren, w ∈ (f sn).nodeChildren

theorem ext_modifySymbolNode (g : Gss Item) (s : ℕ) {f : SymbolNode Item → SymbolNode Item}
    (hf : KeepsSpan f) : Ext g (g.modifySymbolNode s f) where
  levels := rfl
  states := le_refl _
  stateNo _ _ := rfl
  symbols := by simp
  symbolNo t _ := by
    rw [symbolNode_modifySymbolNode]
    split_ifs with h
    · rw [hf.symbolNo, h.1]
    · rfl
  inputStart t _ := by
    rw [symbolNode_modifySymbolNode]
    split_ifs with h
    · rw [hf.inputStart, h.1]
    · rfl
  inputEnd t _ := by
    rw [symbolNode_modifySymbolNode]
    split_ifs with h
    · rw [hf.inputEnd, h.1]
    · rfl
  symbolChildren _ _ _ hs := hs
  nodeChildren t _ w hw := by
    rw [symbolNode_modifySymbolNode]
    split_ifs with h
    · rw [h.1] at hw
      exact hf.nodeChildren _ w hw
    · exact hw

theorem Tiles.of_spans {items : List ℕ} {i j : ℕ} (ht : g.Tiles i items j)
    (hstart : ∀ s ∈ items, (h.symbolNode s).inputStart = (g.symbolNode s).inputStart)
    (hend : ∀ s ∈ items, (h.symbolNode s).inputEnd = (g.symbolNode s).inputEnd) :
    h.Tiles i items j := by
  induction items generalizing i with
  | nil => exact ht
  | cons s items ih =>
    obtain ⟨hs, ht⟩ := ht
    refine ⟨(hstart s List.mem_cons_self).trans hs, ?_⟩
    rw [hend s List.mem_cons_self]
    exact ih ht (fun t h => hstart t (List.mem_cons_of_mem s h))
      (fun t h => hend t (List.mem_cons_of_mem s h))

end Gss

section Invariant
variable {Item Agr : Type*} [Inhabited Item]
variable (G : WorkGrammar) (C : CollectionSet) (T : GlrTable Agr) (W : ℕ → ℕ → Prop)

/-- `r` is the table's number of the rule `R`, which is not the one of the new root. -/
structure ReduceRule (r : ℕ) (R : WorkRule) : Prop where
  mem : R ∈ G.encodedRules
  left : R.leftPart ≠ G.getNewRoot
  no : r = getRuleInfo T.ruleInfos R

/-- One entry of the parse children: a rule for the symbol, its right part spelled by the children,
and the children tiling the node's interval. -/
structure ParseOk (g : Gss Item) (sn : SymbolNode Item) (pc : ParsingChildrenSet) : Prop where
  items_lt : ∀ s ∈ pc.items, s < g.symbolNodes.length
  rule : ∃ R, ReduceRule G T pc.reduceRule R ∧ R.leftPart = sn.symbolNo ∧
    pc.items.map (fun s => (g.symbolNode s).symbolNo) = R.rightPart.items
  tiles : g.Tiles sn.inputStart pc.items sn.inputEnd

/-- A symbol node: a leaf on a symbol of its one position, or the root of derivations. -/
structure SymbolOk (g : Gss Item) (sn : SymbolNode Item) : Prop where
  start_lt : sn.inputStart < sn.inputEnd
  end_le : sn.inputEnd ≤ g.current
  leaf : sn.parseChildren = [] → sn.inputEnd = sn.inputStart + 1 ∧ W sn.inputStart sn.symbolNo
  parse : ∀ pc ∈ sn.parseChildren, ParseOk G T g sn pc
  spans : Spans G.InnerProduction W [sn.symbolNo] sn.inputStart sn.inputEnd

/-- The symbol node `sn` leads from the state node `v` down to `w` as the goto function says. -/
structure EdgeOk (g : Gss Item) (v : ℕ) (sn : SymbolNode Item) (w : ℕ) : Prop where
  lt : w < g.stateNodes.length
  goto : C.getGotoValue sn.symbolNo (g.stateNode w).stateNo = some (g.stateNode v).stateNo
  position : w = 0 ∨ g.position w = sn.inputStart

/-- The invariant of the stack, between any two updates. -/
structure GssInv (g : Gss Item) : Prop where
  nonempty : 0 < g.stateNodes.length
  nodeZero : g.stateNode 0 = {}
  levels_ne : g.inputLevels ≠ []
  levels_pos : ∀ l ∈ g.inputLevels, 0 < l
  levels_sorted : g.inputLevels.Pairwise (· ≤ ·)
  last_le : g.lastLevel ≤ g.stateNodes.length
  symbol_lt : ∀ v, ∀ s ∈ (g.stateNode v).symbolChildren, s < g.symbolNodes.length
  inputEnd : ∀ v, ∀ s ∈ (g.stateNode v).symbolChildren,
    (g.symbolNode s).inputEnd = g.position v
  edge : ∀ v, ∀ s ∈ (g.stateNode v).symbolChildren, ∀ w ∈ (g.symbolNode s).nodeChildren,
    EdgeOk C g v (g.symbolNode s) w
  owner : ∀ v v', ∀ s ∈ (g.stateNode v).symbolChildren, s ∈ (g.stateNode v').symbolChildren →
    v = v'
  symbol : ∀ s, s < g.symbolNodes.length → SymbolOk G T W g (g.symbolNode s)

variable {G C T W} {g h : Gss Item}

theorem ParseOk.ext {sn : SymbolNode Item} {pc : ParsingChildrenSet} (hp : ParseOk G T g sn pc)
    (he : Gss.Ext g h) : ParseOk G T h sn pc := by
  obtain ⟨R, hR, hleft, hitems⟩ := hp.rule
  refine ⟨fun s hs => (hp.items_lt s hs).trans_le he.symbols, ⟨R, hR, hleft, ?_⟩, ?_⟩
  · rw [← hitems]
    exact List.map_congr_left fun s hs => he.symbolNo s (hp.items_lt s hs)
  · exact hp.tiles.of_spans (fun s hs => he.inputStart s (hp.items_lt s hs))
      (fun s hs => he.inputEnd s (hp.items_lt s hs))

theorem SymbolOk.ext {sn : SymbolNode Item} (hs : SymbolOk G T W g sn) (he : Gss.Ext g h) :
    SymbolOk G T W h sn :=
  ⟨hs.start_lt, by rw [he.current]; exact hs.end_le, hs.leaf, fun pc hpc =>
    (hs.parse pc hpc).ext he,
    hs.spans⟩

theorem EdgeOk.ext {v w : ℕ} {sn : SymbolNode Item} (h₁ : EdgeOk C g v sn w) (he : Gss.Ext g h)
    (hv : v < g.stateNodes.length) : EdgeOk C h v sn w := by
  refine ⟨h₁.lt.trans_le he.states, ?_, ?_⟩
  · rw [he.stateNo w h₁.lt, he.stateNo v hv]
    exact h₁.goto
  · rw [he.position]
    exact h₁.position

theorem GssInv.levels_le (hg : GssInv G C T W g) : ∀ l ∈ g.inputLevels.dropLast,
    l ≤ g.lastLevel := by
  intro l hl
  have hsorted := hg.levels_sorted
  have hne := hg.levels_ne
  rw [← List.dropLast_append_getLast hne] at hsorted
  have := (List.pairwise_append.mp hsorted).2.2 l hl _ (List.mem_singleton_self _)
  rwa [Gss.lastLevel, List.getLastD_eq_getLast?, List.getLast?_eq_some_getLast hne]

theorem GssInv.levels_position (hg : GssInv G C T W g) {v : ℕ} (hv : g.lastLevel ≤ v) :
    g.position v = g.current := by
  rw [Gss.position, Gss.current, ← List.length_dropLast, List.countP_eq_length]
  intro l hl
  simpa using (hg.levels_le l hl).trans hv

theorem GssInv.position_le (g : Gss Item) (v : ℕ) : g.position v ≤ g.current := by
  rw [Gss.position, Gss.current, ← List.length_dropLast]
  exact List.countP_le_length

theorem GssInv.position_zero (hg : GssInv G C T W g) : g.position 0 = 0 := by
  rw [Gss.position, List.countP_eq_zero]
  intro l hl
  have := hg.levels_pos l (List.mem_of_mem_dropLast hl)
  simpa using Nat.ne_of_gt this

theorem GssInv.ne_zero (hg : GssInv G C T W g) {v s : ℕ}
    (hs : s ∈ (g.stateNode v).symbolChildren) : v ≠ 0 := by
  rintro rfl
  rw [hg.nodeZero] at hs
  exact absurd hs List.not_mem_nil

theorem GssInv.addStateNode (hg : GssInv G C T W g) (q : ℕ) :
    GssInv G C T W (g.addStateNode q) := by
  have he := Gss.ext_addStateNode g q
  have hnode : ∀ v, ∀ s ∈ ((g.addStateNode q).stateNode v).symbolChildren,
      s ∈ (g.stateNode v).symbolChildren := by
    intro v s hs
    rw [Gss.stateNode_addStateNode] at hs
    split_ifs at hs
    · exact absurd hs List.not_mem_nil
    · exact hs
  refine ⟨?_, ?_, hg.levels_ne, hg.levels_pos, hg.levels_sorted, ?_, ?_, ?_, ?_, ?_, ?_⟩
  · have := hg.nonempty
    simp
  · rw [Gss.stateNode_addStateNode, if_neg (by have := hg.nonempty; omega)]
    exact hg.nodeZero
  · have := hg.last_le
    simp only [Gss.length_stateNodes_addStateNode]
    exact le_trans this (Nat.le_succ _)
  · exact fun v s hs => hg.symbol_lt v s (hnode v s hs)
  · exact fun v s hs => hg.inputEnd v s (hnode v s hs)
  · intro v s hs w hw
    have hs' := hnode v s hs
    exact (hg.edge v s hs' w hw).ext he (g.lt_of_mem_symbolChildren hs')
  · exact fun v v' s hs hs' => hg.owner v v' s (hnode v s hs) (hnode v' s hs')
  · exact fun s hs => (hg.symbol s hs).ext he

theorem GssInv.addSymbolNode (hg : GssInv G C T W g) {v : ℕ} {sn : SymbolNode Item} (hv0 : v ≠ 0)
    (hv : v < g.stateNodes.length) (hend : sn.inputEnd = g.position v)
    (hedge : ∀ w ∈ sn.nodeChildren, EdgeOk C g v sn w) (hsn : SymbolOk G T W g sn) :
    GssInv G C T W (g.addSymbolNode v sn) := by
  have he := Gss.ext_addSymbolNode g v sn
  -- a child is an old one, or the new node under `v`
  have hnode : ∀ u, ∀ s ∈ ((g.addSymbolNode v sn).stateNode u).symbolChildren,
      (s < g.symbolNodes.length ∧ s ∈ (g.stateNode u).symbolChildren) ∨
        (s = g.symbolNodes.length ∧ u = v) := by
    intro u s hs
    rw [Gss.stateNode_addSymbolNode] at hs
    split_ifs at hs with h
    · rcases List.mem_append.mp hs with hs | hs
      · exact Or.inl ⟨hg.symbol_lt v s hs, h.1 ▸ hs⟩
      · exact Or.inr ⟨List.mem_singleton.mp hs, h.1⟩
    · exact Or.inl ⟨hg.symbol_lt u s hs, hs⟩
  have hold : ∀ s, s < g.symbolNodes.length →
      (g.addSymbolNode v sn).symbolNode s = g.symbolNode s := by
    intro s hs
    rw [Gss.symbolNode_addSymbolNode, if_neg (by omega)]
  have hnew : (g.addSymbolNode v sn).symbolNode g.symbolNodes.length = sn := by
    rw [Gss.symbolNode_addSymbolNode, if_pos rfl]
  refine ⟨?_, ?_, hg.levels_ne, hg.levels_pos, hg.levels_sorted, ?_, ?_, ?_, ?_, ?_, ?_⟩
  · simpa using hg.nonempty
  · rw [Gss.stateNode_addSymbolNode, if_neg (fun h => hv0 h.1.symm)]
    exact hg.nodeZero
  · rw [Gss.length_stateNodes_addSymbolNode]
    exact hg.last_le
  · intro u s hs
    rw [Gss.length_symbolNodes_addSymbolNode]
    rcases hnode u s hs with ⟨hlt, _⟩ | ⟨rfl, _⟩ <;> omega
  · intro u s hs
    rw [he.position]
    rcases hnode u s hs with ⟨hlt, hs'⟩ | ⟨rfl, rfl⟩
    · rw [hold s hlt]
      exact hg.inputEnd u s hs'
    · rw [hnew]
      exact hend
  · intro u s hs w hw
    rcases hnode u s hs with ⟨hlt, hs'⟩ | ⟨rfl, rfl⟩
    · rw [hold s hlt] at hw ⊢
      exact (hg.edge u s hs' w hw).ext he (g.lt_of_mem_symbolChildren hs')
    · rw [hnew] at hw ⊢
      exact (hedge w hw).ext he hv
  · intro u u' s hs hs'
    rcases hnode u s hs with ⟨hlt, h₁⟩ | ⟨rfl, rfl⟩
    · rcases hnode u' s hs' with ⟨_, h₂⟩ | ⟨rfl, _⟩
      · exact hg.owner u u' s h₁ h₂
      · omega
    · rcases hnode u' _ hs' with ⟨hlt, _⟩ | ⟨_, rfl⟩
      · omega
      · rfl
  · intro s hs
    rw [Gss.length_symbolNodes_addSymbolNode] at hs
    rcases Nat.lt_succ_iff_lt_or_eq.mp hs with hs | rfl
    · rw [hold s hs]
      exact (hg.symbol s hs).ext he
    · rw [hnew]
      exact hsn.ext he

theorem GssInv.modifySymbolNode (hg : GssInv G C T W g) {s : ℕ}
    {f : SymbolNode Item → SymbolNode Item} (hf : Gss.KeepsSpan f)
    (hedge : ∀ v, s ∈ (g.stateNode v).symbolChildren →
      ∀ w ∈ (f (g.symbolNode s)).nodeChildren, w ∉ (g.symbolNode s).nodeChildren →
        EdgeOk C g v (g.symbolNode s) w)
    (hleaf : (f (g.symbolNode s)).parseChildren = [] → (g.symbolNode s).parseChildren = [])
    (hparse : s < g.symbolNodes.length → ∀ pc ∈ (f (g.symbolNode s)).parseChildren,
      pc ∉ (g.symbolNode s).parseChildren → ParseOk G T g (g.symbolNode s) pc) :
    GssInv G C T W (g.modifySymbolNode s f) := by
  have he := Gss.ext_modifySymbolNode g s hf
  have hEdge : ∀ {v w : ℕ} {sn : SymbolNode Item}, EdgeOk C g v sn w → EdgeOk C g v (f sn) w := by
    intro v w sn h
    exact ⟨h.lt, by rw [hf.symbolNo]; exact h.goto, by rw [hf.inputStart]; exact h.position⟩
  have hParse : ∀ {sn : SymbolNode Item} {pc : ParsingChildrenSet}, ParseOk G T g sn pc →
      ParseOk G T g (f sn) pc := by
    intro sn pc h
    refine ⟨h.items_lt, ?_, ?_⟩
    · rw [hf.symbolNo]
      exact h.rule
    · rw [hf.inputStart, hf.inputEnd]
      exact h.tiles
  refine ⟨hg.nonempty, hg.nodeZero, hg.levels_ne, hg.levels_pos, hg.levels_sorted, hg.last_le,
    ?_, ?_, ?_, hg.owner, ?_⟩
  · intro v t ht
    rw [Gss.length_symbolNodes_modifySymbolNode]
    exact hg.symbol_lt v t ht
  · intro v t ht
    rw [he.inputEnd t (hg.symbol_lt v t ht), he.position]
    exact hg.inputEnd v t ht
  · intro v t ht w hw
    refine EdgeOk.ext ?_ he (g.lt_of_mem_symbolChildren ht)
    rw [Gss.symbolNode_modifySymbolNode] at hw ⊢
    split_ifs at hw ⊢ with h
    · rw [h.1] at ht
      refine hEdge ?_
      by_cases hw' : w ∈ (g.symbolNode s).nodeChildren
      · exact hg.edge v s ht w hw'
      · exact hedge v ht w hw hw'
    · exact hg.edge v t ht w hw
  · intro t ht
    rw [Gss.length_symbolNodes_modifySymbolNode] at ht
    refine SymbolOk.ext ?_ he
    rw [Gss.symbolNode_modifySymbolNode]
    split_ifs with h
    · have hs := hg.symbol s h.2
      refine ⟨?_, ?_, ?_, ?_, ?_⟩
      · rw [hf.inputStart, hf.inputEnd]
        exact hs.start_lt
      · rw [hf.inputEnd]
        exact hs.end_le
      · intro hnil
        rw [hf.inputStart, hf.inputEnd, hf.symbolNo]
        exact hs.leaf (hleaf hnil)
      · intro pc hpc
        refine hParse ?_
        by_cases hpc' : pc ∈ (g.symbolNode s).parseChildren
        · exact hs.parse pc hpc'
        · exact hparse h.2 pc hpc hpc'
      · rw [hf.inputStart, hf.inputEnd, hf.symbolNo]
        exact hs.spans
    · exact hg.symbol t ht

end Invariant
end TomitaParser
