import TomitaParser.Glr.Soundness
/-! # What later steps leave as it is

Once the parser has passed a position, the paths from its state nodes stay the same. -/

set_option linter.unusedSectionVars false

namespace TomitaParser
open OrderedSet LoopRun Cfg

variable {σ Agr Item : Type*} [Inhabited Item]
variable {G : WorkGrammar} {C : CollectionSet} {T : GlrTable Agr} {W : ℕ → ℕ → Prop}
variable {g h k : Gss Item}

private theorem Trail.reach {Reach : ℕ → Prop} {v : ℕ} (hv : Reach v)
    (hdown : ∀ u s w, Reach u → s ∈ (g.stateNode u).symbolChildren →
      w ∈ (g.symbolNode s).nodeChildren → Reach w) {path : List ℕ}
    (ht : Trail g v true path) : Reach (path.headD 0) := by
  induction hn : path.length using Nat.strong_induction_on generalizing path with
  | _ n ih =>
    rcases ht.double_cases with rfl | ⟨w, s, u, rest, rfl, ht', hs, hw⟩
    · exact hv
    · refine hdown u s w (ih (u :: rest).length ?_ ht' rfl) hs hw
      rw [← hn]
      simp only [List.length_cons]
      omega

/-- A path that starts with an edge of `g` is a path of `g` where nothing below the edge is new. -/
theorem Trail.back (Reach : ℕ → Prop) {v s : ℕ} (hv : Reach v)
    (hs : s ∈ (g.stateNode v).symbolChildren)
    (hnode : ∀ u t, Reach u → t ∈ (g.stateNode u).symbolChildren →
      (h.symbolNode t).nodeChildren = (g.symbolNode t).nodeChildren)
    (hdown : ∀ u t w, Reach u → t ∈ (g.stateNode u).symbolChildren →
      w ∈ (g.symbolNode t).nodeChildren → Reach w ∧
        (h.stateNode w).symbolChildren = (g.stateNode w).symbolChildren)
    {b : Bool} {path : List ℕ} (ht : Trail h v b path) (hsuffix : [s, v] <:+ path) :
    Trail g v b path := by
  have hreach : ∀ {u : ℕ} {rest : List ℕ}, Trail g v true (u :: rest) → Reach u := by
    intro u rest ht
    exact ht.reach hv fun u t w hu ht hw => (hdown u t w hu ht hw).1
  induction ht with
  | base =>
    have := hsuffix.length_le
    simp at this
  | @symbol u t rest below ht ih =>
    rcases List.suffix_cons_iff.mp hsuffix with he | hsuffix
    · obtain ⟨rfl, htail⟩ := List.cons.inj he
      obtain ⟨rfl, rfl⟩ := List.cons.inj htail
      exact Trail.symbol Trail.base hs
    · have hbelow := ih hsuffix
      refine Trail.symbol hbelow ?_
      rcases hbelow.double_cases with he | ⟨w, x, y, rest', he, hbelow', hx, hw⟩
      · obtain ⟨rfl, rfl⟩ := List.cons.inj he
        have := hsuffix.length_le
        simp at this
      · obtain ⟨rfl, _⟩ := List.cons.inj he
        rw [← (hdown y x u (hreach hbelow') hx hw).2]
        exact ht
  | @state t w rest below hw ih =>
    rcases List.suffix_cons_iff.mp hsuffix with he | hsuffix
    · obtain ⟨_, he⟩ := List.cons.inj he
      obtain ⟨rfl, rfl⟩ := List.cons.inj he
      cases below
    · have hbelow := ih hsuffix
      cases hbelow with
      | @symbol u _ rest' hbelow' ht =>
        refine Trail.state (Trail.symbol hbelow' ht) ?_
        rw [← hnode u t (hreach hbelow') ht]
        exact hw

theorem Trail.leftmost_lt (hg : GssInv G C T W g) {v : ℕ} {path : List ℕ}
    (ht : Trail g v true path) (hlen : 1 < path.length) :
    (pathSymbols path).headD 0 < g.symbolNodes.length := by
  rcases ht.double_cases with rfl | ⟨w, s, u, rest, rfl, _, hs, _⟩
  · simp at hlen
  · exact hg.symbol_lt u s hs

/-- From `g` to `h` no edge is lost, and none is added at the state nodes before position `n`. -/
structure Frozen (n : ℕ) (g h : Gss Item) : Prop where
  states : g.stateNodes.length ≤ h.stateNodes.length
  stateNo : ∀ v, v < g.stateNodes.length → (h.stateNode v).stateNo = (g.stateNode v).stateNo
  position : ∀ v, v < g.stateNodes.length → h.position v = g.position v
  position_new : ∀ v, g.stateNodes.length ≤ v → v < h.stateNodes.length → n ≤ h.position v
  symbols : g.symbolNodes.length ≤ h.symbolNodes.length
  symbolNo : ∀ s, s < g.symbolNodes.length → (h.symbolNode s).symbolNo = (g.symbolNode s).symbolNo
  inputStart : ∀ s, s < g.symbolNodes.length →
    (h.symbolNode s).inputStart = (g.symbolNode s).inputStart
  children_mono : ∀ v, ∀ s ∈ (g.stateNode v).symbolChildren, s ∈ (h.stateNode v).symbolChildren
  nodes_mono : ∀ s, s < g.symbolNodes.length → ∀ w ∈ (g.symbolNode s).nodeChildren,
    w ∈ (h.symbolNode s).nodeChildren
  symbolChildren : ∀ v, v < g.stateNodes.length → g.position v < n →
    (h.stateNode v).symbolChildren = (g.stateNode v).symbolChildren
  nodeChildren : ∀ v, ∀ s ∈ (g.stateNode v).symbolChildren, g.position v < n →
    (h.symbolNode s).nodeChildren = (g.symbolNode s).nodeChildren

theorem Frozen.trans {n : ℕ} (h₁ : Frozen n g h) (h₂ : Frozen n h k) :
    Frozen n g k where
  states := h₁.states.trans h₂.states
  stateNo v hv := (h₂.stateNo v (hv.trans_le h₁.states)).trans (h₁.stateNo v hv)
  position v hv := (h₂.position v (hv.trans_le h₁.states)).trans (h₁.position v hv)
  position_new v hv hv' := by
    by_cases hlt : v < h.stateNodes.length
    · rw [h₂.position v hlt]
      exact h₁.position_new v hv hlt
    · exact h₂.position_new v (not_lt.mp hlt) hv'
  symbols := h₁.symbols.trans h₂.symbols
  symbolNo s hs := (h₂.symbolNo s (hs.trans_le h₁.symbols)).trans (h₁.symbolNo s hs)
  inputStart s hs := (h₂.inputStart s (hs.trans_le h₁.symbols)).trans (h₁.inputStart s hs)
  children_mono v s hs := h₂.children_mono v s (h₁.children_mono v s hs)
  nodes_mono s hs w hw := h₂.nodes_mono s (hs.trans_le h₁.symbols) w (h₁.nodes_mono s hs w hw)
  symbolChildren v hv hn := by
    rw [h₂.symbolChildren v (hv.trans_le h₁.states) (by rw [h₁.position v hv]; exact hn),
      h₁.symbolChildren v hv hn]
  nodeChildren v s hs hn := by
    have hv := g.lt_of_mem_symbolChildren hs
    rw [h₂.nodeChildren v s (h₁.children_mono v s hs) (by rw [h₁.position v hv]; exact hn),
      h₁.nodeChildren v s hs hn]

theorem Frozen.mono {m n : ℕ} (h₁ : Frozen n g h) (hmn : m ≤ n) : Frozen m g h where
  states := h₁.states
  stateNo := h₁.stateNo
  position := h₁.position
  position_new v hv hv' := hmn.trans (h₁.position_new v hv hv')
  symbols := h₁.symbols
  symbolNo := h₁.symbolNo
  inputStart := h₁.inputStart
  children_mono := h₁.children_mono
  nodes_mono := h₁.nodes_mono
  symbolChildren v hv hn := h₁.symbolChildren v hv (hn.trans_le hmn)
  nodeChildren v s hs hn := h₁.nodeChildren v s hs (hn.trans_le hmn)

theorem HasEdge.frozen {n w X i j : ℕ} (hg : GssInv G C T W g) (hf : Frozen n g h)
    (he : HasEdge g w X i j) : HasEdge h w X i j := by
  obtain ⟨v, s, hs, hw, hX, hi, hv⟩ := he
  have hlt := hg.symbol_lt v s hs
  refine ⟨v, s, hf.children_mono v s hs, hf.nodes_mono s hlt w hw, (hf.symbolNo s hlt).trans hX,
    (hf.inputStart s hlt).trans hi, ?_⟩
  rw [hf.position v (g.lt_of_mem_symbolChildren hs)]
  exact hv

theorem Frozen.of_ext {n : ℕ} (hg : GssInv G C T W g) (hh : GssInv G C T W h) (he : Gss.Ext g h)
    (hn : n ≤ g.current)
    (hchildren : ∀ v, v < g.lastLevel → g.position v < n →
      (h.stateNode v).symbolChildren = (g.stateNode v).symbolChildren)
    (hnodes : ∀ v, v < g.lastLevel → ∀ s ∈ (g.stateNode v).symbolChildren,
      (h.symbolNode s).nodeChildren = (g.symbolNode s).nodeChildren) : Frozen n g h := by
  have hlt : ∀ v, g.position v < n → v < g.lastLevel := by
    intro v hv
    by_contra hle
    have := hg.levels_position (not_lt.mp hle)
    omega
  have hmono : ∀ v, ∀ s ∈ (g.stateNode v).symbolChildren, s ∈ (h.stateNode v).symbolChildren :=
    fun v s hs => he.symbolChildren v (g.lt_of_mem_symbolChildren hs) s hs
  refine ⟨he.states, he.stateNo, fun v _ => he.position v, ?_, he.symbols, he.symbolNo,
    he.inputStart, hmono, he.nodeChildren, ?_, ?_⟩
  · intro v hv _
    have hlast : h.lastLevel ≤ v := by
      have := hg.last_le
      rw [Gss.lastLevel, he.levels]
      exact this.trans hv
    rw [hh.levels_position hlast, he.current]
    exact hn
  · exact fun v _ hv => hchildren v (hlt v hv) hv
  · exact fun v s hs hv => hnodes v (hlt v hv) s hs

theorem ReduceEffect.frozen {cfg : ParserConfig σ Agr Item} {symbols : List ℕ}
    {p p' : GlrParser σ Item} (h : ReduceEffect cfg symbols p p') (hp : GssInv G C T W p.toGss)
    (hp' : GssInv G C T W p'.toGss) : Frozen p.current p.toGss p'.toGss := by
  refine Frozen.of_ext hp hp' h.ext (le_refl _) ?_ ?_
  · intro v hv hn
    refine h.symbolChildren v ?_
    by_contra hle
    have := hp.frontier_position (not_lt.mp hle)
    omega
  · exact fun v _ s hs => h.nodeChildren s (hp.symbol_lt v s hs)

theorem ShiftEffect.frozen {p p' : GlrParser σ Item} (h : ShiftEffect p p')
    (hp : GssInv G C T W p.toGss) (hp' : GssInv G C T W p'.toGss) :
    Frozen p.current p.toGss p'.toGss :=
  Frozen.of_ext hp hp' h.ext (le_refl _) (fun v hv _ => h.symbolChildren v hv) h.nodeChildren

theorem Frozen.relevel {n : ℕ} {levels : List ℕ}
    (hposition : ∀ v, v < g.stateNodes.length →
      ({ g with inputLevels := levels } : Gss Item).position v = g.position v) :
    Frozen n g { g with inputLevels := levels } := by
  refine ⟨le_refl _, fun _ _ => rfl, hposition, ?_, le_refl _, fun _ _ => rfl, fun _ _ => rfl,
    fun _ _ h => h, fun _ _ _ h => h, fun _ _ _ => rfl, fun _ _ _ _ => rfl⟩
  intro v hv hv'
  exact absurd hv (not_le.mpr hv')

/-- Every path of the length of `R` that starts with the edge from `v` to `s` has been reduced. -/
def Done (g : Gss Item) (v s : ℕ) (R : WorkRule) : Prop :=
  ∀ path, Trail g v true path → path.length = 2 * R.rightPart.items.length + 1 →
    [s, v] <:+ path →
      HasEdge g (path.headD 0) R.leftPart (pathStart g path) (g.position v)

private theorem Done.of_back {n v s : ℕ} {R : WorkRule} (hg : GssInv G C T W g)
    (hf : Frozen n g h) (hv : v < g.stateNodes.length)
    (hback : ∀ path, Trail h v true path → [s, v] <:+ path → Trail g v true path)
    (hd : Done g v s R) : Done h v s R := by
  intro path ht hlen hsuffix
  have ht' := hback path ht hsuffix
  have hlt : 1 < path.length := by
    have := hsuffix.length_le
    simp only [List.length_cons, List.length_nil] at this
    omega
  have hedge := (hd path ht' hlen hsuffix).frozen hg hf
  rw [hf.position v hv, pathStart, hf.inputStart _ (ht'.leftmost_lt hg hlt)]
  exact hedge

theorem Done.frozen {n v s : ℕ} {R : WorkRule} (hg : GssInv G C T W g) (hf : Frozen n g h)
    (hv : g.position v < n) (hs : s ∈ (g.stateNode v).symbolChildren) (hd : Done g v s R) :
    Done h v s R := by
  have hlt := g.lt_of_mem_symbolChildren hs
  refine hd.of_back hg hf hlt fun path ht hsuffix => ?_
  refine Trail.back (fun u => u < g.stateNodes.length ∧ g.position u < n) ⟨hlt, hv⟩ hs ?_ ?_ ht
    hsuffix
  · exact fun u t hu ht => hf.nodeChildren u t ht hu.2
  · intro u t w hu ht hw
    have hedge := hg.edge u t ht w hw
    have hposition : g.position w < n := by
      rcases hedge.position with rfl | hw
      · have := hu.2
        rw [hg.position_zero]
        omega
      · have h₁ := (hg.symbol t (hg.symbol_lt u t ht)).start_lt
        have h₂ := hg.inputEnd u t ht
        have h₃ := hu.2
        omega
    exact ⟨⟨hedge.lt, hposition⟩, hf.symbolChildren w hedge.lt hposition⟩

theorem Done.reduceEffect {cfg : ParserConfig σ Agr Item} {symbols : List ℕ}
    {p p' : GlrParser σ Item} {v s : ℕ} {R : WorkRule} (h : ReduceEffect cfg symbols p p')
    (hp : GssInv G C T W p.toGss) (hp' : GssInv G C T W p'.toGss)
    (hs : s ∈ (p.stateNode v).symbolChildren) (hd : Done p.toGss v s R) :
    Done p'.toGss v s R := by
  refine hd.of_back hp (h.frozen hp hp') (p.lt_of_mem_symbolChildren hs) fun path ht hsuffix => ?_
  refine Trail.back (fun _ => True) trivial hs ?_ ?_ ht hsuffix
  · exact fun u t _ ht => h.nodeChildren t (hp.symbol_lt u t ht)
  · exact fun u t w _ ht hw => ⟨trivial, h.below hp hp' ht hw⟩

end TomitaParser
