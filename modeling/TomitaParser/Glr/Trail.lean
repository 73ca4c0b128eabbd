import TomitaParser.Glr.Stack
/-! # Paths through the stack

The depth-first search of the reducer walks from a state node down through symbol nodes and state
nodes. A walk as long as a rule's right part spells that right part. -/

set_option linter.unusedSectionVars false

namespace TomitaParser
open Cfg

variable {Item Agr : Type*} [Inhabited Item]

/-- Paths from the state node `v`, listed from their end; the flag says that a state node is at the
end. -/
inductive Trail (g : Gss Item) (v : ℕ) : Bool → List ℕ → Prop where
  | base : Trail g v true [v]
  | symbol {u s : ℕ} {rest : List ℕ} (below : Trail g v true (u :: rest))
      (h : s ∈ (g.stateNode u).symbolChildren) : Trail g v false (s :: u :: rest)
  | state {s w : ℕ} {rest : List ℕ} (below : Trail g v false (s :: rest))
      (h : w ∈ (g.symbolNode s).nodeChildren) : Trail g v true (w :: s :: rest)

variable {g h : Gss Item} {v : ℕ}

theorem Trail.length_mod {b : Bool} {path : List ℕ} (ht : Trail g v b path) :
    path.length % 2 = b.toNat := by
  induction ht with
  | base => rfl
  | symbol _ _ ih =>
    simp only [List.length_cons, Bool.toNat_true, Bool.toNat_false] at ih ⊢
    omega
  | state _ _ ih =>
    simp only [List.length_cons, Bool.toNat_true, Bool.toNat_false] at ih ⊢
    omega

variable {G : WorkGrammar} {C : CollectionSet} {T : GlrTable Agr} {W : ℕ → ℕ → Prop}

theorem Trail.ext (hg : GssInv G C T W g) (he : Gss.Ext g h) {b : Bool} {path : List ℕ}
    (ht : Trail g v b path) : Trail h v b path := by
  induction ht with
  | base => exact Trail.base
  | symbol _ hs ih =>
    exact Trail.symbol ih (he.symbolChildren _ (g.lt_of_mem_symbolChildren hs) _ hs)
  | state below hw ih =>
    cases below with
    | symbol _ hs => exact Trail.state ih (he.nodeChildren _ (hg.symbol_lt _ _ hs) _ hw)

theorem Trail.double_cases {path : List ℕ} (ht : Trail g v true path) :
    path = [v] ∨ ∃ w s u rest, path = w :: s :: u :: rest ∧ Trail g v true (u :: rest) ∧
      s ∈ (g.stateNode u).symbolChildren ∧ w ∈ (g.symbolNode s).nodeChildren := by
  cases ht with
  | base => exact Or.inl rfl
  | @state s w rest below hw =>
    cases below with
    | @symbol u s rest below hs => exact Or.inr ⟨w, s, u, rest, rfl, below, hs, hw⟩

/-- Walking down over part of a finished rule moves its dot back over the symbols met. -/
theorem Trail.item (hg : GssInv G C T W g) (hC : Automaton G C) {R : WorkRule}
    (hfin : ⟨R, R.rightPart.items.length⟩ ∈ C.itemSet (g.stateNode v).stateNo) (j : ℕ) :
    ∀ path, Trail g v true path → path.length = 2 * j + 1 → j ≤ R.rightPart.items.length →
      ⟨R, R.rightPart.items.length - j⟩ ∈ C.itemSet (g.stateNode (path.headD 0)).stateNo ∧
        (pathSymbols path).map (fun s => (g.symbolNode s).symbolNo) =
          R.rightPart.items.drop (R.rightPart.items.length - j) := by
  induction j with
  | zero =>
    intro path ht hlen _
    rcases ht.double_cases with rfl | ⟨w, s, u, rest, rfl, _⟩
    · exact ⟨hfin, by simp [pathSymbols]⟩
    · simp at hlen
  | succ j ih =>
    intro path ht hlen hj
    rcases ht.double_cases with rfl | ⟨w, s, u, rest, rfl, ht, hs, hw⟩
    · simp at hlen
    · obtain ⟨hitem, hsyms⟩ := ih (u :: rest) ht
        (by simp only [List.length_cons] at hlen ⊢; omega) (by omega)
      have hgoto := (hg.edge u s hs w hw).goto
      obtain ⟨it, hit, hn, he⟩ := hC.back _ _ _ hgoto _ hitem
        (by show 0 < R.rightPart.items.length - j; omega)
      obtain ⟨R', dot⟩ := it
      simp only [LrItem.advance, LrItem.mk.injEq] at he
      obtain ⟨rfl, hdot⟩ := he
      have hd : R.rightPart.items.length - (j + 1) = dot := by omega
      have hsplit := (hC.valid _ _ hit).split hn
      refine ⟨by rw [hd]; exact hit, ?_⟩
      have hlt : dot < R.rightPart.items.length := by omega
      rw [pathSymbols, List.map_cons, hsyms, hd, hdot, List.drop_eq_getElem_cons hlt]
      congr 1
      have := hn.2
      rw [LrItem.getSymbolNo, List.getD_eq_getElem _ _ hlt] at this
      exact this.symm

theorem Trail.tiles (hg : GssInv G C T W g) {path : List ℕ} (ht : Trail g v true path) {u : ℕ}
    {rest : List ℕ} (hpath : path = u :: rest) (hu : u ≠ 0) :
    g.Tiles (g.position u) (pathSymbols path) (g.position v) := by
  induction hn : path.length using Nat.strong_induction_on generalizing path u rest with
  | _ n ih =>
    rcases ht.double_cases with rfl | ⟨w, s, u', rest', rfl, ht', hs, hw⟩
    · obtain ⟨rfl, _⟩ := List.cons.inj hpath
      exact rfl
    · obtain ⟨rfl, _⟩ := List.cons.inj hpath
      have hlen : (u' :: rest').length < n := by
        rw [← hn]
        simp only [List.length_cons]
        omega
      have hrest := ih _ hlen ht' rfl (hg.ne_zero hs) rfl
      refine ⟨?_, ?_⟩
      · rcases (hg.edge u' s hs w hw).position with h | h
        · exact absurd h hu
        · exact h.symm
      · rw [hg.inputEnd u' s hs]
        exact hrest

theorem Gss.Tiles.getLastD {items : List ℕ} {i j : ℕ} (ht : g.Tiles i items j)
    (hne : items ≠ []) : (g.symbolNode (items.getLastD 0)).inputEnd = j := by
  induction items generalizing i with
  | nil => exact absurd rfl hne
  | cons s items ih =>
    cases items with
    | nil => exact ht.2
    | cons t items => exact ih ht.2 (by simp)

theorem Gss.Tiles.spans {P : ℕ → List ℕ → Prop} {items : List ℕ} {i j : ℕ}
    (ht : g.Tiles i items j)
    (hs : ∀ s ∈ items, Spans P W [(g.symbolNode s).symbolNo] (g.symbolNode s).inputStart
      (g.symbolNode s).inputEnd) :
    Spans P W (items.map fun s => (g.symbolNode s).symbolNo) i j := by
  induction items generalizing i with
  | nil =>
    obtain rfl : i = j := ht
    exact Spans.nil i
  | cons s items ih =>
    obtain ⟨rfl, ht⟩ := ht
    exact (hs s List.mem_cons_self).append (ih ht fun t h => hs t (List.mem_cons_of_mem s h))

theorem Gss.Tiles.le {items : List ℕ} {i j : ℕ} (ht : g.Tiles i items j)
    (hs : ∀ s ∈ items, (g.symbolNode s).inputStart < (g.symbolNode s).inputEnd) : i ≤ j := by
  induction items generalizing i with
  | nil => exact le_of_eq ht
  | cons s items ih =>
    obtain ⟨rfl, ht⟩ := ht
    have h₁ := hs s List.mem_cons_self
    have h₂ := ih ht fun t h => hs t (List.mem_cons_of_mem s h)
    omega

/-- What the search knows of a reduction it has found. -/
structure FoundOk (G : WorkGrammar) (C : CollectionSet) (T : GlrTable Agr) (g : Gss Item)
    (R : WorkRule) (f : FoundReduction) : Prop where
  rule : ReduceRule G T f.reduceRule R
  items_lt : ∀ s ∈ f.symbols, s < g.symbolNodes.length
  spelled : f.symbols.map (fun s => (g.symbolNode s).symbolNo) = R.rightPart.items
  tiles : g.Tiles (f.inputStart g) f.symbols (f.inputEnd g)
  inputEnd : f.inputEnd g = g.current
  child : f.childNode < g.stateNodes.length
  childPosition : f.childNode = 0 ∨ g.position f.childNode = f.inputStart g
  goto : ∃ q, C.getGotoValue R.leftPart (g.stateNode f.childNode).stateNo = some q

/-- A walk as long as the rule is a reduction of it. -/
theorem Trail.found (hG : G.WellFormed) (heos : G.isMeta G.getEndOfStreamSymbol = false)
    (hg : GssInv G C T W g) (hC : Automaton G C) {r : ℕ} {R : WorkRule} (hR : ReduceRule G T r R)
    (hfin : ⟨R, R.rightPart.items.length⟩ ∈ C.itemSet (g.stateNode v).stateNo)
    (hv : g.position v = g.current) {path : List ℕ} (ht : Trail g v true path)
    (hlen : path.length = 2 * R.rightPart.items.length + 1) :
    FoundOk G C T g R ⟨r, pathSymbols path, path.headD 0⟩ := by
  obtain ⟨hitem, hsyms⟩ := ht.item hg hC hfin _ path hlen (le_refl _)
  rw [Nat.sub_self] at hitem hsyms
  rw [List.drop_zero] at hsyms
  have hne := hG.right_ne R hR.mem
  rcases ht.double_cases with rfl | ⟨w, s, u, rest, rfl, ht', hs, hw⟩
  · simp only [List.length_singleton] at hlen
    exact absurd (List.length_eq_zero_iff.mp (by omega)) hne
  · have hedge := hg.edge u s hs w hw
    have htile : g.Tiles (g.symbolNode s).inputStart (pathSymbols (w :: s :: u :: rest))
        (g.position v) := by
      refine ⟨rfl, ?_⟩
      rw [hg.inputEnd u s hs]
      exact ht'.tiles hg rfl (hg.ne_zero hs)
    have hlast : (g.symbolNode ((pathSymbols (w :: s :: u :: rest)).getLastD 0)).inputEnd =
        g.position v := htile.getLastD (by simp [pathSymbols])
    refine ⟨hR, ?_, hsyms, ?_, hlast.trans hv, hedge.lt, hedge.position, ?_⟩
    · have hall : ∀ path, Trail g v true path → ∀ t ∈ pathSymbols path,
          t < g.symbolNodes.length := by
        intro path
        induction hn : path.length using Nat.strong_induction_on generalizing path with
        | _ n ih =>
          intro hp t htm
          rcases hp.double_cases with rfl | ⟨w', s', u', rest', rfl, hp', hs', _⟩
          · exact absurd htm List.not_mem_nil
          · rcases List.mem_cons.mp htm with rfl | htm
            · exact hg.symbol_lt u' _ hs'
            · refine ih (u' :: rest').length ?_ (u' :: rest') rfl hp' t htm
              rw [← hn]
              simp only [List.length_cons]
              omega
      exact hall _ ht
    · show g.Tiles (g.symbolNode s).inputStart _ _
      rw [FoundReduction.inputEnd, hlast]
      exact htile
    · -- the rule stands at the walk's end because some item there waits for its left part
      obtain ⟨it, hit, hn⟩ := hC.origin _ _ hitem rfl hR.left
      refine hC.goto_exists _ it hit _ hn ?_
      intro he
      have := hG.left_meta R hR.mem
      rw [show R.leftPart = G.getEndOfStreamSymbol from he, heos] at this
      cases this

end TomitaParser
