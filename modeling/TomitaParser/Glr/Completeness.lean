import TomitaParser.Glr.ClosureLoop
import TomitaParser.Lib.LrGraph
/-! # Completeness of the parser

The stack of a finished run is closed under the moves of the automaton, so it has a path for every
derivation of the root. -/

set_option linter.unusedSectionVars false

namespace TomitaParser
open OrderedSet LoopRun Cfg

variable {σ Agr Item : Type*} [Inhabited Item]
variable {G : WorkGrammar} {C : CollectionSet} {W : ℕ → ℕ → Prop}
variable {cfg : ParserConfig σ Agr Item} {symbols : List ℕ} {startPoint : Bool}
variable {p₀ p p' : GlrParser σ Item} {g h : Gss Item}

/-- Position `j` has been read with the given symbols: every transition and every reduction the
table asks for there has its edge. -/
structure CompleteAt (G : WorkGrammar) (C : CollectionSet) (symbols : List ℕ) (startPoint : Bool)
    (j : ℕ) (g : Gss Item) : Prop where
  shifted : ∀ v, v < g.stateNodes.length → (g.position v = j ∨ (startPoint = true ∧ v = 0)) →
    ∀ a ∈ symbols, ∀ q, C.getGotoValue a (g.stateNode v).stateNo = some q →
      HasEdge g v a j (j + 1)
  reduced : ∀ v, g.position v = j → ∀ s ∈ (g.stateNode v).symbolChildren, ∀ R,
    Asked G C symbols g v R → Done g v s R

theorem Frozen.refl (n : ℕ) (g : Gss Item) : Frozen n g g := Frozen.relevel fun _ _ => rfl

private theorem Frozen.lt_of_position {n v : ℕ} (hf : Frozen n g h) (hv : v < h.stateNodes.length)
    (hn : h.position v < n) : v < g.stateNodes.length := by
  by_contra hle
  have := hf.position_new v (not_lt.mp hle) hv
  omega

private theorem Frozen.reduced {n j : ℕ} (hg : GssInv G C cfg.table W g) (hf : Frozen n g h)
    (hj : j < n)
    (hred : ∀ v, g.position v = j → ∀ s ∈ (g.stateNode v).symbolChildren, ∀ R,
      Asked G C symbols g v R → Done g v s R) :
    ∀ v, h.position v = j → ∀ s ∈ (h.stateNode v).symbolChildren, ∀ R,
      Asked G C symbols h v R → Done h v s R := by
  intro v hv s hs R hR
  have hlt := hf.lt_of_position (h.lt_of_mem_symbolChildren hs) (by omega)
  have hposition := hf.position v hlt
  have hv' : g.position v < n := by omega
  rw [hf.symbolChildren v hlt hv'] at hs
  refine (hred v (by omega) s hs R ⟨hR.mem, hR.left, ?_, hR.follow⟩).frozen hg hf hv' hs
  rw [← hf.stateNo v hlt]
  exact hR.finished

theorem CompleteAt.frozen {n j : ℕ} (hg : GssInv G C cfg.table W g) (hf : Frozen n g h)
    (hj : j < n) (hc : CompleteAt G C symbols startPoint j g) :
    CompleteAt G C symbols startPoint j h := by
  refine ⟨?_, hf.reduced hg hj hc.reduced⟩
  intro v hv hat a ha q hq
  have hlt : v < g.stateNodes.length := by
    rcases hat with hat | ⟨_, rfl⟩
    · exact hf.lt_of_position hv (by omega)
    · exact hg.nonempty
  rw [hf.position v hlt] at hat
  rw [hf.stateNo v hlt] at hq
  exact (hc.shifted v hlt hat a ha q hq).frozen hg hf

private theorem startSymbol_loopInv (hp : IdleInv G C cfg.table W p) :
    LoopInv G C W cfg symbols startPoint (startSymbol startPoint p) (startSymbol startPoint p) := by
  have hactive : ∀ v, v < p.stateNodes.length →
      (p.position v = p.current ∨ (startPoint = true ∧ v = 0)) →
      v ∈ (startSymbol startPoint p).activeNodes := by
    intro v hv hat
    refine mem_startNodes.mpr ?_
    rcases hat with hat | hat
    · rw [hp.last]
      exact Or.inr ⟨hv, (hp.position_eq v).mp hat⟩
    · exact Or.inl hat
  refine ⟨ClosureRun.refl (hp.startSymbol startPoint), Frozen.refl _ _, rfl, ?_, ?_⟩
  · intro v hv hat hnot
    exact absurd (hactive v hv hat) hnot
  · intro v hat hnot s hs
    have hv : v < p.stateNodes.length := p.lt_of_mem_symbolChildren hs
    exact absurd (hactive v hv (Or.inl hat)) hnot

private theorem finishLevel_frozen (hp : ClosureInv G C cfg.table W p)
    (hdisable : p.disableWordsStateNodes = false) (first n : ℕ) :
    Frozen n p.toGss (finishLevel cfg first p).toGss ∧
      (finishLevel cfg first p).disableWordsStateNodes = false := by
  have hresult : finishLevel cfg first p =
    (p.updateGss (p.setLastLevel p.stateNodes.length)).updateGss
      ((p.setLastLevel p.stateNodes.length).pushLevel p.stateNodes.length) := by
    simp only [finishLevel]
    rw [if_neg]
    · rfl
    · rw [GlrParser.updateGss, hdisable]
      exact Bool.false_ne_true
  rw [hresult]
  refine ⟨?_, hdisable⟩
  have hset : Frozen n p.toGss (p.setLastLevel p.stateNodes.length) :=
    Frozen.relevel fun v _ => Gss.position_setLastLevel p.toGss _ v
  refine hset.trans (Frozen.relevel fun v hv => ?_)
  exact hp.gss.setLastLevel.position_pushLevel (by simp [Gss.lastLevel, Gss.setLastLevel]) hv

/-- Going to the next position completes the one that was read. -/
private theorem nextLevel_complete (hC : Automaton G C) (hacc : Accepting cfg.factory)
    (hp : LoopDone G C W cfg symbols startPoint p₀ p) (first : ℕ) :
    Frozen p.current p.toGss (nextLevel cfg first p).2.toGss ∧
      CompleteAt G C symbols startPoint p.current (nextLevel cfg first p).2.toGss := by
  have hinv := hp.run.inv
  obtain ⟨hinv₁, heff, hshifts⟩ := finishLevel_spec hinv hp.noReductions first
  obtain ⟨hf₁, hdisable⟩ := finishLevel_frozen hinv hp.disable first (p.current + 1)
  unfold nextLevel
  obtain ⟨p₁, hp₁⟩ : ∃ p₁, p₁ = finishLevel cfg first p := ⟨_, rfl⟩
  rw [← hp₁] at hinv₁ heff hshifts hf₁ hdisable ⊢
  obtain ⟨hinv₂, heff₂, hedges⟩ := foldl_shiftOne_spec hC p₁.pendingShifts
    { p₁ with pendingShifts := [] } ⟨hinv₁.gss, hinv₁.reductions, hinv₁.levels, hinv₁.leaf⟩ (by
      intro sh hsh
      rw [heff.shifts] at hsh
      show ShiftOk C W p₁.toGss (p₁.current - 1) sh
      rw [heff.current]
      exact hshifts sh hsh)
  change ShiftInv G C cfg.table W (shifter cfg p₁) at hinv₂
  change ShiftEffect { p₁ with pendingShifts := [] } (shifter cfg p₁) at heff₂
  have hcurrent : p₁.current = p.current + 1 := heff.current
  have hf₂ : Frozen (p.current + 1) p₁.toGss (shifter cfg p₁).toGss := by
    rw [← hcurrent]
    exact heff₂.frozen hinv₁.gss hinv₂.gss
  have hf₃ : Frozen (p.current + 1) (shifter cfg p₁).toGss
      ((shifter cfg p₁).setLastLevel (shifter cfg p₁).stateNodes.length) :=
    Frozen.relevel fun v _ => Gss.position_setLastLevel _ _ v
  have hf := (hf₁.trans hf₂).trans hf₃
  refine ⟨hf.mono (Nat.le_succ _), ?_, ?_⟩
  · intro v hv hat a ha q hq
    have hlt : v < p.stateNodes.length := by
      rcases hat with hat | ⟨_, rfl⟩
      · exact hf.lt_of_position hv (hat.trans_lt (Nat.lt_succ_self _))
      · exact hinv.gss.nonempty
    have hposition := hf.position v hlt
    have hpend := hp.shifts v hlt (by
      rw [← hposition]
      exact hat) (by
      rw [hp.noActive]
      exact List.not_mem_nil) a ha q (by
      rw [← hf.stateNo v hlt]
      exact hq)
    have hedge := hedges hacc hdisable ⟨v, q, a⟩ (by
      rw [heff.shifts]
      exact hpend)
    have hcurrent' : ({ p₁ with pendingShifts := [] } : GlrParser σ Item).current =
        p.current + 1 := hcurrent
    rw [hcurrent', Nat.add_sub_cancel] at hedge
    exact HasEdge.frozen hinv₂.gss hf₃ hedge
  · refine hf.reduced hinv.gss (Nat.lt_succ_self _) ?_
    intro v hv s hs R hR
    have hdone := hp.reductions v hv (by
      rw [hp.noActive]
      exact List.not_mem_nil) s hs R hR
    rw [hp.noReductions] at hdone
    exact hdone.resolve_left List.not_mem_nil

/-- With enough fuel a call completes its position, unless the parser meets its limit. -/
private theorem parseSymbol_complete (hG : G.WellFormed)
    (heos : G.isMeta G.getEndOfStreamSymbol = false) (hC : Automaton G C)
    (hT : TableFor G C cfg.table) (hacc : Accepting cfg.factory)
    (hgroup : cfg.options.groupNonTerminal = -1) (hW : ∀ a ∈ symbols, W p.current a)
    (hp : IdleInv G C cfg.table W p) :
    ∃ N, (∀ fuel, N ≤ fuel →
        limitReached (parseSymbol cfg fuel symbols startPoint p).2.2 = true) ∨
      ∃ b p', (∀ fuel, N ≤ fuel →
          parseSymbol cfg fuel symbols startPoint p = (.finished, b, p')) ∧
        IdleInv G C cfg.table W p' ∧ p'.current = p.current + 1 ∧
        Frozen p.current p.toGss p'.toGss ∧
        CompleteAt G C symbols startPoint p.current p'.toGss := by
  have hstart : LoopInv G C W cfg symbols startPoint (startSymbol startPoint p)
      (startSymbol startPoint p) := startSymbol_loopInv hp
  have hW' : ∀ a ∈ symbols, W (startSymbol startPoint p).current a := hW
  obtain ⟨N, hN⟩ := closureLoop_complete hG heos hC hT hacc hgroup hW' hstart
  refine ⟨N, ?_⟩
  rcases hN with hlimit | ⟨q, hrun, hdone⟩
  · refine Or.inl fun fuel hfuel => ?_
    have hlimit := hlimit fuel hfuel
    obtain ⟨hloop, hend⟩ := closureLoop_closureRun hG heos hC hT hstart.run.inv hW' fuel fuel
    unfold parseSymbol
    generalize runLoop (closureStep cfg fuel symbols) .outOfFuel fuel (startSymbol startPoint p) = r
      at hlimit hloop hend ⊢
    dsimp only
    split_ifs with hstatus
    · exact hlimit
    · obtain ⟨_, _, hsymbols, hgroups⟩ := nextLevel_spec hC hloop.inv (hend (not_not.mp hstatus))
        p.stateNodes.length
      exact limitReached_mono hsymbols hgroups hlimit
  · obtain ⟨hidle, hcurrent, _, _⟩ := nextLevel_spec hC hdone.run.inv hdone.noReductions
      p.stateNodes.length
    obtain ⟨hfrozen, hcomplete⟩ := nextLevel_complete hC hacc hdone p.stateNodes.length
    have hq : q.current = p.current := hdone.run.current
    rw [hq] at hcurrent hfrozen hcomplete
    refine Or.inr ⟨cfg.options.robust || (nextLevel cfg p.stateNodes.length q).1, _,
      fun fuel hfuel => ?_, hidle, hcurrent, ?_, hcomplete⟩
    · simp only [parseSymbol, hrun fuel hfuel]
      rfl
    · exact hdone.frozen.trans hfrozen

/-- The calls for the rest of the input, from a parser that has read the words before it. -/
theorem parseSymbols_completeAt (hG : G.WellFormed)
    (heos : G.isMeta G.getEndOfStreamSymbol = false) (hC : Automaton G C)
    (hT : TableFor G C cfg.table) (hacc : Accepting cfg.factory)
    (hgroup : cfg.options.groupNonTerminal = -1) {words : List (List ℕ × Bool)}
    (rest : List (List ℕ × Bool)) : ∀ p : GlrParser σ Item, words.drop p.current = rest →
      IdleInv G C cfg.table (WordHas words) p →
      (∀ j w, words[j]? = some w → j < p.current → CompleteAt G C w.1 w.2 j p.toGss) →
      ∃ N, (∀ fuel, N ≤ fuel → limitReached (parseSymbols cfg fuel rest p).2 = true) ∨
        ∃ p', (∀ fuel, N ≤ fuel → parseSymbols cfg fuel rest p = (.finished, p')) ∧
          GssInv G C cfg.table (WordHas words) p'.toGss ∧
          ∀ j w, words[j]? = some w → CompleteAt G C w.1 w.2 j p'.toGss := by
  induction rest with
  | nil =>
    intro p hrest hp hcomplete
    refine ⟨0, Or.inr ⟨p, fun _ _ => rfl, hp.gss, fun j w hw => hcomplete j w hw ?_⟩⟩
    have hj := (List.getElem?_eq_some_iff.mp hw).1
    have := List.drop_eq_nil_iff.mp hrest
    omega
  | cons w rest ih =>
    intro p hrest hp hcomplete
    have hword : words[p.current]? = some w := by
      rw [← List.head?_drop, hrest, List.head?_cons]
    have hW : ∀ a ∈ w.1, WordHas words p.current a := fun a ha => ⟨w, hword, ha⟩
    have hcall : ∀ fuel, CallSpec G C (WordHas words) cfg p (parseSymbol cfg fuel w.1 w.2 p) :=
      fun fuel => parseSymbol_spec hG heos hC hT hp hW fuel w.2
    obtain ⟨N, hN⟩ := @parseSymbol_complete _ _ _ _ _ _ _ _ _ w.2 p hG heos hC hT hacc hgroup hW hp
    rcases hN with hlimit | ⟨b, p', hrun, hidle, hcurrent, hfrozen, hc⟩
    · refine ⟨N, Or.inl fun fuel hfuel => ?_⟩
      rw [parseSymbols]
      split_ifs with hstatus
      · exact hlimit fuel hfuel
      · obtain ⟨hidle, hcurrent⟩ := (hcall fuel).idle (not_not.mp hstatus)
        obtain ⟨_, hsymbols, hgroups⟩ := parseSymbols_spec hG heos hC hT fuel rest _ (by
          rw [hcurrent, ← List.tail_drop, hrest, List.tail_cons]) hidle
        exact limitReached_mono hsymbols hgroups (hlimit fuel hfuel)
    · obtain ⟨M, hM⟩ := ih p' (by rw [hcurrent, ← List.tail_drop, hrest, List.tail_cons]) hidle (by
        intro j w' hw' hj
        rcases Nat.lt_succ_iff_lt_or_eq.mp (by rwa [hcurrent] at hj) with hj | rfl
        · exact (hcomplete j w' hw' hj).frozen hp.gss hfrozen hj
        · obtain rfl : w = w' := Option.some.inj (hword.symm.trans hw')
          exact hc)
      have hnext : ∀ fuel, N ≤ fuel →
          parseSymbols cfg fuel (w :: rest) p = parseSymbols cfg fuel rest p' := by
        intro fuel hfuel
        rw [parseSymbols, hrun fuel hfuel]
        rfl
      refine ⟨max N M, hM.imp ?_ ?_⟩
      · intro hlimit fuel hfuel
        rw [hnext fuel (by omega)]
        exact hlimit fuel (by omega)
      · rintro ⟨p'', hrun', hinv, hall⟩
        refine ⟨p'', fun fuel hfuel => ?_, hinv, hall⟩
        rw [hnext fuel (by omega)]
        exact hrun' fuel (by omega)

/-- The state nodes with the items of their states; node 0 also stands at every start point. -/
def lrGraph (G : WorkGrammar) (C : CollectionSet) (g : Gss Item) (start : ℕ → Prop) :
    LrGraph ℕ ℕ where
  item v A α β := ∃ R ∈ G.encodedRules, R.leftPart = A ∧ R.rightPart.items = α ++ β ∧
    ⟨R, α.length⟩ ∈ C.itemSet (g.stateNode v).stateNo
  node i v := v < g.stateNodes.length ∧ (g.position v = i ∨ (start i ∧ v = 0))
  edge u i X v j := ∃ s ∈ (g.stateNode v).symbolChildren, u ∈ (g.symbolNode s).nodeChildren ∧
    (g.symbolNode s).symbolNo = X ∧ (g.symbolNode s).inputStart = i ∧ g.position v = j
  first b a := a ∈ G.firstOf G.buildFirstSet b
  follow A a := a ∈ G.buildFollowSet.get A

variable {start : ℕ → Prop} {words : List (List ℕ × Bool)}

private theorem lrGraph_item_advance (hC : Automaton G C) (hg : GssInv G C cfg.table W g)
    {u v A X i j : ℕ} {α β : List ℕ} (he : (lrGraph G C g start).edge u i X v j)
    (hi : (lrGraph G C g start).item u A α (X :: β)) :
    (lrGraph G C g start).item v A (α ++ [X]) β := by
  obtain ⟨s, hs, hu, rfl, _, _⟩ := he
  obtain ⟨R, hR, hleft, hitems, hmem⟩ := hi
  refine ⟨R, hR, hleft, by rw [hitems, List.append_assoc]; rfl, ?_⟩
  have hnext : (⟨R, α.length⟩ : LrItem).NextIs (g.symbolNode s).symbolNo := by
    refine ⟨?_, ?_⟩
    · simp [LrItem.isFinished, hitems]
    · simp [LrItem.getSymbolNo, hitems]
  have hadvance := hC.advance _ _ _ (hg.edge v s hs u hu).goto _ hmem hnext
  rw [List.length_append, List.length_singleton]
  exact hadvance

private theorem lrGraph_path_trail {u i v j : ℕ} {β : List ℕ}
    (hp : (lrGraph G C g start).Path u i β v j) : ∃ rest, Trail g v true (u :: rest) ∧
      (u :: rest).length = 2 * β.length + 1 ∧
      (β ≠ [] → pathStart g (u :: rest) = i ∧ g.position v = j ∧
        ∃ s ∈ (g.stateNode v).symbolChildren, [s, v] <:+ u :: rest) := by
  induction hp with
  | nil u i => exact ⟨[], Trail.base, rfl, fun h => absurd rfl h⟩
  | @cons u w v X β i k j he hrest ih =>
    obtain ⟨s, hs, hu, _, hi, hk⟩ := he
    obtain ⟨rest, ht, hlen, hfacts⟩ := ih
    refine ⟨s :: w :: rest, Trail.state (Trail.symbol ht hs) hu, ?_, fun _ => ⟨hi, ?_⟩⟩
    · simp only [List.length_cons] at hlen ⊢
      omega
    · cases hrest with
      | nil =>
        rcases ht.double_cases with he | ⟨_, _, _, _, he, _⟩
        · rw [he]
          exact ⟨hk, s, hs, List.suffix_cons u [s, w]⟩
        · rw [he] at hlen
          simp only [List.length_cons, List.length_nil] at hlen
          omega
      | cons he' hrest' =>
        obtain ⟨_, hposition, t, ht', hsuffix⟩ := hfacts (List.cons_ne_nil _ _)
        exact ⟨hposition, t, ht',
          hsuffix.trans ((List.suffix_cons s _).trans (List.suffix_cons u _))⟩

/-- The terminals of the words; the end of the stream is none of them. -/
def WordTerminal (G : WorkGrammar) (words : List (List ℕ × Bool)) (i a : ℕ) : Prop :=
  WordHas words i a ∧ G.isMeta a = false ∧ a ≠ G.getEndOfStreamSymbol

/-- Where every position is complete the graph has all the moves of the automaton. -/
private theorem lrGraph_closed (hG : G.WellFormed) (hC : Automaton G C)
    (hg : GssInv G C cfg.table W g)
    (hc : ∀ j w, words[j]? = some w → CompleteAt G C w.1 w.2 j g) :
    (lrGraph G C g fun i => ∃ w, words[i]? = some w ∧ w.2 = true).Closed G.InnerProduction
      (WordTerminal G words) (WordHas words) := by
  have hgoto : ∀ u A α X β, (lrGraph G C g fun i => ∃ w, words[i]? = some w ∧ w.2 = true).item u A α
      (X :: β) → X ≠ G.getEndOfStreamSymbol →
      ∃ q, C.getGotoValue X (g.stateNode u).stateNo = some q := by
    rintro u A α X β ⟨R, _, _, hitems, hmem⟩ hne
    refine hC.goto_exists _ _ hmem X ⟨?_, ?_⟩ hne
    · simp [LrItem.isFinished, hitems]
    · simp [LrItem.getSymbolNo, hitems]
  refine ⟨?_, ?_, ?_, ?_, ?_, ?_, ?_, ?_⟩
  · rintro A rhs ⟨R, hR, _, _, rfl⟩
    exact hG.right_ne R hR
  · exact fun i a h => h.1
  · intro i a h
    show a ∈ G.firstOf G.buildFirstSet a
    rw [WorkGrammar.firstOf, if_neg (by rw [h.2.1]; exact Bool.false_ne_true)]
    exact List.mem_singleton_self a
  · rintro A b rhs a ⟨R, hR, _, rfl, hitems⟩ ha
    show a ∈ G.firstOf G.buildFirstSet R.leftPart
    rw [WorkGrammar.firstOf, if_pos (hG.left_meta R hR)]
    exact WorkGrammar.mem_buildFirstSet hG.toEncoded hR hitems ha
  · rintro u A α B β a rhs ⟨R, hR, rfl, hitems, _⟩ ⟨R', hR', _, rfl, _⟩ hnext
    cases β with
    | nil =>
      exact WorkGrammar.mem_buildFollowSet_of_last hG.toEncoded hR hitems (hG.left_meta R' hR')
        hnext
    | cons b β => exact WorkGrammar.mem_buildFollowSet_of_next hG.toEncoded hR hitems hnext
  · rintro u A α B β rhs ⟨R, hR, _, hitems, hmem⟩ ⟨R', hR', _, rfl, rfl⟩
    refine ⟨R', hR', rfl, rfl, ?_⟩
    refine hC.closed _ _ hmem R' hR' ⟨?_, ?_⟩
    · simp [LrItem.isFinished, hitems]
    · simp [LrItem.getSymbolNo, hitems]
  · rintro u i A α a β ⟨hlt, hat⟩ hitem ⟨⟨w, hw, ha⟩, _, hne⟩
    obtain ⟨q, hq⟩ := hgoto u A α a β hitem hne
    have hat' : g.position u = i ∨ (w.2 = true ∧ u = 0) := by
      rcases hat with hat | ⟨⟨w', hw', hs⟩, rfl⟩
      · exact Or.inl hat
      · obtain rfl : w = w' := Option.some.inj (hw.symm.trans hw')
        exact Or.inr ⟨hs, rfl⟩
    obtain ⟨v, s, hs, hu, hX, hi, hv⟩ := (hc i w hw).shifted u hlt hat' a ha q hq
    exact ⟨v, ⟨g.lt_of_mem_symbolChildren hs, Or.inl hv⟩, ⟨s, hs, hu, hX, hi, hv⟩,
      lrGraph_item_advance hC hg ⟨s, hs, hu, hX, hi, hv⟩ hitem⟩
  · rintro u i A α B β rhs v j a _ hitem ⟨R, hR, hne, rfl, hrhs⟩ hpath _
      ⟨R', hR', hleft, hitems, hmem⟩ hfollow ⟨w, hw, ha⟩
    rw [List.append_nil] at hitems
    obtain ⟨rest, ht, hlen, hfacts⟩ := lrGraph_path_trail hpath
    obtain ⟨hstart, hv, s, hs, hsuffix⟩ := hfacts (by
      rw [← hrhs]
      exact hG.right_ne R hR)
    rw [← hitems] at hmem hlen
    have hdone := (hc j w hw).reduced v hv s hs R'
      ⟨hR', by rw [hleft]; exact hne, hmem, a, ha, by rw [hleft]; exact hfollow⟩
    obtain ⟨x, t, hx, hu, hX, hi, hj⟩ := hdone _ ht hlen hsuffix
    rw [hleft] at hX
    rw [hstart] at hi
    rw [hv] at hj
    exact ⟨x, ⟨g.lt_of_mem_symbolChildren hx, Or.inl hj⟩, ⟨t, hx, hu, hX, hi, hj⟩,
      lrGraph_item_advance hC hg ⟨t, hx, hu, hX, hi, hj⟩ hitem⟩

/-- A derivation of the root from a start point has its symbol node, if the end of the stream may
come after it. -/
theorem exists_rootNode {root : ℕ} (hG : G.Augmented root) (hC : Automaton G C)
    (hg : GssInv G C cfg.table W g)
    (hc : ∀ j w, words[j]? = some w → CompleteAt G C w.1 w.2 j g) {i j : ℕ}
    (hspan : Spans G.InnerProduction (WordTerminal G words) [root] i j)
    (hstart : ∃ w, words[i]? = some w ∧ w.2 = true)
    (hend : WordHas words j G.getEndOfStreamSymbol) :
    ∃ sn ∈ g.symbolNodes, sn.symbolNo = root ∧ sn.inputStart = i ∧ sn.inputEnd = j := by
  have hclosed := lrGraph_closed hG.toWellFormed hC hg hc
  obtain ⟨R, hR, hleft⟩ := hG.newRoot_rule
  have hitem : (lrGraph G C g fun i => ∃ w, words[i]? = some w ∧ w.2 = true).item 0 R.leftPart []
      ([root] ++ [G.getEndOfStreamSymbol]) := by
    refine ⟨R, hR, rfl, hG.newRoot_right R hR hleft, ?_⟩
    rw [hg.nodeZero]
    exact hC.start_item R hR hleft
  have hnext : (lrGraph G C g fun i => ∃ w, words[i]? = some w ∧ w.2 = true).Next R.leftPart
      [G.getEndOfStreamSymbol] G.getEndOfStreamSymbol := by
    show _ ∈ G.firstOf G.buildFirstSet _
    rw [WorkGrammar.firstOf, if_neg (by rw [hG.endOfStream_terminal]; exact Bool.false_ne_true)]
    exact List.mem_singleton_self _
  obtain ⟨v, _, hpath, _⟩ := hclosed.exists_path hspan 0 _ [] _ _
    ⟨hg.nonempty, Or.inr ⟨hstart, rfl⟩⟩
    hitem hnext hend
  cases hpath with
  | cons he hrest =>
    cases hrest
    obtain ⟨s, hs, _, hX, hi, hv⟩ := he
    have hlt := hg.symbol_lt v s hs
    refine ⟨g.symbolNode s, ?_, hX, hi, (hg.inputEnd v s hs).trans hv⟩
    rw [Gss.symbolNode, List.getD_eq_getElem _ _ hlt]
    exact List.getElem_mem hlt

/-- Every word is a start point, and the end of the stream comes last. -/
def inputOf (G : EncodedGrammar) (words : List (List ℕ)) : List (List ℕ × Bool) :=
  words.map (fun w => (w, true)) ++ [([G.augmentedGrammar.getEndOfStreamSymbol], false)]

theorem getElem?_inputOf {G : EncodedGrammar} {words : List (List ℕ)} {i : ℕ} {w : List ℕ}
    (h : words[i]? = some w) : (inputOf G words)[i]? = some (w, true) := by
  have hlt := (List.getElem?_eq_some_iff.mp h).1
  rw [inputOf, List.getElem?_append_left (by simpa using hlt), List.getElem?_map, h]
  rfl

theorem inputOf_endOfStream {G : EncodedGrammar} {words : List (List ℕ)}
    (hwords : ∀ w ∈ words, G.augmentedGrammar.getEndOfStreamSymbol ∈ w) {j : ℕ}
    (hj : j ≤ words.length) :
    WordHas (inputOf G words) j G.augmentedGrammar.getEndOfStreamSymbol := by
  rcases Nat.lt_or_eq_of_le hj with hlt | rfl
  · exact ⟨_, getElem?_inputOf (List.getElem?_eq_getElem hlt), hwords _ (List.getElem_mem hlt)⟩
  · refine ⟨([G.augmentedGrammar.getEndOfStreamSymbol], false), ?_, List.mem_singleton_self _⟩
    simp [inputOf]

theorem spans_of_reads {G : EncodedGrammar} {input : List (List ℕ × Bool)} {t : List ℕ} {i : ℕ}
    (ht : Derives G.Production [G.rootIndex] t) (hterm : ∀ a ∈ t, G.isMeta a = false)
    (hread : ∀ k (hk : k < t.length), WordHas input (i + k) t[k]) :
    Spans G.augmentedGrammar.InnerProduction (WordTerminal G.augmentedGrammar input)
      [G.rootIndex] i (i + t.length) := by
  have hlt : ∀ a ∈ t, a < G.symbolCount := by
    refine ht.forall (Q := fun a => a < G.symbolCount) ?_ ?_
    · rintro A rhs ⟨R, hR, _, rfl⟩
      exact G.wellFormed.right_lt R hR
    · intro a ha
      rw [List.mem_singleton.mp ha]
      exact G.rootIndex_lt
  refine (ht.yields.spans i fun k hk => ?_).mono
    (fun A rhs h => G.augmentedGrammar_innerProduction.mpr h) fun _ _ h => h
  have hmem := List.getElem_mem hk
  refine ⟨hread k hk, ?_, ?_⟩
  · rw [G.augmentedGrammar_isMeta (hlt _ hmem)]
    exact hterm _ hmem
  · rw [G.augmentedGrammar_getEndOfStreamSymbol]
    exact Nat.ne_of_lt (hlt _ hmem)

theorem spans_of_derives {G : EncodedGrammar} {words : List (List ℕ)} {t : List ℕ} {i : ℕ}
    (ht : Derives G.Production [G.rootIndex] t) (hterm : ∀ a ∈ t, G.isMeta a = false)
    (hread : ∀ k (hk : k < t.length), ∃ w, words[i + k]? = some w ∧ t[k] ∈ w) :
    Spans G.augmentedGrammar.InnerProduction
      (WordTerminal G.augmentedGrammar (inputOf G words)) [G.rootIndex] i (i + t.length) := by
  refine spans_of_reads ht hterm fun k hk => ?_
  obtain ⟨w, hw, ha⟩ := hread k hk
  exact ⟨_, getElem?_inputOf hw, ha⟩

/-- Enough fuel finds every occurrence of the root, as long as the parser stays below its limit:
whatever terminals of the words from `i` on the root derives, a symbol node for the root spans
them. -/
theorem parseSymbols_complete (G : EncodedGrammar) (agreements : List (List Agr))
    (factory : InputItemFactory σ Agr Item) (hacc : Accepting factory) (breakAtLimit : Bool)
    (words : List (List ℕ))
    (hwords : ∀ w ∈ words, G.augmentedGrammar.getEndOfStreamSymbol ∈ w) (p : GlrParser σ Item) :
    ∃ N, ∀ fuel, N ≤ fuel →
      let cfg := G.parserConfig agreements factory
        { robust := true, breakAfterMaxSymbolNodesCount := breakAtLimit }
      let r := parseSymbols cfg fuel (inputOf G words) (initGlrParser p)
      limitReached r.2 = false →
        r.1 = .finished ∧
        ∀ i j, i < j → ∀ t : List ℕ, i + t.length = j → Derives G.Production [G.rootIndex] t →
          (∀ a ∈ t, G.isMeta a = false) →
          (∀ k (hk : k < t.length), ∃ w, words[i + k]? = some w ∧ t[k] ∈ w) →
            ∃ sn ∈ r.2.symbolNodes, sn.symbolNo = G.rootIndex ∧ sn.inputStart = i ∧
              sn.inputEnd = j := by
  have hG := G.augmentedGrammar_augmented
  have hC := computeCollection_automaton hG.toNumbered
  have hT := G.parserConfig_tableFor agreements factory
    { robust := true, breakAfterMaxSymbolNodesCount := breakAtLimit }
  obtain ⟨N, hN⟩ := parseSymbols_completeAt hG.toWellFormed hG.endOfStream_terminal hC hT hacc rfl
    (inputOf G words) (initGlrParser p) rfl (initGlrParser_idle _ _ _ _ p)
    fun j w _ hj => absurd hj (Nat.not_lt_zero j)
  refine ⟨N, fun fuel hfuel => ?_⟩
  intro cfg r hlimit
  rcases hN with hstop | ⟨p', hrun, hinv, hcomplete⟩
  · have hreached := hstop fuel hfuel
    change limitReached r.2 = true at hreached
    rw [hlimit] at hreached
    cases hreached
  · have hr : r = (.finished, p') := hrun fuel hfuel
    refine ⟨by rw [hr], ?_⟩
    rintro i j hij t rfl ht hterm hread
    rw [hr]
    have hpos : 0 < t.length := by omega
    obtain ⟨w, hw, _⟩ := hread 0 hpos
    have hlast : i + t.length ≤ words.length := by
      obtain ⟨w', hw', _⟩ := hread (t.length - 1) (by omega)
      have := (List.getElem?_eq_some_iff.mp hw').1
      omega
    exact exists_rootNode hG hC hinv hcomplete (spans_of_derives ht hterm hread)
      ⟨_, getElem?_inputOf hw, rfl⟩ (inputOf_endOfStream hwords hlast)

/-- The grammar with the one rule `S → a`. -/
def oneWordGrammar : EncodedGrammar where
  uniqueGrammarItems := [{ type := .siMeta, itemStrId := "S" },
    { type := .siString, itemStrId := "a", grammarRoot := false }]
  encodedRules := [⟨0, 0, ⟨[1], 0⟩⟩]
  agreementCount := 1
  wellFormed := ⟨⟨⟨by decide, by decide, by decide⟩, by decide⟩, by decide⟩
  ruleNo_lt := by decide
  oneRoot := by decide
  noReserved := by decide

/-- The factory that makes the same item every time. -/
def acceptAllFactory : InputItemFactory Unit Unit Unit where
  createNewItem _ _ _ _ _ _ _ := (some (), ())
  createLeafItem _ _ _ := (some (), ())
  equalNodes _ _ _ := true
  weight _ _ := 0
  factsCount _ _ := 0

theorem acceptAllFactory_accepting : Accepting acceptAllFactory :=
  ⟨fun _ _ _ _ _ _ _ => Option.some_ne_none _, fun _ _ _ => Option.some_ne_none _⟩

/-- A parser object as it is constructed. -/
def newGlrParser {σ Item : Type*} (heap : σ) : GlrParser σ Item where
  stateNodes := []
  symbolNodes := []
  inputLevels := []
  activeNodes := []
  pendingReductions := []
  pendingShifts := []
  disableWordsStateNodes := false
  builtGroups := []
  maxLastGroup := (-1, -1)
  createdGroups := 0
  heap := heap

theorem parseSymbols_complete_oneWord :
    ∃ N, ∀ fuel, N ≤ fuel →
      let r := parseSymbols (oneWordGrammar.parserConfig [[()], []] acceptAllFactory
          { robust := true }) fuel (inputOf oneWordGrammar [[1, 2]]) (initGlrParser (newGlrParser ()))
      limitReached r.2 = false → r.1 = .finished ∧
        ∃ sn ∈ r.2.symbolNodes, sn.symbolNo = 0 ∧ sn.inputStart = 0 ∧ sn.inputEnd = 1 := by
  obtain ⟨N, hN⟩ := parseSymbols_complete oneWordGrammar [[()], []] acceptAllFactory
    acceptAllFactory_accepting true [[1, 2]] (by decide) (newGlrParser ())
  refine ⟨N, fun fuel hfuel => ?_⟩
  intro r hlimit
  obtain ⟨hfinished, hroot⟩ := hN fuel hfuel hlimit
  have hderives : Derives oneWordGrammar.Production [0] [1] :=
    (Yields.rule ⟨⟨0, 0, ⟨[1], 0⟩⟩, by decide, rfl, rfl⟩ (Yields.refl [1]) Yields.nil).derives
  refine ⟨hfinished, hroot 0 1 Nat.one_pos [1] rfl hderives (by decide) ?_⟩
  intro k hk
  obtain rfl : k = 0 := Nat.lt_one_iff.mp hk
  exact ⟨[1, 2], rfl, List.mem_cons_self⟩

end TomitaParser
