import TomitaParser.Glr.Termination
/-! # Start points

A start point puts state node 0 among the active nodes. Where node 0 has no transition by any symbol
of the word, that changes nothing. -/

set_option linter.unusedSectionVars false

namespace TomitaParser
open OrderedSet LoopRun Cfg

variable {σ Agr Item : Type*} [Inhabited Item]
variable {G : WorkGrammar} {C : CollectionSet} {W : ℕ → ℕ → Prop}
variable {cfg : ParserConfig σ Agr Item} {symbols : List ℕ} {p : GlrParser σ Item}

/-- No symbol of the word leads out of the start state. -/
def NoStart (C : CollectionSet) (symbols : List ℕ) : Prop :=
  ∀ a ∈ symbols, C.getGotoValue a 0 = none

theorem actorSymbol_noStart (hT : TableFor G C cfg.table) (hp : GssInv G C cfg.table W p.toGss)
    {a : ℕ} (ha : C.getGotoValue a 0 = none) : actorSymbol cfg 0 p a = p := by
  have hchildren : (p.stateNode 0).symbolChildren = [] := by
    refine List.eq_nil_iff_forall_not_mem.mpr fun s hs => ?_
    exact absurd rfl (hp.ne_zero hs)
  have hgoto : (cfg.table.cell (p.stateNode 0).stateNo a).gotoLine = none := by
    rw [hT.gotoLine, hp.nodeZero, ha]
  have hnone : ∀ rules : List ℕ, reductionsFor rules [] 0 = [] := by
    intro rules
    simp [reductionsFor]
  simp only [actorSymbol, hgoto, hchildren, hnone]
  rfl

theorem actor_noStart (hT : TableFor G C cfg.table) (hp : GssInv G C cfg.table W p.toGss)
    (hsymbols : NoStart C symbols) {rest : List ℕ} (hactive : p.activeNodes = 0 :: rest) :
    actor cfg symbols p = { p with activeNodes := rest } := by
  rw [actor, hactive]
  dsimp only
  have hq : GssInv G C cfg.table W ({ p with activeNodes := rest } : GlrParser σ Item).toGss := hp
  generalize ({ p with activeNodes := rest } : GlrParser σ Item) = q at hq ⊢
  induction symbols with
  | nil => rfl
  | cons a symbols ih =>
    rw [List.foldl_cons, actorSymbol_noStart hT hq (hsymbols a List.mem_cons_self)]
    exact ih fun b hb => hsymbols b (List.mem_cons_of_mem a hb)

theorem startNodes_true (p : GlrParser σ Item) :
    startNodes p.toGss true = startNodes p.toGss false ∨
      startNodes p.toGss true = 0 :: startNodes p.toGss false := by
  have htrue : startNodes p.toGss true = insertBy natLt 0 (startNodes p.toGss false) := rfl
  rw [htrue]
  cases hnodes : startNodes p.toGss false with
  | nil => exact Or.inr rfl
  | cons v rest =>
    rw [insertBy]
    rcases Nat.eq_zero_or_pos v with rfl | hv
    · exact Or.inl rfl
    · exact Or.inr (if_pos (decide_eq_true hv))

/-- A start point without a transition costs one turn of the loop and changes nothing. -/
theorem parseSymbol_noStart (hG : G.WellFormed)
    (heos : G.isMeta G.getEndOfStreamSymbol = false) (hC : Automaton G C)
    (hT : TableFor G C cfg.table) (hbreak : cfg.options.breakAfterMaxSymbolNodesCount = true)
    (hp : IdleInv G C cfg.table W p) (hW : ∀ a ∈ symbols, W p.current a)
    (hlimit : limitReached p = false) (hsymbols : NoStart C symbols) (startPoint : Bool) :
    ∃ N r, (∀ fuel, N ≤ fuel → parseSymbol cfg fuel symbols startPoint p = r ∧
      parseSymbol cfg fuel symbols true p = r) ∧ r.1 ≠ .outOfFuel := by
  have hstart : ClosureInv G C cfg.table W (startSymbol false p) := hp.startSymbol false
  have hW' : ∀ a ∈ symbols, W (startSymbol false p).current a := hW
  have hlimit' : limitReached (startSymbol false p) = false := hlimit
  obtain ⟨N, r, hrun, hr⟩ := closureLoop_ends hG heos hC hT hbreak hstart hW' hlimit'
  -- both runs end as the one without the start point does
  have hfalse : ∀ fuel, N + 1 ≤ fuel →
      runLoop (closureStep cfg fuel symbols) .outOfFuel fuel (startSymbol false p) = r :=
    fun fuel hfuel => hrun fuel (by omega) fuel (by omega)
  have htrue : ∀ fuel, N + 1 ≤ fuel →
      runLoop (closureStep cfg fuel symbols) .outOfFuel fuel (startSymbol true p) = r := by
    intro fuel hfuel
    rcases startNodes_true p with hsame | hzero
    · have heq : startSymbol true p = startSymbol false p := by
        rw [startSymbol, startSymbol, hsame]
      rw [heq]
      exact hfalse fuel hfuel
    · have hactive : (startSymbol true p).activeNodes = 0 :: startNodes p.toGss false := hzero
      have hgss : GssInv G C cfg.table W (startSymbol true p).toGss := hp.gss
      have hturn : actor cfg symbols (startSymbol true p) = startSymbol false p :=
        actor_noStart hT hgss hsymbols hactive
      have hstep : closureStep cfg fuel symbols (startSymbol true p) =
          .next (startSymbol false p) := by
        simp [closureStep, hactive, hturn, hlimit']
      obtain ⟨n, hn⟩ : ∃ n, fuel = n + 1 := ⟨fuel - 1, by omega⟩
      have hloop : runLoop (closureStep cfg fuel symbols) .outOfFuel (n + 1) (startSymbol true p) =
          runLoop (closureStep cfg fuel symbols) .outOfFuel n (startSymbol false p) :=
        runLoop_next hstep _ n
      rw [← hn] at hloop
      rw [hloop]
      exact hrun fuel (by omega) n (by omega)
  refine ⟨N + 1, finishCall cfg p.stateNodes.length r, fun fuel hfuel => ⟨?_, ?_⟩, ?_⟩
  · cases startPoint with
    | true => rw [parseSymbol_eq, htrue fuel hfuel]
    | false => rw [parseSymbol_eq, hfalse fuel hfuel]
  · rw [parseSymbol_eq, htrue fuel hfuel]
  · unfold finishCall
    split_ifs
    · exact hr
    · exact RunStatus.finished_ne

/-- While node 0 is the only state node, a word without a transition from it leaves the stack as it
is. -/
theorem parseSymbol_barren (hT : TableFor G C cfg.table) (hp : IdleInv G C cfg.table W p)
    (hone : p.stateNodes.length = 1) (hsymbols : NoStart C symbols) (fuel : ℕ)
    (startPoint : Bool) :
    (parseSymbol cfg fuel symbols startPoint p).2.2.symbolNodes = p.symbolNodes ∧
      (parseSymbol cfg fuel symbols startPoint p).2.2.stateNodes = p.stateNodes := by
  obtain ⟨q, hq⟩ : ∃ q, q = startSymbol startPoint p := ⟨_, rfl⟩
  have hgss : GssInv G C cfg.table W q.toGss := by
    rw [hq]
    exact hp.gss
  have hreds : q.pendingReductions = [] := by
    rw [hq]
    exact hp.reductions
  have hzero : ∀ v ∈ q.activeNodes, v = 0 := by
    intro v hv
    rw [hq] at hv
    have hlast := hp.last
    rcases mem_startNodes.mp hv with ⟨_, rfl⟩ | ⟨hlt, _⟩
    · rfl
    · omega
  -- the loop does nothing but take node 0 from the active nodes
  have hloop : ∃ as : List ℕ, (runLoop (closureStep cfg fuel symbols) .outOfFuel fuel q).2 =
      { q with activeNodes := as } := by
    refine runLoop_post (fun q' => ∃ as : List ℕ, (∀ v ∈ as, v = 0) ∧
      q' = { q with activeNodes := as }) (fun (_ : RunStatus) q' =>
        ∃ as : List ℕ, q' = { q with activeNodes := as }) ?_ ?_ fuel q ⟨q.activeNodes, hzero, rfl⟩
    · rintro q' ⟨as, has, rfl⟩
      cases as with
      | nil =>
        have hstep : closureStep cfg fuel symbols { q with activeNodes := [] } =
            .exit .finished { q with activeNodes := [] } := by
          simp [closureStep, hreds]
        rw [hstep]
        exact ⟨[], rfl⟩
      | cons v rest =>
        obtain rfl : v = 0 := has v List.mem_cons_self
        have hturn : actor cfg symbols { q with activeNodes := 0 :: rest } =
            { q with activeNodes := rest } :=
          @actor_noStart _ _ _ _ _ _ _ _ _ { q with activeNodes := 0 :: rest } hT hgss hsymbols
            rest rfl
        simp only [closureStep, hturn, List.isEmpty_cons, Bool.false_and, Bool.false_eq_true,
          if_false, ne_eq, not_true_eq_false]
        split_ifs
        · exact ⟨rest, rfl⟩
        · exact ⟨rest, fun u hu => has u (List.mem_cons_of_mem 0 hu), rfl⟩
    · rintro q' ⟨as, _, rfl⟩
      exact ⟨as, rfl⟩
  rw [parseSymbol_eq, ← hq, finishCall]
  generalize runLoop (closureStep cfg fuel symbols) .outOfFuel fuel q = r at hloop ⊢
  obtain ⟨as, has⟩ := hloop
  have hkept : r.2.symbolNodes = p.symbolNodes ∧ r.2.stateNodes = p.stateNodes ∧
      r.2.disableWordsStateNodes = false ∧ r.2.pendingShifts = [] := by
    rw [has, hq]
    exact ⟨rfl, rfl, rfl, hp.shifts⟩
  obtain ⟨h₁, h₂, h₃, h₄⟩ := hkept
  split_ifs
  · exact ⟨h₁, h₂⟩
  · have hnext := @nextLevel_of_no_shifts _ _ _ _ cfg r.2 h₃ h₄ p.stateNodes.length
    exact ⟨hnext.1.trans h₁, hnext.2.2.trans h₂⟩

end TomitaParser
