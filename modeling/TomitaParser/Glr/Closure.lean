import TomitaParser.Glr.Trail
/-! # The closure loop's invariant

What holds of the stack and of the pending sets between two turns, and that Actor keeps it. -/

set_option linter.unusedSectionVars false

namespace TomitaParser
open OrderedSet LoopRun Cfg

theorem PendingReduction.eq_of_equivalent {a b : PendingReduction}
    (h : Equivalent PendingReduction.lt a b) : b = a := by
  obtain ⟨h₁, h₂⟩ := h
  cases a
  cases b
  dsimp only [PendingReduction.lt] at h₁ h₂
  simp only [PendingReduction.mk.injEq]
  split_ifs at h₁ h₂ <;> simp only [decide_eq_false_iff_not] at h₁ h₂ <;> omega

theorem PendingShift.eq_of_equivalent {a b : PendingShift}
    (h : Equivalent PendingShift.lt a b) : b = a := by
  obtain ⟨h₁, h₂⟩ := h
  cases a
  cases b
  dsimp only [PendingShift.lt] at h₁ h₂
  simp only [PendingShift.mk.injEq]
  split_ifs at h₁ h₂ <;> simp only [decide_eq_false_iff_not] at h₁ h₂ <;> omega

@[simp] theorem mem_insertAll_pendingReduction {x : PendingReduction}
    {as l : List PendingReduction} :
    x ∈ insertAll PendingReduction.lt as l ↔ x ∈ as ∨ x ∈ l :=
  mem_insertAll fun _ _ _ _ h => PendingReduction.eq_of_equivalent h

@[simp] theorem mem_insertBy_pendingShift {x a : PendingShift} {l : List PendingShift} :
    x ∈ insertBy PendingShift.lt a l ↔ x = a ∨ x ∈ l :=
  mem_insertBy fun _ _ h => PendingShift.eq_of_equivalent h

variable {σ Agr Item : Type*} [Inhabited Item]

@[simp] theorem mem_reductionsFor {rules symbols : List ℕ} {v : ℕ} {red : PendingReduction} :
    red ∈ reductionsFor rules symbols v ↔ red.reduceRule ∈ rules ∧ red.symbolNodeNo ∈ symbols ∧
      red.lastStateNodeNo = v := by
  simp only [reductionsFor, List.mem_flatMap, List.mem_map]
  constructor
  · rintro ⟨r, hr, s, hs, rfl⟩
    exact ⟨hr, hs, rfl⟩
  · rintro ⟨hr, hs, rfl⟩
    exact ⟨_, hr, _, hs, rfl⟩

/-- The effect of Actor on the state node it takes up. -/
structure ActorEffect (cfg : ParserConfig σ Agr Item) (symbols : List ℕ) (v : ℕ)
    (p p' : GlrParser σ Item) : Prop where
  toGss : p'.toGss = p.toGss
  activeNodes : p'.activeNodes = p.activeNodes
  createdGroups : p'.createdGroups = p.createdGroups
  disable : p'.disableWordsStateNodes = p.disableWordsStateNodes
  shifts : ∀ sh, sh ∈ p'.pendingShifts ↔ sh ∈ p.pendingShifts ∨
    (sh.stateNodeNo = v ∧ sh.symbolNo ∈ symbols ∧
      (cfg.table.cell (p.stateNode v).stateNo sh.symbolNo).gotoLine = some sh.nextStateNo)
  reductions : ∀ red, red ∈ p'.pendingReductions ↔ red ∈ p.pendingReductions ∨
    (red.lastStateNodeNo = v ∧ red.symbolNodeNo ∈ (p.stateNode v).symbolChildren ∧
      ∃ a ∈ symbols, red.reduceRule ∈ (cfg.table.cell (p.stateNode v).stateNo a).reduceRules)

theorem foldl_actorSymbol_effect (cfg : ParserConfig σ Agr Item) (v : ℕ) (symbols : List ℕ)
    (p : GlrParser σ Item) :
    ActorEffect cfg symbols v p (symbols.foldl (actorSymbol cfg v) p) := by
  induction symbols generalizing p with
  | nil => exact ⟨rfl, rfl, rfl, rfl, by simp, by simp⟩
  | cons a symbols ih =>
    have h := ih (actorSymbol cfg v p a)
    have hnode : (actorSymbol cfg v p a).stateNode v = p.stateNode v := rfl
    refine ⟨h.toGss, h.activeNodes, h.createdGroups, h.disable, fun sh => ?_, fun red => ?_⟩
    · rw [List.foldl_cons, h.shifts, hnode]
      have hone : sh ∈ (actorSymbol cfg v p a).pendingShifts ↔ sh ∈ p.pendingShifts ∨
          (sh.stateNodeNo = v ∧ sh.symbolNo = a ∧
            (cfg.table.cell (p.stateNode v).stateNo sh.symbolNo).gotoLine =
              some sh.nextStateNo) := by
        simp only [actorSymbol]
        cases hcell : (cfg.table.cell (p.stateNode v).stateNo a).gotoLine with
        | none =>
          simp only [iff_self_or]
          rintro ⟨_, rfl, hgoto⟩
          rw [hcell] at hgoto
          cases hgoto
        | some q =>
          rw [mem_insertBy_pendingShift, or_comm]
          refine or_congr_right ⟨?_, ?_⟩
          · rintro rfl
            exact ⟨rfl, rfl, hcell⟩
          · rintro ⟨rfl, rfl, hgoto⟩
            rw [hcell] at hgoto
            cases sh
            simp_all
      rw [hone, or_assoc]
      refine or_congr_right ?_
      simp only [List.mem_cons]
      tauto
    · rw [List.foldl_cons, h.reductions, hnode]
      simp only [actorSymbol, mem_insertAll_pendingReduction, mem_reductionsFor, List.mem_cons,
        exists_eq_or_imp]
      tauto

theorem actor_effect {cfg : ParserConfig σ Agr Item} {symbols : List ℕ} {p : GlrParser σ Item}
    {v : ℕ} {rest : List ℕ} (h : p.activeNodes = v :: rest) :
    ActorEffect cfg symbols v { p with activeNodes := rest } (actor cfg symbols p) := by
  rw [actor, h]
  exact foldl_actorSymbol_effect cfg v symbols _

section Invariant
variable (G : WorkGrammar) (C : CollectionSet) (T : GlrTable Agr) (W : ℕ → ℕ → Prop)

/-- A pending reduction: its symbol node hangs at a node of the current position whose state has
finished the rule. -/
structure ReductionOk (g : Gss Item) (red : PendingReduction) (R : WorkRule) : Prop where
  rule : ReduceRule G T red.reduceRule R
  child : red.symbolNodeNo ∈ (g.stateNode red.lastStateNodeNo).symbolChildren
  position : g.position red.lastStateNodeNo = g.current
  finished : ⟨R, R.rightPart.items.length⟩ ∈ C.itemSet (g.stateNode red.lastStateNodeNo).stateNo

/-- A pending shift, waiting at position `i`. -/
structure ShiftOk (g : Gss Item) (i : ℕ) (sh : PendingShift) : Prop where
  lt : sh.stateNodeNo < g.stateNodes.length
  position : sh.stateNodeNo = 0 ∨ g.position sh.stateNodeNo = i
  symbol : W i sh.symbolNo
  goto : C.getGotoValue sh.symbolNo (g.stateNode sh.stateNodeNo).stateNo = some sh.nextStateNo

/-- What holds between any two turns of the closure loop. -/
structure ClosureInv (p : GlrParser σ Item) : Prop where
  gss : GssInv G C T W p.toGss
  fresh : ∀ v, p.getFirstNodeNoOfCurrentClosure ≤ v →
    ∀ s ∈ (p.stateNode v).symbolChildren, (p.symbolNode s).parseChildren ≠ []
  active : ∀ v ∈ p.activeNodes, v < p.stateNodes.length ∧ (v = 0 ∨ p.position v = p.current)
  reductions : ∀ red ∈ p.pendingReductions, ∃ R, ReductionOk G C T p.toGss red R
  shifts : ∀ sh ∈ p.pendingShifts, ShiftOk C W p.toGss p.current sh

variable {G C T W} {g h : Gss Item}

theorem ReductionOk.ext (he : Gss.Ext g h) {red : PendingReduction} {R : WorkRule}
    (hr : ReductionOk G C T g red R) : ReductionOk G C T h red R := by
  have hv := g.lt_of_mem_symbolChildren hr.child
  refine ⟨hr.rule, he.symbolChildren _ hv _ hr.child, ?_, ?_⟩
  · rw [he.position, he.current]
    exact hr.position
  · rw [he.stateNo _ hv]
    exact hr.finished

theorem ShiftOk.ext (he : Gss.Ext g h) {i : ℕ} {sh : PendingShift} (hs : ShiftOk C W g i sh) :
    ShiftOk C W h i sh := by
  refine ⟨hs.lt.trans_le he.states, ?_, hs.symbol, ?_⟩
  · rw [he.position]
    exact hs.position
  · rw [he.stateNo _ hs.lt]
    exact hs.goto

theorem GssInv.frontier_position (hg : GssInv G C T W g) {v : ℕ}
    (hv : g.getFirstNodeNoOfCurrentClosure ≤ v) : g.position v = g.current := by
  unfold Gss.getFirstNodeNoOfCurrentClosure at hv
  split_ifs at hv with hlen
  · have := GssInv.position_le g v
    have hc : g.current = 0 := by
      simp only [beq_iff_eq] at hlen
      simp [Gss.current, hlen]
    omega
  · exact hg.levels_position hv

theorem Gss.Ext.frontier (he : Gss.Ext g h) :
    h.getFirstNodeNoOfCurrentClosure = g.getFirstNodeNoOfCurrentClosure := by
  simp only [Gss.getFirstNodeNoOfCurrentClosure, Gss.lastLevel, he.levels]

/-- Actor keeps the invariant: what it adds is what the table says. -/
theorem ClosureInv.actor {cfg : ParserConfig σ Agr Item} (hT : TableFor G C cfg.table)
    {symbols : List ℕ} {p : GlrParser σ Item} (hp : ClosureInv G C cfg.table W p)
    (hW : ∀ a ∈ symbols, W p.current a) : ClosureInv G C cfg.table W (actor cfg symbols p) := by
  cases hactive : p.activeNodes with
  | nil =>
    rw [TomitaParser.actor, hactive]
    exact hp
  | cons v rest =>
    have he : ActorEffect cfg symbols v _ _ := actor_effect hactive
    generalize TomitaParser.actor cfg symbols p = p' at he
    have hgss : p'.toGss = p.toGss := he.toGss
    have hv := hp.active v (by rw [hactive]; exact List.mem_cons_self)
    refine ⟨?_, ?_, ?_, ?_, ?_⟩
    · rw [hgss]
      exact hp.gss
    · rw [hgss]
      exact hp.fresh
    · rw [hgss, he.activeNodes]
      intro u hu
      exact hp.active u (by rw [hactive]; exact List.mem_cons_of_mem v hu)
    · intro red hred
      rw [hgss]
      rcases (he.reductions red).mp hred with hred | ⟨rfl, hchild, a, _, hr⟩
      · exact hp.reductions red hred
      · obtain ⟨R, hR, hleft, hfin, _, hno⟩ := (hT.reduce _ _ _).mp hr
        refine ⟨R, ⟨hR, hleft, hno⟩, hchild, ?_, hfin⟩
        exact hv.2.resolve_left (hp.gss.ne_zero hchild)
    · intro sh hsh
      rw [hgss]
      rcases (he.shifts sh).mp hsh with hsh | ⟨rfl, hsym, hgoto⟩
      · exact hp.shifts sh hsh
      · refine ⟨hv.1, hv.2, hW _ hsym, ?_⟩
        rw [← hT.gotoLine]
        exact hgoto

end Invariant
end TomitaParser
