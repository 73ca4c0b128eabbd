import TomitaParser.Glr.Reduce
import TomitaParser.Lib.PathSearch
/-! # The search of the reducer

The depth-first search meets every path of the length of the rule. The part of the stack it walks
over does not change on the way. -/

set_option linter.unusedSectionVars false

namespace TomitaParser
open OrderedSet LoopRun Cfg

variable {σ Agr Item : Type*} [Inhabited Item]

section Moves
variable {g : Gss Item} {v : ℕ}

theorem Trail.tail {b : Bool} {d u : ℕ} {rest : List ℕ} (ht : Trail g v b (d :: u :: rest)) :
    Trail g v (!b) (u :: rest) := by
  cases ht with
  | symbol below _ => exact below
  | state below _ => exact below

theorem Trail.push {b : Bool} {d c : ℕ} {rest : List ℕ} (ht : Trail g v b (d :: rest))
    (hc : c ∈ nodesBelow g (rest.length + 1) d) : Trail g v (!b) (c :: d :: rest) := by
  have hmod := ht.length_mod
  rw [List.length_cons] at hmod
  unfold nodesBelow at hc
  cases b with
  | true =>
    rw [if_neg (by simp at hmod; omega)] at hc
    exact Trail.symbol ht hc
  | false =>
    rw [if_pos (by simpa using hmod)] at hc
    exact Trail.state ht hc

/-- The nodes of a stack, its bottom included, form a path. -/
def OnTrail (g : Gss Item) (v : ℕ) (stack : DfsStack) : Prop :=
  ∃ b, Trail g v b (stack.map Prod.fst)

theorem backtrack_onTrail (stack : DfsStack) (h : OnTrail g v stack) :
    OnTrail g v (backtrack g stack) := by
  induction stack with
  | nil => exact h
  | cons top stack ih =>
    obtain ⟨d, start⟩ := top
    cases stack with
    | nil => exact h
    | cons below rest =>
      obtain ⟨b, ht⟩ := h
      rw [backtrack]
      split
      · rename_i c hc
        refine ⟨!b, ?_⟩
        simp only [List.map_cons] at ht ⊢
        refine ht.push ?_
        simpa using List.mem_of_getElem? hc
      · exact ih ⟨!b, ht.tail⟩

theorem dfsMove_onTrail (ruleLength : ℕ) {stack : DfsStack} (hne : stack ≠ [])
    (h : OnTrail g v stack) : OnTrail g v (dfsMove g ruleLength stack) := by
  unfold dfsMove
  split
  · exact backtrack_onTrail stack h
  · rename_i c children hchildren
    split_ifs
    · cases stack with
      | nil => exact absurd rfl hne
      | cons top rest =>
        obtain ⟨b, ht⟩ := h
        refine ⟨!b, ?_⟩
        simp only [List.map_cons] at ht ⊢
        refine ht.push ?_
        simp only [List.length_cons, List.headD_cons] at hchildren
        simp [hchildren]
    · exact backtrack_onTrail stack h

theorem OnTrail.ne_nil {stack : DfsStack} (h : OnTrail g v stack) : stack ≠ [] := by
  rintro rfl
  obtain ⟨b, ht⟩ := h
  cases ht

/-- The nodes a path may go on with. -/
def childrenOf (g : Gss Item) (path : List ℕ) : List ℕ :=
  nodesBelow g path.length (path.headD 0)

theorem backtrack_eq (stack : DfsStack) :
    backtrack g stack = PathSearch.backtrack (childrenOf g) stack := by
  induction stack with
  | nil => rfl
  | cons top stack ih =>
    obtain ⟨d, start⟩ := top
    cases stack with
    | nil => rfl
    | cons below rest =>
      have hkids : childrenOf g (d :: PathSearch.nodes (below :: rest)) =
          nodesBelow g (rest.length + 2) d := by
        simp only [childrenOf, PathSearch.nodes, List.map_cons, List.length_cons, List.length_map,
          List.headD_cons]
      rw [backtrack, PathSearch.backtrack, hkids, ih]
      cases (nodesBelow g (rest.length + 2) d)[start + 1]? <;> rfl

theorem dfsMove_eq (ruleLength : ℕ) (stack : DfsStack) :
    dfsMove g ruleLength stack = PathSearch.move (childrenOf g) (2 * ruleLength) stack := by
  have hkids : childrenOf g (PathSearch.nodes stack) =
      nodesBelow g stack.length (stack.headD (0, 0)).1 := by
    rw [childrenOf, PathSearch.nodes, List.length_map]
    cases stack <;> rfl
  rw [dfsMove, PathSearch.move, hkids, backtrack_eq]
  cases nodesBelow g stack.length (stack.headD (0, 0)).1 <;> rfl

theorem Trail.extends {b : Bool} {path path' : List ℕ} (ht : Trail g v b path)
    (h : PathSearch.Extends (childrenOf g) path path') : ∃ b', Trail g v b' path' := by
  induction h with
  | refl => exact ⟨b, ht⟩
  | @step q c _ hc ih =>
    obtain ⟨b', hq⟩ := ih
    cases q with
    | nil => cases hq
    | cons d rest => exact ⟨!b', hq.push hc⟩

theorem Trail.extends_of_suffix {b : Bool} {path path' : List ℕ} (ht : Trail g v b path')
    (hsuffix : path <:+ path') (hne : path ≠ []) :
    PathSearch.Extends (childrenOf g) path path' := by
  induction ht with
  | base =>
    rcases List.suffix_cons_iff.mp hsuffix with heq | hnil
    · rw [heq]
      exact PathSearch.Extends.refl
    · exact absurd (List.suffix_nil.mp hnil) hne
  | @symbol u s rest below hs ih =>
    rcases List.suffix_cons_iff.mp hsuffix with heq | hbelow
    · rw [heq]
      exact PathSearch.Extends.refl
    · apply PathSearch.Extends.step (ih hbelow)
      have hmod := below.length_mod
      rw [childrenOf, nodesBelow, hmod]
      exact hs
  | @state s w rest below hw ih =>
    rcases List.suffix_cons_iff.mp hsuffix with heq | hbelow
    · rw [heq]
      exact PathSearch.Extends.refl
    · apply PathSearch.Extends.step (ih hbelow)
      have hmod := below.length_mod
      rw [childrenOf, nodesBelow, hmod]
      exact hw

end Moves

section Run
variable {G : WorkGrammar} {C : CollectionSet} {W : ℕ → ℕ → Prop}
variable {cfg : ParserConfig σ Agr Item} {symbols : List ℕ} {p₀ p p' : GlrParser σ Item}
variable {red : PendingReduction} {R : WorkRule}

theorem pathSymbols_ne {path : List ℕ} (h : 1 < path.length) :
    pathSymbols path ≠ [] := by
  cases path with
  | nil => simp at h
  | cons w path =>
    cases path with
    | nil => simp at h
    | cons s path => simp [pathSymbols]

/-- The start of the leftmost symbol node of a path. -/
def pathStart (g : Gss Item) (path : List ℕ) : ℕ :=
  (g.symbolNode ((pathSymbols path).headD 0)).inputStart

/-- What holds at any time while the search for `red` runs that began in `p₀`. -/
structure Searching (G : WorkGrammar) (C : CollectionSet) (W : ℕ → ℕ → Prop)
    (cfg : ParserConfig σ Agr Item) (symbols : List ℕ) (p₀ p : GlrParser σ Item) : Prop where
  inv : ClosureInv G C cfg.table W p
  effect : ReduceEffect cfg symbols p₀ p
  progress : Progress p₀ p

/-- The reduction of a path that is long enough. -/
def visit (cfg : ParserConfig σ Agr Item) (symbols : List ℕ) (reduceRule : ℕ) (path : List ℕ)
    (p : GlrParser σ Item) : GlrParser σ Item :=
  if path.length == 2 * (cfg.table.ruleInfo reduceRule).ruleLength + 1 then
    reduceOnePath cfg symbols reduceRule path p
  else p

theorem ReductionOk.ruleLength (hT : TableFor G C cfg.table)
    (hred : ReductionOk G C cfg.table p₀.toGss red R) :
    (cfg.table.ruleInfo red.reduceRule).ruleLength = R.rightPart.items.length := by
  rw [hred.rule.no]
  exact (hT.info R hred.rule.mem).ruleLength

theorem visit_spec (hG : G.WellFormed) (heos : G.isMeta G.getEndOfStreamSymbol = false)
    (hC : Automaton G C) (hT : TableFor G C cfg.table) (h₀ : GssInv G C cfg.table W p₀.toGss)
    (hred : ReductionOk G C cfg.table p₀.toGss red R)
    (hp : Searching G C W cfg symbols p₀ p) {b : Bool} {path : List ℕ}
    (ht : Trail p₀.toGss red.lastStateNodeNo b path) :
    Searching G C W cfg symbols p₀ (visit cfg symbols red.reduceRule path p) ∧
      ReduceEffect cfg symbols p (visit cfg symbols red.reduceRule path p) ∧
      (Accepting cfg.factory → path.length = 2 * R.rightPart.items.length + 1 →
        HasEdge (visit cfg symbols red.reduceRule path p).toGss (path.headD 0) R.leftPart
          (pathStart p₀.toGss path) p₀.current) := by
  have hlen := hred.ruleLength hT
  rw [visit, hlen]
  by_cases hfull : path.length = 2 * R.rightPart.items.length + 1
  · rw [if_pos (by simpa using hfull)]
    obtain rfl : b = true := by
      have := ht.length_mod
      cases b with
      | true => rfl
      | false =>
        simp only [Bool.toNat_false] at this
        omega
    have hright := List.length_pos_of_ne_nil (hG.right_ne R hred.rule.mem)
    have hne : pathSymbols path ≠ [] :=
      pathSymbols_ne (by omega)
    have hf := ht.found hG heos h₀ hC hred.rule hred.finished hred.position hfull
    obtain ⟨hf', hstart, _⟩ := hf.ext hp.effect.ext hne
    have hspec : PathSpec G C W cfg symbols p
        (reduceOnePath cfg symbols red.reduceRule path p) (path.headD 0) R.leftPart
        (FoundReduction.inputStart ⟨red.reduceRule, pathSymbols path, path.headD 0⟩ p.toGss) :=
      reduceOnePath_spec hC hT hp.inv hf' hne
    rw [hstart] at hspec
    have hcurrent := hp.effect.ext.current
    refine ⟨⟨hspec.inv, hp.effect.trans hspec.effect, hp.progress.trans hspec.progress⟩,
      hspec.effect, fun hacc _ => ?_⟩
    rw [← hcurrent]
    exact hspec.edge hacc
  · rw [if_neg (by simpa using hfull)]
    refine ⟨hp, ?_, fun _ h => absurd h hfull⟩
    exact ReduceEffect.refl cfg symbols rfl rfl rfl rfl (le_refl _) fun _ => rfl

theorem searching_start {rest : List PendingReduction} (hp : ClosureInv G C cfg.table W p)
    (h : p.pendingReductions = red :: rest) :
    Searching G C W cfg symbols { p with pendingReductions := rest }
      { p with pendingReductions := rest } := by
  refine ⟨⟨hp.gss, hp.fresh, hp.active, ?_, hp.shifts⟩, ?_, Progress.refl _⟩
  · intro red' hred'
    exact hp.reductions red' (by rw [h]; exact List.mem_cons_of_mem red hred')
  · exact ReduceEffect.refl cfg symbols rfl rfl rfl rfl (le_refl _) fun _ => rfl

theorem dfsStep_eq (stack : DfsStack) :
    dfsStep cfg symbols red.reduceRule (p, stack) =
      let p' := visit cfg symbols red.reduceRule (stack.map Prod.fst) p
      let stack' := dfsMove p'.toGss (cfg.table.ruleInfo red.reduceRule).ruleLength stack
      if stack'.length == 1 then .exit .finished (p', stack') else .next (p', stack') := by
  simp only [dfsStep, visit, List.length_map]

theorem Trail.frozen (h₀ : GssInv G C cfg.table W p₀.toGss) (he : ReduceEffect cfg symbols p₀ p)
    (hp : GssInv G C cfg.table W p.toGss) {v : ℕ} {b : Bool} {d u : ℕ} {rest : List ℕ}
    (ht : Trail p₀.toGss v b (d :: u :: rest)) :
    nodesBelow p.toGss (rest.length + 2) d = nodesBelow p₀.toGss (rest.length + 2) d := by
  have hmod := ht.length_mod
  simp only [List.length_cons] at hmod
  unfold nodesBelow
  cases ht with
  | symbol below hs =>
    have heven : (rest.length + 1 + 1) % 2 = 0 := hmod
    rw [if_pos heven, if_pos heven]
    exact he.nodeChildren d (h₀.symbol_lt u d hs)
  | state below hw =>
    have hodd : ¬(rest.length + 1 + 1) % 2 = 0 := by
      simp only [Bool.toNat_true] at hmod ⊢
      omega
    rw [if_neg hodd, if_neg hodd]
    cases below with
    | @symbol x _ rest below hs =>
      exact he.below h₀ hp hs hw

theorem backtrack_frozen (h₀ : GssInv G C cfg.table W p₀.toGss)
    (hp : Searching G C W cfg symbols p₀ p) {v : ℕ} (stack : DfsStack)
    (ht : OnTrail p₀.toGss v stack) : backtrack p.toGss stack = backtrack p₀.toGss stack := by
  induction stack with
  | nil => rfl
  | cons top stack ih =>
    obtain ⟨d, start⟩ := top
    cases stack with
    | nil => rfl
    | cons below rest =>
      obtain ⟨b, ht⟩ := ht
      have hfrozen := ht.frozen h₀ hp.effect hp.inv.gss
      rw [List.length_map] at hfrozen
      rw [backtrack, backtrack, hfrozen, ih ⟨!b, ht.tail⟩]

theorem dfsMove_frozen (h₀ : GssInv G C cfg.table W p₀.toGss)
    (hp : Searching G C W cfg symbols p₀ p) {v : ℕ} {stack : DfsStack}
    (ht : OnTrail p₀.toGss v stack) (hlen : 1 < stack.length) (ruleLength : ℕ) :
    dfsMove p.toGss ruleLength stack = dfsMove p₀.toGss ruleLength stack := by
  have hback := backtrack_frozen h₀ hp stack ht
  obtain ⟨b, ht⟩ := ht
  cases stack with
  | nil => simp at hlen
  | cons top stack =>
    cases stack with
    | nil => simp at hlen
    | cons below rest =>
      have hfrozen := ht.frozen h₀ hp.effect hp.inv.gss
      rw [List.length_map] at hfrozen
      simp only [dfsMove, List.length_cons, List.headD_cons, hback]
      rw [hfrozen]

/-- The rule for the reducer, however long it may run: it keeps the invariant, and what reducing one
path keeps. -/
theorem reducer_rule (hG : G.WellFormed) (heos : G.isMeta G.getEndOfStreamSymbol = false)
    (hC : Automaton G C) (hT : TableFor G C cfg.table) (hp : ClosureInv G C cfg.table W p)
    {rest : List PendingReduction} (h : p.pendingReductions = red :: rest)
    (hR : ReductionOk G C cfg.table p.toGss red R) {Q : GlrParser σ Item → Prop}
    (hvisit : ∀ p' b path, Searching G C W cfg symbols { p with pendingReductions := rest } p' →
      Trail p.toGss red.lastStateNodeNo b path → Q p' →
        Q (visit cfg symbols red.reduceRule path p'))
    (hQ : Q { p with pendingReductions := rest }) (fuel : ℕ) :
    Searching G C W cfg symbols { p with pendingReductions := rest }
      (reducer cfg fuel symbols p).2 ∧ Q (reducer cfg fuel symbols p).2 := by
  obtain ⟨p₀, hp₀⟩ : ∃ p₀ : GlrParser σ Item, p₀ = { p with pendingReductions := rest } := ⟨_, rfl⟩
  have hgss : p₀.toGss = p.toGss := by rw [hp₀]
  have hstart : Searching G C W cfg symbols p₀ p₀ := by
    rw [hp₀]
    exact searching_start hp h
  have h₀ := hstart.inv.gss
  simp only [reducer, h]
  rw [← hp₀] at hvisit hQ ⊢
  rw [← hgss] at hR hvisit
  refine runLoop_post
    (fun s : GlrParser σ Item × DfsStack => (Searching G C W cfg symbols p₀ s.1 ∧ Q s.1) ∧
      OnTrail p₀.toGss red.lastStateNodeNo s.2 ∧ 1 < s.2.length)
    (fun _ (s : GlrParser σ Item × DfsStack) => Searching G C W cfg symbols p₀ s.1 ∧ Q s.1) ?_
    (fun _ hs => hs.1) fuel _ ?_
  · rintro ⟨p, stack⟩ ⟨⟨hs, hq⟩, ht, hlen⟩
    dsimp only at hs hq ht hlen
    obtain ⟨b, htrail⟩ := id ht
    have hsearch := (visit_spec hG heos hC hT h₀ hR hs htrail).1
    have hkeep := hvisit p b _ hs htrail hq
    have hmove := dfsMove_frozen h₀ hsearch ht hlen
      (cfg.table.ruleInfo red.reduceRule).ruleLength
    rw [dfsStep_eq]
    simp only
    split_ifs with hone
    · exact ⟨hsearch, hkeep⟩
    · have hnext := dfsMove_onTrail (cfg.table.ruleInfo red.reduceRule).ruleLength ht.ne_nil ht
      rw [← hmove] at hnext
      have hpos := List.length_pos_of_ne_nil hnext.ne_nil
      simp only [beq_iff_eq] at hone
      exact ⟨⟨hsearch, hkeep⟩, hnext, show 1 < (dfsMove _ _ _).length by omega⟩
  · refine ⟨⟨hstart, hQ⟩, ⟨false, Trail.symbol Trail.base ?_⟩, by simp⟩
    exact hR.child

theorem reducer_searching (hG : G.WellFormed) (heos : G.isMeta G.getEndOfStreamSymbol = false)
    (hC : Automaton G C) (hT : TableFor G C cfg.table) (hp : ClosureInv G C cfg.table W p)
    {rest : List PendingReduction} (h : p.pendingReductions = red :: rest) (fuel : ℕ) :
    Searching G C W cfg symbols { p with pendingReductions := rest }
      (reducer cfg fuel symbols p).2 := by
  obtain ⟨R, hred⟩ := hp.reductions red (by rw [h]; exact List.mem_cons_self)
  exact (reducer_rule (Q := fun _ => True) hG heos hC hT hp h hred (fun _ _ _ _ _ _ => trivial)
    trivial fuel).1

/-- How far down a path can still lead from its last node. -/
def depthBelow (g : Gss Item) (b : Bool) (d : ℕ) : ℕ :=
  if b then 2 * g.position d else 2 * (g.symbolNode d).inputStart + 1

theorem depthBelow_lt {g : Gss Item} (hg : GssInv G C cfg.table W g) {v : ℕ} {b : Bool}
    {d u c : ℕ} {rest : List ℕ} (ht : Trail g v b (d :: u :: rest))
    (hc : c ∈ nodesBelow g (rest.length + 2) d) : depthBelow g (!b) c < depthBelow g b d := by
  have hpush := ht.push hc
  cases ht with
  | symbol below hs =>
    cases hpush with
    | state _ hw =>
      have hle : g.position c ≤ (g.symbolNode d).inputStart := by
        rcases (hg.edge u d hs c hw).position with rfl | h
        · rw [hg.position_zero]
          exact Nat.zero_le _
        · exact h.le
      simp only [depthBelow, Bool.not_false, if_true, Bool.false_eq_true, if_false]
      omega
  | state below hw =>
    cases hpush with
    | symbol _ hs =>
      have hend := hg.inputEnd d c hs
      have hlt := (hg.symbol c (hg.symbol_lt d c hs)).start_lt
      simp only [depthBelow, Bool.not_true, Bool.false_eq_true, if_false, if_true]
      omega

/-- Every path of the rule's length that goes on from `path` has its edge. -/
def Covered (g₀ : Gss Item) (v : ℕ) (R : WorkRule) (p : GlrParser σ Item) (path : List ℕ) : Prop :=
  ∀ path', Trail g₀ v true path' → path'.length = 2 * R.rightPart.items.length + 1 →
    path <:+ path' →
      HasEdge p.toGss (path'.headD 0) R.leftPart (pathStart g₀ path') g₀.current

/-- How far down a path can still lead. -/
def pathDepth (g : Gss Item) (path : List ℕ) : ℕ :=
  depthBelow g (path.length % 2 == 1) (path.headD 0)

theorem pathDepth_lt {g : Gss Item} (hg : GssInv G C cfg.table W g) {v : ℕ} {b : Bool}
    {d u c : ℕ} {rest : List ℕ} (ht : Trail g v b (d :: u :: rest))
    (hc : c ∈ childrenOf g (d :: u :: rest)) :
    pathDepth g (c :: d :: u :: rest) < pathDepth g (d :: u :: rest) := by
  have hflag : ∀ {b : Bool} {path : List ℕ}, Trail g v b path → (path.length % 2 == 1) = b := by
    intro b path hpath
    rw [hpath.length_mod]
    cases b <;> rfl
  rw [pathDepth, pathDepth, hflag ht, hflag (ht.push hc)]
  exact depthBelow_lt hg ht hc

/-- The paths that `ReduceOnePath` is called for, listed from their ends, as the search goes on. -/
def reducedPaths (cfg : ParserConfig σ Agr Item) (symbols : List ℕ) (reduceRule : ℕ) :
    ℕ → GlrParser σ Item × DfsStack → List (List ℕ)
  | 0, _ => []
  | fuel + 1, s =>
    (if s.2.length == 2 * (cfg.table.ruleInfo reduceRule).ruleLength + 1 then [s.2.map Prod.fst]
      else []) ++
      match dfsStep cfg symbols reduceRule s with
      | .next s' => reducedPaths cfg symbols reduceRule fuel s'
      | .exit _ _ => []

/-- The calls of `ReduceOnePath` in a run of `reducer`. -/
def reducerPaths (cfg : ParserConfig σ Agr Item) (fuel : ℕ) (symbols : List ℕ)
    (p : GlrParser σ Item) : List (List ℕ) :=
  match p.pendingReductions with
  | [] => []
  | red :: rest =>
    reducedPaths cfg symbols red.reduceRule fuel
      ({ p with pendingReductions := rest }, [(red.symbolNodeNo, 0), (red.lastStateNodeNo, 0)])

theorem reducedPaths_foldl (reduceRule fuel : ℕ) (s : GlrParser σ Item × DfsStack) :
    (runLoop (dfsStep cfg symbols reduceRule) .outOfFuel fuel s).2.1 =
      (reducedPaths cfg symbols reduceRule fuel s).foldl
        (fun q path => reduceOnePath cfg symbols reduceRule path q) s.1 := by
  induction fuel generalizing s with
  | zero => rfl
  | succ fuel ih =>
    rw [runLoop, reducedPaths, List.foldl_append]
    simp only [dfsStep]
    split_ifs
    all_goals first
      | rfl
      | exact ih _

theorem reducerPaths_foldl {rest : List PendingReduction}
    (hred : p.pendingReductions = red :: rest) (fuel : ℕ) :
    (reducer cfg fuel symbols p).2 = (reducerPaths cfg fuel symbols p).foldl
      (fun q path => reduceOnePath cfg symbols red.reduceRule path q)
      { p with pendingReductions := rest } := by
  simp only [reducer, reducerPaths, hred]
  exact reducedPaths_foldl red.reduceRule fuel _

/-- The loop and its paths, by what the search visits. -/
theorem runLoop_visits (hG : G.WellFormed) (heos : G.isMeta G.getEndOfStreamSymbol = false)
    (hC : Automaton G C) (hT : TableFor G C cfg.table) (h₀ : GssInv G C cfg.table W p₀.toGss)
    (hR : ReductionOk G C cfg.table p₀.toGss red R) (fuel : ℕ) :
    ∀ (p : GlrParser σ Item) (stack : DfsStack) (paths : List (List ℕ)),
      Searching G C W cfg symbols p₀ p → OnTrail p₀.toGss red.lastStateNodeNo stack →
      1 < stack.length →
      PathSearch.visits (childrenOf p₀.toGss)
        (2 * (cfg.table.ruleInfo red.reduceRule).ruleLength) fuel stack = some paths →
      (runLoop (dfsStep cfg symbols red.reduceRule) .outOfFuel fuel (p, stack)).1 = .finished ∧
        reducedPaths cfg symbols red.reduceRule fuel (p, stack) = paths := by
  induction fuel with
  | zero =>
    intro p stack paths _ _ _ hvisits
    cases hvisits
  | succ fuel ih =>
    intro p stack paths hp ht hlen hvisits
    obtain ⟨b, htrail⟩ := id ht
    have hsearch := (visit_spec hG heos hC hT h₀ hR hp htrail).1
    have hmove := dfsMove_frozen h₀ hsearch ht hlen
      (cfg.table.ruleInfo red.reduceRule).ruleLength
    have hnext := dfsMove_onTrail (cfg.table.ruleInfo red.reduceRule).ruleLength ht.ne_nil ht
    have hpos := List.length_pos_of_ne_nil hnext.ne_nil
    obtain ⟨others, hothers, hpaths⟩ := Option.map_eq_some_iff.mp hvisits
    rw [runLoop, reducedPaths, dfsStep_eq, ← hpaths]
    dsimp only
    rw [hmove]
    rw [dfsMove_eq] at hnext hpos ⊢
    simp only [beq_iff_eq]
    by_cases hone : (PathSearch.move (childrenOf p₀.toGss)
        (2 * (cfg.table.ruleInfo red.reduceRule).ruleLength) stack).length = 1
    · rw [if_pos hone] at hothers ⊢
      rw [← Option.some.inj hothers]
      exact ⟨rfl, rfl⟩
    · rw [if_neg hone] at hothers ⊢
      obtain ⟨hfinished, hreduced⟩ := ih _ _ others hsearch hnext (by omega) hothers
      dsimp only
      rw [hreduced]
      exact ⟨hfinished, rfl⟩

/-- With enough fuel the reducer ends and has reduced the paths that go on from the nodes of the
reduction. -/
theorem reducer_visits (hG : G.WellFormed) (heos : G.isMeta G.getEndOfStreamSymbol = false)
    (hC : Automaton G C) (hT : TableFor G C cfg.table) (hp : ClosureInv G C cfg.table W p)
    {rest : List PendingReduction} (h : p.pendingReductions = red :: rest)
    (hR : ReductionOk G C cfg.table p.toGss red R) :
    ∃ N found, (∀ fuel, N ≤ fuel → (reducer cfg fuel symbols p).1 = .finished ∧
        reducerPaths cfg fuel symbols p = found) ∧
      ((∀ path, (childrenOf p.toGss path).Nodup) → found.Nodup) ∧
      ∀ path, path ∈ found ↔
        PathSearch.Extends (childrenOf p.toGss) [red.symbolNodeNo, red.lastStateNodeNo] path ∧
          path.length = 2 * (cfg.table.ruleInfo red.reduceRule).ruleLength + 1 := by
  obtain ⟨p₀, hp₀⟩ : ∃ p₀ : GlrParser σ Item, p₀ = { p with pendingReductions := rest } := ⟨_, rfl⟩
  have hgss : p₀.toGss = p.toGss := by rw [hp₀]
  have hstart : Searching G C W cfg symbols p₀ p₀ := by
    rw [hp₀]
    exact searching_start hp h
  rw [← hgss] at hR ⊢
  have hroot := Trail.symbol (Trail.base (g := p₀.toGss)) hR.child
  -- each node of a path is further down than the one before it
  have hdepth : ∀ path,
      PathSearch.Extends (childrenOf p₀.toGss) [red.symbolNodeNo, red.lastStateNodeNo] path →
        ∀ c ∈ childrenOf p₀.toGss path,
          pathDepth p₀.toGss (c :: path) < pathDepth p₀.toGss path := by
    intro path hpath c hc
    obtain ⟨b, ht⟩ := hroot.extends hpath
    have hlen := hpath.suffix.length_le
    cases path with
    | nil => cases ht
    | cons d path =>
      cases path with
      | nil =>
        simp only [List.length_cons, List.length_nil] at hlen
        omega
      | cons u below => exact pathDepth_lt hstart.inv.gss ht hc
  obtain ⟨N, found, hrun, hnodup, hfound⟩ := @PathSearch.finds_subtree _ _
    (2 * (cfg.table.ruleInfo red.reduceRule).ruleLength) _ (pathDepth p₀.toGss) hdepth _
    red.symbolNodeNo (red.lastStateNodeNo, 0) [] rfl PathSearch.Extends.refl
  refine ⟨N, found, ?_, hnodup, hfound⟩
  intro fuel hfuel
  obtain ⟨k, hk⟩ := Nat.exists_eq_add_of_le hfuel
  have hvisits : PathSearch.visits (childrenOf p₀.toGss)
      (2 * (cfg.table.ruleInfo red.reduceRule).ruleLength) fuel
      [(red.symbolNodeNo, 0), (red.lastStateNodeNo, 0)] = some found := by
    dsimp only at hrun
    rw [hk, hrun]
    exact congrArg some (List.append_nil found)
  have hloop := runLoop_visits hG heos hC hT hstart.inv.gss hR fuel p₀
    [(red.symbolNodeNo, 0), (red.lastStateNodeNo, 0)] found hstart ⟨false, hroot⟩
    (Nat.lt_succ_self 1) hvisits
  simp only [reducer, reducerPaths, h]
  rw [← hp₀]
  exact hloop

/-- The reduction of one path after the other keeps the invariant, and an accepting factory gets an
edge for each. -/
theorem foldl_reduceOnePath_spec (hG : G.WellFormed)
    (heos : G.isMeta G.getEndOfStreamSymbol = false) (hC : Automaton G C)
    (hT : TableFor G C cfg.table) (h₀ : GssInv G C cfg.table W p₀.toGss)
    (hR : ReductionOk G C cfg.table p₀.toGss red R) (paths : List (List ℕ)) :
    ∀ p, Searching G C W cfg symbols p₀ p →
      (∀ path ∈ paths, Trail p₀.toGss red.lastStateNodeNo true path ∧
        path.length = 2 * R.rightPart.items.length + 1) →
      let p' := paths.foldl (fun q path => reduceOnePath cfg symbols red.reduceRule path q) p
      Searching G C W cfg symbols p₀ p' ∧ ReduceEffect cfg symbols p p' ∧
        (Accepting cfg.factory → ∀ path ∈ paths,
          HasEdge p'.toGss (path.headD 0) R.leftPart (pathStart p₀.toGss path) p₀.current) := by
  induction paths with
  | nil =>
    intro p hp _
    refine ⟨hp, ReduceEffect.refl cfg symbols rfl rfl rfl rfl (le_refl _) fun _ => rfl, ?_⟩
    intro _ path hpath
    cases hpath
  | cons path paths ih =>
    intro p hp hpaths
    obtain ⟨ht, hlen⟩ := hpaths path List.mem_cons_self
    have hspec := visit_spec hG heos hC hT h₀ hR hp ht
    have hvisit : visit cfg symbols red.reduceRule path p =
        reduceOnePath cfg symbols red.reduceRule path p := by
      rw [visit, hR.ruleLength hT, if_pos (by simpa using hlen)]
    rw [hvisit] at hspec
    obtain ⟨hp₁, he₁, hedge⟩ := hspec
    obtain ⟨hp₂, he₂, hedges⟩ := ih _ hp₁ fun q hq => hpaths q (List.mem_cons_of_mem path hq)
    refine ⟨hp₂, he₁.trans he₂, ?_⟩
    intro hacc q hq
    rcases List.mem_cons.mp hq with heq | hq
    · rw [heq]
      exact (hedge hacc hlen).ext hp₁.inv.gss he₂.ext
    · exact hedges hacc q hq

/-- With enough fuel the reducer ends, and an accepting factory gets an edge for every path. -/
theorem reducer_finishes (hG : G.WellFormed) (heos : G.isMeta G.getEndOfStreamSymbol = false)
    (hC : Automaton G C) (hT : TableFor G C cfg.table) (hp : ClosureInv G C cfg.table W p)
    {rest : List PendingReduction} (h : p.pendingReductions = red :: rest)
    (hR : ReductionOk G C cfg.table p.toGss red R) :
    ∃ N p', (∀ fuel, N ≤ fuel → reducer cfg fuel symbols p = (.finished, p')) ∧
      Searching G C W cfg symbols { p with pendingReductions := rest } p' ∧
      (Accepting cfg.factory →
        Covered p.toGss red.lastStateNodeNo R p' [red.symbolNodeNo, red.lastStateNodeNo]) := by
  obtain ⟨N, found, hrun, _, hfound⟩ := @reducer_visits _ _ _ _ _ _ _ _ symbols _ _ _ hG heos hC hT
    hp _ h hR
  rw [hR.ruleLength hT] at hfound
  have htrails : ∀ path ∈ found, Trail p.toGss red.lastStateNodeNo true path ∧
      path.length = 2 * R.rightPart.items.length + 1 := by
    intro path hpath
    obtain ⟨hext, hlen⟩ := (hfound path).mp hpath
    obtain ⟨b, ht⟩ := (Trail.symbol Trail.base hR.child).extends hext
    have hmod := ht.length_mod
    cases b with
    | true => exact ⟨ht, hlen⟩
    | false =>
      rw [Bool.toNat_false] at hmod
      omega
  have hstart : Searching G C W cfg symbols { p with pendingReductions := rest }
    { p with pendingReductions := rest } := searching_start hp h
  obtain ⟨hsearch, _, hedges⟩ := foldl_reduceOnePath_spec hG heos hC hT hstart.inv.gss hR found _
    hstart htrails
  refine ⟨N, _, ?_, hsearch, ?_⟩
  · intro fuel hfuel
    obtain ⟨hfinished, hpaths⟩ := hrun fuel hfuel
    rw [← hpaths, ← reducerPaths_foldl h, ← hfinished]
  · intro hacc path ht hlen hsuffix
    apply hedges hacc path
    rw [hfound]
    exact ⟨ht.extends_of_suffix hsuffix (List.cons_ne_nil _ _), hlen⟩

end Run
end TomitaParser
