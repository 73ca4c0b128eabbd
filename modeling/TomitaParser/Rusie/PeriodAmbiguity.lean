import Mathlib.Algebra.GroupWithZero.Nat
import Mathlib.Data.List.Perm.Subperm
import Mathlib.Data.List.Pairwise
import Mathlib.Algebra.BigOperators.Group.List.Basic
import Mathlib.Algebra.Order.BigOperators.Group.List
/-! # Ambiguous periods

Of occurrences that overlap, those are kept that cover most. The best solution for the occurrences
up to one is made of the best solutions for those before it. -/

namespace TomitaParser.Rusie

/-- `COccurrence`: the words from `first` up to `second`. -/
structure Occurrence (Item : Type) where
  first : ℕ
  second : ℕ
  grammarRuleNo : ℕ
  inputItem : Option Item
deriving DecidableEq

/-- What a solution asks of its group of words, the `CWeightSynGroup`, and of the items. -/
structure WeightGroup (Item Group : Type) where
  group : Group
  setPair : ℕ → ℕ → Group → Group
  setLastWord : ℕ → Group → Group
  addWeightOfChild : Item → Group → Group
  /-- The value of a `TWeight`. -/
  getWeight : Group → ℕ
  getCoverage : Item → ℕ

/-- `CPeriodSolutionWeight`. -/
structure PeriodSolution (Group : Type) where
  solution : List ℕ
  virtualGroup : Group
  coverage : ℕ
  weight : ℕ

section Solutions
variable {Item Group : Type} (ops : WeightGroup Item Group)

namespace PeriodSolution

def empty : PeriodSolution Group := ⟨[], ops.group, 0, 0⟩

/-- The order of solutions. Two groups are worse than one. -/
def less (x y : PeriodSolution Group) : Bool :=
  if x.coverage ≠ y.coverage then decide (x.coverage < y.coverage)
  else if x.weight ≠ y.weight then decide (x.weight < y.weight)
  else decide (x.solution.length > y.solution.length)

end PeriodSolution

namespace Occurrence

/-- What an occurrence adds to the coverage. -/
def coverage (o : Occurrence Item) : ℕ :=
  let covered := match o.inputItem with
    | some item => ops.getCoverage item
    | none => 0
  if covered = 0 then o.second - o.first else covered

end Occurrence

/-- `AddOccurrence`. -/
def PeriodSolution.addOccurrence (o : Occurrence Item) (index : ℕ) (s : PeriodSolution Group) :
    PeriodSolution Group :=
  let s := match o.inputItem with
    | some item =>
      let group := ops.addWeightOfChild item (ops.setLastWord (o.second - 1) s.virtualGroup)
      { s with virtualGroup := group, weight := ops.getWeight group }
    | none => s
  { s with coverage := s.coverage + o.coverage ops, solution := s.solution ++ [index] }

/-- The loop over the occurrences before one, the last first: the best solution of those that
intersect it, and the solution of the first that does not. -/
def scanSolutions (current : Occurrence Item) :
    Option (PeriodSolution Group) → List (Occurrence Item × PeriodSolution Group) →
      Option (PeriodSolution Group) × Option (PeriodSolution Group)
  | overlapping, [] => (overlapping, none)
  | overlapping, (o, s) :: rest =>
    if o.second ≤ current.first then (overlapping, some s)
    else
      match overlapping with
      | none => scanSolutions current (some s) rest
      | some best => scanSolutions current (some (if best.less s then s else best)) rest

/-- What the current occurrence is added to. -/
def startSolution (current : Occurrence Item) :
    Option (PeriodSolution Group) → PeriodSolution Group
  | none =>
    { PeriodSolution.empty ops with
      virtualGroup := ops.setPair current.first current.first ops.group }
  | some s => s

/-- The solution for the occurrences up to one. -/
def nextSolution (done : List (Occurrence Item × PeriodSolution Group))
    (current : Occurrence Item) :
    PeriodSolution Group :=
  let r := scanSolutions current none done
  let solution := (startSolution ops current r.2).addOccurrence ops current done.length
  match r.1 with
  | some best => if solution.less best then best else solution
  | none => solution

/-- The occurrences with their solutions, the last first. -/
def allSolutions (occurrences : List (Occurrence Item)) :
    List (Occurrence Item × PeriodSolution Group) :=
  occurrences.foldl (fun done o => (o, nextSolution ops done o) :: done) []

/-- `SolveAmbiguity` after the sort: the indices of the occurrences that are kept. -/
def solveIndices (occurrences : List (Occurrence Item)) : List ℕ :=
  match occurrences with
  | [] => []
  | [_] => [0]
  | _ =>
    match allSolutions ops occurrences with
    | [] => []
    | (_, best) :: _ => best.solution

/-- `SortByRightBorderPredicate`. -/
def sortByRightBorder (x y : Occurrence Item) : Bool :=
  if x.second = y.second then decide (x.first < y.first) else decide (x.second < y.second)

/-- `std::sort`, which puts equivalent occurrences in any order. -/
structure SortedAs (occurrences sorted : List (Occurrence Item)) : Prop where
  perm : sorted.Perm occurrences
  sorted : sorted.Pairwise fun x y => sortByRightBorder y x = false

/-- `SolveAmbiguity` for sorted occurrences. -/
def solveAmbiguity (sorted : List (Occurrence Item)) : List (Occurrence Item) :=
  let kept := solveIndices ops sorted
  if kept.length ≠ sorted.length then kept.filterMap (sorted[·]?) else sorted

/-- The occurrences have no word in common. -/
def NonOverlapping (occurrences : List (Occurrence Item)) : Prop :=
  occurrences.Pairwise fun x y => x.second ≤ y.first ∨ y.second ≤ x.first

def totalCoverage (occurrences : List (Occurrence Item)) : ℕ :=
  (occurrences.map (·.coverage ops)).sum

/-- No occurrence carries an item. -/
def NoItems (occurrences : List (Occurrence Item)) : Prop := ∀ o ∈ occurrences, o.inputItem = none

variable {ops} {occurrences : List (Occurrence Item)}

theorem Occurrence.coverage_pos {o : Occurrence Item} (h : o.first < o.second) :
    0 < o.coverage ops := by
  unfold Occurrence.coverage
  dsimp only
  split <;> split_ifs <;> omega

theorem totalCoverage_cons (o : Occurrence Item) (rest : List (Occurrence Item)) :
    totalCoverage ops (o :: rest) = o.coverage ops + totalCoverage ops rest := by
  simp [totalCoverage]

/-- A solution of some of the occurrences `before`, the last of which comes first. -/
structure IsSolution (ops : WeightGroup Item Group) (occurrences before : List (Occurrence Item))
    (s : PeriodSolution Group) (chosen : List (Occurrence Item)) : Prop where
  sublist : chosen.Sublist before
  nonOverlapping : NonOverlapping chosen
  indices : s.solution.map (occurrences[·]?) = chosen.reverse.map some
  coverage : s.coverage = totalCoverage ops chosen
  weight : NoItems occurrences → s.weight = 0

/-- A solution that nothing in a set of choices covers more than, nor, where no occurrence carries
an item, as much with fewer occurrences. -/
structure Optimal (ops : WeightGroup Item Group) (occurrences : List (Occurrence Item))
    (choice : List (Occurrence Item) → Prop) (s : PeriodSolution Group) : Prop where
  best : ∀ sub, choice sub → totalCoverage ops sub ≤ s.coverage
  fewest : NoItems occurrences → ∀ sub, choice sub → totalCoverage ops sub = s.coverage →
    s.solution.length ≤ sub.length

/-- A choice of occurrences without words in common. -/
def Choice (before sub : List (Occurrence Item)) : Prop := sub.Sublist before ∧ NonOverlapping sub

theorem IsSolution.length_eq {before chosen : List (Occurrence Item)} {s : PeriodSolution Group}
    (h : IsSolution ops occurrences before s chosen) : s.solution.length = chosen.length := by
  simpa using congrArg List.length h.indices

theorem IsSolution.mono {before before' chosen : List (Occurrence Item)} {s : PeriodSolution Group}
    (h : IsSolution ops occurrences before s chosen) (hsub : before.Sublist before') :
    IsSolution ops occurrences before' s chosen :=
  { h with sublist := h.sublist.trans hsub }

theorem PeriodSolution.coverage_le_of_less {x y : PeriodSolution Group} (h : x.less y = true) :
    x.coverage ≤ y.coverage := by
  unfold PeriodSolution.less at h
  split_ifs at h with h₁ <;> simp only [decide_eq_true_eq] at h <;> omega

theorem PeriodSolution.length_lt_of_less {x y : PeriodSolution Group} (h : x.less y = true)
    (hcoverage : x.coverage = y.coverage) (hweight : x.weight = y.weight) :
    y.solution.length < x.solution.length := by
  unfold PeriodSolution.less at h
  rw [if_neg (not_not.mpr hcoverage), if_neg (not_not.mpr hweight)] at h
  exact of_decide_eq_true h

theorem PeriodSolution.coverage_le_of_not_less {x y : PeriodSolution Group} (h : x.less y = false) :
    y.coverage ≤ x.coverage := by
  unfold PeriodSolution.less at h
  split_ifs at h with h₁ <;> simp only [decide_eq_false_iff_not] at h <;> omega

theorem PeriodSolution.length_le_of_not_less {x y : PeriodSolution Group} (h : x.less y = false)
    (hcoverage : x.coverage = y.coverage) (hweight : x.weight = y.weight) :
    x.solution.length ≤ y.solution.length := by
  unfold PeriodSolution.less at h
  rw [if_neg (not_not.mpr hcoverage), if_neg (not_not.mpr hweight)] at h
  have := of_decide_eq_false h
  omega

/-- Of two solutions, the better one is optimal for the choices that either is optimal for. -/
theorem Optimal.choose {choice choice' : List (Occurrence Item) → Prop} {x y : PeriodSolution Group}
    (hx : Optimal ops occurrences choice x) (hy : Optimal ops occurrences choice' y)
    (hweight : NoItems occurrences → x.weight = y.weight) :
    Optimal ops occurrences (fun sub => choice sub ∨ choice' sub) (if x.less y then y else x) := by
  cases hless : x.less y with
  | true =>
    rw [if_pos rfl]
    have hle := PeriodSolution.coverage_le_of_less hless
    constructor
    · rintro sub (h | h)
      · exact (hx.best sub h).trans hle
      · exact hy.best sub h
    · rintro hnone sub (h | h) hsub
      · have hxy : x.coverage = y.coverage := by
          have := hx.best sub h
          omega
        have hlt := PeriodSolution.length_lt_of_less hless hxy (hweight hnone)
        have := hx.fewest hnone sub h (by omega)
        omega
      · exact hy.fewest hnone sub h hsub
  | false =>
    rw [if_neg Bool.false_ne_true]
    have hle := PeriodSolution.coverage_le_of_not_less hless
    constructor
    · rintro sub (h | h)
      · exact hx.best sub h
      · exact (hy.best sub h).trans hle
    · rintro hnone sub (h | h) hsub
      · exact hx.fewest hnone sub h hsub
      · have hxy : x.coverage = y.coverage := by
          have := hy.best sub h
          omega
        have hlen := PeriodSolution.length_le_of_not_less hless hxy (hweight hnone)
        have := hy.fewest hnone sub h (by omega)
        omega

theorem Optimal.mono {choice choice' : List (Occurrence Item) → Prop} {s : PeriodSolution Group}
    (h : Optimal ops occurrences choice s) (himp : ∀ sub, choice' sub → choice sub) :
    Optimal ops occurrences choice' s :=
  ⟨fun sub hsub => h.best sub (himp sub hsub),
    fun hnone sub hsub => h.fewest hnone sub (himp sub hsub)⟩

@[simp] theorem PeriodSolution.addOccurrence_coverage (s : PeriodSolution Group)
    (o : Occurrence Item) (index : ℕ) :
    (s.addOccurrence ops o index).coverage = s.coverage + o.coverage ops := by
  unfold PeriodSolution.addOccurrence
  cases o.inputItem <;> rfl

@[simp] theorem PeriodSolution.addOccurrence_solution (s : PeriodSolution Group)
    (o : Occurrence Item) (index : ℕ) :
    (s.addOccurrence ops o index).solution = s.solution ++ [index] := by
  unfold PeriodSolution.addOccurrence
  cases o.inputItem <;> rfl

theorem startSolution_coverage (current : Occurrence Item) (s : Option (PeriodSolution Group)) :
    (startSolution ops current s).coverage = (s.map (·.coverage)).getD 0 := by
  cases s <;> rfl

/-- Each occurrence of the list has the best solution for the occurrences up to it. -/
def Solved (ops : WeightGroup Item Group) (occurrences : List (Occurrence Item)) :
    List (Occurrence Item × PeriodSolution Group) → Prop
  | [] => True
  | (o, s) :: rest =>
    (∃ chosen, IsSolution ops occurrences (o :: rest.map Prod.fst) s chosen) ∧
      Optimal ops occurrences (Choice (o :: rest.map Prod.fst)) s ∧ Solved ops occurrences rest

theorem Solved.isSolution {done : List (Occurrence Item × PeriodSolution Group)}
    (h : Solved ops occurrences done) {x : Occurrence Item × PeriodSolution Group} (hx : x ∈ done) :
    ∃ chosen, IsSolution ops occurrences (done.map Prod.fst) x.2 chosen := by
  induction done with
  | nil => cases hx
  | cons y rest ih =>
    obtain ⟨⟨chosen, hchosen⟩, -, hrest⟩ := h
    rcases List.mem_cons.mp hx with rfl | hx
    · exact ⟨chosen, hchosen⟩
    · obtain ⟨chosen', hchosen'⟩ := ih hrest hx
      exact ⟨chosen', hchosen'.mono (List.sublist_cons_self _ _)⟩

theorem Solved.of_append {before rest : List (Occurrence Item × PeriodSolution Group)}
    (h : Solved ops occurrences (before ++ rest)) : Solved ops occurrences rest := by
  induction before with
  | nil => exact h
  | cons x before ih => exact ih h.2.2

/-- The first occurrence that does not intersect the current one, if there is any. -/
theorem scanSolutions_snd (current : Occurrence Item) (overlapping : Option (PeriodSolution Group))
    (done : List (Occurrence Item × PeriodSolution Group)) :
    match (scanSolutions current overlapping done).2 with
    | none => ∀ x ∈ done, current.first < x.1.second
    | some s => ∃ skipped o rest, done = skipped ++ (o, s) :: rest ∧ o.second ≤ current.first ∧
        ∀ x ∈ skipped, current.first < x.1.second := by
  induction done generalizing overlapping with
  | nil => simp [scanSolutions]
  | cons x rest ih =>
    obtain ⟨o, s⟩ := x
    by_cases hle : o.second ≤ current.first
    · have hscan : scanSolutions current overlapping ((o, s) :: rest) = (overlapping, some s) := by
        cases overlapping <;> rw [scanSolutions, if_pos hle]
      rw [hscan]
      exact ⟨[], o, rest, rfl, hle, by simp⟩
    · have hlt : current.first < o.second := Nat.lt_of_not_le hle
      obtain ⟨best, hbest⟩ : ∃ best, scanSolutions current overlapping ((o, s) :: rest) =
          scanSolutions current (some best) rest := by
        cases overlapping with
        | none => exact ⟨s, by rw [scanSolutions, if_neg hle]⟩
        | some best => exact ⟨_, by rw [scanSolutions, if_neg hle]⟩
      have hrest := ih (some best)
      rw [hbest]
      cases hsnd : (scanSolutions current (some best) rest).2 with
      | none =>
        rw [hsnd] at hrest
        intro x hx
        rcases List.mem_cons.mp hx with rfl | hx
        · exact hlt
        · exact hrest x hx
      | some s' =>
        rw [hsnd] at hrest
        obtain ⟨skipped, o', rest', rfl, hle', hskipped⟩ := hrest
        refine ⟨(o, s) :: skipped, o', rest', rfl, hle', ?_⟩
        intro x hx
        rcases List.mem_cons.mp hx with rfl | hx
        · exact hlt
        · exact hskipped x hx

theorem scanSolutions_fst {before : List (Occurrence Item)}
    {choice : List (Occurrence Item) → Prop} (current : Occurrence Item)
    (done : List (Occurrence Item × PeriodSolution Group)) (best : PeriodSolution Group)
    (hdone : ∀ x ∈ done, ∃ chosen, IsSolution ops occurrences before x.2 chosen)
    (hbest : ∃ chosen, IsSolution ops occurrences before best chosen)
    (hoptimal : Optimal ops occurrences choice best) :
    ∃ best', (scanSolutions current (some best) done).1 = some best' ∧
      (∃ chosen, IsSolution ops occurrences before best' chosen) ∧
      Optimal ops occurrences choice best' := by
  induction done generalizing best with
  | nil => exact ⟨best, rfl, hbest, hoptimal⟩
  | cons x rest ih =>
    obtain ⟨o, s⟩ := x
    rw [scanSolutions]
    split_ifs with hle hless
    · exact ⟨best, rfl, hbest, hoptimal⟩
    · have hs := hdone (o, s) List.mem_cons_self
      apply ih s (fun x hx => hdone x (List.mem_cons_of_mem _ hx)) hs
      obtain ⟨chosen, hchosen⟩ := hs
      obtain ⟨chosen', hchosen'⟩ := hbest
      have hnothing : Optimal ops occurrences (fun _ => False) s :=
        ⟨fun _ h => h.elim, fun _ _ h => h.elim⟩
      have hchoose := hoptimal.choose hnothing fun hnone => by
        rw [hchosen.weight hnone, hchosen'.weight hnone]
      rw [if_pos hless] at hchoose
      exact hchoose.mono fun _ h => Or.inl h
    · exact ih best (fun x hx => hdone x (List.mem_cons_of_mem _ hx)) hbest hoptimal

/-- Where the solution with the current occurrence starts from: the choices that end before it. -/
theorem exists_start {done : List (Occurrence Item × PeriodSolution Group)}
    (hdone : Solved ops occurrences done) (current : Occurrence Item)
    (hsorted : (done.map Prod.fst).Pairwise fun x y => y.second ≤ x.second) :
    let start := startSolution ops current (scanSolutions current none done).2
    (∃ chosen, IsSolution ops occurrences (done.map Prod.fst) start chosen ∧
      ∀ o ∈ chosen, o.second ≤ current.first) ∧
    Optimal ops occurrences (fun sub => Choice (done.map Prod.fst) sub ∧
      ∀ o ∈ sub, o.second ≤ current.first) start := by
  intro start
  have hscan := scanSolutions_snd current none done
  cases hr : (scanSolutions current none done).2 with
  | none =>
    have hstart : start = startSolution ops current none := by simp only [start, hr]
    rw [hr] at hscan
    -- every occurrence before intersects the current one
    have hnil : ∀ sub, Choice (done.map Prod.fst) sub → (∀ o ∈ sub, o.second ≤ current.first) →
        sub = [] := by
      intro sub hsub hbefore
      apply List.eq_nil_iff_forall_not_mem.mpr
      intro o ho
      obtain ⟨x, hx, rfl⟩ := List.mem_map.mp (hsub.1.subset ho)
      have := hscan x hx
      have := hbefore _ ho
      omega
    rw [hstart]
    refine ⟨⟨[], ⟨List.nil_sublist _, List.Pairwise.nil, rfl, rfl, fun _ => rfl⟩, by simp⟩, ?_, ?_⟩
    · rintro sub ⟨hsub, hbefore⟩
      rw [hnil sub hsub hbefore]
      exact Nat.zero_le _
    · rintro - sub - -
      exact Nat.zero_le _
  | some s =>
    have hstart : start = s := by simp only [start, hr, startSolution]
    rw [hr] at hscan
    obtain ⟨skipped, o, rest, rfl, hle, hskipped⟩ := hscan
    obtain ⟨⟨chosen, hchosen⟩, hoptimal, -⟩ := hdone.of_append
    have hsplit : (skipped ++ (o, s) :: rest).map Prod.fst =
        skipped.map Prod.fst ++ o :: rest.map Prod.fst := by simp
    have hend : ∀ x ∈ o :: rest.map Prod.fst, x.second ≤ current.first := by
      rw [hsplit, List.pairwise_append] at hsorted
      intro x hx
      rcases List.mem_cons.mp hx with rfl | hx
      · exact hle
      · exact ((List.pairwise_cons.mp hsorted.2.1).1 x hx).trans hle
    rw [hstart, hsplit]
    refine ⟨⟨chosen, hchosen.mono (List.sublist_append_right _ _),
      fun x hx => hend x (hchosen.sublist.subset hx)⟩, hoptimal.mono ?_⟩
    rintro sub ⟨⟨hsub, hnon⟩, hbefore⟩
    obtain ⟨left, right, rfl, hleft, hright⟩ := List.sublist_append_iff.mp hsub
    have hnil : left = [] := by
      apply List.eq_nil_iff_forall_not_mem.mpr
      intro x hx
      obtain ⟨y, hy, rfl⟩ := List.mem_map.mp (hleft.subset hx)
      have := hskipped y hy
      have := hbefore _ (List.mem_append_left _ hx)
      omega
    rw [hnil, List.nil_append] at hnon ⊢
    exact ⟨hright, hnon⟩

theorem IsSolution.addOccurrence {before chosen : List (Occurrence Item)}
    {s : PeriodSolution Group} (h : IsSolution ops occurrences before s chosen)
    {current : Occurrence Item} {index : ℕ} (hindex : occurrences[index]? = some current)
    (hbefore : ∀ o ∈ chosen, o.second ≤ current.first) :
    IsSolution ops occurrences (current :: before) (s.addOccurrence ops current index)
      (current :: chosen) := by
  constructor
  · exact h.sublist.cons_cons current
  · exact List.pairwise_cons.mpr ⟨fun o ho => Or.inr (hbefore o ho), h.nonOverlapping⟩
  · rw [PeriodSolution.addOccurrence_solution, List.map_append, h.indices,
      List.map_singleton, hindex]
    simp
  · rw [PeriodSolution.addOccurrence_coverage, h.coverage, totalCoverage_cons, Nat.add_comm]
  · intro hnone
    have hitem := hnone current (List.mem_of_getElem? hindex)
    simp only [PeriodSolution.addOccurrence, hitem]
    exact h.weight hnone

theorem Optimal.addOccurrence {before : List (Occurrence Item)} {start : PeriodSolution Group}
    {current : Occurrence Item} (index : ℕ)
    (h : Optimal ops occurrences (fun sub => Choice before sub ∧
      ∀ o ∈ sub, o.second ≤ current.first) start)
    (hproper : ∀ o ∈ before, o.first < o.second) (hlast : ∀ o ∈ before, o.second ≤ current.second) :
    Optimal ops occurrences (fun sub => ∃ rest, sub = current :: rest ∧
      Choice before rest ∧ NonOverlapping sub) (start.addOccurrence ops current index) := by
  have hrest : ∀ rest, Choice before rest → NonOverlapping (current :: rest) →
      ∀ o ∈ rest, o.second ≤ current.first := by
    intro rest hchoice hnon o ho
    have hmem := hchoice.1.subset ho
    have := hproper o hmem
    have := hlast o hmem
    have := (List.pairwise_cons.mp hnon).1 o ho
    omega
  constructor
  · rintro sub ⟨rest, rfl, hchoice, hnon⟩
    have := h.best rest ⟨hchoice, hrest rest hchoice hnon⟩
    rw [totalCoverage_cons, PeriodSolution.addOccurrence_coverage]
    omega
  · rintro hnone sub ⟨rest, rfl, hchoice, hnon⟩ hsub
    rw [totalCoverage_cons, PeriodSolution.addOccurrence_coverage] at hsub
    have := h.fewest hnone rest ⟨hchoice, hrest rest hchoice hnon⟩ (by omega)
    rw [PeriodSolution.addOccurrence_solution, List.length_append, List.length_singleton,
      List.length_cons]
    omega

theorem Choice.cases {current : Occurrence Item} {before sub : List (Occurrence Item)}
    (h : Choice (current :: before) sub) :
    Choice before sub ∨ ∃ rest, sub = current :: rest ∧ Choice before rest ∧
      NonOverlapping sub := by
  obtain ⟨hsub, hnon⟩ := h
  rcases List.sublist_cons_iff.mp hsub with hsub | ⟨rest, rfl, hrest⟩
  · exact Or.inl ⟨hsub, hnon⟩
  · exact Or.inr ⟨rest, rfl, ⟨hrest, (List.pairwise_cons.mp hnon).2⟩, hnon⟩

theorem scanSolutions_before {done : List (Occurrence Item × PeriodSolution Group)}
    (hdone : Solved ops occurrences done) (current : Occurrence Item) :
    let r := scanSolutions current none done
    (r.1 = none ∧ ∀ sub, Choice (done.map Prod.fst) sub →
      totalCoverage ops sub ≤ (r.2.map (·.coverage)).getD 0) ∨
    ∃ best, r.1 = some best ∧
      (∃ chosen, IsSolution ops occurrences (done.map Prod.fst) best chosen) ∧
      Optimal ops occurrences (Choice (done.map Prod.fst)) best := by
  intro r
  cases done with
  | nil =>
    refine Or.inl ⟨rfl, fun sub hsub => ?_⟩
    rw [List.sublist_nil.mp hsub.1]
    exact Nat.zero_le _
  | cons x rest =>
    obtain ⟨o, s⟩ := x
    obtain ⟨hs, hoptimal, -⟩ := id hdone
    by_cases hle : o.second ≤ current.first
    · have hr : r = (none, some s) := if_pos hle
      rw [hr]
      exact Or.inl ⟨rfl, hoptimal.best⟩
    · have hr : r = scanSolutions current (some s) rest := if_neg hle
      rw [hr]
      refine Or.inr (scanSolutions_fst current rest s ?_ hs hoptimal)
      intro y hy
      exact hdone.isSolution (List.mem_cons_of_mem _ hy)

/-- A turn of the loop finds the best solution for the occurrences up to the current one. -/
theorem Solved.next {done : List (Occurrence Item × PeriodSolution Group)}
    (hdone : Solved ops occurrences done) {current : Occurrence Item}
    (hindex : occurrences[done.length]? = some current)
    (hproper : ∀ o ∈ current :: done.map Prod.fst, o.first < o.second)
    (hsorted : (current :: done.map Prod.fst).Pairwise fun x y => y.second ≤ x.second) :
    Solved ops occurrences ((current, nextSolution ops done current) :: done) := by
  obtain ⟨hlast, hsorted⟩ := List.pairwise_cons.mp hsorted
  obtain ⟨⟨chosen, hchosen, hbefore⟩, hstart⟩ := exists_start hdone current hsorted
  have hsolution := hchosen.addOccurrence hindex hbefore
  have hwith := hstart.addOccurrence done.length
    (fun o ho => hproper o (List.mem_cons_of_mem _ ho)) hlast
  have hpos : 0 < current.coverage ops := Occurrence.coverage_pos (hproper _ List.mem_cons_self)
  have hlater := scanSolutions_before hdone current
  unfold nextSolution
  dsimp only at hsolution hwith hlater ⊢
  rcases hlater with ⟨hfst, hless⟩ | ⟨best, hfst, ⟨chosen', hchosen'⟩, hbest⟩
  · rw [hfst]
    refine ⟨⟨_, hsolution⟩, ?_, hdone⟩
    have hmore : ∀ sub, Choice (done.map Prod.fst) sub → totalCoverage ops sub <
        ((startSolution ops current (scanSolutions current none done).2).addOccurrence ops current
          done.length).coverage := by
      intro sub hsub
      have := hless sub hsub
      rw [PeriodSolution.addOccurrence_coverage, startSolution_coverage]
      omega
    constructor
    · intro sub hsub
      rcases hsub.cases with h | h
      · exact (hmore sub h).le
      · exact hwith.best sub h
    · intro hnone sub hsub heq
      rcases hsub.cases with h | h
      · exact absurd heq (hmore sub h).ne
      · exact hwith.fewest hnone sub h heq
  · rw [hfst]
    refine ⟨?_, ?_, hdone⟩
    · dsimp only
      split_ifs with hlt
      · exact ⟨chosen', hchosen'.mono (List.sublist_cons_self _ _)⟩
      · exact ⟨_, hsolution⟩
    · apply (hwith.choose hbest fun hnone => by
        rw [hsolution.weight hnone, hchosen'.weight hnone]).mono
      intro sub hsub
      exact hsub.cases.symm

theorem allSolutions_solved (hproper : ∀ o ∈ occurrences, o.first < o.second)
    (hsorted : occurrences.Pairwise fun x y => x.second ≤ y.second) :
    Solved ops occurrences (allSolutions ops occurrences) ∧
      (allSolutions ops occurrences).map Prod.fst = occurrences.reverse := by
  have hloop : ∀ rest done, occurrences = (done.map Prod.fst).reverse ++ rest →
      Solved ops occurrences done →
      Solved ops occurrences
        (rest.foldl (fun done o => (o, nextSolution ops done o) :: done) done) ∧
        (rest.foldl (fun done o => (o, nextSolution ops done o) :: done) done).map Prod.fst =
          occurrences.reverse := by
    intro rest
    induction rest with
    | nil =>
      intro done hsplit hdone
      rw [List.append_nil] at hsplit
      rw [List.foldl_nil, hsplit, List.reverse_reverse]
      exact ⟨hsplit ▸ hdone, rfl⟩
    | cons current rest ih =>
      intro done hsplit hdone
      have hsplit' : occurrences = (current :: done.map Prod.fst).reverse ++ rest := by
        rw [hsplit]
        simp
      apply ih ((current, nextSolution ops done current) :: done) hsplit'
      apply hdone.next
      · rw [hsplit, List.getElem?_append_right (by simp)]
        simp
      · intro o ho
        apply hproper
        rw [hsplit']
        exact List.mem_append_left _ (List.mem_reverse.mpr ho)
      · rw [hsplit', List.pairwise_append, List.pairwise_reverse] at hsorted
        exact hsorted.1
  exact hloop occurrences [] rfl trivial

theorem solveIndices_eq (occurrences : List (Occurrence Item)) :
    solveIndices ops occurrences =
      (((allSolutions ops occurrences).head?).map (·.2.solution)).getD [] := by
  match occurrences with
  | [] => rfl
  | [o] =>
    show [0] = (nextSolution ops [] o).solution
    simp [nextSolution, scanSolutions, startSolution, PeriodSolution.empty]
  | o :: o' :: rest =>
    unfold solveIndices
    dsimp only
    cases allSolutions ops (o :: o' :: rest) <;> rfl

/-- What `SolveAmbiguity` keeps is a solution of all occurrences, and the best one. -/
theorem solveAmbiguity_spec (hproper : ∀ o ∈ occurrences, o.first < o.second)
    (hsorted : occurrences.Pairwise fun x y => x.second ≤ y.second) :
    ∃ s, IsSolution ops occurrences occurrences.reverse s (solveAmbiguity ops occurrences).reverse ∧
      Optimal ops occurrences (Choice occurrences.reverse) s := by
  obtain ⟨hsolved, hfst⟩ := @allSolutions_solved Item Group ops occurrences hproper hsorted
  have hindices := @solveIndices_eq Item Group ops occurrences
  unfold solveAmbiguity
  dsimp only
  cases hall : allSolutions ops occurrences with
  | nil =>
    rw [hall, List.map_nil, eq_comm, List.reverse_eq_nil_iff] at hfst
    subst hfst
    refine ⟨PeriodSolution.empty ops,
      ⟨List.Sublist.refl _, List.Pairwise.nil, rfl, rfl, fun _ => rfl⟩,
      ?_, fun _ _ _ _ => Nat.zero_le _⟩
    intro sub hsub
    rw [List.sublist_nil.mp hsub.1]
    exact Nat.zero_le _
  | cons x rest =>
    obtain ⟨o, s⟩ := x
    rw [hall] at hsolved hfst hindices
    obtain ⟨⟨chosen, hchosen⟩, hoptimal, -⟩ := hsolved
    rw [List.map_cons] at hfst
    rw [hfst] at hchosen hoptimal
    rw [List.head?_cons, Option.map_some, Option.getD_some] at hindices
    rw [hindices]
    refine ⟨s, ?_, hoptimal⟩
    split_ifs with hlength
    · have hkept : s.solution.filterMap (occurrences[·]?) = chosen.reverse := by
        have hmap := congrArg (List.filterMap id) hchosen.indices
        simpa [List.filterMap_map, Function.comp_def] using hmap
      rw [hkept, List.reverse_reverse]
      exact hchosen
    · have hall : chosen = occurrences.reverse := by
        apply hchosen.sublist.eq_of_length
        rw [← hchosen.length_eq, not_not.mp hlength, List.length_reverse]
      rw [hall] at hchosen
      exact hchosen

end Solutions

section Theorem
variable {Item Group : Type}

theorem nonOverlapping_perm {l l' : List (Occurrence Item)} (h : l.Perm l') :
    NonOverlapping l ↔ NonOverlapping l' :=
  h.pairwise_iff fun hxy => hxy.symm

theorem totalCoverage_perm {ops : WeightGroup Item Group} {l l' : List (Occurrence Item)}
    (h : l.Perm l') : totalCoverage ops l = totalCoverage ops l' :=
  (h.map _).sum_eq

section Sorted
variable (ops : WeightGroup Item Group) {occurrences sorted : List (Occurrence Item)}
variable (hproper : ∀ o ∈ occurrences, o.first < o.second) (hsorted : SortedAs occurrences sorted)
include hproper hsorted

theorem exists_best_solution :
    ∃ s, IsSolution ops sorted sorted.reverse s (solveAmbiguity ops sorted).reverse ∧
      Optimal ops sorted (Choice sorted.reverse) s := by
  have hsecond : sorted.Pairwise fun x y => x.second ≤ y.second := by
    apply hsorted.sorted.imp
    intro x y h
    unfold sortByRightBorder at h
    split_ifs at h with heq <;> simp only [decide_eq_false_iff_not] at h <;> omega
  exact solveAmbiguity_spec (fun o ho => hproper o (hsorted.perm.subset ho)) hsecond

theorem solveAmbiguity_subperm : (solveAmbiguity ops sorted).Subperm occurrences := by
  obtain ⟨s, hs, _⟩ := exists_best_solution ops hproper hsorted
  have hsub := hs.sublist.subperm.trans (List.reverse_perm sorted).subperm
  exact ((List.reverse_perm _).symm.subperm.trans hsub).trans hsorted.perm.subperm

theorem solveAmbiguity_nonOverlapping : NonOverlapping (solveAmbiguity ops sorted) := by
  obtain ⟨s, hs, _⟩ := exists_best_solution ops hproper hsorted
  exact (nonOverlapping_perm (List.reverse_perm _)).mp hs.nonOverlapping

theorem solveAmbiguity_best {other : List (Occurrence Item)} (hother : other.Subperm occurrences)
    (hnon : NonOverlapping other) :
    totalCoverage ops other ≤ totalCoverage ops (solveAmbiguity ops sorted) ∧
      (NoItems occurrences →
        totalCoverage ops other = totalCoverage ops (solveAmbiguity ops sorted) →
        (solveAmbiguity ops sorted).length ≤ other.length) := by
  obtain ⟨s, hs, hoptimal⟩ := exists_best_solution ops hproper hsorted
  have hcoverage : s.coverage = totalCoverage ops (solveAmbiguity ops sorted) := by
    rw [hs.coverage]
    exact totalCoverage_perm (List.reverse_perm _)
  -- the other choice, in the order of the sorted occurrences
  obtain ⟨sub, hsubPerm, hsub⟩ := hother.trans (hsorted.perm.symm.trans
    (List.reverse_perm sorted).symm).subperm
  have hchoice : Choice sorted.reverse sub := ⟨hsub, (nonOverlapping_perm hsubPerm).mpr hnon⟩
  rw [← totalCoverage_perm hsubPerm, ← hcoverage, ← hsubPerm.length_eq]
  refine ⟨hoptimal.best sub hchoice, fun hnone heq => ?_⟩
  have hnone' : NoItems sorted := fun o ho => hnone o (hsorted.perm.subset ho)
  have := hoptimal.fewest hnone' sub hchoice heq
  rw [hs.length_eq, List.length_reverse] at this
  exact this

end Sorted

/-- `SolveAmbiguity` keeps occurrences without words in common that cover as much as any such
occurrences, and, where none carries an item, with as few of them as possible. -/
theorem solveAmbiguity_optimal (ops : WeightGroup Item Group)
    (occurrences sorted : List (Occurrence Item)) (hproper : ∀ o ∈ occurrences, o.first < o.second)
    (hsorted : SortedAs occurrences sorted) :
    (solveAmbiguity ops sorted).Subperm occurrences ∧ NonOverlapping (solveAmbiguity ops sorted) ∧
      ∀ other, other.Subperm occurrences → NonOverlapping other →
        totalCoverage ops other ≤ totalCoverage ops (solveAmbiguity ops sorted) ∧
        (NoItems occurrences →
          totalCoverage ops other = totalCoverage ops (solveAmbiguity ops sorted) →
          (solveAmbiguity ops sorted).length ≤ other.length) := by
  refine ⟨solveAmbiguity_subperm ops hproper hsorted,
    solveAmbiguity_nonOverlapping ops hproper hsorted, ?_⟩
  intro other hother hnon
  exact solveAmbiguity_best ops hproper hsorted hother hnon

/-- Groups of words that all weigh the same. -/
def weightless : WeightGroup Unit Unit :=
  ⟨(), fun _ _ g => g, fun _ g => g, fun _ g => g, fun _ => 0, fun _ => 0⟩

/-- Two short periods inside of a longer one that ends before a third. -/
def nestedPeriods : List (Occurrence Unit) :=
  [⟨0, 4, 0, none⟩, ⟨0, 2, 0, none⟩, ⟨4, 5, 0, none⟩, ⟨2, 4, 0, none⟩]

theorem solveAmbiguity_optimal_nestedPeriods :
    let sorted := [⟨0, 2, 0, none⟩, ⟨0, 4, 0, none⟩, ⟨2, 4, 0, none⟩, ⟨4, 5, 0, none⟩]
    solveAmbiguity weightless sorted = [⟨0, 4, 0, none⟩, ⟨4, 5, 0, none⟩] ∧
      ∀ other, other.Subperm nestedPeriods → NonOverlapping other →
        totalCoverage weightless other ≤ totalCoverage weightless
          (solveAmbiguity weightless sorted) ∧
        (NoItems nestedPeriods →
          totalCoverage weightless other =
            totalCoverage weightless (solveAmbiguity weightless sorted) →
          (solveAmbiguity weightless sorted).length ≤ other.length) :=
  ⟨by decide, (solveAmbiguity_optimal weightless nestedPeriods _ (by decide)
    ⟨by decide, by decide⟩).2.2⟩

end Theorem
end TomitaParser.Rusie
