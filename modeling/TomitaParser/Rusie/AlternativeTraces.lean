import TomitaParser.Rusie.NewItems
/-! # Traces of alternatives

The alternatives of a rule are checked one after the other on the same constraints. Only the
grammems begin anew: the masks, the trimmed symbols and the priorities that a failing alternative has
written are there for the next one, and for the caller. -/

namespace TomitaParser.Reduction

namespace Holder
variable {Art : Type*} [DecidableEq Art] (H : Holder Art)

/-- `CurrentConstraintIndex` of the alternative that passes. -/
def currentConstraint : List (RuleInfo Art) → ReduceConstraints → Option ℕ
  | [], _ => none
  | info :: rest, constr =>
    let r := H.reduceCheckAlternative info constr
    if r.1 then some 0 else (currentConstraint rest r.2).map (· + 1)

/-- The alternative passes when it is checked alone. -/
def passesAlone (constr : ReduceConstraints) (info : RuleInfo Art) : Bool :=
  (H.reduceCheckAlternative info constr).1

/-- The alternatives are as good as checked alone: the first one that passes alone is chosen and
leaves what it leaves alone, and where none passes nothing is trimmed and no priority set. -/
structure CheckedAlone (agreements : List (RuleInfo Art)) (constr : ReduceConstraints) : Prop where
  passes : (H.reduceCheckConstraintSet agreements constr).1 =
    agreements.any (H.passesAlone constr)
  chosen : H.currentConstraint agreements constr = agreements.findIdx? (H.passesAlone constr)
  left : ∀ info, agreements.find? (H.passesAlone constr) = some info →
    let r := (H.reduceCheckConstraintSet agreements constr).2
    let alone := (H.reduceCheckAlternative info constr).2
    r.grammems = alone.grammems ∧ r.childHomonyms = alone.childHomonyms ∧
      r.trimTree = alone.trimTree ∧ r.leftPriorityOrder = alone.leftPriorityOrder
  unchanged : agreements.find? (H.passesAlone constr) = none →
    let r := (H.reduceCheckConstraintSet agreements constr).2
    r.trimTree = constr.trimTree ∧ r.leftPriorityOrder = constr.leftPriorityOrder

/-- Checked alone, the alternative writes nothing but the grammems. -/
def LeavesNoTrace (constr : ReduceConstraints) (info : RuleInfo Art) : Prop :=
  ∃ grammems, (H.reduceCheckAlternative info constr).2 = { constr with grammems }

/-- No alternative before the first one that passes alone leaves a trace. -/
def NoTraces (agreements : List (RuleInfo Art)) (constr : ReduceConstraints) : Prop :=
  ∀ info ∈ agreements.takeWhile fun info => !H.passesAlone constr info,
    H.LeavesNoTrace constr info

variable {H}

theorem reduceCheckAlternative_grammems (info : RuleInfo Art) (constr : ReduceConstraints)
    (grammems : HomonymGrammems) :
    H.reduceCheckAlternative info { constr with grammems } =
      H.reduceCheckAlternative info constr := by
  have hagreed : H.reduceCheckGroupAgreement info { constr with grammems } =
      H.reduceCheckGroupAgreement info constr := rfl
  rw [reduceCheckAlternative, reduceCheckAlternative, hagreed]

/-- A run from other grammems, as long as no trace is left. -/
theorem run_of_noTraces {constr : ReduceConstraints} (agreements : List (RuleInfo Art))
    (h : H.NoTraces agreements constr) : ∀ grammems,
      (∀ info, agreements.find? (H.passesAlone constr) = some info →
        H.reduceCheckConstraintSet agreements { constr with grammems } =
          (true, (H.reduceCheckAlternative info constr).2)) ∧
      (agreements.find? (H.passesAlone constr) = none → ∃ grammems',
        H.reduceCheckConstraintSet agreements { constr with grammems } =
          (false, { constr with grammems := grammems' })) ∧
      H.currentConstraint agreements { constr with grammems } =
        agreements.findIdx? (H.passesAlone constr) := by
  induction agreements with
  | nil =>
    intro grammems
    refine ⟨?_, ?_, rfl⟩
    · intro info hinfo
      cases hinfo
    · intro _
      exact ⟨grammems, rfl⟩
  | cons info rest ih =>
    intro grammems
    cases hpass : H.passesAlone constr info with
    | true =>
      have hfirst : (H.reduceCheckAlternative info constr).1 = true := hpass
      have hfind : (info :: rest).find? (H.passesAlone constr) = some info :=
        List.find?_cons_of_pos hpass
      have hindex : (info :: rest).findIdx? (H.passesAlone constr) = some 0 := by
        rw [List.findIdx?_cons, if_pos hpass]
      rw [hfind, hindex, reduceCheckConstraintSet, currentConstraint,
        reduceCheckAlternative_grammems]
      rw [if_pos hfirst, if_pos hfirst]
      refine ⟨?_, ?_, rfl⟩
      · intro chosen hchosen
        rw [← Option.some.inj hchosen, ← hfirst]
      · intro hnone
        cases hnone
    | false =>
      have hfirst : ¬ (H.reduceCheckAlternative info constr).1 = true := by
        rw [Bool.not_eq_true]
        exact hpass
      have hbefore : (info :: rest).takeWhile (fun info => !H.passesAlone constr info) =
          info :: rest.takeWhile fun info => !H.passesAlone constr info := by
        rw [List.takeWhile_cons_of_pos]
        rw [hpass]
        rfl
      rw [NoTraces, hbefore] at h
      obtain ⟨left, hleft⟩ := h info List.mem_cons_self
      have hrest := ih (fun other hother => h other (List.mem_cons_of_mem info hother)) left
      have hfind : (info :: rest).find? (H.passesAlone constr) =
          rest.find? (H.passesAlone constr) :=
        List.find?_cons_of_neg (by rw [hpass]; exact Bool.false_ne_true)
      have hindex : (info :: rest).findIdx? (H.passesAlone constr) =
          (rest.findIdx? (H.passesAlone constr)).map (· + 1) := by
        rw [List.findIdx?_cons, if_neg (by rw [hpass]; exact Bool.false_ne_true)]
      rw [hfind, hindex, reduceCheckConstraintSet, currentConstraint,
        reduceCheckAlternative_grammems]
      rw [if_neg hfirst, if_neg hfirst, hleft, hrest.2.2]
      exact ⟨hrest.1, hrest.2.1, rfl⟩

/-- Where failing alternatives leave no trace, all are as good as checked alone. -/
theorem checkedAlone_of_noTraces (H : Holder Art) (agreements : List (RuleInfo Art))
    (constr : ReduceConstraints) (h : H.NoTraces agreements constr) :
    H.CheckedAlone agreements constr := by
  obtain ⟨hsome, hnone, hindex⟩ := run_of_noTraces agreements h constr.grammems
  have hsame : ({ constr with grammems := constr.grammems } : ReduceConstraints) = constr := rfl
  rw [hsame] at hsome hnone hindex
  refine ⟨?_, hindex, ?_, ?_⟩
  · cases hfind : agreements.find? (H.passesAlone constr) with
    | some info =>
      rw [hsome info hfind]
      exact (List.any_eq_true.mpr ⟨info, List.mem_of_find?_eq_some hfind,
        List.find?_some hfind⟩).symm
    | none =>
      obtain ⟨grammems, hrun⟩ := hnone hfind
      rw [hrun]
      exact (List.any_eq_false.mpr fun info hinfo =>
        List.find?_eq_none.mp hfind info hinfo).symm
  · intro info hfind
    dsimp only
    rw [hsome info hfind]
    exact ⟨rfl, rfl, rfl, rfl⟩
  · intro hfind
    obtain ⟨grammems, hrun⟩ := hnone hfind
    dsimp only
    rw [hrun]
    exact ⟨rfl, rfl⟩

/-- A child with two homonyms, the second one with an article. -/
def oneChild : ReduceConstraints :=
  interpretationConstraints [] [] 7 2 3 0 [⟨2, 2, 2, {}, [3], false, []⟩]

/-- An alternative that the child is too long for. -/
def noWords : RuleInfo Unit := { extraRuleInfo := { outCount := 0 } }

theorem checkedAlone_noWords : thirdWordHolder.CheckedAlone [noWords, {}] oneChild := by
  apply checkedAlone_of_noTraces
  intro info hinfo
  have hfirst : [noWords, {}].takeWhile
      (fun info => !thirdWordHolder.passesAlone oneChild info) = [noWords] := rfl
  rw [hfirst] at hinfo
  rw [List.mem_singleton.mp hinfo]
  exact ⟨{}, rfl⟩

/-- An alternative that narrows the mask of the child and trims, then fails. -/
def narrowsAndTrims : RuleInfo Unit where
  kwSets := [(0, { kwSet := [()] })]
  firstWordConstraints := [(0, false)]
  extraRuleInfo := { trim := true }

/-- The mask and the trimmed symbol stay for the alternative that passes, and the symbol stays also
where none passes. -/
theorem not_checkedAlone_narrowsAndTrims :
    ¬ thirdWordHolder.CheckedAlone [narrowsAndTrims, {}] oneChild ∧
      ¬ thirdWordHolder.CheckedAlone [narrowsAndTrims] oneChild := by
  constructor
  · intro h
    have hmasks := (h.left {} rfl).2.1
    have hmask := congrFun hmasks 0
    exact absurd hmask (by decide)
  · intro h
    have htrim := (h.unchanged rfl).1
    exact absurd htrim (by decide)

end Holder

end TomitaParser.Reduction
