import Mathlib.Data.List.Basic
import Mathlib.Logic.Function.Iterate
/-! # Machines

A machine takes one operation after the other, and answers each. Two machines that answer alike in
related states, and stay in related states, give the same answers in every run. -/

namespace Machine
variable {State State' Op Answer : Type*}

/-- The state after the operations and their answers. -/
def run (step : State → Op → State × Answer) : State → List Op → State × List Answer
  | s, [] => (s, [])
  | s, op :: ops =>
    let r := step s op
    let rest := run step r.1 ops
    (rest.1, r.2 :: rest.2)

theorem run_append (step : State → Op → State × Answer) (s : State) (ops more : List Op) :
    (run step s (ops ++ more)).1 = (run step (run step s ops).1 more).1 := by
  induction ops generalizing s with
  | nil => rfl
  | cons op ops ih => exact ih (step s op).1

theorem run_invariant {step : State → Op → State × Answer} {Inv : State → Prop}
    (hstep : ∀ s op, Inv s → Inv (step s op).1) {s : State} (h : Inv s) (ops : List Op) :
    Inv (run step s ops).1 := by
  induction ops generalizing s with
  | nil => exact h
  | cons op ops ih => exact ih (hstep s op h)

theorem run_of_simulation {step : State → Op → State × Answer}
    {step' : State' → Op → State' × Answer} {R : State → State' → Prop}
    (hstep : ∀ s t op, R s t → R (step s op).1 (step' t op).1 ∧ (step s op).2 = (step' t op).2)
    {s : State} {t : State'} (h : R s t) (ops : List Op) :
    R (run step s ops).1 (run step' t ops).1 ∧ (run step s ops).2 = (run step' t ops).2 := by
  induction ops generalizing s t with
  | nil => exact ⟨h, rfl⟩
  | cons op ops ih =>
    have hhead := hstep s t op h
    have htail := ih hhead.1
    exact ⟨htail.1, congrArg₂ List.cons hhead.2 htail.2⟩

theorem forall_iterate_iff {step : State → State} {Inv Ok : State → Prop} {s : State} (h : Inv s)
    (hstep : ∀ s, Inv s → (Inv (step s) ↔ Ok s)) :
    (∀ n, Inv (step^[n] s)) ↔ ∀ n, Ok (step^[n] s) := by
  constructor
  · intro hinv n
    rw [← hstep _ (hinv n), ← Function.iterate_succ_apply' step]
    exact hinv (n + 1)
  · intro hok n
    induction n with
    | zero => exact h
    | succ n ih =>
      rw [Function.iterate_succ_apply']
      exact (hstep _ ih).mpr (hok n)

end Machine
