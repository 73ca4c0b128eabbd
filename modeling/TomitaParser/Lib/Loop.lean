import Mathlib.Order.WellFounded
import Mathlib.Tactic.Basic
/-! # Loops run on fuel -/

namespace LoopRun
variable {α β : Type*}

/-- What one turn of a loop body does: go round again, or leave with a result. -/
inductive LoopStep (α β : Type*) where
  | next (a : α)
  | exit (b : β) (a : α)
deriving DecidableEq

namespace LoopStep

/-- `Inv` holds where the loop goes on and `Post` where it leaves. -/
def Spec (Inv : α → Prop) (Post : β → α → Prop) : LoopStep α β → Prop
  | next a => Inv a
  | exit b a => Post b a

@[simp] theorem spec_next (Inv : α → Prop) (Post : β → α → Prop) (a : α) :
    (next a).Spec Inv Post ↔ Inv a := Iff.rfl

@[simp] theorem spec_exit (Inv : α → Prop) (Post : β → α → Prop) (b : β) (a : α) :
    (exit b a).Spec Inv Post ↔ Post b a := Iff.rfl

theorem Spec.mono {Inv Inv' : α → Prop} {Post Post' : β → α → Prop} {s : LoopStep α β}
    (h : s.Spec Inv Post) (hi : ∀ a, Inv a → Inv' a) (hp : ∀ b a, Post b a → Post' b a) :
    s.Spec Inv' Post' := by
  cases s with
  | next a => exact hi a h
  | exit b a => exact hp b a h

end LoopStep

/-- Run the body until it leaves; `out` is the result when the fuel is spent first. -/
def runLoop (step : α → LoopStep α β) (out : β) : ℕ → α → β × α
  | 0, a => (out, a)
  | fuel + 1, a =>
    match step a with
    | .next a' => runLoop step out fuel a'
    | .exit b a' => (b, a')

theorem runLoop_next {step : α → LoopStep α β} {a a' : α} (h : step a = .next a')
    (out : β) (fuel : ℕ) : runLoop step out (fuel + 1) a = runLoop step out fuel a' := by
  rw [runLoop, h]

theorem runLoop_exit {step : α → LoopStep α β} {a a' : α} {b : β} (h : step a = .exit b a')
    (out : β) (fuel : ℕ) : runLoop step out (fuel + 1) a = (b, a') := by
  rw [runLoop, h]

theorem runLoop_post {step : α → LoopStep α β} {out : β} (Inv : α → Prop) (Post : β → α → Prop)
    (hstep : ∀ a, Inv a → (step a).Spec Inv Post) (hout : ∀ a, Inv a → Post out a)
    (fuel : ℕ) (a : α) (ha : Inv a) :
    Post (runLoop step out fuel a).1 (runLoop step out fuel a).2 := by
  induction fuel generalizing a with
  | zero => exact hout a ha
  | succ fuel ih =>
    have hs := hstep a ha
    cases h : step a with
    | next a' =>
      rw [runLoop_next h]
      rw [h] at hs
      exact ih a' hs
    | exit b a' =>
      rw [runLoop_exit h]
      rw [h] at hs
      exact hs

theorem runLoop_post_of_measure {step : α → LoopStep α β} {out : β} (μ : α → ℕ)
    (Inv : α → Prop) (Post : β → α → Prop)
    (hstep : ∀ a, Inv a → (step a).Spec (fun a' => Inv a' ∧ μ a' < μ a) Post)
    (fuel : ℕ) (a : α) (ha : Inv a) (hf : μ a < fuel) :
    Post (runLoop step out fuel a).1 (runLoop step out fuel a).2 := by
  induction fuel generalizing a with
  | zero => omega
  | succ fuel ih =>
    have hs := hstep a ha
    cases h : step a with
    | next a' =>
      rw [runLoop_next h]
      rw [h] at hs
      obtain ⟨hinv, hlt⟩ := hs
      exact ih a' hinv (by omega)
    | exit b a' =>
      rw [runLoop_exit h]
      rw [h] at hs
      exact hs

theorem runLoop_eq_of_ne_out {step : α → LoopStep α β} {out : β} {fuel fuel' : ℕ} {a : α}
    (h : (runLoop step out fuel a).1 ≠ out) (hle : fuel ≤ fuel') :
    runLoop step out fuel' a = runLoop step out fuel a := by
  induction fuel generalizing fuel' a with
  | zero => exact absurd rfl h
  | succ fuel ih =>
    obtain ⟨k, rfl⟩ : ∃ k, fuel' = k + 1 := ⟨fuel' - 1, by omega⟩
    cases hs : step a with
    | next a' =>
      rw [runLoop_next hs] at h
      rw [runLoop_next hs, runLoop_next hs]
      exact ih h (by omega)
    | exit b a' => rw [runLoop_exit hs, runLoop_exit hs]

/-- A loop that leaves only with `true` ends by itself: it has left on every fuel from some on. -/
def EndsAt (step : α → LoopStep α Bool) (a r : α) : Prop :=
  ∃ N, ∀ fuel, N ≤ fuel → runLoop step false fuel a = (true, r)

theorem endsAt_of_done {step : α → LoopStep α Bool} {fuel : ℕ} {a : α}
    (h : (runLoop step false fuel a).1 = true) :
    EndsAt step a (runLoop step false fuel a).2 := by
  refine ⟨fuel, fun fuel' hle => ?_⟩
  rw [runLoop_eq_of_ne_out (by rw [h]; exact Bool.noConfusion) hle, ← h]

/-- Well-founded variant rule for a body that needs fuel of its own: from some fuel on, the run
meets `Stop`, which later turns keep, or has one result, which is as `Post` says. -/
theorem runLoop_eventually {step : ℕ → α → LoopStep α β} {out : β} {rel : α → α → Prop}
    (hrel : WellFounded rel) (Inv Stop : α → Prop) (Post : β → α → Prop)
    (hstep : ∀ a, Inv a → ¬ Stop a → ∃ N s, (∀ fuel, N ≤ fuel → step fuel a = s) ∧
      s.Spec (fun a' => Inv a' ∧ rel a' a) Post)
    (hstop : ∀ fuel a, Stop a → (step fuel a).Spec Stop (fun _ => Stop))
    (a : α) (ha : Inv a) :
    ∃ N, (∀ fuel, N ≤ fuel → ∀ n, N ≤ n → Stop (runLoop (step fuel) out n a).2) ∨
      ∃ b a', (∀ fuel, N ≤ fuel → ∀ n, N ≤ n → runLoop (step fuel) out n a = (b, a')) ∧
        Post b a' := by
  induction a using hrel.induction with
  | h a ih =>
    by_cases hs : Stop a
    · refine ⟨0, Or.inl fun fuel _ n _ => ?_⟩
      exact runLoop_post Stop (fun _ => Stop) (hstop fuel) (fun _ h => h) n a hs
    · obtain ⟨N, s, heq, hspec⟩ := hstep a ha hs
      cases s with
      | next a₁ =>
        obtain ⟨hinv, hlt⟩ := hspec
        obtain ⟨M, hM⟩ := ih a₁ hlt hinv
        have hturn : ∀ fuel, max N M + 1 ≤ fuel → ∀ n, max N M + 1 ≤ n →
            ∃ k, M ≤ k ∧ runLoop (step fuel) out n a = runLoop (step fuel) out k a₁ := by
          intro fuel hf n hn
          obtain ⟨k, rfl⟩ : ∃ k, n = k + 1 := ⟨n - 1, by omega⟩
          exact ⟨k, by omega, runLoop_next (heq fuel (by omega)) out k⟩
        refine ⟨max N M + 1, hM.imp ?_ ?_⟩
        · intro hstopped fuel hf n hn
          obtain ⟨k, hk, hrun⟩ := hturn fuel hf n hn
          rw [hrun]
          exact hstopped fuel (by omega) k hk
        · rintro ⟨b, a', hrun', hpost⟩
          refine ⟨b, a', fun fuel hf n hn => ?_, hpost⟩
          obtain ⟨k, hk, hrun⟩ := hturn fuel hf n hn
          rw [hrun]
          exact hrun' fuel (by omega) k hk
      | exit b a' =>
        refine ⟨N + 1, Or.inr ⟨b, a', fun fuel hf n hn => ?_, hspec⟩⟩
        obtain ⟨k, rfl⟩ : ∃ k, n = k + 1 := ⟨n - 1, by omega⟩
        exact runLoop_exit (heq fuel (by omega)) out k

/-- After some turns the loop goes on from another state. -/
def LeadsTo (step : α → LoopStep α β) (a a' : α) : Prop :=
  ∃ k, ∀ out fuel, runLoop step out (fuel + k) a = runLoop step out fuel a'

theorem LeadsTo.refl (step : α → LoopStep α β) (a : α) : LeadsTo step a a :=
  ⟨0, fun _ _ => rfl⟩

theorem LeadsTo.of_next {step : α → LoopStep α β} {a a' : α} (h : step a = .next a') :
    LeadsTo step a a' :=
  ⟨1, fun out fuel => runLoop_next h out fuel⟩

theorem LeadsTo.trans {step : α → LoopStep α β} {a b c : α} (hab : LeadsTo step a b)
    (hbc : LeadsTo step b c) : LeadsTo step a c := by
  obtain ⟨k, hk⟩ := hab
  obtain ⟨l, hl⟩ := hbc
  refine ⟨l + k, fun out fuel => ?_⟩
  rw [← Nat.add_assoc, hk, hl]

theorem LeadsTo.result {step : α → LoopStep α β} {a a' a'' : α} {b : β} (h : LeadsTo step a a')
    (hexit : step a' = .exit b a'') :
    ∃ N, ∀ out, ∀ fuel, N ≤ fuel → runLoop step out fuel a = (b, a'') := by
  obtain ⟨k, hk⟩ := h
  refine ⟨k + 1, fun out fuel hfuel => ?_⟩
  obtain ⟨n, rfl⟩ : ∃ n, fuel = (n + 1) + k := ⟨fuel - k - 1, by omega⟩
  rw [hk, runLoop_exit hexit]

end LoopRun
