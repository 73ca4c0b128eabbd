import Mathlib.Algebra.GroupWithZero.Nat
import Mathlib.Data.List.Forall2
import Mathlib.Algebra.BigOperators.Group.List.Basic
/-! # Counting with several radices

The lowest digit comes first. A digit at its end starts again, and the next one goes up. -/

namespace Odometer

/-- The digits of a number. -/
def digits : List ℕ → ℕ → List ℕ
  | [], _ => []
  | r :: rs, n => n % r :: digits rs (n / r)

/-- The digits of the next number, and whether there is one before all start again. -/
def next : List ℕ → List ℕ → Bool × List ℕ
  | r :: rs, d :: ds =>
    if d + 1 < r then (true, (d + 1) :: ds) else ((next rs ds).1, 0 :: (next rs ds).2)
  | _, _ => (false, [])

variable {rs : List ℕ}

theorem next_digits (hpos : ∀ r ∈ rs, 0 < r) {n : ℕ} (hn : n < rs.prod) :
    next rs (digits rs n) = (decide (n + 1 < rs.prod), digits rs (n + 1)) := by
  induction rs generalizing n with
  | nil =>
    rw [List.prod_nil] at hn
    have hlast : ¬ n + 1 < 1 := by omega
    simp [next, digits]
  | cons r rs ih =>
    have hr : 0 < r := hpos r List.mem_cons_self
    rw [List.prod_cons] at hn ⊢
    have hquot : n / r < rs.prod := Nat.div_lt_of_lt_mul hn
    have hsplit : r * (n / r) + n % r = n := Nat.div_add_mod n r
    have hmod : n % r < r := Nat.mod_lt n hr
    rw [digits, digits, next]
    by_cases hup : n % r + 1 < r
    · have hnext : n + 1 = (n % r + 1) + r * (n / r) := by omega
      have hdigit : (n + 1) % r = n % r + 1 := by
        rw [hnext, Nat.add_mul_mod_self_left, Nat.mod_eq_of_lt hup]
      have hrest : (n + 1) / r = n / r := by
        rw [hnext, Nat.add_mul_div_left _ _ hr, Nat.div_eq_of_lt hup, Nat.zero_add]
      have hlt : n + 1 < r * rs.prod := by
        calc n + 1 = (n % r + 1) + r * (n / r) := hnext
          _ < r + r * (n / r) := by omega
          _ = r * (n / r + 1) := by rw [Nat.mul_succ, Nat.add_comm]
          _ ≤ r * rs.prod := Nat.mul_le_mul_left r hquot
      rw [if_pos hup, hdigit, hrest, decide_eq_true hlt]
    · have hnext : n + 1 = r * (n / r + 1) := by
        rw [Nat.mul_succ]
        omega
      have hdigit : (n + 1) % r = 0 := by rw [hnext, Nat.mul_mod_right]
      have hrest : (n + 1) / r = n / r + 1 := by rw [hnext, Nat.mul_div_cancel_left _ hr]
      have hiff : n + 1 < r * rs.prod ↔ n / r + 1 < rs.prod := by
        rw [hnext, Nat.mul_lt_mul_left hr]
      rw [if_neg hup, ih (fun s hs => hpos s (List.mem_cons_of_mem r hs)) hquot, hdigit, hrest]
      simp only [hiff]

theorem digits_lt (hpos : ∀ r ∈ rs, 0 < r) (n : ℕ) :
    List.Forall₂ (· < ·) (digits rs n) rs := by
  induction rs generalizing n with
  | nil => exact List.Forall₂.nil
  | cons r rs ih =>
    exact List.Forall₂.cons (Nat.mod_lt n (hpos r List.mem_cons_self))
      (ih (fun s hs => hpos s (List.mem_cons_of_mem r hs)) (n / r))

theorem exists_digits {ds : List ℕ} (h : List.Forall₂ (· < ·) ds rs) :
    ∃ n < rs.prod, digits rs n = ds := by
  induction h with
  | nil => exact ⟨0, by simp, rfl⟩
  | @cons d r ds rs hd _ ih =>
    obtain ⟨n, hn, hdigits⟩ := ih
    have hr : 0 < r := by omega
    refine ⟨d + r * n, ?_, ?_⟩
    · rw [List.prod_cons]
      calc d + r * n < r + r * n := by omega
        _ = r * (n + 1) := by rw [Nat.mul_succ, Nat.add_comm]
        _ ≤ r * rs.prod := Nat.mul_le_mul_left r hn
    · rw [digits, Nat.add_mul_mod_self_left, Nat.mod_eq_of_lt hd, Nat.add_mul_div_left _ _ hr,
        Nat.div_eq_of_lt hd, Nat.zero_add, hdigits]

theorem digits_inj {n m : ℕ} (hn : n < rs.prod) (hm : m < rs.prod)
    (h : digits rs n = digits rs m) : n = m := by
  induction rs generalizing n m with
  | nil =>
    rw [List.prod_nil] at hn hm
    omega
  | cons r rs ih =>
    rw [List.prod_cons] at hn hm
    rw [digits, digits, List.cons.injEq] at h
    have hquot := ih (Nat.div_lt_of_lt_mul hn) (Nat.div_lt_of_lt_mul hm) h.2
    rw [← Nat.div_add_mod n r, ← Nat.div_add_mod m r, h.1, hquot]

end Odometer
