import Mathlib.Algebra.Order.Round
import Mathlib.Data.Int.Log
import Mathlib.Data.Rat.Floor
import Mathlib.Tactic.Linarith
import Mathlib.Tactic.Positivity
/-! # Numbers of double precision

Rounding to 53 binary digits. A natural number keeps its value below `2 ^ 53`, and what is rounded
below `2 ^ 63` is off by at most 512. -/

namespace Binary64

/-- The nearest integer, an even one where two are equally near. -/
def roundHalfEven (q : ℚ) : ℤ :=
  if Int.fract q < 1 / 2 then ⌊q⌋
  else if 1 / 2 < Int.fract q then ⌊q⌋ + 1
  else if ⌊q⌋ % 2 = 0 then ⌊q⌋ else ⌊q⌋ + 1

/-- The `double` nearest to a number of the normal range: 53 binary digits. -/
def toDouble (q : ℚ) : ℚ :=
  if q = 0 then 0
  else roundHalfEven (q / 2 ^ (Int.log 2 |q| - 52)) * 2 ^ (Int.log 2 |q| - 52)

theorem roundHalfEven_le {q : ℚ} {n : ℤ} (h : q ≤ n) : roundHalfEven q ≤ n := by
  by_cases hn : ⌊q⌋ = n
  · have hq : q = n := by
      apply le_antisymm h
      rw [← hn]
      exact Int.floor_le q
    have hfract : Int.fract q = 0 := by
      rw [hq]
      exact Int.fract_intCast n
    rw [roundHalfEven, if_pos (by rw [hfract]; norm_num)]
    exact hn.le
  · have hlt : ⌊q⌋ + 1 ≤ n := by
      have hle : ⌊q⌋ ≤ n := Int.floor_le_iff.mpr (by linarith)
      omega
    unfold roundHalfEven
    split_ifs <;> omega

theorem toDouble_le {q : ℚ} {n : ℕ} (h₀ : 0 ≤ q) (h : q ≤ n) (hn : n < 2 ^ 53) :
    toDouble q ≤ n := by
  unfold toDouble
  split_ifs with hq
  · exact Nat.cast_nonneg n
  · have hpos : 0 < q := lt_of_le_of_ne h₀ (Ne.symm hq)
    rw [abs_of_pos hpos]
    have hlog : Int.log 2 q < 53 := by
      rw [← Int.lt_zpow_iff_log_lt (by norm_num) hpos]
      calc q ≤ n := h
        _ < (2 : ℚ) ^ (53 : ℤ) := by
          have : (n : ℚ) < 2 ^ 53 := by exact_mod_cast hn
          simpa using this
    -- the last binary digit is worth at most 1, so `n` is a multiple of it
    obtain ⟨k, hk⟩ : ∃ k : ℕ, Int.log 2 q - 52 = -(k : ℤ) :=
      ⟨(52 - Int.log 2 q).toNat, by omega⟩
    rw [hk, zpow_neg, zpow_natCast]
    have hmultiple : q / ((2 : ℚ) ^ k)⁻¹ ≤ ((n * 2 ^ k : ℕ) : ℤ) := by
      rw [div_inv_eq_mul]
      push_cast
      exact mul_le_mul_of_nonneg_right h (by positivity)
    have hround := roundHalfEven_le hmultiple
    have hcast : (roundHalfEven (q / ((2 : ℚ) ^ k)⁻¹) : ℚ) ≤ n * 2 ^ k := by
      exact_mod_cast hround
    rw [← div_eq_mul_inv, div_le_iff₀ (by positivity)]
    exact hcast

theorem roundHalfEven_intCast (n : ℤ) : roundHalfEven n = n := by
  rw [roundHalfEven, Int.fract_intCast, if_pos (by norm_num), Int.floor_intCast]

theorem abs_roundHalfEven_sub_le (q : ℚ) : |(roundHalfEven q : ℚ) - q| ≤ 1 / 2 := by
  have hfract : Int.fract q = q - ⌊q⌋ := rfl
  have hnonneg := Int.fract_nonneg q
  have hlt := Int.fract_lt_one q
  rw [abs_le]
  unfold roundHalfEven
  split_ifs <;> push_cast <;> constructor <;> linarith

theorem le_roundHalfEven {q : ℚ} {n : ℤ} (h : (n : ℚ) ≤ q) : n ≤ roundHalfEven q := by
  have hfloor : n ≤ ⌊q⌋ := Int.le_floor.mpr h
  unfold roundHalfEven
  split_ifs <;> omega

/-- A natural number with at most 53 binary digits keeps its value; a longer one loses the last
`k` digits. -/
theorem toDouble_natCast (n : ℕ) :
    toDouble n = n ∨ ∃ k : ℕ, 0 < k ∧ n.log2 = 52 + k ∧
      toDouble n = roundHalfEven ((n : ℚ) / 2 ^ k) * 2 ^ k := by
  unfold toDouble
  split_ifs with h0
  · exact .inl h0.symm
  have habs : |(n : ℚ)| = n := Nat.abs_cast n
  have hlog : Int.log 2 (n : ℚ) = n.log2 := by
    rw [Int.log_natCast, Nat.log2_eq_log_two]
  rw [habs, hlog]
  rcases Nat.lt_or_ge 52 n.log2 with hlong | hshort
  · obtain ⟨k, hk⟩ := Nat.exists_eq_add_of_le hlong.le
    refine .inr ⟨k, by omega, hk, ?_⟩
    have hexp : ((n.log2 : ℕ) : ℤ) - 52 = (k : ℤ) := by omega
    rw [hexp, zpow_natCast]
  · obtain ⟨k, hk⟩ := Nat.exists_eq_add_of_le hshort
    have hexp : ((n.log2 : ℕ) : ℤ) - 52 = -(k : ℤ) := by omega
    rw [hexp, zpow_neg, zpow_natCast]
    have hwhole : (n : ℚ) / ((2 : ℚ) ^ k)⁻¹ = ((n * 2 ^ k : ℤ) : ℚ) := by
      push_cast
      rw [div_inv_eq_mul]
    rw [hwhole, roundHalfEven_intCast]
    push_cast
    left
    field_simp

/-- A natural number is rounded to one. -/
theorem exists_toDouble_natCast (n : ℕ) : ∃ m : ℕ, toDouble n = m := by
  rcases toDouble_natCast n with h | ⟨k, -, -, h⟩
  · exact ⟨n, h⟩
  · have hnonneg : 0 ≤ roundHalfEven ((n : ℚ) / 2 ^ k) := by
      apply le_roundHalfEven
      push_cast
      positivity
    obtain ⟨m, hm⟩ := Int.eq_ofNat_of_zero_le hnonneg
    refine ⟨m * 2 ^ k, ?_⟩
    rw [h, hm]
    push_cast
    rfl

/-- Below `2 ^ 63` a natural number is off by at most 512. -/
theorem abs_toDouble_sub_le {n : ℕ} (h : toDouble n < 2 ^ 63) : |toDouble n - n| ≤ 512 := by
  rcases toDouble_natCast n with hn | ⟨k, hk, hlog, hn⟩
  · rw [hn, sub_self, abs_zero]
    norm_num
  have hpos : (0 : ℚ) < 2 ^ k := by positivity
  have hn0 : n ≠ 0 := by
    rintro rfl
    rw [Nat.log2_zero] at hlog
    omega
  have hlarge : (2 : ℚ) ^ (52 + k) ≤ n := by
    have hle : 2 ^ n.log2 ≤ n := Nat.log2_self_le hn0
    rw [hlog] at hle
    exact_mod_cast hle
  -- the rounded number has as many digits as `n`, so fewer than 64
  have hround : ((2 ^ 52 : ℤ) : ℚ) ≤ roundHalfEven ((n : ℚ) / 2 ^ k) := by
    have hq : ((2 ^ 52 : ℤ) : ℚ) ≤ (n : ℚ) / 2 ^ k := by
      rw [le_div_iff₀ hpos, Int.cast_pow, Int.cast_ofNat, ← pow_add]
      exact hlarge
    exact_mod_cast le_roundHalfEven hq
  have hk10 : k ≤ 10 := by
    by_contra hlt
    have hpow : (2 : ℚ) ^ 11 ≤ 2 ^ k := pow_le_pow_right₀ (by norm_num) (by omega)
    have hprod : (2 : ℚ) ^ 52 * 2 ^ 11 ≤ toDouble n := by
      rw [hn]
      push_cast at hround
      exact mul_le_mul hround hpow (by positivity) (le_trans (by positivity) hround)
    exact absurd h (not_lt.mpr (le_trans (by norm_num) hprod))
  have herror : toDouble n - n = ((roundHalfEven ((n : ℚ) / 2 ^ k) : ℚ) - n / 2 ^ k) * 2 ^ k := by
    rw [hn, sub_mul, div_mul_cancel₀ _ hpos.ne']
  rw [herror, abs_mul, abs_of_pos hpos]
  calc |(roundHalfEven ((n : ℚ) / 2 ^ k) : ℚ) - n / 2 ^ k| * 2 ^ k
      ≤ 1 / 2 * 2 ^ 10 := mul_le_mul (abs_roundHalfEven_sub_le _)
        (pow_le_pow_right₀ (by norm_num) hk10) (by positivity) (by norm_num)
    _ = 512 := by norm_num

end Binary64
