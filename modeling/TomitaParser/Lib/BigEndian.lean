import Mathlib.Tactic.Ring
/-! # Numbers as bytes, the highest first -/

namespace BigEndian

/-- The lowest so many bytes of a number. -/
def bytes : ℕ → ℕ → List ℕ
  | 0, _ => []
  | len + 1, n => n / 256 ^ len % 256 :: bytes len n

/-- The number that bytes stand for, after those already read. -/
def read : ℕ → List ℕ → ℕ
  | n, [] => n
  | n, b :: rest => read (n * 256 + b) rest

@[simp]
theorem length_bytes (len n : ℕ) : (bytes len n).length = len := by
  induction len with
  | zero => rfl
  | succ len ih => simp [bytes, ih]

theorem lt_of_mem_bytes {len n b : ℕ} (h : b ∈ bytes len n) : b < 256 := by
  induction len with
  | zero => simp [bytes] at h
  | succ len ih =>
    rcases List.mem_cons.mp h with rfl | h
    · exact Nat.mod_lt _ (by norm_num)
    · exact ih h

theorem bytes_succ (len n : ℕ) : bytes (len + 1) n = bytes len (n / 256) ++ [n % 256] := by
  induction len with
  | zero => simp [bytes]
  | succ len ih =>
    rw [bytes, ih, bytes, List.cons_append, Nat.div_div_eq_div_mul, Nat.pow_succ']

theorem read_bytes (k len n : ℕ) : read k (bytes len n) = k * 256 ^ len + n % 256 ^ len := by
  induction len generalizing k with
  | zero => simp [bytes, read, Nat.mod_one]
  | succ len ih =>
    rw [bytes, read, ih, Nat.pow_succ, Nat.mod_mul]
    ring

theorem bytes_injective {len m n : ℕ} (hm : m < 256 ^ len) (hn : n < 256 ^ len)
    (h : bytes len m = bytes len n) : m = n := by
  have hread := congrArg (read 0) h
  rwa [read_bytes, read_bytes, Nat.mod_eq_of_lt hm, Nat.mod_eq_of_lt hn, Nat.zero_mul,
    Nat.zero_add, Nat.zero_add] at hread

/-- As many bytes as a number needs; none for zero. -/
def size (n : ℕ) : ℕ :=
  if n = 0 then 0 else size (n / 256) + 1
  termination_by n
  decreasing_by exact Nat.div_lt_self (by omega) (by norm_num)

@[simp]
theorem size_zero : size 0 = 0 := by
  rw [size, if_pos rfl]

theorem size_le_iff (n len : ℕ) : size n ≤ len ↔ n < 256 ^ len := by
  induction len generalizing n with
  | zero =>
    rw [size]
    split_ifs with hn
    · simp [hn]
    · simp [hn]
  | succ len ih =>
    rw [size]
    split_ifs with hn
    · simp [hn]
    · rw [Nat.succ_le_succ_iff, ih, Nat.div_lt_iff_lt_mul (by norm_num), Nat.pow_succ]

theorem size_eq_zero {n : ℕ} : size n = 0 ↔ n = 0 := by
  have h := size_le_iff n 0
  rw [Nat.le_zero, Nat.pow_zero, Nat.lt_one_iff] at h
  exact h

theorem lt_pow_size (n : ℕ) : n < 256 ^ size n :=
  (size_le_iff n (size n)).mp (le_refl _)

theorem size_mono {m n : ℕ} (h : m ≤ n) : size m ≤ size n := by
  rw [size_le_iff]
  exact lt_of_le_of_lt h (lt_pow_size n)

theorem size_add_le {n d : ℕ} (hn : 0 < n) (hd : d ≤ 255) : size (n + d) ≤ size n + 1 := by
  rw [size_le_iff, Nat.pow_succ]
  have hlt := lt_pow_size n
  have hle : 256 ^ 1 ≤ 256 ^ size n := by
    apply Nat.pow_le_pow_right (by norm_num)
    have := mt size_eq_zero.mp (Nat.pos_iff_ne_zero.mp hn)
    omega
  omega

theorem read_bytes_size (n : ℕ) : read 0 (bytes (size n) n) = n := by
  rw [read_bytes, Nat.mod_eq_of_lt (lt_pow_size n), Nat.zero_mul, Nat.zero_add]

end BigEndian
