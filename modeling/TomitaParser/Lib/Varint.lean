import Mathlib.Tactic.Ring
import TomitaParser.Lib.Codec
/-! # Varints

Numbers of 32 bits in groups of seven bits, the lowest first. The high bit of a byte says that more
bytes follow. -/

namespace Varint

/-- The bytes of a number, with so many bytes before the last one at most. -/
def encode : ℕ → ℕ → List UInt8
  | 0, n => [UInt8.ofNat n]
  | more + 1, n =>
    if n < 128 then [UInt8.ofNat n] else UInt8.ofNat (n % 128 + 128) :: encode more (n / 128)

/-- Reads so many bytes at most. -/
def decode : ℕ → ℕ → List UInt8 → Option (ℕ × List UInt8)
  | 0, _, _ => none
  | _ + 1, _, [] => none
  | more + 1, shift, b :: rest =>
    if b.toNat < 128 then some (b.toNat * 2 ^ shift, rest)
    else (decode more (shift + 7) rest).map fun r => (b.toNat % 128 * 2 ^ shift + r.1, r.2)

/-- `WriteVarint32`. -/
def write32 (n : ℕ) : List UInt8 := encode 4 (ui32 n)

/-- `ReadVarint32`: the bits above 32 are read and lost. -/
def read32 (bytes : List UInt8) : Option (ℕ × List UInt8) :=
  (decode 10 0 bytes).map fun r => (ui32 r.1, r.2)

theorem decode_encode (more more' shift n : ℕ) (rest : List UInt8) (hn : n < 128 ^ (more + 1))
    (hmore : more < more') :
    decode more' shift (encode more n ++ rest) = some (n * 2 ^ shift, rest) := by
  induction more generalizing more' shift n with
  | zero =>
    obtain ⟨k, rfl⟩ := Nat.exists_eq_add_of_lt hmore
    have hb : (UInt8.ofNat n).toNat = n := by
      rw [UInt8.toNat_ofNat']
      omega
    simp only [encode, List.cons_append, List.nil_append, Nat.zero_add, decode, hb]
    rw [if_pos (by omega)]
  | succ more ih =>
    obtain ⟨k, rfl⟩ := Nat.exists_eq_add_of_lt hmore
    rw [encode]
    by_cases hlt : n < 128
    · have hb : (UInt8.ofNat n).toNat = n := by
        rw [UInt8.toNat_ofNat']
        omega
      rw [if_pos hlt]
      simp only [List.cons_append, List.nil_append, decode, hb]
      rw [if_pos hlt]
    · have hb : (UInt8.ofNat (n % 128 + 128)).toNat = n % 128 + 128 := by
        rw [UInt8.toNat_ofNat']
        omega
      have hdiv : n / 128 < 128 ^ (more + 1) := by
        rw [Nat.div_lt_iff_lt_mul (by omega), ← pow_succ]
        exact hn
      rw [if_neg hlt]
      simp only [List.cons_append, decode, hb]
      rw [if_neg (by omega), ih (more + 1 + k) (shift + 7) (n / 128) hdiv (by omega),
        Option.map_some]
      simp only [Option.some.injEq, Prod.mk.injEq, and_true]
      have hmod : (n % 128 + 128) % 128 = n % 128 := by omega
      have hsplit := Nat.mod_add_div n 128
      calc (n % 128 + 128) % 128 * 2 ^ shift + n / 128 * 2 ^ (shift + 7)
          = (n % 128 + 128 * (n / 128)) * 2 ^ shift := by rw [hmod]; ring
        _ = n * 2 ^ shift := by rw [hsplit]

theorem read32_write32 {n : ℕ} (hn : n < 2 ^ 32) (rest : List UInt8) :
    read32 (write32 n ++ rest) = some (n, rest) := by
  rw [read32, write32, ui32_of_lt hn, decode_encode 4 10 0 n rest (by omega) (by omega)]
  simp [ui32_of_lt hn]

theorem encode_ne_nil (more n : ℕ) : encode more n ≠ [] := by
  cases more with
  | zero => simp [encode]
  | succ more =>
    rw [encode]
    split <;> simp

theorem write32_ne_nil (n : ℕ) : write32 n ≠ [] := encode_ne_nil 4 _

end Varint
