import TomitaParser.Comptrie.Packers
/-! # Integers in leaves

The first byte of a packed number has as many leading ones as bytes follow it, so the size can be
read from it. Eight ones leave no bits for the number. -/

namespace TomitaParser.Packers

theorem measureLoop_mem (rounds value len : ℕ) :
    len ≤ measureLoop rounds value len ∧ measureLoop rounds value len ≤ len + rounds := by
  induction rounds generalizing value len with
  | zero => exact ⟨le_refl _, le_refl _⟩
  | succ rounds ih =>
    rw [measureLoop]
    split_ifs
    · omega
    · have := ih (value >>> 7) (len + 1)
      omega

theorem measureLoop_le_iff {rounds k : ℕ} (hk : k < rounds) (value len : ℕ) :
    measureLoop rounds value len ≤ len + k ↔ value < 128 ^ k := by
  induction rounds generalizing value len k with
  | zero => omega
  | succ rounds ih =>
    rw [measureLoop]
    split_ifs with hzero
    · simp [hzero]
    · cases k with
      | zero =>
        have := measureLoop_mem rounds (value >>> 7) (len + 1)
        simp only [Nat.pow_zero]
        omega
      | succ k =>
        have h := ih (show k < rounds by omega) (value >>> 7) (len + 1)
        rw [show len + (k + 1) = len + 1 + k by omega, h, Nat.shiftRight_eq_div_pow,
          Nat.div_lt_iff_lt_mul (by norm_num), pow_succ (128 : ℕ)]

theorem measureUi64_mem (n : ℕ) : 1 ≤ measureUi64 n ∧ measureUi64 n ≤ 9 :=
  measureLoop_mem 8 _ 1

theorem measureUi64_le_iff {k : ℕ} (hk : k < 8) (n : ℕ) :
    measureUi64 n ≤ 1 + k ↔ n < 128 ^ (k + 1) := by
  rw [measureUi64, maxSize, measureLoop_le_iff hk, Nat.shiftRight_eq_div_pow,
    Nat.div_lt_iff_lt_mul (by norm_num), pow_succ (128 : ℕ)]

theorem lt_pow_measureUi64 {n : ℕ} (h : measureUi64 n < 9) : n < 128 ^ measureUi64 n := by
  have hpos := (measureUi64_mem n).1
  have hiff := measureUi64_le_iff (show measureUi64 n - 1 < 8 by omega) n
  rw [show measureUi64 n - 1 + 1 = measureUi64 n by omega,
    show 1 + (measureUi64 n - 1) = measureUi64 n by omega] at hiff
  exact hiff.mp (le_refl _)

theorem measureUi64_mono {m n : ℕ} (h : m ≤ n) : measureUi64 m ≤ measureUi64 n := by
  by_cases h9 : measureUi64 n < 9
  · have hlt := lt_of_le_of_lt h (lt_pow_measureUi64 h9)
    have hpos := (measureUi64_mem n).1
    have hiff := measureUi64_le_iff (show measureUi64 n - 1 < 8 by omega) m
    rw [show measureUi64 n - 1 + 1 = measureUi64 n by omega] at hiff
    have := hiff.mpr hlt
    omega
  · have := measureUi64_mem m
    omega

theorem measureUi64_add_le {n d : ℕ} (hd : d ≤ 9) : measureUi64 (n + d) ≤ measureUi64 n + 1 := by
  by_cases h8 : measureUi64 n < 8
  · have hlt := lt_pow_measureUi64 (show measureUi64 n < 9 by omega)
    rw [Nat.add_comm (measureUi64 n), measureUi64_le_iff h8, Nat.pow_succ]
    have hpos := (measureUi64_mem n).1
    have hle : 128 ^ 1 ≤ 128 ^ measureUi64 n := Nat.pow_le_pow_right (by norm_num) hpos
    omega
  · have := measureUi64_mem (n + d)
    omega

theorem measureUi64_withOwnSize (curSize : ℕ) :
    withOwnSize curSize = curSize + measureUi64 (withOwnSize curSize) := by
  rw [withOwnSize]
  have h1 := measureUi64_mem curSize
  have h2 := measureUi64_mem (curSize + measureUi64 curSize)
  have hup := measureUi64_add_le (n := curSize) h1.2
  have hmono := measureUi64_mono (Nat.le_add_right curSize (measureUi64 curSize))
  by_cases heq : measureUi64 (curSize + measureUi64 curSize) = measureUi64 curSize
  · rw [heq, heq]
  · have hup' := measureUi64_add_le (n := curSize) h2.2
    have hmono' := measureUi64_mono
      (show curSize + measureUi64 curSize ≤ curSize + measureUi64 (curSize + measureUi64 curSize)
        by omega)
    omega

/-- How one byte that follows changes the length mask. -/
def shiftMask (lenmask : ℕ) : ℕ := lenmask >>> 1 ||| 128

/-- What is packed for a number. -/
def encodeUi64 (n : ℕ) : List ℕ :=
  let taillen := measureUi64 n - 1
  (shiftMask^[taillen] 0 ||| n / 256 ^ taillen) % 256 :: BigEndian.bytes taillen n

theorem length_encodeUi64 (n : ℕ) : (encodeUi64 n).length = measureUi64 n := by
  have := (measureUi64_mem n).1
  simp only [encodeUi64, List.length_cons, BigEndian.length_bytes]
  omega

theorem lt_of_mem_encodeUi64 {n b : ℕ} (h : b ∈ encodeUi64 n) : b < 256 := by
  rcases List.mem_cons.mp h with rfl | h
  · exact Nat.mod_lt _ (by norm_num)
  · exact BigEndian.lt_of_mem_bytes h

theorem packLoop_eq (before : List ℕ) (i value lenmask : ℕ) (room after : List ℕ)
    (hroom : room.length = i + 1) :
    packLoop before.length i value lenmask (before ++ room ++ after) =
      before ++ ((shiftMask^[i] lenmask ||| value / 256 ^ i) % 256 :: BigEndian.bytes i value) ++
        after := by
  induction i generalizing value lenmask room after with
  | zero =>
    obtain ⟨x, rfl⟩ := List.length_eq_one_iff.mp hroom
    simp [packLoop, BigEndian.bytes]
  | succ i ih =>
    obtain ⟨room, x, rfl⟩ : ∃ room' x, room = room' ++ [x] :=
      ⟨room.dropLast, room.getLast (by rw [← List.length_pos_iff]; omega),
        (List.dropLast_append_getLast _).symm⟩
    have hroom' : room.length = i + 1 := by simpa using hroom
    have hset : (before ++ (room ++ [x]) ++ after).set (before.length + (i + 1)) (value % 256) =
        before ++ room ++ (value % 256 :: after) := by
      rw [List.append_assoc, List.set_append_right _ _ (by omega), Nat.add_sub_cancel_left,
        List.append_assoc, List.set_append_right _ _ (by omega), hroom', Nat.sub_self]
      simp
    have hshift : value >>> 8 = value / 256 := Nat.shiftRight_eq_div_pow value 8
    rw [packLoop, hset, ih _ _ room _ hroom', hshift, BigEndian.bytes_succ,
      Function.iterate_succ_apply, Nat.div_div_eq_div_mul, Nat.pow_succ', shiftMask]
    simp

theorem packUi64_eq (before room after : List ℕ) (n : ℕ) (hroom : room.length = measureUi64 n) :
    packUi64 (before ++ room ++ after) before.length n (measureUi64 n) =
      before ++ encodeUi64 n ++ after := by
  have := (measureUi64_mem n).1
  exact packLoop_eq before _ n 0 room after (by omega)

theorem firstByte : ∀ (k : Fin 9) (r : Fin 128), r.val < 2 ^ (7 - k.val) →
    let b := (shiftMask^[k.val] 0 ||| r.val) % 256
    (shiftOnes 8 b 0).1 >>> k.val = r.val ∧ (shiftOnes 8 b 0).2 = k.val ∧
      skipTable.getD b 0 = k.val + 1 := by
  decide +kernel

theorem firstByte_encodeUi64 {n : ℕ} (hn : n < 2 ^ 64) :
    let k := measureUi64 n - 1
    let b := (shiftMask^[k] 0 ||| n / 256 ^ k) % 256
    (shiftOnes 8 b 0).1 >>> k = n / 256 ^ k ∧ (shiftOnes 8 b 0).2 = k ∧
      skipTable.getD b 0 = k + 1 := by
  intro k b
  have hk := measureUi64_mem n
  have hr : n / 256 ^ k < 2 ^ (7 - k) := by
    rw [Nat.div_lt_iff_lt_mul (Nat.pow_pos (by norm_num))]
    by_cases h9 : measureUi64 n < 9
    · have hlt := lt_pow_measureUi64 h9
      calc n < 128 ^ measureUi64 n := hlt
        _ = 2 ^ (7 * (k + 1)) := by
          rw [show (128 : ℕ) = 2 ^ 7 by norm_num, ← Nat.pow_mul]
          congr 2
          omega
        _ = 2 ^ (7 - k) * 256 ^ k := by
          rw [show (256 : ℕ) = 2 ^ 8 by norm_num, ← Nat.pow_mul, ← Nat.pow_add]
          congr 1
          omega
    · have hk8 : k = 8 := by omega
      rw [hk8]
      omega
  have h128 : n / 256 ^ k < 128 :=
    lt_of_lt_of_le hr (Nat.pow_le_pow_right (n := 2) (by norm_num) (show 7 - k ≤ 7 by omega))
  exact firstByte ⟨k, by omega⟩ ⟨n / 256 ^ k, h128⟩ hr

theorem readTail_bytes (k r n : ℕ) (rest : List ℕ) (h : r * 256 ^ k + n % 256 ^ k < 2 ^ 64) :
    readTail k r (BigEndian.bytes k n ++ rest) = r * 256 ^ k + n % 256 ^ k := by
  induction k generalizing r with
  | zero => simp [readTail, Nat.mod_one]
  | succ k ih =>
    have hb : n / 256 ^ k % 256 < 256 := Nat.mod_lt _ (by norm_num)
    have hsum : (r * 256 + n / 256 ^ k % 256) * 256 ^ k + n % 256 ^ k =
        r * 256 ^ (k + 1) + n % 256 ^ (k + 1) := by
      rw [Nat.pow_succ, Nat.mod_mul]
      ring
    have hlt : r * 256 + n / 256 ^ k % 256 < 2 ^ 64 := by
      have hpos : 0 < 256 ^ k := Nat.pow_pos (by norm_num)
      have hle := Nat.le_mul_of_pos_right (r * 256 + n / 256 ^ k % 256) hpos
      omega
    have hor : r <<< 8 ||| n / 256 ^ k % 256 = r * 256 + n / 256 ^ k % 256 := by
      rw [← Nat.shiftLeft_add_eq_or_of_lt (show _ < 2 ^ 8 from hb), Nat.shiftLeft_eq]
    rw [BigEndian.bytes, List.cons_append, readTail, byteAt, List.headD_cons, List.tail_cons,
      Nat.mod_eq_of_lt hb, hor, ui64, Nat.mod_eq_of_lt hlt, ih _ (by rw [hsum]; exact h), hsum]

theorem byteAt_encodeUi64 (n : ℕ) (rest : List ℕ) :
    byteAt (encodeUi64 n ++ rest) =
      (shiftMask^[measureUi64 n - 1] 0 ||| n / 256 ^ (measureUi64 n - 1)) % 256 := by
  rw [encodeUi64, List.cons_append, byteAt, List.headD_cons, Nat.mod_mod]

theorem unpackUi64_encodeUi64 {n : ℕ} (hn : n < 2 ^ 64) (rest : List ℕ) :
    unpackUi64 (encodeUi64 n ++ rest) = n := by
  have hfirst := firstByte_encodeUi64 hn
  have hsplit : n / 256 ^ (measureUi64 n - 1) * 256 ^ (measureUi64 n - 1) +
      n % 256 ^ (measureUi64 n - 1) = n := by
    rw [Nat.mul_comm]
    exact Nat.div_add_mod _ _
  rw [unpackUi64, byteAt_encodeUi64]
  simp only [hfirst.2.1, hfirst.1]
  rw [encodeUi64, List.cons_append, List.tail_cons, readTail_bytes _ _ _ _ (by rw [hsplit]; exact hn),
    hsplit]

theorem skipUi64_encodeUi64 {n : ℕ} (hn : n < 2 ^ 64) (rest : List ℕ) :
    skipUi64 (encodeUi64 n ++ rest) = measureUi64 n := by
  have hpos := (measureUi64_mem n).1
  rw [skipUi64, byteAt_encodeUi64, (firstByte_encodeUi64 hn).2.2]
  omega

theorem shiftOnes_lt {ch : ℕ} (h : ch < 256) (bits taillen : ℕ) :
    (shiftOnes bits ch taillen).1 < 256 := by
  induction bits generalizing ch taillen with
  | zero => exact h
  | succ bits ih =>
    rw [shiftOnes]
    split_ifs
    · exact ih (Nat.mod_lt _ (by norm_num)) _
    · exact h

theorem readTail_lt {r : ℕ} (h : r < 2 ^ 64) (k : ℕ) (p : List ℕ) : readTail k r p < 2 ^ 64 := by
  induction k generalizing r p with
  | zero => exact h
  | succ k ih => exact ih (Nat.mod_lt _ (by norm_num)) _

theorem unpackUi64_lt (p : List ℕ) : unpackUi64 p < 2 ^ 64 := by
  have hbyte := shiftOnes_lt (show byteAt p < 256 from Nat.mod_lt _ (by norm_num)) 8 0
  have hle := Nat.shiftRight_le (shiftOnes 8 (byteAt p) 0).1 (shiftOnes 8 (byteAt p) 0).2
  exact readTail_lt (lt_of_le_of_lt hle (hbyte.trans (by decide))) _ _

theorem convertIntegral_of_nonneg {n : ℤ} (h : 0 ≤ n) (hlt : n < 2 ^ 63) :
    convertIntegral n = 2 * n.toNat := by
  rw [convertIntegral, if_neg (by omega), ui64, Nat.shiftLeft_eq]
  omega

theorem two_mul_or_one (n : ℕ) : 2 * n ||| 1 = 2 * n + 1 := by
  have h := Nat.shiftLeft_add_eq_or_of_lt (show 1 < 2 ^ 1 by norm_num) n
  rw [Nat.shiftLeft_eq] at h
  rw [Nat.mul_comm]
  exact h.symm

theorem convertIntegral_of_neg {n : ℤ} (h : n < 0) (hgt : -2 ^ 63 < n) :
    convertIntegral n = 2 * (-n).toNat + 1 := by
  have hcast : signedCast 64 (-1 * n) = -n := by
    rw [signedCast, Int.bmod_eq_of_le (by omega) (by omega)]
    omega
  rw [convertIntegral, if_pos h, hcast, Int.emod_eq_of_lt (by omega) (by omega), ui64,
    Nat.shiftLeft_eq, Nat.mod_eq_of_lt (by omega), Nat.mul_comm, two_mul_or_one]

theorem convertIntegral_lt (n : ℤ) : convertIntegral n < 2 ^ 64 := by
  rw [convertIntegral]
  split_ifs
  · exact Nat.or_lt_two_pow (Nat.mod_lt _ (by norm_num)) (by norm_num)
  · exact Nat.mod_lt _ (by norm_num)

theorem signedCast_self {size : IntSize} (v : Signed size) :
    signedCast size.bits v.val = v.val := by
  have hv := v.property
  rw [signedCast]
  apply Int.bmod_eq_of_le
  all_goals cases size <;> simp only [IntSize.bits, IntSize.bytes] at * <;> omega

theorem Signed.bounds {size : IntSize} (v : Signed size) : -2 ^ 63 ≤ v.val ∧ v.val < 2 ^ 63 := by
  have hv := v.property
  cases size <;> simp only [IntSize.bits, IntSize.bytes] at hv <;> omega

theorem unpackSigned_of_even {p : List ℕ} {n bits : ℕ} (h : unpackUi64 p = 2 * n) :
    unpackSigned bits p = signedCast bits n := by
  simp only [unpackSigned, h, Nat.and_one_is_mod, Nat.shiftRight_eq_div_pow]
  rw [if_neg (by omega), show 2 * n / 2 ^ 1 = n by omega]

theorem unpackSigned_of_odd {p : List ℕ} {n bits : ℕ} (h : unpackUi64 p = 2 * n + 1) :
    unpackSigned bits p = signedCast bits (-n) := by
  simp only [unpackSigned, h, Nat.and_one_is_mod, Nat.shiftRight_eq_div_pow]
  rw [if_pos (by omega), show (2 * n + 1) / 2 ^ 1 = n by omega, signedCast, signedCast,
    Int.mul_bmod_bmod, neg_one_mul, signedCast]

theorem unpackSigned_encodeUi64 {size : IntSize} (v : Signed size) (hv : v.val ≠ -2 ^ 63)
    (rest : List ℕ) :
    unpackSigned size.bits (encodeUi64 (convertIntegral v.val) ++ rest) = v.val := by
  have hbounds := v.bounds
  have hread := unpackUi64_encodeUi64 (convertIntegral_lt v.val) rest
  by_cases hneg : v.val < 0
  · have hconvert := convertIntegral_of_neg hneg (by omega)
    rw [unpackSigned_of_odd (hread.trans hconvert),
      show -((-v.val).toNat : ℤ) = v.val by omega, signedCast_self]
  · have hconvert := convertIntegral_of_nonneg (by omega) hbounds.2
    rw [unpackSigned_of_even (hread.trans hconvert),
      show (v.val.toNat : ℤ) = v.val by omega, signedCast_self]

theorem unpackSigned_ne (size : IntSize) (p : List ℕ) : unpackSigned size.bits p ≠ -2 ^ 63 := by
  have hmem := unpackSigned_mem size p
  cases size
  · simp only [IntSize.bits, IntSize.bytes] at *
    omega
  · simp only [IntSize.bits, IntSize.bytes] at *
    omega
  · simp only [IntSize.bits, IntSize.bytes] at *
    omega
  · have hlt := unpackUi64_lt p
    rcases Nat.even_or_odd' (unpackUi64 p) with ⟨n, h | h⟩
    · rw [unpackSigned_of_even h, signedCast, IntSize.bits, IntSize.bytes,
        Int.bmod_eq_of_le (by omega) (by omega)]
      omega
    · rw [unpackSigned_of_odd h, signedCast, IntSize.bits, IntSize.bytes,
        Int.bmod_eq_of_le (by omega) (by omega)]
      omega

end TomitaParser.Packers
