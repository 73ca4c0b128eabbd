import Mathlib.Data.NNRat.Floor
import Mathlib.Data.NNRat.BigOperators
import Mathlib.Algebra.BigOperators.Group.List.Basic
import Mathlib.Algebra.Order.BigOperators.Group.List
import Mathlib.Tactic.Linarith
import Mathlib.Tactic.IntervalCases
import Mathlib.Tactic.NormNum
import TomitaParser.Lib.Binary64
/-! # Composite numbers

The loop that joins numbers such as "33 million" and "25 thousand". The values are `double`s, whose
sums are rounded: the loop is first studied with exact sums, and the two ways of adding are compared
in the end.
-/

namespace TomitaParser.Rus
open Binary64

/-- `g_Exp1000`. -/
def exp1000 : List ℕ := [10 ^ 12, 10 ^ 9, 10 ^ 6, 10 ^ 3]

/-- `CNumber`: the first of its values, the other ones, and its words. -/
structure Number where
  value : NNRat
  others : List NNRat := []
  firstWord : ℕ
  lastWord : ℕ
deriving DecidableEq

/-- The conversion of a value to `i64`, which has no result out of range. -/
def toInt64 (x : NNRat) : Option ℕ := if x < 2 ^ 63 then some ⌊x⌋₊ else none

/-- The loop over `g_Exp1000`: the first power that divides a number. -/
def expIndex (num : ℕ) : ℕ := exp1000.findIdx fun e => num % e == 0

/-- `+=` of a `double` and an integer. -/
def addDouble (x : NNRat) (num : ℕ) : NNRat := (toDouble (x + num)).toNNRat

/-- The sum without rounding. -/
abbrev addExact (x : NNRat) (num : ℕ) : NNRat := x + num

section Loop
variable (add : NNRat → ℕ → NNRat)

/-- A number added to each value of the total, which then ends with its last word. -/
def Number.join (total number : Number) (num : ℕ) : Number where
  value := add total.value num
  others := total.others.map (add · num)
  firstWord := total.firstWord
  lastWord := number.lastWord

/-- The loop of `UniteComplexDigitSequence` after its first number: the total, and how many numbers
are joined to it. -/
def uniteRest : ℕ → Number → ℕ → List Number → Option (Number × ℕ)
  | 0, total, _, _ => some (total, 0)
  | _ + 1, total, _, [] => some (total, 0)
  | n + 1, total, prev, number :: rest =>
    if number.others ≠ [] ∨ total.lastWord + 1 ≠ number.firstWord then some (total, 0)
    else do
      let num ← toInt64 number.value
      let k := expIndex num
      if k = 0 ∨ prev % exp1000.getD (k - 1) 1 ≠ 0 then some (total, 0)
      else do
        let total := total.join add number num
        let prev ← toInt64 total.value
        if exp1000.length ≤ k then some (total, 1)
        else do
          let r ← uniteRest n total prev rest
          some (r.1, r.2 + 1)

/-- The loop of `UniteComplexDigitSequence`: the number that it leaves, and how many numbers this
one joins. -/
def uniteWith (first : Number) (rest : List Number) : Option (Number × ℕ) := do
  let prev ← toInt64 first.value
  if exp1000.length ≤ expIndex prev then some (first, 1)
  else do
    let r ← uniteRest add 4 first prev rest
    some (r.1, r.2 + 1)

end Loop

/-- `UniteComplexDigitSequence`. -/
def uniteComplexDigitSequence (first : Number) (rest : List Number) : Option (Number × ℕ) :=
  uniteWith addDouble first rest

def Divides (p : ℕ) (x : NNRat) : Prop := ∃ m : ℕ, x = p * m

def sumOf (numbers : List Number) : NNRat := (numbers.map (·.value)).sum

/-- Every joined number is smaller than the largest power of 1000 that divides the total before it,
and the value is the sum of the members. -/
structure Positional (first : Number) (rest : List Number) (r : Number × ℕ) : Prop where
  smaller : ∀ j number, j + 1 < r.2 → rest[j]? = some number →
    ∃ p ∈ exp1000, Divides p (sumOf (first :: rest.take j)) ∧ number.value < p
  value : r.1.value = sumOf (first :: rest.take (r.2 - 1))
  others : r.1.others = first.others.map (· + sumOf (rest.take (r.2 - 1)))

theorem expIndex_le (num : ℕ) : expIndex num ≤ 4 := List.findIdx_le_length

theorem expIndex_le_iff (num : ℕ) {k : ℕ} (hk : k < 4) :
    expIndex num ≤ k ↔ exp1000.getD k 1 ∣ num := by
  rw [Nat.dvd_iff_mod_eq_zero]
  interval_cases k <;> simp only [expIndex, exp1000, List.findIdx_cons, List.findIdx_nil,
    List.getD_cons_zero, List.getD_cons_succ, Bool.cond_eq_ite, beq_iff_eq] <;> split_ifs <;> omega

theorem expIndex_add {t m : ℕ} (h : expIndex t < expIndex m) : expIndex (t + m) = expIndex m := by
  have hm := expIndex_le m
  apply le_antisymm
  · by_cases h4 : expIndex m = 4
    · rw [h4]
      exact expIndex_le _
    · have hlt : expIndex m < 4 := by omega
      rw [expIndex_le_iff _ hlt]
      exact dvd_add ((expIndex_le_iff t hlt).mp h.le) ((expIndex_le_iff m hlt).mp le_rfl)
  · by_contra hlt
    have hk : expIndex m - 1 < 4 := by omega
    have hsum : exp1000.getD (expIndex m - 1) 1 ∣ t + m := (expIndex_le_iff _ hk).mp (by omega)
    have ht : exp1000.getD (expIndex m - 1) 1 ∣ t := (expIndex_le_iff _ hk).mp (by omega)
    have := (expIndex_le_iff m hk).mpr ((Nat.dvd_add_right ht).mp hsum)
    omega

theorem getD_exp1000_of_mem {p : ℕ} (hp : p ∈ exp1000) : ∃ k < 4, exp1000.getD k 1 = p := by
  obtain ⟨k, hk, hget⟩ := List.getElem_of_mem hp
  exact ⟨k, hk, by simp [List.getElem?_eq_getElem hk, hget]⟩

theorem divides_natCast {p n : ℕ} : Divides p n ↔ p ∣ n := by
  constructor
  · intro h
    obtain ⟨m, hm⟩ := h
    exact ⟨m, by exact_mod_cast hm⟩
  · intro h
    obtain ⟨m, hm⟩ := h
    exact ⟨m, by exact_mod_cast hm⟩

theorem divides_add {x : NNRat} {q m : ℕ} (hx : Divides q x)
    (h : expIndex ⌊x⌋₊ < expIndex m) {p : ℕ} (hp : p ∈ exp1000) :
    Divides p (x + m) ↔ Divides p (m : NNRat) := by
  obtain ⟨n, hn⟩ := hx
  obtain ⟨k, hk, rfl⟩ := getD_exp1000_of_mem hp
  have hcast : x = ((q * n : ℕ) : NNRat) := by
    rw [hn, Nat.cast_mul]
  rw [hcast, Nat.floor_natCast] at h
  rw [hcast, ← Nat.cast_add, divides_natCast, divides_natCast, ← expIndex_le_iff _ hk,
    ← expIndex_le_iff _ hk, expIndex_add h]

/-- The powers of 1000 that divide the integer part of a number. -/
def Number.index (number : Number) : ℕ := expIndex ⌊number.value⌋₊

/-- A number with one value right after another number. -/
def Number.Follows (a b : Number) : Prop := b.others = [] ∧ a.lastWord + 1 = b.firstWord

instance (a b : Number) : Decidable (a.Follows b) :=
  inferInstanceAs (Decidable (b.others = [] ∧ a.lastWord + 1 = b.firstWord))

/-- The neighbours whose integer parts have fewer and fewer powers of 1000. -/
def joined : Number → List Number → List Number
  | _, [] => []
  | a, b :: rest => if a.Follows b ∧ a.index < b.index then b :: joined b rest else []

/-- The numbers whose integer parts the loop takes. -/
def examined : Number → List Number → List Number
  | _, [] => []
  | a, b :: rest =>
    if a.index < 4 ∧ a.Follows b then
      b :: if a.index < b.index then examined b rest else []
    else []

/-- The sum of the integer parts of some numbers. -/
def wholeSum (numbers : List Number) : ℕ := (numbers.map fun number => ⌊number.value⌋₊).sum

/-- No value that the loop converts is out of range. -/
structure InRange (first : Number) (rest : List Number) : Prop where
  value : first.value < 2 ^ 63
  examined : ∀ number ∈ examined first rest, number.value < 2 ^ 63
  total : first.value + wholeSum (joined first rest) < 2 ^ 63

theorem joined_eq_take (a : Number) (rest : List Number) :
    joined a rest = rest.take (joined a rest).length := by
  induction rest generalizing a with
  | nil => rfl
  | cons b rest ih =>
    rw [joined]
    split_ifs
    · rw [List.length_cons, List.take_succ_cons, ← ih]
    · rfl

theorem joined_isChain (a : Number) (rest : List Number) :
    (a :: joined a rest).IsChain fun a b => a.index < b.index := by
  induction rest generalizing a with
  | nil => simp [joined]
  | cons b rest ih =>
    rw [joined]
    split_ifs with h
    · exact List.isChain_cons_cons.mpr ⟨h.2, ih b⟩
    · simp

theorem joined_of_index {a : Number} (ha : a.index = 4) (rest : List Number) :
    joined a rest = [] ∧ examined a rest = [] := by
  cases rest with
  | nil => exact ⟨rfl, rfl⟩
  | cons b rest =>
    have hb := expIndex_le ⌊b.value⌋₊
    rw [← Number.index] at hb
    simp only [joined, examined]
    rw [if_neg (by omega), if_neg (by omega)]
    exact ⟨rfl, rfl⟩

theorem toInt64_of_lt {x : NNRat} (h : x < 2 ^ 63) : toInt64 x = some ⌊x⌋₊ := if_pos h

theorem toInt64_of_not_lt {x : NNRat} (h : ¬ x < 2 ^ 63) : toInt64 x = none := if_neg h

theorem stops_iff (prev : ℕ) {k : ℕ} (hk : k ≤ 4) :
    (k = 0 ∨ prev % exp1000.getD (k - 1) 1 ≠ 0) ↔ ¬ expIndex prev < k := by
  by_cases h0 : k = 0
  · simp [h0]
  · rw [← not_iff_not, not_not, not_or, not_not, ← Nat.dvd_iff_mod_eq_zero,
      ← expIndex_le_iff prev (show k - 1 < 4 by omega)]
    omega

/-- A total with the integer parts of the joined numbers. -/
structure Joins (total : Number) (numbers : List Number) (r : Number × ℕ) : Prop where
  count : r.2 = numbers.length
  value : r.1.value = total.value + wholeSum numbers
  others : r.1.others = total.others.map (· + (wholeSum numbers : NNRat))

theorem Joins.nil (total : Number) : Joins total [] (total, 0) := by
  refine ⟨rfl, ?_, ?_⟩ <;> simp [wholeSum]

theorem Joins.cons {total b : Number} {numbers : List Number} {r : Number × ℕ}
    (h : Joins (total.join addExact b ⌊b.value⌋₊) numbers r) :
    Joins total (b :: numbers) (r.1, r.2 + 1) := by
  refine ⟨by simp [h.count], ?_, ?_⟩
  · rw [h.value]
    simp [Number.join, wholeSum, add_assoc]
  · rw [h.others]
    simp [Number.join, wholeSum, add_assoc, Function.comp_def]

/-- The loop after `a` joins the numbers of `joined`, unless a conversion is out of range. -/
structure LoopGives (total a : Number) (rest : List Number) (result : Option (Number × ℕ)) : Prop
    where
  some_iff : (∃ r, result = some r) ↔ (∀ number ∈ examined a rest, number.value < 2 ^ 63) ∧
    total.value + wholeSum (joined a rest) < 2 ^ 63
  joins : ∀ r, result = some r → Joins total (joined a rest) r

theorem LoopGives.stop {total a : Number} {rest : List Number} (hjoined : joined a rest = [])
    (hexamined : ∀ number ∈ examined a rest, number.value < 2 ^ 63)
    (htotal : total.value < 2 ^ 63) : LoopGives total a rest (some (total, 0)) := by
  constructor
  · rw [hjoined]
    simpa [wholeSum, htotal] using hexamined
  · intro r hr
    rw [hjoined, ← Option.some.inj hr]
    exact Joins.nil total

theorem LoopGives.fail {total a : Number} {rest : List Number}
    (h : (∀ number ∈ examined a rest, number.value < 2 ^ 63) →
      ¬ total.value + wholeSum (joined a rest) < 2 ^ 63) : LoopGives total a rest none := by
  constructor
  · simpa using h
  · simp

theorem LoopGives.next {total a b : Number} {rest : List Number} {result : Option (Number × ℕ)}
    (hfollows : a.Follows b) (ha : a.index < 4) (hb : b.value < 2 ^ 63)
    (hjoin : a.index < b.index) (h : LoopGives (total.join addExact b ⌊b.value⌋₊) b rest result) :
    LoopGives total a (b :: rest) (result.map fun r => (r.1, r.2 + 1)) := by
  have hjoined : joined a (b :: rest) = b :: joined b rest := if_pos ⟨hfollows, hjoin⟩
  have hexamined : examined a (b :: rest) = b :: examined b rest := by
    rw [examined, if_pos ⟨ha, hfollows⟩, if_pos hjoin]
  constructor
  · have hsome := h.some_iff
    rw [hjoined, hexamined]
    simp only [Option.map_eq_some_iff, List.forall_mem_cons, hb, true_and]
    simp only [Number.join, wholeSum, List.map_cons, List.sum_cons, Nat.cast_add, ← add_assoc]
      at hsome ⊢
    rw [← hsome]
    cases result <;> simp
  · intro r hr
    rw [Option.map_eq_some_iff] at hr
    obtain ⟨r', hr', rfl⟩ := hr
    rw [hjoined]
    exact (h.joins r' hr').cons

theorem uniteRest_gives (n : ℕ) (total a : Number) (rest : List Number)
    (hword : total.lastWord = a.lastWord) (hindex : expIndex ⌊total.value⌋₊ = a.index)
    (ha : a.index < 4) (hn : 4 ≤ n + a.index) (htotal : total.value < 2 ^ 63) :
    LoopGives total a rest (uniteRest addExact n total ⌊total.value⌋₊ rest) := by
  induction rest generalizing n total a with
  | nil =>
    cases n with
    | zero => omega
    | succ n => exact LoopGives.stop rfl (by simp [examined]) htotal
  | cons b rest ih =>
    obtain ⟨n, rfl⟩ : ∃ m, n = m + 1 := ⟨n - 1, by omega⟩
    simp only [uniteRest]
    by_cases hfollows : a.Follows b
    · rw [if_neg (by simpa [hword, Number.Follows] using hfollows)]
      by_cases hb : b.value < 2 ^ 63
      · rw [toInt64_of_lt hb]
        simp only [Option.bind_eq_bind, Option.bind_some]
        have hbindex : expIndex ⌊b.value⌋₊ = b.index := rfl
        by_cases hjoin : a.index < b.index
        · rw [if_neg (by
            rw [stops_iff _ (expIndex_le _), hindex]
            exact not_not.mpr hjoin)]
          by_cases hnext : (total.join addExact b ⌊b.value⌋₊).value < 2 ^ 63
          · rw [toInt64_of_lt hnext, Option.bind_some, hbindex]
            have hnextIndex : expIndex ⌊(total.join addExact b ⌊b.value⌋₊).value⌋₊ = b.index := by
              rw [Number.join, Nat.floor_add_natCast zero_le, ← hbindex]
              exact expIndex_add (by rw [hindex, hbindex]; exact hjoin)
            have hle := expIndex_le ⌊b.value⌋₊
            rw [hbindex] at hle
            by_cases h4 : exp1000.length ≤ b.index
            · rw [if_pos h4]
              have hb4 : b.index = 4 := le_antisymm hle h4
              obtain ⟨hjoined, hexamined⟩ := joined_of_index hb4 rest
              exact LoopGives.next hfollows ha hb hjoin
                (LoopGives.stop hjoined (by simp [hexamined]) hnext)
            · rw [if_neg h4]
              have hlt : b.index < 4 := not_le.mp h4
              have hrest := ih n (total.join addExact b ⌊b.value⌋₊) b rfl hnextIndex hlt (by omega) hnext
              have := LoopGives.next hfollows ha hb hjoin hrest
              cases hloop : uniteRest addExact n (total.join addExact b ⌊b.value⌋₊)
                ⌊(total.join addExact b ⌊b.value⌋₊).value⌋₊ rest <;> rw [hloop] at this <;> exact this
          · rw [toInt64_of_not_lt hnext]
            have hfail : LoopGives (total.join addExact b ⌊b.value⌋₊) b rest none := by
              apply LoopGives.fail
              intro _ hlt
              exact hnext (lt_of_le_of_lt le_self_add hlt)
            exact LoopGives.next hfollows ha hb hjoin hfail
        · rw [if_pos (by
            rw [stops_iff _ (expIndex_le _), hindex]
            exact hjoin)]
          have hexamined : examined a (b :: rest) = [b] := by
            rw [examined, if_pos ⟨ha, hfollows⟩, if_neg hjoin]
          exact LoopGives.stop (by simp [joined, hjoin]) (by simp [hexamined, hb]) htotal
      · rw [toInt64_of_not_lt hb]
        apply LoopGives.fail
        intro hall
        exact absurd (hall b (by simp [examined, hfollows, ha])) hb
    · rw [if_pos (by
        rw [Number.Follows, not_and_or, ← hword] at hfollows
        exact hfollows)]
      exact LoopGives.stop (by simp [joined, hfollows]) (by simp [examined, hfollows]) htotal

/-- The numbers after the first one are joined as long as they follow with more powers. -/
theorem uniteWith_gives (first : Number) (rest : List Number) :
    ((∃ r, uniteWith addExact first rest = some r) ↔ InRange first rest) ∧
      ∀ r, uniteWith addExact first rest = some r →
        ∃ n, r.2 = n + 1 ∧ Joins first (joined first rest) (r.1, n) := by
  have hrange : InRange first rest ↔ first.value < 2 ^ 63 ∧
      (∀ number ∈ examined first rest, number.value < 2 ^ 63) ∧
        first.value + wholeSum (joined first rest) < 2 ^ 63 :=
    ⟨fun h => ⟨h.value, h.examined, h.total⟩, fun h => ⟨h.1, h.2.1, h.2.2⟩⟩
  rw [uniteWith, hrange]
  by_cases hfirst : first.value < 2 ^ 63
  · rw [toInt64_of_lt hfirst]
    simp only [Option.bind_eq_bind, Option.bind_some, hfirst, true_and]
    have hle := expIndex_le ⌊first.value⌋₊
    by_cases h4 : exp1000.length ≤ expIndex ⌊first.value⌋₊
    · rw [if_pos h4]
      obtain ⟨hjoined, hexamined⟩ := joined_of_index (a := first) (le_antisymm hle h4) rest
      rw [hjoined, hexamined]
      refine ⟨by simp [wholeSum, hfirst], ?_⟩
      intro r hr
      rw [← Option.some.inj hr]
      exact ⟨0, rfl, Joins.nil first⟩
    · rw [if_neg h4]
      have hloop := uniteRest_gives 4 first first rest rfl rfl (not_le.mp h4) (by omega) hfirst
      rw [← hloop.some_iff]
      cases hr : uniteRest addExact 4 first ⌊first.value⌋₊ rest with
      | none => simp
      | some r =>
        refine ⟨by simp, ?_⟩
        intro r' hr'
        rw [← Option.some.inj hr']
        exact ⟨r.2, rfl, hloop.joins r hr⟩
  · rw [toInt64_of_not_lt hfirst]
    simp [hfirst]

/-- A neighbour that is smaller than a power of 1000 that divides the number before it. -/
def Number.Below (a b : Number) : Prop := ∃ p ∈ exp1000, Divides p a.value ∧ b.value < p

def Number.Whole (number : Number) : Prop := ∃ m : ℕ, number.value = m

theorem wholeSum_le_sumOf (numbers : List Number) : (wholeSum numbers : NNRat) ≤ sumOf numbers := by
  induction numbers with
  | nil => simp [wholeSum, sumOf]
  | cons number numbers ih =>
    have hfloor : ((⌊number.value⌋₊ : ℕ) : NNRat) ≤ number.value := Nat.floor_le zero_le
    simp only [wholeSum, sumOf, List.map_cons, List.sum_cons, Nat.cast_add] at ih ⊢
    exact add_le_add hfloor ih

theorem wholeSum_eq_iff (numbers : List Number) :
    (wholeSum numbers : NNRat) = sumOf numbers ↔ ∀ number ∈ numbers, number.Whole := by
  induction numbers with
  | nil => simp [wholeSum, sumOf]
  | cons number numbers ih =>
    have hfloor : ((⌊number.value⌋₊ : ℕ) : NNRat) ≤ number.value := Nat.floor_le zero_le
    have hrest := wholeSum_le_sumOf numbers
    have hwhole : ((⌊number.value⌋₊ : ℕ) : NNRat) = number.value ↔ number.Whole := by
      constructor
      · exact fun h => ⟨_, h.symm⟩
      · intro h
        obtain ⟨m, hm⟩ := h
        rw [hm, Nat.floor_natCast]
    rw [List.forall_mem_cons, ← ih, ← hwhole]
    simp only [wholeSum, sumOf, List.map_cons, List.sum_cons, Nat.cast_add] at hrest ⊢
    constructor
    · intro h
      constructor
      · exact le_antisymm hfloor (by
          by_contra hlt
          exact absurd h (add_lt_add_of_lt_of_le (not_le.mp hlt) hrest).ne)
      · exact le_antisymm hrest (by
          by_contra hlt
          exact absurd h (add_lt_add_of_le_of_lt hfloor (not_le.mp hlt)).ne)
    · intro h
      rw [h.1, h.2]

/-- The powers of 1000 that divide the total are those of the last joined number. -/
theorem smaller_iff_below (numbers : List Number) (a : Number) (x : NNRat)
    (hchain : (a :: numbers).IsChain fun a b => a.index < b.index)
    (hindex : expIndex ⌊x⌋₊ = a.index)
    (hdivides : ∀ p ∈ exp1000, Divides p x ↔ Divides p a.value)
    (hwhole : ∀ number ∈ numbers, number.Whole) :
    (∀ j number, numbers[j]? = some number →
      ∃ p ∈ exp1000, Divides p (x + sumOf (numbers.take j)) ∧ number.value < p) ↔
      (a :: numbers).IsChain Number.Below := by
  induction numbers generalizing a x with
  | nil => simp
  | cons b numbers ih =>
    rw [List.isChain_cons_cons] at hchain ⊢
    rw [List.forall_mem_cons] at hwhole
    have hfirst : (∃ p ∈ exp1000, Divides p x ∧ b.value < p) ↔ a.Below b := by
      apply exists_congr
      intro p
      exact and_congr_right fun hp => and_congr_left fun _ => hdivides p hp
    have hsplit : (∀ j number, (b :: numbers)[j]? = some number →
        ∃ p ∈ exp1000, Divides p (x + sumOf ((b :: numbers).take j)) ∧ number.value < p) ↔
        (∃ p ∈ exp1000, Divides p x ∧ b.value < p) ∧ ∀ j number, numbers[j]? = some number →
          ∃ p ∈ exp1000, Divides p (x + b.value + sumOf (numbers.take j)) ∧ number.value < p := by
      constructor
      · intro h
        refine ⟨by simpa [sumOf] using h 0 b rfl, ?_⟩
        intro j number hj
        simpa [sumOf, add_assoc] using h (j + 1) number hj
      · intro h j number hj
        cases j with
        | zero =>
          rw [List.getElem?_cons_zero, Option.some.injEq] at hj
          simpa [sumOf, ← hj] using h.1
        | succ j => simpa [sumOf, add_assoc] using h.2 j number hj
    rw [hsplit, ← hfirst]
    apply and_congr_right
    intro hpower
    obtain ⟨q, -, hq, -⟩ := hpower
    obtain ⟨m, hm⟩ := hwhole.1
    have hb : b.index = expIndex m := by
      rw [Number.index, hm, Nat.floor_natCast]
    have hlt : expIndex ⌊x⌋₊ < expIndex m := by
      rw [hindex, ← hb]
      exact hchain.1
    apply ih b (x + b.value) hchain.2 _ _ hwhole.2
    · rw [hm, Nat.floor_add_natCast zero_le, expIndex_add hlt, ← hb]
    · intro p hp
      rw [hm]
      exact divides_add hq hlt hp

/-- With exact sums, the joined numbers are smaller than powers that divide the totals, and the value
is exact, exactly if they are integers, each below a power that divides the number before it. -/
theorem uniteExact_iff {first : Number} {rest : List Number} {r : Number × ℕ}
    (hr : uniteWith addExact first rest = some r) :
    (∀ j number, j + 1 < r.2 → rest[j]? = some number →
        ∃ p ∈ exp1000, Divides p (sumOf (first :: rest.take j)) ∧ number.value < p) ∧
      r.1.value = sumOf (first :: rest.take (r.2 - 1)) ↔
    (∀ number ∈ joined first rest, number.Whole) ∧
      (first :: joined first rest).IsChain Number.Below := by
  obtain ⟨n, hn, hjoin⟩ := (uniteWith_gives first rest).2 r hr
  have hcount : n = (joined first rest).length := hjoin.count
  have htake : rest.take (r.2 - 1) = joined first rest := by
    rw [hn, Nat.add_sub_cancel, hcount, ← joined_eq_take]
  have hwhole : r.1.value = sumOf (first :: rest.take (r.2 - 1)) ↔
      ∀ number ∈ joined first rest, number.Whole := by
    rw [htake, hjoin.value, ← wholeSum_eq_iff, sumOf, List.map_cons, List.sum_cons, ← sumOf,
      add_right_inj]
  have hsmaller : (∀ j number, j + 1 < r.2 → rest[j]? = some number →
      ∃ p ∈ exp1000, Divides p (sumOf (first :: rest.take j)) ∧ number.value < p) ↔
      ∀ j number, (joined first rest)[j]? = some number →
        ∃ p ∈ exp1000, Divides p (first.value + sumOf ((joined first rest).take j)) ∧
          number.value < p := by
    apply forall₂_congr
    intro j number
    rw [joined_eq_take first rest, ← hcount, List.getElem?_take, List.take_take, hn]
    by_cases hj : j < n
    · rw [if_pos hj, min_eq_left hj.le]
      simp [sumOf, hj]
    · simp [hj]
  have hbelow := smaller_iff_below (joined first rest) first first.value
    (joined_isChain first rest) rfl (fun _ _ => Iff.rfl)
  constructor
  · intro h
    have hall := hwhole.mp h.2
    exact ⟨hall, (hbelow hall).mp (hsmaller.mp h.1)⟩
  · intro h
    exact ⟨hsmaller.mpr ((hbelow h.1).mpr h.2), hwhole.mpr h.1⟩

/-- The numbers that are joined are those of `joined`. -/
theorem take_of_uniteExact {first : Number} {rest : List Number} {r : Number × ℕ}
    (h : uniteWith addExact first rest = some r) : rest.take (r.2 - 1) = joined first rest := by
  obtain ⟨n, hn, hjoin⟩ := (uniteWith_gives first rest).2 r h
  have hcount : n = (joined first rest).length := hjoin.count
  rw [hn, Nat.add_sub_cancel, hcount, ← joined_eq_take]

/-- The loop goes on to the number `b`. -/
structure GoesOn (prev lastWord : ℕ) (b : Number) : Prop where
  others : b.others = []
  word : lastWord + 1 = b.firstWord
  value : b.value < 2 ^ 63
  index : b.index ≠ 0
  divides : exp1000.getD (b.index - 1) 1 ∣ prev

/-- The loop stops in front of the number `b`. -/
def StopsAt (prev lastWord : ℕ) (b : Number) : Prop :=
  (b.others ≠ [] ∨ lastWord + 1 ≠ b.firstWord) ∨
    (b.others = [] ∧ lastWord + 1 = b.firstWord) ∧ b.value < 2 ^ 63 ∧
      (b.index = 0 ∨ ¬ exp1000.getD (b.index - 1) 1 ∣ prev)

/-- One turn of the loop. -/
theorem uniteRest_cons_iff (add : NNRat → ℕ → NNRat) (n : ℕ) (total : Number) (prev : ℕ)
    (b : Number) (rest : List Number) (r : Number × ℕ) :
    uniteRest add (n + 1) total prev (b :: rest) = some r ↔
      (StopsAt prev total.lastWord b ∧ r = (total, 0)) ∨
      (GoesOn prev total.lastWord b ∧ ∃ next, next = total.join add b ⌊b.value⌋₊ ∧
        next.value < 2 ^ 63 ∧
          (4 ≤ b.index ∧ r = (next, 1) ∨
            b.index < 4 ∧ ∃ r', uniteRest add n next ⌊next.value⌋₊ rest = some r' ∧
              r = (r'.1, r'.2 + 1))) := by
  have hindex : expIndex ⌊b.value⌋₊ = b.index := rfl
  simp only [uniteRest]
  by_cases hguard : b.others ≠ [] ∨ total.lastWord + 1 ≠ b.firstWord
  · have hno : ¬ GoesOn prev total.lastWord b := fun h => by
      rcases hguard with h' | h'
      · exact h' h.others
      · exact h' h.word
    rw [if_pos hguard, Option.some.injEq]
    constructor
    · exact fun h => .inl ⟨.inl hguard, h.symm⟩
    · rintro (⟨-, h⟩ | ⟨h, -⟩)
      · exact h.symm
      · exact absurd h hno
  · rw [if_neg hguard]
    have hfollows : b.others = [] ∧ total.lastWord + 1 = b.firstWord := by simpa using hguard
    by_cases hb : b.value < 2 ^ 63
    · rw [toInt64_of_lt hb]
      simp only [Option.bind_eq_bind, Option.bind_some, hindex]
      by_cases hstop : b.index = 0 ∨ ¬ exp1000.getD (b.index - 1) 1 ∣ prev
      · have hno : ¬ GoesOn prev total.lastWord b := fun h => by
          rcases hstop with h' | h'
          · exact h.index h'
          · exact h' h.divides
        rw [if_pos (by rwa [Nat.dvd_iff_mod_eq_zero] at hstop), Option.some.injEq]
        constructor
        · exact fun h => .inl ⟨.inr ⟨hfollows, hb, hstop⟩, h.symm⟩
        · rintro (⟨-, h⟩ | ⟨h, -⟩)
          · exact h.symm
          · exact absurd h hno
      · have hgoes : GoesOn prev total.lastWord b := by
          rw [not_or, not_not] at hstop
          exact ⟨hfollows.1, hfollows.2, hb, hstop.1, hstop.2⟩
        have hno : ¬ StopsAt prev total.lastWord b := by
          rintro (h | ⟨-, -, h⟩)
          · exact hguard h
          · exact hstop h
        rw [if_neg (by rwa [Nat.dvd_iff_mod_eq_zero] at hstop)]
        by_cases hnext : (total.join add b ⌊b.value⌋₊).value < 2 ^ 63
        · rw [toInt64_of_lt hnext]
          have hlength : exp1000.length = 4 := rfl
          by_cases hlast : 4 ≤ b.index
          · simp [hno, hgoes, hnext, hlength, hlast, eq_comm]
          · simp only [hlength, hlast, if_false, hno, hgoes, hnext, false_and, false_or, true_and,
              exists_eq_left, not_le.mp hlast, Option.bind_some, Option.bind_eq_some_iff,
              Option.some.injEq, @eq_comm _ r]
        · rw [toInt64_of_not_lt hnext]
          simp [hno, hnext]
    · have hgoes : ¬ GoesOn prev total.lastWord b := fun h => hb h.value
      rw [toInt64_of_not_lt hb]
      simp [StopsAt, hfollows, hb, hgoes]

theorem uniteRest_nil (add : NNRat → ℕ → NNRat) (n : ℕ) (total : Number) (prev : ℕ) :
    uniteRest add n total prev [] = some (total, 0) := by
  cases n <;> rfl

theorem uniteRest_zero (add : NNRat → ℕ → NNRat) (total : Number) (prev : ℕ)
    (rest : List Number) : uniteRest add 0 total prev rest = some (total, 0) := by
  rw [uniteRest]

/-- A loop that joins nothing leaves the total. -/
theorem total_of_joinsNone {add : NNRat → ℕ → NNRat} {n : ℕ} {total : Number} {prev : ℕ}
    {rest : List Number} {r : Number × ℕ} (h : uniteRest add n total prev rest = some r)
    (hr : r.2 = 0) : r.1 = total := by
  cases n with
  | zero =>
    rw [uniteRest_zero, Option.some.injEq] at h
    rw [← h]
  | succ n =>
    cases rest with
    | nil =>
      rw [uniteRest_nil, Option.some.injEq] at h
      rw [← h]
    | cons b rest =>
      rw [uniteRest_cons_iff] at h
      obtain ⟨-, rfl⟩ | ⟨-, next, -, -, ⟨-, rfl⟩ | ⟨-, r', -, rfl⟩⟩ := h
      · rfl
      · simp at hr
      · simp at hr

/-- The number is a `double`: rounding leaves it. -/
def IsDouble (x : NNRat) : Prop := toDouble x = x

/-- The sums of a value and some numbers, taken one after another, are `double`s. -/
def SumsAreDoubles : NNRat → List Number → Prop
  | _, [] => True
  | x, b :: rest => IsDouble (x + b.value) ∧ SumsAreDoubles (x + b.value) rest

/-- Some numbers are added to a `double` one after another. -/
def addUp (x : NNRat) (numbers : List Number) : NNRat :=
  numbers.foldl (fun x b => addDouble x ⌊b.value⌋₊) x

theorem map_addUp_nil (others : List NNRat) : others.map (addUp · []) = others := List.map_id _

theorem addUp_cons (x : NNRat) (b : Number) (numbers : List Number) :
    addUp x (b :: numbers) = addUp (addDouble x ⌊b.value⌋₊) numbers := rfl

theorem floor_of_whole {b : Number} (h : b.Whole) : ((⌊b.value⌋₊ : ℕ) : NNRat) = b.value := by
  obtain ⟨m, hm⟩ := h
  rw [hm, Nat.floor_natCast]

theorem addDouble_of_isDouble {x : NNRat} {num : ℕ} (h : IsDouble (x + num)) :
    addDouble x num = x + num := by
  have hcast : ((x + num : NNRat) : ℚ) = (x : ℚ) + num := by push_cast; rfl
  rw [IsDouble, hcast] at h
  rw [addDouble, h, ← hcast, NNRat.toNNRat_coe]

/-- The total whose further values are others. -/
def Number.withOthers (number : Number) (others : List NNRat) : Number :=
  { number with others := others }

/-- Where the sums are `double`s, the loop does as with exact sums, but for the further values. -/
theorem uniteRest_double (n : ℕ) (total : Number) (prev : ℕ) (rest : List Number) (r : Number × ℕ)
    (h : uniteRest addExact n total prev rest = some r) (hwhole : ∀ b ∈ rest.take r.2, b.Whole)
    (hsums : SumsAreDoubles total.value (rest.take r.2)) (others : List NNRat) :
    uniteRest addDouble n (total.withOthers others) prev rest =
      some (r.1.withOthers (others.map (addUp · (rest.take r.2))), r.2) := by
  induction n generalizing total prev rest r others with
  | zero =>
    rw [uniteRest_zero, Option.some.injEq] at h ⊢
    rw [← h, List.take_zero, map_addUp_nil]
  | succ n ih =>
    cases rest with
    | nil =>
      rw [uniteRest_nil, Option.some.injEq] at h ⊢
      rw [← h, List.take_zero, map_addUp_nil]
    | cons b rest =>
      rw [uniteRest_cons_iff] at h ⊢
      obtain ⟨hstop, rfl⟩ | ⟨hgoes, next, hnext, hlt, hend⟩ := h
      · exact .inl ⟨hstop, by rw [List.take_zero, map_addUp_nil]⟩
      · refine .inr ⟨hgoes, next.withOthers (others.map (addDouble · ⌊b.value⌋₊)), ?_, hlt, ?_⟩
        · obtain ⟨hb, hdouble⟩ : b.Whole ∧ IsDouble (total.value + b.value) := by
            obtain ⟨-, rfl⟩ | ⟨-, r', -, rfl⟩ := hend
            · exact ⟨hwhole b (by simp), hsums.1⟩
            · exact ⟨hwhole b (by simp), hsums.1⟩
          rw [← floor_of_whole hb] at hdouble
          simp [hnext, Number.withOthers, Number.join, addDouble_of_isDouble hdouble]
        · obtain ⟨hlast, rfl⟩ | ⟨hlast, r', hr', rfl⟩ := hend
          · exact .inl ⟨hlast, by simp [addUp]⟩
          · rw [List.take_succ_cons] at hwhole hsums ⊢
            rw [List.forall_mem_cons] at hwhole
            have hvalue : next.value = total.value + b.value := by
              rw [hnext, Number.join, addExact, floor_of_whole hwhole.1]
            refine .inr ⟨hlast, _, ih next _ rest r' hr' hwhole.2 (by rw [hvalue]; exact hsums.2) _,
              ?_⟩
            rw [List.map_map]
            rfl

/-- A power that is larger than a number which the loop goes on to. -/
theorem dvd_of_goesOn {b : Number} {p : ℕ} (hindex : b.index ≠ 0) (hp : p ∈ exp1000)
    (hlt : b.value < p) : exp1000.getD (b.index - 1) 1 ∣ p := by
  have hle : b.index ≤ 4 := expIndex_le _
  obtain ⟨i, hi, rfl⟩ := getD_exp1000_of_mem hp
  have hfloor : ⌊b.value⌋₊ < exp1000.getD i 1 := (Nat.floor_lt zero_le).mpr hlt
  have hpos : ⌊b.value⌋₊ ≠ 0 := by
    intro h0
    rw [Number.index, h0] at hindex
    exact hindex (by decide)
  have hge : ∀ k ≤ i, ¬ exp1000.getD k 1 ∣ ⌊b.value⌋₊ := by
    intro k hk hdvd
    have hanti : exp1000.getD i 1 ≤ exp1000.getD k 1 := by
      interval_cases i <;> interval_cases k <;> decide
    have := Nat.le_of_dvd (Nat.pos_of_ne_zero hpos) hdvd
    omega
  have hi' : i ≤ b.index - 1 := by
    by_contra hlt'
    have hlt4 : b.index < 4 := by omega
    exact hge b.index (by omega) ((expIndex_le_iff _ hlt4).mp le_rfl)
  interval_cases b.index <;> interval_cases i <;> trivial

theorem le_getD_exp1000 {k : ℕ} (hk : k ≤ 4) (hk0 : k ≠ 0) : 1000 ≤ exp1000.getD (k - 1) 1 := by
  interval_cases k <;> trivial

/-- A sum of integers that keeps its power of 1000 when it is rounded below `2 ^ 63` is not rounded
at all. -/
theorem eq_of_dvd {m N q : ℕ} (hm : toDouble (N : ℚ) = m) (hlt : m < 2 ^ 63) (hq : 1000 ≤ q)
    (hdvd : q ∣ m) (hdvd' : q ∣ N) : m = N := by
  have herror := abs_toDouble_sub_le (n := N) (by rw [hm]; exact_mod_cast hlt)
  rw [hm] at herror
  have hint : |(m : ℤ) - N| ≤ 512 := by exact_mod_cast herror
  have hmultiple : (q : ℤ) ∣ (m : ℤ) - N :=
    dvd_sub (Int.natCast_dvd_natCast.mpr hdvd) (Int.natCast_dvd_natCast.mpr hdvd')
  have hzero : (m : ℤ) - N = 0 := by
    apply Int.eq_zero_of_abs_lt_dvd hmultiple
    omega
  omega

/-- A joined number: the total before it is an integer. -/
theorem addDouble_natCast (N num : ℕ) :
    ∃ m : ℕ, addDouble (N : NNRat) num = m ∧ toDouble ((N + num : ℕ) : ℚ) = m := by
  obtain ⟨m, hm⟩ := exists_toDouble_natCast (N + num)
  refine ⟨m, ?_, hm⟩
  have hcast : ((N : NNRat) : ℚ) + num = ((N + num : ℕ) : ℚ) := by push_cast; rfl
  rw [addDouble, hcast, hm]
  exact NNRat.toNNRat_coe_nat m

/-- A number joined to an integer is an integer, and nothing is rounded, if the value of the whole
sequence is exact, or if a smaller number is joined next. -/
theorem join_exact {total next b : Number} (hnext : next = total.join addDouble b ⌊b.value⌋₊)
    (htotal : ∃ N : ℕ, total.value = N) (hlt : next.value < 2 ^ 63)
    (h : next.value = total.value + b.value ∨ ∃ c, GoesOn ⌊next.value⌋₊ next.lastWord c ∧
      ∃ p ∈ exp1000, Divides p (total.value + b.value) ∧ c.value < p) :
    b.Whole ∧ next.value = total.value + b.value ∧ IsDouble (total.value + b.value) := by
  obtain ⟨N, hN⟩ := htotal
  obtain ⟨m, hm, hround⟩ := addDouble_natCast N ⌊b.value⌋₊
  have hvalue : next.value = m := by rw [hnext, Number.join, hN, hm]
  have hwhole : b.Whole := by
    have hsum : ∃ k : ℕ, (N : NNRat) + b.value = k := by
      rcases h with h | ⟨c, -, p, -, ⟨k, hk⟩, -⟩
      · exact ⟨m, by rw [← hN, ← h, hvalue]⟩
      · exact ⟨p * k, by rw [← hN, hk]; push_cast; rfl⟩
    obtain ⟨k, hk⟩ := hsum
    have hle : N ≤ k := by
      have : (N : NNRat) ≤ k := by rw [← hk]; exact le_self_add
      exact_mod_cast this
    refine ⟨k - N, ?_⟩
    have hadd : (N : NNRat) + b.value = N + ((k - N : ℕ) : NNRat) := by
      rw [hk, ← Nat.cast_add, Nat.add_sub_cancel' hle]
    exact add_left_cancel hadd
  have hfloor := floor_of_whole hwhole
  have hsum : m = N + ⌊b.value⌋₊ := by
    rcases h with h | ⟨c, hgoes, p, hp, hdivides, hc⟩
    · rw [hvalue, hN, ← hfloor] at h
      exact_mod_cast h
    · have hq := dvd_of_goesOn hgoes.index hp hc
      have hdvd := hgoes.divides
      rw [hvalue, Nat.floor_natCast] at hdvd
      rw [hN, ← hfloor, ← Nat.cast_add, divides_natCast] at hdivides
      rw [hvalue] at hlt
      exact eq_of_dvd hround (by exact_mod_cast hlt) (le_getD_exp1000 (expIndex_le _) hgoes.index)
        hdvd (hq.trans hdivides)
  have hexact : next.value = total.value + b.value := by
    rw [hvalue, hN, hsum, Nat.cast_add, hfloor]
  refine ⟨hwhole, hexact, ?_⟩
  rw [IsDouble, ← hexact, hvalue]
  rw [← hsum] at hround
  exact_mod_cast hround

/-- Where joined numbers are smaller than the powers that divide the totals, and the value is exact,
the loop does as with exact sums. -/
theorem uniteRest_exact (n : ℕ) (total : Number) (prev : ℕ) (rest : List Number) (r : Number × ℕ)
    (h : uniteRest addDouble n total prev rest = some r)
    (hsmaller : ∀ j number, j < r.2 → rest[j]? = some number →
      ∃ p ∈ exp1000, Divides p (total.value + sumOf (rest.take j)) ∧ number.value < p)
    (hvalue : r.1.value = total.value + sumOf (rest.take r.2)) (others : List NNRat) :
    SumsAreDoubles total.value (rest.take r.2) ∧
      r.1.others = total.others.map (addUp · (rest.take r.2)) ∧
      ∃ others', uniteRest addExact n (total.withOthers others) prev rest =
        some (r.1.withOthers others', r.2) := by
  induction n generalizing total prev rest r others with
  | zero =>
    rw [uniteRest_zero, Option.some.injEq] at h
    subst h
    exact ⟨trivial, by simp [addUp], others, by rw [uniteRest_zero]⟩
  | succ n ih =>
    cases rest with
    | nil =>
      rw [uniteRest_nil, Option.some.injEq] at h
      subst h
      exact ⟨trivial, by simp [addUp], others, by rw [uniteRest_nil]⟩
    | cons b rest =>
      rw [uniteRest_cons_iff] at h
      obtain ⟨hstop, rfl⟩ | ⟨hgoes, next, hnext, hlt, hend⟩ := h
      · exact ⟨trivial, by simp [addUp], others, (uniteRest_cons_iff ..).mpr (.inl ⟨hstop, rfl⟩)⟩
      have htotal : ∃ N : ℕ, total.value = N := by
        have hcount : 0 < r.2 := by
          obtain ⟨-, rfl⟩ | ⟨-, r', -, rfl⟩ := hend <;> simp
        obtain ⟨p, -, ⟨m, hm⟩, -⟩ := hsmaller 0 b hcount rfl
        exact ⟨p * m, by simpa [sumOf] using hm⟩
      obtain ⟨hlast, rfl⟩ | ⟨hlast, r', hr', rfl⟩ := hend
      · obtain ⟨hwhole, hexact, hdouble⟩ := join_exact hnext htotal hlt
          (.inl (by simpa [sumOf] using hvalue))
        have hjoin : next.withOthers (others.map (addExact · ⌊b.value⌋₊)) =
            (total.withOthers others).join addExact b ⌊b.value⌋₊ := by
          rw [Number.withOthers, hexact, hnext, ← floor_of_whole hwhole]
          rfl
        refine ⟨⟨hdouble, trivial⟩, by simp [hnext, Number.join, addUp],
          others.map (addExact · ⌊b.value⌋₊),
          (uniteRest_cons_iff ..).mpr (.inr ⟨hgoes, _, hjoin, hlt, .inl ⟨hlast, rfl⟩⟩)⟩
      · rw [List.take_succ_cons] at hvalue ⊢
        have hnextSmaller : ∀ j number, j < r'.2 → rest[j]? = some number → ∃ p ∈ exp1000,
            Divides p (total.value + b.value + sumOf (rest.take j)) ∧ number.value < p := by
          intro j number hj hnumber
          simpa [sumOf, add_assoc] using hsmaller (j + 1) number (by omega) hnumber
        obtain ⟨hwhole, hexact, hdouble⟩ := join_exact hnext htotal hlt (by
          by_cases hzero : r'.2 = 0
          · left
            rw [← total_of_joinsNone hr' hzero]
            simpa [sumOf, hzero] using hvalue
          · right
            cases rest with
            | nil =>
              rw [uniteRest_nil, Option.some.injEq] at hr'
              exact absurd (by rw [← hr']) hzero
            | cons c rest =>
              obtain ⟨p, hp, hdivides, hc⟩ := hnextSmaller 0 c (by omega) rfl
              refine ⟨c, ?_, p, hp, by simpa [sumOf] using hdivides, hc⟩
              cases n with
              | zero =>
                rw [uniteRest_zero, Option.some.injEq] at hr'
                exact absurd (by rw [← hr']) hzero
              | succ n =>
                rw [uniteRest_cons_iff] at hr'
                obtain ⟨-, rfl⟩ | ⟨hgoes', -⟩ := hr'
                · exact absurd rfl hzero
                · exact hgoes')
        obtain ⟨hsums, hothers, others', hrun⟩ := ih next _ rest r' hr'
          (by rw [hexact]; exact hnextSmaller)
          (by rw [hexact]; simpa [sumOf, add_assoc] using hvalue)
          (others.map (addExact · ⌊b.value⌋₊))
        have hjoin : next.withOthers (others.map (addExact · ⌊b.value⌋₊)) =
            (total.withOthers others).join addExact b ⌊b.value⌋₊ := by
          rw [Number.withOthers, hexact, hnext, ← floor_of_whole hwhole]
          rfl
        refine ⟨⟨hdouble, by rw [← hexact]; exact hsums⟩, ?_, others',
          (uniteRest_cons_iff ..).mpr (.inr ⟨hgoes, _, hjoin, hlt, .inr ⟨hlast, _, hrun, rfl⟩⟩)⟩
        rw [hothers, hnext]
        simp [Number.join, addUp_cons, Function.comp_def]

theorem uniteWith_iff {add : NNRat → ℕ → NNRat} {first : Number} {rest : List Number}
    {r : Number × ℕ} : uniteWith add first rest = some r ↔ first.value < 2 ^ 63 ∧
      (4 ≤ first.index ∧ r = (first, 1) ∨ first.index < 4 ∧
        ∃ r', uniteRest add 4 first ⌊first.value⌋₊ rest = some r' ∧ r = (r'.1, r'.2 + 1)) := by
  have hindex : expIndex ⌊first.value⌋₊ = first.index := rfl
  have hlength : exp1000.length = 4 := rfl
  unfold uniteWith
  by_cases hfirst : first.value < 2 ^ 63
  · rw [toInt64_of_lt hfirst]
    simp only [Option.bind_eq_bind, Option.bind_some, hindex, hlength, hfirst, true_and]
    by_cases hlast : 4 ≤ first.index
    · simp [hlast, eq_comm]
    · simp only [hlast, if_false, false_and, false_or, not_le.mp hlast, true_and,
        Option.bind_eq_some_iff, Option.some.injEq, @eq_comm _ r]
  · rw [toInt64_of_not_lt hfirst]
    simp [hfirst]

theorem uniteWith_double {first : Number} {rest : List Number} {r : Number × ℕ}
    (h : uniteWith addExact first rest = some r)
    (hwhole : ∀ b ∈ rest.take (r.2 - 1), b.Whole)
    (hsums : SumsAreDoubles first.value (rest.take (r.2 - 1))) :
    uniteComplexDigitSequence first rest =
      some (r.1.withOthers (first.others.map (addUp · (rest.take (r.2 - 1)))), r.2) := by
  rw [uniteWith_iff] at h
  rw [uniteComplexDigitSequence, uniteWith_iff]
  refine ⟨h.1, ?_⟩
  obtain ⟨hlast, rfl⟩ | ⟨hlt, r', hr', rfl⟩ := h.2
  · exact .inl ⟨hlast, by simp [Number.withOthers, addUp]⟩
  · exact .inr ⟨hlt, _, uniteRest_double 4 first _ rest r' hr' hwhole hsums first.others, rfl⟩

theorem uniteWith_exact {first : Number} {rest : List Number} {r : Number × ℕ}
    (h : uniteComplexDigitSequence first rest = some r)
    (hsmaller : ∀ j number, j + 1 < r.2 → rest[j]? = some number →
      ∃ p ∈ exp1000, Divides p (sumOf (first :: rest.take j)) ∧ number.value < p)
    (hvalue : r.1.value = sumOf (first :: rest.take (r.2 - 1))) :
    SumsAreDoubles first.value (rest.take (r.2 - 1)) ∧
      r.1.others = first.others.map (addUp · (rest.take (r.2 - 1))) ∧
      ∃ others', uniteWith addExact first rest = some (r.1.withOthers others', r.2) := by
  rw [uniteComplexDigitSequence, uniteWith_iff] at h
  obtain ⟨hfirst, ⟨hlast, rfl⟩ | ⟨hlt, r', hr', rfl⟩⟩ := h
  · exact ⟨trivial, by simp [addUp], first.others, uniteWith_iff.mpr ⟨hfirst, .inl ⟨hlast, rfl⟩⟩⟩
  · obtain ⟨hsums, hothers, others', hrun⟩ := uniteRest_exact 4 first _ rest r' hr'
      (fun j number hj hnumber => by
        simpa [sumOf] using hsmaller j number (Nat.succ_lt_succ hj) hnumber)
      (by simpa [sumOf] using hvalue) first.others
    exact ⟨hsums, hothers, others', uniteWith_iff.mpr ⟨hfirst, .inr ⟨hlt, _, hrun, rfl⟩⟩⟩

/-- The loop joins numbers as one positional number exactly if its conversions are in range, the
numbers that follow with more powers of 1000 are integers, each below a power that divides the
number before it, and no sum of them is rounded. -/
theorem uniteComplex_positional_iff (first : Number) (rest : List Number) :
    (∃ r, uniteComplexDigitSequence first rest = some r ∧ Positional first rest r) ↔
      InRange first rest ∧ (∀ number ∈ joined first rest, number.Whole) ∧
        (first :: joined first rest).IsChain Number.Below ∧
        SumsAreDoubles first.value (joined first rest) ∧
        ∀ x ∈ first.others, addUp x (joined first rest) = x + sumOf (joined first rest) := by
  constructor
  · rintro ⟨r, hr, hpos⟩
    obtain ⟨hsums, hothers, others', hexact⟩ := uniteWith_exact hr hpos.smaller hpos.value
    obtain ⟨hwhole, hbelow⟩ := (uniteExact_iff hexact).mp ⟨hpos.smaller, hpos.value⟩
    have htake : rest.take (r.2 - 1) = joined first rest := 
      take_of_uniteExact (r := (r.1.withOthers others', r.2)) hexact
    rw [hpos.others, htake, List.map_inj_left] at hothers
    rw [htake] at hsums
    exact ⟨(uniteWith_gives first rest).1.mp ⟨_, hexact⟩, hwhole, hbelow, hsums,
      fun x hx => (hothers x hx).symm⟩
  · rintro ⟨hrange, hwhole, hbelow, hsums, hothers⟩
    obtain ⟨r, hexact⟩ := (uniteWith_gives first rest).1.mpr hrange
    obtain ⟨hsmaller, hvalue⟩ := (uniteExact_iff hexact).mpr ⟨hwhole, hbelow⟩
    have htake := take_of_uniteExact hexact
    rw [← htake] at hwhole hsums
    refine ⟨_, uniteWith_double hexact hwhole hsums, hsmaller, hvalue, ?_⟩
    rw [Number.withOthers, htake, List.map_inj_left]
    exact hothers

/-- Two years side by side are added up. -/
theorem uniteComplex_years : ¬ ∃ r, uniteComplexDigitSequence ⟨2000, [], 0, 0⟩ [⟨1999, [], 1, 1⟩] =
    some r ∧ Positional ⟨2000, [], 0, 0⟩ [⟨1999, [], 1, 1⟩] r := by
  intro h
  obtain ⟨r, hr, hpos⟩ := h
  have hjoined : uniteComplexDigitSequence ⟨2000, [], 0, 0⟩ [⟨1999, [], 1, 1⟩] =
      some (⟨3999, [], 0, 1⟩, 2) := by decide +kernel
  rw [hjoined, Option.some.injEq] at hr
  subst hr
  obtain ⟨p, hp, hdivides, hlt⟩ := hpos.smaller 0 ⟨1999, [], 1, 1⟩ (by decide) rfl
  have htotal : sumOf [⟨2000, [], 0, 0⟩] = ((2000 : ℕ) : NNRat) := by simp [sumOf]
  rw [List.take_zero, htotal, divides_natCast] at hdivides
  simp only [exp1000, List.mem_cons, List.not_mem_nil, or_false] at hp
  obtain rfl | rfl | rfl | rfl := hp
  · omega
  · omega
  · omega
  · norm_num at hlt

/-- A sum past `2 ^ 53` is rounded. -/
example : (uniteComplexDigitSequence ⟨10 ^ 16, [], 0, 0⟩ [⟨10 ^ 3, [], 1, 1⟩, ⟨1, [], 2, 2⟩]).map
    (fun r => (r.1.value, r.2)) = some (10 ^ 16 + 10 ^ 3, 3) := by decide +kernel

/-- Thirty-three million and twenty-five thousand. -/
example : (uniteComplexDigitSequence ⟨33000000, [], 0, 0⟩ [⟨25000, [], 1, 2⟩]).map
    (fun r => (r.1.value, r.1.lastWord, r.2)) = some (33025000, 2, 2) := by decide +kernel

end TomitaParser.Rus
