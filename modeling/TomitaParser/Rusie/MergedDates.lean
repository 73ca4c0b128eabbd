import TomitaParser.Rusie.DateRoundTrip
/-! # Merging floating dates

Two dates are merged by adding their numbers, unless one of them is the number without any field,
which stands for the number of a word. -/

namespace TomitaParser.Rusie

/-- A number with the base of a floating date. -/
def IsFloatingDate (date : ℤ) : Prop := itselfInterp ≤ |date| ∧ |date| < 2 * itselfInterp

/-- No field is set in both dates. -/
def DisjointFields (x y : ℤ) : Prop :=
  ∀ field ∈ (dateFields x).zip (dateFields y), field.1 = 0 ∨ field.2 = 0

/-- The merge is one number, with the fields of both. -/
def KeepsFields (merged : Option (List ℤ)) (x y : ℤ) : Prop :=
  ∃ date, merged = some [date] ∧
    dateFields date = List.zipWith (· + ·) (dateFields x) (dateFields y)

/-- A day of the week without a time. -/
def IsWeekDay (date : ℤ) : Prop :=
  getWeekDay date ≠ 0 ∧ getHour date = 0 ∧ getMinute date = 0

/-- When two dates are merged by their fields. -/
def MergesFields (bComplexPeriod : Bool) (x y : ℤ) : Prop :=
  if bComplexPeriod then x = y
  else floatingDateIntersection x y = false ∧
    if |x| = itselfInterp then
      if |y| = itselfInterp then ¬(x = itselfInterp ∧ y = -itselfInterp) else IsWeekDay y
    else |y| = itselfInterp → IsWeekDay x

theorem dateFields_lt (date : ℤ) : getMinute date < 100 ∧ getHour date < 100 ∧
    getWeekDay date < 10 ∧ getDay date < 1000 ∧ getWeek date < 100 ∧ getMonth date < 100 ∧
    getYear date < 1000 := by
  simp only [getMinute, getHour, getWeekDay, getDay, getWeek, getMonth, getYear, extractDigits_eq]
  omega

theorem natAbs_eq_fields {date : ℤ} (hdate : IsFloatingDate date) :
    date.natAbs = 10 ^ 15 + getMinute date * 10 ^ 13 + getHour date * 10 ^ 11 +
      getWeekDay date * 10 ^ 10 + getDay date * 10 ^ 7 + getWeek date * 10 ^ 5 +
      getMonth date * 10 ^ 3 + getYear date := by
  simp only [IsFloatingDate, itselfInterp, Int.abs_eq_natAbs] at hdate
  have hsplit : ∀ i j, date.natAbs / 10 ^ i =
      date.natAbs / 10 ^ (i + j) * 10 ^ j + date.natAbs / 10 ^ i % 10 ^ j := by
    intro i j
    rw [Nat.pow_add, ← Nat.div_div_eq_div_mul, Nat.div_add_mod']
  have hmark : date.natAbs / 10 ^ 15 = 1 := by omega
  have hyear := hsplit 0 3
  have hmonth := hsplit 3 2
  have hweek := hsplit 5 2
  have hday := hsplit 7 3
  have hweekDay := hsplit 10 1
  have hhour := hsplit 11 2
  have hminute := hsplit 13 2
  rw [Nat.pow_zero, Nat.div_one] at hyear
  simp only [getMinute, getHour, getWeekDay, getDay, getWeek, getMonth, getYear, extractDigits_eq,
    Nat.reduceSub, Nat.pow_zero, Nat.div_one]
  linarith only [hmark, hyear, hmonth, hweek, hday, hweekDay, hhour, hminute]

theorem dateFields_eq {date : ℤ} {minute hour weekDay day week month year : ℕ}
    (hminute : minute < 100) (hhour : hour < 100) (hweekDay : weekDay < 10) (hday : day < 1000)
    (hweek : week < 100) (hmonth : month < 100) (hyear : year < 1000)
    (hdate : date.natAbs = 10 ^ 15 + minute * 10 ^ 13 + hour * 10 ^ 11 + weekDay * 10 ^ 10 +
      day * 10 ^ 7 + week * 10 ^ 5 + month * 10 ^ 3 + year) :
    dateFields date = [minute, hour, weekDay, day, week, month, year] := by
  simp only [dateFields, getMinute, getHour, getWeekDay, getDay, getWeek, getMonth, getYear,
    extractDigits_eq, Nat.reduceSub, List.cons.injEq, and_true]
  omega

theorem dateFields_base {date : ℤ} (hdate : |date| = itselfInterp) :
    dateFields date = [0, 0, 0, 0, 0, 0, 0] := by
  apply dateFields_eq <;> try omega
  simp only [itselfInterp, Int.abs_eq_natAbs] at hdate
  omega

theorem zipWith_dateFields_base {x y : ℤ} (hy : |y| = itselfInterp) :
    List.zipWith (· + ·) (dateFields x) (dateFields y) = dateFields x ∧
      List.zipWith (· + ·) (dateFields y) (dateFields x) = dateFields x := by
  rw [dateFields_base hy]
  simp [dateFields]

theorem isWeekDay_iff {date : ℤ} (hdate : IsFloatingDate date) :
    getRank (|date| - itselfInterp).toNat = 11 ↔ IsWeekDay date := by
  have hfields := natAbs_eq_fields hdate
  have hrank (n : ℕ) : getRank n = 11 ↔ 10 ^ 10 ≤ n ∧ n < 10 ^ 11 := by
    have hhigh := Nat.digits_length_le_iff (show 1 < 10 by omega) (k := 11) n
    have hlow := Nat.lt_digits_length_iff (show 1 < 10 by omega) (k := 10) n
    unfold getRank
    omega
  rw [hrank, Int.abs_eq_natAbs, hfields]
  have hbound := dateFields_lt date
  unfold IsWeekDay itselfInterp
  omega

theorem calculateFloatingDate_sum (doc : CTime) {x y : ℤ} (hx : IsFloatingDate x)
    (hy : IsFloatingDate y) (hxbase : |x| ≠ itselfInterp) (hybase : |y| ≠ itselfInterp) :
    ∃ date, calculateFloatingDate doc x y = some date ∧ |date| = |x| + |y| - itselfInterp := by
  unfold IsFloatingDate at hx hy
  unfold calculateFloatingDate
  have hsmall (date : ℤ) (hdate : itselfInterp ≤ |date|) : date ≠ -1 ∧ date ≠ 0 := by
    constructor <;>
    · intro heq
      rw [heq] at hdate
      norm_num [itselfInterp] at hdate
  rw [if_neg (by simp [hsmall x hx.1, hsmall y hy.1]),
    if_neg (by simp [eq_comm, hsmall x hx.1, hsmall y hy.1]),
    if_pos ⟨lt_of_le_of_ne hx.1 (Ne.symm hxbase), lt_of_le_of_ne hy.1 (Ne.symm hybase)⟩, i64,
    if_pos (by unfold itselfInterp at *; omega)]
  refine ⟨_, rfl, ?_⟩
  dsimp only
  split_ifs
  · rw [neg_one_mul, abs_neg, abs_of_nonneg (by omega)]
  · rw [abs_of_nonneg (by omega)]

theorem dateFields_sum {x y date : ℤ} (hx : IsFloatingDate x) (hy : IsFloatingDate y)
    (hdisjoint : DisjointFields x y) (hdate : |date| = |x| + |y| - itselfInterp) :
    dateFields date = List.zipWith (· + ·) (dateFields x) (dateFields y) := by
  have hxfields := natAbs_eq_fields hx
  have hyfields := natAbs_eq_fields hy
  simp only [DisjointFields, dateFields, List.zip_cons_cons, List.zip_nil_right,
    List.forall_mem_cons,
    List.not_mem_nil, false_implies, implies_true, and_true] at hdisjoint
  have hxbound := dateFields_lt x
  have hybound := dateFields_lt y
  simp only [itselfInterp, Int.abs_eq_natAbs] at hdate
  simp only [dateFields, List.zipWith_cons_cons, List.zipWith_nil_right]
  apply dateFields_eq <;> omega

theorem multiplyFloatingDate_weekDay (doc : CTime) (coeff : ℤ) {date : ℤ}
    (hdate : IsFloatingDate date) (hweekDay : IsWeekDay date) :
    multiplyFloatingDate doc coeff date = some date := by
  unfold multiplyFloatingDate
  rw [if_pos ((isWeekDay_iff hdate).mpr hweekDay)]

theorem i64_eq_some {n value : ℤ} (hvalue : i64 n = some value) : value = n := by
  unfold i64 at hvalue
  split_ifs at hvalue
  exact (Option.some.inj hvalue).symm

/-- A day is not multiplied with the base, and the base has no day. -/
theorem multipliedDate_getYear {doc : CTime} {negative : Bool} {coeff date res : ℤ}
    (hcoeff : |coeff| = itselfInterp) (hres : multipliedDate doc negative coeff date = some res) :
    (0 = |date| - itselfInterp - tenPow 13 3 ∧ (getYear res = 1 ∨ getYear res = 999)) ∨
      res = itselfInterp * (|date| - itselfInterp) + itselfInterp := by
  have hmonth := doc.month_mem
  unfold multipliedDate at hres
  dsimp only at hres
  rw [hcoeff] at hres
  by_cases hrank : getRank (|date| - itselfInterp).toNat ≤ 5 ∧
      getRank (|date| - itselfInterp).toNat > 3
  · rw [if_pos hrank] at hres
    by_cases hnext : 0 = |date| - itselfInterp - tenPow 13 3
    · rw [if_pos hnext] at hres
      left
      refine ⟨hnext, ?_⟩
      unfold itselfInterp at hres
      cases negative with
      | false =>
        simp only [Bool.false_eq_true, if_false] at hres
        rw [if_pos (by omega)] at hres
        rw [i64_eq_some hres]
        simp only [getYear, extractDigits_eq, tenPow]
        omega
      | true =>
        simp only [if_true] at hres
        rw [if_neg (by omega), if_pos (by omega)] at hres
        rw [i64_eq_some hres]
        simp only [getYear, extractDigits_eq, tenPow]
        omega
    · -- Ten million times the base has no place in 64 bits.
      have hover : i64 (tenPow coeff 7) = none := by
        rcases eq_or_eq_neg_of_abs_eq hcoeff with hcoeff | hcoeff <;>
        · rw [hcoeff]
          exact if_neg (by norm_num [tenPow, itselfInterp])
      rw [if_neg hnext, hover] at hres
      cases hres
  · rw [if_neg hrank] at hres
    right
    exact i64_eq_some hres

theorem extractDigits_neg (date : ℤ) (start count : ℕ) :
    extractDigits (-date) start count = extractDigits date start count := by
  simp only [extractDigits, Int.natAbs_neg]

theorem dateFields_neg (date : ℤ) : dateFields (-date) = dateFields date := by
  simp only [dateFields, getMinute, getHour, getWeekDay, getDay, getWeek, getMonth, getYear,
    extractDigits_neg]

/-- In the product with the base the fields get lost. -/
theorem multiplyFloatingDate_fields {doc : CTime} {coeff date product : ℤ}
    (hcoeff : |coeff| = itselfInterp) (hdate : IsFloatingDate date)
    (hbase : |date| ≠ itselfInterp) (hweekDay : ¬IsWeekDay date)
    (hproduct : multiplyFloatingDate doc coeff date = some product) :
    dateFields product ≠ dateFields date := by
  intro hkeep
  have hfields := natAbs_eq_fields hdate
  unfold multiplyFloatingDate at hproduct
  rw [if_neg (fun hrank => hweekDay ((isWeekDay_iff hdate).mp hrank))] at hproduct
  dsimp only at hproduct
  obtain ⟨res, hres, hsigned⟩ := Option.map_eq_some_iff.mp hproduct
  have hres' : dateFields res = dateFields date := by
    rw [← hkeep, ← hsigned]
    split_ifs
    · rw [neg_one_mul, dateFields_neg]
    · rfl
  rcases multipliedDate_getYear hcoeff hres with ⟨hnext, hyear⟩ | hzero
  · have hkeepYear : getYear res = getYear date := by
      simp only [dateFields, List.cons.injEq] at hres'
      omega
    have hnone : getYear date = 0 := by
      simp only [Int.abs_eq_natAbs, itselfInterp, tenPow] at hnext
      simp only [getYear, extractDigits_eq]
      omega
    omega
  · have hlow : dateFields res = [0, 0, 0, 0, 0, 0, 0] := by
      have hpos : 0 ≤ |date| - itselfInterp := by
        have := hdate.1
        omega
      simp only [dateFields, getMinute, getHour, getWeekDay, getDay, getWeek, getMonth, getYear,
        extractDigits_eq, Nat.reduceSub, hzero, itselfInterp, List.cons.injEq, and_true] at hpos ⊢
      omega
    rw [hlow] at hres'
    simp only [dateFields, List.cons.injEq, and_true] at hres'
    apply hbase
    rw [Int.abs_eq_natAbs, hfields]
    unfold itselfInterp
    omega

theorem mergeFloatingDates_pair (doc : CTime) (bComplexPeriod : Bool) (x y : ℤ) :
    mergeFloatingDates doc [x] [y] bComplexPeriod = mergePair doc bComplexPeriod [] x y := by
  simp [mergeFloatingDates]

theorem pushNew_pair (x y : ℤ) : pushNew (pushNew [] x) y = if y = x then [x] else [x, y] := by
  simp [pushNew]

theorem keepsFields_some {date x y : ℤ} : KeepsFields (some [date]) x y ↔
    dateFields date = List.zipWith (· + ·) (dateFields x) (dateFields y) := by
  simp [KeepsFields]

theorem keepsFields_both {x y : ℤ} : KeepsFields (some (pushNew (pushNew [] x) y)) x y ↔
    y = x ∧ dateFields x = List.zipWith (· + ·) (dateFields x) (dateFields y) := by
  rw [pushNew_pair]
  by_cases hsame : y = x
  · simp only [hsame, if_true, keepsFields_some, true_and]
  · simp [KeepsFields, hsame]

theorem base_of_disjoint {x : ℤ} (hx : IsFloatingDate x) (hdisjoint : DisjointFields x x) :
    |x| = itselfInterp := by
  have hfields := natAbs_eq_fields hx
  simp only [DisjointFields, dateFields, List.zip_cons_cons, List.zip_nil_right,
    List.forall_mem_cons, or_self, List.not_mem_nil, false_implies, implies_true,
    and_true] at hdisjoint
  rw [Int.abs_eq_natAbs, hfields]
  unfold itselfInterp
  omega

theorem floatingDateIntersection_base {x y : ℤ} (hbase : |x| = itselfInterp ∨ |y| = itselfInterp) :
    floatingDateIntersection x y = false := by
  unfold floatingDateIntersection
  split_ifs
  · rfl
  · rcases hbase with hbase | hbase <;>
    · have hnone := dateFields_base hbase
      simp only [dateFields, List.cons.injEq, and_true] at hnone
      simp [hnone]

/-- The date that is made of a date with the base. -/
theorem keepsFields_product {doc : CTime} {coeff date x y : ℤ}
    (hcoeff : |coeff| = itselfInterp) (hdate : IsFloatingDate date)
    (hbase : |date| ≠ itselfInterp) (hxy : x = coeff ∧ y = date ∨ x = date ∧ y = coeff) :
    KeepsFields ((multiplyFloatingDate doc coeff date).map fun product =>
        if itselfInterp = product then pushNew (pushNew [] x) y
        else if 0 ≠ product then pushNew [] product
        else []) x y ↔
      IsWeekDay date := by
  have hsum : List.zipWith (· + ·) (dateFields x) (dateFields y) = dateFields date := by
    rcases hxy with ⟨rfl, rfl⟩ | ⟨rfl, rfl⟩
    · exact (zipWith_dateFields_base hcoeff).2
    · exact (zipWith_dateFields_base hcoeff).1
  have hdiff : y ≠ x := by
    rintro rfl
    rcases hxy with ⟨rfl, rfl⟩ | ⟨rfl, rfl⟩ <;> exact hbase hcoeff
  by_cases hweekDay : IsWeekDay date
  · rw [multiplyFloatingDate_weekDay doc coeff hdate hweekDay, Option.map_some,
      if_neg, if_pos]
    · simp only [hweekDay, iff_true]
      exact keepsFields_some.mpr hsum.symm
    · rintro rfl
      have := hdate.1
      simp [itselfInterp] at this
    · rintro rfl
      exact hbase (abs_of_nonneg (by simp [itselfInterp]))
  · simp only [hweekDay, iff_false]
    cases hproduct : multiplyFloatingDate doc coeff date with
    | none => simp [KeepsFields]
    | some product =>
      rw [Option.map_some]
      split_ifs with hitself hzero
      · intro hkeeps
        exact hdiff (keepsFields_both.mp hkeeps).1
      · intro hkeeps
        have hfields := keepsFields_some.mp hkeeps
        rw [hsum] at hfields
        exact multiplyFloatingDate_fields hcoeff hdate hbase hweekDay hproduct hfields
      · simp [KeepsFields]

theorem keepsFields_bases {x y : ℤ} (hx : |x| = itselfInterp) (hy : |y| = itselfInterp) :
    KeepsFields ((some x).map fun date =>
        if itselfInterp = date then pushNew (pushNew [] x) y
        else if 0 ≠ date then pushNew [] date
        else []) x y ↔
      ¬(x = itselfInterp ∧ y = -itselfInterp) := by
  have hsum := (@zipWith_dateFields_base x y hy).1
  rw [Option.map_some]
  by_cases hitself : itselfInterp = x
  · rw [if_pos hitself, keepsFields_both, ← hitself]
    rw [← hitself] at hsum
    rcases eq_or_eq_neg_of_abs_eq hy with hy | hy
    · rw [hy] at hsum ⊢
      norm_num [itselfInterp] at hsum ⊢
      exact hsum.symm
    · rw [hy]
      norm_num [itselfInterp]
  · have hzero : 0 ≠ x := by
      rintro rfl
      norm_num [itselfInterp] at hx
    rw [if_neg hitself, if_pos hzero]
    simp only [Ne.symm hitself, false_and, not_false_eq_true, iff_true]
    exact keepsFields_some.mpr hsum.symm

theorem calculateFloatingDate_base {doc : CTime} {x y : ℤ} (hx : IsFloatingDate x)
    (hy : IsFloatingDate y) (hbase : |x| = itselfInterp ∨ |y| = itselfInterp) :
    calculateFloatingDate doc x y =
      if itselfInterp < |x| then multiplyFloatingDate doc y x
      else if itselfInterp < |y| then multiplyFloatingDate doc x y
      else some x := by
  unfold calculateFloatingDate
  have hsmall (date : ℤ) (hdate : IsFloatingDate date) : date ≠ -1 ∧ date ≠ 0 := by
    constructor <;>
    · intro heq
      have hlow := hdate.1
      rw [heq] at hlow
      norm_num [itselfInterp] at hlow
  rw [if_neg (by simp [hsmall x hx, hsmall y hy]),
    if_neg (by simp [eq_comm, hsmall x hx, hsmall y hy]), if_neg (by omega),
    if_neg (not_and_of_not_left _ (not_lt.mpr hx.1))]

/-- Two dates without a common field are merged by their fields exactly if they are no ends of a
period, have no time both, and none of them is the base, a day of the week apart. -/
theorem keepsFields_iff (doc : CTime) (bComplexPeriod : Bool) {x y : ℤ} (hx : IsFloatingDate x)
    (hy : IsFloatingDate y) (hdisjoint : DisjointFields x y) :
    KeepsFields (mergeFloatingDates doc [x] [y] bComplexPeriod) x y ↔
      MergesFields bComplexPeriod x y := by
  rw [mergeFloatingDates_pair, mergePair, MergesFields]
  cases bComplexPeriod with
  | true =>
    rw [Bool.or_true, if_pos rfl, if_pos rfl, keepsFields_both]
    constructor
    · intro hboth
      exact hboth.1.symm
    · intro hsame
      subst hsame
      exact ⟨rfl, (zipWith_dateFields_base (base_of_disjoint hx hdisjoint)).1.symm⟩
  | false =>
    rw [Bool.or_false, if_neg Bool.false_ne_true]
    cases hintersection : floatingDateIntersection x y with
    | true =>
      rw [if_pos rfl, keepsFields_both]
      constructor
      · rintro ⟨rfl, -⟩
        have hbase := base_of_disjoint hx hdisjoint
        rw [floatingDateIntersection_base (Or.inl hbase)] at hintersection
        cases hintersection
      · rintro ⟨hfalse, -⟩
        cases hfalse
    | false =>
      rw [if_neg Bool.false_ne_true]
      simp only [true_and]
      by_cases hxbase : |x| = itselfInterp
      · rw [calculateFloatingDate_base hx hy (Or.inl hxbase), if_neg (not_lt.mpr hxbase.le),
          if_pos hxbase]
        by_cases hybase : |y| = itselfInterp
        · rw [if_neg (not_lt.mpr hybase.le), if_pos hybase]
          exact keepsFields_bases hxbase hybase
        · rw [if_pos (lt_of_le_of_ne hy.1 (Ne.symm hybase)), if_neg hybase]
          exact keepsFields_product hxbase hy hybase (Or.inl ⟨rfl, rfl⟩)
      · rw [if_neg hxbase]
        by_cases hybase : |y| = itselfInterp
        · rw [calculateFloatingDate_base hx hy (Or.inr hybase),
            if_pos (lt_of_le_of_ne hx.1 (Ne.symm hxbase))]
          simp only [hybase, true_implies]
          exact keepsFields_product hybase hx hxbase (Or.inr ⟨rfl, rfl⟩)
        · simp only [hybase, false_implies, iff_true]
          obtain ⟨date, hdate, habs⟩ := calculateFloatingDate_sum doc hx hy hxbase hybase
          have hlarge : itselfInterp < |date| := by
            have := hx.1
            have := hy.1
            omega
          rw [hdate, Option.map_some, if_neg, if_pos]
          · exact keepsFields_some.mpr (dateFields_sum hx hy hdisjoint habs)
          · rintro rfl
            simp [itselfInterp] at hlarge
          · rintro rfl
            simp [itselfInterp] at hlarge

/-- A date with a day, a month and a year, which is no time. -/
def DateItem.IsFullDate (item : DateItem) : Prop :=
  item.isDateTerminal ∧ item.isDateSequence ∧ item.title ≠ "_недовремя" ∧ item.isDateKeyword

theorem getElem_zipWith3 {f : ℤ → ℤ → ℤ → ℤ} {xs ys zs : List ℤ} {i : ℕ} {x y z value : ℤ}
    (hx : xs[i]? = some x) (hy : ys[i]? = some y) (hz : zs[i]? = some z)
    (hvalue : (List.zipWith3 f xs ys zs)[i]? = some value) : value = f x y z := by
  induction i generalizing xs ys zs with
  | zero =>
    cases xs with
    | nil => simp at hx
    | cons a xs =>
      cases ys with
      | nil => simp at hy
      | cons b ys =>
        cases zs with
        | nil => simp at hz
        | cons c zs => simp_all [List.zipWith3]
  | succ i ih =>
    cases xs with
    | nil => simp at hx
    | cons a xs =>
      cases ys with
      | nil => simp at hy
      | cons b ys =>
        cases zs with
        | nil => simp at hz
        | cons c zs => exact ih hx hy hz hvalue

theorem checkAvailableDateItem_date {doc : CTime} {item : DateItem} {interps : List ℤ} {i : ℕ}
    {year month day date : ℤ} (hitem : item.IsFullDate)
    (hyear : item.group.iYear[i]? = some year) (hmonth : item.group.iMonth[i]? = some month)
    (hday : item.group.iDay[i]? = some day)
    (hdate : (checkAvailableDateItem doc item interps).2[i]? = some date) :
    date = floatingDate doc year month day := by
  obtain ⟨hterminal, hsequence, htitle, hkeyword⟩ := hitem
  have hDMY : item.group.isDMY = true := by
    have hne {xs : List ℤ} {x : ℤ} (hx : xs[i]? = some x) : xs ≠ [] := by
      rintro rfl
      simp at hx
    simp [DateGroup.isDMY, hne hyear, hne hmonth, hne hday]
  simp only [checkAvailableDateItem, hterminal, hsequence, htitle, hkeyword, hDMY, Bool.not_true,
    Bool.false_eq_true, if_true, if_false] at hdate
  split_ifs at hdate
  · exact getElem_zipWith3 hyear hmonth hday hdate
  · simp at hdate

/-- A full date is decoded to itself exactly if it is no leap day and its year differs from the
document's by less than a thousand; a document of the first second of 1970 has no date, and every
date is decoded to its own. Two dates without a common field are merged by their fields exactly in
the cases of `MergesFields`. -/
theorem floatingDates_exact (doc : CTime) :
    (∀ (item : DateItem) (interps : List ℤ) (bPeriod : Bool) (i year month day : ℕ) (date : ℤ),
      item.IsFullDate →
      (1 ≤ month ∧ month ≤ 12) → (1 ≤ day ∧ day ≤ daysInMonth year month) →
      item.group.iYear[i]? = some (year : ℤ) → item.group.iMonth[i]? = some (month : ℤ) →
      item.group.iDay[i]? = some (day : ℤ) →
      (checkAvailableDateItem doc item interps).2[i]? = some date →
      (IsDay (calculateExactDate doc date bPeriod (docFields doc)) year month day ↔
        if doc.getTime = 0 then doc.year = year ∧ doc.month = month ∧ doc.day = day
        else (doc.year - year).natAbs < 1000 ∧ ¬(month = 2 ∧ day = 29))) ∧
    ∀ (bComplexPeriod : Bool) (x y : ℤ), IsFloatingDate x → IsFloatingDate y →
      DisjointFields x y →
      (KeepsFields (mergeFloatingDates doc [x] [y] bComplexPeriod) x y ↔
        MergesFields bComplexPeriod x y) := by
  constructor
  · intro item interps bPeriod i year month day date hitem hmonth hday hyears hmonths hdays hdate
    rw [checkAvailableDateItem_date hitem hyears hmonths hdays hdate]
    by_cases hdoc : doc.getTime = 0
    · rw [if_pos hdoc, calculateExactDate, if_pos (Or.inr (Or.inr hdoc.symm)), IsDay,
        CTimeLong.getRealYear, add_zero]
    · rw [if_neg hdoc]
      exact calculateExactDate_isDay bPeriod hdoc hmonth hday
  · intro bComplexPeriod x y hx hy hdisjoint
    exact keepsFields_iff doc bComplexPeriod hx hy hdisjoint

/-- The first of June 2010. -/
def juneDoc : CTime := ⟨2010, 6, 1, 0, 0, 0, by decide, by decide⟩

/-- The word of a date. -/
def dateItem (year month day : ℤ) : DateItem :=
  ⟨true, true, "", true, { iDay := [day], iMonth := [month], iYear := [year] }⟩

theorem floatingDates_exact_juneDoc :
    IsDay (calculateExactDate juneDoc (floatingDate juneDoc 2007 5 4) false (docFields juneDoc))
      2007 5 4 ∧
    KeepsFields (mergeFloatingDates juneDoc [itselfInterp + tenPow 12 11]
      [itselfInterp + tenPow 5 3] false) (itselfInterp + tenPow 12 11)
      (itselfInterp + tenPow 5 3) := by
  constructor
  · apply ((floatingDates_exact juneDoc).1 (dateItem 2007 5 4) [] false 0 2007 5 4 _
      ⟨rfl, rfl, by decide, rfl⟩ (by decide) (by decide) rfl rfl rfl rfl).mpr
    rw [if_neg (by decide)]
    decide
  · apply ((floatingDates_exact juneDoc).2 false _ _ (by unfold IsFloatingDate; decide)
      (by unfold IsFloatingDate; decide) (by unfold DisjointFields; decide)).mpr
    rw [MergesFields, if_neg Bool.false_ne_true, if_neg (by decide)]
    exact ⟨by decide, fun hbase => absurd hbase (by decide)⟩

/-- The leap day is decoded to the day before, a year that is too far away to another year, and
midnight gets lost in a merge. -/
theorem floatingDates_juneDoc :
    ¬IsDay (calculateExactDate juneDoc (floatingDate juneDoc 2008 2 29) false (docFields juneDoc))
      2008 2 29 ∧
    ¬IsDay (calculateExactDate juneDoc (floatingDate juneDoc 1005 5 4) false (docFields juneDoc))
      1005 5 4 ∧
    ¬KeepsFields (mergeFloatingDates juneDoc [itselfInterp] [itselfInterp + tenPow 5 3] false)
      itselfInterp (itselfInterp + tenPow 5 3) := by
  refine ⟨?_, ?_, ?_⟩
  · intro hday
    have hleap := (calculateExactDate_isDay false (by decide) (by decide) (by decide)).mp hday
    exact hleap.2 ⟨rfl, rfl⟩
  · intro hday
    have hyear := (calculateExactDate_isDay false (by decide) (by decide) (by decide)).mp hday
    exact absurd hyear.1 (by decide)
  · intro hkeeps
    have hmerges := (keepsFields_iff juneDoc false (by unfold IsFloatingDate; decide)
      (by unfold IsFloatingDate; decide) (by unfold DisjointFields; decide)).mp hkeeps
    rw [MergesFields, if_neg Bool.false_ne_true, if_pos (by decide), if_neg (by decide)] at hmerges
    exact absurd hmerges.2.1 (by decide)

end TomitaParser.Rusie
