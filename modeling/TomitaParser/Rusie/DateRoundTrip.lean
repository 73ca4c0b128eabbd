import Mathlib.Data.List.GetD
import TomitaParser.Rusie.FloatingDate
/-! # Decoding floating dates

The date that a number is decoded to, and the fields of two numbers that are merged. -/

namespace TomitaParser.Rusie

theorem extractDigits_eq (date : ℤ) (start count : ℕ) :
    extractDigits date start count =
      date.natAbs / 10 ^ (16 - start - count) % 10 ^ count := by
  simp only [extractDigits]
  rw [Nat.mod_eq_sub_div_mul]

/-- The fields of a floating date. -/
def dateFields (date : ℤ) : List ℕ :=
  [getMinute date, getHour date, getWeekDay date, getDay date, getWeek date, getMonth date,
    getYear date]

theorem digits_eq_map (n k : ℕ) (hlow : 10 ^ k ≤ n) (hhigh : n < 10 ^ (k + 1)) :
    Nat.digits 10 n = (List.range (k + 1)).map fun i => n / 10 ^ i % 10 := by
  have hlength : (Nat.digits 10 n).length = k + 1 := by
    apply le_antisymm
    · exact (Nat.digits_length_le_iff (by omega) n).mpr hhigh
    · exact (Nat.lt_digits_length_iff (by omega) n).mpr hlow
  apply List.ext_getElem
  · simp [hlength]
  · intro i hi _
    have hdigit := Nat.getD_digits n i (show 2 ≤ 10 by omega)
    rw [List.getD_eq_getElem _ _ hi] at hdigit
    simp [hdigit]

theorem subNumber_eq {n : ℕ} (hlow : 10 ^ 15 ≤ n) (hhigh : n < 10 ^ 16) :
    subNumber n 3 2 = some ((n / 10 ^ 11 % 100 : ℕ) : ℤ) ∧
      subNumber n 1 2 = some ((n / 10 ^ 13 % 100 : ℕ) : ℤ) := by
  have hdigits := digits_eq_map n 15 hlow hhigh
  constructor <;>
  · simp only [subNumber, hdigits]
    simp [List.range_succ]
    omega

theorem shiftMonth_year (doc : CTime) (bMinus : Bool) (month year : ℤ) :
    year ≤ (shiftMonth doc bMinus month year).2 ∧
      (shiftMonth doc bMinus month year).2 ≤ year + 1 := by
  unfold shiftMonth
  dsimp only
  split_ifs <;> simp only <;> omega

theorem daysToWeekDay_mem (doc : CTime) (bMinus : Bool) {weekDay : ℤ}
    (hweekDay : 0 ≤ weekDay ∧ weekDay ≤ 9) :
    -2 ≤ daysToWeekDay doc bMinus weekDay ∧ daysToWeekDay doc bMinus weekDay ≤ 13 := by
  have hday : 1 ≤ doc.getDayOfWeek ∧ doc.getDayOfWeek ≤ 7 := by
    unfold CTime.getDayOfWeek
    omega
  unfold daysToWeekDay
  dsimp only
  split_ifs <;> omega

theorem shiftDays_year {bMinus : Bool} {days : ℤ} {base fields : DateFields}
    (hfields : shiftDays bMinus days base = some fields) :
    base.year - days.natAbs ≤ fields.year ∧ fields.year ≤ base.year + days.natAbs := by
  unfold shiftDays at hfields
  by_cases hdays : days ≠ 0 ∧ base.day ≠ 0
  · rw [if_pos hdays] at hfields
    obtain ⟨t, htime, hshifted⟩ := Option.map_eq_some_iff.mp hfields
    have hyear := CTime.year_ofDate htime
    have hshift := CTime.year_addDays t (if bMinus then -days else days)
    have habs : (if bMinus then -days else days).natAbs = days.natAbs := by
      split_ifs <;> simp
    rw [habs] at hshift
    rw [← hshifted]
    dsimp only
    omega
  · rw [if_neg hdays] at hfields
    cases hfields
    omega

/-- The year of the decoded date is told by the last three digits, up to less than a thousand. -/
theorem exactFields_year {doc : CTime} {date : ℤ} {bPeriod : Bool} {base fields : DateFields}
    (hfields : exactFields doc date bPeriod base = some fields) :
    |fields.year - (if 0 > date then base.year - getYear date else base.year + getYear date)| <
      1000 := by
  have hday : getDay date < 1000 := by
    simp only [getDay, extractDigits_eq]
    omega
  have hweek : getWeek date < 100 := by
    simp only [getWeek, extractDigits_eq]
    omega
  have hweekDay : getWeekDay date ≤ 9 := by
    simp only [getWeekDay, extractDigits_eq]
    omega
  have hshift := daysToWeekDay_mem doc (decide (0 > date))
    (show 0 ≤ (getWeekDay date : ℤ) ∧ (getWeekDay date : ℤ) ≤ 9 by omega)
  have hmonth := shiftMonth_year doc (decide (0 > date)) (getMonth date) (getYear date)
  unfold exactFields at hfields
  dsimp only at hfields
  obtain ⟨shifted, hshifted, rfl⟩ := Option.map_eq_some_iff.mp hfields
  have hyear := shiftDays_year hshifted
  clear hfields hshifted
  dsimp only
  generalize (shiftMonth doc (decide (0 > date)) (getMonth date) (getYear date)).2 = year at *
  generalize (shiftMonth doc (decide (0 > date)) (getMonth date) (getYear date)).1 = month at *
  generalize daysToWeekDay doc (decide (0 > date)) (getWeekDay date) = weekDays at *
  rw [abs_lt]
  by_cases hsign : 0 > date
  · simp only [hsign, decide_true, if_true, true_and] at hyear ⊢
    split_ifs at hyear ⊢ <;> omega
  · simp only [hsign, decide_false, if_false, Bool.false_eq_true, false_and] at hyear ⊢
    split_ifs at hyear ⊢ <;> omega

theorem buildDate_year {date : ℤ} {fields : DateFields} {t : CTimeLong}
    (ht : buildDate date fields = some t) : t.getRealYear = fields.year := by
  unfold buildDate at ht
  simp only [Option.bind_eq_bind, Option.bind_eq_some_iff, Option.pure_def,
    Option.some.injEq] at ht
  obtain ⟨_, _, _, _, time, htime, rfl⟩ := ht
  simp only [CTimeLong.getRealYear, CTime.year_ofDate htime]
  exact CTimeLong.calculateYDif_add fields.year

theorem maxDayNumInMonth_eq {month : ℕ} (hmonth : 1 ≤ month ∧ month ≤ 12) :
    maxDayNumInMonth month = if month = 2 then 28 else (daysInMonth 1 month : ℤ) := by
  obtain ⟨hlow, hhigh⟩ := hmonth
  interval_cases month <;> decide

theorem daysInMonth_eq {year : ℤ} {month : ℕ} (hmonth : month ≠ 2) :
    daysInMonth year month = daysInMonth 1 month := by
  simp only [daysInMonth, if_neg hmonth]

theorem le_daysInMonth_two (year : ℤ) : 28 ≤ daysInMonth year 2 ∧ daysInMonth year 2 ≤ 29 := by
  simp only [daysInMonth, if_true]
  split_ifs <;> omega

/-- A day of the calendar is built without a time, the leap day as the day before. -/
theorem buildDate_day {date : ℤ} {year : ℤ} {month day : ℕ}
    (hdate : 10 ^ 15 ≤ date.natAbs ∧ date.natAbs < 10 ^ 15 + 10 ^ 11)
    (hmonth : 1 ≤ month ∧ month ≤ 12) (hday : 1 ≤ day ∧ day ≤ daysInMonth year month) :
    ∃ t, buildDate date ⟨year, month, day⟩ = some t ∧ t.getRealYear = year ∧
      t.time.month = month ∧ t.time.day = if month = 2 ∧ day = 29 then 28 else day := by
  obtain ⟨hhour, hmin⟩ := subNumber_eq (n := date.natAbs) hdate.1 (by omega)
  rw [show date.natAbs / 10 ^ 11 % 100 = 0 by omega] at hhour
  rw [show date.natAbs / 10 ^ 13 % 100 = 0 by omega] at hmin
  have hclamp : (if (day : ℤ) > maxDayNumInMonth month then maxDayNumInMonth month else day) =
      ((if month = 2 ∧ day = 29 then 28 else day : ℕ) : ℤ) := by
    rw [maxDayNumInMonth_eq hmonth]
    by_cases htwo : month = 2
    · subst htwo
      have hdays := le_daysInMonth_two year
      split_ifs <;> omega
    · rw [daysInMonth_eq htwo] at hday
      simp only [htwo, if_false, false_and]
      rw [if_neg (by omega)]
  have hclamped : 1 ≤ (if month = 2 ∧ day = 29 then 28 else day) ∧
      (if month = 2 ∧ day = 29 then 28 else day) ≤
        daysInMonth (CTimeLong.calculateYDif year).1 month := by
    by_cases htwo : month = 2
    · subst htwo
      have hdays := le_daysInMonth_two year
      have hyear := le_daysInMonth_two (CTimeLong.calculateYDif year).1
      split_ifs <;> omega
    · rw [daysInMonth_eq htwo] at hday ⊢
      simp only [htwo, if_false, false_and]
      exact hday
  have hlow := CTimeLong.lowDate_le year
  have hbuilt := @CTime.ofDate_eq_some _ month _ 0 0 (by omega) hmonth hclamped (by omega)
    (by omega)
  rw [Nat.cast_zero] at hbuilt
  refine ⟨⟨⟨(CTimeLong.calculateYDif year).1, month, _, 0, 0, 0, hmonth, hclamped⟩,
    (CTimeLong.calculateYDif year).2⟩, ?_, CTimeLong.calculateYDif_add year, rfl, rfl⟩
  simp only [buildDate, hhour, hmin, Option.bind_eq_bind, Option.bind_some, Nat.cast_zero]
  rw [if_neg (show ¬(month : ℤ) > 12 by omega), if_neg (show ¬(month : ℤ) < 0 by omega),
    if_neg (show ¬(month : ℤ) = 0 by omega), hclamp]
  simp only [lt_irrefl, show ¬(0 : ℤ) > 23 by omega, show ¬(0 : ℤ) > 59 by omega, if_false]
  simp only [hbuilt, Option.bind_some, Option.pure_def]

/-- The fields of the document's date, which the missing ones are taken from. -/
def docFields (doc : CTime) : DateFields := ⟨doc.year, doc.month, doc.day⟩

/-- The day of a decoded date. -/
def IsDay (t : CTimeLong) (year month day : ℕ) : Prop :=
  t.getRealYear = year ∧ t.time.month = month ∧ t.time.day = day

theorem floatingDate_natAbs (doc : CTime) (year month day : ℕ) :
    (floatingDate doc year month day).natAbs =
      10 ^ 15 + (doc.year - year).natAbs + month * 10 ^ 3 + day * 10 ^ 7 := by
  simp only [floatingDate, itselfInterp, tenPow]
  split_ifs <;> omega

theorem floatingDate_neg (doc : CTime) (year month day : ℕ) :
    0 > floatingDate doc year month day ↔ (year : ℤ) < doc.year := by
  simp only [floatingDate, itselfInterp, tenPow]
  split_ifs <;> omega

theorem calculateExactDate_floatingDate {doc : CTime} {year month day : ℕ} (bPeriod : Bool)
    (hdoc : doc.getTime ≠ 0) (hmonth : 1 ≤ month) :
    calculateExactDate doc (floatingDate doc year month day) bPeriod (docFields doc) =
      ((exactFields doc (floatingDate doc year month day) bPeriod (docFields doc)).bind
        (buildDate (floatingDate doc year month day))).getD ⟨doc, 0⟩ := by
  have habs := floatingDate_natAbs doc year month day
  rw [calculateExactDate, if_neg]
  rw [Int.abs_eq_natAbs, habs]
  simp only [itselfInterp]
  omega

/-- A year that is near the document's year is told by its digits. -/
theorem exactFields_near {doc : CTime} {year month day : ℕ} (bPeriod : Bool)
    (hyear : (doc.year - year).natAbs < 1000) (hmonth : 1 ≤ month ∧ month ≤ 12)
    (hday : 1 ≤ day ∧ day ≤ 31) :
    exactFields doc (floatingDate doc year month day) bPeriod (docFields doc) =
      some ⟨year, month, day⟩ := by
  have habs := floatingDate_natAbs doc year month day
  have hneg := floatingDate_neg doc year month day
  have hdayField : getDay (floatingDate doc year month day) = day := by
    simp only [getDay, extractDigits_eq, habs]
    omega
  have hweek : getWeek (floatingDate doc year month day) = 0 := by
    simp only [getWeek, extractDigits_eq, habs]
    omega
  have hweekDay : getWeekDay (floatingDate doc year month day) = 0 := by
    simp only [getWeekDay, extractDigits_eq, habs]
    omega
  have hmonthField : getMonth (floatingDate doc year month day) = month := by
    simp only [getMonth, extractDigits_eq, habs]
    omega
  have hyearField : getYear (floatingDate doc year month day) = (doc.year - year).natAbs := by
    simp only [getYear, extractDigits_eq, habs]
    omega
  have hshift (bMinus : Bool) (n : ℤ) : shiftMonth doc bMinus month n = ((month : ℤ), n) := by
    unfold shiftMonth
    dsimp only
    rw [if_neg (show ¬(month : ℤ) = 14 by omega), if_neg (show ¬(month : ℤ) = 13 by omega)]
  have hdays (bMinus : Bool) : (0 : ℕ) * 7 + daysToWeekDay doc bMinus ((0 : ℕ) : ℤ) = 0 := by
    simp [daysToWeekDay]
  have hnomonth : ¬(0 : ℤ) = month := by omega
  have hnoday : ¬(0 : ℤ) = day := by omega
  have hyears : (if ((doc.year - year).natAbs : ℤ) = 0 then doc.year
      else if (year : ℤ) < doc.year then doc.year - (doc.year - year).natAbs
      else doc.year + (doc.year - year).natAbs) = year := by
    split_ifs <;> omega
  unfold exactFields
  simp only [hdayField, hweek, hweekDay, hmonthField, hyearField, hshift, hneg, hdays, hnomonth,
    hnoday, Ne.symm hnomonth, Ne.symm hnoday, false_and, and_false, if_false, shiftDays, ne_eq,
    not_true_eq_false, Option.map_some, docFields, decide_eq_true_eq, hyears]

theorem exactFields_far {doc : CTime} {year month day : ℕ} {bPeriod : Bool} {fields : DateFields}
    (hyear : 1000 ≤ (doc.year - year).natAbs)
    (hfields : exactFields doc (floatingDate doc year month day) bPeriod (docFields doc) =
      some fields) : fields.year ≠ year := by
  have habs := floatingDate_natAbs doc year month day
  have hneg := floatingDate_neg doc year month day
  have hyearField : getYear (floatingDate doc year month day) =
      (doc.year - year).natAbs % 1000 := by
    simp only [getYear, extractDigits_eq, habs]
    omega
  have hnear := exactFields_year hfields
  simp only [hneg, hyearField, docFields] at hnear
  rw [abs_lt] at hnear
  split_ifs at hnear <;> omega

/-- A day is decoded to itself unless it is the leap day, or its year has no place in the
number. -/
theorem calculateExactDate_isDay {doc : CTime} {year month day : ℕ} (bPeriod : Bool)
    (hdoc : doc.getTime ≠ 0) (hmonth : 1 ≤ month ∧ month ≤ 12)
    (hday : 1 ≤ day ∧ day ≤ daysInMonth year month) :
    IsDay (calculateExactDate doc (floatingDate doc year month day) bPeriod (docFields doc))
        year month day ↔
      (doc.year - year).natAbs < 1000 ∧ ¬(month = 2 ∧ day = 29) := by
  have hdays := daysInMonth_le year month
  rw [calculateExactDate_floatingDate bPeriod hdoc hmonth.1]
  by_cases hyear : (doc.year - year).natAbs < 1000
  · have hdate : (floatingDate doc year month day).natAbs < 10 ^ 15 + 10 ^ 11 := by
      rw [floatingDate_natAbs]
      omega
    obtain ⟨t, hbuilt, htyear, htmonth, htday⟩ := buildDate_day
      ⟨by rw [floatingDate_natAbs]; omega, hdate⟩ hmonth hday
    rw [exactFields_near bPeriod hyear hmonth ⟨hday.1, by omega⟩, Option.bind_some, hbuilt,
      Option.getD_some]
    simp only [IsDay, htyear, htmonth, htday, hyear, true_and]
    split_ifs with hleap <;> omega
  · simp only [hyear, false_and, iff_false]
    cases hfields : exactFields doc (floatingDate doc year month day) bPeriod (docFields doc) with
    | none =>
      simp only [Option.bind_none, Option.getD_none, IsDay, CTimeLong.getRealYear]
      omega
    | some fields =>
      have hne := exactFields_far (by omega) hfields
      rw [Option.bind_some]
      cases hbuilt : buildDate (floatingDate doc year month day) fields with
      | none =>
        simp only [Option.getD_none, IsDay, CTimeLong.getRealYear]
        omega
      | some t =>
        rw [Option.getD_some]
        intro hisDay
        apply hne
        rw [← buildDate_year hbuilt, hisDay.1]

end TomitaParser.Rusie
