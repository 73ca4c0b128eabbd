import Mathlib.Algebra.Order.Ring.Int
import Mathlib.Logic.Function.Iterate
/-! # Dates of the calendar

The times of the library are days of the calendar with a time of the day. The local time is the time
that the clock shows. -/

namespace TomitaParser.Rusie

def isLeapYear (year : ℤ) : Bool :=
  decide (year % 4 = 0 ∧ (year % 100 ≠ 0 ∨ year % 400 = 0))

def daysInMonth (year : ℤ) (month : ℕ) : ℕ :=
  if month = 2 then if isLeapYear year then 29 else 28
  else if month = 4 ∨ month = 6 ∨ month = 9 ∨ month = 11 then 30
  else 31

theorem daysInMonth_pos (year : ℤ) (month : ℕ) : 1 ≤ daysInMonth year month := by
  unfold daysInMonth
  split_ifs <;> omega

theorem daysInMonth_le (year : ℤ) (month : ℕ) : daysInMonth year month ≤ 31 := by
  unfold daysInMonth
  split_ifs <;> omega

/-- `CTime`: a day of the calendar with a time. -/
structure CTime where
  year : ℤ
  month : ℕ
  day : ℕ
  hour : ℕ
  minute : ℕ
  second : ℕ
  month_mem : 1 ≤ month ∧ month ≤ 12
  day_mem : 1 ≤ day ∧ day ≤ daysInMonth year month

namespace CTime

/-- The days of a year before a month. -/
def daysBeforeMonth (year : ℤ) (month : ℕ) : ℕ :=
  ((List.range (month - 1)).map fun m => daysInMonth year (m + 1)).sum

/-- The number of a day, counted from the first day of 1970. -/
def dayNumber (t : CTime) : ℤ :=
  let before := t.year - 1
  365 * before + before / 4 - before / 100 + before / 400 +
    daysBeforeMonth t.year t.month + t.day - 719163

def getTime (t : CTime) : ℤ :=
  86400 * t.dayNumber + 3600 * t.hour + 60 * t.minute + t.second

/-- Sunday is 1. -/
def getDayOfWeek (t : CTime) : ℕ := ((t.dayNumber + 4) % 7).toNat + 1

def nextDay (t : CTime) : CTime :=
  if h : t.day < daysInMonth t.year t.month then
    { t with day := t.day + 1, day_mem := ⟨by omega, h⟩ }
  else if h' : t.month < 12 then
    { t with
      month := t.month + 1, day := 1, month_mem := ⟨by omega, h'⟩
      day_mem := ⟨le_rfl, daysInMonth_pos _ _⟩ }
  else
    { t with
      year := t.year + 1, month := 1, day := 1, month_mem := ⟨le_rfl, by omega⟩
      day_mem := ⟨le_rfl, daysInMonth_pos _ _⟩ }

def previousDay (t : CTime) : CTime :=
  if h : 1 < t.day then
    { t with day := t.day - 1, day_mem := ⟨by omega, by have := t.day_mem; omega⟩ }
  else if h' : 1 < t.month then
    { t with
      month := t.month - 1, day := daysInMonth t.year (t.month - 1)
      month_mem := ⟨by omega, by have := t.month_mem; omega⟩
      day_mem := ⟨daysInMonth_pos _ _, le_rfl⟩ }
  else
    { t with
      year := t.year - 1, month := 12, day := daysInMonth (t.year - 1) 12
      month_mem := ⟨by omega, le_rfl⟩, day_mem := ⟨daysInMonth_pos _ _, le_rfl⟩ }

/-- The time that is a number of days later, or earlier if the number is negative. -/
def addDays (t : CTime) (days : ℤ) : CTime :=
  if days < 0 then previousDay^[days.natAbs] t else nextDay^[days.natAbs] t

/-- `mktime` for a day of at most 31: what is over in a month goes to the next one. -/
def mktime (year : ℤ) (month day hour minute second : ℕ) (hmonth : 1 ≤ month ∧ month ≤ 12)
    (hday : 1 ≤ day ∧ day ≤ 31) : CTime :=
  if h : day ≤ daysInMonth year month then
    ⟨year, month, day, hour, minute, second, hmonth, hday.1, h⟩
  else
    ⟨year, month + 1, day - daysInMonth year month, hour, minute, second,
      ⟨by omega, by
        unfold daysInMonth at h
        split_ifs at h <;> omega⟩,
      by omega, by
        unfold daysInMonth at h ⊢
        split_ifs at h ⊢ <;> omega⟩

/-- The constructor of `CTime`, which throws for a bad date. -/
def ofDate (year month day hour minute second : ℤ) : Option CTime :=
  if h : 1900 ≤ year ∧ (1 ≤ month ∧ month ≤ 12) ∧ (1 ≤ day ∧ day ≤ 31) ∧ (0 ≤ hour ∧ hour ≤ 23) ∧
      (0 ≤ minute ∧ minute ≤ 59) ∧ (0 ≤ second ∧ second ≤ 59) then
    let t := mktime year month.toNat day.toNat hour.toNat minute.toNat second.toNat
      ⟨by omega, by omega⟩ ⟨by omega, by omega⟩
    if t.getTime = -1 then none else some t
  else none

theorem ofDate_eq_some {year : ℤ} {month day hour minute : ℕ} (hyear : 1900 ≤ year)
    (hmonth : 1 ≤ month ∧ month ≤ 12) (hday : 1 ≤ day ∧ day ≤ daysInMonth year month)
    (hhour : hour ≤ 23) (hminute : minute ≤ 59) :
    ofDate year month day hour minute 0 =
      some ⟨year, month, day, hour, minute, 0, hmonth, hday⟩ := by
  have hdays := daysInMonth_le year month
  unfold ofDate
  rw [dif_pos (by omega)]
  simp only [Int.toNat_natCast, Int.toNat_zero, mktime, dif_pos hday.2]
  rw [if_neg]
  simp only [getTime]
  omega

theorem year_nextDay (t : CTime) : t.year - 1 ≤ t.nextDay.year ∧ t.nextDay.year ≤ t.year + 1 := by
  unfold nextDay
  split_ifs <;> simp only <;> omega

theorem year_previousDay (t : CTime) :
    t.year - 1 ≤ t.previousDay.year ∧ t.previousDay.year ≤ t.year + 1 := by
  unfold previousDay
  split_ifs <;> simp only <;> omega

theorem year_iterate {step : CTime → CTime}
    (hstep : ∀ t, t.year - 1 ≤ (step t).year ∧ (step t).year ≤ t.year + 1) (n : ℕ) (t : CTime) :
    t.year - n ≤ (step^[n] t).year ∧ (step^[n] t).year ≤ t.year + n := by
  induction n generalizing t with
  | zero => simp
  | succ n ih =>
    rw [Function.iterate_succ_apply]
    have hfirst := hstep t
    have hrest := ih (step t)
    push_cast
    omega

theorem year_addDays (t : CTime) (days : ℤ) :
    t.year - days.natAbs ≤ (t.addDays days).year ∧
      (t.addDays days).year ≤ t.year + days.natAbs := by
  unfold addDays
  split_ifs
  · exact year_iterate year_previousDay _ t
  · exact year_iterate year_nextDay _ t

theorem year_ofDate {year month day hour minute second : ℤ} {t : CTime}
    (ht : ofDate year month day hour minute second = some t) : t.year = year := by
  unfold ofDate at ht
  split_ifs at ht with hmem
  dsimp only at ht
  split_ifs at ht
  cases ht
  unfold mktime
  split_ifs <;> rfl

end CTime

/-- `CTimeLong`: the years that `CTime` does not have are told by a difference. -/
structure CTimeLong where
  time : CTime
  yDif : ℤ

namespace CTimeLong

def getRealYear (t : CTimeLong) : ℤ := t.time.year + t.yDif

def lowDate : ℤ := 1972

def highDate : ℤ := 3000

/-- `CalculateYDif`: the year without the difference, and the difference. -/
def calculateYDif (year : ℤ) : ℤ × ℤ :=
  let yDif :=
    if highDate < year then year - highDate else if lowDate > year then year - lowDate else 0
  (year - yDif, yDif)

theorem calculateYDif_add (year : ℤ) : (calculateYDif year).1 + (calculateYDif year).2 = year := by
  unfold calculateYDif
  dsimp only
  omega

theorem lowDate_le (year : ℤ) : 1972 ≤ (calculateYDif year).1 := by
  unfold calculateYDif lowDate highDate
  dsimp only
  split_ifs <;> omega

end CTimeLong
end TomitaParser.Rusie
