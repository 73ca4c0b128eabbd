import Mathlib.Data.Nat.Digits.Lemmas
import Mathlib.Tactic.IntervalCases
import TomitaParser.Rusie.Calendar
/-! # Floating dates

A floating date is a number whose decimal digits tell a date relative to the date of the document:
1(base)00(min)00(hour)0(day of week)000(days)00(weeks)00(month)000(year). Its sign tells whether the
date is before or after. -/

namespace TomitaParser.Rusie

/-- `ITSELF_INTERP`: the base without any field, which also stands for the number of a word. -/
def itselfInterp : ℤ := 10 ^ 15

/-- `ExtractDigits`. -/
def extractDigits (date : ℤ) (start count : ℕ) : ℕ :=
  let i₁ := date.natAbs / 10 ^ (16 - start - count)
  i₁ - i₁ / 10 ^ count * 10 ^ count

def getMinute (date : ℤ) : ℕ := extractDigits date 1 2
def getHour (date : ℤ) : ℕ := extractDigits date 3 2
def getWeekDay (date : ℤ) : ℕ := extractDigits date 5 1
def getDay (date : ℤ) : ℕ := extractDigits date 6 3
def getWeek (date : ℤ) : ℕ := extractDigits date 9 2
def getMonth (date : ℤ) : ℕ := extractDigits date 11 2
def getYear (date : ℤ) : ℕ := extractDigits date 13 3

def tenPow (num : ℤ) (power : ℕ) : ℤ := num * 10 ^ power

/-- A value of the type, if the operation has one. -/
def i64 (n : ℤ) : Option ℤ := if -2 ^ 63 ≤ n ∧ n < 2 ^ 63 then some n else none

/-- `get_rank`: how many digits a number has. -/
def getRank (n : ℕ) : ℕ := (Nat.digits 10 n).length

/-- `CDateGroup`, with the fields that are read here. -/
structure DateGroup where
  iDay : List ℤ := []
  iMonth : List ℤ := []
  iYear : List ℤ := []
  iHour : List ℤ := []
  iMinute : List ℤ := []

namespace DateGroup

def isY (g : DateGroup) : Bool := g.iYear ≠ [] && g.iMonth = [] && g.iDay = []
def isDMY (g : DateGroup) : Bool := g.iYear ≠ [] && g.iMonth ≠ [] && g.iDay ≠ []
def isDM (g : DateGroup) : Bool := g.iYear = [] && g.iMonth ≠ [] && g.iDay ≠ []
def isMH (g : DateGroup) : Bool := g.iHour ≠ [] && g.iMinute ≠ []

end DateGroup

/-- What `CheckAvailableDateItem` asks of a primitive group. -/
structure DateItem where
  isDateTerminal : Bool
  /-- The source of the word is a date group. -/
  isDateSequence : Bool
  title : String
  isDateKeyword : Bool
  group : DateGroup

/-- The number for a day. -/
def floatingDate (doc : CTime) (year month day : ℤ) : ℤ :=
  let yDif := doc.year - year
  let sign : ℤ := if yDif > 0 then -1 else 1
  (yDif.natAbs + itselfInterp + tenPow month 3 + tenPow day 7) * sign

/-- The number for a year, if it is not the year of the document. -/
def floatingYear (doc : CTime) (year : ℤ) : Option ℤ :=
  let yDif := doc.year - year
  if yDif = 0 then none
  else if yDif < 0 then some (yDif.natAbs + itselfInterp)
  else some (-1 * (yDif + itselfInterp))

/-- `CheckAvailableDateItem`: whether the item is built, and its interpretations. -/
def checkAvailableDateItem (doc : CTime) (item : DateItem) (interps : List ℤ) : Bool × List ℤ :=
  let g := item.group
  if !item.isDateTerminal then (true, interps)
  else if !item.isDateSequence then (false, interps)
  else if item.title = "_недовремя" then
    if !g.isMH then (false, interps)
    else (true, interps ++
      [tenPow (g.iHour.headD 0) 11 + tenPow (g.iMinute.headD 0) 13 + itselfInterp])
  else if item.isDateKeyword then
    if g.isDMY then
      (true, if g.iMonth.length = g.iYear.length ∧ g.iMonth.length = g.iDay.length then
          List.zipWith3 (floatingDate doc) g.iYear g.iMonth g.iDay
        else [])
    else if g.isY then (true, g.iYear.filterMap (floatingYear doc))
    else (false, [])
  else if item.title = "_недодата" ∧ g.isDM then
    (true, interps ++
      [tenPow (g.iMonth.headD 0) 3 + tenPow (g.iDay.headD 0) 7 + itselfInterp])
  else (false, interps)

def maxDayNumInMonth (month : ℤ) : ℤ :=
  if month = 2 then 28
  else if month = 4 ∨ month = 6 ∨ month = 9 ∨ month = 11 then 30
  else if 1 ≤ month ∧ month ≤ 12 then 31
  else 0

/-- A date that is being computed. -/
structure DateFields where
  year : ℤ
  month : ℤ
  day : ℤ

/-- Month 14 is the month of the document, and month 13 the one after or before it. -/
def shiftMonth (doc : CTime) (bMinus : Bool) (month year : ℤ) : ℤ × ℤ :=
  let month := if month = 14 then (doc.month : ℤ) else month
  if month = 13 then
    if bMinus then
      if (doc.month : ℤ) - 1 = 0 then (12, year + 1) else (doc.month - 1, year)
    else
      if 12 < (doc.month : ℤ) + 1 then (1, year + 1) else (doc.month + 1, year)
  else (month, year)

/-- The days up to a day of the week. -/
def daysToWeekDay (doc : CTime) (bMinus : Bool) (weekDay : ℤ) : ℤ :=
  let iW : ℤ := doc.getDayOfWeek
  if 0 < weekDay then
    if bMinus then if iW - weekDay ≥ 0 then iW - weekDay else 7 - weekDay + iW
    else if weekDay - iW ≥ 0 then weekDay - iW else 7 - iW + weekDay
  else 0

/-- The date that is a number of days away. -/
def shiftDays (bMinus : Bool) (days : ℤ) (base : DateFields) : Option DateFields :=
  if days ≠ 0 ∧ base.day ≠ 0 then
    (CTime.ofDate base.year base.month base.day 0 0 0).map fun t =>
      let t := t.addDays (if bMinus then -days else days)
      ⟨t.year, t.month, t.day⟩
  else some base

/-- The year, the month and the day of a floating date, the missing ones being those of `base`. -/
def exactFields (doc : CTime) (date : ℤ) (bPeriod : Bool) (base : DateFields) :
    Option DateFields :=
  let bMinus := decide (0 > date)
  let day : ℤ := getDay date
  let days : ℤ := getWeek date * 7 + daysToWeekDay doc bMinus (getWeekDay date)
  let month := (shiftMonth doc bMinus (getMonth date) (getYear date)).1
  let year := (shiftMonth doc bMinus (getMonth date) (getYear date)).2
  let onlyDay := 0 < day ∧ 0 = days ∧ 0 = month ∧ 0 = year ∧ base.day ≠ 0
  let days := if onlyDay then days + day else days
  let day := if onlyDay then 0 else day
  let year :=
    if bMinus ∧ bPeriod ∧ 0 = day ∧ 0 = days ∧ 0 < month ∧ 0 = year then year + 1 else year
  (shiftDays bMinus days base).map fun base =>
    ⟨if year = 0 then base.year else if bMinus then base.year - year else base.year + year,
      if month = 0 then base.month else month, if day = 0 then base.day else day⟩

/-- `FromString` of some characters of a number, which fails if there are none. -/
def subNumber (n : ℕ) (start count : ℕ) : Option ℤ :=
  match ((Nat.digits 10 n).reverse.drop start).take count with
  | [] => none
  | digits => some (digits.foldl (fun value digit => 10 * value + digit) 0 : ℕ)

/-- The date of the fields, after `CheckDate` and `CalculateYDif`. -/
def buildDate (date : ℤ) (f : DateFields) : Option CTimeLong := do
  let iHour ← subNumber date.natAbs 3 2
  let iMin ← subNumber date.natAbs 1 2
  let month := if f.month > 12 then 12 else if f.month < 0 then 0 else f.month
  let hour := if iHour < 0 then 0 else if iHour > 23 then 23 else iHour
  let min := if iMin < 0 then 0 else if iMin > 59 then 59 else iMin
  let day := if month = 0 then f.day
    else if f.day > maxDayNumInMonth month then maxDayNumInMonth month else f.day
  let y := CTimeLong.calculateYDif f.year
  let time ← CTime.ofDate y.1 month day hour min 0
  return ⟨time, y.2⟩

/-- `CalculateExactDate`: the date of the document, where there is none or something is thrown. -/
def calculateExactDate (doc : CTime) (date : ℤ) (bPeriod : Bool) (base : DateFields) : CTimeLong :=
  if 0 = date ∨ itselfInterp ≥ |date| ∨ 0 = doc.getTime then ⟨doc, 0⟩
  else ((exactFields doc date bPeriod base).bind (buildDate date)).getD ⟨doc, 0⟩

/-- `FloatingDateIntersection`. -/
def floatingDateIntersection (x y : ℤ) : Bool :=
  if itselfInterp > |x| ∨ itselfInterp > |y| then false
  else
    decide (((getHour x ≠ 0 ∨ getMinute x ≠ 0) ∧ (getHour y ≠ 0 ∨ getMinute y ≠ 0)) ∨
      (getDay x ≠ 0 ∧ getDay y ≠ 0) ∨ (getMonth x ≠ 0 ∧ getMonth y ≠ 0) ∨
      (getYear x ≠ 0 ∧ getYear y ≠ 0))

/-- The product in `MultiplyFloatingDate` without its sign, where it does not overflow. -/
def multipliedDate (doc : CTime) (negative : Bool) (coeff date : ℤ) : Option ℤ :=
  let fields := |date| - itselfInterp
  let rank := getRank fields.toNat
  if rank ≤ 5 ∧ rank > 3 then
    if 0 = fields - tenPow 13 3 then
      let res := if negative then (doc.month : ℤ) - |coeff| else doc.month + |coeff|
      if 12 < res then i64 (tenPow (res - 12) 3 + itselfInterp + 1)
      else if 0 > res then i64 (tenPow (12 + res) 3 + itselfInterp + 1)
      else if 0 = res then some (tenPow 1 3 + itselfInterp)
      else i64 (tenPow res 3 + itselfInterp)
    else (i64 (tenPow coeff 7)).bind fun shifted => i64 (|shifted| + |date|)
  else i64 (|coeff| * fields + itselfInterp)

/-- `MultiplyFloatingDate`. -/
def multiplyFloatingDate (doc : CTime) (coeff date : ℤ) : Option ℤ :=
  if getRank (|date| - itselfInterp).toNat = 11 then some date
  else
    let negative := decide (0 > coeff ∨ 0 > date)
    (multipliedDate doc negative coeff date).map fun res => if negative then -1 * res else res

/-- `CalculateFloatingDate`. -/
def calculateFloatingDate (doc : CTime) (x y : ℤ) : Option ℤ :=
  if x = -1 ∨ y = -1 then i64 (x * y)
  else if 0 = x ∨ 0 = y then i64 (x * y)
  else if itselfInterp < |x| ∧ itselfInterp < |y| then
    (i64 (|x| + |y| - itselfInterp)).map fun res => if 0 > x ∨ 0 > y then -1 * res else res
  else if itselfInterp > |x| ∧ itselfInterp > |y| then some itselfInterp
  else if itselfInterp < |x| then multiplyFloatingDate doc y x
  else if itselfInterp < |y| then multiplyFloatingDate doc x y
  else some x

/-- A number is pushed back if it is not there. -/
def pushNew (dates : List ℤ) (date : ℤ) : List ℤ :=
  if date ∈ dates then dates else dates ++ [date]

/-- A pair of dates in `MergeFloatingDates`. -/
def mergePair (doc : CTime) (bComplexPeriod : Bool) (res : List ℤ) (x y : ℤ) : Option (List ℤ) :=
  if floatingDateIntersection x y || bComplexPeriod then some (pushNew (pushNew res x) y)
  else
    (calculateFloatingDate doc x y).map fun date =>
      if itselfInterp = date then pushNew (pushNew res x) y
      else if 0 ≠ date then pushNew res date
      else res

/-- `MergeFloatingDates`. -/
def mergeFloatingDates (doc : CTime) (first second : List ℤ) (bComplexPeriod : Bool) :
    Option (List ℤ) :=
  if second = [] then some first
  else if first = [] then some second
  else
    (first.flatMap fun x => second.map fun y => (x, y)).foldlM
      (fun res xy => mergePair doc bComplexPeriod res xy.1 xy.2) []

end TomitaParser.Rusie
