import Mathlib.Data.Int.Notation
import TomitaParser.Lib.Machine
/-! # The fields of the dates of a text

`UniteDates` and `BuildDatesIntervals` go over the dates of a text from right to left and change
them in place. Each pass through one of their loops is a step here.
-/

namespace TomitaParser.Rus

/-- What the words of a text are for the dates. -/
structure DateText where
  isComma : ℕ → Bool
  isAndConj : ℕ → Bool
  hasPrepS : ℕ → Bool
  hasPrepDo : ℕ → Bool
  hasPrepPo : ℕ → Bool
  /-- `IsDay`, with the days that it reads. -/
  isDay : ℕ → Option (List ℤ)
  isMonth : ℕ → Option (List ℤ)
  isYear : ℕ → Option (List ℤ)

/-- `CDateGroup`. -/
structure DateGroup where
  day : List ℤ := []
  month : List ℤ := []
  year : List ℤ := []
  hour : List ℤ := []
  minute : List ℤ := []
  mainWord : ℤ := -1
  firstWord : ℕ := 0
  lastWord : ℕ := 0
  strIntervalDate : String := ""
deriving DecidableEq

namespace DateGroup

def isY (d : DateGroup) : Bool := !d.year.isEmpty && d.month.isEmpty && d.day.isEmpty

def isMY (d : DateGroup) : Bool := !d.year.isEmpty && !d.month.isEmpty && d.day.isEmpty

def isDMY (d : DateGroup) : Bool := !d.year.isEmpty && !d.month.isEmpty && !d.day.isEmpty

def isDM (d : DateGroup) : Bool := d.year.isEmpty && !d.month.isEmpty && !d.day.isEmpty

def isMH (d : DateGroup) : Bool := !d.hour.isEmpty && !d.minute.isEmpty

/-- The format `%02d`. -/
def twoDigits (n : ℤ) : String :=
  let s := toString n
  if s.length < 2 then "0" ++ s else s

def buildMYDate (d : DateGroup) : String :=
  if d.isMY then "!" ++ toString (d.year.headD 0) ++ twoDigits (d.month.headD 0) else ""

def buildDMDate (d : DateGroup) : String :=
  if d.isDM then "!0000" ++ twoDigits (d.month.headD 0) ++ twoDigits (d.day.headD 0) else ""

def buildYDate (d : DateGroup) : String :=
  if d.isY then "!" ++ toString (d.year.headD 0) else ""

def buildDMYDate (d : DateGroup) : String :=
  let year := toString (d.year.headD 0)
  if d.isDMY && year.length == 4 then
    "!" ++ year ++ twoDigits (d.month.headD 0) ++ twoDigits (d.day.headD 0)
  else ""

end DateGroup

variable (text : DateText)

/-- A comma or a conjunction. -/
def DateText.separates (w : ℕ) : Bool := text.isComma w || text.isAndConj w

/-- The values that are enumerated before a word, and the first word of the enumeration. -/
def enumerated (read : ℕ → Option (List ℤ)) : ℕ → List ℤ × ℕ
  | w + 2 =>
    if text.separates (w + 1) then
      match read w with
      | some values =>
        let rest := enumerated read w
        (values ++ rest.1, rest.2)
      | none => ([], w + 2)
    else ([], w + 2)
  | w => ([], w)

def findPrevMDates (date : DateGroup) : DateGroup :=
  { date with month := date.month ++ (enumerated text text.isMonth date.firstWord).1 }

def findPrevDDates (date : DateGroup) : DateGroup :=
  let days := enumerated text text.isDay date.firstWord
  { date with day := date.day ++ days.1, firstWord := days.2 }

/-- Two dates with "from" before the first one and "to" between them. -/
def DateText.spans (d1 d2 : DateGroup) : Bool :=
  d1.firstWord ≠ 0 && d1.lastWord + 2 = d2.firstWord && text.hasPrepS (d1.firstWord - 1) &&
    (text.hasPrepDo (d1.lastWord + 1) || text.hasPrepPo (d1.lastWord + 1))

/-- A part of a date with "from" before it and "to" after it, right before a date. -/
def DateText.partSpans (date : DateGroup) : Bool :=
  text.hasPrepS (date.firstWord - 3) &&
    (text.hasPrepDo (date.firstWord - 1) || text.hasPrepPo (date.firstWord - 1))

/-- `TryToBuildDMYDateInterval`, which changes the dates if it succeeds. -/
def tryToBuildDMYDateInterval (dates : List DateGroup) (i : ℕ) : Option (List DateGroup) :=
  if i = 0 then none
  else
    let d1 := dates.getD (i - 1) {}
    let d2 := dates.getD i {}
    if !d1.isDMY || !d2.isDMY || !text.spans d1 d2 then none
    else some (dates.modify i fun d => { d with strIntervalDate := d1.buildDMYDate })

/-- `TryToBuildDMDateInterval`. -/
def tryToBuildDMDateInterval (dates : List DateGroup) (i : ℕ) : Option (List DateGroup) :=
  if i = 0 then none
  else
    let d1 := dates.getD (i - 1) {}
    let d2 := dates.getD i {}
    if !text.spans d1 d2 then none
    else
      let d1 := { d1 with year := d2.year }
      let dates := dates.modify (i - 1) fun d => { d with year := d2.year }
      if d1.isDMY then
        some ((dates.modify i fun d => { d with strIntervalDate := d1.buildDMYDate }).modify (i - 1)
          fun d => { d with mainWord := d2.mainWord })
      else if d1.isDM then
        some (dates.modify i fun d => { d with strIntervalDate := d1.buildDMDate })
      else some dates

/-- `TryToBuildMDateInterval`: the dates, and the new one. -/
def tryToBuildMDateInterval (dates : List DateGroup) (i : ℕ) :
    Option (List DateGroup × DateGroup) :=
  let date := dates.getD i {}
  if date.firstWord < 3 then none
  else (text.isMonth (date.firstWord - 2)).bind fun month =>
    if !text.partSpans date then none
    else
      let newDate : DateGroup :=
        { month := month, year := date.year, mainWord := date.mainWord,
          firstWord := date.firstWord - 3, lastWord := date.firstWord - 1 }
      some (dates.modify i fun d => { d with strIntervalDate := newDate.buildMYDate }, newDate)

/-- `TryToBuildDDateInterval`. -/
def tryToBuildDDateInterval (dates : List DateGroup) (i : ℕ) :
    Option (List DateGroup × DateGroup) :=
  let date := dates.getD i {}
  if date.firstWord < 3 then none
  else (text.isDay (date.firstWord - 2)).bind fun day =>
    if !text.partSpans date then none
    else
      let newDate : DateGroup :=
        { day := day, month := date.month, year := date.year, mainWord := date.mainWord,
          firstWord := date.firstWord - 3, lastWord := date.firstWord - 1 }
      let strIntervalDate :=
        if newDate.isDMY then newDate.buildDMYDate
        else if date.isDM then newDate.buildDMDate
        else date.strIntervalDate
      some (dates.modify i fun d => { d with strIntervalDate := strIntervalDate }, newDate)

/-- `TryToBuildYDateInterval`. -/
def tryToBuildYDateInterval (dates : List DateGroup) (i : ℕ) :
    Option (List DateGroup × DateGroup) :=
  let date := dates.getD i {}
  if date.firstWord < 3 then none
  else (text.isYear (date.firstWord - 2)).bind fun year =>
    if !text.partSpans date then none
    else
      let newDate : DateGroup :=
        { year := year, mainWord := date.firstWord - 2,
          firstWord := date.firstWord - 3, lastWord := date.firstWord - 1 }
      some (dates.modify i fun d => { d with strIntervalDate := newDate.buildYDate }, newDate)

/-- The loop that is running, and how many dates it has left. -/
inductive Phase where
  | uniteDates (left : ℕ)
  /-- `FindPrevDMDates` for a main date. -/
  | findPrevDMDates (main left : ℕ)
  | buildDatesIntervals (left : ℕ)
  | done
deriving DecidableEq

structure DatesState where
  phase : Phase
  dates : List DateGroup
  newDates : List DateGroup := []

/-- The body of the loop of `UniteDates`. -/
def uniteDate (dates : List DateGroup) (i : ℕ) : DatesState :=
  let date := dates.getD i {}
  if date.isMH then ⟨.uniteDates i, dates, []⟩
  else if !date.year.isEmpty && !date.month.isEmpty then
    if date.day.isEmpty then ⟨.uniteDates i, dates.modify i (findPrevMDates text), []⟩
    else ⟨.findPrevDMDates i i, dates.modify i (findPrevDDates text), []⟩
  else if !date.month.isEmpty && !date.day.isEmpty then
    ⟨.uniteDates i, dates.modify i (findPrevDDates text), []⟩
  else ⟨.uniteDates i, dates, []⟩

/-- The body of the loop of `FindPrevDMDates`, for the date before `i + 1`. -/
def findPrevDMDate (dates : List DateGroup) (main i : ℕ) : DatesState :=
  let dates := dates.modify i (findPrevDDates text)
  let prevDate := dates.getD (i + 1) {}
  let date := dates.getD i {}
  if prevDate.firstWord < 3 || !text.separates (prevDate.firstWord - 1) then
    ⟨.uniteDates main, dates, []⟩
  else if date.lastWord + 2 ≠ prevDate.firstWord ||
      !(date.year.isEmpty && !date.day.isEmpty && !date.month.isEmpty) then
    ⟨.uniteDates main, dates, []⟩
  else
    let mainDate := dates.getD main {}
    ⟨.findPrevDMDates main i, dates.modify i fun d =>
      { d with year := d.year ++ mainDate.year, mainWord := prevDate.mainWord }, []⟩

/-- A new date is added if its interval is there. -/
def addInterval (dates newDates : List DateGroup) (r : Option (List DateGroup × DateGroup)) :
    List DateGroup × List DateGroup :=
  match r with
  | some (dates, newDate) => (dates, newDates ++ [newDate])
  | none => (dates, newDates)

/-- The body of the loop of `BuildDatesIntervals`. -/
def buildDateInterval (dates newDates : List DateGroup) (i : ℕ) : List DateGroup × List DateGroup :=
  let date := dates.getD i {}
  if date.isMY then addInterval dates newDates (tryToBuildMDateInterval text dates i)
  else if date.isY then addInterval dates newDates (tryToBuildYDateInterval text dates i)
  else if date.isDMY then
    match tryToBuildDMYDateInterval text dates i with
    | some dates => (dates, newDates)
    | none =>
      match tryToBuildDMDateInterval text dates i with
      | some dates => (dates, newDates)
      | none => addInterval dates newDates (tryToBuildDDateInterval text dates i)
  else if date.isDM then
    match tryToBuildDMDateInterval text dates i with
    | some dates => (dates, newDates)
    | none => addInterval dates newDates (tryToBuildDDateInterval text dates i)
  else (dates, newDates)

/-- One pass of a loop. The new dates are added, and all are sorted, after the last one. -/
def datesStep (s : DatesState) : DatesState :=
  match s.phase with
  | .uniteDates 0 => { s with phase := .buildDatesIntervals s.dates.length }
  | .uniteDates (i + 1) => uniteDate text s.dates i
  | .findPrevDMDates main 0 => { s with phase := .uniteDates main }
  | .findPrevDMDates main (i + 1) => findPrevDMDate text s.dates main i
  | .buildDatesIntervals 0 => { s with phase := .done }
  | .buildDatesIntervals (i + 1) =>
    let r := buildDateInterval text s.dates s.newDates i
    ⟨.buildDatesIntervals i, r.1, r.2⟩
  | .done => s

/-- The dates of a text before its loops. -/
def datesStart (own : List DateGroup) : DatesState := ⟨.uniteDates own.length, own, []⟩

/-- What a date may become: more days and months if it has a month, and a year if it has none. -/
structure OnlyAdds (own date : DateGroup) : Prop where
  day : ∃ added, date.day = own.day ++ added ∧ (own.month = [] → added = [])
  month : ∃ added, date.month = own.month ++ added ∧ (own.month = [] → added = [])
  year : date.year = own.year ∨ own.year = []

/-- Every date has the values of its own words still. -/
structure DatesAdd (own dates : List DateGroup) : Prop where
  length : dates.length = own.length
  adds : ∀ (i : ℕ) d d', own[i]? = some d → dates[i]? = some d' → OnlyAdds d d'

/-- The dates keep their fields, and a new date with a day has a month. -/
structure FieldsSurvive (own : List DateGroup) (s : DatesState) : Prop where
  adds : DatesAdd own s.dates
  new : ∀ d ∈ s.newDates, d.day ≠ [] → d.month ≠ []

/-- `TryToBuildDMDateInterval` sets the year of the date before the date `i + 1`. -/
def SetsYear (dates : List DateGroup) (i : ℕ) : Prop :=
  let d1 := dates.getD i {}
  let d2 := dates.getD (i + 1) {}
  text.spans d1 d2 = true ∧ (d2.isDM = true ∨ d2.isDMY = true ∧ ¬ d1.isDMY = true)

/-- The condition of a pass: no days are enumerated before a date without a month that comes before
a full date, and no year is replaced by another one. -/
def PassOk (own : List DateGroup) (s : DatesState) : Prop :=
  match s.phase with
  | .findPrevDMDates _ (i + 1) => ∀ d, s.dates[i]? = some d → d.month = [] →
    (enumerated text text.isDay d.firstWord).1 = []
  | .buildDatesIntervals (i + 2) => SetsYear text s.dates i → ∀ d, own[i]? = some d →
    d.year = [] ∨ d.year = (s.dates.getD (i + 1) {}).year
  | _ => True

namespace OnlyAdds
variable {own date : DateGroup}

theorem refl (own : DateGroup) : OnlyAdds own own :=
  ⟨⟨[], by simp, fun _ => rfl⟩, ⟨[], by simp, fun _ => rfl⟩, Or.inl rfl⟩

theorem month_eq_nil_iff (h : OnlyAdds own date) : date.month = [] ↔ own.month = [] := by
  obtain ⟨added, hmonth, hnone⟩ := h.month
  rw [hmonth, List.append_eq_nil_iff]
  exact ⟨fun h => h.1, fun h => ⟨h, hnone h⟩⟩

theorem own_year_eq_nil (h : OnlyAdds own date) (hyear : date.year = []) : own.year = [] := by
  obtain heq | hnil := h.year
  · rw [← heq, hyear]
  · exact hnil

theorem addDays_iff {text : DateText} (h : OnlyAdds own date) :
    OnlyAdds own (findPrevDDates text date) ↔
      (date.month = [] → (enumerated text text.isDay date.firstWord).1 = []) := by
  obtain ⟨added, hday, hnone⟩ := h.day
  rw [h.month_eq_nil_iff]
  constructor
  · intro h' hmonth
    obtain ⟨added', hday', hnone'⟩ := h'.day
    simp only [findPrevDDates, hday, hnone hmonth, hnone' hmonth, List.append_nil] at hday'
    simpa using hday'
  · intro hdays
    refine ⟨⟨added ++ (enumerated text text.isDay date.firstWord).1, ?_, ?_⟩, h.month, h.year⟩
    · simp only [findPrevDDates, hday, List.append_assoc]
    · intro hmonth
      rw [hnone hmonth, hdays hmonth, List.append_nil]

theorem addMonths {text : DateText} (h : OnlyAdds own date) (hmonth : date.month ≠ []) :
    OnlyAdds own (findPrevMDates text date) := by
  obtain ⟨added, hadded, hnone⟩ := h.month
  refine ⟨h.day, ⟨added ++ (enumerated text text.isMonth date.firstWord).1, ?_, ?_⟩, h.year⟩
  · simp only [findPrevMDates, hadded, List.append_assoc]
  · intro hown
    exact absurd (h.month_eq_nil_iff.mpr hown) hmonth

theorem setYear_iff (h : OnlyAdds own date) (year : List ℤ) :
    OnlyAdds own { date with year := year } ↔ year = own.year ∨ own.year = [] :=
  ⟨fun h' => h'.year, fun hyear => ⟨h.day, h.month, hyear⟩⟩

theorem congr {date' : DateGroup} (h : OnlyAdds own date) (hday : date'.day = date.day)
    (hmonth : date'.month = date.month) (hyear : date'.year = date.year) : OnlyAdds own date' := by
  refine ⟨?_, ?_, ?_⟩
  · rw [hday]
    exact h.day
  · rw [hmonth]
    exact h.month
  · rw [hyear]
    exact h.year

end OnlyAdds

namespace DatesAdd
variable {text : DateText} {own dates : List DateGroup}

theorem modify_iff (h : DatesAdd own dates) (i : ℕ) (f : DateGroup → DateGroup) :
    DatesAdd own (dates.modify i f) ↔
      ∀ d d', own[i]? = some d → dates[i]? = some d' → OnlyAdds d (f d') := by
  constructor
  · intro h' d d' hd hd'
    exact h'.adds i d (f d') hd (by rw [List.getElem?_modify_eq, hd']; rfl)
  · intro h'
    refine ⟨by rw [List.length_modify, h.length], ?_⟩
    intro j d d' hd hd'
    rw [List.getElem?_modify] at hd'
    obtain ⟨d₀, hd₀, rfl⟩ := Option.map_eq_some_iff.mp hd'
    split_ifs with hij
    · subst hij
      exact h' d d₀ hd hd₀
    · exact h.adds j d d₀ hd hd₀

theorem modify_congr {i : ℕ} {f : DateGroup → DateGroup}
    (hsame : ∀ d d', own[i]? = some d → dates[i]? = some d' →
      (OnlyAdds d (f d') ↔ OnlyAdds d d')) :
    DatesAdd own (dates.modify i f) ↔ DatesAdd own dates := by
  constructor
  · intro h
    refine ⟨by rw [← h.length, List.length_modify], ?_⟩
    intro j d d' hd hd'
    have hj := h.adds j d (if i = j then f d' else d') hd (by
      rw [List.getElem?_modify, hd']
      rfl)
    split_ifs at hj with hij
    · subst hij
      exact (hsame d d' hd hd').mp hj
    · exact hj
  · intro h
    rw [h.modify_iff]
    exact fun d d' hd hd' => (hsame d d' hd hd').mpr (h.adds i d d' hd hd')

theorem modify_other {f : DateGroup → DateGroup} (hday : ∀ d, (f d).day = d.day)
    (hmonth : ∀ d, (f d).month = d.month) (hyear : ∀ d, (f d).year = d.year) (i : ℕ) :
    DatesAdd own (dates.modify i f) ↔ DatesAdd own dates := by
  apply modify_congr
  intro d d' _ _
  constructor
  · exact fun h => h.congr (hday d').symm (hmonth d').symm (hyear d').symm
  · exact fun h => h.congr (hday d') (hmonth d') (hyear d')

theorem setIntervalDate {i : ℕ} {str : String} :
    DatesAdd own (dates.modify i fun d => { d with strIntervalDate := str }) ↔
      DatesAdd own dates := by
  apply modify_other <;> intro d <;> rfl

theorem setMainWord {i : ℕ} {w : ℤ} :
    DatesAdd own (dates.modify i fun d => { d with mainWord := w }) ↔ DatesAdd own dates := by
  apply modify_other <;> intro d <;> rfl

theorem getElem?_own (h : DatesAdd own dates) {i : ℕ} {d' : DateGroup} (hd' : dates[i]? = some d') :
    ∃ d, own[i]? = some d := by
  have hi := (List.getElem?_eq_some_iff.mp hd').1
  rw [h.length] at hi
  exact ⟨own[i], List.getElem?_eq_getElem hi⟩

theorem findPrevMDates (h : DatesAdd own dates) {i : ℕ} (hmonth : (dates.getD i {}).month ≠ []) :
    DatesAdd own (dates.modify i (findPrevMDates text)) := by
  rw [h.modify_iff]
  intro d d' hd hd'
  rw [List.getD_eq_getElem?_getD, hd', Option.getD_some] at hmonth
  exact (h.adds i d d' hd hd').addMonths hmonth

theorem findPrevDDates (h : DatesAdd own dates) {i : ℕ} (hmonth : (dates.getD i {}).month ≠ []) :
    DatesAdd own (dates.modify i (findPrevDDates text)) := by
  rw [h.modify_iff]
  intro d d' hd hd'
  rw [List.getD_eq_getElem?_getD, hd', Option.getD_some] at hmonth
  exact (h.adds i d d' hd hd').addDays_iff.mpr fun hnil => absurd hnil hmonth

end DatesAdd

section Passes
variable {text : DateText} {own dates newDates : List DateGroup}

theorem uniteDate_adds (h : DatesAdd own dates) (i : ℕ) :
    DatesAdd own (uniteDate text dates i).dates ∧ (uniteDate text dates i).newDates = [] := by
  simp only [uniteDate]
  split_ifs with hmh hfull hday hdm
  · exact ⟨h, rfl⟩
  · exact ⟨h.findPrevMDates (by simp_all), rfl⟩
  · exact ⟨h.findPrevDDates (by simp_all), rfl⟩
  · exact ⟨h.findPrevDDates (by simp_all), rfl⟩
  · exact ⟨h, rfl⟩

theorem findPrevDMDate_adds_iff (h : DatesAdd own dates) (main i : ℕ) :
    DatesAdd own (findPrevDMDate text dates main i).dates ↔ ∀ d, dates[i]? = some d →
      d.month = [] → (enumerated text text.isDay d.firstWord).1 = [] := by
  have hdays : DatesAdd own (dates.modify i (findPrevDDates text)) ↔ ∀ d, dates[i]? = some d →
      d.month = [] → (enumerated text text.isDay d.firstWord).1 = [] := by
    rw [h.modify_iff]
    constructor
    · intro h' d' hd'
      obtain ⟨d, hd⟩ := h.getElem?_own hd'
      exact (h.adds i d d' hd hd').addDays_iff.mp (h' d d' hd hd')
    · intro h' d d' hd hd'
      exact (h.adds i d d' hd hd').addDays_iff.mpr (h' d' hd')
  simp only [findPrevDMDate]
  split_ifs with hword hnext
  · exact hdays
  · exact hdays
  · -- the year goes to a date that has none
    rw [← hdays]
    apply DatesAdd.modify_congr
    intro d d' hd hd'
    rw [List.getD_eq_getElem?_getD, hd', Option.getD_some] at hnext
    have hyear : d'.year = [] := by
      by_contra hne
      exact hnext (by simp [hne])
    rw [List.getElem?_modify_eq] at hd'
    obtain ⟨d₀, hd₀, rfl⟩ := Option.map_eq_some_iff.mp hd'
    have hown : d.year = [] := (h.adds i d d₀ hd hd₀).own_year_eq_nil hyear
    constructor
    · exact fun h' => ⟨h'.day, h'.month, Or.inr hown⟩
    · exact fun h' => ⟨h'.day, h'.month, Or.inr hown⟩

theorem addInterval_survives (h : DatesAdd own dates)
    (hnew : ∀ d ∈ newDates, d.day ≠ [] → d.month ≠ []) {i : ℕ}
    {r : Option (List DateGroup × DateGroup)}
    (hr : ∀ dates' newDate, r = some (dates', newDate) →
      (∃ str, dates' = dates.modify i fun d => { d with strIntervalDate := str }) ∧
        (newDate.day ≠ [] → newDate.month ≠ [])) :
    DatesAdd own (addInterval dates newDates r).1 ∧
      ∀ d ∈ (addInterval dates newDates r).2, d.day ≠ [] → d.month ≠ [] := by
  cases r with
  | none => exact ⟨h, hnew⟩
  | some r =>
    obtain ⟨⟨str, hdates⟩, hdate⟩ := hr r.1 r.2 rfl
    refine ⟨?_, ?_⟩
    · rw [addInterval, hdates]
      exact DatesAdd.setIntervalDate.mpr h
    · simp only [addInterval, List.mem_append, List.mem_singleton]
      intro d hd
      obtain hd | rfl := hd
      · exact hnew d hd
      · exact hdate

theorem of_tryToBuildMDateInterval {i : ℕ} {dates' : List DateGroup} {newDate : DateGroup}
    (h : tryToBuildMDateInterval text dates i = some (dates', newDate)) :
    (∃ str, dates' = dates.modify i fun d => { d with strIntervalDate := str }) ∧
      (newDate.day ≠ [] → newDate.month ≠ []) := by
  simp only [tryToBuildMDateInterval] at h
  by_cases hword : (dates.getD i {}).firstWord < 3
  · rw [if_pos hword] at h
    exact absurd h (by simp)
  rw [if_neg hword] at h
  obtain ⟨month, -, h⟩ := Option.bind_eq_some_iff.mp h
  split_ifs at h
  rw [Option.some.injEq, Prod.mk.injEq] at h
  obtain ⟨rfl, rfl⟩ := h
  exact ⟨⟨_, rfl⟩, fun hday => absurd rfl hday⟩

theorem of_tryToBuildYDateInterval {i : ℕ} {dates' : List DateGroup} {newDate : DateGroup}
    (h : tryToBuildYDateInterval text dates i = some (dates', newDate)) :
    (∃ str, dates' = dates.modify i fun d => { d with strIntervalDate := str }) ∧
      (newDate.day ≠ [] → newDate.month ≠ []) := by
  simp only [tryToBuildYDateInterval] at h
  by_cases hword : (dates.getD i {}).firstWord < 3
  · rw [if_pos hword] at h
    exact absurd h (by simp)
  rw [if_neg hword] at h
  obtain ⟨year, -, h⟩ := Option.bind_eq_some_iff.mp h
  split_ifs at h
  rw [Option.some.injEq, Prod.mk.injEq] at h
  obtain ⟨rfl, rfl⟩ := h
  exact ⟨⟨_, rfl⟩, fun hday => absurd rfl hday⟩

theorem of_tryToBuildDDateInterval {i : ℕ} (hmonth : (dates.getD i {}).month ≠ [])
    {dates' : List DateGroup} {newDate : DateGroup}
    (h : tryToBuildDDateInterval text dates i = some (dates', newDate)) :
    (∃ str, dates' = dates.modify i fun d => { d with strIntervalDate := str }) ∧
      (newDate.day ≠ [] → newDate.month ≠ []) := by
  simp only [tryToBuildDDateInterval] at h
  by_cases hword : (dates.getD i {}).firstWord < 3
  · rw [if_pos hword] at h
    exact absurd h (by simp)
  rw [if_neg hword] at h
  obtain ⟨day, -, h⟩ := Option.bind_eq_some_iff.mp h
  split_ifs at h
  all_goals
    rw [Option.some.injEq, Prod.mk.injEq] at h
    obtain ⟨rfl, rfl⟩ := h
    exact ⟨⟨_, rfl⟩, fun _ => hmonth⟩

theorem tryToBuildDMYDateInterval_adds (h : DatesAdd own dates) {i : ℕ} {dates' : List DateGroup}
    (hdates : tryToBuildDMYDateInterval text dates i = some dates') : DatesAdd own dates' := by
  simp only [tryToBuildDMYDateInterval] at hdates
  split_ifs at hdates
  rw [← Option.some.inj hdates]
  exact DatesAdd.setIntervalDate.mpr h

theorem tryToBuildDMYDateInterval_eq_none {i : ℕ} :
    tryToBuildDMYDateInterval text dates (i + 1) = none ↔
      ¬ ((dates.getD i {}).isDMY = true ∧ (dates.getD (i + 1) {}).isDMY = true ∧
        text.spans (dates.getD i {}) (dates.getD (i + 1) {}) = true) := by
  rw [tryToBuildDMYDateInterval, if_neg (Nat.succ_ne_zero i)]
  simp only [Nat.add_sub_cancel]
  cases (dates.getD i {}).isDMY <;> cases (dates.getD (i + 1) {}).isDMY <;>
    cases text.spans (dates.getD i {}) (dates.getD (i + 1) {}) <;> simp

theorem tryToBuildDMDateInterval_eq_none {i : ℕ} :
    tryToBuildDMDateInterval text dates (i + 1) = none ↔
      text.spans (dates.getD i {}) (dates.getD (i + 1) {}) = false := by
  rw [tryToBuildDMDateInterval, if_neg (Nat.succ_ne_zero i)]
  simp only [Nat.add_sub_cancel]
  split_ifs with h <;> simpa using h

theorem tryToBuildDMDateInterval_adds_iff (h : DatesAdd own dates) {i : ℕ}
    {dates' : List DateGroup} (hdates : tryToBuildDMDateInterval text dates (i + 1) = some dates') :
    DatesAdd own dates' ↔ ∀ d, own[i]? = some d →
      d.year = [] ∨ d.year = (dates.getD (i + 1) {}).year := by
  have hyear : DatesAdd own (dates.modify i fun d =>
      { d with year := (dates.getD (i + 1) {}).year }) ↔ ∀ d, own[i]? = some d →
      d.year = [] ∨ d.year = (dates.getD (i + 1) {}).year := by
    rw [h.modify_iff]
    constructor
    · intro h' d hd
      have hi := (List.getElem?_eq_some_iff.mp hd).1
      rw [← h.length] at hi
      have hd' := List.getElem?_eq_getElem hi
      have := ((h.adds i d _ hd hd').setYear_iff _).mp (h' d _ hd hd')
      exact this.symm.imp_right Eq.symm
    · intro h' d d' hd hd'
      rw [(h.adds i d d' hd hd').setYear_iff]
      exact (h' d hd).symm.imp_left Eq.symm
  rw [← hyear]
  rw [tryToBuildDMDateInterval, if_neg (Nat.succ_ne_zero i)] at hdates
  simp only [Nat.add_sub_cancel] at hdates
  split_ifs at hdates
  · rw [← Option.some.inj hdates]
    exact DatesAdd.setMainWord.trans DatesAdd.setIntervalDate
  · rw [← Option.some.inj hdates]
    exact DatesAdd.setIntervalDate
  · rw [← Option.some.inj hdates]

theorem passOk_of_not_setsYear {i : ℕ}
    (h : ∀ j, i = j + 1 → ¬ SetsYear text dates j) :
    PassOk text own ⟨.buildDatesIntervals (i + 1), dates, newDates⟩ := by
  cases i with
  | zero => trivial
  | succ j => exact fun hsets => absurd hsets (h j rfl)

theorem not_setsYear {i j : ℕ} (hij : i = j + 1) (hdm : (dates.getD i {}).isDM = false)
    (hdmy : (dates.getD i {}).isDMY = false) : ¬ SetsYear text dates j := by
  subst hij
  intro hsets
  obtain ⟨-, hdm' | hdmy'⟩ := hsets
  · exact absurd hdm' (by simp only [hdm, Bool.false_eq_true, not_false_eq_true])
  · exact absurd hdmy'.1 (by simp only [hdmy, Bool.false_eq_true, not_false_eq_true])

theorem isDM_eq_false_of_isDMY {d : DateGroup} (h : d.isDMY = true) : d.isDM = false := by
  simp_all [DateGroup.isDMY, DateGroup.isDM]

/-- The interval of two dates, or of a day and a date. -/
def dmOrDInterval (text : DateText) (dates newDates : List DateGroup) (i : ℕ) :
    List DateGroup × List DateGroup :=
  match tryToBuildDMDateInterval text dates i with
  | some dates => (dates, newDates)
  | none => addInterval dates newDates (tryToBuildDDateInterval text dates i)

theorem dmOrDInterval_survives_iff (h : DatesAdd own dates)
    (hnew : ∀ d ∈ newDates, d.day ≠ [] → d.month ≠ []) (i : ℕ)
    (hmonth : (dates.getD i {}).month ≠ [])
    (hsets : ∀ j, i = j + 1 → (SetsYear text dates j ↔
      text.spans (dates.getD j {}) (dates.getD (j + 1) {}) = true)) :
    (DatesAdd own (dmOrDInterval text dates newDates i).1 ∧
      ∀ d ∈ (dmOrDInterval text dates newDates i).2, d.day ≠ [] → d.month ≠ []) ↔
      PassOk text own ⟨.buildDatesIntervals (i + 1), dates, newDates⟩ := by
  rw [dmOrDInterval]
  have hlast := addInterval_survives h hnew fun dates' newDate =>
    @of_tryToBuildDDateInterval text dates i hmonth dates' newDate
  cases i with
  | zero => exact iff_of_true hlast trivial
  | succ j =>
    have hok : PassOk text own ⟨.buildDatesIntervals (j + 2), dates, newDates⟩ ↔
        (text.spans (dates.getD j {}) (dates.getD (j + 1) {}) = true → ∀ d, own[j]? = some d →
          d.year = [] ∨ d.year = (dates.getD (j + 1) {}).year) := by
      rw [← hsets j rfl]
      rfl
    rw [hok]
    cases hdm : tryToBuildDMDateInterval text dates (j + 1) with
    | none =>
      rw [tryToBuildDMDateInterval_eq_none] at hdm
      exact iff_of_true hlast fun hspans => absurd (hspans.symm.trans hdm) (by simp)
    | some dates' =>
      have hspans : text.spans (dates.getD j {}) (dates.getD (j + 1) {}) = true := by
        by_contra hfalse
        rw [Bool.not_eq_true, ← tryToBuildDMDateInterval_eq_none, hdm] at hfalse
        exact absurd hfalse (by simp)
      rw [← tryToBuildDMDateInterval_adds_iff h hdm]
      constructor
      · exact fun h' _ => h'.1
      · exact fun h' => ⟨h' hspans, hnew⟩

/-- A pass for an interval survives exactly if the year that it sets is no other one. -/
theorem buildDateInterval_survives_iff (h : DatesAdd own dates)
    (hnew : ∀ d ∈ newDates, d.day ≠ [] → d.month ≠ []) (i : ℕ) :
    (DatesAdd own (buildDateInterval text dates newDates i).1 ∧
      ∀ d ∈ (buildDateInterval text dates newDates i).2, d.day ≠ [] → d.month ≠ []) ↔
      PassOk text own ⟨.buildDatesIntervals (i + 1), dates, newDates⟩ := by
  have hmatch : buildDateInterval text dates newDates i =
      if (dates.getD i {}).isMY then
        addInterval dates newDates (tryToBuildMDateInterval text dates i)
      else if (dates.getD i {}).isY then
        addInterval dates newDates (tryToBuildYDateInterval text dates i)
      else if (dates.getD i {}).isDMY then
        ((tryToBuildDMYDateInterval text dates i).map fun dates => (dates, newDates)).getD
          (dmOrDInterval text dates newDates i)
      else if (dates.getD i {}).isDM then dmOrDInterval text dates newDates i
      else (dates, newDates) := by
    rw [buildDateInterval]
    cases tryToBuildDMYDateInterval text dates i <;> rfl
  rw [hmatch]
  split_ifs with hmy hy hdmy hdm
  · refine iff_of_true (addInterval_survives h hnew fun dates' newDate =>
      of_tryToBuildMDateInterval) (passOk_of_not_setsYear fun j hj => not_setsYear hj ?_ ?_)
    · simp_all [DateGroup.isMY, DateGroup.isDM]
    · simp_all [DateGroup.isMY, DateGroup.isDMY]
  · refine iff_of_true (addInterval_survives h hnew fun dates' newDate =>
      of_tryToBuildYDateInterval) (passOk_of_not_setsYear fun j hj => not_setsYear hj ?_ ?_)
    · simp_all [DateGroup.isY, DateGroup.isDM]
    · simp_all [DateGroup.isY, DateGroup.isDMY]
  · have hnotdm := isDM_eq_false_of_isDMY hdmy
    have hmonth : (dates.getD i {}).month ≠ [] := by
      simp_all [DateGroup.isDMY]
    cases hdmyInterval : tryToBuildDMYDateInterval text dates i with
    | some dates' =>
      refine iff_of_true ⟨tryToBuildDMYDateInterval_adds h hdmyInterval, hnew⟩
        (passOk_of_not_setsYear fun j hj hsets => ?_)
      subst hj
      have hne : tryToBuildDMYDateInterval text dates (j + 1) ≠ none := by simp [hdmyInterval]
      rw [Ne, tryToBuildDMYDateInterval_eq_none, not_not] at hne
      obtain ⟨-, hdm' | hdmy'⟩ := hsets
      · rw [hnotdm] at hdm'
        exact absurd hdm' (by simp)
      · exact hdmy'.2 hne.1
    | none =>
      refine dmOrDInterval_survives_iff h hnew i hmonth fun j hj => ?_
      subst hj
      rw [tryToBuildDMYDateInterval_eq_none] at hdmyInterval
      constructor
      · exact fun hsets => hsets.1
      · exact fun hspans => ⟨hspans, Or.inr ⟨hdmy, fun hfull =>
          hdmyInterval ⟨hfull, hdmy, hspans⟩⟩⟩
  · refine dmOrDInterval_survives_iff h hnew i (by simp_all [DateGroup.isDM]) fun j hj => ?_
    subst hj
    constructor
    · exact fun hsets => hsets.1
    · exact fun hspans => ⟨hspans, Or.inl hdm⟩
  · refine iff_of_true ⟨h, hnew⟩ (passOk_of_not_setsYear fun j hj => not_setsYear hj ?_ ?_)
    · simpa using hdm
    · simpa using hdmy

/-- What a pass keeps. -/
theorem datesStep_survives_iff (s : DatesState) (h : FieldsSurvive own s) :
    FieldsSurvive own (datesStep text s) ↔ PassOk text own s := by
  obtain ⟨phase, dates, newDates⟩ := s
  obtain ⟨hadds, hnew⟩ := h
  have hsame : ∀ phase, FieldsSurvive own ⟨phase, dates, newDates⟩ := fun _ => ⟨hadds, hnew⟩
  have hempty : ∀ d ∈ ([] : List DateGroup), d.day ≠ [] → d.month ≠ [] := by simp
  cases phase with
  | uniteDates left =>
    cases left with
    | zero => exact iff_of_true (hsame _) trivial
    | succ i =>
      obtain ⟨hunite, hnone⟩ := @uniteDate_adds text own dates hadds i
      exact iff_of_true ⟨hunite, by rw [datesStep, hnone]; exact hempty⟩ trivial
  | findPrevDMDates main left =>
    cases left with
    | zero => exact iff_of_true (hsame _) trivial
    | succ i =>
      have hnone : (findPrevDMDate text dates main i).newDates = [] := by
        simp only [findPrevDMDate]
        split_ifs <;> rfl
      have hdates := @findPrevDMDate_adds_iff text own dates hadds main i
      constructor
      · exact fun h => hdates.mp h.adds
      · exact fun h => ⟨hdates.mpr h, by rw [datesStep, hnone]; exact hempty⟩
  | buildDatesIntervals left =>
    cases left with
    | zero => exact iff_of_true (hsame _) trivial
    | succ i =>
      rw [← buildDateInterval_survives_iff hadds hnew i]
      exact ⟨fun h => ⟨h.adds, h.new⟩, fun h => ⟨h.1, h.2⟩⟩
  | done => exact iff_of_true (hsame _) trivial

end Passes

/-- In a run over the dates of a text, the values of the dates survive in every state exactly if
every pass meets its condition. -/
theorem fields_survive_iff (own : List DateGroup) :
    (∀ n, FieldsSurvive own ((datesStep text)^[n] (datesStart own))) ↔
      ∀ n, PassOk text own ((datesStep text)^[n] (datesStart own)) := by
  apply Machine.forall_iterate_iff
  · refine ⟨⟨rfl, ?_⟩, by simp [datesStart]⟩
    intro i d d' hd hd'
    rw [Option.some.inj (hd.symm.trans hd')]
    exact OnlyAdds.refl d'
  · exact datesStep_survives_iff

/-- The words of "from 5 May 1990 to 25.06". -/
def mayToJune : DateText where
  isComma _ := false
  isAndConj _ := false
  hasPrepS w := w == 0
  hasPrepDo w := w == 4
  hasPrepPo _ := false
  isDay w := if w = 1 then some [5] else none
  isMonth w := if w = 2 then some [5] else none
  isYear w := if w = 3 then some [1990] else if w = 1 then some [2005] else none

/-- The year of the first date is lost, since the second date has none. -/
theorem mayToJune_year_lost :
    let own : List DateGroup :=
      [{ day := [5], month := [5], year := [1990], mainWord := 3, firstWord := 1, lastWord := 3 },
        { day := [25], month := [6], firstWord := 5, lastWord := 5 }]
    ((datesStep mayToJune)^[7] (datesStart own)).phase = .done ∧
      ¬ FieldsSurvive own ((datesStep mayToJune)^[7] (datesStart own)) := by
  refine ⟨by decide, ?_⟩
  intro h
  obtain hyear | hyear := (h.adds.adds 0 _ _ rfl rfl).year
  · exact absurd hyear (by decide)
  · exact absurd hyear (by decide)

end TomitaParser.Rus
