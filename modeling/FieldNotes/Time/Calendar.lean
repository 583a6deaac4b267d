/-! # The calendar

Dates of the Gregorian calendar, extended to all years, year 0 being the one before year 1.  A date
is the number of its day, the first day of 1970 being day 0; year, month, week and so on are
computed from that.  Weekdays are numbered from 0 for Monday.

* `Date.ofYearDay?`, `Date.ofMonthDay?` and `Date.ofIsoWeek?` give the day that a description names,
  if it names one.
* `daysBeforeYear_succ`: a year takes up 366 days if it is a leap year and 365 otherwise.
-/

namespace FieldNotes

/-- Whether a year has a 29th of February. -/
def isLeapYear (y : Int) : Bool :=
  decide (y % 4 = 0 ∧ (y % 100 ≠ 0 ∨ y % 400 = 0))

/-- The number of days in a year. -/
def daysInYear (y : Int) : Nat :=
  if isLeapYear y then 366 else 365

/-- The lengths of the months of a year. -/
def monthLengths (y : Int) : List Nat :=
  [31, if isLeapYear y then 29 else 28, 31, 30, 31, 30, 31, 31, 30, 31, 30, 31]

/-- The number of days from the start of year 1 to the start of a year. -/
def daysBeforeYear (y : Int) : Int :=
  let p := y - 1
  365 * p + p / 4 - p / 100 + p / 400

theorem daysBeforeYear_succ (y : Int) :
    daysBeforeYear (y + 1) = daysBeforeYear y + daysInYear y := by
  by_cases h : y % 4 = 0 ∧ (y % 100 ≠ 0 ∨ y % 400 = 0)
  · have hdays : daysInYear y = 366 := if_pos (decide_eq_true h)
    rw [hdays]
    simp only [daysBeforeYear]
    omega
  · have hdays : daysInYear y = 365 := if_neg (by simpa [isLeapYear] using h)
    rw [hdays]
    simp only [daysBeforeYear]
    omega

/-- The number of days from the start of year 1 to the start of 1970. -/
def epochDay : Int := 719162

/-- The first and the last year that dates may be in. -/
def firstYear : Int := -262143

def lastYear : Int := 262142

/-- A date, by the number of its day. -/
structure Date where
  day : Int
  deriving DecidableEq, Repr

namespace Date

/-- The year of a date, and how many days of it have gone before. -/
def yearAndOffset (d : Date) : Int × Nat :=
  let n := d.day + epochDay
  let r := (n % 146097).toNat
  let centuries := min (r / 36524) 3
  let r := r - centuries * 36524
  let fours := r / 1461
  let r := r % 1461
  let years := min (r / 365) 3
  (n / 146097 * 400 + centuries * 100 + fours * 4 + years + 1, r - years * 365)

def year (d : Date) : Int :=
  d.yearAndOffset.1

/-- The day of the year, from 1. -/
def yearDay (d : Date) : Nat :=
  d.yearAndOffset.2 + 1

/-- Which of the months of these lengths a day is in, from 1, and which day of it, from 1. -/
def inMonths (month offset : Nat) : List Nat → Nat × Nat
  | [] => (month, offset + 1)
  | n :: rest => if offset < n then (month, offset + 1) else inMonths (month + 1) (offset - n) rest

/-- The month, from 1, and the day of the month, from 1. -/
def monthAndDay (d : Date) : Nat × Nat :=
  inMonths 1 d.yearAndOffset.2 (monthLengths d.year)

def month (d : Date) : Nat :=
  d.monthAndDay.1

def monthDay (d : Date) : Nat :=
  d.monthAndDay.2

/-- The quarter of the year, from 1. -/
def quarter (d : Date) : Nat :=
  (d.month + 2) / 3

/-- The weekday, 0 for Monday. -/
def weekday (d : Date) : Nat :=
  ((d.day + 3) % 7).toNat

/-- How many days a weekday comes after another one. -/
def weekdayAfter (weekday first : Nat) : Nat :=
  (weekday + 7 - first) % 7

/-- The number of the week in the year, if weeks start on this weekday and the first whole week is
number 1. -/
def weekFrom (first : Nat) (d : Date) : Nat :=
  (d.yearDay + 6 - weekdayAfter d.weekday first) / 7

/-- The Thursday of the week, which decides to what year the week belongs. -/
def thursday (d : Date) : Date :=
  ⟨d.day - d.weekday + 3⟩

/-- The year that the week belongs to. -/
def isoYear (d : Date) : Int :=
  d.thursday.year

/-- The number of the week in the year it belongs to, from 1. -/
def isoWeek (d : Date) : Nat :=
  (d.thursday.yearDay - 1) / 7 + 1

/-- The date, if its year is one that dates may be in. -/
def inRange? (d : Date) : Option Date :=
  if firstYear ≤ d.year ∧ d.year ≤ lastYear then some d else none

/-- The first day of a year. -/
def newYear (y : Int) : Date :=
  ⟨daysBeforeYear y - epochDay⟩

/-- A year that dates may be in. -/
def validYear (y : Int) : Bool :=
  firstYear ≤ y && y ≤ lastYear

/-- A day of a year, counted from 1. -/
def ofYearDay? (y : Int) (n : Nat) : Option Date :=
  if validYear y && 1 ≤ n && n ≤ daysInYear y then some ⟨(newYear y).day + n - 1⟩ else none

/-- A day of a month, both counted from 1. -/
def ofMonthDay? (y : Int) (m d : Nat) : Option Date :=
  match (monthLengths y)[m - 1]? with
  | some length =>
    if validYear y && 1 ≤ m && 1 ≤ d && d ≤ length then
      let before : Nat := ((monthLengths y).take (m - 1)).foldl (· + ·) 0
      some ⟨(newYear y).day + before + d - 1⟩
    else none
  | none => none

/-- The Monday of the first week that belongs to a year. -/
def isoStart (y : Int) : Date :=
  let fourth : Date := ⟨(newYear y).day + 3⟩
  ⟨fourth.day - fourth.weekday⟩

/-- The number of weeks that belong to a year. -/
def isoWeeks (y : Int) : Nat :=
  (((isoStart (y + 1)).day - (isoStart y).day) / 7).toNat

/-- A weekday of a week, counted from 1, that belongs to a year. -/
def ofIsoWeek? (y : Int) (week weekday : Nat) : Option Date :=
  if 1 ≤ week ∧ week ≤ isoWeeks y then
    inRange? ⟨(isoStart y).day + 7 * (week - 1 : Nat) + weekday⟩
  else none

/-- The number in its year of a weekday of a week, if weeks start on the weekday `first` and the
first whole week is number 1.  It is not positive for a day before the year. -/
def ordinalOfWeek (y : Int) (week weekday first : Nat) : Int :=
  1 + (weekdayAfter first (newYear y).weekday : Int) + ((week : Int) - 1) * 7 +
    weekdayAfter weekday first

end Date

/-- The short names of the months. -/
def shortMonths : List String :=
  ["Jan", "Feb", "Mar", "Apr", "May", "Jun", "Jul", "Aug", "Sep", "Oct", "Nov", "Dec"]

/-- The full names of the months. -/
def longMonths : List String :=
  ["January", "February", "March", "April", "May", "June", "July", "August", "September",
   "October", "November", "December"]

/-- The short names of the weekdays, from Monday. -/
def shortWeekdays : List String :=
  ["Mon", "Tue", "Wed", "Thu", "Fri", "Sat", "Sun"]

/-- The full names of the weekdays, from Monday. -/
def longWeekdays : List String :=
  ["Monday", "Tuesday", "Wednesday", "Thursday", "Friday", "Saturday", "Sunday"]

end FieldNotes
