import FieldNotes.Time.Instant

/-! # Components of a time

What is read from a written time is a set of components: a year, a month, an hour and so on, each of
which may be missing.  They are put together to a date, a time of day and an instant, if they
suffice and agree with each other.

Each component keeps to its range and is set once: setting it again to another number is refused.

* `Components.date` needs the month and day of a year, the day of a year, or a weekday of a week.
* `Components.clock` needs an hour and a minute.
* `Components.localTime` puts both together, or finds them from a count of seconds since 1970.
* `Components.instant` also needs an offset from UTC or such a count.
-/

namespace FieldNotes

/-- Why components make no time. -/
inductive TimeError
  | outOfRange
  | impossible
  | notEnough
  deriving DecidableEq, Repr

/-- The components that a written time may have. -/
structure Components where
  year : Option Int := none
  century : Option Int := none
  yearOfCentury : Option Int := none
  isoYear : Option Int := none
  isoCentury : Option Int := none
  isoYearOfCentury : Option Int := none
  quarter : Option Nat := none
  month : Option Nat := none
  weekFromSunday : Option Nat := none
  weekFromMonday : Option Nat := none
  isoWeek : Option Nat := none
  /-- The weekday, 0 for Monday. -/
  weekday : Option Nat := none
  yearDay : Option Nat := none
  day : Option Nat := none
  /-- 0 for the hours before noon and 1 for the others. -/
  half : Option Nat := none
  /-- The hour since midnight or noon. -/
  halfHour : Option Nat := none
  minute : Option Nat := none
  second : Option Nat := none
  nanosecond : Option Nat := none
  timestamp : Option Int := none
  /-- How many seconds local time is ahead of UTC. -/
  offset : Option Int := none
  deriving DecidableEq, Repr

namespace Components

/-- The component after it is set. -/
def agree [DecidableEq α] (old : Option α) (new : α) : Except TimeError (Option α) :=
  match old with
  | some a => if a = new then .ok old else .error .impossible
  | none => .ok (some new)

/-- The number, if it lies between two others. -/
def within (lo hi n : Int) : Except TimeError Int :=
  if lo ≤ n ∧ n ≤ hi then .ok n else .error .outOfRange

/-- A number that fits into 32 bits. -/
def within32 (n : Int) : Except TimeError Int :=
  within (-2147483648) 2147483647 n

def setYear (c : Components) (n : Int) : Except TimeError Components := do
  return { c with year := ← agree c.year (← within32 n) }

def setCentury (c : Components) (n : Int) : Except TimeError Components := do
  return { c with century := ← agree c.century (← within 0 2147483647 n) }

def setYearOfCentury (c : Components) (n : Int) : Except TimeError Components := do
  return { c with yearOfCentury := ← agree c.yearOfCentury (← within 0 99 n) }

def setIsoYear (c : Components) (n : Int) : Except TimeError Components := do
  return { c with isoYear := ← agree c.isoYear (← within32 n) }

def setIsoYearOfCentury (c : Components) (n : Int) : Except TimeError Components := do
  return { c with isoYearOfCentury := ← agree c.isoYearOfCentury (← within 0 99 n) }

def setQuarter (c : Components) (n : Int) : Except TimeError Components := do
  return { c with quarter := ← agree c.quarter (← within 1 4 n).toNat }

def setMonth (c : Components) (n : Int) : Except TimeError Components := do
  return { c with month := ← agree c.month (← within 1 12 n).toNat }

def setDay (c : Components) (n : Int) : Except TimeError Components := do
  return { c with day := ← agree c.day (← within 1 31 n).toNat }

def setWeekFromSunday (c : Components) (n : Int) : Except TimeError Components := do
  return { c with weekFromSunday := ← agree c.weekFromSunday (← within 0 53 n).toNat }

def setWeekFromMonday (c : Components) (n : Int) : Except TimeError Components := do
  return { c with weekFromMonday := ← agree c.weekFromMonday (← within 0 53 n).toNat }

def setIsoWeek (c : Components) (n : Int) : Except TimeError Components := do
  return { c with isoWeek := ← agree c.isoWeek (← within 1 53 n).toNat }

/-- Sets the weekday, 0 for Monday. -/
def setWeekday (c : Components) (n : Int) : Except TimeError Components := do
  return { c with weekday := ← agree c.weekday (← within 0 6 n).toNat }

/-- Sets the weekday, 0 for Sunday. -/
def setDaysFromSunday (c : Components) (n : Int) : Except TimeError Components := do
  let n ← within 0 6 n
  c.setWeekday ((n + 6) % 7)

/-- Sets the weekday, 1 for Monday. -/
def setDayFromMonday (c : Components) (n : Int) : Except TimeError Components := do
  let n ← within 1 7 n
  c.setWeekday (n - 1)

def setYearDay (c : Components) (n : Int) : Except TimeError Components := do
  return { c with yearDay := ← agree c.yearDay (← within 1 366 n).toNat }

def setHalf (c : Components) (afternoon : Bool) : Except TimeError Components := do
  return { c with half := ← agree c.half (if afternoon then 1 else 0) }

/-- Sets the hour of a clock of twelve hours. -/
def setHour12 (c : Components) (n : Int) : Except TimeError Components := do
  let n ← within 1 12 n
  return { c with halfHour := ← agree c.halfHour (n % 12).toNat }

def setHour (c : Components) (n : Int) : Except TimeError Components := do
  let n ← within 0 23 n
  let half ← agree c.half (n / 12).toNat
  return { c with half, halfHour := ← agree c.halfHour (n % 12).toNat }

def setMinute (c : Components) (n : Int) : Except TimeError Components := do
  return { c with minute := ← agree c.minute (← within 0 59 n).toNat }

/-- Sets the second, which is 60 in a leap second. -/
def setSecond (c : Components) (n : Int) : Except TimeError Components := do
  return { c with second := ← agree c.second (← within 0 60 n).toNat }

def setNanosecond (c : Components) (n : Int) : Except TimeError Components := do
  return { c with nanosecond := ← agree c.nanosecond (← within 0 999999999 n).toNat }

def setTimestamp (c : Components) (n : Int) : Except TimeError Components := do
  return { c with timestamp := ← agree c.timestamp n }

def setOffset (c : Components) (n : Int) : Except TimeError Components := do
  return { c with offset := ← agree c.offset (← within32 n) }

/-- The year that a year, a century and a year of a century come to.  A year of a century alone
means one from 1970 to 2069. -/
def resolveYear (year century yearOfCentury : Option Int) : Except TimeError (Option Int) :=
  match year, century, yearOfCentury with
  | y, none, none => .ok y
  | some y, q, r =>
    if y < 0 then .error .impossible
    else if q.getD (y / 100) = y / 100 ∧ r.getD (y % 100) = y % 100 then .ok (some y)
    else .error .impossible
  | none, some q, some r =>
    if q * 100 + r ≤ 2147483647 then .ok (some (q * 100 + r)) else .error .outOfRange
  | none, none, some r => .ok (some (r + if r < 70 then 2000 else 1900))
  | none, some _, none => .error .notEnough

/-- Whether a component, if it is there, is this number. -/
def admits [DecidableEq α] (old : Option α) (a : α) : Bool :=
  old = none || old = some a

/-- Whether parts of a year that are there agree with the year; parts never agree with a negative
one. -/
def admitsYear (year century yearOfCentury : Option Int) (y : Int) : Bool :=
  admits year y &&
    if 0 ≤ y then admits century (y / 100) && admits yearOfCentury (y % 100)
    else century.isNone && yearOfCentury.isNone

/-- Whether a date has the given year, month and day. -/
def admitsMonthDay (c : Components) (d : Date) : Bool :=
  admitsYear c.year c.century c.yearOfCentury d.year && admits c.month d.month &&
    admits c.day d.monthDay

/-- Whether a date has the given week and weekday. -/
def admitsIsoWeek (c : Components) (d : Date) : Bool :=
  admitsYear c.isoYear c.isoCentury c.isoYearOfCentury d.isoYear && admits c.isoWeek d.isoWeek &&
    admits c.weekday d.weekday

/-- Whether a date has the given day of the year and week of the year. -/
def admitsYearDay (c : Components) (d : Date) : Bool :=
  admits c.yearDay d.yearDay && admits c.weekFromSunday (d.weekFrom 6) &&
    admits c.weekFromMonday (d.weekFrom 0)

/-- A date, or an error if there is none. -/
def orOutOfRange : Option Date → Except TimeError Date
  | some d => .ok d
  | none => .error .outOfRange

/-- The date of a weekday of a week, if weeks start on the weekday `first`. -/
def weekDate (year : Int) (week weekday first : Nat) : Except TimeError Date :=
  if !Date.validYear year then .error .outOfRange
  else
    let n := Date.ordinalOfWeek year week weekday first
    match Date.ofYearDay? year n.toNat with
    | some d => .ok d
    | none => .error .impossible

/-- The date that the components name, before those that were not needed are compared with it; and
whether those that this leaves out are in order. -/
def candidate (c : Components) (year isoYear : Option Int) : Except TimeError (Date × Bool) := do
  match year, isoYear with
  | some y, iso =>
    match c.month, c.day with
    | some m, some d =>
      let date ← orOutOfRange (Date.ofMonthDay? y m d)
      return (date, c.admitsIsoWeek date && c.admitsYearDay date)
    | _, _ =>
      let all (d : Date) := c.admitsMonthDay d && c.admitsIsoWeek d && c.admitsYearDay d
      match c.yearDay, c.weekFromSunday, c.weekFromMonday, c.weekday with
      | some n, _, _, _ =>
        let date ← orOutOfRange (Date.ofYearDay? y n)
        return (date, all date)
      | none, some week, _, some weekday =>
        let date ← weekDate y week weekday 6
        return (date, all date)
      | none, none, some week, some weekday =>
        let date ← weekDate y week weekday 0
        return (date, all date)
      | _, _, _, _ => byIsoWeek iso
  | none, iso => byIsoWeek iso
where
  byIsoWeek (iso : Option Int) : Except TimeError (Date × Bool) := do
    match iso, c.isoWeek, c.weekday with
    | some y, some week, some weekday =>
      let date ← orOutOfRange (Date.ofIsoWeek? y week weekday)
      return (date, c.admitsMonthDay date && c.admitsYearDay date)
    | _, _, _ => throw .notEnough

/-- The date that the components name. -/
def date (c : Components) : Except TimeError Date := do
  let year ← resolveYear c.year c.century c.yearOfCentury
  let isoYear ← resolveYear c.isoYear c.isoCentury c.isoYearOfCentury
  let (date, admitted) ← candidate c year isoYear
  if admitted && admits c.quarter date.quarter then return date else throw .impossible

/-- The second of the day and the nanoseconds that the components name. -/
def clock (c : Components) : Except TimeError (Nat × Nat) :=
  match c.half, c.halfHour, c.minute with
  | some half, some hour, some minute =>
    let (second, leap) := if c.second = some 60 then (59, 1000000000) else (c.second.getD 0, 0)
    match c.second, c.nanosecond with
    | none, some _ => .error .notEnough
    | _, nanos => .ok (((half * 12 + hour) * 60 + minute) * 60 + second, leap + nanos.getD 0)
  | _, _, _ => .error .notEnough

/-- Date and time of day as if in UTC, filled in from a count of seconds since 1970. -/
def fromTimestamp (c : Components) (timestamp offset : Int) : Except TimeError Instant := do
  let ts := timestamp + offset
  if ts < -9223372036854775808 ∨ 9223372036854775807 < ts then throw .outOfRange
  let some t := Instant.ofSeconds? ts | throw .outOfRange
  let (c, t) ←
    if c.second = some 60 then
      match t.second with
      | 59 => pure (c, t)
      | 0 => pure (c, ⟨t.seconds - 1, t.nanos⟩)
      | _ => throw .impossible
    else pure (← c.setSecond t.second, t)
  let c ← c.setYear t.date.year
  let c ← c.setYearDay t.date.yearDay
  let c ← c.setHour t.hour
  let c ← c.setMinute t.minute
  let date ← c.date
  let (second, nanos) ← c.clock
  return .ofClock date second nanos

/-- Date and time of day that the components name, as if in UTC, where local time is `offset`
seconds ahead.  A count of seconds has to agree, except that in a leap second it may be one more. -/
def localTime (c : Components) (offset : Int) : Except TimeError Instant :=
  match c.date, c.clock, c.timestamp with
  | .ok date, .ok (second, nanos), timestamp =>
    let t := Instant.ofClock date second nanos
    let actual := t.seconds - offset
    match timestamp with
    | none => .ok t
    | some given =>
      if given = actual ∨ (1000000000 ≤ nanos ∧ given = actual + 1) then .ok t
      else .error .impossible
  | .error .notEnough, .error .notEnough, some timestamp
  | .error .notEnough, .ok _, some timestamp
  | .ok _, .error .notEnough, some timestamp => c.fromTimestamp timestamp offset
  | .error e, _, _ => .error e
  | _, .error e, _ => .error e

/-- The instant that the components name.  A count of seconds since 1970 stands for UTC. -/
def instant (c : Components) : Except TimeError Instant := do
  let offset ←
    match c.offset, c.timestamp with
    | some offset, _ => pure offset
    | none, some _ => pure 0
    | none, none => throw .notEnough
  let t ← c.localTime offset
  if offset ≤ -secondsPerDay ∨ secondsPerDay ≤ offset then throw .outOfRange
  let some t := Instant.inRange? ⟨t.seconds - offset, t.nanos⟩ | throw .impossible
  return t

end Components

end FieldNotes
