import FieldNotes.Time.Calendar

/-! # Instants

An instant is a number of seconds since the start of 1970, rounded down, and of nanoseconds above
it.  A leap second is the second before it with a thousand million nanoseconds more.

* `Instant.ofClock_date`, `Instant.ofClock_secondOfDay`: an instant falls apart into the date and
  the second of the day that it was put together from.
-/

namespace FieldNotes

/-- A point of time in UTC. -/
structure Instant where
  seconds : Int
  nanos : Nat
  deriving DecidableEq, Repr

/-- The number of seconds in a day. -/
def secondsPerDay : Int := 86400

namespace Instant

/-- The start of 1970. -/
def epoch : Instant := ⟨0, 0⟩

/-- The start of year 1, the instant that counts as zero. -/
def zero : Instant := ⟨-62135596800, 0⟩

def date (t : Instant) : Date :=
  ⟨t.seconds / secondsPerDay⟩

/-- The number of seconds since the start of the day. -/
def secondOfDay (t : Instant) : Nat :=
  (t.seconds % secondsPerDay).toNat

def hour (t : Instant) : Nat :=
  t.secondOfDay / 3600

def minute (t : Instant) : Nat :=
  t.secondOfDay / 60 % 60

/-- The second of the minute, which is never 60. -/
def second (t : Instant) : Nat :=
  t.secondOfDay % 60

/-- The second of the minute as it is shown, a leap second being number 60. -/
def shownSecond (t : Instant) : Nat :=
  t.second + t.nanos / 1000000000

/-- The nanoseconds as they are shown. -/
def shownNanos (t : Instant) : Nat :=
  t.nanos % 1000000000

/-- The instant of a date, a second of that day, and nanoseconds. -/
def ofClock (d : Date) (secondOfDay nanos : Nat) : Instant :=
  ⟨d.day * secondsPerDay + secondOfDay, nanos⟩

theorem ofClock_date {d : Date} {s : Nat} (n : Nat) (h : s < 86400) : (ofClock d s n).date = d := by
  cases d
  simp only [date, ofClock, secondsPerDay, Date.mk.injEq]
  omega

theorem ofClock_secondOfDay {d : Date} {s : Nat} (n : Nat) (h : s < 86400) :
    (ofClock d s n).secondOfDay = s := by
  simp only [secondOfDay, ofClock, secondsPerDay]
  omega

/-- The instant, if its date is one that dates may be. -/
def inRange? (t : Instant) : Option Instant :=
  t.date.inRange?.map fun _ => t

/-- The instant a number of seconds after the start of 1970, if its date is one that dates may
be. -/
def ofSeconds? (seconds : Int) : Option Instant :=
  inRange? ⟨seconds, 0⟩

end Instant

end FieldNotes
