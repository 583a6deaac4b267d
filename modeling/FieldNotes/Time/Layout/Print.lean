import FieldNotes.Time.Instant
import FieldNotes.Time.Layout
import FieldNotes.Number.Digits

/-! # Writing times

An instant is written in UTC as the items of a layout ask.  A year outside of 0 to 9999 has a sign.
Numbers of two digits are written digit by digit from a byte, so a century beyond 99 shows the
character that follows the digits.

* `Instant.print?` writes an instant in a layout, `Instant.internet` in the form of internet
  protocols.
* `Instant.Writers.standard` puts these together.
-/

namespace FieldNotes

/-- A text filled up from the left to a width. -/
def padLeft (c : Char) (width : Nat) (s : String) : String :=
  String.ofList (List.replicate (width - s.length) c) ++ s

/-- A number as a byte, in two digits. -/
def twoDigits (padding : Padding) (n : Int) : String :=
  let b := (n % 256).toNat
  let ones := String.singleton (Char.ofNat ('0'.toNat + b % 10))
  let tens := String.singleton (Char.ofNat ('0'.toNat + b / 10))
  if b / 10 = 0 then
    match padding with
    | .none => ones
    | .space => " " ++ ones
    | .zero => tens ++ ones
  else tens ++ ones

/-- A number of any size, filled up to a width; with a sign in any case if `signed`, which takes
one place more. -/
def widened (width : Nat) (padding : Padding) (signed : Bool) (n : Int) : String :=
  let sign := if n < 0 then "-" else if signed then "+" else ""
  let width := if signed then width + 1 else width
  let digits := toString n.natAbs
  match padding with
  | .none => sign ++ digits
  | .zero => sign ++ padLeft '0' (width - sign.length) digits
  | .space => padLeft ' ' width (sign ++ digits)

/-- A year, in at least four digits. -/
def yearText (padding : Padding) (y : Int) : String :=
  widened 4 padding (decide (y < 0 ∨ 9999 < y)) y

namespace Instant

/-- The hour on a clock of twelve hours. -/
def hour12 (t : Instant) : Nat :=
  if t.hour % 12 = 0 then 12 else t.hour % 12

/-- Whether it is noon or later. -/
def isAfternoon (t : Instant) : Bool :=
  12 ≤ t.hour

/-- The fraction of the second in as many digits out of 3, 6 and 9 as it needs, after a point; empty
if there is none. -/
def fractionText (t : Instant) : String :=
  let n := t.shownNanos
  if n = 0 then ""
  else if n % 1000000 = 0 then "." ++ padZeros 3 (n / 1000000)
  else if n % 1000 = 0 then "." ++ padZeros 6 (n / 1000)
  else "." ++ padZeros 9 n

/-- The first digits of the fraction of the second. -/
def fractionDigits (t : Instant) (digits : Nat) : String :=
  padZeros digits (t.shownNanos / 10 ^ (9 - digits))

/-- Date and time of day without an offset. -/
def localText (t : Instant) (fraction : String) : String :=
  yearText .zero t.date.year ++ "-" ++ padZeros 2 t.date.month ++ "-" ++
    padZeros 2 t.date.monthDay ++ "T" ++ padZeros 2 t.hour ++ ":" ++ padZeros 2 t.minute ++ ":" ++
    padZeros 2 t.shownSecond ++ fraction

/-- The form of internet protocols, in whole seconds. -/
def internet (t : Instant) : String :=
  t.localText "" ++ "Z"

/-- Writes a part of a time that is a number. -/
def printNumber (t : Instant) (padding : Padding) : NumberPart → String
  | .year => yearText padding t.date.year
  | .century => twoDigits padding (t.date.year / 100)
  | .yearOfCentury => twoDigits padding (t.date.year % 100)
  | .isoYear => yearText padding t.date.isoYear
  | .isoYearOfCentury => twoDigits padding (t.date.isoYear % 100)
  | .quarter => toString t.date.quarter
  | .month => twoDigits padding t.date.month
  | .day => twoDigits padding t.date.monthDay
  | .weekFromSunday => twoDigits padding (t.date.weekFrom 6)
  | .weekFromMonday => twoDigits padding (t.date.weekFrom 0)
  | .isoWeek => twoDigits padding t.date.isoWeek
  | .daysFromSunday => toString ((t.date.weekday + 1) % 7)
  | .dayFromMonday => toString (t.date.weekday + 1)
  | .yearDay => widened 3 padding false t.date.yearDay
  | .hour => twoDigits padding t.hour
  | .hour12 => twoDigits padding t.hour12
  | .minute => twoDigits padding t.minute
  | .second => twoDigits padding t.shownSecond
  | .nanosecond => widened 9 padding false t.shownNanos
  | .timestamp => widened 9 padding false t.seconds

/-- Writes a part of a time that is no number, if it can be written. -/
def printWord? (t : Instant) : WordPart → Option String
  | .shortMonth => some (shortMonths.getD (t.date.month - 1) "")
  | .longMonth => some (longMonths.getD (t.date.month - 1) "")
  | .shortWeekday => some (shortWeekdays.getD t.date.weekday "")
  | .longWeekday => some (longWeekdays.getD t.date.weekday "")
  | .lowerHalf => some (if t.isAfternoon then "pm" else "am")
  | .upperHalf => some (if t.isAfternoon then "PM" else "AM")
  | .fraction => some t.fractionText
  | .fixedFraction n => some ("." ++ t.fractionDigits n)
  | .bareFraction n => some (t.fractionDigits n)
  | .zoneName => some "UTC"
  | .offset .plain => some "+0000"
  | .offset .colon => some "+00:00"
  | .offset .seconds => some "+00:00:00"
  | .offset .hours => some "+00"
  | .looseOffset => none
  | .internet => some (t.localText t.fractionText ++ "+00:00")

/-- Writes one item of a layout. -/
def printItem? (t : Instant) : LayoutItem → Option String
  | .literal text | .blanks text => some (String.ofList text)
  | .number part padding => some (t.printNumber padding part)
  | .word part => t.printWord? part

/-- Writes an instant in a layout, unless the layout has an item that is never written. -/
def print? (t : Instant) (items : List LayoutItem) : Option String :=
  (items.mapM t.printItem?).map String.join

/-- How times are written: in the form of internet protocols, and by a layout, if a text is one.  A
layout need not be able to write all times. -/
structure Writers where
  internet : Instant → String
  layout? : String → Option (Instant → Option String)

/-- The writers that this library comes with. -/
def Writers.standard : Writers where
  internet := Instant.internet
  layout? text := (Layout.parse? text).map fun items t => t.print? items

end Instant

end FieldNotes
