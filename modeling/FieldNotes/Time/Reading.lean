import FieldNotes.Time.Layout.Read
import FieldNotes.Time.Instant

/-! # Reading instants

A written instant is one of these, in this order: a zero form, a count of seconds since 1970, the
form of internet protocols, or what one of some given layouts describes.  Digits alone, with or
without a sign, are a count of seconds and nothing else.  By a layout a text may name an instant, a
date with a time of day, or a date; what has no offset is in UTC.

What a single text is by a single layout is the work of some `Instant.Readers`, and those of this
library are `Instant.Readers.standard`.

* `Instant.Readers.read?` is the order in which readers are asked.
-/

namespace FieldNotes

namespace Internet

open Layout

/-- Reads a number of exactly this many digits. -/
def exactly? (digits : Nat) (set : Components → Int → Except TimeError Components)
    (p : Progress) : Option Progress :=
  (readDigits? digits digits p.1).bind fun (n, rest) => settle (set p.2) n rest

/-- Drops a single character. -/
def mark? (c : Char) (p : Progress) : Option Progress :=
  (dropMark? c p.1).map fun rest => (rest, p.2)

/-- The most that an offset may be, in seconds: a minute less than a day. -/
def mostOffset : Int := (23 * 60 + 59) * 60

/-- The offset at the end of a text: the letter for UTC, or hours and minutes with a colon. -/
def offset? (cs : List Char) : Option (Int × List Char) :=
  match dropZulu? cs with
  | some rest => some (0, rest)
  | none => readOffset? (dropMark? ':') cs

/-- The components of a text in the form of internet protocols. -/
def read? (text : String) : Option Components := do
  let p ← exactly? 4 Components.setYear (text.toList, {})
  let p ← mark? '-' p
  let p ← exactly? 2 Components.setMonth p
  let p ← mark? '-' p
  let p ← exactly? 2 Components.setDay p
  let rest ← dropDateEnd? p.1
  let p ← exactly? 2 Components.setHour (rest, p.2)
  let p ← mark? ':' p
  let p ← exactly? 2 Components.setMinute p
  let p ← mark? ':' p
  let p ← exactly? 2 Components.setSecond p
  let (cs, c) ← readPointed? readAnyFraction? p.1 p.2
  let (offset, rest) ← offset? cs
  if rest.isEmpty && -mostOffset ≤ offset && offset ≤ mostOffset then
    (c.setOffset offset).toOption
  else none

end Internet

namespace Instant

/-- The texts that stand for the zero instant. -/
def zeroForms : List String :=
  ["", "0000-00-00 00:00:00", "0000-00-00 00:00:00.000", "0000-00-00 00:00:00.000000"]

/-- Whether a text is a row of digits with or without a sign. -/
def isCount (text : String) : Bool :=
  let ds :=
    match text.toList with
    | '-' :: ds | '+' :: ds => ds
    | ds => ds
  !ds.isEmpty && ds.all Char.isDigit

/-- How texts are read as times: in the form of internet protocols, and by a layout as an instant,
as a time in UTC, or as a date.  Each of them may read what it likes. -/
structure Readers where
  internet? : String → Option Instant
  instant? : (text layout : String) → Option Instant
  universal? : (text layout : String) → Option Instant
  date? : (text layout : String) → Option Date

namespace Readers

variable (r : Readers) (text : String)

/-- Reads an instant by one layout.  A date names its first moment. -/
def readBy? (layout : String) : Option Instant :=
  match r.instant? text layout with
  | some t => some t
  | none =>
    match r.universal? text layout with
    | some t => some t
    | none => (r.date? text layout).map fun d => ofClock d 0 0

/-- Reads an instant, with some layouts to try in order. -/
def read? (layouts : List String) : Option Instant :=
  if text ∈ zeroForms then some zero
  else if isCount text then (IntType.i64.read text).toOption.bind ofSeconds?
  else
    match r.internet? text with
    | some t => some t
    | none => layouts.findSome? (r.readBy? text)

/-- The components of a text by a layout. -/
def componentsBy? (text layout : String) : Option Components :=
  (Layout.parse? layout).bind fun items => Layout.read? items text

/-- The readers that this library comes with. -/
def standard : Readers where
  internet? text := (Internet.read? text).bind fun c => c.instant.toOption
  instant? text layout := (componentsBy? text layout).bind fun c => c.instant.toOption
  universal? text layout := (componentsBy? text layout).bind fun c => (c.localTime 0).toOption
  date? text layout := (componentsBy? text layout).bind fun c => c.date.toOption

end Readers

/-- Reads an instant with the readers of this library. -/
def read? (text : String) (layouts : List String) : Option Instant :=
  Readers.standard.read? text layouts

end Instant

end FieldNotes
