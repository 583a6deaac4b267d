import FieldNotes.Time.Components
import FieldNotes.Time.Layout
import FieldNotes.Number.Integer

/-! # Reading times by a layout

A text is read item by item into components.  Blanks in a layout match any number of blanks, also
none, and blanks before a number are passed over; everything else is matched to the letter, and
nothing may be left over.

A reader takes the rest of a text and the components so far, and gives `none` if the text does not
match or a component is refused.
-/

namespace FieldNotes

open Text

namespace Layout

/-- The rest of a text, and what was read so far. -/
abbrev Progress := List Char × Components

/-- A number of at least `least` and at most `most` digits, if it fits into 64 bits. -/
def readDigits? (least most : Nat) (cs : List Char) : Option (Int × List Char) :=
  let ds := (cs.take most).takeWhile Char.isDigit
  let n := digitsValue ds
  if ds.length < least ∨ IntType.i64.max < n then none else some (n, cs.drop ds.length)

/-- A number of any count of digits. -/
def readLong? (cs : List Char) : Option (Int × List Char) :=
  readDigits? 1 cs.length cs

/-- Sets a component to what was read. -/
def settle (set : Int → Except TimeError Components) (n : Int) (rest : List Char) :
    Option Progress :=
  (set n).toOption.map fun c => (rest, c)

/-- A year: in as many as four digits, or with a sign and in any number of digits. -/
def readYear? (cs : List Char) : Option (Int × List Char) :=
  match cs with
  | '-' :: ds => (readLong? ds).map fun (n, rest) => (-n, rest)
  | '+' :: ds => readLong? ds
  | ds => readDigits? 1 4 ds

/-- Reads a part of a time that is a number. -/
def readNumber? (part : NumberPart) (cs : List Char) (c : Components) : Option Progress :=
  let cs := cs.dropWhile isBlank
  let upTo (width : Nat) (set : Int → Except TimeError Components) : Option Progress :=
    (readDigits? 1 width cs).bind fun (n, rest) => settle set n rest
  match part with
  | .year => (readYear? cs).bind fun (n, rest) => settle c.setYear n rest
  | .isoYear => (readYear? cs).bind fun (n, rest) => settle c.setIsoYear n rest
  | .century => upTo 2 c.setCentury
  | .yearOfCentury => upTo 2 c.setYearOfCentury
  | .isoYearOfCentury => upTo 2 c.setIsoYearOfCentury
  | .quarter => upTo 1 c.setQuarter
  | .month => upTo 2 c.setMonth
  | .day => upTo 2 c.setDay
  | .weekFromSunday => upTo 2 c.setWeekFromSunday
  | .weekFromMonday => upTo 2 c.setWeekFromMonday
  | .isoWeek => upTo 2 c.setIsoWeek
  | .daysFromSunday => upTo 1 c.setDaysFromSunday
  | .dayFromMonday => upTo 1 c.setDayFromMonday
  | .yearDay => upTo 3 c.setYearDay
  | .hour => upTo 2 c.setHour
  | .hour12 => upTo 2 c.setHour12
  | .minute => upTo 2 c.setMinute
  | .second => upTo 2 c.setSecond
  | .nanosecond => upTo 9 c.setNanosecond
  | .timestamp => upTo cs.length c.setTimestamp

/-- The rest of a text after a word, in letters of either case. -/
def dropWord? (word cs : List Char) : Option (List Char) :=
  if (cs.take word.length).map Char.toLower = word.map Char.toLower then some (cs.drop word.length)
  else none

/-- The position of the first of some words that a text begins with, and the rest of the text. -/
def readWord? (words : List String) (cs : List Char) : Option (Nat × List Char) :=
  words.zipIdx.findSome? fun (w, i) => (dropWord? w.toList cs).map fun rest => (i, rest)

/-- The position of the name that a text begins with, in its short or in its full form. -/
def readName? (short long : List String) (cs : List Char) : Option (Nat × List Char) :=
  (readWord? short cs).map fun (i, rest) =>
    match dropWord? (long.getD i "").toList cs with
    | some rest => (i, rest)
    | none => (i, rest)

/-- A fraction of a second in exactly this many digits, in nanoseconds. -/
def readFraction? (digits : Nat) (cs : List Char) : Option (Int × List Char) :=
  (readDigits? digits digits cs).map fun (n, rest) => (n * 10 ^ (9 - digits), rest)

/-- A fraction of a second in one digit or more, of which nine count, in nanoseconds. -/
def readAnyFraction? (cs : List Char) : Option (Int × List Char) :=
  (readDigits? 1 9 cs).map fun (n, rest) =>
    (n * 10 ^ (9 - (cs.length - rest.length)), rest.dropWhile Char.isDigit)

/-- A colon or blank that may stand between hours and minutes. -/
def isOffsetMark (c : Char) : Bool :=
  c == ':' || isBlank c

/-- Two digits, the first of which is at most `most`. -/
def twoDigits? (most : Char) : List Char → Option (Nat × List Char)
  | a :: b :: rest =>
    if a.isDigit && b.isDigit && a ≤ most then some (digitsValue [a, b], rest) else none
  | _ => none

/-- An offset from UTC in seconds: a sign, two digits of hours, whatever `separator` drops, and two
digits of minutes. -/
def readOffset? (separator : List Char → Option (List Char)) (cs : List Char) :
    Option (Int × List Char) := do
  let (negative, cs) ←
    match cs with
    | '+' :: cs => some (false, cs)
    | '-' :: cs => some (true, cs)
    | '\u2212' :: cs => some (true, cs)
    | _ => none
  let (hours, cs) ← twoDigits? '9' cs
  let cs ← separator cs
  let (minutes, cs) ← twoDigits? '5' cs
  let seconds : Int := hours * 3600 + minutes * 60
  return (if negative then -seconds else seconds, cs)

/-- An offset whose hours and minutes may be set apart by colons and blanks. -/
def readSpacedOffset? (cs : List Char) : Option (Int × List Char) :=
  readOffset? (fun cs => some (cs.dropWhile isOffsetMark)) cs

/-- Drops the letter that stands for UTC. -/
def dropZulu? : List Char → Option (List Char)
  | 'Z' :: rest => some rest
  | 'z' :: rest => some rest
  | _ => none

/-- An offset whose minutes may be missing, or the letter for UTC. -/
def readLooseOffset? (cs : List Char) : Option (Int × List Char) :=
  match dropZulu? cs with
  | some rest => some (0, rest)
  | none =>
    match readSpacedOffset? cs with
    | some r => some r
    | none => do
      let (negative, cs) ←
        match cs with
        | '+' :: cs => some (false, cs)
        | '-' :: cs => some (true, cs)
        | '\u2212' :: cs => some (true, cs)
        | _ => none
      let (hours, cs) ← twoDigits? '9' cs
      if (cs.dropWhile isOffsetMark).isEmpty then
        return (if negative then -(hours * 3600 : Int) else hours * 3600, [])
      else none

/-- The rest of a text after a single character. -/
def dropMark? (mark : Char) : List Char → Option (List Char)
  | c :: rest => if c = mark then some rest else none
  | [] => none

/-- The rest of a text after the mark between date and time. -/
def dropDateEnd? : List Char → Option (List Char)
  | 't' :: rest | 'T' :: rest | ' ' :: rest => some rest
  | _ => none

/-- Reads numbers with marks between them, passing over blanks before each. -/
def readMarked? (marks : List (Option Char × NumberPart)) (p : Progress) : Option Progress :=
  marks.foldlM
    (fun (cs, c) (mark, part) =>
      match mark with
      | none => readNumber? part cs c
      | some m => (dropMark? m (cs.dropWhile isBlank)).bind fun rest => readNumber? part rest c) p

/-- Reads a fraction after a point, if there is a point. -/
def readPointed? (read : List Char → Option (Int × List Char)) (cs : List Char) (c : Components) :
    Option Progress :=
  match cs with
  | '.' :: ds => (read ds).bind fun (n, rest) => settle c.setNanosecond n rest
  | _ => some (cs, c)

/-- Reads date, time and offset in the form of internet protocols, but with blanks in places. -/
def readInternet? (cs : List Char) (c : Components) : Option Progress := do
  let (cs, c) ← readMarked? [(none, .year), (some '-', .month), (some '-', .day)] (cs, c)
  let cs ← dropDateEnd? cs
  let (cs, c) ← readMarked? [(none, .hour), (some ':', .minute), (some ':', .second)] (cs, c)
  let (cs, c) ← readPointed? readAnyFraction? cs c
  let cs := cs.dropWhile isBlank
  match dropWord? ['U', 'T', 'C'] cs with
  | some rest => settle c.setOffset 0 rest
  | none =>
    let (n, rest) ←
      match dropZulu? cs with
      | some rest => some (0, rest)
      | none => readSpacedOffset? cs
    settle c.setOffset n rest

/-- Reads a part of a time that is no number. -/
def readPart? (part : WordPart) (cs : List Char) (c : Components) : Option Progress :=
  match part with
  | .shortMonth => (readWord? shortMonths cs).bind fun (i, rest) => settle c.setMonth (i + 1) rest
  | .longMonth =>
    (readName? shortMonths longMonths cs).bind fun (i, rest) => settle c.setMonth (i + 1) rest
  | .shortWeekday =>
    (readWord? shortWeekdays cs).bind fun (i, rest) => settle c.setWeekday i rest
  | .longWeekday =>
    (readName? shortWeekdays longWeekdays cs).bind fun (i, rest) => settle c.setWeekday i rest
  | .lowerHalf | .upperHalf =>
    (readWord? ["am", "pm"] cs).bind fun (i, rest) =>
      (c.setHalf (i == 1)).toOption.map fun c => (rest, c)
  | .fraction => readPointed? readAnyFraction? cs c
  | .fixedFraction n => readPointed? (readFraction? n) cs c
  | .bareFraction n =>
    (readFraction? n cs).bind fun (n, rest) => settle c.setNanosecond n rest
  | .zoneName => some (cs.dropWhile fun c => !isBlank c, c)
  | .offset _ =>
    (readSpacedOffset? (cs.dropWhile isBlank)).bind fun (n, rest) => settle c.setOffset n rest
  | .looseOffset =>
    (readLooseOffset? (cs.dropWhile isBlank)).bind fun (n, rest) => settle c.setOffset n rest
  | .internet => readInternet? cs c

/-- Drops a row of characters from the front of a text. -/
def dropPrefix? : List Char → List Char → Option (List Char)
  | [], cs => some cs
  | p :: ps, c :: cs => if p = c then dropPrefix? ps cs else none
  | _ :: _, [] => none

/-- Reads one item of a layout. -/
def readItem? (p : Progress) : LayoutItem → Option Progress
  | .literal text => (dropPrefix? text p.1).map fun rest => (rest, p.2)
  | .blanks _ => some (p.1.dropWhile isBlank, p.2)
  | .number part _ => readNumber? part p.1 p.2
  | .word part => readPart? part p.1 p.2

/-- The components of a text that has the form of a layout from its start to its end. -/
def read? (items : List LayoutItem) (text : String) : Option Components :=
  match items.foldlM readItem? (text.toList, {}) with
  | some ([], c) => some c
  | _ => none

end Layout

end FieldNotes
