import FieldNotes.Text.Blank

/-! # Time layouts

A layout describes how a time is written.  A percent sign starts a directive; blanks and any other
characters stand for themselves.  Between the percent sign and the letter of a numeric directive may
stand `-`, `0` or `_` for its padding; some letters abbreviate a row of items.

* `Layout.parse?` gives the items of a layout, unless a directive in it is none.
-/

namespace FieldNotes

open Text

/-- How a number is filled up to its width. -/
inductive Padding
  | none
  | zero
  | space
  deriving DecidableEq, Repr

/-- The parts of a time that are written as numbers. -/
inductive NumberPart
  | year
  | century
  | yearOfCentury
  | isoYear
  | isoYearOfCentury
  | quarter
  | month
  | day
  /-- The week, if weeks start on Sunday. -/
  | weekFromSunday
  /-- The week, if weeks start on Monday. -/
  | weekFromMonday
  | isoWeek
  /-- The weekday, 0 for Sunday. -/
  | daysFromSunday
  /-- The weekday, 1 for Monday. -/
  | dayFromMonday
  | yearDay
  | hour
  /-- The hour on a clock of twelve hours. -/
  | hour12
  | minute
  | second
  | nanosecond
  /-- The seconds since the start of 1970. -/
  | timestamp
  deriving DecidableEq, Repr

/-- How much of an offset from UTC is written. -/
inductive OffsetForm
  /-- Hours and minutes. -/
  | plain
  /-- Hours and minutes with a colon. -/
  | colon
  /-- Hours, minutes and seconds with colons. -/
  | seconds
  /-- Hours. -/
  | hours
  deriving DecidableEq, Repr

/-- The parts of a time that are written as words or in a form of their own. -/
inductive WordPart
  | shortMonth
  | longMonth
  | shortWeekday
  | longWeekday
  | lowerHalf
  | upperHalf
  /-- A point and as many digits as the fraction of the second needs, or nothing. -/
  | fraction
  /-- A point and this many digits. -/
  | fixedFraction (digits : Nat)
  /-- This many digits. -/
  | bareFraction (digits : Nat)
  | zoneName
  | offset (form : OffsetForm)
  /-- An offset that is read in more spellings, and never written. -/
  | looseOffset
  /-- Date, time and offset as internet protocols write them. -/
  | internet
  deriving DecidableEq, Repr

/-- One item of a layout. -/
inductive LayoutItem
  | literal (text : List Char)
  | blanks (text : List Char)
  | number (part : NumberPart) (padding : Padding)
  | word (part : WordPart)
  deriving DecidableEq, Repr

namespace Layout

open LayoutItem

/-- A number that is filled up with zeros. -/
def zeroed (p : NumberPart) : LayoutItem := number p .zero

/-- A number that is filled up with spaces. -/
def spaced (p : NumberPart) : LayoutItem := number p .space

/-- A number that is not filled up. -/
def bare (p : NumberPart) : LayoutItem := number p .none

/-- A single character that stands for itself. -/
def mark (c : Char) : LayoutItem := literal [c]

/-- A date as `month/day/year`. -/
def slashDate : List LayoutItem :=
  [zeroed .month, mark '/', zeroed .day, mark '/', zeroed .yearOfCentury]

/-- A date as `year-month-day`. -/
def dashDate : List LayoutItem :=
  [zeroed .year, mark '-', zeroed .month, mark '-', zeroed .day]

/-- A time as `hour:minute:second`. -/
def clockTime : List LayoutItem :=
  [zeroed .hour, mark ':', zeroed .minute, mark ':', zeroed .second]

/-- What the letter of a directive stands for, if a letter alone makes it. -/
def letter? : Char → Option (List LayoutItem)
  | 'A' => some [word .longWeekday]
  | 'B' => some [word .longMonth]
  | 'C' => some [zeroed .century]
  | 'D' => some slashDate
  | 'F' => some dashDate
  | 'G' => some [zeroed .isoYear]
  | 'H' => some [zeroed .hour]
  | 'I' => some [zeroed .hour12]
  | 'M' => some [zeroed .minute]
  | 'P' => some [word .lowerHalf]
  | 'R' => some [zeroed .hour, mark ':', zeroed .minute]
  | 'S' => some [zeroed .second]
  | 'T' => some clockTime
  | 'U' => some [zeroed .weekFromSunday]
  | 'V' => some [zeroed .isoWeek]
  | 'W' => some [zeroed .weekFromMonday]
  | 'X' => some clockTime
  | 'Y' => some [zeroed .year]
  | 'Z' => some [word .zoneName]
  | 'a' => some [word .shortWeekday]
  | 'b' => some [word .shortMonth]
  | 'c' =>
    some ([word .shortWeekday, blanks [' '], word .shortMonth, blanks [' '], spaced .day,
      blanks [' ']] ++ clockTime ++ [blanks [' '], zeroed .year])
  | 'd' => some [zeroed .day]
  | 'e' => some [spaced .day]
  | 'f' => some [zeroed .nanosecond]
  | 'g' => some [zeroed .isoYearOfCentury]
  | 'h' => some [word .shortMonth]
  | 'j' => some [zeroed .yearDay]
  | 'k' => some [spaced .hour]
  | 'l' => some [spaced .hour12]
  | 'm' => some [zeroed .month]
  | 'n' => some [blanks ['\n']]
  | 'p' => some [word .upperHalf]
  | 'q' => some [bare .quarter]
  | 'r' =>
    some [zeroed .hour12, mark ':', zeroed .minute, mark ':', zeroed .second, blanks [' '],
      word .upperHalf]
  | 's' => some [bare .timestamp]
  | 't' => some [blanks ['\t']]
  | 'u' => some [bare .dayFromMonday]
  | 'v' => some [spaced .day, mark '-', word .shortMonth, mark '-', zeroed .year]
  | 'w' => some [bare .daysFromSunday]
  | 'x' => some slashDate
  | 'y' => some [zeroed .yearOfCentury]
  | 'z' => some [word (.offset .plain)]
  | '+' => some [word .internet]
  | '%' => some [mark '%']
  | _ => none

/-- The number of digits that a figure in a directive asks for. -/
def fractionDigits? : Char → Option Nat
  | '3' => some 3
  | '6' => some 6
  | '9' => some 9
  | _ => none

/-- What follows a percent sign, if it makes a directive without a padding: the items that the
directive stands for, and the rest of the layout. -/
def plain? : List Char → Option (List LayoutItem × List Char)
  | '#' :: 'z' :: rest => some ([word .looseOffset], rest)
  | ':' :: ':' :: ':' :: 'z' :: rest => some ([word (.offset .hours)], rest)
  | ':' :: ':' :: 'z' :: rest => some ([word (.offset .seconds)], rest)
  | ':' :: 'z' :: rest => some ([word (.offset .colon)], rest)
  | '.' :: 'f' :: rest => some ([word .fraction], rest)
  | '.' :: d :: 'f' :: rest => (fractionDigits? d).map fun n => ([word (.fixedFraction n)], rest)
  | c :: rest =>
    match letter? c, rest with
    | some items, _ => some (items, rest)
    | none, 'f' :: rest => (fractionDigits? c).map fun n => ([word (.bareFraction n)], rest)
    | none, _ => none
  | [] => none

/-- The padding that a character asks for. -/
def padding? : Char → Option Padding
  | '-' => some .none
  | '0' => some .zero
  | '_' => some .space
  | _ => none

/-- What follows a percent sign.  A padding is for directives that are a single number. -/
def directive? (cs : List Char) : Option (List LayoutItem × List Char) :=
  match cs with
  | [] => none
  | c :: rest =>
    match padding? c with
    | none => plain? cs
    | some p =>
      match plain? rest with
      | some ([number part _], rest) => some ([number part p], rest)
      | _ => none

theorem length_rest_of_plain? {cs rest : List Char} {items : List LayoutItem}
    (h : plain? cs = some (items, rest)) : rest.length < cs.length := by
  unfold plain? at h
  split at h <;> try
    (first
      | (simp only [Option.some.injEq, Prod.mk.injEq] at h
         obtain ⟨-, rfl⟩ := h
         simp only [List.length_cons]
         omega)
      | (simp only [Option.map_eq_some_iff, Prod.mk.injEq] at h
         obtain ⟨_, _, -, rfl⟩ := h
         simp only [List.length_cons]
         omega))
  · split at h
    · simp only [Option.some.injEq, Prod.mk.injEq] at h
      obtain ⟨-, rfl⟩ := h
      simp
    · simp only [Option.map_eq_some_iff, Prod.mk.injEq] at h
      obtain ⟨_, _, -, rfl⟩ := h
      simp only [List.length_cons]
      omega
    · simp at h
  · simp at h

theorem length_rest_of_directive? {cs rest : List Char} {items : List LayoutItem}
    (h : directive? cs = some (items, rest)) : rest.length < cs.length := by
  unfold directive? at h
  split at h
  · simp at h
  · split at h
    · exact length_rest_of_plain? h
    · split at h
      · rename_i hplain
        have := length_rest_of_plain? hplain
        simp only [Option.some.injEq, Prod.mk.injEq] at h
        obtain ⟨-, rfl⟩ := h
        simp only [List.length_cons]
        omega
      · simp at h

/-- Whether a character is part of a row of literal characters. -/
def isLiteral (c : Char) : Bool :=
  !isBlank c && c != '%'

/-- The items of a layout. -/
def items? (cs : List Char) : Option (List LayoutItem) :=
  match cs with
  | [] => some []
  | c :: rest =>
    if c = '%' then
      match _h : directive? rest with
      | none => none
      | some (items, rest') => (items? rest').map (items ++ ·)
    else if isBlank c then
      (items? (rest.dropWhile isBlank)).map (blanks (c :: rest.takeWhile isBlank) :: ·)
    else
      (items? (rest.dropWhile isLiteral)).map (literal (c :: rest.takeWhile isLiteral) :: ·)
  termination_by cs.length
  decreasing_by
    · have := length_rest_of_directive? (by assumption)
      simp only [List.length_cons]
      omega
    · have := (List.dropWhile_sublist isBlank (l := rest)).length_le
      simp only [List.length_cons]
      omega
    · have := (List.dropWhile_sublist isLiteral (l := rest)).length_le
      simp only [List.length_cons]
      omega

/-- The items of a layout, unless one of its directives is none. -/
def parse? (layout : String) : Option (List LayoutItem) :=
  items? layout.toList

end Layout

end FieldNotes
