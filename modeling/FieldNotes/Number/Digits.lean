/-! # Rows of decimal digits

The ASCII digits, the number that a row of them names, and the split of a text after its leading
row of digits.
-/

namespace FieldNotes

/-- Powers are those of the core library, also where an algebraic library is in sight that has its
own. -/
scoped instance (priority := 2000) corePow {α : Type} [NatPow α] : Pow α Nat :=
  instPowNat

/-- The value of an ASCII digit. -/
def digit? (c : Char) : Option Nat :=
  if c.isDigit then some (c.toNat - '0'.toNat) else none

/-- The number that a row of digits names. -/
def digitsValue (ds : List Char) : Nat :=
  ds.foldl (fun n d => n * 10 + (d.toNat - '0'.toNat)) 0

/-- The leading digits of a text, and the rest. -/
def splitDigits (cs : List Char) : List Char × List Char :=
  (cs.takeWhile Char.isDigit, cs.dropWhile Char.isDigit)

theorem splitDigits_append (cs : List Char) : (splitDigits cs).1 ++ (splitDigits cs).2 = cs :=
  List.takeWhile_append_dropWhile

theorem length_splitDigits_le (cs : List Char) : (splitDigits cs).2.length ≤ cs.length :=
  (List.dropWhile_sublist _).length_le

/-- A number in decimal, with leading zeros up to a width. -/
def padZeros (width n : Nat) : String :=
  let ds := Nat.toDigits 10 n
  String.ofList (List.replicate (width - ds.length) '0' ++ ds)

end FieldNotes
