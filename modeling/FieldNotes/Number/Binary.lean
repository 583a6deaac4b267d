import FieldNotes.Number.Integer

/-! # Binary floating-point numbers

A floating-point number is kept as its bits.  A numeral is read exactly, as a whole number times a
power of ten, and then rounded once to the nearest number of the format; of two equally near ones
that with the even last bit is taken.

* `roundDiv_near`: a rounded quotient is within half a unit of the exact one.
-/

namespace FieldNotes

/-- A binary interchange format: the bits of a significand, with the one that is not stored, and the
bits of an exponent. -/
structure BinaryFormat where
  precision : Nat
  exponentBits : Nat
  deriving DecidableEq, Repr

namespace BinaryFormat

/-- The format of 32 bits. -/
def single : BinaryFormat := ⟨24, 8⟩

/-- The format of 64 bits. -/
def double : BinaryFormat := ⟨53, 11⟩

/-- The bits of positive infinity. -/
def infinity (f : BinaryFormat) : Nat :=
  (2 ^ f.exponentBits - 1) * 2 ^ (f.precision - 1)

/-- The bits of the quiet number that is none. -/
def notANumber (f : BinaryFormat) : Nat :=
  f.infinity + 2 ^ (f.precision - 2)

/-- The sign bit. -/
def signBit (f : BinaryFormat) : Nat :=
  2 ^ (f.precision + f.exponentBits - 1)

/-- The exponent of the least positive number, which is a power of two. -/
def leastExponent (f : BinaryFormat) : Int :=
  3 - (2 ^ (f.exponentBits - 1) : Nat) - (f.precision : Int)

end BinaryFormat

/-- A quotient rounded to the nearest whole number, and to the even one of two. -/
def roundDiv (n d : Nat) : Nat :=
  let q := n / d
  let r := n % d
  if 2 * r < d then q
  else if d < 2 * r then q + 1
  else if q % 2 = 0 then q else q + 1

theorem roundDiv_near (n d : Nat) (hd : 0 < d) :
    2 * n ≤ 2 * (roundDiv n d * d) + d ∧ 2 * (roundDiv n d * d) ≤ 2 * n + d := by
  have h1 := Nat.div_add_mod n d
  have h2 := Nat.mod_lt n hd
  simp only [roundDiv]
  rw [Nat.mul_comm] at h1
  split
  · omega
  · split
    · simp only [Nat.add_mul, Nat.one_mul]
      omega
    · split
      · omega
      · simp only [Nat.add_mul, Nat.one_mul]
        omega

/-- The exponent of the power of two next below a positive fraction. -/
def floorLog (n d : Nat) : Int :=
  let e : Int := (n.log2 : Int) - (d.log2 : Int)
  let fits := if 0 ≤ e then d * 2 ^ e.toNat ≤ n else d ≤ n * 2 ^ (-e).toNat
  if fits then e else e - 1

/-- The bits of the number of a format that is nearest to a fraction. -/
def BinaryFormat.nearest (f : BinaryFormat) (n d : Nat) : Nat :=
  if n = 0 then 0
  else
    let exponent := max (floorLog n d - (f.precision - 1 : Nat)) f.leastExponent
    let significand :=
      if 0 ≤ exponent then roundDiv n (d * 2 ^ exponent.toNat)
      else roundDiv (n * 2 ^ (-exponent).toNat) d
    let bits := (exponent - f.leastExponent).toNat * 2 ^ (f.precision - 1) + significand
    min bits f.infinity

/-- Decimal exponents of a leading digit beyond which every format overflows or underflows. -/
def decimalReach : Int := 400

/-- The bits of the number nearest to a whole number times a power of ten. -/
def BinaryFormat.ofDecimal (f : BinaryFormat) (digits : Nat) (exponent : Int) : Nat :=
  if digits = 0 then 0
  else
    let reach := exponent + (Nat.toDigits 10 digits).length
    if decimalReach < reach then f.infinity
    else if reach < -decimalReach then 0
    else if 0 ≤ exponent then f.nearest (digits * 10 ^ exponent.toNat) 1
    else f.nearest digits (10 ^ (-exponent).toNat)

/-- A numeral for a floating-point number, without its sign. -/
inductive Numeral
  | infinite
  | notANumber
  /-- A whole number times a power of ten. -/
  | decimal (digits : Nat) (exponent : Int)
  deriving DecidableEq, Repr

namespace Numeral

/-- The exponent that follows the digits of a numeral, if the text is well-formed to its end. -/
def exponent? : List Char → Option Int
  | [] => some 0
  | c :: cs =>
    if c = 'e' ∨ c = 'E' then
      let (negative, ds) :=
        match cs with
        | '-' :: ds => (true, ds)
        | '+' :: ds => (false, ds)
        | ds => (false, ds)
      if ds.isEmpty || !ds.all Char.isDigit then none
      else if negative then some (-(digitsValue ds : Int)) else some (digitsValue ds)
    else none

/-- Digits with at most one point among them, and an exponent. -/
def decimal? (cs : List Char) : Option Numeral :=
  let (whole, tail) := splitDigits cs
  let (fraction, tail) :=
    match tail with
    | '.' :: tail => splitDigits tail
    | tail => ([], tail)
  if whole.isEmpty && fraction.isEmpty then none
  else (exponent? tail).map fun e => decimal (digitsValue (whole ++ fraction)) (e - fraction.length)

/-- The numeral that a text without sign is. -/
def ofChars? (cs : List Char) : Option Numeral :=
  match decimal? cs with
  | some n => some n
  | none =>
    let word := String.ofList (cs.map Char.toLower)
    if word = "inf" ∨ word = "infinity" then some infinite
    else if word = "nan" then some notANumber
    else none

/-- The bits that a numeral has in a format. -/
def bits (f : BinaryFormat) : Numeral → Nat
  | infinite => f.infinity
  | notANumber => f.notANumber
  | decimal digits exponent => f.ofDecimal digits exponent

end Numeral

/-- Reads a numeral with an optional sign into the bits of a format. -/
def BinaryFormat.read (f : BinaryFormat) (s : String) : Except NumberError Nat :=
  let (negative, cs) :=
    match s.toList with
    | '-' :: cs => (true, cs)
    | '+' :: cs => (false, cs)
    | cs => (false, cs)
  if s.isEmpty then .error .emptyFloat
  else
    match Numeral.ofChars? cs with
    | none => .error .invalidFloat
    | some n => .ok ((if negative then f.signBit else 0) + n.bits f)

end FieldNotes
