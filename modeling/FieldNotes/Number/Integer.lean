import FieldNotes.Number.Digits

/-! # Whole numbers of fixed width

The integer types, their ranges, and the reading of a decimal numeral into such a range.  A numeral
is an optional sign and a row of ASCII digits; the minus sign is a sign for signed types only.

* `IntType.read_ok_range`: what is read lies in the range of the type.
* `IntType.wrap_range`: so does a number that is wrapped into the type.
-/

namespace FieldNotes

/-- Why a text is no number. -/
inductive NumberError
  | emptyInteger
  | invalidDigit
  | tooLarge
  | tooSmall
  | emptyFloat
  | invalidFloat
  deriving DecidableEq, Repr

/-- The wording of an error. -/
def NumberError.message : NumberError → String
  | .emptyInteger => "cannot parse integer from empty string"
  | .invalidDigit => "invalid digit found in string"
  | .tooLarge => "number too large to fit in target type"
  | .tooSmall => "number too small to fit in target type"
  | .emptyFloat => "cannot parse float from empty string"
  | .invalidFloat => "invalid float literal"

/-- The integer types. -/
inductive IntType
  | i8 | i16 | i32 | i64 | i128 | isize
  | u8 | u16 | u32 | u64 | u128 | usize
  deriving DecidableEq, Repr

namespace IntType

/-- All integer types. -/
def all : List IntType :=
  [i8, i16, i32, i64, i128, isize, u8, u16, u32, u64, u128, usize]

def name : IntType → String
  | i8 => "i8" | i16 => "i16" | i32 => "i32" | i64 => "i64" | i128 => "i128" | isize => "isize"
  | u8 => "u8" | u16 => "u16" | u32 => "u32" | u64 => "u64" | u128 => "u128" | usize => "usize"

/-- The number of bits; the two pointer-sized types have 64. -/
def bits : IntType → Nat
  | i8 | u8 => 8
  | i16 | u16 => 16
  | i32 | u32 => 32
  | i64 | u64 | isize | usize => 64
  | i128 | u128 => 128

def isSigned : IntType → Bool
  | i8 | i16 | i32 | i64 | i128 | isize => true
  | u8 | u16 | u32 | u64 | u128 | usize => false

/-- The largest number of the type. -/
def max (t : IntType) : Nat :=
  if t.isSigned then 2 ^ (t.bits - 1) - 1 else 2 ^ t.bits - 1

/-- How far the type reaches below zero. -/
def depth (t : IntType) : Nat :=
  if t.isSigned then 2 ^ (t.bits - 1) else 0

/-- The numbers of the type. -/
def InRange (t : IntType) (n : Int) : Prop :=
  -(t.depth : Int) ≤ n ∧ n ≤ t.max

instance (t : IntType) (n : Int) : Decidable (t.InRange n) :=
  inferInstanceAs (Decidable (_ ∧ _))

/-- The number of the type that agrees with `n` on the bits it has. -/
def wrap (t : IntType) (n : Int) : Int :=
  if t.isSigned then n.bmod (2 ^ t.bits) else n % (2 ^ t.bits : Nat)

theorem wrap_range (t : IntType) (n : Int) : t.InRange (t.wrap n) := by
  unfold InRange wrap
  have h1 := @Int.bmod_lt n (2 ^ t.bits) (Nat.two_pow_pos _)
  have h2 := @Int.le_bmod n (2 ^ t.bits) (Nat.two_pow_pos _)
  have h3 := Int.emod_nonneg n (b := ((2 ^ t.bits : Nat) : Int)) (by
    have := Nat.two_pow_pos t.bits; omega)
  have h4 := Int.emod_lt_of_pos n (b := ((2 ^ t.bits : Nat) : Int)) (by
    have := Nat.two_pow_pos t.bits; omega)
  cases t <;> simp [isSigned, depth, max, bits] at h1 h2 h3 h4 ⊢ <;> omega

/-- Appends digits to a magnitude until one is no digit or the magnitude exceeds `limit`. -/
def readMagnitude (limit : Nat) (overflow : NumberError) (acc : Nat) :
    List Char → Except NumberError Nat
  | [] => .ok acc
  | c :: cs =>
    match digit? c with
    | none => .error .invalidDigit
    | some d =>
      if acc * 10 + d ≤ limit then readMagnitude limit overflow (acc * 10 + d) cs
      else .error overflow

theorem readMagnitude_le {limit acc n : Nat} {overflow : NumberError} {cs : List Char}
    (hacc : acc ≤ limit) (h : readMagnitude limit overflow acc cs = .ok n) : n ≤ limit := by
  induction cs generalizing acc with
  | nil => simp [readMagnitude] at h; omega
  | cons c cs ih =>
    simp only [readMagnitude] at h
    split at h
    · simp at h
    · split at h
      · exact ih (by assumption) h
      · simp at h

/-- Reads a numeral.  Digits are taken from the left, and the first fault met decides the error. -/
def read (t : IntType) (s : String) : Except NumberError Int :=
  match s.toList with
  | [] => .error .emptyInteger
  | ['+'] | ['-'] => .error .invalidDigit
  | '+' :: cs => (readMagnitude t.max .tooLarge 0 cs).map Int.ofNat
  | '-' :: cs =>
    if t.isSigned then (readMagnitude t.depth .tooSmall 0 cs).map fun (n : Nat) => -(n : Int)
    else .error .invalidDigit
  | cs => (readMagnitude t.max .tooLarge 0 cs).map Int.ofNat

theorem map_ofNat_range {t : IntType} {cs : List Char} {n : Int}
    (h : (readMagnitude t.max .tooLarge 0 cs).map Int.ofNat = .ok n) : t.InRange n := by
  cases hm : readMagnitude t.max .tooLarge 0 cs with
  | error e => simp [hm, Except.map] at h
  | ok m =>
    have := readMagnitude_le (Nat.zero_le _) hm
    simp [hm, Except.map] at h
    unfold InRange
    omega

theorem read_ok_range {t : IntType} {s : String} {n : Int} (h : t.read s = .ok n) :
    t.InRange n := by
  unfold read at h
  split at h
  · simp at h
  · simp at h
  · simp at h
  · exact map_ofNat_range h
  · split at h
    · rename_i cs _ _ hs
      cases hm : readMagnitude t.depth .tooSmall 0 cs with
      | error e => simp [hm, Except.map] at h
      | ok m =>
        have := readMagnitude_le (Nat.zero_le _) hm
        simp [hm, Except.map] at h
        unfold InRange
        omega
    · simp at h
  · exact map_ofNat_range h

end IntType

end FieldNotes
