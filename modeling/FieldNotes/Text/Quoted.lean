/-! # Quoted text

The text of a tag is written between double quotes.  Inside, a backslash starts an escape: one of
the letters `a b f n r t v`, a backslash or a quote for one byte; three octal digits or `x` with two
hex digits for one byte; `u` with four and `U` with eight hex digits for one character.  Every other
byte stands for itself, except that a raw quote or line feed may not occur.

The bytes of all these tokens together have to form a text, so escaped bytes may combine to a
character that no single one of them names.  Positions in errors count the bytes of the written
form, its opening quote being byte zero.
-/

namespace FieldNotes.Text

/-- The bytes of a text in UTF-8. -/
def bytes (s : String) : List UInt8 :=
  s.toList.flatMap String.utf8EncodeChar

/-- The text that these bytes are the UTF-8 encoding of. -/
def ofBytes? (bs : List UInt8) : Option String :=
  String.fromUTF8? bs.toByteArray

/-- Why a written form stands for no text. -/
inductive UnquoteError
  /-- There is no opening quote, or no closing quote apart from it. -/
  | notQuoted
  /-- The escape whose backslash stands right before this byte is none of the known ones. -/
  | invalidEscape (position : Nat)
  /-- This byte is a raw quote or line feed. -/
  | unescaped (position : Nat)
  /-- All tokens are good, but their bytes are the encoding of no text. -/
  | invalidUtf8
  deriving DecidableEq, Repr

/-- The wording of an error. -/
def UnquoteError.message : UnquoteError → String
  | .notQuoted => "value is not a double-quoted string"
  | .invalidEscape p => "invalid escape sequence at byte " ++ toString p
  | .unescaped p => "unescaped quote or newline at byte " ++ toString p
  | .invalidUtf8 => "unquoted value is not valid UTF-8"

namespace Quoted

/-- The byte of a double quote. -/
def quote : UInt8 := 0x22

/-- The byte of a backslash. -/
def backslash : UInt8 := 0x5c

/-- The byte of a line feed. -/
def lineFeed : UInt8 := 0x0a

/-- The value of a digit in some base up to sixteen; letters of either case count from ten. -/
def digit? (base : Nat) (b : UInt8) : Option Nat :=
  let n := b.toNat
  let d :=
    if 0x30 ≤ n ∧ n ≤ 0x39 then some (n - 0x30)
    else if 0x61 ≤ n ∧ n ≤ 0x66 then some (n - 0x61 + 10)
    else if 0x41 ≤ n ∧ n ≤ 0x46 then some (n - 0x41 + 10)
    else none
  d.filter (· < base)

/-- The number that a row of digits names; `none` if one of them is no digit of the base. -/
def number? (base : Nat) (ds : List UInt8) : Option Nat :=
  ds.foldlM (fun acc b => (digit? base b).map (acc * base + ·)) 0

/-- The number that the first `count` bytes name, if there are as many and all are digits. -/
def leadingNumber? (base count : Nat) (bs : List UInt8) : Option Nat :=
  let ds := bs.take count
  if ds.length = count then number? base ds else none

/-- The bytes of the character with this code, unless it is a surrogate or out of range. -/
def characterBytes? (code : Nat) : Option (List UInt8) :=
  if h : code.isValidChar then some (String.utf8EncodeChar ⟨code.toUInt32, by
    have hlt : code < 4294967296 := by
      rcases h with h | ⟨_, h⟩ <;> omega
    simpa [UInt32.isValidChar, Nat.toUInt32, Nat.mod_eq_of_lt hlt] using h⟩) else none

/-- The byte that a one-letter escape stands for. -/
def letterEscape? (b : UInt8) : Option UInt8 :=
  match b with
  | 0x61 => some 0x07
  | 0x62 => some 0x08
  | 0x66 => some 0x0c
  | 0x6e => some 0x0a
  | 0x72 => some 0x0d
  | 0x74 => some 0x09
  | 0x76 => some 0x0b
  | 0x5c => some 0x5c
  | 0x22 => some 0x22
  | _ => none

/-- What the text after a backslash begins with: the bytes that the escape stands for and the
number of bytes it takes up after its backslash. -/
def escape? (bs : List UInt8) : Option (List UInt8 × Nat) :=
  match bs with
  | [] => none
  | b :: rest =>
    match letterEscape? b with
    | some out => some ([out], 1)
    | none =>
      if b = 0x78 then (leadingNumber? 16 2 rest).map fun n => ([n.toUInt8], 3)
      else if b = 0x75 then ((leadingNumber? 16 4 rest).bind characterBytes?).map fun out => (out, 5)
      else if b = 0x55 then ((leadingNumber? 16 8 rest).bind characterBytes?).map fun out => (out, 9)
      else ((leadingNumber? 8 3 bs).filter (· < 256)).map fun n => ([n.toUInt8], 3)

/-- Resolves the tokens of an inner part whose first byte has position `position`. -/
def resolve (position : Nat) (bs : List UInt8) : Except UnquoteError (List UInt8) :=
  match bs with
  | [] => .ok []
  | b :: rest =>
    if b = quote ∨ b = lineFeed then .error (.unescaped position)
    else if b = backslash then
      match escape? rest with
      | none => .error (.invalidEscape (position + 1))
      | some (out, width) =>
        (resolve (position + 1 + width) (rest.drop width)).map (out ++ ·)
    else (resolve (position + 1) rest).map (b :: ·)
  termination_by bs.length

/-- The bytes between an opening quote and a separate closing one. -/
def inner? (bs : List UInt8) : Option (List UInt8) :=
  match bs with
  | [] => none
  | b :: rest => if b = quote ∧ rest.getLast? = some quote then some rest.dropLast else none

end Quoted

/-- The text that a written form stands for. -/
def unquote (quoted : String) : Except UnquoteError String :=
  match Quoted.inner? (bytes quoted) with
  | none => .error .notQuoted
  | some inner =>
    match Quoted.resolve 1 inner with
    | .error e => .error e
    | .ok out => match ofBytes? out with
      | some s => .ok s
      | none => .error .invalidUtf8

end FieldNotes.Text
