import FieldNotes.Proofs.Bytes

/-! # Writing texts between quotes

A text is written by tokens, one behind the other.  A token is a character that stands for itself,
or an escape, which stands for one byte or for the bytes of one character.  Only the bytes of all
tokens together have to be those of the text, so a character may be put together from escaped
bytes.

* `Quoted.Escape` and `Quoted.Token`: what may be written, and the bytes that it stands for.
* `Quoted.escape?_tail`: an escape is read as what it stands for, whatever follows it.
* `Quoted.resolve_tokens`: so are the tokens between two quotes.
* `unquote_tokens`: a text that was written by tokens is read back.
* `Quoted.exists_tokens`: every text can be written.
-/

namespace FieldNotes.Text

namespace Quoted

/-! ## What is written -/

/-- A digit as it is written.  A letter may be of either case. -/
def digitChar (n : Nat) (upper : Bool) : Char :=
  if upper then (Nat.digitChar n).toUpper else Nat.digitChar n

/-- A digit of a base, with the case that it is written in. -/
structure Digit (base : Nat) where
  value : Fin base
  upper : Bool := false

def Digit.char {base : Nat} (d : Digit base) : Char :=
  digitChar d.value d.upper

/-- The number that digits name, the first digit counting most. -/
def numeral {base : Nat} (ds : List (Digit base)) : Nat :=
  ds.foldl (fun n d => n * base + d.value) 0

/-- The escapes of one letter, and the bytes that they stand for. -/
def letters : List (Char × UInt8) :=
  [('a', 0x07), ('b', 0x08), ('f', 0x0c), ('n', 0x0a), ('r', 0x0d), ('t', 0x09), ('v', 0x0b),
   ('\\', 0x5c), ('"', 0x22)]

/-- What may be written behind a backslash. -/
inductive Escape
  | letter (c : Char) (b : UInt8) (h : (c, b) ∈ letters)
  /-- Three octal digits that name a byte. -/
  | octal (ds : List (Digit 8)) (hlength : ds.length = 3) (hbyte : numeral ds < 256)
  /-- Two hex digits that name a byte. -/
  | hex (ds : List (Digit 16)) (hlength : ds.length = 2)
  /-- Four hex digits that name a character. -/
  | short (c : Char) (ds : List (Digit 16)) (hlength : ds.length = 4) (hcode : numeral ds = c.toNat)
  /-- Eight hex digits that name a character. -/
  | long (c : Char) (ds : List (Digit 16)) (hlength : ds.length = 8) (hcode : numeral ds = c.toNat)

namespace Escape

/-- The characters behind the backslash. -/
def tail : Escape → List Char
  | letter c _ _ => [c]
  | octal ds _ _ => ds.map Digit.char
  | hex ds _ => 'x' :: ds.map Digit.char
  | short _ ds _ _ => 'u' :: ds.map Digit.char
  | long _ ds _ _ => 'U' :: ds.map Digit.char

/-- The bytes that an escape stands for. -/
def bytes : Escape → List UInt8
  | letter _ b _ => [b]
  | octal ds _ _ => [(numeral ds).toUInt8]
  | hex ds _ => [(numeral ds).toUInt8]
  | short c _ _ _ => String.utf8EncodeChar c
  | long c _ _ _ => String.utf8EncodeChar c

end Escape

/-- What a text is written by. -/
inductive Token
  /-- A character that stands for itself. -/
  | plain (c : Char) (hquote : c ≠ '"') (hbackslash : c ≠ '\\') (hline : c ≠ '\n')
  | escape (e : Escape)

namespace Token

def chars : Token → List Char
  | plain c _ _ _ => [c]
  | escape e => '\\' :: e.tail

def bytes : Token → List UInt8
  | plain c _ _ _ => String.utf8EncodeChar c
  | escape e => e.bytes

end Token

/-! ## Digits -/

theorem digitChar_plain {n : Nat} (h : n < 16) (upper : Bool) :
    (digitChar n upper).toNat < 128 ∧ digitChar n upper ≠ '"' ∧ digitChar n upper ≠ '\\' := by
  have hall : ∀ n < 16, ∀ upper, (digitChar n upper).toNat < 128 ∧ digitChar n upper ≠ '"' ∧
      digitChar n upper ≠ '\\' := by decide
  exact hall n h upper

theorem digit?_digitChar {n base : Nat} (h : n < 16) (hbase : n < base) (upper : Bool) :
    digit? base (digitChar n upper).toNat.toUInt8 = some n := by
  have hall : ∀ n < 16, ∀ upper, digit? 16 (digitChar n upper).toNat.toUInt8 = some n := by decide
  -- the value of a digit is the same in every base that it belongs to
  have hvalue := hall n h upper
  simp only [digit?, Option.filter_eq_some_iff] at hvalue ⊢
  exact ⟨hvalue.1, decide_eq_true hbase⟩

section Digits

variable {base : Nat} (hbase : base ≤ 16)

include hbase

theorem encode_digits (ds : List (Digit base)) :
    encode (ds.map Digit.char) = ds.map fun d => d.char.toNat.toUInt8 := by
  induction ds with
  | nil => rfl
  | cons d ds ih =>
    have hd : d.char.toNat < 128 := (digitChar_plain (by omega) d.upper).1
    rw [List.map_cons, encode_cons, utf8EncodeChar_of_lt hd, ih]
    rfl

theorem foldlM_digits (ds : List (Digit base)) (n : Nat) :
    (ds.map fun d => d.char.toNat.toUInt8).foldlM
      (fun acc b => (digit? base b).map (acc * base + ·)) n =
      some (ds.foldl (fun n d => n * base + d.value) n) := by
  induction ds generalizing n with
  | nil => rfl
  | cons d ds ih =>
    have hd : digit? base d.char.toNat.toUInt8 = some d.value.val :=
      digit?_digitChar (by omega) d.value.isLt d.upper
    rw [List.map_cons, List.foldlM_cons, hd]
    exact ih _

/-- Digits are read as the number that they name, whatever follows them. -/
theorem leadingNumber?_digits (ds : List (Digit base)) (rest : List UInt8) :
    leadingNumber? base ds.length (encode (ds.map Digit.char) ++ rest) = some (numeral ds) := by
  have hlength : (encode (ds.map Digit.char)).length = ds.length := by
    rw [encode_digits hbase, List.length_map]
  simp only [leadingNumber?, List.take_left' hlength, hlength, if_true]
  rw [encode_digits hbase]
  exact foldlM_digits hbase ds 0

end Digits

/-! ## Escapes -/

theorem characterBytes?_toNat (c : Char) :
    characterBytes? c.toNat = some (String.utf8EncodeChar c) := by
  have hvalid : c.toNat.isValidChar := c.valid
  rw [characterBytes?, dif_pos hvalid]
  congr 2
  refine Char.ext ?_
  exact UInt32.ofNat_toNat

/-- No octal digit is a letter that an escape begins with. -/
theorem octal_head (d : Digit 8) :
    letterEscape? d.char.toNat.toUInt8 = none ∧ d.char.toNat.toUInt8 ≠ 0x78 ∧
      d.char.toNat.toUInt8 ≠ 0x75 ∧ d.char.toNat.toUInt8 ≠ 0x55 := by
  have hall : ∀ n < 8, ∀ upper, letterEscape? (digitChar n upper).toNat.toUInt8 = none ∧
      (digitChar n upper).toNat.toUInt8 ≠ 0x78 ∧ (digitChar n upper).toNat.toUInt8 ≠ 0x75 ∧
      (digitChar n upper).toNat.toUInt8 ≠ 0x55 := by decide
  exact hall d.value d.value.isLt d.upper

theorem escape?_octal (ds : List (Digit 8)) (hlength : ds.length = 3) (hbyte : numeral ds < 256)
    (rest : List UInt8) :
    escape? (encode (ds.map Digit.char) ++ rest) = some ([(numeral ds).toUInt8], 3) := by
  have hnumber := leadingNumber?_digits (by decide) ds rest
  rw [hlength] at hnumber
  cases ds with
  | nil => exact absurd hlength (by decide)
  | cons d ds =>
    rcases octal_head d with ⟨hletter, hx, hu, hU⟩
    have hhead : encode ((d :: ds).map Digit.char) ++ rest =
        d.char.toNat.toUInt8 :: (encode (ds.map Digit.char) ++ rest) := by
      rw [encode_digits (by decide), encode_digits (by decide)]
      rfl
    rw [hhead] at hnumber ⊢
    simp only [escape?, hletter, hx, hu, hU, if_false, hnumber]
    rw [Option.filter_some, if_pos (decide_eq_true hbyte), Option.map_some]

/-- An escape is read as what it stands for, and as no longer than it is. -/
theorem escape?_tail (e : Escape) (rest : List UInt8) :
    escape? (encode e.tail ++ rest) = some (e.bytes, (encode e.tail).length) := by
  have hnumber {base : Nat} (hbase : base ≤ 16) (ds : List (Digit base)) :
      leadingNumber? base ds.length (encode (ds.map Digit.char) ++ rest) = some (numeral ds) ∧
        (encode (ds.map Digit.char)).length = ds.length :=
    ⟨leadingNumber?_digits hbase ds rest, by rw [encode_digits hbase, List.length_map]⟩
  cases e with
  | letter c b h =>
    simp only [letters, List.mem_cons, Prod.mk.injEq, List.not_mem_nil, or_false] at h
    rcases h with h | h | h | h | h | h | h | h | h <;> rcases h with ⟨rfl, rfl⟩ <;> rfl
  | octal ds hlength hbyte =>
    rw [Escape.tail, escape?_octal ds hlength hbyte rest, (hnumber (by decide) ds).2, hlength]
    rfl
  | hex ds hlength =>
    have htail : encode (Escape.hex ds hlength).tail = 0x78 :: encode (ds.map Digit.char) := rfl
    rcases hnumber (by decide) ds with ⟨hread, hwidth⟩
    rw [hlength] at hread hwidth
    rw [htail, List.length_cons, hwidth]
    simp [escape?, letterEscape?, hread, Escape.bytes]
  | short c ds hlength hcode =>
    have htail : encode (Escape.short c ds hlength hcode).tail =
        0x75 :: encode (ds.map Digit.char) := rfl
    rcases hnumber (by decide) ds with ⟨hread, hwidth⟩
    rw [hlength] at hread hwidth
    rw [htail, List.length_cons, hwidth]
    simp [escape?, letterEscape?, hread, hcode, characterBytes?_toNat, Escape.bytes]
  | long c ds hlength hcode =>
    have htail : encode (Escape.long c ds hlength hcode).tail =
        0x55 :: encode (ds.map Digit.char) := rfl
    rcases hnumber (by decide) ds with ⟨hread, hwidth⟩
    rw [hlength] at hread hwidth
    rw [htail, List.length_cons, hwidth]
    simp [escape?, letterEscape?, hread, hcode, characterBytes?_toNat, Escape.bytes]

/-! ## Rows of tokens -/

/-- A character that stands for itself is neither quote, line feed nor backslash in any byte. -/
theorem plain_byte {c : Char} (hquote : c ≠ '"') (hbackslash : c ≠ '\\') (hline : c ≠ '\n')
    {b : UInt8} (hb : b ∈ String.utf8EncodeChar c) :
    b ≠ quote ∧ b ≠ lineFeed ∧ b ≠ backslash := by
  refine ⟨?_, ?_, ?_⟩ <;> rintro rfl
  · exact hquote (eq_of_mem_utf8EncodeChar (by decide) hb)
  · exact hline (eq_of_mem_utf8EncodeChar (by decide) hb)
  · exact hbackslash (eq_of_mem_utf8EncodeChar (by decide) hb)

/-- Bytes that stand for themselves are read as they are. -/
theorem resolve_plain {bs : List UInt8} (h : ∀ b ∈ bs, b ≠ quote ∧ b ≠ lineFeed ∧ b ≠ backslash)
    (position : Nat) (rest : List UInt8) :
    resolve position (bs ++ rest) = (resolve (position + bs.length) rest).map (bs ++ ·) := by
  induction bs generalizing position with
  | nil => cases hr : resolve position rest <;> simp [hr, Except.map]
  | cons b bs ih =>
    rcases h b List.mem_cons_self with ⟨hquote, hline, hbackslash⟩
    rw [List.cons_append, resolve]
    simp only [hquote, hline, hbackslash, or_self, if_false]
    rw [ih (fun b hb => h b (List.mem_cons_of_mem _ hb)), List.length_cons,
      Nat.add_comm bs.length 1, Nat.add_assoc]
    cases resolve (position + (1 + bs.length)) rest <;> rfl

theorem resolve_token (t : Token) (position : Nat) (rest : List UInt8) :
    resolve position (encode t.chars ++ rest) =
      (resolve (position + (encode t.chars).length) rest).map (t.bytes ++ ·) := by
  cases t with
  | plain c hquote hbackslash hline =>
    have hchars : encode (Token.plain c hquote hbackslash hline).chars =
        String.utf8EncodeChar c := List.append_nil _
    rw [hchars]
    exact resolve_plain (fun b hb => plain_byte hquote hbackslash hline hb) position rest
  | escape e =>
    have hchars : encode (Token.escape e).chars = backslash :: encode e.tail := rfl
    rw [hchars, List.cons_append, resolve]
    simp only [show ¬ (backslash = quote ∨ backslash = lineFeed) by decide, if_false, if_true]
    rw [escape?_tail]
    simp only [List.drop_left, List.length_cons, Token.bytes]
    rw [Nat.add_comm (encode e.tail).length 1, Nat.add_assoc]

/-- Tokens are read as the bytes that they stand for. -/
theorem resolve_tokens (ts : List Token) (position : Nat) :
    resolve position (encode (ts.flatMap Token.chars)) = .ok (ts.flatMap Token.bytes) := by
  induction ts generalizing position with
  | nil => rw [List.flatMap_nil, encode_nil, resolve]; rfl
  | cons t ts ih => rw [List.flatMap_cons, encode_append, resolve_token, ih]; rfl

/-- A character as it is best written: by an escape where it cannot stand for itself. -/
def Token.ofChar (c : Char) : Token :=
  if hquote : c = '"' then .escape (.letter '"' 0x22 (by decide))
  else if hbackslash : c = '\\' then .escape (.letter '\\' 0x5c (by decide))
  else if hline : c = '\n' then .escape (.letter 'n' 0x0a (by decide))
  else .plain c hquote hbackslash hline

theorem Token.bytes_ofChar (c : Char) : (Token.ofChar c).bytes = String.utf8EncodeChar c := by
  rw [Token.ofChar]
  split
  · next hquote => rw [hquote]; rfl
  split
  · next hbackslash => rw [hbackslash]; rfl
  split
  · next hline => rw [hline]; rfl
  · rfl

/-- Every text can be written. -/
theorem exists_tokens (s : String) : ∃ ts : List Token, ts.flatMap Token.bytes = bytes s := by
  refine ⟨s.toList.map Token.ofChar, ?_⟩
  rw [List.flatMap_map, funext Token.bytes_ofChar, bytes]

end Quoted

open Quoted

/-- The written form that tokens make, between their quotes. -/
def written (ts : List Token) : List Char :=
  '"' :: ts.flatMap Token.chars ++ ['"']

theorem inner?_written (ts : List Token) :
    inner? (encode (written ts)) = some (encode (ts.flatMap Token.chars)) := by
  have hbytes : encode (written ts) = quote :: (encode (ts.flatMap Token.chars) ++ [quote]) := by
    rw [written, List.cons_append, encode_cons, encode_append]
    rfl
  rw [hbytes, inner?, List.getLast?_concat, List.dropLast_concat]
  rfl

/-- A text that was written by tokens is read back. -/
theorem unquote_tokens {ts : List Token} {s : String} (h : ts.flatMap Token.bytes = bytes s) :
    unquote (String.ofList (written ts)) = .ok s := by
  rw [unquote, bytes_ofList, inner?_written]
  simp only [resolve_tokens, h, ofBytes?_bytes]

end FieldNotes.Text
