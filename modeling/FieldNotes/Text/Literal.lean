import FieldNotes.Text.Hidden

/-! # Text in diagnostics

Diagnostics show a text between double quotes, on one line: the quote, the backslash and the usual
control characters have escapes of two characters, and every other character that cannot be printed
is shown by its code point in braces.
-/

namespace FieldNotes.Text

/-- How one character of a text is shown. -/
def literalChar (c : Char) : String :=
  match c with
  | '"' => "\\\""
  | '\\' => "\\\\"
  | '\n' => "\\n"
  | '\t' => "\\t"
  | '\r' => "\\r"
  | '\x00' => "\\0"
  | c =>
    if isHidden c then
      "\\u\x7b" ++ String.ofList (Nat.toDigits 16 c.toNat) ++ "\x7d"
    else String.singleton c

/-- A text as it is shown in diagnostics. -/
def literal (s : String) : String :=
  "\"" ++ String.join (s.toList.map literalChar) ++ "\""

/-- A row of things, each shown by `f`, between brackets. -/
def bracketed (f : α → String) (xs : List α) : String :=
  "[" ++ String.intercalate ", " (xs.map f) ++ "]"

/-- Named parts of a thing, between braces after its name. -/
def braced (name : String) (parts : List (String × String)) : String :=
  name ++ " \x7b " ++ String.intercalate ", " (parts.map fun p => p.1 ++ ": " ++ p.2) ++ " \x7d"

/-- A thing that may be absent. -/
def optionally (f : α → String) : Option α → String
  | none => "None"
  | some a => "Some(" ++ f a ++ ")"

end FieldNotes.Text
