import FieldNotes.Text.Blank

/-! # Items

The written declaration of a type, as far as it matters for deriving how its values are walked:
what kind of type it is, its parameters, its fields, and the attributes on all of these.

The arguments of an attribute are written as a value or as a list between parentheses.  To read such
a list is left to a `ListReader`, which hands over the names of its entries.  Blanks and remarks may
stand between any two words, `skipGap`.
-/

namespace FieldNotes.Derive

open Text

/-- The kinds of items. -/
inductive ItemKind
  | record
  /-- A record whose fields have positions in place of names. -/
  | tuple
  /-- A record without fields. -/
  | unit
  | union
  | enum
  deriving DecidableEq, Repr

/-- What stands after the path of an attribute. -/
inductive AttributeArgs
  | none
  /-- A value that is a text. -/
  | text (s : String)
  /-- A value that is none. -/
  | literal
  /-- The entries of a list, as written. -/
  | list (entries : List String)
  deriving DecidableEq, Repr

/-- An attribute. -/
structure Attribute where
  path : String
  args : AttributeArgs
  deriving DecidableEq, Repr

/-- A field as written. -/
structure ItemField where
  name : String
  visibility : String
  attributes : List Attribute
  deriving DecidableEq, Repr

/-- An item. -/
structure Item where
  kind : ItemKind
  parameters : List String
  whereClause : String
  attributes : List Attribute
  fields : List ItemField
  deriving DecidableEq, Repr

/-- What a list is read as: the names of its entries, where an entry that is more than a name has
none, and what is said of it if it cannot be read on behind them. -/
structure Listing where
  names : List (Option String)
  broken : Option String
  deriving DecidableEq, Repr

/-- A reader of lists, which are given by their entries as written. -/
abbrev ListReader :=
  List String → Listing

/-! ## Gaps between words -/

/-- Whether a character divides words: the blanks, and the two marks that turn the direction of
writing. -/
def dividesWords (c : Char) : Bool :=
  isBlank c || c == '\u200e' || c == '\u200f'

/-- Whether a comment is a mere remark, given what follows its two opening characters, the second of
which is `mark`.  A comment with one more `mark` or with `!` documents something, and counts as an
attribute; still more marks make it a remark again. -/
def isRemark (mark : Char) : List Char → Bool
  | '!' :: _ => false
  | [c] => c != mark
  | c :: d :: _ => c != mark || d == mark || (mark == '*' && d == '/')
  | [] => true

/-- What a gap is in the middle of. -/
inductive Gap
  | blanks
  /-- A remark up to the end of the line. -/
  | line
  /-- A remark between brackets, inside so many others. -/
  | block (depth : Nat)
  deriving DecidableEq, Repr

/-- What follows a gap. -/
def Gap.rest : Gap → List Char → List Char
  | .block depth, '/' :: '*' :: cs => rest (.block (depth + 1)) cs
  | .block depth, '*' :: '/' :: cs => rest (if depth = 0 then .blanks else .block (depth - 1)) cs
  | .block depth, _ :: cs => rest (.block depth) cs
  | .line, '\n' :: cs => rest .blanks cs
  | .line, _ :: cs => rest .line cs
  | .blanks, '/' :: '/' :: cs => if isRemark '/' cs then rest .line cs else '/' :: '/' :: cs
  | .blanks, '/' :: '*' :: cs => if isRemark '*' cs then rest (.block 0) cs else '/' :: '*' :: cs
  | .blanks, c :: cs => if dividesWords c then rest .blanks cs else c :: cs
  | _, [] => []

/-- A text without the gap that it begins with. -/
def skipGap (cs : List Char) : List Char :=
  Gap.rest .blanks cs

/-! ## Words -/

/-- Whether a text begins with a literal: a numeral, which may have a minus sign, a character, or a
text, before whose quotation mark letters may tell how it is written. -/
def beginsLiteral : List Char → Bool
  | 'r' :: '"' :: _ | 'r' :: '#' :: '"' :: _ | 'r' :: '#' :: '#' :: _ => true
  | 'b' :: '"' :: _ | 'b' :: '\'' :: _ | 'b' :: 'r' :: '"' :: _ | 'b' :: 'r' :: '#' :: _ => true
  | 'c' :: '"' :: _ | 'c' :: 'r' :: '"' :: _ | 'c' :: 'r' :: '#' :: _ => true
  | '\'' :: '\\' :: _ | '\'' :: _ :: '\'' :: _ => true
  | '-' :: cs => (skipGap cs).head?.any Char.isDigit
  | c :: _ => c == '"' || c.isDigit
  | [] => false

/-- Whether a character may begin an identifier.  Outside of literals and remarks nothing beyond
ASCII is written but identifiers and gaps, so there every character that divides no words is part of
an identifier. -/
def startsIdentifier (c : Char) : Bool :=
  c.isAlpha || c == '_' || 0x7f < c.toNat && !dividesWords c

/-- Whether a character may stand in an identifier. -/
def isIdentifierChar (c : Char) : Bool :=
  startsIdentifier c || c.isDigit

/-- The identifier without any mark before it that a text begins with, and the rest. -/
def plainIdentifier? : List Char → Option (List Char × List Char)
  | [] => none
  | c :: rest =>
    if startsIdentifier c then
      some (c :: rest.takeWhile isIdentifierChar, rest.dropWhile isIdentifierChar)
    else none

/-- The identifier that a text begins with, and the rest.  The mark `r#` makes an identifier of any
word, and belongs to its name. -/
def identifier? (cs : List Char) : Option (List Char × List Char) :=
  if beginsLiteral cs then none
  else match cs with
    | 'r' :: '#' :: rest =>
      (plainIdentifier? rest).map fun (name, rest) => ('r' :: '#' :: name, rest)
    | cs => plainIdentifier? cs

end FieldNotes.Derive
