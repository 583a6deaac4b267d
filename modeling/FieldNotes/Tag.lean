import FieldNotes.Text.Blank
import FieldNotes.Error

/-! # Rows of tags

A field is annotated with a row of tags `name:"text"`, with ASCII blanks before, between and after
them.  A name is a run of characters above the space other than `:`, `"` and DEL.  The text is
written between double quotes, where a backslash keeps the character after it from ending the text.

The row ends, without an error, at the first place that begins no tag.

* `Tag.ofRow` lists the tags in order.
* `Tag.find?` is the text of the first tag of a name, if it can be read.
* `Tag.splitArg` cuts a text at its first comma.
-/

namespace FieldNotes

open Text

/-- One tag of a row: its name, and its text as written, quotes included. -/
structure Tag where
  name : String
  quoted : String
  deriving DecidableEq, Repr

/-- The text that a tag carries. -/
def Tag.text (t : Tag) : Except UnquoteError String :=
  unquote t.quoted

/-- The text of a tag without blanks around it, or the written form itself if it cannot be read. -/
def Tag.looseText (t : Tag) : String :=
  match t.text with
  | .ok s => trim s
  | .error _ => t.quoted

/-- The reserved name. -/
def stopName : String := "reflect"

/-- Whether a tag keeps a walk out of the value of its field: `reflect` with the text `-`. -/
def Tag.isStop (t : Tag) : Bool :=
  t.name == stopName && (t.quoted == "\"-\"" || t.looseText == "-")

namespace Tag

/-- The characters that a name is made of. -/
def isNameChar (c : Char) : Bool :=
  ' ' < c && c != ':' && c != '"' && c != '\x7f'

/-- What stands before the closing quote, and what stands after it. -/
def body? : List Char → Option (List Char × List Char)
  | [] => none
  | '"' :: rest => some ([], rest)
  | ['\\'] => none
  | '\\' :: c :: rest => (body? rest).map fun (b, r) => ('\\' :: c :: b, r)
  | c :: rest => (body? rest).map fun (b, r) => (c :: b, r)

/-- The tag that a row begins with, after its blanks, and the rest of the row. -/
def first? (cs : List Char) : Option (Tag × List Char) :=
  let cs := cs.dropWhile isAsciiBlank
  let name := cs.takeWhile isNameChar
  match cs.dropWhile isNameChar with
  | ':' :: '"' :: rest =>
    if name.isEmpty then none
    else (body? rest).map fun (b, r) =>
      (⟨String.ofList name, String.ofList ('"' :: b ++ ['"'])⟩, r)
  | _ => none

theorem length_rest_of_body? {cs b r : List Char} (h : body? cs = some (b, r)) :
    r.length < cs.length := by
  fun_induction body? cs generalizing b r with
  | case1 => simp at h
  | case2 rest => simp_all
  | case3 => simp at h
  | case4 c rest ih =>
    obtain ⟨⟨b', r'⟩, hb, heq⟩ := Option.map_eq_some_iff.1 h
    have := ih hb
    simp at heq
    simp [← heq.2]
    omega
  | case5 c rest _ _ _ ih =>
    obtain ⟨⟨b', r'⟩, hb, heq⟩ := Option.map_eq_some_iff.1 h
    have := ih hb
    simp at heq
    simp [← heq.2]
    omega

theorem length_dropWhile_le (p : Char → Bool) (cs : List Char) :
    (cs.dropWhile p).length ≤ cs.length :=
  (List.dropWhile_sublist p).length_le

theorem length_rest_of_first? {cs r : List Char} {t : Tag} (h : first? cs = some (t, r)) :
    r.length < cs.length := by
  simp only [first?] at h
  split at h
  · rename_i rest heq
    split at h
    · simp at h
    · obtain ⟨⟨b, r'⟩, hb, hr⟩ := Option.map_eq_some_iff.1 h
      have h1 := length_rest_of_body? hb
      have h2 := length_dropWhile_le isNameChar (cs.dropWhile isAsciiBlank)
      have h3 := length_dropWhile_le isAsciiBlank cs
      rw [heq] at h2
      simp at hr h2
      rw [← hr.2]
      omega
  · simp at h

/-- The tags of a row of characters, in order. -/
def scan (cs : List Char) : List Tag :=
  match _h : first? cs with
  | none => []
  | some (t, rest) => t :: scan rest
  termination_by cs.length
  decreasing_by exact length_rest_of_first? (by assumption)

/-- The tags of a row, in order. -/
def ofRow (row : String) : List Tag :=
  scan row.toList

/-- The text of the first tag called `name`, if there is one and it can be read. -/
def find? (row name : String) : Option String :=
  ((ofRow row).find? (·.name == name)).bind fun t => t.text.toOption

/-- The text of the first tag called `name`; an empty name is a fault. -/
def lookup (row name : String) : Except Fault (Option String) := do
  requireName .lookup name
  return find? row name

/-- What stands before the first comma and what stands after it, each without blanks around it; a
text without a comma is left as it is and has an empty second part. -/
def splitArg (text : String) : String × String :=
  let cs := text.toList
  match cs.dropWhile (· != ',') with
  | _ :: arg => (String.ofList (trimChars (cs.takeWhile (· != ','))), String.ofList (trimChars arg))
  | [] => (text, "")

end Tag

end FieldNotes
