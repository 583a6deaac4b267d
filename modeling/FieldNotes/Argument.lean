import FieldNotes.Text.Literal
import FieldNotes.Error

/-! # Arguments

What a handler makes of the text of a tag, once, before any field is touched; and how the work on a
field ends.
-/

namespace FieldNotes

/-- What the `default` handler reads from the text of a tag. -/
inductive FillArg
  /-- The value of the root's field of this name. -/
  | field (name : String)
  /-- The value that this text stands for. -/
  | literal (text : String)
  deriving DecidableEq, Repr

/-- A text that begins with a point refers to the field named after it. -/
def FillArg.read (text : String) : FillArg :=
  match text.toList with
  | '.' :: name => .field (String.ofList name)
  | _ => .literal text

/-- A parsed argument. -/
inductive Arg
  | text (s : String)
  | int (n : Int)
  | fill (a : FillArg)
  deriving DecidableEq, Repr

/-- The text of an argument that is one. -/
def Arg.text? : Arg → Option String
  | .text s => some s
  | _ => none

/-- How an argument is written in diagnostics. -/
def Arg.debug : Arg → String
  | .text s => "Arg(" ++ Text.literal s ++ ")"
  | _ => "Arg(..)"

/-- How the work on one field ends. -/
inductive Outcome
  | done
  | failed (e : HandlerError)
  | faulted (f : Fault)
  deriving DecidableEq, Repr

end FieldNotes
