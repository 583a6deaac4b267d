import FieldNotes.Path
import FieldNotes.Schema

/-! # Handlers

A handler is bound to a name and works on the fields that carry a tag of that name, in two phases:
it reads the text of the tag into an argument, without seeing any field, and it runs at a site with
that argument.

At a site a handler sees everything: the context of the walk, the root, and the path to its field.
It may write the value of its field only, so what it does comes to a new value for that field, an
outcome, and reports for those who watch.
-/

namespace FieldNotes

/-- What the caller of a walk hands to every handler. -/
inductive Context
  | unit
  | int (n : Int)
  deriving DecidableEq, Repr

/-- The number of a context that is one. -/
def Context.int? : Context → Option Int
  | .unit => none
  | .int n => some n

/-- Where a handler runs. -/
structure Site where
  context : Context
  /-- The record that the walk began with. -/
  root : Value
  /-- The way from the root to the field. -/
  path : Path
  /-- The position of the field in its record. -/
  index : Nat
  field : Field
  /-- The value of the field. -/
  value : Value

/-- How a site is written in diagnostics. -/
def Site.debug (s : Site) : String :=
  Text.braced "Cursor"
    [("field", Text.literal s.field.name), ("path", Text.bracketed Step.debug s.path)]

/-- What a handler tells about its work. -/
inductive Report
  /-- It was asked to read a text. -/
  | parsed (id : String)
  /-- It was run. -/
  | ran (id : String)
  /-- It was run here. -/
  | visited (id : String) (site : Site) (arg : Arg)
  /-- It was run on this value; where, it does not know. -/
  | touched (id : String) (value : Value) (arg : Arg)
  /-- It was run on this field. -/
  | fielded (id : String) (site : Site) (arg : Arg)

/-- What comes of reading a text. -/
structure Reading where
  result : Except HandlerError Arg
  reports : List Report := []

/-- What comes of a run. -/
structure Effect where
  /-- The value that the field has afterwards. -/
  value : Value
  outcome : Outcome
  reports : List Report := []

/-- A behaviour that can be bound to a name. -/
structure Handler where
  parse : String → Reading
  run : Site → Arg → Effect

namespace Handler

/-- The reading that takes the text as it is. -/
def asText (text : String) : Reading :=
  ⟨.ok (.text text), []⟩

/-- The reading of a number of type `i64`. -/
def asI64 (text : String) : Reading :=
  match IntType.i64.read text with
  | .ok n => ⟨.ok (.int n), []⟩
  | .error e => ⟨.error (.number e), []⟩

/-- The handler that takes texts as they are. -/
def ofRun (run : Site → Arg → Effect) : Handler :=
  ⟨asText, run⟩

end Handler

namespace Effect

/-- Leaves the value as it is. -/
def keep (site : Site) (outcome : Outcome) : Effect :=
  ⟨site.value, outcome, []⟩

end Effect

end FieldNotes
