import FieldNotes.Handler
import FieldNotes.Tag

/-! # Events

What a dispatcher does is told by a row of events, in the order in which it happens.  Most of them
have a written form of three parts: a level, a message and named texts.  Two kinds are told only to
those who ask for them: that a handler was called, and what a handler reports itself.
-/

namespace FieldNotes

/-- One run of a handler: on which field, for which of its tags, and with which argument. -/
structure Call where
  path : Path
  index : Nat
  field : Field
  tag : Tag
  arg : Arg
  deriving DecidableEq, Repr

/-- The name of the handler that was run. -/
def Call.handler (c : Call) : String :=
  c.tag.name

/-- Something that a dispatcher did. -/
inductive Event
  /-- A handler was bound to the reserved name. -/
  | reserved
  | registered (name : String)
  | replaced (name : String)
  | unregistered (name : String)
  /-- A walk of a record of this type began. -/
  | walking (type : String)
  /-- A handler read the text of a tag. -/
  | parsed (tag : Tag) (text : String)
  /-- A handler is about to run on a field. -/
  | dispatching (field handler : String)
  /-- A field's value is not entered. -/
  | suppressed (field : String)
  | called (call : Call)
  | reported (report : Report)

namespace Event

/-- The written form of an event that has one: its level, its message and its named texts. -/
def line? : Event → Option (String × String × List (String × String))
  | .reserved =>
    some ("WARN", "handler registered under the reserved tag; `reflect:\"-\"` still stops recursion",
      [("tag", "reflect")])
  | .registered name => some ("DEBUG", "registered tag handler", [("tag", name)])
  | .replaced name => some ("WARN", "replaced an existing tag handler", [("tag", name)])
  | .unregistered name => some ("DEBUG", "unregistered tag handler", [("tag", name)])
  | .walking type => some ("TRACE", "reflecting record", [("type_name", type)])
  | .parsed t text => some ("DEBUG", "parsed tag argument", [("tag", t.name), ("value", text)])
  | .dispatching field handler =>
    some ("TRACE", "dispatching handler", [("field", field), ("handler", handler)])
  | .suppressed field => some ("TRACE", "recursion suppressed", [("field", field)])
  | .called _ | .reported _ => none

/-- The call that an event tells of. -/
def call? : Event → Option Call
  | .called c => some c
  | _ => none

/-- The report that an event passes on. -/
def report? : Event → Option Report
  | .reported r => some r
  | _ => none

end Event

/-- The calls among some events. -/
def calls (events : List Event) : List Call :=
  events.filterMap Event.call?

@[simp] theorem calls_nil : calls [] = [] :=
  rfl

@[simp] theorem calls_append (es es' : List Event) : calls (es ++ es') = calls es ++ calls es' :=
  List.filterMap_append

@[simp] theorem calls_reported (rs : List Report) : calls (rs.map .reported) = [] := by
  induction rs with
  | nil => rfl
  | cons r rs ih => exact ih

/-- The reports among some events. -/
def reports (events : List Event) : List Report :=
  events.filterMap Event.report?

end FieldNotes
