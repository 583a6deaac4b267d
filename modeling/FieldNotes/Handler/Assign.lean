import FieldNotes.Handler

/-! # Assigning handlers

The target of an assignment is what stands behind at most one pointer; a nil pointer is made to
point at a default first, and stays so whatever comes next.

* `Handler.set` assigns the argument and `Handler.setFormat` a format, through the setters that the
  schema has for the type of the target.  A type without one is a fault.
-/

namespace FieldNotes

namespace Value

/-- What stands behind at most one pointer that is not nil. -/
def target (v : Value) : Value :=
  v.pointee?.getD v

/-- The value with another target. -/
def withTarget (v t : Value) : Value :=
  match v with
  | .present _ => .present t
  | .owned _ => .owned t
  | _ => t

theorem withTarget_target (v : Value) : v.withTarget v.target = v := by
  cases v <;> rfl

end Value

namespace Effect

/-- Works on the target of a site's value. -/
def onTarget (schema : Schema) (site : Site) (work : Value → Value × Outcome) : Effect :=
  let v := schema.allocate site.value
  let (t, outcome) := work v.target
  ⟨v.withTarget t, outcome, []⟩

end Effect

namespace Handler

/-- Assigns an argument to the target. -/
def assign (schema : Schema) (site : Site) (arg : Arg) : Effect :=
  Effect.onTarget schema site fun t =>
    match schema.setter? t.ty with
    | some set => set arg t
    | none => (t, .faulted (.noSetter site.field.name t.typeName))

/-- Assigns a format to the target. -/
def assignFormat (schema : Schema) (site : Site) (arg : Arg) : Effect :=
  Effect.onTarget schema site fun t =>
    match arg.text? with
    | none => (t, .failed .formatNotText)
    | some format =>
      match schema.formatSetter? t.ty with
      | some set => set format t
      | none => (t, .faulted (.noFormatSetter site.field.name t.typeName))

/-- The handler that assigns its text. -/
def set (schema : Schema) : Handler :=
  ofRun (assign schema)

/-- The handler that assigns its text as a format. -/
def setFormat (schema : Schema) : Handler :=
  ofRun (assignFormat schema)

end Handler

end FieldNotes
