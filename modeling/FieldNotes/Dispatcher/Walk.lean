import FieldNotes.Dispatcher

/-! # Walks

A walk visits the exported fields of a record in order.  On each it runs the handlers bound to the
names of the field's tags, in the order of the tags; then, unless a tag stops it, it goes on into
the value that they left: into a record, into the record behind one pointer, or into each record
that is an item of a sequence, and nowhere else.

A walk ends at the first handler that fails, at a fault, or when it has gone down as many records as
it was allowed to.  What was written before stays.

The state of a walk holds the root, and every field is reached from there by its path, since a
handler may have changed the shape of the value that the path goes through.
-/

namespace FieldNotes

/-- Why a walk ends in an orderly way before its time. -/
inductive WalkError
  /-- A handler failed on a field. -/
  | field (name handler : String) (source : HandlerError)
  | notARecord (type : String)
  /-- A pointer leads to a value that is no record. -/
  | notAPointerToRecord (type : String)
  deriving DecidableEq, Repr

def WalkError.message : WalkError → String
  | .field name _ source => name ++ ": " ++ source.message
  | .notARecord type => "the value " ++ type ++ " is not a struct"
  | .notAPointerToRecord type => "the value " ++ type ++ " is not a pointer to struct"

/-- Why a walk ends before its time. -/
inductive Halt
  | failed (e : WalkError)
  | faulted (f : Fault)
  /-- The walk went down as far as it was allowed to. -/
  | exhausted
  deriving DecidableEq, Repr

namespace Walk

/-- What a walk keeps beside the values. -/
structure Journal where
  memo : Memo
  /-- What happened so far. -/
  events : List Event

/-- Adds events. -/
def Journal.note (j : Journal) (events : List Event) : Journal :=
  { j with events := j.events ++ events }

/-- What changes during a walk. -/
structure State extends Journal where
  root : Value

end Walk

/-- A part of a walk. -/
abbrev Walk := EStateM Halt Walk.State

namespace Walk

/-- Adds events. -/
def tell (events : List Event) : Walk Unit :=
  modify fun s => { s with toJournal := s.note events }

/-- Ends the walk with a fault. -/
def fault (f : Fault) : Walk α :=
  throw (.faulted f)

/-- The value at a path. -/
def valueAt? (path : Path) : Walk (Option Value) :=
  return (← get).root.get? path

/-- The shape of the value at a path. -/
def kindAt? (path : Path) : Walk (Option Kind) :=
  return (← valueAt? path).map Value.kind

/-- Writes the value at a path. -/
def write (path : Path) (v : Value) : Walk Unit :=
  modify fun s => { s with root := s.root.put path v }

/-- What stays the same during a walk. -/
structure Setting where
  schema : Schema
  dispatcher : Dispatcher
  context : Context

variable (w : Setting)

/-- The argument of a tag. -/
def argument (h : Handler) (t : Tag) : Walk Arg := do
  let asked := (← get).memo.ask h t
  modify fun s => { s with memo := asked.memo }
  tell asked.events
  match asked.result with
  | .ok arg => return arg
  | .error f => fault f

/-- Runs a handler on the field at a path. -/
def call (h : Handler) (path : Path) (index : Nat) (f : Field) (t : Tag) (arg : Arg) :
    Walk Unit := do
  tell [.dispatching f.name t.name]
  match ← valueAt? path with
  | none => fault .strayPath
  | some value =>
    tell [.called ⟨path, index, f, t, arg⟩]
    let effect := h.run ⟨w.context, (← get).root, path, index, f, value⟩ arg
    write path effect.value
    tell (effect.reports.map .reported)
    match effect.outcome with
    | .done => return
    | .failed e => throw (.failed (.field (w.dispatcher.shownName f) t.name e))
    | .faulted f => fault f

/-- Does what a tag of the field at a path asks for. -/
def obey (path : Path) (index : Nat) (f : Field) (t : Tag) : Walk Unit := do
  if t.isStop then return
  match w.dispatcher.handler? t.name with
  | none => return
  | some h => call w h path index f t (← argument h t)

/-- Enters the value at a path with `enter` wherever it holds a record. -/
def descend (enter : Path → Walk Unit) (path : Path) : Walk Unit := do
  match ← valueAt? path with
  | none => return
  | some v =>
    match v.kind with
    | .record => enter path
    | .pointer =>
      if (← kindAt? (path ++ [.deref])) = some .record then enter (path ++ [.deref])
    | .sequence =>
      (List.range (v.items?.getD []).length).forM fun i => do
        if (← kindAt? (path ++ [.index i])) = some .record then enter (path ++ [.index i])
    | .scalar => return

/-- Visits the field at a path. -/
def visit (enter : Path → Walk Unit) (path : Path) (index : Nat) (f : Field) : Walk Unit := do
  let tags := Tag.ofRow f.row
  tags.forM (obey w path index f)
  if tags.any Tag.isStop then tell [.suppressed f.name] else descend enter path

/-- Visits the exported fields of the record at a path, going down at most `depth` records.  A
record holds a value for every field of its type. -/
def enter : (depth : Nat) → Path → Walk Unit
  | 0, _ => throw .exhausted
  | depth + 1, path => do
    match ← valueAt? path with
    | some (.record name values) =>
      ((w.schema.fields name).take values.length).zipIdx.forM fun (f, i) =>
        if f.exported then visit w (enter depth) (path ++ [.field i]) i f else return
    | _ => return

end Walk

/-- How a walk ended, and what it left behind. -/
structure Walked where
  result : Except Halt Unit
  value : Value
  memo : Memo
  events : List Event

namespace Dispatcher

/-- Walks a record. -/
def walkRecord (d : Dispatcher) (schema : Schema) (context : Context) (depth : Nat) (v : Value) :
    Walked :=
  let start : Walk.State := { root := v, memo := d.memo, events := [.walking v.typeName] }
  match (Walk.enter ⟨schema, d, context⟩ depth []).run start with
  | .ok _ s => ⟨.ok (), s.root, s.memo, s.events⟩
  | .error h s => ⟨.error h, s.root, s.memo, s.events⟩

/-- Walks a record or the record that a pointer leads to; a nil pointer is left as it is. -/
def walk (d : Dispatcher) (schema : Schema) (context : Context) (depth : Nat) (v : Value) :
    Walked :=
  match v.kind with
  | .record => d.walkRecord schema context depth v
  | .pointer =>
    match v.pointee? with
    | none => ⟨.ok (), v, d.memo, []⟩
    | some p =>
      if p.kind = .record then
        let walked := d.walkRecord schema context depth p
        { walked with value := (v.setChild? .deref walked.value).getD v }
      else ⟨.error (.failed (.notAPointerToRecord v.typeName)), v, d.memo, []⟩
  | _ => ⟨.error (.failed (.notARecord v.typeName)), v, d.memo, []⟩

end Dispatcher

end FieldNotes
