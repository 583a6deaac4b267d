import FieldNotes.Handler.Assign
import FieldNotes.Number.Binary
import FieldNotes.Time.Layout.Print
import FieldNotes.Time.Reading

/-! # The filling handler

The `default` handler gives a value to a target that is zero, and leaves any other alone.  Its text
is a literal, or a point and the name of a field of the root, whose value is copied.

A literal is assigned by the setter of the target's type if it has one.  Otherwise it is read as a
value of that type.  For texts and for numbers of type `i64` there is the literal `now()`, the
current time, which for texts may name a layout between its parentheses.  What time it is, and how
times are read and written, is given by some `Times`.

* `Fill.run_of_ne_zero`: a target that is not zero keeps its value.
-/

namespace FieldNotes

/-- How the filling handler reads times: the layouts it tries in order after the usual forms. -/
structure FillConfig where
  layouts : List String
  deriving DecidableEq, Repr

/-- The layouts that are tried if nothing else is said. -/
def FillConfig.standard : FillConfig :=
  ⟨["%Y-%m-%d %H:%M:%S%.f", "%Y-%m-%dT%H:%M:%S%.f", "%Y-%m-%d"]⟩

/-- What the filling handler knows of times: the current one, and how times are read and written. -/
structure Times where
  now : Instant
  readers : Instant.Readers
  writers : Instant.Writers

/-- The times with the readers and writers of this library. -/
def Times.standard (now : Instant) : Times :=
  ⟨now, .standard, .standard⟩

instance : Coe Instant Times :=
  ⟨Times.standard⟩

/-- Reads an instant; the error tells the text. -/
def Instant.Readers.read (r : Readers) (text : String) (layouts : List String) :
    Except FillError Instant :=
  match r.read? text layouts with
  | some t => .ok t
  | none => .error (.time text)

/-- What the filling handler works with. -/
structure Fill where
  schema : Schema
  config : FillConfig
  times : Times

namespace Fill

/-- The layout between the parentheses of a literal `now(..)`. -/
def nowLayout? (literal : String) : Option String :=
  match literal.toList with
  | 'n' :: 'o' :: 'w' :: '(' :: rest =>
    if rest.getLast? = some ')' then some (String.ofList rest.dropLast) else none
  | _ => none

/-- The texts that stand for a truth value. -/
def readBool? (literal : String) : Option Bool :=
  if literal ∈ ["1", "t", "T", "true", "TRUE", "True"] then some true
  else if literal ∈ ["0", "f", "F", "false", "FALSE", "False"] then some false
  else none

/-- A number that was read, or why the literal is none. -/
def number (literal type : String) (make : α → Datum) (r : Except NumberError α) :
    Except FillError Datum :=
  match r with
  | .ok n => .ok (make n)
  | .error e => .error (.unreadable literal type (.number e))

variable (w : Fill)

/-- The same at another time. -/
def showing (now : Instant) : Fill :=
  { w with times := { w.times with now := now } }

/-- A failure or a fault, while a text is made. -/
abbrev TextResult := Except (FillError ⊕ Fault) String

/-- The text that a literal stands for. -/
def text (literal : String) : TextResult :=
  match nowLayout? literal with
  | none => .ok literal
  | some layout =>
    if layout.isEmpty then .ok (w.times.writers.internet w.times.now)
    else
      match w.times.writers.layout? layout with
      | none => .error (.inl (.layout layout))
      | some print =>
        match print w.times.now with
        | some s => .ok s
        | none => .error (.inr .unprintableLayout)

/-- The scalar of a type that a literal stands for. -/
def datum (literal : String) : ScalarTy → Except (FillError ⊕ Fault) Datum
  | .text => (w.text literal).map .text
  | .duration =>
    match Duration.parse? literal with
    | some d => .ok (.duration d)
    | none => .error (.inl (.duration literal))
  | .instant =>
    ((w.times.readers.read literal w.config.layouts).map .instant).mapError .inl
  | .bool =>
    match readBool? literal with
    | some b => .ok (.bool b)
    | none => .error (.inl (.unreadable literal "bool" .notBool))
  | .int .i64 =>
    match nowLayout? literal with
    | some _ => .ok (.int .i64 w.times.now.seconds)
    | none => (number literal "i64" (.int .i64) (IntType.i64.read literal)).mapError .inl
  | .int t => (number literal t.name (.int t) (t.read literal)).mapError .inl
  | .single =>
    (number literal "f32" (fun n => .single n.toUInt32) (BinaryFormat.single.read literal)).mapError
      .inl
  | .double =>
    (number literal "f64" (fun n => .double n.toUInt64) (BinaryFormat.double.read literal)).mapError
      .inl
  | .char => .error (.inl (.unsupported ScalarTy.char.name))

/-- The target with the value that a literal stands for. -/
def setLiteral (literal : String) (target : Value) : Value × Outcome :=
  match w.schema.setter? target.ty with
  | some set => set (.text literal) target
  | none =>
    match target with
    | .scalar d =>
      match w.datum literal d.ty with
      | .ok d => (.scalar d, .done)
      | .error (.inl e) => (target, .failed (.fill e))
      | .error (.inr f) => (target, .faulted f)
    | _ => (target, .failed (.fill (.unsupported target.typeName)))

/-- The target with the value of a field of the root. -/
def copyField (root : Value) (name : String) (target : Value) : Value × Outcome :=
  if name.isEmpty then (target, .failed (.fill .emptyFieldRef))
  else
    match w.schema.fieldNamed? root name with
    | none => (target, .faulted (.unknownField name))
    | some field =>
      match field.indirect with
      | none => (target, .faulted (.nilField name))
      | some source =>
        match source.copy? with
        | none => (target, .faulted (.notCopyable name source.typeName))
        | some copy =>
          match target.assign? copy with
          | none => (target, .faulted (.typeMismatch target.typeName name copy.typeName))
          | some v => (v, .done)

/-- Fills the value of a site.  A reference is followed in the root as it is once the value of the
site has been allocated. -/
def run (site : Site) (arg : Arg) : Effect :=
  match arg with
  | .fill a =>
    Effect.onTarget w.schema site fun target =>
      if !w.schema.isZero target then (target, .done)
      else
        match a with
        | .field name =>
          let root := (site.root.set? site.path (w.schema.allocate site.value)).getD site.root
          w.copyField root name target
        | .literal literal => w.setLiteral literal target
  | _ => .keep site (.failed (.fill .argument))

theorem run_of_ne_zero {site : Site} {a : FillArg}
    (h : w.schema.isZero (w.schema.allocate site.value).target = false) :
    w.run site (.fill a) = ⟨w.schema.allocate site.value, .done, []⟩ := by
  simp [run, Effect.onTarget, h, Value.withTarget_target]

end Fill

namespace Handler

/-- The handler that fills fields, by a clock that shows the current time wherever it runs. -/
def fillBy (w : Fill) (clock : Site → Instant) : Handler :=
  ⟨fun text => ⟨.ok (.fill (.read text)), []⟩, fun site => (w.showing (clock site)).run site⟩

/-- The handler that fills fields, by a clock that stands still. -/
def fill (w : Fill) : Handler :=
  fillBy w fun _ => w.times.now

end Handler

end FieldNotes
