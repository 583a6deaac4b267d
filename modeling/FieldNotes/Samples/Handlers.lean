import FieldNotes.Handler.Assign
import FieldNotes.Handler.Validate

/-! # Sample handlers

Handlers with which dispatchers can be tried out: some that report what they see, some that fail,
and some that change values in simple ways.
-/

namespace FieldNotes.Samples

/-- Fails with a text of its own. -/
def refuse (site : Site) (text : String) : Effect :=
  .keep site (.failed (.custom text))

/-- Writes the value of its field. -/
def write (v : Value) : Effect :=
  ⟨v, .done, []⟩

/-- Wraps a number into the type `i64`. -/
def int64 (n : Int) : Value :=
  .scalar (.int .i64 (IntType.i64.wrap n))

/-- Reports where it is run. -/
def recorder (id : String) : Handler :=
  .ofRun fun site arg => ⟨site.value, .done, [.visited id site arg]⟩

/-- Reports on what value it is run. -/
def toucher (id : String) : Handler :=
  .ofRun fun site arg => ⟨site.value, .done, [.touched id site.value arg]⟩

/-- Reports on what field it is run. -/
def fielder (id : String) : Handler :=
  .ofRun fun site arg => ⟨site.value, .done, [.fielded id site arg]⟩

/-- Reports on what value it is run, and fails, or fails only for one text. -/
def failer (id : String) (only : Option String) : Handler :=
  .ofRun fun site arg =>
    let text := arg.text?.getD ""
    let outcome :=
      if only.isNone || only = arg.text? then .failed (.custom (text ++ " failed")) else .done
    ⟨site.value, outcome, [.touched id site.value arg]⟩

/-- Hides a text. -/
def masker : Handler :=
  .ofRun fun site arg =>
    match site.value with
    | .scalar (.text s) =>
      match arg.text? with
      | some "username" =>
        write (.scalar (.text (String.ofList (s.toList.take 1) ++ "**")))
      | some "password" => write (.scalar (.text "******"))
      | _ => refuse site "unknown mask"
    | _ => refuse site "datamask expects a string"

/-- Makes a pointer point at something. -/
def allocator (schema : Schema) : Handler :=
  .ofRun fun site _ =>
    if site.value.kind = .pointer then write (schema.allocate site.value)
    else refuse site "expected a pointer"

/-- Counts how often it reads and runs. -/
def counter (id : String) : Handler where
  parse text :=
    if text = "bad" then ⟨.error (.custom "bad argument"), [.parsed id]⟩
    else ⟨.ok (.text text), [.parsed id]⟩
  run site _ := ⟨site.value, .done, [.ran id]⟩

/-- Adds a number. -/
def adder : Handler where
  parse := Handler.asI64
  run site arg :=
    match arg, site.value.i64? with
    | .int n, some m => write (int64 (m + n))
    | .int _, none => refuse site "expected an i64"
    | _, _ => refuse site "expected an integer argument"

/-- Sets a field to another field of the root times the number of the context. -/
def scaler (schema : Schema) : Handler :=
  .ofRun fun site arg =>
    match site.context.int? with
    | none => refuse site "expected an i64 context"
    | some factor =>
      match arg.text? with
      | none => refuse site "expected a field name"
      | some name =>
        match (schema.fieldNamed? site.root name).bind Value.i64? with
        | none => refuse site "missing base"
        | some base =>
          match site.value.i64? with
          | none => refuse site "expected an i64"
          | some _ => write (int64 (base * factor))

/-- The number in a rule that is a word and a number between parentheses. -/
def bound? (word rule : String) : Option Int :=
  let start := word.toList ++ ['(']
  let cs := rule.toList
  let rest := cs.drop start.length
  if cs.take start.length = start ∧ rest.getLast? = some ')' then
    (IntType.i64.read (String.ofList rest.dropLast)).toOption
  else none

/-- Checks a number against a bound. -/
def checkRange (v : Value) (rule : String) : Outcome :=
  match v.indirect with
  | none => .done
  | some v =>
    match v.i64? with
    | none => .failed (.custom "expected an i64")
    | some n =>
      match bound? "min" rule, bound? "max" rule with
      | some least, _ =>
        if n < least then
          .failed (.custom ("the integer " ++ toString n ++ " is less than " ++ toString least))
        else .done
      | none, some most =>
        if most < n then
          .failed (.custom ("the integer " ++ toString n ++ " is greater than " ++ toString most))
        else .done
      | none, none => .faulted (.unknownRule rule)

/-- Checks the number behind at most one pointer. -/
def ranger : Handler :=
  .validate checkRange

/-- Assigns a number through the setter of the target. -/
def intSetter (schema : Schema) : Handler :=
  ⟨Handler.asI64, Handler.assign schema⟩

/-- Sets the target to twice the number that its text is. -/
def doubler (schema : Schema) : Handler :=
  .ofRun fun site arg =>
    Effect.onTarget schema site fun t =>
      match arg.text? with
      | none => (t, .failed (.custom "expected a string"))
      | some s =>
        match IntType.i64.read s with
        | .error e => (t, .failed (.number e))
        | .ok n =>
          match t.i64? with
          | none => (t, .failed (.custom "expected an i64"))
          | some _ => (int64 (2 * n), .done)

/-- Runs another handler with an argument of its own, or with the text as it is. -/
def wrapper (inner : Handler) (arg : Option Arg) : Handler :=
  .ofRun fun site own => inner.run site (arg.getD own)

end FieldNotes.Samples
