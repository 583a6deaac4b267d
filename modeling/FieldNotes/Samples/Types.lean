import FieldNotes.Schema

/-! # Sample types

Record types and sealed types with which dispatchers can be tried out, among them some that can be
assigned from arguments and formats.  Their names are shown behind a `scope`.
-/

namespace FieldNotes.Samples

/-- A field of type `ty` with a row of tags. -/
def exported (name : String) (ty : Ty) (row : String) : FieldDecl :=
  ⟨⟨name, true, row⟩, ty⟩

/-- The same, but not exported. -/
def hidden (name : String) (ty : Ty) (row : String) : FieldDecl :=
  ⟨⟨name, false, row⟩, ty⟩

def i64 : Ty := .scalar (.int .i64)

def text : Ty := .scalar .text

variable (scope : String)

/-- A switch that is off or on. -/
def mode : Ty := .sealed (scope ++ "Mode") .bool

/-- A number that can be assigned. -/
def count : Ty := .sealed (scope ++ "Count") (.int .i64)

/-- A text that can be assigned, also as a format. -/
def label : Ty := .sealed (scope ++ "Label") .text

def pointName : String := scope ++ "Point"

def moneyName : String := scope ++ "Money"

/-- The name of the wrapper of a type. -/
def wrapName (inner : Ty) : String :=
  scope ++ "Wrap<" ++ inner.name ++ ">"

def point : RecordDecl :=
  ⟨pointName scope,
   [exported "x" i64 "json:\"px\" seen:\"x\"",
    exported "y" i64 "json:\"-\" seen:\"y\"",
    hidden "label" text "seen:\"label\""]⟩

def pair : RecordDecl :=
  ⟨scope ++ "Pair",
   [exported "0" (.scalar (.int .u8)) "default:\"7\"",
    hidden "1" (.optional text) "",
    exported "2" (.list (.record (pointName scope))) "seen:\"third\" reflect:\"-\""]⟩

def unit : RecordDecl :=
  ⟨scope ++ "Unit", []⟩

def account : RecordDecl :=
  ⟨scope ++ "Account",
   [exported "id" i64 "json:\"id\" db:\"account_id\"",
    exported "password" text "json:\"-\"",
    exported "name" text "db:\"name,unique\"",
    hidden "note" text "json:\",omitempty\"",
    hidden "created" i64 "json:\"created\" db:\"created_at\""]⟩

def wrap (inner : Ty) : RecordDecl :=
  ⟨wrapName scope inner,
   [exported "inner" inner "seen:\"inner\"",
    exported "items" (.list inner) "",
    exported "r#type" (.optional inner) ""]⟩

def money : RecordDecl :=
  ⟨moneyName scope,
   [exported "amount" i64 "seen:\"amount\" default:\"5\"",
    exported "unit" text "seen:\"unit\""]⟩

/-- The sample record types. -/
def records : List RecordDecl :=
  [point scope, pair scope, unit scope, account scope, wrap scope i64,
   wrap scope (.record (pointName scope)), money scope]

/-- Whether a type of this name is one of the samples, which have descriptions of their own. -/
def isSample (name : String) : Bool :=
  (records scope).any (·.name == name)

/-- The sample types that are known by a short name. -/
def named? (name : String) : Option Ty :=
  match name with
  | "Mode" => some (mode scope)
  | "Count" => some (count scope)
  | "Label" => some (label scope)
  | "Wrap" => some (.record (wrapName scope i64))
  | "WrapPoint" => some (.record (wrapName scope (.record (pointName scope))))
  | name => if isSample scope (scope ++ name) then some (.record (scope ++ name)) else none

/-- Sets the unit of an amount to a text, or to a question mark. -/
def setMoney (arg : Arg) (v : Value) : Value × Outcome :=
  match v with
  | .record name [amount, _] =>
    (.record name [amount, .scalar (.text (arg.text?.getD "?"))], .done)
  | v => (v, .done)

/-- Sets an amount to the length of the format. -/
def formatMoney (format : String) (v : Value) : Value × Outcome :=
  match v with
  | .record name [_, unit] => (.record name [.scalar (.int .i64 format.length), unit], .done)
  | v => (v, .done)

/-- Sets a count to a number, or to the number that a text is. -/
def setCount (arg : Arg) (v : Value) : Value × Outcome :=
  match arg with
  | .int n => (.sealed v.typeName (.int .i64 n), .done)
  | .text s =>
    match IntType.i64.read s with
    | .ok n => (.sealed v.typeName (.int .i64 n), .done)
    | .error e => (v, .failed (.number e))
  | .fill _ => (v, .failed (.custom "unexpected argument"))

/-- Sets a label to a text, or to the empty one. -/
def setLabel (arg : Arg) (v : Value) : Value × Outcome :=
  (.sealed v.typeName (.text (arg.text?.getD "")), .done)

/-- Sets a label to a format between angle brackets. -/
def formatLabel (format : String) (v : Value) : Value × Outcome :=
  if format.isEmpty then (v, .failed (.custom "empty format"))
  else (.sealed v.typeName (.text ("<" ++ format ++ ">")), .done)

/-- The setters of the sample types. -/
def setter? (t : Ty) : Option Setter :=
  if t = .record (moneyName scope) then some setMoney
  else if t = count scope then some setCount
  else if t = label scope then some setLabel
  else none

/-- The format setters of the sample types. -/
def formatSetter? (t : Ty) : Option FormatSetter :=
  if t = .record (moneyName scope) then some formatMoney
  else if t = label scope then some formatLabel
  else none

/-- The sample types together with other record types. -/
def schema (others : List RecordDecl) : Schema :=
  { records := others ++ records scope
    setter? := setter? scope
    formatSetter? := formatSetter? scope }

end FieldNotes.Samples
