import FieldNotes.Argument
import FieldNotes.Value

/-! # Schemas

A schema declares the record types: the fields of each in order, with their annotations and types.
It also says which types can be assigned from an argument or from a format, what the sealed types
say of their values, and which record types have a default of their own.

Any other default follows the declarations.  A pointer is nil and a list is empty by default, so
the default of a record type may mention the type itself behind those.

* `Schema.indexOf?` finds the last field of a name.
* `Schema.isZero` is the zero test.  A scalar is zero if it is the default of its type, except that
  a floating-point number must have no bit set and an instant must be the start of year 1.  A sealed
  value is zero if its type holds it equal to the default.  A nil pointer, an empty list, and arrays
  and records of zeros are zero; an owned pointer never is.
* `Schema.isZero_record_iff`, `Schema.isZero_array_iff`: records and arrays are zero part by part.
* `Schema.default` is the default value of a type.
-/

namespace FieldNotes

/-- What is known of a field apart from its type: its name, whether it is exported, and its row of
tags. -/
structure Field where
  name : String
  exported : Bool
  row : String
  deriving DecidableEq, Repr

/-- How the visibility of a field is shown. -/
def Field.visibility (f : Field) : String :=
  if f.exported then "Exported" else "Private"

/-- How a field is written in diagnostics, with its position. -/
def Field.debug (f : Field) (index : Nat) : String :=
  Text.braced "FieldDescriptor"
    [("name", Text.literal f.name), ("visibility", f.visibility), ("tag", Text.literal f.row),
     ("index", toString index)]

/-- A field with the type of its value. -/
structure FieldDecl where
  field : Field
  ty : Ty
  deriving DecidableEq, Repr

/-- A record type: its name and its fields in order. -/
structure RecordDecl where
  name : String
  fields : List FieldDecl
  deriving DecidableEq, Repr

/-- Assignment from an argument: the new value of the target, and how the assignment ended. -/
abbrev Setter := Arg → Value → Value × Outcome

/-- Assignment from a format. -/
abbrev FormatSetter := String → Value → Value × Outcome

/-- The record types, the types that can be assigned, and what types say of their own values. -/
structure Schema where
  records : List RecordDecl
  setter? : Ty → Option Setter := fun _ => none
  formatSetter? : Ty → Option FormatSetter := fun _ => none
  /-- What sealed types say of their values, by the names of the types. -/
  sealing : String → (t : ScalarTy) → Sealing t := fun _ => .plain
  /-- The values of the fields in the default of a record type that has a default of its own. -/
  ownDefault? : String → Option (List Value) := fun _ => none

namespace Schema

/-- The declaration of a record type. -/
def record? (s : Schema) (name : String) : Option RecordDecl :=
  s.records.find? (·.name == name)

/-- The fields of a record type with their types. -/
def decls (s : Schema) (name : String) : List FieldDecl :=
  match s.record? name with
  | some r => r.fields
  | none => []

/-- The fields of a record type. -/
def fields (s : Schema) (name : String) : List Field :=
  (s.decls name).map (·.field)

/-- The position of the last of the fields that has a name. -/
def lastIndex? (fields : List Field) (name : String) : Option Nat :=
  (fields.zipIdx.reverse.find? (·.1.name == name)).map (·.2)

/-- The position of the last field of a name in a record type. -/
def indexOf? (s : Schema) (record name : String) : Option Nat :=
  lastIndex? (s.fields record) name

/-- The fields of the type of a value; it is a fault to ask them of a value that is no record. -/
def fieldsOf (s : Schema) (v : Value) : Except Fault (List Field) :=
  match v with
  | .record name _ => .ok (s.fields name)
  | v => .error (.notARecord v.typeName)

/-- How a record type is written in diagnostics, in short. -/
def typeDebug (s : Schema) (record : String) : String :=
  Text.braced "TypeInfo"
    [("type_name", Text.literal record), ("fields", toString (s.fields record).length)]

/-- How a record type is written in diagnostics, with its fields. -/
def tableDebug (s : Schema) (record : String) : String :=
  Text.braced "StructDescriptor"
    [("type_name", Text.literal record),
     ("fields", Text.bracketed (fun (f, i) => f.debug i) (s.fields record).zipIdx)]

/-- The value of a record's field of this name. -/
def fieldNamed? (s : Schema) (v : Value) (name : String) : Option Value :=
  match v with
  | .record record values => (s.indexOf? record name).bind (values[·]?)
  | _ => none

/-! ## Zeros -/

mutual

/-- Whether a value is the zero of its type. -/
def isZero (s : Schema) : Value → Bool
  | .scalar d => d.isZero
  | .sealed name d => (s.sealing name d.ty).isZero d
  | .record _ fields => s.allZero fields
  | .nil _ => true
  | .present _ => false
  | .owned _ => false
  | .list _ items => items.isEmpty
  | .array _ items => s.allZero items

/-- Whether all of these values are zero. -/
def allZero (s : Schema) : List Value → Bool
  | [] => true
  | v :: vs => s.isZero v && s.allZero vs

end

variable {s : Schema}

theorem allZero_iff {vs : List Value} : s.allZero vs = true ↔ ∀ v ∈ vs, s.isZero v = true := by
  induction vs with
  | nil => simp [allZero]
  | cons v vs ih => simp [allZero, ih]

theorem isZero_record_iff {name : String} {fields : List Value} :
    s.isZero (.record name fields) = true ↔ ∀ v ∈ fields, s.isZero v = true := by
  simp only [isZero, allZero_iff]

theorem isZero_array_iff {t : Ty} {items : List Value} :
    s.isZero (.array t items) = true ↔ ∀ v ∈ items, s.isZero v = true := by
  simp only [isZero, allZero_iff]

/-! ## Defaults -/

/-- The default of a type, given the defaults of record types. -/
def defaultWith (s : Schema) (records : String → Value) : Ty → Value
  | .scalar t => .scalar (Datum.default t)
  | .sealed name t => .sealed name (s.sealing name t).default
  | .record name => records name
  | .optional t => .nil t
  | .owned t => .owned (s.defaultWith records t)
  | .list t => .list t []
  | .array n t => .array t (List.replicate n (s.defaultWith records t))

/-- The default of a record type: its own, or else that of each field.  Its parts may hold other
records by value down to a depth. -/
def recordDefault (s : Schema) : Nat → String → Value
  | 0, name => .record name ((s.ownDefault? name).getD [])
  | depth + 1, name =>
    .record name ((s.ownDefault? name).getD
      ((s.decls name).map fun d => s.defaultWith (s.recordDefault depth) d.ty))

/-- The default of a type.  Where no record type holds itself by value, there are as many levels as
record types at most. -/
def default (s : Schema) (t : Ty) : Value :=
  s.defaultWith (s.recordDefault s.records.length) t

/-- The target of an assignment: what a pointer points at, after a nil one has been made to point
at a default, and any other value itself. -/
def allocate (s : Schema) : Value → Value
  | .nil t => .present (s.default t)
  | v => v

end Schema

end FieldNotes
