import FieldNotes.Number.Integer

/-! # Types of values

Scalars have no parts.  A sealed type is a scalar under a name of its own, which tells it from the
scalar it is made of.  A record type is known by its name alone; what fields it has is told by a
schema (`FieldNotes.Schema`), so record types may be recursive.
-/

namespace FieldNotes

/-- The types without parts. -/
inductive ScalarTy
  | bool
  | char
  | int (t : IntType)
  | single
  | double
  | text
  | duration
  | instant
  deriving DecidableEq, Repr

/-- The name that a scalar type is shown by. -/
def ScalarTy.name : ScalarTy → String
  | .bool => "bool"
  | .char => "char"
  | .int t => t.name
  | .single => "f32"
  | .double => "f64"
  | .text => "alloc::string::String"
  | .duration => "core::time::Duration"
  | .instant => "chrono::datetime::DateTime<chrono::offset::utc::Utc>"

/-- The types. -/
inductive Ty
  | scalar (s : ScalarTy)
  /-- A scalar under a name of its own. -/
  | sealed (name : String) (base : ScalarTy)
  | record (name : String)
  /-- A pointer that may be nil. -/
  | optional (elem : Ty)
  /-- A pointer that is never nil. -/
  | owned (elem : Ty)
  /-- A sequence of any length. -/
  | list (elem : Ty)
  /-- A sequence of fixed length. -/
  | array (length : Nat) (elem : Ty)
  deriving DecidableEq, Repr

/-- The name that a type is shown by. -/
def Ty.name : Ty → String
  | .scalar s => s.name
  | .sealed name _ => name
  | .record name => name
  | .optional t => "core::option::Option<" ++ t.name ++ ">"
  | .owned t => "alloc::boxed::Box<" ++ t.name ++ ">"
  | .list t => "alloc::vec::Vec<" ++ t.name ++ ">"
  | .array n t => "[" ++ t.name ++ "; " ++ toString n ++ "]"

/-- The shapes that a walk tells apart. -/
inductive Kind
  | record
  | pointer
  | sequence
  | scalar
  deriving DecidableEq, Repr

def Kind.name : Kind → String
  | .record => "struct"
  | .pointer => "pointer"
  | .sequence => "sequence"
  | .scalar => "scalar"

end FieldNotes
