import FieldNotes.Type
import FieldNotes.Time.Duration
import FieldNotes.Time.Instant

/-! # Values

A value knows its own type: the empty pointers and sequences carry the type of what they would
hold, and a record carries the name of its type.

What a sealed type says of its values is not written in them: which one is the default, and which
ones are equal.  It is a `Sealing`.
-/

namespace FieldNotes

/-- What a scalar holds.  Floating-point numbers are kept as their bits. -/
inductive Datum
  | bool (b : Bool)
  | char (c : Char)
  | int (t : IntType) (n : Int)
  | single (bits : UInt32)
  | double (bits : UInt64)
  | text (s : String)
  | duration (d : Duration)
  | instant (t : Instant)
  deriving DecidableEq, Repr

namespace Datum

def ty : Datum → ScalarTy
  | .bool _ => .bool
  | .char _ => .char
  | .int t _ => .int t
  | .single _ => .single
  | .double _ => .double
  | .text _ => .text
  | .duration _ => .duration
  | .instant _ => .instant

/-- The default of a scalar type. -/
def default : ScalarTy → Datum
  | .bool => .bool false
  | .char => .char '\x00'
  | .int t => .int t 0
  | .single => .single 0
  | .double => .double 0
  | .text => .text ""
  | .duration => .duration Duration.zero
  | .instant => .instant Instant.epoch

/-- The zero of a scalar type: its default, but for instants. -/
def zero : ScalarTy → Datum
  | .instant => .instant Instant.zero
  | t => default t

def isZero (d : Datum) : Bool :=
  d == zero d.ty

theorem ty_default (t : ScalarTy) : (default t).ty = t := by
  cases t <;> rfl

theorem ty_zero (t : ScalarTy) : (zero t).ty = t := by
  cases t <;> rfl

theorem isZero_iff {d : Datum} : d.isZero = true ↔ d = zero d.ty := by
  simp [isZero]

end Datum

/-- What a sealed type says of its values: which one is the default, and which ones are equal. -/
structure Sealing (t : ScalarTy) where
  default : Datum
  equal : Datum → Datum → Bool
  ty_default : default.ty = t

namespace Sealing

/-- The default and the equality of the scalar type itself. -/
def plain (t : ScalarTy) : Sealing t :=
  ⟨Datum.default t, (· == ·), Datum.ty_default t⟩

/-- A sealed value is zero if it is equal to the default. -/
def isZero {t : ScalarTy} (k : Sealing t) (d : Datum) : Bool :=
  k.equal d k.default

end Sealing

/-- A value of any type. -/
inductive Value
  | scalar (d : Datum)
  | sealed (name : String) (d : Datum)
  | record (name : String) (fields : List Value)
  /-- A nil pointer. -/
  | nil (elem : Ty)
  /-- A pointer of the optional kind that is not nil. -/
  | present (v : Value)
  | owned (v : Value)
  | list (elem : Ty) (items : List Value)
  | array (elem : Ty) (items : List Value)
  deriving Repr, Inhabited

namespace Value

def ty : Value → Ty
  | .scalar d => .scalar d.ty
  | .sealed name d => .sealed name d.ty
  | .record name _ => .record name
  | .nil t => .optional t
  | .present v => .optional v.ty
  | .owned v => .owned v.ty
  | .list t _ => .list t
  | .array t items => .array items.length t

def kind : Value → Kind
  | .scalar _ | .sealed .. => .scalar
  | .record .. => .record
  | .nil _ | .present _ | .owned _ => .pointer
  | .list .. | .array .. => .sequence

/-- The name of a value's type. -/
def typeName (v : Value) : String :=
  v.ty.name

/-- How a value is written in diagnostics. -/
def debug (v : Value) : String :=
  "Value<" ++ v.typeName ++ ">(" ++ v.kind.name ++ ")"

/-- What a pointer points at. -/
def pointee? : Value → Option Value
  | .present v | .owned v => some v
  | _ => none

/-- The items of a sequence. -/
def items? : Value → Option (List Value)
  | .list _ items | .array _ items => some items
  | _ => none

/-- What stands behind at most one pointer: the pointee of a pointer, if it is not nil, and any
other value itself. -/
def indirect (v : Value) : Option Value :=
  match v.kind with
  | .pointer => v.pointee?
  | _ => some v

/-- A copy of a value, for the types that can be copied: the scalars and the sealed types. -/
def copy? (v : Value) : Option Value :=
  match v.kind with
  | .scalar => some v
  | _ => none

/-- The target with the content of a source; it needs a scalar or sealed type and the same one. -/
def assign? (target source : Value) : Option Value :=
  if target.kind = .scalar ∧ target.ty = source.ty then some source else none

theorem ty_assign? {target source v : Value} (h : target.assign? source = some v) :
    v.ty = target.ty := by
  simp only [assign?] at h
  split at h
  · rename_i hc
    simp at h
    rw [← h, hc.2]
  · simp at h

/-- The number of a value of type `i64`. -/
def i64? : Value → Option Int
  | .scalar (.int .i64 n) => some n
  | _ => none

end Value

end FieldNotes
