import FieldNotes.Derive.Table

/-! # Written records

What is written for an item whose values are records, and what it does with them.  The descriptors
of the fields are told apart by their positions in the table; the accessors lead such a position to
a member, one for reading and one for writing; and the zero test looks at members one after another.

A value of the item holds more than that: members that are left out of the table keep their
positions among all members.

* `RecordCode.ofTable` is what is written for a table.
* `RecordCode.field?`, `RecordCode.lend?` and `RecordCode.isZero` are what it does.
* `RecordCode.reflect` is the record that walks are shown.
-/

namespace FieldNotes.Derive

/-- A field as it is described, with its position in the table. -/
structure Descriptor where
  field : Field
  index : Nat
  deriving DecidableEq, Repr

/-- What is written for a record. -/
structure RecordCode where
  descriptors : List Descriptor
  /-- At which position which member is read. -/
  reads : List (Nat × Member)
  /-- At which position which member is lent, to be written. -/
  lends : List (Nat × Member)
  /-- The members that the zero test looks at, in order. -/
  tests : List Member
  deriving DecidableEq, Repr

/-- Members by their positions in a table. -/
def numbered (members : List Member) : List (Nat × Member) :=
  (List.range members.length).zip members

/-- What is written for a table. -/
def RecordCode.ofTable (table : List Entry) : RecordCode where
  descriptors := table.zipIdx.map fun (e, i) => ⟨e.field, i⟩
  reads := numbered (table.map (·.member))
  lends := numbered (table.map (·.member))
  tests := table.map (·.member)

/-- The position of a member among all fields of an item. -/
def Item.position? (item : Item) : Member → Option Nat
  | .named name => item.members.findIdx? (·.name == name)
  | .position i => if i < item.members.length then some i else none

/-- What the members of a value hold, in order. -/
structure Contents (item : Item) (α : Type) where
  parts : List α
  length_parts : parts.length = item.members.length

namespace Contents

variable {item : Item} {α : Type}

/-- What a member holds. -/
def get? (x : Contents item α) (m : Member) : Option α :=
  (item.position? m).bind (x.parts[·]?)

/-- The same contents, but for the part at a position. -/
def setAt (x : Contents item α) (i : Nat) (a : α) : Contents item α :=
  ⟨x.parts.set i a, by rw [List.length_set, x.length_parts]⟩

/-- The same contents, but for what a member holds. -/
def set (x : Contents item α) (m : Member) (a : α) : Contents item α :=
  match item.position? m with
  | some i => x.setAt i a
  | none => x

end Contents

namespace RecordCode

variable (code : RecordCode) {item : Item} {α : Type}

/-- The fields that are described. -/
def fields : List Field :=
  code.descriptors.map (·.field)

/-- What stands at a position. -/
def field? (x : Contents item α) (k : Nat) : Option α :=
  (code.reads.lookup k).bind x.get?

/-- What stands at a position, with what becomes of the whole when it is written. -/
def lend? (x : Contents item α) (k : Nat) : Option (α × (α → Contents item α)) :=
  (code.lends.lookup k).bind fun m => (x.get? m).map fun a => (a, x.set m)

/-- Whether a value is zero, given when a part is. -/
def isZero (zero : α → Bool) (x : Contents item α) : Bool :=
  code.tests.all fun m => (x.get? m).any zero

/-- The record that walks are shown, under the name of its type. -/
def reflect (name : String) (x : Contents item Value) : Value :=
  .record name ((List.range code.descriptors.length).filterMap (code.field? x))

end RecordCode

/-- What is written for the table of an item. -/
def Derived.code (d : Derived) : RecordCode :=
  .ofTable d.table

end FieldNotes.Derive
