import FieldNotes.Schema
import FieldNotes.Tag

/-! # Fields resolved through a tag

Under the name of a tag, the text of a field's tag of that name falls into a value and an argument.
A field whose value is `-` is left out; any other goes by its value, or by its declared name if the
value is empty.  The fields of a record type under a tag make a table without repeated names, in
which a name stands where it first occurs and belongs to the field that has it last.

* `Table.keys_insert`: inserting adds a name at the end, or no name at all.
-/

namespace FieldNotes

/-- The text of a tag, in two parts. -/
structure TagValue where
  value : String
  arg : String
  deriving DecidableEq, Repr

/-- A field under a tag. -/
structure TaggedField where
  name : String
  value : String
  arg : String
  /-- The position of the field in its record. -/
  index : Nat
  field : Field
  deriving DecidableEq, Repr

namespace Field

/-- The parts of the text of the first tag called `tag`, if it can be read. -/
def tagValue? (f : Field) (tag : String) : Option TagValue :=
  (Tag.find? f.row tag).map fun text => ⟨(Tag.splitArg text).1, (Tag.splitArg text).2⟩

/-- The parts of the text of a tag; an empty name is a fault. -/
def tagOf (f : Field) (tag : String) : Except Fault (Option TagValue) := do
  requireName .tagOf tag
  return f.tagValue? tag

/-- The field under a tag, unless the tag leaves it out. -/
def resolve? (f : Field) (index : Nat) (tag : String) : Option TaggedField :=
  let v := (f.tagValue? tag).getD ⟨"", ""⟩
  if v.value = "-" then none
  else some ⟨if v.value = "" then f.name else v.value, v.value, v.arg, index, f⟩

end Field

/-- A table by name, in the order in which names were added. -/
abbrev Table (α : Type) := List (String × α)

namespace Table

/-- Sets what belongs to a name; a name that is new is added at the end. -/
def insert (t : Table α) (name : String) (a : α) : Table α :=
  if t.any (·.1 == name) then t.map fun e => if e.1 == name then (name, a) else e
  else t ++ [(name, a)]

theorem keys_insert (t : Table α) (name : String) (a : α) :
    (t.insert name a).map (·.1) =
      if name ∈ t.map (·.1) then t.map (·.1) else t.map (·.1) ++ [name] := by
  by_cases h : name ∈ t.map (·.1)
  · have hany : t.any (·.1 == name) = true := by
      simpa [List.any_eq_true] using h
    rw [if_pos h, insert, if_pos hany, List.map_map]
    apply List.map_congr_left
    intro e _
    by_cases he : e.1 = name <;> simp [he]
  · have hany : ¬ t.any (·.1 == name) = true := by
      simpa [List.any_eq_true] using h
    rw [if_neg h, insert, if_neg hany]
    simp

end Table

/-- The table of fields under a tag. -/
def taggedTable (fields : List Field) (tag : String) : Table TaggedField :=
  (fields.zipIdx.filterMap fun (f, i) => f.resolve? i tag).foldl
    (fun t f => Table.insert t f.name f) []

/-- The table of fields under a tag; an empty name is a fault. -/
def taggedFields (fields : List Field) (tag : String) : Except Fault (Table TaggedField) := do
  requireName .taggedFields tag
  return taggedTable fields tag

end FieldNotes
