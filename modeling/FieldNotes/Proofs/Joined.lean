import FieldNotes.Proofs.Grammar
import FieldNotes.Proofs.Tables
import FieldNotes.Dispatcher.Walk

/-! # Rows that are joined

A field may be annotated with several rows of tags.  They are joined to a single row, and if each of
them is read to its end, the tags of this row are those of all of them, one row after the other.

* `Tag.ofRow_joined`: the tags of rows that are joined.
* `joined_rows_compose`: so it is for look-ups and for walks, and for the rows of a derived table.
-/

namespace FieldNotes

open Derive Text

namespace Tag

/-! ## Rows joined by blanks -/

theorem scan_joined {rows : List String} (h : ∀ row ∈ rows, ReadThrough row) :
    scan ([' '].intercalate (rows.map String.toList)) = rows.flatMap ofRow := by
  induction rows with
  | nil => rw [List.map_nil, List.intercalate_nil, scan_eq]; rfl
  | cons row rows ih =>
    rcases List.forall_mem_cons.1 h with ⟨hrow, hrows⟩
    cases rows with
    | nil =>
      rw [List.map_singleton, List.intercalate_singleton, List.flatMap_singleton]
      rfl
    | cons next rows =>
      rw [List.map_cons, List.map_cons, List.intercalate_cons_cons, List.append_assoc,
        scan_append hrow, scan_blanks_append blank_space, ← List.map_cons, ih hrows]
      rfl

/-- The tags of rows that are joined are the tags of each row, one row after the other. -/
theorem ofRow_joined {rows : List String} (h : ∀ row ∈ rows, ReadThrough row) :
    ofRow (String.intercalate " " rows) = rows.flatMap ofRow := by
  rw [ofRow, String.toList_intercalate]
  exact scan_joined h

/-- Under a name stands the first tag that any of the rows has for it. -/
theorem find?_joined {rows : List String} (h : ∀ row ∈ rows, ReadThrough row) (name : String) :
    find? (String.intercalate " " rows) name =
      (rows.findSome? fun row => (ofRow row).find? (·.name == name)).bind
        fun t => t.text.toOption := by
  rw [find?, ofRow_joined h, List.find?_flatMap]

end Tag

namespace Walk

variable (w : Setting) (go : Path → Walk Unit) (path : Path) (index : Nat) (f : Field)

theorem forM_flatMap {ι κ : Type} (rows : List ι) (tags : ι → List κ) (g : κ → Walk Unit) :
    (rows.flatMap tags).forM g = rows.forM fun row => (tags row).forM g := by
  induction rows with
  | nil => rfl
  | cons row rows ih =>
    show forM (tags row ++ rows.flatMap tags) g = _
    rw [List.forM_append]
    exact congrArg (fun m => (tags row).forM g >>= fun _ => m) ih

/-- A field with joined rows is visited by obeying one row after the other. -/
theorem visit_joined {rows : List String} (h : ∀ row ∈ rows, Tag.ReadThrough row)
    (hf : f.row = String.intercalate " " rows) :
    visit w go path index f = (do
      rows.forM fun row => (Tag.ofRow row).forM (obey w path index f)
      if rows.any fun row => (Tag.ofRow row).any Tag.isStop then tell [.suppressed f.name]
      else descend go path) := by
  simp only [visit, hf, Tag.ofRow_joined h, forM_flatMap, List.any_flatMap]

end Walk

/-! ## All rows of a field -/

/-- Rows that are each read to their end compose.

The row that they are joined to has the tags of all of them, one row after the other, and under a
name stands what the first tag of this name in any of them says.  In a walk, what a field with this
row asks for is done row by row, and it is one of the rows that keeps the walk out.  It is this row
that the table of a record has for a field that is annotated with the rows. -/
theorem joined_rows_compose {rows : List String} (h : ∀ row ∈ rows, Tag.ReadThrough row) :
    let joined := String.intercalate " " rows
    Tag.ofRow joined = rows.flatMap Tag.ofRow ∧
    (∀ name, name ≠ "" →
      Tag.lookup joined name =
        .ok ((rows.findSome? fun row => (Tag.ofRow row).find? (·.name == name)).bind
          fun t => t.text.toOption)) ∧
    (∀ (w : Walk.Setting) (go : Path → Walk Unit) (path : Path) (index : Nat) (f : Field),
      f.row = joined →
      Walk.visit w go path index f = (do
        rows.forM fun row => (Tag.ofRow row).forM (Walk.obey w path index f)
        if rows.any fun row => (Tag.ofRow row).any Tag.isStop then
          Walk.tell [.suppressed f.name]
        else Walk.descend go path)) ∧
    (∀ (read : ListReader) (item : Item) (table : List Entry) (o : Options),
      derive read item = .ok (.record table o) →
      ∀ p ∈ item.kept read, p.1.rows = rows →
        ∃ e ∈ table, e.member = memberOf item.kind p.2 p.1 ∧ e.field.row = joined) := by
  intro joined
  refine ⟨Tag.ofRow_joined h, ?_, ?_, ?_⟩
  · intro name hname
    have hasked : requireName .lookup name = .ok () := by
      rw [requireName, if_neg (String.isEmpty_iff.not.2 hname)]
    rw [Tag.lookup, hasked, Tag.find?_joined h name]
    rfl
  · intro w go path index f hf
    exact Walk.visit_joined w go path index f h hf
  · intro read item table o hderive p hp hrows
    rw [derive_record_eq hderive]
    refine ⟨entryAt item.kind p, List.mem_map_of_mem hp, rfl, ?_⟩
    exact congrArg (String.intercalate " ") hrows

/-! ## A name in two rows -/

namespace Caption

/-- A text that ends with a backslash, written `json:"a\\\\"`. -/
def first : Tag.Piece where
  blanks := []
  name := "json".toList
  inner := ['a', '\\', '\\']
  blanks_blank := Tag.blank_nil
  name_ne_nil := by decide
  name_chars c hc := Tag.isNameChar_iff.1 (List.all_eq_true.1 rfl c hc)
  inner_inner := .plain (by decide) (by decide) (.escaped '\\' .nil)

/-- Another text under the same name, written `json:"b"`. -/
def second : Tag.Piece where
  blanks := [' ']
  name := "json".toList
  inner := ['b']
  blanks_blank := Tag.blank_space
  name_ne_nil := by decide
  name_chars c hc := Tag.isNameChar_iff.1 (List.all_eq_true.1 rfl c hc)
  inner_inner := .plain (by decide) (by decide) .nil

/-- Three rows, of which the second is empty. -/
def rows : List String :=
  ["json:\"a\\\\\"", "", " json:\"b\" "]

theorem readThrough : ∀ row ∈ rows, Tag.ReadThrough row := by
  refine List.forall_mem_cons.2 ⟨?_, List.forall_mem_cons.2 ⟨?_, List.forall_mem_singleton.2 ?_⟩⟩
  · exact Tag.readThrough_of_pieces [first] Tag.blank_nil
  · exact Tag.readThrough_of_pieces [] Tag.blank_nil
  · exact Tag.readThrough_of_pieces [second] Tag.blank_space

end Caption

/-- The rows of a caption have two tags of one name, and the name stands for the text in the row
that comes first. -/
theorem Caption.rows_compose :
    (∀ row ∈ Caption.rows, Tag.ReadThrough row) ∧
      Tag.ofRow (String.intercalate " " Caption.rows) = [Caption.first.tag, Caption.second.tag] ∧
      Tag.lookup (String.intercalate " " Caption.rows) "json" = .ok (some "a\\") := by
  have hall := joined_rows_compose Caption.readThrough
  refine ⟨Caption.readThrough, ?_, ?_⟩
  · rw [hall.1]
    decide +kernel
  · rw [hall.2.1 "json" (by decide)]
    decide +kernel

end FieldNotes
