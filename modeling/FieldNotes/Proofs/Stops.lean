import FieldNotes.Proofs.Grammar
import FieldNotes.Dispatcher.Walk

/-! # Tags that stop walks

A tag is told to stop walks by its text as it is written or by its text as it is read, whichever is
a dash.  The two come to the same: what is written is between quotes, so it is no dash itself, and
it is never taken for the text of a tag that cannot be read.

* `Tag.Stops` says when a tag stops walks by what is read only, and `Tag.isStop_iff` that these are
  the tags that do.
* `Walk.visit_stopped`, `Walk.visit_open`: a walk goes on into the value of a field if no tag of the
  field stops it, whatever handlers there are.
* `Field.stopped` puts such a tag behind the others, and `Field.ofRow_stopped` says what is read
  then.
* `Schema.stopped` does this to a field of a record type.
-/

namespace FieldNotes

open Text

namespace Tag

/-- A tag stops walks if it has the reserved name and its text is a dash, but for blanks. -/
def Stops (t : Tag) : Prop :=
  t.name = stopName ∧ ∃ s, t.text = .ok s ∧ trim s = "-"

/-- The tag that stops walks, as it is commonly written. -/
def dash : Tag :=
  ⟨stopName, "\"-\""⟩

theorem text_dash : dash.text = .ok "-" := by
  decide +kernel

/-- What is written for a tag begins with a quote. -/
theorem Piece.quoted_ne_dash (p : Piece) : p.tag.quoted ≠ "-" := by
  intro h
  have hchars : '"' :: p.inner ++ ['"'] = ['-'] := by
    rw [← String.toList_ofList (l := '"' :: p.inner ++ ['"'])]
    exact congrArg String.toList h
  cases hchars

theorem Piece.isStop_iff (p : Piece) : p.tag.isStop = true ↔ p.tag.Stops := by
  unfold isStop Stops looseText
  rw [Bool.and_eq_true, Bool.or_eq_true, beq_iff_eq, beq_iff_eq, beq_iff_eq]
  refine and_congr_right fun hname => ?_
  constructor
  · rintro (hquoted | hloose)
    · have htag : p.tag = dash := by
        rw [dash, ← hname, ← hquoted]
      exact ⟨"-", htag ▸ text_dash, rfl⟩
    · cases htext : p.tag.text with
      | ok s =>
        rw [htext] at hloose
        exact ⟨s, rfl, hloose⟩
      | error e =>
        rw [htext] at hloose
        exact absurd hloose p.quoted_ne_dash
  · rintro ⟨s, htext, hdash⟩
    rw [htext]
    exact Or.inr hdash

/-- The tags of a row are those of some pieces. -/
theorem exists_piece {row : String} {t : Tag} (h : t ∈ ofRow row) : ∃ p : Piece, p.tag = t := by
  rcases exists_splits row.toList with ⟨ps, rest, hsplits⟩
  rw [ofRow, scan_of_splits hsplits] at h
  rcases List.mem_map.1 h with ⟨p, _, hp⟩
  exact ⟨p, hp⟩

/-- A tag of a row stops walks by what is read of it. -/
theorem isStop_iff {row : String} {t : Tag} (h : t ∈ ofRow row) : t.isStop = true ↔ t.Stops := by
  rcases exists_piece h with ⟨p, rfl⟩
  exact p.isStop_iff

theorem any_isStop_iff (row : String) :
    (ofRow row).any isStop = true ↔ ∃ t ∈ ofRow row, t.Stops := by
  rw [List.any_eq_true]
  refine exists_congr fun t => and_congr_right fun ht => ?_
  exact isStop_iff ht

end Tag

namespace Walk

variable (w : Setting) (go : Path → Walk Unit) (path : Path) (index : Nat) (f : Field)

/-- A walk does not go on into the value of a field that has a tag which stops it. -/
theorem visit_stopped (h : ∃ t ∈ Tag.ofRow f.row, t.Stops) :
    visit w go path index f = (do
      (Tag.ofRow f.row).forM (obey w path index f)
      tell [.suppressed f.name]) := by
  have hany := (Tag.any_isStop_iff f.row).2 h
  simp only [visit, hany, if_true]

/-- A walk goes on into the value of any other field. -/
theorem visit_open (h : ¬ ∃ t ∈ Tag.ofRow f.row, t.Stops) :
    visit w go path index f = (do
      (Tag.ofRow f.row).forM (obey w path index f)
      descend go path) := by
  have hany : (Tag.ofRow f.row).any Tag.isStop = false :=
    Bool.eq_false_iff.2 fun hany => h ((Tag.any_isStop_iff f.row).1 hany)
  simp only [visit, hany, Bool.false_eq_true, if_false]

/-- A tag that stops walks asks for nothing else. -/
theorem obey_stops {t : Tag} (ht : t ∈ Tag.ofRow f.row) (h : t.Stops) :
    obey w path index f t = pure () := by
  rw [obey, (Tag.isStop_iff ht).2 h]
  rfl

/-- For any other tag the handler bound to its name is run, also if this is the reserved name. -/
theorem obey_other {t : Tag} (ht : t ∈ Tag.ofRow f.row) (h : ¬ t.Stops) {handler : Handler}
    (hh : w.dispatcher.handler? t.name = some handler) :
    obey w path index f t = (do
      let arg ← argument handler t
      call w handler path index f t arg) := by
  have hstop : t.isStop = false :=
    Bool.eq_false_iff.2 fun hstop => h ((Tag.isStop_iff ht).1 hstop)
  simp only [obey, hstop, Bool.false_eq_true, if_false, hh]

end Walk

/-! ## One more tag -/

/-- The field with one more tag, which stops walks.  There may be blanks in front of it. -/
def Field.stopped (gap : String) (f : Field) : Field :=
  { f with row := f.row ++ gap ++ "reflect:\"-\"" }

/-- The tags of a field whose row is read to its end come first. -/
theorem Field.ofRow_stopped {gap : String} {f : Field} (hrow : Tag.ReadThrough f.row)
    (hgap : ∀ c ∈ gap.toList, isAsciiBlank c = true) :
    Tag.ofRow (f.stopped gap).row = Tag.ofRow f.row ++ [Tag.dash] := by
  -- behind the blanks the row has one more piece
  let p : Tag.Piece :=
    { blanks := gap.toList
      name := stopName.toList
      inner := ['-']
      blanks_blank := hgap
      name_ne_nil := by decide
      name_chars := fun c hc => Tag.isNameChar_iff.1 (List.all_eq_true.1 rfl c hc)
      inner_inner := .plain (by decide) (by decide) .nil }
  have hchars : (f.stopped gap).row.toList =
      f.row.toList ++ ([p].flatMap Tag.Piece.chars ++ []) := by
    have hpair : p.pair = "reflect:\"-\"".toList := rfl
    rw [stopped, String.toList_append, String.toList_append, List.append_assoc, List.append_nil,
      List.flatMap_singleton, Tag.Piece.chars, hpair]
  have hnone : Tag.scan [] = [] := by rw [Tag.scan_eq]; rfl
  rw [Tag.ofRow, hchars, Tag.scan_append hrow, Tag.scan_pieces_append, hnone, List.append_nil]
  rfl

/-- A record type, of which one field has such a tag. -/
def RecordDecl.stopped (i : Nat) (gap : String) (r : RecordDecl) : RecordDecl :=
  { r with fields := r.fields.modify i fun d => { d with field := d.field.stopped gap } }

/-- The schema in which a field of a record type has such a tag. -/
def Schema.stopped (s : Schema) (record : String) (i : Nat) (gap : String) : Schema :=
  { s with records := s.records.map fun r => if r.name = record then r.stopped i gap else r }

theorem Schema.record?_stopped (s : Schema) (record : String) (i : Nat) (gap name : String) :
    (s.stopped record i gap).record? name =
      (s.record? name).map fun r => if name = record then r.stopped i gap else r := by
  have hname : (fun r : RecordDecl => r.name == name) ∘
      (fun r => if r.name = record then r.stopped i gap else r) = fun r => r.name == name := by
    funext r
    simp only [Function.comp_apply]
    split <;> rfl
  rw [record?, stopped, List.find?_map, hname, record?]
  cases hfound : s.records.find? (·.name == name) with
  | none => rfl
  | some r =>
    -- a record type is found under its name
    have hsame := List.find?_some hfound
    rw [Option.map_some, Option.map_some, eq_of_beq hsame]

theorem Schema.getElem?_fields_stopped (s : Schema) (record : String) (i : Nat)
    (gap name : String) (k : Nat) :
    ((s.stopped record i gap).fields name)[k]? =
      ((s.fields name)[k]?).map fun f => if name = record ∧ k = i then f.stopped gap else f := by
  unfold fields decls
  rw [record?_stopped]
  cases s.record? name with
  | none => rfl
  | some r =>
    rw [Option.map_some, List.getElem?_map, List.getElem?_map, Option.map_map]
    by_cases hname : name = record
    · simp only [hname, true_and, if_true, RecordDecl.stopped, List.getElem?_modify]
      by_cases hk : k = i
      · subst hk
        simp only [if_true, Option.map_eq_map, Option.map_map]
        rfl
      · simp only [hk, Ne.symm hk, if_false, Option.map_eq_map, Option.map_id_fun', id_eq]
        rfl
    · simp only [hname, false_and, if_false]
      rfl

end FieldNotes
