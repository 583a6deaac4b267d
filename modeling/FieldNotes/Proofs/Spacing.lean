import FieldNotes.Proofs.Annotations
import FieldNotes.Proofs.ErrorNames
import Mathlib.Data.List.DropRight

/-! # Blanks around the parts of a text

The text of a tag falls into a value and an argument at its first comma, and blanks around these do
not belong to them.  So blanks may be written there, or left away, without any consequence.  A text
without a comma, however, is taken with all its blanks.

* `Text.BlanksAround`: a text with more blanks at its two ends.  `Text.trimChars_eq_iff` says that
  trimming takes all of them away.
* `Tag.Spaced`: a text with more blanks around its parts.  `Tag.Spaced.splitArg_eq_iff` says when
  its parts stay the same.
* `Field.Respaced`: a field whose row has more blanks around the parts of texts.
* `Field.Respaced.carries_iff`, `taggedTable_respaced`, `Dispatcher.error_names_respaced`: what
  stays the same for such fields.
* `Tag.blanks_around_parts`: all that together.
-/

namespace FieldNotes

/-! ## Blanks at the ends -/

namespace Text

/-- A text with blanks written around it. -/
def BlanksAround (cs cs' : List Char) : Prop :=
  ∃ left right, (∀ c ∈ left, isBlank c = true) ∧ (∀ c ∈ right, isBlank c = true) ∧
    cs' = left ++ cs ++ right

/-- A text neither begins nor ends with a blank. -/
structure Trimmed (cs : List Char) : Prop where
  head : ∀ c, cs.head? = some c → isBlank c = false
  last : ∀ c, cs.getLast? = some c → isBlank c = false

variable {cs cs' ds : List Char}

theorem BlanksAround.trans (h : BlanksAround ds cs) (h' : BlanksAround cs cs') :
    BlanksAround ds cs' := by
  obtain ⟨left, right, hleft, hright, rfl⟩ := h
  obtain ⟨left', right', hleft', hright', rfl⟩ := h'
  refine ⟨left' ++ left, right ++ right', ?_, ?_, by simp only [List.append_assoc]⟩
  · exact List.forall_mem_append.2 ⟨hleft', hleft⟩
  · exact List.forall_mem_append.2 ⟨hright, hright'⟩

theorem blanksAround_trimChars (cs : List Char) : BlanksAround (trimChars cs) cs := by
  refine ⟨cs.takeWhile isBlank, (cs.dropWhile isBlank).rtakeWhile isBlank, ?_, ?_, ?_⟩
  · exact fun c hc => List.mem_takeWhile_imp hc
  · exact fun c hc => List.mem_rtakeWhile_imp hc
  · have htrim : trimChars cs = (cs.dropWhile isBlank).rdropWhile isBlank := rfl
    rw [htrim, List.append_assoc, List.rdropWhile_append_rtakeWhile,
      List.takeWhile_append_dropWhile]

theorem trimmed_trimChars (cs : List Char) : Trimmed (trimChars cs) := by
  have htrim : trimChars cs = (cs.dropWhile isBlank).rdropWhile isBlank := rfl
  rw [htrim]
  constructor
  · intro c hc
    -- what is left begins as it did when the blanks behind it still stood there
    have hhead : (cs.dropWhile isBlank).head? = some c := by
      obtain ⟨right, hright⟩ := List.rdropWhile_prefix isBlank (cs.dropWhile isBlank)
      rw [← hright, List.head?_append, hc]
      rfl
    have hnot := List.head?_dropWhile_not isBlank cs
    rwa [hhead] at hnot
  · intro c hc
    obtain ⟨hne, rfl⟩ := List.mem_getLast?_eq_getLast hc
    exact Bool.eq_false_iff.2 (List.rdropWhile_last_not isBlank _ hne)

/-- What has no blanks at its ends is left when the blanks around it are taken away. -/
theorem trimChars_of_trimmed (hds : Trimmed ds) (h : BlanksAround ds cs) : trimChars cs = ds := by
  obtain ⟨left, right, hleft, hright, rfl⟩ := h
  have hright' : (ds ++ right).rdropWhile isBlank = ds := by
    have hlast : ∀ c, ds.reverse.head? = some c → isBlank c = false := by
      rw [List.head?_reverse]
      exact hds.last
    rw [List.rdropWhile, List.reverse_append,
      (Tag.takeWhile_append_of_head (by simpa using hright) hlast).2, List.reverse_reverse]
  cases ds with
  | nil =>
    have hall : (left ++ [] ++ right).dropWhile isBlank = [] := by
      rw [List.dropWhile_eq_nil_iff, List.append_nil]
      exact List.forall_mem_append.2 ⟨hleft, hright⟩
    rw [trimChars, hall]
    rfl
  | cons d ds =>
    have hfirst : ∀ c, (d :: ds ++ right).head? = some c → isBlank c = false := hds.head
    rw [List.append_assoc, trimChars, (Tag.takeWhile_append_of_head hleft hfirst).2]
    exact hright'

theorem trimChars_eq_iff : trimChars cs = ds ↔ Trimmed ds ∧ BlanksAround ds cs := by
  constructor
  · rintro rfl
    exact ⟨trimmed_trimChars cs, blanksAround_trimChars cs⟩
  · rintro ⟨hds, h⟩
    exact trimChars_of_trimmed hds h

theorem BlanksAround.trimChars_eq (h : BlanksAround cs cs') : trimChars cs' = trimChars cs :=
  trimChars_eq_iff.2 ⟨trimmed_trimChars cs, (blanksAround_trimChars cs).trans h⟩

end Text

/-! ## The parts of a text -/

namespace Tag

open Text

/-- A text with blanks written around its value and around its argument; where there is no comma, it
is all value. -/
inductive Spaced : String → String → Prop
  | sole {cs cs' : List Char} (hcomma : ',' ∉ cs) (h : BlanksAround cs cs') :
      Spaced (String.ofList cs) (String.ofList cs')
  | parts {value value' arg arg' : List Char} (hcomma : ',' ∉ value)
      (hvalue : BlanksAround value value') (harg : BlanksAround arg arg') :
      Spaced (String.ofList (value ++ ',' :: arg)) (String.ofList (value' ++ ',' :: arg'))

theorem not_mem_blanksAround {cs cs' : List Char} (hcomma : ',' ∉ cs) (h : BlanksAround cs cs') :
    ',' ∉ cs' := by
  obtain ⟨left, right, hleft, hright, rfl⟩ := h
  have hblank : ¬ isBlank ',' = true := by decide
  simp only [List.mem_append, not_or]
  exact ⟨⟨fun hc => hblank (hleft _ hc), hcomma⟩, fun hc => hblank (hright _ hc)⟩

theorem ne_comma {cs : List Char} (hcomma : ',' ∉ cs) : ∀ c ∈ cs, (c != ',') = true := by
  intro c hc
  rw [bne_iff_ne]
  rintro rfl
  exact hcomma hc

/-- A text without a comma is left as it is. -/
theorem splitArg_of_not_mem {text : String} (hcomma : ',' ∉ text.toList) :
    splitArg text = (text, "") := by
  have hrest : text.toList.dropWhile (· != ',') = [] :=
    List.dropWhile_eq_nil_iff.2 (ne_comma hcomma)
  simp only [splitArg, hrest]

theorem splitArg_parts {value : List Char} (hcomma : ',' ∉ value) (arg : List Char) :
    splitArg (String.ofList (value ++ ',' :: arg)) =
      (String.ofList (trimChars value), String.ofList (trimChars arg)) := by
  have hstop : ∀ c, (',' :: arg).head? = some c → (c != ',') = false := by
    intro c hc
    cases hc
    rfl
  have hspan := takeWhile_append_of_head (ne_comma hcomma) hstop
  simp only [splitArg, String.toList_ofList, hspan.1, hspan.2]

/-- The parts of a text have no blanks at their ends, unless the text has no comma and has them. -/
theorem trimmed_splitArg_iff (text : String) :
    Trimmed (splitArg text).1.toList ∧ Trimmed (splitArg text).2.toList ↔
      ',' ∈ text.toList ∨ Trimmed text.toList := by
  by_cases hcomma : ',' ∈ text.toList
  · obtain ⟨value, arg, heq, hvalue⟩ := List.eq_append_cons_of_mem hcomma
    have htext : text = String.ofList (value ++ ',' :: arg) := by
      rw [← heq, String.ofList_toList]
    refine iff_of_true ?_ (.inl hcomma)
    rw [htext, splitArg_parts hvalue, String.toList_ofList, String.toList_ofList]
    exact ⟨trimmed_trimChars value, trimmed_trimChars arg⟩
  · have hempty : Trimmed "".toList := trimmed_trimChars []
    rw [splitArg_of_not_mem hcomma]
    simp only [hempty, and_true, hcomma, false_or]

theorem Spaced.splitArg_eq {v v' : String} (h : Spaced v v') (hcomma : ',' ∈ v.toList) :
    splitArg v' = splitArg v := by
  cases h with
  | sole hnone =>
    rw [String.toList_ofList] at hcomma
    exact absurd hcomma hnone
  | parts hvalue hv ha =>
    rw [splitArg_parts hvalue, splitArg_parts (not_mem_blanksAround hvalue hv), hv.trimChars_eq,
      ha.trimChars_eq]

/-- Blanks around a text without a comma are never overlooked. -/
theorem Spaced.splitArg_eq_iff {v v' : String} (h : Spaced v v') :
    splitArg v' = splitArg v ↔ v' = v ∨ ',' ∈ v.toList := by
  constructor
  · intro hparts
    by_cases hcomma : ',' ∈ v.toList
    · exact .inr hcomma
    · left
      cases h with
      | sole hnone hblanks =>
        have hnone' := not_mem_blanksAround hnone hblanks
        rw [splitArg_of_not_mem (by rwa [String.toList_ofList]),
          splitArg_of_not_mem (by rwa [String.toList_ofList])] at hparts
        exact congrArg Prod.fst hparts
      | parts =>
        rw [String.toList_ofList] at hcomma
        simp at hcomma
  · rintro (rfl | hcomma)
    · rfl
    · exact h.splitArg_eq hcomma

/-! ## Rows with other blanks -/

/-- What a tag falls into, if it can be read. -/
def parts? (t : Tag) : Option (String × String) :=
  t.text.toOption.map splitArg

/-- A tag with more blanks around the parts of its text, which has a comma; or the same tag. -/
inductive Respaced : Tag → Tag → Prop
  | same (t : Tag) : Respaced t t
  | spaced {t t' : Tag} {v v' : String} (hname : t'.name = t.name) (htext : t.text = .ok v)
      (htext' : t'.text = .ok v') (hspaced : Spaced v v') (hcomma : ',' ∈ v.toList) : Respaced t t'

namespace Respaced

variable {t t' : Tag} (h : t.Respaced t')

include h

theorem name_eq : t'.name = t.name := by
  cases h with
  | same => rfl
  | spaced hname => exact hname

theorem parts?_eq : t'.parts? = t.parts? := by
  cases h with
  | same => rfl
  | spaced _ htext htext' hspaced hcomma =>
    simp only [parts?, htext, htext', Except.toOption, Option.map_some,
      hspaced.splitArg_eq hcomma]

end Respaced

end Tag

namespace Field

/-- A field whose row has more blanks around the parts of texts with a comma. -/
structure Respaced (f f' : Field) : Prop where
  name_eq : f'.name = f.name
  exported_eq : f'.exported = f.exported
  tags : List.Forall₂ Tag.Respaced (Tag.ofRow f.row) (Tag.ofRow f'.row)

theorem tagValue?_eq (f : Field) (tag : String) :
    f.tagValue? tag = (((Tag.ofRow f.row).find? (·.name == tag)).bind Tag.parts?).map
      fun p => ⟨p.1, p.2⟩ := by
  rw [tagValue?, Tag.find?]
  cases (Tag.ofRow f.row).find? (·.name == tag) with
  | none => rfl
  | some t =>
    simp only [Option.bind_some, Tag.parts?, Option.map_map]
    rfl

theorem find?_respaced {ts ts' : List Tag} (h : List.Forall₂ Tag.Respaced ts ts') (tag : String) :
    (ts'.find? (·.name == tag)).bind Tag.parts? = (ts.find? (·.name == tag)).bind Tag.parts? := by
  induction h with
  | nil => rfl
  | cons hfirst _ ih =>
    simp only [List.find?_cons, hfirst.name_eq]
    split
    · exact hfirst.parts?_eq
    · exact ih

namespace Respaced

variable {f f' : Field} (h : f.Respaced f')

include h

theorem tagValue?_eq (tag : String) : f'.tagValue? tag = f.tagValue? tag := by
  rw [f'.tagValue?_eq, f.tagValue?_eq, find?_respaced h.tags]

theorem carries_iff (tag value arg : String) :
    f'.Carries tag value arg ↔ f.Carries tag value arg := by
  rw [Field.carries_iff, Field.carries_iff, h.tagValue?_eq]

theorem shownBy_eq (nameTag : Option String) : f'.shownBy nameTag = f.shownBy nameTag := by
  cases nameTag with
  | none => exact h.name_eq
  | some tag =>
    obtain ⟨value, arg, hcarries, -⟩ := f.exists_carries tag
    rw [shownBy_of_carries hcarries, shownBy_of_carries ((h.carries_iff _ _ _).2 hcarries),
      h.name_eq]

end Respaced

end Field

/-- In a row, a text may be written with more blanks around its parts, by whatever tokens. -/
theorem Inscription.respaced (before : List Tag.Piece) {i i' : Inscription} (more : List Char)
    (hname : i'.name = i.name) (hspaced : Tag.Spaced i.text i'.text) (hcomma : ',' ∈ i.text.toList)
    (name : String) (exported : Bool) :
    Field.Respaced
      ⟨name, exported, String.ofList (before.flatMap Tag.Piece.chars ++ (i.piece.chars ++ more))⟩
      ⟨name, exported,
        String.ofList (before.flatMap Tag.Piece.chars ++ (i'.piece.chars ++ more))⟩ := by
  have hrow (i : Inscription) :
      Tag.ofRow (String.ofList (before.flatMap Tag.Piece.chars ++ (i.piece.chars ++ more))) =
        before.map Tag.Piece.tag ++ i.tag :: Tag.scan more := by
    rw [Tag.ofRow, String.toList_ofList, Tag.scan_pieces_append, Tag.scan_eq, Tag.first?_chars]
    rfl
  have hsame (ts : List Tag) : List.Forall₂ Tag.Respaced ts ts :=
    List.forall₂_same.2 fun t _ => .same t
  refine ⟨rfl, rfl, ?_⟩
  rw [hrow, hrow]
  -- the tags before and behind it are the same
  refine List.rel_append (hsame _) (.cons ?_ (hsame _))
  refine .spaced ?_ i.tag_text i'.tag_text hspaced hcomma
  rw [i.tag_name, i'.tag_name, hname]

/-! ## Tables -/

/-- An entry of a table, but for the row of its field. -/
def TaggedField.outline (e : TaggedField) : String × String × String × Nat :=
  (e.name, e.value, e.arg, e.index)

theorem outline_fst (e : TaggedField) : e.outline.1 = e.name :=
  rfl

namespace Table

variable {α β : Type}

/-- A table of other items under the same names. -/
def mapItems (g : α → β) (t : Table α) : Table β :=
  t.map fun e => (e.1, g e.2)

theorem mapItems_insert (g : α → β) (t : Table α) (name : String) (a : α) :
    (t.insert name a).mapItems g = (t.mapItems g).insert name (g a) := by
  have hany : (t.mapItems g).any (·.1 == name) = t.any (·.1 == name) := List.any_map
  unfold insert
  rw [hany]
  split
  · rw [mapItems, mapItems, List.map_map, List.map_map]
    refine List.map_congr_left fun e _ => ?_
    by_cases he : e.1 = name <;> simp [he]
  · rw [mapItems, List.map_append]
    rfl

theorem mapItems_collect (g : α → β) {key : α → String} {key' : β → String}
    (hkey : ∀ a, key' (g a) = key a) (as : List α) :
    (collect key as).mapItems g = collect key' (as.map g) := by
  induction as using List.reverseRecOn with
  | nil => rfl
  | append_singleton as a ih =>
    rw [collect_concat, mapItems_insert, ih, List.map_append, List.map_singleton, collect_concat,
      hkey]

end Table

theorem Field.Respaced.resolve?_eq {f f' : Field} (h : f.Respaced f') (i : Nat) (tag : String) :
    (f'.resolve? i tag).map TaggedField.outline = (f.resolve? i tag).map TaggedField.outline := by
  simp only [Field.resolve?, h.tagValue?_eq, h.name_eq]
  split <;> rfl

theorem keptFields_respaced {fs fs' : List Field} (h : List.Forall₂ Field.Respaced fs fs')
    (tag : String) :
    (keptFields fs' tag).map TaggedField.outline = (keptFields fs tag).map TaggedField.outline := by
  unfold keptFields
  rw [List.map_filterMap, List.map_filterMap]
  generalize 0 = k
  induction h generalizing k with
  | nil => rfl
  | cons hfirst _ ih =>
    rw [List.zipIdx_cons, List.zipIdx_cons, List.filterMap_cons, List.filterMap_cons, ih,
      hfirst.resolve?_eq]

/-- The tables of such fields have the same names, for the same fields, in the same order. -/
theorem taggedTable_respaced {fs fs' : List Field} (h : List.Forall₂ Field.Respaced fs fs')
    (tag : String) :
    (taggedTable fs' tag).mapItems TaggedField.outline =
      (taggedTable fs tag).mapItems TaggedField.outline := by
  have houtline (fs : List Field) : (taggedTable fs tag).mapItems TaggedField.outline =
      Table.collect (·.1) ((keptFields fs tag).map TaggedField.outline) :=
    Table.mapItems_collect _ outline_fst _
  rw [houtline, houtline, keptFields_respaced h]

/-! ## Names in errors -/

/-- Two errors of fields that are the same but for such blanks tell of them by one name. -/
theorem Dispatcher.error_names_respaced (d : Dispatcher) {schema schema' : Schema}
    {context context' : Context} {depth depth' : Nat} {v v' : Value}
    {name name' handler handler' : String} {source source' : HandlerError}
    (h : (d.walk schema context depth v).result = .error (.failed (.field name handler source)))
    (h' : (d.walk schema' context' depth' v').result =
      .error (.failed (.field name' handler' source'))) :
    ∃ c c', (calls (d.walk schema context depth v).events).getLast? = some c ∧
      (calls (d.walk schema' context' depth' v').events).getLast? = some c' ∧
      (c.field.Respaced c'.field → name' = name) := by
  obtain ⟨c, hlast, -, hname⟩ := d.error_tells_of_last_call h
  obtain ⟨c', hlast', -, hname'⟩ := d.error_tells_of_last_call h'
  refine ⟨c, c', hlast, hlast', ?_⟩
  intro hrespaced
  rw [← hname, ← hname']
  exact hrespaced.shownBy_eq d.nameTag

/-- Blanks around the parts of a text are of no consequence if the text has a comma.

Then its value and its argument are the same however many blanks are written around them, and
neither begins nor ends with one.  A text without a comma is all value and keeps its blanks, so
there other blanks make another value.

In the row of a field, a text with a comma may be written with more blanks.  Fields that differ in
this way carry the same under every tag, are left out of the same tables, go by the same names in
all others, and are told of by the same names in errors. -/
theorem Tag.blanks_around_parts {v v' : String} (h : Spaced v v') :
    (splitArg v' = splitArg v ↔ v' = v ∨ ',' ∈ v.toList) ∧
    (Text.Trimmed (splitArg v).1.toList ∧ Text.Trimmed (splitArg v).2.toList ↔
      ',' ∈ v.toList ∨ Text.Trimmed v.toList) ∧
    (',' ∉ v.toList → splitArg v = (v, "")) ∧
    (',' ∈ v.toList → ∀ (before : List Piece) (i i' : Inscription) (more : List Char),
      i.text = v → i'.text = v' → i'.name = i.name → ∀ name exported,
        Field.Respaced
          ⟨name, exported, String.ofList (before.flatMap Piece.chars ++ (i.piece.chars ++ more))⟩
          ⟨name, exported,
            String.ofList (before.flatMap Piece.chars ++ (i'.piece.chars ++ more))⟩) ∧
    (∀ f f' : Field, f.Respaced f' →
      (∀ tag value arg, f'.Carries tag value arg ↔ f.Carries tag value arg) ∧
      (∀ i tag, (f'.resolve? i tag).map TaggedField.outline =
        (f.resolve? i tag).map TaggedField.outline) ∧
      ∀ d : Dispatcher, d.shownName f' = d.shownName f) ∧
    (∀ fs fs' : List Field, List.Forall₂ Field.Respaced fs fs' → ∀ tag,
      (taggedFields fs' tag).map (Table.mapItems TaggedField.outline) =
        (taggedFields fs tag).map (Table.mapItems TaggedField.outline)) ∧
    ∀ (d : Dispatcher) schema schema' context context' depth depth' x x' name name' handler handler'
        source source',
      (d.walk schema context depth x).result = .error (.failed (.field name handler source)) →
      (d.walk schema' context' depth' x').result =
        .error (.failed (.field name' handler' source')) →
      ∃ c c', (calls (d.walk schema context depth x).events).getLast? = some c ∧
        (calls (d.walk schema' context' depth' x').events).getLast? = some c' ∧
        (c.field.Respaced c'.field → name' = name) := by
  refine ⟨h.splitArg_eq_iff, trimmed_splitArg_iff v, splitArg_of_not_mem, ?_, ?_, ?_, ?_⟩
  · rintro hcomma before i i' more rfl rfl hname name exported
    exact Inscription.respaced before more hname h hcomma name exported
  · intro f f' hf
    exact ⟨hf.carries_iff, fun i tag => hf.resolve?_eq i tag, fun d => hf.shownBy_eq d.nameTag⟩
  · intro fs fs' hfs tag
    by_cases htag : tag = ""
    · rw [htag]
      rfl
    · rw [taggedFields_eq fs htag, taggedFields_eq fs' htag]
      exact congrArg Except.ok (taggedTable_respaced hfs tag)
  · intro d schema schema' context context' depth depth' x x' name name' handler handler' source
      source' he he'
    exact d.error_names_respaced he he'

/-! ## Two rows -/

namespace Roomy

/-- A field whose text has no blanks. -/
def tight : Field :=
  ⟨"size", true, "json:\"px,late\""⟩

/-- The same field with blanks around both parts. -/
def wide : Field :=
  ⟨"size", true, "json:\" px\t, late \""⟩

theorem spaced : Tag.Spaced "px,late" " px\t, late " := by
  have hvalue : Text.BlanksAround ['p', 'x'] [' ', 'p', 'x', '\t'] :=
    ⟨[' '], ['\t'], List.forall_mem_singleton.2 rfl, List.forall_mem_singleton.2 rfl, rfl⟩
  have harg : Text.BlanksAround ['l', 'a', 't', 'e'] [' ', 'l', 'a', 't', 'e', ' '] :=
    ⟨[' '], [' '], List.forall_mem_singleton.2 rfl, List.forall_mem_singleton.2 rfl, rfl⟩
  exact .parts (by decide) hvalue harg

theorem respaced : tight.Respaced wide := by
  have htight : Tag.ofRow tight.row = [⟨"json", "\"px,late\""⟩] := by decide +kernel
  have hwide : Tag.ofRow wide.row = [⟨"json", "\" px\t, late \""⟩] := by decide +kernel
  refine ⟨rfl, rfl, ?_⟩
  rw [htight, hwide]
  exact .cons (.spaced rfl (by decide +kernel) (by decide +kernel) spaced (by decide)) .nil

end Roomy

/-- With blanks around the parts of its text a field is in the table under the same name. -/
theorem Roomy.same_table :
    Tag.Spaced "px,late" " px\t, late " ∧
      Tag.splitArg " px\t, late " = ("px", "late") ∧
      List.Forall₂ Field.Respaced [tight] [wide] ∧
      (taggedFields [wide] "json").map (Table.mapItems TaggedField.outline) =
        .ok [("px", "px", "px", "late", 0)] := by
  have hfields : List.Forall₂ Field.Respaced [tight] [wide] := .cons respaced .nil
  obtain ⟨hparts, -, -, -, -, htable, -⟩ := Tag.blanks_around_parts spaced
  refine ⟨spaced, ?_, hfields, ?_⟩
  · rw [hparts.2 (.inr (by decide))]
    decide +kernel
  · rw [htable [tight] [wide] hfields "json"]
    decide +kernel

/-- A dash leaves a field out of the table.  With blanks around it, it is a name; where a comma
follows, it leaves the field out again. -/
theorem Tag.dash_with_blanks :
    Spaced "-" " - " ∧ splitArg "-" = ("-", "") ∧ splitArg " - " = (" - ", "") ∧
      splitArg " - ," = ("-", "") ∧
      (taggedTable [⟨"a", true, "json:\"-\""⟩] "json").map (·.1) = [] ∧
      (taggedTable [⟨"a", true, "json:\" - \""⟩] "json").map (·.1) = [" - "] ∧
      (taggedTable [⟨"a", true, "json:\" - ,\""⟩] "json").map (·.1) = [] := by
  have hblanks : Text.BlanksAround ['-'] [' ', '-', ' '] :=
    ⟨[' '], [' '], List.forall_mem_singleton.2 rfl, List.forall_mem_singleton.2 rfl, rfl⟩
  refine ⟨.sole (by decide) hblanks, ?_, ?_, ?_, ?_, ?_, ?_⟩ <;> decide +kernel

end FieldNotes
