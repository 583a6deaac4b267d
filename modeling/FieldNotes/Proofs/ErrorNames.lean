import FieldNotes.Proofs.FailFast
import FieldNotes.Proofs.Resolution
import FieldNotes.Proofs.Unquoting

/-! # Names of fields in errors

An error tells of a field by the name that it has under the name tag.  This name is worked out apart
from the table of fields under that tag, but the two agree: a field that is not left out of the
table is told of by its name there, and one that is left out by its declared name.

* `Text.found` reads a text as `unquote` does, and tells whether it stands between the quotes as it
  is.
* `Field.nameByCases` works out the name in errors apart for both cases; they come to one.
* `Dispatcher.error_tells_of_last_call`: an error tells of the field of the last call.
* `Dispatcher.error_names_agree`: names in errors are those of the table.
-/

namespace FieldNotes

open Text

namespace Text

/-- A text that was read: one that stands between the quotes as it is, or one that was put together
from what is written there. -/
inductive Found
  | verbatim (s : String)
  | resolved (s : String)
  deriving DecidableEq, Repr

/-- The text itself. -/
def Found.text : Found → String
  | .verbatim s => s
  | .resolved s => s

/-- The text that a written form stands for, and how it was come by. -/
def found (quoted : String) : Except UnquoteError Found :=
  match Quoted.verbatim? quoted with
  | some s => .ok (.verbatim s)
  | none => (unquote quoted).map .resolved

/-- Either way it is the same text. -/
theorem map_text_found (quoted : String) : (found quoted).map Found.text = unquote quoted := by
  unfold found
  cases hverbatim : Quoted.verbatim? quoted with
  | some s => exact (Quoted.unquote_verbatim hverbatim).symm
  | none =>
    cases hread : unquote quoted <;> rfl

end Text

namespace Field

variable {f : Field} {tag name value arg text : String}

/-- The name of a field in errors, by the text of its name tag: apart for a text that stands in the
row as it is and for one that was put together. -/
def nameByCases (f : Field) (tag : String) : String :=
  match ((Tag.ofRow f.row).find? (·.name == tag)).bind fun t => (found t.quoted).toOption with
  | some (.verbatim text) =>
    match (Tag.splitArg text).1 with
    | "" | "-" => f.name
    | name => name
  | some (.resolved text) =>
    match (Tag.splitArg text).1 with
    | "" | "-" => f.name
    | name => name
  | none => f.name

/-- Both cases come to the name that is shown. -/
theorem nameByCases_eq (f : Field) (tag : String) : f.nameByCases tag = f.shownBy (some tag) := by
  have hname (text : String) : (match (Tag.splitArg text).1 with
        | "" | "-" => f.name
        | name => name) =
      if (Tag.splitArg text).1 = "" ∨ (Tag.splitArg text).1 = "-" then f.name
        else (Tag.splitArg text).1 := by
    split
    · rename_i h
      rw [if_pos (Or.inl h)]
    · rename_i h
      rw [if_pos (Or.inr h)]
    · rename_i hempty hdash
      rw [if_neg (not_or.2 ⟨hempty, hdash⟩)]
  rw [nameByCases, shownBy, Option.bind_some, Tag.find?]
  cases (Tag.ofRow f.row).find? (·.name == tag) with
  | none => rfl
  | some t =>
    have htext : t.text = (found t.quoted).map Found.text := (map_text_found t.quoted).symm
    simp only [Option.bind_some, htext]
    cases found t.quoted with
    | error e => rfl
    | ok found =>
      cases found with
      | verbatim text => exact hname text
      | resolved text => exact hname text

/-- The name of a field in errors, by what it carries under the name tag. -/
theorem shownBy_of_carries (h : f.Carries tag value arg) :
    f.shownBy (some tag) = if value = "" ∨ value = "-" then f.name else value := by
  have hvalue := carries_iff.1 h
  rw [tagValue?] at hvalue
  rw [shownBy, Option.bind_some]
  cases htext : Tag.find? f.row tag with
  | none =>
    rw [htext] at hvalue
    cases hvalue
    rfl
  | some text =>
    rw [htext] at hvalue
    cases hvalue
    rfl

/-- A field is told of by the name that it goes by. -/
theorem GoesBy.shownBy_eq (h : f.GoesBy tag name value arg) : f.shownBy (some tag) = name := by
  rw [shownBy_of_carries h.carries, h.name_eq]
  simp only [h.value_ne_dash, or_false]

/-- A field that is left out is told of by its declared name. -/
theorem shownBy_of_dash (h : f.Carries tag "-" arg) : f.shownBy (some tag) = f.name := by
  rw [shownBy_of_carries h, if_pos (Or.inr rfl)]

/-- The text of the first tag of a name decides what a field carries under it, however it is
written. -/
theorem shownBy_of_text {t : Tag} (hfirst : Tag.IsFirst f.row tag t) (htext : t.text = .ok text) :
    f.shownBy (some tag) =
      let value := (Tag.splitArg text).1
      if value = "" ∨ value = "-" then f.name else value :=
  shownBy_of_carries (.parts hfirst htext)

end Field

namespace Dispatcher

variable (d : Dispatcher)

/-- An error of a field tells of the last call: of its handler, and of its field by the name that is
shown. -/
theorem error_tells_of_last_call {schema : Schema} {context : Context} {depth : Nat} {v : Value}
    {name handler : String} {source : HandlerError}
    (he : (d.walk schema context depth v).result = .error (.failed (.field name handler source))) :
    ∃ c, (calls (d.walk schema context depth v).events).getLast? = some c ∧
      c.handler = handler ∧ d.shownName c.field = name := by
  rcases d.walk_cases schema context depth v with ⟨result, hwalk, hother⟩ | ⟨-, p, hresult, hevents⟩
  · rw [hwalk] at he
    exact absurd he (hother name handler source)
  · rw [hresult] at he
    rw [hevents]
    obtain ⟨runs, -, hcalls, hend⟩ := d.exists_history schema context depth p
    simp only [he] at hend
    obtain ⟨earlier, r, source', rfl, -, -, heq⟩ := hend
    cases heq
    refine ⟨r.call, ?_, rfl, rfl⟩
    rw [← hcalls, List.map_append, List.map_singleton, List.getLast?_concat]

/-- Under a name tag, an error of a walk tells of a field by the name that the field has in tables
under this tag, or by its declared name if it is left out of them.  If the tag is missing or cannot
be read, or its value is empty or a dash, this is the declared name; the text decides it, and not
how the text is written. -/
theorem error_names_agree {tag : String} (hname : d.nameTag = some tag) (htag : tag ≠ "") :
    (∀ schema context depth v name handler source,
      (d.walk schema context depth v).result = .error (.failed (.field name handler source)) →
      ∃ c, (calls (d.walk schema context depth v).events).getLast? = some c ∧
        c.handler = handler ∧ (∀ i e, c.field.resolve? i tag = some e → name = e.name) ∧
        ∀ i, c.field.resolve? i tag = none → name = c.field.name) ∧
    (∀ fields, ∃ table, taggedFields fields tag = .ok table ∧
      (∀ e ∈ table, d.shownName e.2.field = e.1) ∧
      ∀ f ∈ fields, d.shownName f ∈ table.map (·.1) ∨
        (∃ arg, f.Carries tag "-" arg) ∧ d.shownName f = f.name) ∧
    (∀ f value arg, f.Carries tag value arg →
      d.shownName f = (if value = "" ∨ value = "-" then f.name else value) ∧
      ∀ i, f.resolve? i tag =
        if value = "-" then none else some ⟨d.shownName f, value, arg, i, f⟩) ∧
    (∀ f, f.nameByCases tag = d.shownName f) ∧
    ∀ (f g : Field) t t' text, f.name = g.name →
      Tag.IsFirst f.row tag t → Tag.IsFirst g.row tag t' →
      found t.quoted = .ok (.verbatim text) → found t'.quoted = .ok (.resolved text) →
      f.nameByCases tag = g.nameByCases tag := by
  have hshown (f : Field) : d.shownName f = f.shownBy (some tag) := by rw [shownName, hname]
  refine ⟨?_, ?_, ?_, ?_, ?_⟩
  · -- the error tells of the field of the last call
    intro schema context depth v name handler source he
    obtain ⟨c, hlast, hhandler, hfield⟩ := d.error_tells_of_last_call he
    rw [hshown] at hfield
    refine ⟨c, hlast, hhandler, ?_, ?_⟩
    · intro i e hresolve
      obtain ⟨hgoes, -, -⟩ := Field.resolve?_eq_some_iff.1 hresolve
      rw [← hfield, hgoes.shownBy_eq]
    · intro i hresolve
      obtain ⟨arg, hdash⟩ := Field.resolve?_eq_none_iff.1 hresolve
      rw [← hfield, Field.shownBy_of_dash hdash]
  · intro fields
    have hlists := lists_taggedTable fields tag
    refine ⟨_, taggedFields_eq fields htag, ?_, ?_⟩
    · intro e he
      obtain ⟨-, -, hgoes⟩ := hlists.entry e he
      rw [hshown, hgoes.shownBy_eq]
    · intro f hf
      rw [hshown]
      -- a field that is left out of the table keeps its own name in errors
      by_cases hdash : ∃ arg, f.Carries tag "-" arg
      · obtain ⟨arg, h⟩ := hdash
        exact Or.inr ⟨⟨arg, h⟩, Field.shownBy_of_dash h⟩
      · obtain ⟨name, value, arg, hgoes⟩ := Field.exists_goesBy_iff.2 hdash
        obtain ⟨i, hi⟩ := List.mem_iff_getElem?.1 hf
        rw [hgoes.shownBy_eq]
        exact Or.inl ((hlists.mem_iff name).2 ⟨i, f, value, arg, hi, hgoes⟩)
  · intro f value arg hcarries
    rw [hshown, Field.shownBy_of_carries hcarries]
    refine ⟨rfl, ?_⟩
    intro i
    rw [Field.resolve?_eq_of_carries i hcarries]
    split
    · rfl
    · rename_i hdash
      simp only [hdash, or_false]
  · intro f
    rw [hshown, f.nameByCases_eq]
  · -- however a text was found, it is the same text
    intro f g t t' text hnames hfirst hfirst' hfound hfound'
    have htext : t.text = .ok text := by
      rw [Tag.text, ← map_text_found, hfound]
      rfl
    have htext' : t'.text = .ok text := by
      rw [Tag.text, ← map_text_found, hfound']
      rfl
    rw [f.nameByCases_eq, g.nameByCases_eq, Field.shownBy_of_text hfirst htext,
      Field.shownBy_of_text hfirst' htext', hnames]

end Dispatcher

/-! ## Two spellings of one name -/

namespace Spelled

/-- A field with an escape in the text of its name tag. -/
def escaped : Field :=
  ⟨"size", true, "json:\"\\u0070x,late\" fail:\"boom\""⟩

/-- The same text without the escape. -/
def plain : Field :=
  ⟨"size", true, "json:\"px,late\""⟩

def escapedName : Tag :=
  ⟨"json", "\"\\u0070x,late\""⟩

def plainName : Tag :=
  ⟨"json", "\"px,late\""⟩

def failing : Tag :=
  ⟨"fail", "\"boom\""⟩

/-- One record type, of one number. -/
def schema : Schema where
  records := [⟨"A", [⟨escaped, .scalar (.int .i64)⟩]⟩]

def dispatcher : Dispatcher :=
  { Dispatcher.empty.bind "fail" (Samples.failer "f" none) with nameTag := some "json" }

theorem ofRow_escaped : Tag.ofRow escaped.row = [escapedName, failing] := by
  decide +kernel

theorem ofRow_plain : Tag.ofRow plain.row = [plainName] := by
  decide +kernel

theorem found_escaped : Text.found escapedName.quoted = .ok (.resolved "px,late") := by
  decide +kernel

theorem found_plain : Text.found plainName.quoted = .ok (.verbatim "px,late") := by
  decide +kernel

theorem shownName_escaped : dispatcher.shownName escaped = "px" := by
  decide +kernel

theorem isFirst_escaped : Tag.IsFirst escaped.row "json" escapedName := by
  rw [Tag.isFirst_iff, ofRow_escaped]
  rfl

theorem isFirst_plain : Tag.IsFirst plain.row "json" plainName := by
  rw [Tag.isFirst_iff, ofRow_plain]
  rfl

theorem obey_failing (p : Nested.Place) (v : Value) (events : List Event) :
    (dispatcher.rules .unit).obey p failing v ⟨[], events⟩ =
      .halt (.failed (.field (dispatcher.shownName p.field) "fail" (.custom "boom failed"))) v
        ⟨[(("fail", "\"boom\""), .text "boom")],
          events ++ [.parsed failing "boom"] ++ [.dispatching p.field.name "fail",
            .called ⟨p.path, p.index, p.field, failing, .text "boom"⟩,
            .reported (.touched "f" v (.text "boom"))]⟩ := by
  have hstop : failing.isStop = false := by decide +kernel
  have htext : failing.text = .ok "boom" := by decide +kernel
  have hread : (Samples.failer "f" none).readTag failing =
      (.ok (.text "boom"), [.parsed failing "boom"]) := Handler.readTag_ofRun _ htext
  have hask : (dispatcher.rules .unit).ask [] (Samples.failer "f" none) failing =
      ⟨.ok (.text "boom"), Memo.insert [] failing (.text "boom"), [.parsed failing "boom"]⟩ :=
    Memo.ask_of_new (m := []) rfl hread
  have hmessage : "boom" ++ " failed" = "boom failed" := by decide
  rw [Nested.Rules.obey_of_read hstop rfl (congrArg Asked.result hask), hask, ← hmessage]
  rfl

theorem walk_eq : dispatcher.walk schema .unit 1 (schema.default (.record "A")) =
    ⟨.error (.failed (.field "px" "fail" (.custom "boom failed"))),
      schema.default (.record "A"), [(("fail", "\"boom\""), .text "boom")],
      [.walking "A", .parsed failing "boom", .dispatching "size" "fail",
        .called ⟨[.field 0], 0, escaped, failing, .text "boom"⟩,
        .reported (.touched "f" (.scalar (.int .i64 0)) (.text "boom"))]⟩ := by
  have hfields : schema.fields "A" = [escaped] := rfl
  have hv : schema.default (.record "A") = .record "A" [.scalar (.int .i64 0)] := rfl
  have hmemo : dispatcher.memo = [] := rfl
  have hexported : escaped.exported = true := rfl
  have hskip (p : Nested.Place) (v : Value) (j : Walk.Journal) :
      (dispatcher.rules .unit).obey p escapedName v j = .done v j :=
    Nested.Rules.obey_of_unbound rfl
  simp only [Dispatcher.walk_eq_nested, hv, hmemo, Nested.walk, Nested.walkRecord, Nested.enter,
    hfields, Nested.row, Nested.member, List.getElem?_cons_zero, hexported, if_true, Nested.visit,
    ofRow_escaped, Nested.obeyAll, hskip, obey_failing, shownName_escaped, Work.andThen_done,
    Work.andThen_halt, Work.map_halt]
  rfl

end Spelled

/-- With an escape in its name tag a field is told of by the name that it has in the table, which is
also the one that it is told of by without the escape. -/
theorem Dispatcher.error_names_spelled :
    let d := Spelled.dispatcher
    let walked := d.walk Spelled.schema .unit 1 (Spelled.schema.default (.record "A"))
    d.nameTag = some "json" ∧ "json" ≠ "" ∧
      walked.result = .error (.failed (.field "px" "fail" (.custom "boom failed"))) ∧
      (calls walked.events).map Call.field = [Spelled.escaped] ∧
      (∃ table, taggedFields [Spelled.escaped] "json" = .ok table ∧
        ∀ e ∈ table, e.2.field = Spelled.escaped → e.1 = "px") ∧
      Spelled.plain.nameByCases "json" = "px" := by
  intro d walked
  have hne : "json" ≠ "" := by decide
  obtain ⟨-, htable, -, hcases, hspelled⟩ := d.error_names_agree rfl hne
  have hwalked := Spelled.walk_eq
  refine ⟨rfl, hne, congrArg Walked.result hwalked, ?_, ?_, ?_⟩
  · have hevents := congrArg Walked.events hwalked
    simp only [walked, d, hevents]
    rfl
  · obtain ⟨table, heq, hentries, -⟩ := htable [Spelled.escaped]
    refine ⟨table, heq, ?_⟩
    intro e he hfield
    rw [← hentries e he, hfield]
    exact Spelled.shownName_escaped
  · rw [hspelled Spelled.plain Spelled.escaped _ _ _ rfl Spelled.isFirst_plain
      Spelled.isFirst_escaped Spelled.found_plain Spelled.found_escaped, hcases]
    exact Spelled.shownName_escaped

end FieldNotes
