import FieldNotes.Proofs.FailFast
import FieldNotes.Proofs.StoppedField

/-! # Suppression is local and exact

A tag with the reserved name and a dash for its text keeps walks out of the value of its field.
That is all it does: other tags are obeyed as before, and all is done outside of these values.

* `Walked.callsOutside` lists the calls of a walk that were made in no value of a field.
* `Dispatcher.stop_is_local`: what a tag that stops walks does, at its field and to whole walks.
* `Dispatcher.stop_lets_go_on`: where a walk ended without having run a handler, since a tag could
  not be read, it goes on if it is kept out of there.
-/

namespace FieldNotes

open Walk (Journal)

/-! ## Whole walks -/

/-- The calls that were made in no value of a field, in the value that is left. -/
def Walked.callsOutside (walked : Walked) (record : String) (i : Nat) : List Call :=
  (calls walked.events).filter fun c => !walked.value.leadsInto record i false c.path

/-- What a tag that stops walks does.

Whatever handlers there are, a walk goes on into the value of a field unless one of the tags of the
field has the reserved name and a text that reads as a dash.  All other tags are obeyed, and a
handler that is bound to the reserved name gets all but those that stop walks.

If such a tag is put behind the other tags of a field in a record type, and handlers go by what they
find in their fields, a walk makes the calls that it made before, in their order, but for those in
values of this field.  If it came to a good end before, it does so now and makes no more calls, and
the values that are left differ in the values of this field at most. -/
theorem Dispatcher.stop_is_local (d : Dispatcher) (context : Context) :
    (∀ (w : Walk.Setting) (go : Path → Walk Unit) (path : Path) (index : Nat) (f : Field),
      ((∃ t ∈ Tag.ofRow f.row, t.Stops) → Walk.visit w go path index f = (do
        (Tag.ofRow f.row).forM (Walk.obey w path index f)
        Walk.tell [.suppressed f.name])) ∧
      ((¬ ∃ t ∈ Tag.ofRow f.row, t.Stops) → Walk.visit w go path index f = (do
        (Tag.ofRow f.row).forM (Walk.obey w path index f)
        Walk.descend go path)) ∧
      ∀ t ∈ Tag.ofRow f.row,
        (t.Stops → Walk.obey w path index f t = pure ()) ∧
        (¬ t.Stops → ∀ h, w.dispatcher.handler? t.name = some h →
          Walk.obey w path index f t = (do
            let arg ← Walk.argument h t
            Walk.call w h path index f t arg))) ∧
    ∀ (schema : Schema) (record : String) (i : Nat) (f : Field) (gap : String),
      (schema.fields record)[i]? = some f → Tag.ReadThrough f.row →
      (∀ c ∈ gap.toList, Text.isAsciiBlank c = true) →
      (∀ n h, d.handler? n = some h → h.Local) →
      ∀ (depth : Nat) (v : Value),
        let walked := d.walkRecord schema context depth v
        let stopped := d.walkRecord (schema.stopped record i gap) context depth v
        (walked.callsOutside record i).map Call.bare <+: (calls stopped.events).map Call.bare ∧
        (walked.result = .ok () → stopped.result = .ok () ∧
          (calls stopped.events).map Call.bare = (walked.callsOutside record i).map Call.bare ∧
          walked.value.Alike record i false stopped.value) := by
  refine ⟨?_, ?_⟩
  · intro w go path index f
    refine ⟨Walk.visit_stopped w go path index f, Walk.visit_open w go path index f, ?_⟩
    intro t ht
    exact ⟨Walk.obey_stops w path index f ht, fun h _ => Walk.obey_other w path index f ht h⟩
  · intro schema record i f gap hf hread hgap hlocal depth v walked stopped
    have hrow (g : Field) (hg : (schema.fields record)[i]? = some g) : Tag.ReadThrough g.row := by
      rcases Option.some.inj (hf.symm.trans hg) with rfl
      exact hread
    let start : Journal := ⟨d.memo, [.walking v.typeName]⟩
    have homits := Nested.enter_omits hlocal context schema hgap hrow depth [] id id v start start
      (.refl d.memo)
    have hwalked : walked = Nested.walkRecord (d.rules context) d.memo schema depth v :=
      d.walkRecord_eq_nested schema context depth v
    have hstopped : stopped =
        Nested.walkRecord (d.rules context) d.memo (schema.stopped record i gap) depth v :=
      d.walkRecord_eq_nested _ context depth v
    rcases homits with ⟨marked, cs, hadds, hadds', hmarked, hfirst, hend⟩
    have hcalls : calls walked.events = marked.map (·.1) := by
      rw [hwalked]
      exact hadds.calls_eq
    have hcalls' : calls stopped.events = cs := by
      rw [hstopped]
      exact hadds'.calls_eq
    -- a call is marked if its path leads into the field in the value that is left
    have houtside : (walked.callsOutside record i).map Call.bare = unmarked marked := by
      rw [Walked.callsOutside, hcalls, List.filter_map, List.map_map, unmarked]
      congr 1
      refine List.filter_congr fun m hm => ?_
      rcases hmarked m hm with ⟨q, hpath, hmark⟩
      rw [Function.comp_apply, hmark, hpath, List.nil_append, hwalked]
      rfl
    rw [houtside, hcalls']
    refine ⟨hfirst, ?_⟩
    intro hok
    rw [hwalked] at hok
    rcases hend hok with ⟨hok', halike, _, hcs⟩
    rw [hwalked, hstopped]
    exact ⟨hok', hcs, halike⟩

/-! ## A box that is not looked into -/

namespace Box

/-- A shelf with a box and a label.  The tags of the box are in the row `outer`, and those of what
is in the box in the row `inner`. -/
def schema (outer inner : String) : Schema where
  records :=
    [⟨"Shelf", [⟨⟨"box", true, outer⟩, .record "Box"⟩,
      ⟨⟨"label", true, "seen:\"label\""⟩, .scalar (.int .i64)⟩]⟩,
     ⟨"Box", [⟨⟨"content", true, inner⟩, .scalar (.int .i64)⟩]⟩]

def value : Value :=
  .record "Shelf" [.record "Box" [.scalar (.int .i64 0)], .scalar (.int .i64 0)]

def label : Tag :=
  ⟨"seen", "\"label\""⟩

def content : Tag :=
  ⟨"seen", "\"content\""⟩

theorem ofRow_label : Tag.ofRow "seen:\"label\"" = [label] := by
  decide +kernel

theorem ofRow_content : Tag.ofRow "seen:\"content\"" = [content] := by
  decide +kernel

theorem ofRow_dash : Tag.ofRow "reflect:\"-\"" = [Tag.dash] := by
  decide +kernel

theorem ofRow_empty : Tag.ofRow "" = [] := by
  decide +kernel

theorem readThrough_empty : Tag.ReadThrough "" :=
  Tag.readThrough_of_pieces [] Tag.blank_nil

theorem stopped_schema (inner : String) :
    (schema "" inner).stopped "Shelf" 0 "" = schema "reflect:\"-\"" inner := by
  rfl

theorem local_dispatcher {n : String} {h : Handler}
    (hh : Unreadable.dispatcher.handler? n = some h) : h.Local := by
  simp only [Unreadable.dispatcher, Dispatcher.find?_bind] at hh
  split at hh
  · rcases Option.some.inj hh with rfl
    intro site site' arg _ hvalue _
    exact ⟨hvalue, rfl⟩
  · cases hh

/-- What is noted when the handler is run for a tag that it has not read yet. -/
def seen (p : Nested.Place) (t : Tag) (text : String) (v : Value) (j : Journal) : Journal :=
  ⟨j.memo.insert t (.text text), j.events ++ [.parsed t text] ++ ([.dispatching p.field.name t.name,
    .called ⟨p.path, p.index, p.field, t, .text text⟩] ++
    [.reported (.visited "r" ⟨.unit, p.around v, p.path, p.index, p.field, v⟩ (.text text))])⟩

theorem obey_seen {t : Tag} {text : String} (hname : t.name = "seen")
    (hstop : t.isStop = false) (htext : t.text = .ok text) (p : Nested.Place) (v : Value)
    {j : Journal} (hnew : j.memo.find? t = none) :
    (Unreadable.dispatcher.rules .unit).obey p t v j = .done v (seen p t text v j) := by
  have hhandler : Unreadable.dispatcher.handler? t.name = some (Samples.recorder "r") := by
    rw [hname]
    rfl
  exact Nested.obey_of_new Unreadable.dispatcher .unit p v hstop hhandler hnew
    (Handler.readTag_ofRun _ htext)

theorem isStop_label : label.isStop = false := by
  decide +kernel

theorem text_label : label.text = .ok "label" := by
  decide +kernel

theorem isStop_content : content.isStop = false := by
  decide +kernel

theorem text_content : content.text = .ok "content" := by
  decide +kernel

theorem any_label : [label].any Tag.isStop = false := by
  rw [List.any_cons, isStop_label]
  rfl

theorem any_content : [content].any Tag.isStop = false := by
  rw [List.any_cons, isStop_content]
  rfl

theorem fields_shelf (outer inner : String) : (schema outer inner).fields "Shelf" =
    [⟨"box", true, outer⟩, ⟨"label", true, "seen:\"label\""⟩] :=
  rfl

theorem fields_box (outer inner : String) :
    (schema outer inner).fields "Box" = [⟨"content", true, inner⟩] :=
  rfl

/-- The walk of a shelf goes into the box first. -/
theorem walk_open :
    let walked := Unreadable.dispatcher.walkRecord (schema "" "seen:\"content\"") .unit 2 value
    walked.result = .ok () ∧ walked.value = value ∧
      (calls walked.events).map Call.path = [[.field 0, .field 0], [.field 1]] := by
  have hcontent (p : Nested.Place) (v : Value) (es : List Event) :=
    obey_seen (t := content) rfl isStop_content text_content p v (j := ⟨[], es⟩) rfl
  have hlabel (p p' : Nested.Place) (v v' : Value) (es : List Event) :=
    obey_seen (t := label) rfl isStop_label text_label p v
      (j := seen p' content "content" v' ⟨[], es⟩) (by
        rw [seen, Memo.find?_insert, if_neg (by decide)]
        rfl)
  have hnone : ([] : List Tag).any Tag.isStop = false := rfl
  have hmemo : Unreadable.dispatcher.memo = [] := rfl
  intro walked
  have hwork : ∃ j, Nested.enter (Unreadable.dispatcher.rules .unit).obey
      (schema "" "seen:\"content\"") 2 [] id value ⟨[], [.walking "Shelf"]⟩ = .done value j ∧
      (calls j.events).map Call.path = [[.field 0, .field 0], [.field 1]] := by
    simp only [Nested.enter, value, fields_shelf, fields_box, Nested.row, Nested.member,
      List.getElem?_cons_zero, List.getElem?_cons_succ, if_true, Nested.visit, ofRow_empty,
      ofRow_content, ofRow_label, Nested.obeyAll, hnone, any_content, any_label,
      Bool.false_eq_true, if_false, Work.andThen_done, Nested.descend, hcontent, hlabel,
      Work.map_done]
    exact ⟨_, rfl, rfl⟩
  rcases hwork with ⟨j, hwork, hpaths⟩
  have hwalked : walked = ⟨.ok (), value, j.memo, j.events⟩ := by
    have hname : value.typeName = "Shelf" := rfl
    simp only [walked, Dispatcher.walkRecord_eq_nested, Nested.walkRecord, hmemo, hname, hwork]
    rfl
  rw [hwalked]
  exact ⟨rfl, rfl, hpaths⟩

end Box

/-- If the box is not to be looked into, the label is still looked at. -/
theorem Dispatcher.stop_at_box :
    let walked := Unreadable.dispatcher.walkRecord (Box.schema "" "seen:\"content\"") .unit 2
      Box.value
    let stopped := Unreadable.dispatcher.walkRecord
      (Box.schema "reflect:\"-\"" "seen:\"content\"") .unit 2 Box.value
    walked.result = .ok () ∧ stopped.result = .ok () ∧
      (calls walked.events).map Call.path = [[.field 0, .field 0], [.field 1]] ∧
      (calls stopped.events).map Call.path = [[.field 1]] := by
  intro walked stopped
  rcases Box.walk_open with ⟨hok, hvalue, hpaths⟩
  have hlocal := (stop_is_local Unreadable.dispatcher .unit).2 (Box.schema "" "seen:\"content\"")
    "Shelf" 0 ⟨"box", true, ""⟩ "" rfl Box.readThrough_empty Tag.blank_nil
    (fun _ _ => Box.local_dispatcher) 2 Box.value
  rw [Box.stopped_schema] at hlocal
  rcases hlocal.2 hok with ⟨hok', hcalls, _⟩
  refine ⟨hok, hok', hpaths, ?_⟩
  have hpath : Call.path ∘ Call.bare = Call.path := rfl
  have hunmarked : (walked.callsOutside "Shelf" 0).map Call.path = [[.field 1]] := by
    have hfilter : (walked.callsOutside "Shelf" 0).map Call.path =
        ((calls walked.events).map Call.path).filter
          fun q => !Box.value.leadsInto "Shelf" 0 false q := by
      rw [List.filter_map, ← hvalue]
      rfl
    rw [hfilter, hpaths]
    rfl
  have hsame := congrArg (List.map Call.path) hcalls
  rw [List.map_map, List.map_map, hpath] at hsame
  exact hsame.trans hunmarked

/-- If what is in the box cannot be read, a walk ends there without having run a handler.  Now that
the box is not to be looked into, there is a call that was not made before. -/
theorem Dispatcher.stop_lets_go_on :
    let walked := Unreadable.dispatcher.walkRecord (Box.schema "" "seen:\"\\q\"") .unit 2 Box.value
    let stopped := Unreadable.dispatcher.walkRecord
      ((Box.schema "" "seen:\"\\q\"").stopped "Shelf" 0 "") .unit 2 Box.value
    ((Box.schema "" "seen:\"\\q\"").fields "Shelf")[0]? = some ⟨"box", true, ""⟩ ∧
      Tag.ReadThrough "" ∧
      (∀ n h, Unreadable.dispatcher.handler? n = some h → h.Local) ∧
      calls walked.events = [] ∧ stopped.result = .ok () ∧
      (calls stopped.events).map Call.path = [[.field 1]] := by
  have hlabel (p : Nested.Place) (v : Value) (es fs : List Event) :=
    Box.obey_seen (t := Box.label) rfl Box.isStop_label Box.text_label p v
      (j := (⟨[], es⟩ : Journal).note fs) rfl
  have hdash (p : Nested.Place) (v : Value) (j : Journal) :
      (Unreadable.dispatcher.rules .unit).obey p Tag.dash v j = .done v j := rfl
  have hnone : ([] : List Tag).any Tag.isStop = false := rfl
  have hstop : [Tag.dash].any Tag.isStop = true := rfl
  have hmemo : Unreadable.dispatcher.memo = [] := rfl
  intro walked stopped
  have hwalked : calls walked.events = [] := by
    simp only [walked, Dispatcher.walkRecord_eq_nested, Nested.walkRecord, hmemo, Nested.enter,
      Box.value, Box.fields_shelf, Box.fields_box, Nested.row, Nested.member,
      List.getElem?_cons_zero, if_true, Nested.visit, Box.ofRow_empty, Unreadable.ofRow,
      Nested.obeyAll, hnone, Bool.false_eq_true, if_false, Work.andThen_done, Nested.descend,
      Unreadable.obey_tag, Work.andThen_halt, Work.map_halt]
    rfl
  have hstopped : stopped.result = .ok () ∧
      (calls stopped.events).map Call.path = [[.field 1]] := by
    simp only [stopped, Box.stopped_schema, Dispatcher.walkRecord_eq_nested, Nested.walkRecord,
      hmemo, Nested.enter, Box.value, Box.fields_shelf, Nested.row, Nested.member,
      List.getElem?_cons_zero, List.getElem?_cons_succ, if_true, Nested.visit, Box.ofRow_dash,
      Box.ofRow_label, Nested.obeyAll, hdash, hstop, Box.any_label, Bool.false_eq_true, if_false,
      Work.andThen_done, hlabel, Nested.descend, Work.map_done]
    exact ⟨rfl, rfl⟩
  exact ⟨rfl, Box.readThrough_empty, fun _ _ => Box.local_dispatcher, hwalked, hstopped⟩

end FieldNotes
