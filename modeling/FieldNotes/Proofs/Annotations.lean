import FieldNotes.Proofs.Grammar
import FieldNotes.Proofs.Stops
import FieldNotes.Proofs.Tokens
import FieldNotes.Proofs.Accounting
import FieldNotes.Samples.Handlers

/-! # Annotations that carry texts

An annotation gives texts to names.  It is written as a row, with each text between quotes, and it
is read back as it was meant: by the row itself, and by every walk that comes to a field with this
row.

* `Annotation` is what is written, and `Annotation.can_carry` that all texts can be.
* `Annotation.ofRow_row`: the tags of the row are those that were written.
* `Walk.heed` is what is to be done for a name and its text, said without the written form, and
  `Walk.obey_tag` that this is done.
* `Dispatcher.walk_gives`: handlers are run with what they make of the text of their tag.
* `Annotation.reads_back`: all that together.
-/

namespace FieldNotes

open Text Text.Quoted

open Walk (Journal)

/-! ## What is written -/

/-- A text for a name, written by tokens. -/
structure Inscription where
  /-- The blanks in front of it. -/
  blanks : List Char
  name : String
  tokens : List Token
  text : String
  blanks_blank : ∀ c ∈ blanks, isAsciiBlank c = true
  name_ne_empty : name ≠ ""
  name_chars : ∀ c ∈ name.toList, Tag.NameChar c
  spelled : tokens.flatMap Token.bytes = bytes text

/-- Texts for names in their order, with blanks behind the last. -/
structure Annotation where
  inscriptions : List Inscription
  trail : List Char
  trail_blank : ∀ c ∈ trail, isAsciiBlank c = true

theorem Text.Quoted.Digit.char_ne {base : Nat} (hbase : base ≤ 16) (d : Digit base) :
    d.char ≠ '"' ∧ d.char ≠ '\\' :=
  (digitChar_plain (by omega) d.upper).2

theorem Tag.inner_digits {base : Nat} (hbase : base ≤ 16) (ds : List (Digit base))
    {cs : List Char} (h : Inner cs) : Inner (ds.map Digit.char ++ cs) := by
  induction ds with
  | nil => exact h
  | cons d ds ih => exact .plain (d.char_ne hbase).1 (d.char_ne hbase).2 ih

/-- Behind a backslash the first character is passed over, and digits end no text. -/
theorem Tag.inner_escape (e : Escape) {cs : List Char} (h : Inner cs) :
    Inner ('\\' :: (e.tail ++ cs)) := by
  cases e with
  | letter c b hletter => exact .escaped c h
  | octal ds hlength hbyte =>
    cases ds with
    | nil => exact absurd hlength (by decide)
    | cons d ds => exact .escaped d.char (inner_digits (by decide) ds h)
  | hex ds _ => exact .escaped 'x' (inner_digits (by decide) ds h)
  | short c ds _ _ => exact .escaped 'u' (inner_digits (by decide) ds h)
  | long c ds _ _ => exact .escaped 'U' (inner_digits (by decide) ds h)

theorem Tag.inner_tokens (ts : List Token) : Inner (ts.flatMap Token.chars) := by
  induction ts with
  | nil => exact .nil
  | cons t ts ih =>
    rw [List.flatMap_cons]
    cases t with
    | plain c hquote hbackslash hline => exact .plain hquote hbackslash ih
    | escape e => exact inner_escape e ih

namespace Inscription

variable (i : Inscription)

/-- The piece of a row that is written. -/
def piece : Tag.Piece where
  blanks := i.blanks
  name := i.name.toList
  inner := i.tokens.flatMap Token.chars
  blanks_blank := i.blanks_blank
  name_ne_nil h := i.name_ne_empty (String.toList_eq_nil_iff.1 h)
  name_chars := i.name_chars
  inner_inner := Tag.inner_tokens i.tokens

def tag : Tag :=
  i.piece.tag

/-- Whether a walk is to be kept out of the value of the field: `reflect` with the text `-`. -/
def Stops : Prop :=
  i.name = stopName ∧ trim i.text = "-"

instance : Decidable i.Stops :=
  inferInstanceAs (Decidable (_ ∧ _))

theorem tag_name : i.tag.name = i.name :=
  String.ofList_toList

theorem tag_text : i.tag.text = .ok i.text :=
  unquote_tokens i.spelled

theorem tag_isStop : i.tag.isStop = decide i.Stops := by
  have hread : (∃ s, i.tag.text = .ok s ∧ trim s = "-") ↔ trim i.text = "-" := by
    rw [i.tag_text]
    constructor
    · rintro ⟨s, hs, htrim⟩
      rcases Except.ok.inj hs with rfl
      exact htrim
    · intro htrim
      exact ⟨i.text, rfl, htrim⟩
  have hstops : i.tag.Stops ↔ i.Stops := by
    unfold Tag.Stops Stops
    rw [i.tag_name, hread]
  rw [Bool.eq_iff_iff, decide_eq_true_iff]
  exact i.piece.isStop_iff.trans hstops

end Inscription

namespace Annotation

variable (a : Annotation)

/-- The names with their texts. -/
def texts : List (String × String) :=
  a.inscriptions.map fun i => (i.name, i.text)

/-- The row that is written. -/
def row : String :=
  String.ofList ((a.inscriptions.map Inscription.piece).flatMap Tag.Piece.chars ++ a.trail)

theorem ofRow_row : Tag.ofRow a.row = a.inscriptions.map Inscription.tag := by
  have hsplits : Tag.Splits a.row.toList (a.inscriptions.map Inscription.piece) a.trail := by
    rw [row, String.toList_ofList]
    exact Tag.splits_of_blanks a.trail_blank
  rw [Tag.ofRow, Tag.scan_of_splits hsplits, List.map_map]
  rfl

theorem ofRow_texts : (Tag.ofRow a.row).map (fun t => (t.name, t.text)) =
    a.texts.map fun p => (p.1, .ok p.2) := by
  rw [a.ofRow_row, texts, List.map_map, List.map_map]
  refine List.map_congr_left fun i _ => ?_
  exact Prod.ext i.tag_name i.tag_text

/-- Under a name stands the first text that was written for it. -/
theorem find?_row (name : String) :
    Tag.find? a.row name = (a.texts.find? (·.1 = name)).map (·.2) := by
  have hsame : (fun t : Tag => t.name == name) ∘ Inscription.tag =
      (fun p : String × String => decide (p.1 = name)) ∘ fun i => (i.name, i.text) := by
    funext i
    exact congrArg (· == name) i.tag_name
  rw [Tag.find?, ofRow_row, texts, List.find?_map, List.find?_map, hsame]
  cases a.inscriptions.find? _ with
  | none => rfl
  | some i => rw [Option.map_some, Option.bind_some, i.tag_text]; rfl

/-- Every row of names and texts can be written. -/
theorem can_carry (pairs : List (String × String))
    (hnames : ∀ p ∈ pairs, p.1 ≠ "" ∧ ∀ c ∈ p.1.toList, Tag.NameChar c) :
    ∃ a : Annotation, a.texts = pairs := by
  induction pairs with
  | nil => exact ⟨⟨[], [], by simp⟩, rfl⟩
  | cons p pairs ih =>
    rcases p with ⟨name, text⟩
    rcases ih fun q hq => hnames q (List.mem_cons_of_mem _ hq) with ⟨a, rfl⟩
    rcases hnames (name, text) List.mem_cons_self with ⟨hne, hchars⟩
    rcases exists_tokens text with ⟨ts, hts⟩
    exact ⟨⟨⟨[], name, ts, text, by simp, hne, hchars, hts⟩ :: a.inscriptions, a.trail,
      a.trail_blank⟩, rfl⟩

end Annotation

/-! ## What a walk makes of it -/

namespace Walk

/-- The argument of an inscription: the one that is remembered, or else what the handler makes of
the text, which is remembered from then on. -/
def hear (h : Handler) (i : Inscription) : Walk Arg := do
  match (← get).memo.find? i.tag with
  | some arg => return arg
  | none =>
    let reading := h.parse i.text
    tell (reading.reports.map .reported)
    match reading.result with
    | .error e => fault (.brokenArgument i.name i.text e)
    | .ok arg =>
      tell [.parsed i.tag i.text]
      modify fun s => { s with memo := s.memo.insert i.tag arg }
      return arg

theorem argument_tag (h : Handler) (i : Inscription) : argument h i.tag = hear h i := by
  funext s
  show EStateM.run (argument h i.tag) s = EStateM.run (hear h i) s
  rw [run_argument]
  simp only [hear, tell, fault, EStateM.run_bind, EStateM.run_get]
  cases hfound : s.memo.find? i.tag with
  | some arg =>
    simp only [Memo.ask, hfound, Journal.note, List.append_nil]
    rfl
  | none =>
    cases hparse : (h.parse i.text).result with
    | error e =>
      simp only [Memo.ask, hfound, Handler.readTag, i.tag_text, i.tag_name, hparse]
      rfl
    | ok arg =>
      simp only [Memo.ask, hfound, Handler.readTag, i.tag_text, hparse, Journal.note,
        EStateM.run_bind, EStateM.run_modify, EStateM.run_pure, List.append_assoc]

variable (w : Setting) (go : Path → Walk Unit) (path : Path) (index : Nat) (f : Field)

/-- Does what an inscription on the field at a path asks for. -/
def heed (i : Inscription) : Walk Unit := do
  if i.Stops then return
  match w.dispatcher.handler? i.name with
  | none => return
  | some h => call w h path index f i.tag (← hear h i)

theorem obey_tag (i : Inscription) : obey w path index f i.tag = heed w path index f i := by
  rw [obey, heed, i.tag_isStop, i.tag_name]
  by_cases hstop : i.Stops
  · simp only [hstop, decide_true, if_true]
  · simp only [hstop, decide_false, Bool.false_eq_true, if_false]
    cases w.dispatcher.handler? i.name with
    | none => rfl
    | some h => exact congrArg (· >>= call w h path index f i.tag) (argument_tag h i)

/-- A field is visited by heeding the annotation in its row. -/
theorem visit_annotation {a : Annotation} (hf : f.row = a.row) :
    visit w go path index f = (do
      a.inscriptions.forM (heed w path index f)
      if ∃ i ∈ a.inscriptions, i.Stops then tell [.suppressed f.name] else descend go path) := by
  have hobey : (a.inscriptions.map Inscription.tag).forM (obey w path index f) =
      a.inscriptions.forM (heed w path index f) := by
    rw [← funext (obey_tag w path index f)]
    exact List.forM_map
  have hstop : (a.inscriptions.map Inscription.tag).any Tag.isStop = true ↔
      ∃ i ∈ a.inscriptions, i.Stops := by
    simp only [List.any_map, List.any_eq_true, Function.comp_apply, Inscription.tag_isStop,
      decide_eq_true_eq]
  simp only [visit, hf, a.ofRow_row, hobey, hstop]

end Walk

/-! ## The arguments of handlers -/

/-- A journal tells only of runs with what the handlers bound now make of the texts. -/
def Walk.Journal.Gives (handler? : String → Option Handler) (j : Journal) : Prop :=
  j.memo.Kept handler? ∧
    ∀ c ∈ calls j.events, ∃ h, handler? c.handler = some h ∧ (h.readTag c.tag).1 = .ok c.arg

theorem Nested.obey_gives (d : Dispatcher) (context : Context) (p : Place) (t : Tag) (v : Value)
    (j : Journal) (hj : j.Gives d.handler?) :
    (((d.rules context).obey p t v j).journal).Gives d.handler? := by
  have hold (h : Handler) : ∀ c ∈ calls (j.events ++ (j.memo.ask h t).events), ∃ h,
      d.handler? c.handler = some h ∧ (h.readTag c.tag).1 = .ok c.arg := by
    rw [calls_append, Memo.calls_ask, List.append_nil]
    exact hj.2
  rcases (d.rules context).obey_cases p t v j with
    heq | ⟨h, -, hh, ⟨arg, harg, heq⟩ | ⟨f, -, heq⟩⟩ <;> rw [heq]
  · exact hj
  · have hbound : d.handler? t.name = some h := hh
    have hresult := Memo.ask_result hj.1 hbound
    refine ⟨hj.1.ask hbound, ?_⟩
    intro c hc
    simp only [Rules.call, Journal.note, calls_append, calls_reported, List.append_nil,
      List.mem_append] at hc
    rcases hc with hc | hc
    · exact hold h c (by rwa [calls_append, List.mem_append])
    · -- the run itself, with what was asked for
      rcases List.mem_singleton.1 hc with rfl
      exact ⟨h, hbound, hresult.symm.trans harg⟩
  · exact ⟨hj.1.ask hh, hold h⟩

theorem Dispatcher.walk_gives {d : Dispatcher} (hd : d.memo.Kept d.handler?) (schema : Schema)
    (context : Context) (depth : Nat) (v : Value) :
    ∀ c ∈ calls (d.walk schema context depth v).events, ∃ h,
      d.handler? c.handler = some h ∧ (h.readTag c.tag).1 = .ok c.arg := by
  rw [d.walk_eq_nested]
  refine (Nested.walk_keeps (I := Journal.Gives d.handler?) (Nested.obey_gives d context) ?_
    ⟨hd, fun _ hc => absurd hc List.not_mem_nil⟩ schema depth v).2
  intro e j he hj
  refine ⟨hj.1, ?_⟩
  have hnone : calls [e] = [] := by cases e <;> first | rfl | cases he
  rw [Journal.note, calls_append, hnone, List.append_nil]
  exact hj.2

/-! ## The whole -/

/-- Every text can be carried by an annotation and is read back.

The tags of the row have the names and the texts that were written, in their order, and under a name
stands its first text.  A walk that visits a field with this row heeds what was written: a handler
bound to a name is given the text to parse, as it is and unless it did so before; only an
inscription that keeps the walk out is given to none.  In any usage, whatever a handler is run with
for one of these tags is what it makes of its text. -/
theorem Annotation.reads_back :
    (∀ pairs : List (String × String),
      (∀ p ∈ pairs, p.1 ≠ "" ∧ ∀ c ∈ p.1.toList, Tag.NameChar c) →
        ∃ a : Annotation, a.texts = pairs) ∧
    ∀ a : Annotation,
      (Tag.ofRow a.row).map (fun t => (t.name, t.text)) = a.texts.map (fun p => (p.1, .ok p.2)) ∧
      (∀ name, Tag.lookup a.row name =
        if name = "" then .error (.emptyName .lookup)
        else .ok ((a.texts.find? (·.1 = name)).map (·.2))) ∧
      (∀ w go path index f, f.row = a.row → Walk.visit w go path index f = (do
        a.inscriptions.forM (Walk.heed w path index f)
        if ∃ i ∈ a.inscriptions, i.Stops then Walk.tell [.suppressed f.name]
        else Walk.descend go path)) ∧
      ∀ bindings nameTag acts schema context depth v,
        let d := ((Usage.start bindings nameTag).after acts).dispatcher
        ∀ c ∈ calls (d.walk schema context depth v).events, ∀ i ∈ a.inscriptions, c.tag = i.tag →
          ∃ h, d.handler? i.name = some h ∧ (h.parse i.text).result = .ok c.arg := by
  refine And.intro Annotation.can_carry ?_
  intro a
  refine ⟨a.ofRow_texts, ?_, ?_, ?_⟩
  · intro name
    by_cases hname : name = ""
    · rw [if_pos hname, hname]
      rfl
    · have hrequire : requireName .lookup name = .ok () := by simp [requireName, hname]
      rw [if_neg hname, Tag.lookup, hrequire, a.find?_row]
      rfl
  · intro w go path index f hf
    exact Walk.visit_annotation w go path index f hf
  · intro bindings nameTag acts schema context depth v d c hc i _ htag
    -- also what was remembered from earlier walks is what the handler makes of the text
    have hkept := (Usage.after_accounts bindings nameTag acts).1
    rcases Dispatcher.walk_gives hkept schema context depth v c hc with ⟨h, hh, hread⟩
    rw [htag] at hread
    rw [Call.handler, htag, i.tag_name] at hh
    rcases Handler.readTag_ok_iff.1 hread with ⟨text, htext, hparse⟩
    rw [i.tag_text] at htext
    rw [← Except.ok.inj htext] at hparse
    exact ⟨h, hh, hparse⟩

/-! ## The inscription that is given to no handler -/

namespace Annotation

theorem nameChar_stopName : ∀ c ∈ stopName.toList, Tag.NameChar c := by
  have hall : (stopName.toList.all fun c => decide (Tag.NameChar c)) = true := by decide
  intro c hc
  exact of_decide_eq_true (List.all_eq_true.1 hall c hc)

/-- The inscription that keeps walks out. -/
def dash : Inscription where
  blanks := []
  name := stopName
  tokens := [.plain '-' (by decide) (by decide) (by decide)]
  text := "-"
  blanks_blank := nofun
  name_ne_empty := by decide
  name_chars := nameChar_stopName
  spelled := rfl

/-- The annotation of one field with it. -/
def dashed : Annotation where
  inscriptions := [dash]
  trail := []
  trail_blank := nofun

/-- One record type, of one number that is annotated so. -/
def dashedSchema : Schema where
  records := [⟨"A", [⟨⟨"a", true, dashed.row⟩, .scalar (.int .i64)⟩]⟩]

theorem visit_dashed (w : Walk.Setting) (go : Path → Walk Unit) (path : Path) (index : Nat)
    {f : Field} (hf : f.row = dashed.row) :
    Walk.visit w go path index f = Walk.tell [.suppressed f.name] := by
  have hstops : dash.Stops := ⟨rfl, rfl⟩
  have hsome : ∃ i ∈ dashed.inscriptions, i.Stops := ⟨dash, List.mem_singleton_self dash, hstops⟩
  rw [Walk.visit_annotation w go path index f hf, if_pos hsome]
  simp only [dashed, List.forM_eq_forM, List.forM_cons, List.forM_nil, Walk.heed, if_pos hstops]
  rfl

/-- The text that keeps walks out is read by no handler, not even by one that is bound to its name
and would tell of it. -/
theorem dash_goes_unread :
    let d := Dispatcher.empty.bind "reflect" (Samples.counter "c")
    let walked := d.walk dashedSchema .unit 1 (dashedSchema.default (.record "A"))
    dashed.texts = [("reflect", "-")] ∧
      d.handler? "reflect" = some (Samples.counter "c") ∧
      ((Samples.counter "c").parse "-").reports = [.parsed "c"] ∧
      walked.result = .ok () ∧ reports walked.events = [] := by
  intro d walked
  have hfields : dashedSchema.fields "A" = [⟨"a", true, dashed.row⟩] := rfl
  have hvisit (go : Path → Walk Unit) : Walk.visit ⟨dashedSchema, d, .unit⟩ go [.field 0] 0
      ⟨"a", true, dashed.row⟩ = Walk.tell [.suppressed "a"] :=
    visit_dashed _ go [.field 0] 0 rfl
  have hwalked : walked = ⟨.ok (), .record "A" [.scalar (.int .i64 0)], [],
      [.walking "A", .suppressed "a"]⟩ := by
    have hv : dashedSchema.default (.record "A") = .record "A" [.scalar (.int .i64 0)] := rfl
    simp only [walked, hv, Dispatcher.walk, Dispatcher.walkRecord, Walk.enter, Value.kind,
      Walk.valueAt?, EStateM.run_bind, EStateM.run_get, EStateM.run_pure, Value.get?_nil, hfields,
      List.forM_eq_forM, List.length_singleton, List.take_succ_cons, List.take_zero,
      List.zipIdx_cons, List.zipIdx_nil, List.forM_cons, List.forM_nil, List.nil_append, if_true,
      hvisit]
    rfl
  rw [hwalked]
  exact ⟨rfl, rfl, rfl, rfl, rfl⟩

end Annotation

end FieldNotes
