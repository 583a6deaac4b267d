import FieldNotes.Proofs.Again
import FieldNotes.Proofs.Literals
import FieldNotes.Proofs.Termination

/-! # Walks that fill in do so once and for all

A walk that has filled in a value finds nothing new to do there when it comes again.  What is not
zero any more is left alone.  What is still zero after all its literals and after the walk through
its parts is equal to the zero that each of these literals met.  A setter makes the same of both, so
the literals do once more what they did, and come to the same end.

* `Schema.SettersPure` is what is asked of setters where sealed types have an equality of their own.
* `Fill.fillIn_stays`, `Fill.fillIn_refused`: a literal that was taken, or refused, before.
* `Nested.obey_kinds`: a tag comes to one end for all values, or fills in a literal, and this alike
  in all walks.
* `Dispatcher.walk_idempotent`: a second walk leaves what the first one has left, and ends alike.
-/

namespace FieldNotes

open Nested (Enter Place Repeats Rules row descend obeyAll visit member enter)
open Value (Made)
open Walk (Journal)

/-- A setter that does not come to a good end leaves the value as it was. -/
def Schema.SettersAllOrNothing (s : Schema) : Prop :=
  ∀ (t : Ty) (set : Setter) (arg : Arg) (v : Value),
    s.setter? t = some set → v.Made s t → (set arg v).2 ≠ .done → (set arg v).1 = v

/-- Setters are functions of the value and the argument: they make the same of values that are equal
as their types have it, and come to the same end.  Where a type holds values equal that are not the
same, say the zeros of either sign, its setter is not to tell them apart. -/
def Schema.SettersPure (s : Schema) : Prop :=
  ∀ (t : Ty) (set : Setter) (arg : Arg) (v w : Value), s.setter? t = some set → v.Made s t →
    w.Made s t → v.Equal s w → set arg v = set arg w

/-- In the rows of the declared fields, what is written for a name with a handler is a literal. -/
def Dispatcher.ReadsLiterals (d : Dispatcher) (s : Schema) : Prop :=
  ∀ name, ∀ f ∈ s.fields name, ∀ t ∈ Tag.ofRow f.row, (d.handler? t.name).isSome = true →
    ∀ text, t.text = .ok text → FillArg.read text = .literal text

variable {s : Schema}

/-- Where sealed types go by the scalars that they are made of, there are no two values that are
equal, so that nothing is asked of setters. -/
theorem Schema.Structural.settersPure (h : s.Structural) : s.SettersPure := by
  intro t set arg v w _ _ _ hequal
  rw [hequal.eq h]

/-! ## Targets -/

namespace Value

variable {v w : Value}

theorem target_of_kind (h : v.kind ≠ .pointer) : v.target = v ∧ ∀ x, v.withTarget x = x := by
  cases v with
  | nil t => exact absurd rfl h
  | present v => exact absurd rfl h
  | owned v => exact absurd rfl h
  | _ => exact ⟨rfl, fun _ => rfl⟩

/-- Nothing becomes nil by being filled in. -/
theorem Filled.ne_nil (h : v.Filled s w) (hv : ∀ t, v ≠ .nil t) (t : Ty) : w ≠ .nil t := by
  rintro rfl
  cases h with
  | refl _ => exact hv t rfl
  | zero hzero hblank =>
    -- the only zeros that are pointers are nil
    have hkind := kind_eq_of_blank hblank
    cases v with
    | nil t' => exact hv t' rfl
    | present v => cases hzero
    | owned v => cases hzero
    | _ => cases hkind

/-- What is behind a pointer is filled in, and the pointer stays one, unless it was nil. -/
theorem Filled.target (h : v.Filled s w) (hv : ∀ t, v ≠ .nil t) :
    v.target.Filled s w.target ∧ ∀ x, w.withTarget x = v.withTarget x := by
  by_cases hkind : v.kind = .pointer
  · cases v with
    | nil t => exact absurd rfl (hv t)
    | present v =>
      obtain ⟨y, rfl, hy⟩ := h.of_present
      exact ⟨hy, fun _ => rfl⟩
    | owned v =>
      obtain ⟨y, rfl, hy⟩ := h.of_owned
      exact ⟨hy, fun _ => rfl⟩
    | _ => cases hkind
  · obtain ⟨hvtarget, hvwith⟩ := target_of_kind hkind
    obtain ⟨hwtarget, hwwith⟩ := target_of_kind (v := w) fun hw => hkind (h.kind_eq.symm.trans hw)
    refine ⟨?_, fun x => (hwwith x).trans (hvwith x).symm⟩
    rw [hvtarget, hwtarget]
    exact h

theorem Made.target {t : Ty} (hv : v.Made s t) : v.target.Made s v.target.ty := by
  have hty := hv.fits.ty_eq
  subst hty
  cases v with
  | present v => exact Made.present_iff.1 hv
  | owned v => exact Made.owned_iff.1 hv
  | _ => exact hv

end Value

namespace Schema

theorem allocate_ne_nil (s : Schema) (v : Value) (t : Ty) : s.allocate v ≠ .nil t := by
  cases v <;> exact nofun

theorem allocate_of_ne_nil {v : Value} (h : ∀ t, v ≠ .nil t) : s.allocate v = v := by
  cases v with
  | nil t => exact absurd rfl (h t)
  | _ => rfl

/-- A setter makes the same of all zeros of a type. -/
theorem SettersPure.of_isZero (hpure : s.SettersPure) {t : Ty} {set : Setter} (arg : Arg)
    (hset : s.setter? t = some set) {v w : Value} (hv : v.Made s t) (hw : w.Made s t)
    (hvzero : s.isZero v = true) (hwzero : s.isZero w = true) : set arg w = set arg v := by
  have hwblank := hpure t set arg w _ hset hw hw.blank (Value.equal_blank w hwzero)
  have hvblank := hpure t set arg v _ hset hv hv.blank (Value.equal_blank v hvzero)
  rw [hwblank, hvblank, hv.blank_eq hw]

end Schema

/-! ## Literals -/

namespace Fill

variable {w : Fill} {literal : String} {v y : Value} {t : Ty}

theorem fillIn_fills (hs : w.schema.SettersMake) (hdefaults : w.schema.DefaultsMade) (v : Value) :
    v.Fills w.schema (w.fillIn literal v).1 := by
  have hrun := w.run_fills hs hdefaults (Literals.only v) (.fill (.literal literal))
  rw [run_literal] at hrun
  exact hrun

/-- What a literal has made of an allocated value is that value filled in. -/
theorem filled_fillIn (w : Fill) (literal : String) (hs : w.schema.SettersMake)
    (hdefaults : w.schema.DefaultsMade) (hv : v.Made w.schema t) :
    (w.schema.allocate v).Filled w.schema (w.fillIn literal v).1 := by
  rw [← fillIn_allocate]
  exact (fillIn_fills hs hdefaults _ t (Schema.made_allocate hdefaults hv)).2

/-- A literal that is refused leaves no trace but the allocation. -/
theorem fillIn_refused (hall : w.schema.SettersAllOrNothing) (hdefaults : w.schema.DefaultsMade)
    (hv : v.Made w.schema t) (hend : (w.fillIn literal v).2 ≠ .done) :
    (w.fillIn literal v).1 = w.schema.allocate v := by
  cases hzero : w.schema.isZero (w.schema.allocate v).target with
  | false =>
    rw [← fillIn_allocate, fillIn_of_ne_zero hzero] at hend
    exact absurd rfl hend
  | true =>
    have htarget := (Schema.made_allocate hdefaults hv).target
    rw [fillIn_of_zero hzero] at hend ⊢
    have hsame : (w.setLiteral literal (w.schema.allocate v).target).1 =
        (w.schema.allocate v).target :=
      w.setLiteral_refused (fun set hset => hall _ set _ _ hset htarget) hend
    simp only [hsame, Value.withTarget_target]

/-- So it is refused again. -/
theorem fillIn_again (hall : w.schema.SettersAllOrNothing) (hdefaults : w.schema.DefaultsMade)
    (hv : v.Made w.schema t) (hend : (w.fillIn literal v).2 ≠ .done) :
    w.fillIn literal (w.fillIn literal v).1 = w.fillIn literal v := by
  rw [fillIn_refused hall hdefaults hv hend, fillIn_allocate]

/-- A literal that was taken for one zero is taken alike for any other zero of the type. -/
theorem setLiteral_of_isZero (hpure : w.schema.SettersPure) (hv : v.Made w.schema t)
    (hy : y.Made w.schema t) (hvzero : w.schema.isZero v = true)
    (hyzero : w.schema.isZero y = true) (hend : (w.setLiteral literal v).2 = .done) :
    w.setLiteral literal y = w.setLiteral literal v := by
  have hvty := hv.fits.ty_eq
  have hyty := hy.fits.ty_eq
  rcases w.setLiteral_cases literal v with ⟨set, hset, heq⟩ | ⟨d, d', rfl, -, -⟩ | ⟨-, hrefused⟩
  · rw [hvty] at hset
    rw [heq, ← hpure.of_isZero _ hset hv hy hvzero hyzero]
    unfold setLiteral
    rw [hyty, hset]
  · -- of a scalar type there is one zero
    obtain ⟨e, rfl⟩ : ∃ e, y = .scalar e := by
      rw [← hvty] at hyty
      cases y <;> simp only [Value.ty, reduceCtorEq] at hyty
      exact ⟨_, rfl⟩
    have hd : d = .zero d.ty := Datum.isZero_iff.1 hvzero
    have he : e = .zero e.ty := Datum.isZero_iff.1 hyzero
    have hsame : e.ty = d.ty := Ty.scalar.inj (hyty.trans hvty.symm)
    rw [he, hsame, ← hd]
  · exact absurd hend hrefused

/-- A literal that was taken once does nothing later, or what it did before, be the value filled in
further or not. -/
theorem fillIn_stays (hpure : w.schema.SettersPure) (hs : w.schema.SettersMake)
    (hdefaults : w.schema.DefaultsMade) (hv : v.Made w.schema t) (hy : y.Made w.schema t)
    (hend : (w.fillIn literal v).2 = .done) (hfilled : (w.fillIn literal v).1.Filled w.schema y) :
    w.fillIn literal y = (y, .done) ∨ w.fillIn literal y = ((w.fillIn literal v).1, .done) := by
  cases hzero : w.schema.isZero y.target with
  | false => exact Or.inl (fillIn_of_ne_zero hzero)
  | true =>
    -- so the literal met a zero the first time, and meets an equal one now
    apply Or.inr
    have hallocated := Schema.made_allocate hdefaults hv
    have hgrown := (w.filled_fillIn literal hs hdefaults hv).trans hfilled
    have hpresent := hgrown.ne_nil (w.schema.allocate_ne_nil v)
    obtain ⟨htarget, hwith⟩ := hgrown.target (w.schema.allocate_ne_nil v)
    have hzero' := htarget.isZero_of_isZero hzero
    have hty : (w.schema.allocate v).target.ty = y.target.ty :=
      (Value.ty_eq_of_blank htarget.blank_eq).symm
    have hmade := hallocated.target
    rw [hty] at hmade
    rw [fillIn_of_zero hzero'] at hend
    have hsame := setLiteral_of_isZero hpure hmade hy.target hzero' hzero hend
    have hsecond : w.fillIn literal y = _ := fillIn_of_zero (by
      rw [Schema.allocate_of_ne_nil hpresent]
      exact hzero)
    rw [hsecond, Schema.allocate_of_ne_nil hpresent, hwith, hsame, fillIn_of_zero hzero', hend]

end Fill

/-! ## Tags -/

namespace Nested

/-- To obey a tag that is read as a literal is to fill this in. -/
theorem obey_literal {d : Dispatcher} {t : Tag} {w : Fill} {text : String}
    (hstop : t.isStop = false) (hh : d.handler? t.name = some (.fill w)) (htext : t.text = .ok text)
    (hliteral : FillArg.read text = .literal text) (context : Context) (p : Place) (v : Value)
    (j : Journal) :
    ((d.registry.rules context).obey p t v j).Ends (w.fillIn text v).1
      ((d.registry.rules .unit).ending p.field t (w.fillIn text v).2) := by
  have hhandler : (d.registry.rules context).handler? t.name = some (.fill w) := hh
  have hread : ((Handler.fill w).readTag t).1 = .ok (.fill (.literal text)) := by
    simp only [Handler.readTag, htext, Handler.fill, Handler.fillBy, hliteral]
  have hask (m : Memo) : ((d.registry.rules context).ask m (Handler.fill w) t).result =
      .ok (.fill (.literal text)) :=
    hread
  have hrun (site : Site) : (Handler.fill w).run site (.fill (.literal text)) =
      ⟨(w.fillIn text site.value).1, (w.fillIn text site.value).2, []⟩ :=
    w.run_literal text site
  rw [Rules.obey_of_read hstop hhandler (hask j.memo), Rules.call, hrun]
  exact ⟨rfl, rfl⟩

section Tags

variable {d : Dispatcher} (hfills : d.FillsByFixedClocks s) (hliterals : d.ReadsLiterals s)
  {name : String} {f : Field} (hf : f ∈ s.fields name) {t : Tag} (ht : t ∈ Tag.ofRow f.row)

include hfills hliterals hf ht

/-- A tag comes to one end for all values and in all walks, and leaves the values as they are, or it
fills in a literal. -/
theorem obey_kinds :
    (∃ r, ∀ context p v j, ((d.registry.rules context).obey p t v j).Ends v r) ∨
      ∃ (w : Fill) (literal : String), w.schema = s ∧ ∀ context p v j,
        ((d.registry.rules context).obey p t v j).Ends (w.fillIn literal v).1
          ((d.registry.rules .unit).ending p.field t (w.fillIn literal v).2) := by
  have hhandler (context : Context) :
      (d.registry.rules context).handler? t.name = d.handler? t.name := rfl
  cases hstop : t.isStop with
  | true =>
    refine Or.inl ⟨.ok (), ?_⟩
    intro context p v j
    rw [Rules.obey_of_stop hstop]
    exact ⟨rfl, rfl⟩
  | false =>
    cases hh : d.handler? t.name with
    | none =>
      refine Or.inl ⟨.ok (), ?_⟩
      intro context p v j
      rw [Rules.obey_of_unbound ((hhandler context).trans hh)]
      exact ⟨rfl, rfl⟩
    | some h =>
      obtain ⟨w, hw, rfl⟩ := hfills t.name h hh
      cases htext : t.text with
      | error e =>
        have hread (context : Context) (m : Memo) :
            ((d.registry.rules context).ask m (Handler.fill w) t).result =
              .error (.brokenTag t.name e) := by
          show ((Handler.fill w).readTag t).1 = _
          simp only [Handler.readTag, htext]
        refine Or.inl ⟨.error (.faulted (.brokenTag t.name e)), ?_⟩
        intro context p v j
        rw [Rules.obey_of_unread hstop ((hhandler context).trans hh) (hread context j.memo)]
        exact ⟨rfl, rfl⟩
      | ok text =>
        have hliteral : FillArg.read text = .literal text :=
          hliterals name f hf t ht (by rw [hh]; rfl) text htext
        exact Or.inr ⟨w, text, hw, obey_literal hstop hh htext hliteral⟩

omit hfills hliterals hf ht in
/-- A literal that is filled in again comes to the same end, and the error names the same field. -/
theorem repeats_literal {w : Fill} {literal : String} (hs : w.schema.SettersMake)
    (hpure : w.schema.SettersPure) (hall : w.schema.SettersAllOrNothing)
    (hdefaults : w.schema.DefaultsMade) {r : Rules} {context context' : Context}
    (hliteral : ∀ context p v j, ((d.registry.rules context).obey p t v j).Ends
      (w.fillIn literal v).1 (r.ending p.field t (w.fillIn literal v).2)) :
    Repeats w.schema (d.registry.rules context).obey (d.registry.rules context').obey f t := by
  constructor
  · intro p p' v j j' hp hp'
    obtain ⟨hvalue, hresult⟩ := hliteral context p v j
    have hsecond := hliteral context' p' v j'
    rw [hp', ← hp] at hsecond
    rw [hvalue, hresult]
    exact hsecond
  · intro p p' ty v y j j' _ _ hv hok hmade hy
    obtain ⟨hvalue, hresult⟩ := hliteral context p v j
    rw [hvalue] at hy ⊢
    rw [hresult] at hok
    have hdone := Rules.ending_eq_ok hok
    have hsecond := hliteral context' p' y j'
    refine (Fill.fillIn_stays hpure hs hdefaults hv hmade hdone hy).imp ?_ ?_
    · intro hidle
      rw [hidle] at hsecond
      exact hsecond
    · intro hredo
      rw [hredo] at hsecond
      exact hsecond
  · intro p p' ty v j j' e hp hp' hv he
    obtain ⟨hvalue, hresult⟩ := hliteral context p v j
    rw [hresult] at he
    have hrefused : (w.fillIn literal v).2 ≠ .done := by
      intro hdone
      rw [hdone] at he
      cases he
    -- what was refused has left nothing but the allocation, so it is refused once more
    have hsecond := hliteral context' p' (w.fillIn literal v).1 j'
    rw [Fill.fillIn_again hall hdefaults hv hrefused, hp', ← hp, he] at hsecond
    rw [hvalue]
    exact hsecond

theorem obey_repeats (hs : s.SettersMake) (hpure : s.SettersPure) (hall : s.SettersAllOrNothing)
    (hdefaults : s.DefaultsMade) (context context' : Context) :
    Repeats s (d.registry.rules context).obey (d.registry.rules context').obey f t := by
  rcases obey_kinds hfills hliterals hf ht with ⟨r, hconstant⟩ | ⟨w, literal, rfl, hliteral⟩
  · exact .of_constant (hconstant context) (hconstant context')
  · exact repeats_literal hs hpure hall hdefaults hliteral

end Tags

end Nested

/-! ## Whole walks -/

namespace Parcel

/-- A parcel that nothing is known of. -/
def unknown : Value :=
  .record "Parcel"
    [.scalar (.int .i64 0), .record "Money" [.scalar (.int .i64 0), .scalar (.text "")],
     .sealed "Remark" (.text ""), .nil Samples.i64, .list Samples.text []]

/-- What becomes of it.  The price is filled in by way of its amount, the remark is another zero
than before, and the insurance was allocated before its literal was refused. -/
def known : Value :=
  .record "Parcel"
    [.scalar (.int .i64 3), .record "Money" [.scalar (.int .i64 5), .scalar (.text "")],
     .sealed "Remark" (.text " "), .present (.scalar (.int .i64 0)), .list Samples.text []]

/-- The end that comes of the literal for the insurance. -/
def refusal : Halt :=
  .failed (.field "insured" "default" (.fill (.unreadable "much" "i64" (.number .invalidDigit))))

def tag (quoted : String) : Tag :=
  ⟨"default", quoted⟩

theorem settersPure : parcels.SettersPure := by
  intro t set arg v w hset hv hw hequal
  rcases setter_cases hset with ⟨rfl, rfl⟩ | ⟨rfl, rfl⟩
  · obtain ⟨amount, unit, rfl, -⟩ := exists_price hv
    obtain ⟨amount', unit', rfl, -⟩ := exists_price hw
    -- the amounts are equal as numbers, and the units do not count
    have hamount : Value.scalar amount = .scalar amount' := by
      cases hequal with
      | refl _ => rfl
      | record _ h =>
        cases h 0 _ _ rfl rfl with
        | refl _ => rfl
    rw [Samples.setMoney, Samples.setMoney, hamount]
  · -- only the type of a remark counts
    have htype : v.typeName = w.typeName :=
      congrArg Ty.name (hv.fits.ty_eq.trans hw.fits.ty_eq.symm)
    rw [Samples.setLabel, Samples.setLabel, htype]

theorem settersAllOrNothing : parcels.SettersAllOrNothing := by
  intro t set arg v hset hv hend
  -- these setters always come to a good end
  refine absurd ?_ hend
  rcases setter_cases hset with ⟨rfl, rfl⟩ | ⟨rfl, rfl⟩
  · obtain ⟨amount, unit, rfl, -⟩ := exists_price hv
    rfl
  · rfl

/-- The rules of the registry. -/
def rules : Rules := dispatcher.registry.rules .unit

/-- The row holds one tag, and this is read as a literal. -/
structure Literal (row quoted text : String) : Prop where
  row : Tag.ofRow row = [tag quoted]
  stop : (tag quoted).isStop = false
  read : (tag quoted).text = .ok text
  literal : FillArg.read text = .literal text

theorem literal_weight : Literal "default:\"3\"" "\"3\"" "3" :=
  ⟨by decide +kernel, by decide +kernel, by decide +kernel, rfl⟩

theorem literal_price : Literal "default:\"\"" "\"\"" "" :=
  ⟨by decide +kernel, by decide +kernel, by decide +kernel, rfl⟩

theorem literal_remark : Literal "default:\" \"" "\" \"" " " :=
  ⟨by decide +kernel, by decide +kernel, by decide +kernel, rfl⟩

theorem literal_insured : Literal "default:\"much\"" "\"much\"" "much" :=
  ⟨by decide +kernel, by decide +kernel, by decide +kernel, rfl⟩

theorem literal_stamps : Literal "default:\"none\"" "\"none\"" "none" :=
  ⟨by decide +kernel, by decide +kernel, by decide +kernel, rfl⟩

theorem literal_amount : Literal "default:\"5\"" "\"5\"" "5" :=
  ⟨by decide +kernel, by decide +kernel, by decide +kernel, rfl⟩

theorem ofRow_unit : Tag.ofRow "" = [] := by
  decide +kernel

theorem obey_tag {row quoted text : String} (h : Literal row quoted text) (p : Place) (v : Value)
    (j : Journal) : (rules.obey p (tag quoted) v j).Ends (filler.fillIn text v).1
      (rules.ending p.field (tag quoted) (filler.fillIn text v).2) :=
  Nested.obey_literal h.stop rfl h.read h.literal .unit p v j

/-- A field with a literal that is taken is walked through. -/
theorem visit_taken (go : Enter) {p : Place} {quoted text : String} {v x : Value}
    (h : Literal p.field.row quoted text) (hfill : filler.fillIn text v = (x, .done))
    (j : Journal) :
    ∃ k, visit rules.obey go p v j = descend go p.path p.around x k := by
  have hobey := obey_tag h p v j
  rw [hfill] at hobey
  have hall : obeyAll rules.obey p (Tag.ofRow p.field.row) v j =
      .done x (rules.obey p (tag quoted) v j).journal := by
    rw [h.row, obeyAll, hobey.eq_done, Work.andThen_done]
    rfl
  have hstop : (Tag.ofRow p.field.row).any Tag.isStop = false := by
    rw [h.row, List.any_cons, h.stop]
    rfl
  refine ⟨(rules.obey p (tag quoted) v j).journal, ?_⟩
  rw [Nested.visit_of_done hall, hstop]
  rfl

/-- A field with a literal that is refused is where the walk breaks off. -/
theorem visit_refused (go : Enter) {p : Place} {quoted text : String} {v x : Value}
    {e : HandlerError} (h : Literal p.field.row quoted text)
    (hfill : filler.fillIn text v = (x, .failed e)) (j : Journal) :
    ∃ k, visit rules.obey go p v j = .halt (.failed (.field p.field.name "default" e)) x k := by
  have hobey := obey_tag h p v j
  rw [hfill] at hobey
  refine ⟨(rules.obey p (tag quoted) v j).journal, Nested.visit_of_halt ?_⟩
  rw [h.row, obeyAll, hobey.eq_halt]
  rfl

/-- A sum of nothing comes to its own default. -/
theorem enter_money (depth : Nat) (path : Path) (around : Value → Value) (j : Journal) :
    ∃ k, enter rules.obey parcels (depth + 1) path around
      (.record "Money" [.scalar (.int .i64 0), .scalar (.text "")]) j =
        .done (.record "Money" [.scalar (.int .i64 5), .scalar (.text "")]) k := by
  have hfields : parcels.fields "Money" =
      [⟨"amount", true, "default:\"5\""⟩, ⟨"unit", true, ""⟩] := rfl
  have hamount (path : Path) (i : Nat) (around : Value → Value) (j : Journal) :=
    visit_taken (enter rules.obey parcels depth)
      (p := ⟨path, i, ⟨"amount", true, "default:\"5\""⟩, around⟩)
      (v := .scalar (.int .i64 0)) (x := .scalar (.int .i64 5)) literal_amount rfl j
  have hunit (path : Path) (i : Nat) (around : Value → Value) (j : Journal) :
      visit rules.obey (enter rules.obey parcels depth) ⟨path, i, ⟨"unit", true, ""⟩, around⟩
        (.scalar (.text "")) j = .done (.scalar (.text "")) j := by
    simp only [visit, ofRow_unit, obeyAll, Work.andThen_done, List.any_nil, Bool.false_eq_true,
      if_false, descend]
  choose ka hamount using hamount
  simp only [enter, hfields, row, member, List.getElem?_cons_zero, List.getElem?_cons_succ, if_true,
    hamount, hunit, descend, Work.andThen_done, Work.map_done]
  exact ⟨_, rfl⟩

/-- What comes of a parcel that nothing is known of. -/
theorem walk_unknown : ∃ cs, dispatcher.registry.walk parcels .unit 2 unknown =
    .walked (.error refusal) known cs := by
  have hfields : parcels.fields "Parcel" =
      [⟨"weight", true, "default:\"3\""⟩, ⟨"price", true, "default:\"\""⟩,
       ⟨"remark", true, "default:\" \""⟩, ⟨"insured", true, "default:\"much\""⟩,
       ⟨"stamps", true, "default:\"none\""⟩] := rfl
  have hweight (path : Path) (i : Nat) (around : Value → Value) (j : Journal) :=
    visit_taken (enter rules.obey parcels 1)
      (p := ⟨path, i, ⟨"weight", true, "default:\"3\""⟩, around⟩)
      (v := .scalar (.int .i64 0)) (x := .scalar (.int .i64 3)) literal_weight rfl j
  have hprice (path : Path) (i : Nat) (around : Value → Value) (j : Journal) :=
    visit_taken (enter rules.obey parcels 1)
      (p := ⟨path, i, ⟨"price", true, "default:\"\""⟩, around⟩)
      (v := .record "Money" [.scalar (.int .i64 0), .scalar (.text "")])
      (x := .record "Money" [.scalar (.int .i64 0), .scalar (.text "")]) literal_price rfl
      j
  have hmoney := enter_money 0
  have hremark (path : Path) (i : Nat) (around : Value → Value) (j : Journal) :=
    visit_taken (enter rules.obey parcels 1)
      (p := ⟨path, i, ⟨"remark", true, "default:\" \""⟩, around⟩)
      (v := .sealed "Remark" (.text "")) (x := .sealed "Remark" (.text " ")) literal_remark rfl
      j
  have hinsured (path : Path) (i : Nat) (around : Value → Value) (j : Journal) :=
    visit_refused (enter rules.obey parcels 1)
      (p := ⟨path, i, ⟨"insured", true, "default:\"much\""⟩, around⟩)
      (v := .nil Samples.i64) (x := .present (.scalar (.int .i64 0))) literal_insured rfl
      j
  choose kw hweight using hweight
  choose kp hprice using hprice
  choose km hmoney using hmoney
  choose kr hremark using hremark
  choose ki hinsured using hinsured
  have hrules : dispatcher.registry.rules .unit = rules := rfl
  simp only [Registry.walk, hrules, unknown, Nested.walk, Nested.walkRecord]
  rw [enter]
  simp only [hfields, row, member, List.getElem?_cons_zero, List.getElem?_cons_succ, if_true,
    hweight, hprice, hmoney, hremark, hinsured, descend, Work.andThen_done, Work.andThen_halt,
    Work.map_done, Work.map_halt]
  exact ⟨_, rfl⟩

theorem readsLiterals : dispatcher.ReadsLiterals parcels := by
  intro name f hf t ht _ text htext
  -- each row has one of these tags, or none
  have hone {quoted text' : String} (h : Literal f.row quoted text') :
      FillArg.read text = .literal text := by
    rw [h.row] at ht
    obtain rfl := List.mem_singleton.1 ht
    rw [h.read] at htext
    obtain rfl := Except.ok.inj htext
    exact h.literal
  obtain ⟨d, hd, rfl⟩ := List.mem_map.1 hf
  obtain ⟨decl, hdecl, -, hd⟩ := Schema.exists_record_of_mem_decls hd
  simp only [parcels, List.mem_cons, List.not_mem_nil, or_false] at hdecl
  rcases hdecl with rfl | rfl
  · simp only [List.mem_cons, List.not_mem_nil, or_false] at hd
    rcases hd with rfl | rfl | rfl | rfl | rfl
    · exact hone literal_weight
    · exact hone literal_price
    · exact hone literal_remark
    · exact hone literal_insured
    · exact hone literal_stamps
  · simp only [List.mem_cons, List.not_mem_nil, or_false] at hd
    rcases hd with rfl | rfl
    · exact hone literal_amount
    · have hnone : t ∈ Tag.ofRow "" := ht
      rw [ofRow_unit] at hnone
      cases hnone

theorem reachable : dispatcher.Reachable :=
  ⟨dispatcher.bindings, none, [], rfl⟩

theorem made_unknown : unknown.Made parcels unknown.ty :=
  Schema.made_default defaultsMade (.record "Parcel")

end Parcel

end FieldNotes
