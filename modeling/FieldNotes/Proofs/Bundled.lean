import FieldNotes.Dispatcher.Builtin
import FieldNotes.Handler.Validate
import FieldNotes.Proofs.Typing

/-! # What the bundled handlers leave

The bundled handlers leave values of the types that they found, and no more items in lists than they
found, as long as setters do so and defaults are such.

* `Schema.SettersBehave`: this is what setters promise.
* `Handler.Bundled`: a handler that runs like one of the bundled ones, however it reads its text.
* `Handler.Tame`: this is what handlers keep; `Handler.Bundled.tame` says that the bundled ones do.
-/

namespace FieldNotes

/-- A new value takes the place of an old one: it is of the same type, and its lists hold no more
items. -/
structure Value.Replaces (s : Schema) (t : Ty) (v w : Value) : Prop where
  fits : w.Fits s t
  items : w.items ≤ v.items

theorem Value.Fits.replaces_self {s : Schema} {t : Ty} {v : Value} (h : v.Fits s t) :
    v.Replaces s t v :=
  ⟨h, Nat.le_refl _⟩

/-- Setters leave values of the types that they are for, and do not grow lists. -/
structure Schema.SettersBehave (s : Schema) : Prop where
  setter : ∀ (t : Ty) (set : Setter) (arg : Arg) (v : Value),
    s.setter? t = some set → v.Fits s t → v.Replaces s t (set arg v).1
  formatSetter : ∀ (t : Ty) (set : FormatSetter) (format : String) (v : Value),
    s.formatSetter? t = some set → v.Fits s t → v.Replaces s t (set format v).1

/-- A schema without setters has none that misbehave. -/
theorem Schema.settersBehave_of_none {s : Schema} (hsetter : ∀ t, s.setter? t = none)
    (hformat : ∀ t, s.formatSetter? t = none) : s.SettersBehave := by
  constructor
  · intro t set arg v h
    rw [hsetter] at h
    cases h
  · intro t set format v h
    rw [hformat] at h
    cases h

namespace Handler

/-- Handlers that run like the bundled ones.  Setting handlers may have a set function of their own,
which works on the value as it was allocated. -/
inductive Bundled (s : Schema) (h : Handler) : Prop
  | set (hrun : h.run = assign s)
  | setFormat (hrun : h.run = assignFormat s)
  | setBy (work : Site → Arg → Effect)
      (hwork : ∀ (site : Site) (arg : Arg) (t : Ty), site.value.Fits s t →
        site.value.Replaces s t (work site arg).value)
      (hrun : h.run = fun site arg => work { site with value := s.allocate site.value } arg)
  | fill (w : Fill) (clock : Site → Instant) (hschema : w.schema = s)
      (hrun : h.run = (Handler.fillBy w clock).run)
  | validate (check : Value → String → Outcome) (hrun : h.run = (Handler.validate check).run)

/-- What a handler leaves, if it succeeds, takes the place of what it found. -/
def Tame (s : Schema) (h : Handler) : Prop :=
  ∀ site arg t, site.value.Fits s t → (h.run site arg).outcome = .done →
    site.value.Replaces s t (h.run site arg).value

end Handler

variable {s : Schema}

/-! ## Targets -/

/-- What is assigned has no parts. -/
theorem Value.kind_assign? {v source w : Value} (hassign : v.assign? source = some w) :
    w.kind = .scalar := by
  have hty : w.ty = v.ty := ty_assign? hassign
  have hkind : v.kind = .scalar := by
    simp only [assign?] at hassign
    split at hassign
    · rename_i h
      exact h.1
    · cases hassign
  -- a value of a type without parts has no parts
  cases v <;> cases hkind <;> cases w <;> first | rfl | cases hty

/-- A scalar that is assigned takes the place of the target. -/
theorem Value.Fits.replaces_assign? {t : Ty} {v source w : Value} (hv : v.Fits s t)
    (hassign : v.assign? source = some w) : v.Replaces s t w := by
  have hw : w.kind = .scalar := kind_assign? hassign
  have hfits := fits_of_scalar s hw
  rw [ty_assign? hassign, hv.ty_eq] at hfits
  exact ⟨hfits, (items_of_scalar hw).symm ▸ Nat.zero_le _⟩

/-- What takes the place of the target takes the place of the whole with it. -/
theorem Value.Fits.replaces_target {t : Ty} {v : Value} (hv : v.Fits s t) :
    ∃ t', v.target.Fits s t' ∧ ∀ w, v.target.Replaces s t' w → v.Replaces s t (v.withTarget w) := by
  cases v with
  | present v =>
    cases hv with
    | present h => exact ⟨_, h, fun w hw => ⟨.present hw.fits, hw.items⟩⟩
  | owned v =>
    cases hv with
    | owned h => exact ⟨_, h, fun w hw => ⟨.owned hw.fits, hw.items⟩⟩
  | _ => exact ⟨t, hv, fun w hw => hw⟩

/-- Work that keeps to targets of their types keeps to the values of sites. -/
theorem Effect.onTarget_replaces (hdefaults : s.DefaultsBehave) {site : Site}
    {work : Value → Value × Outcome}
    (hwork : ∀ t v, v.Fits s t → (work v).2 = .done → v.Replaces s t (work v).1) {t : Ty}
    (hv : site.value.Fits s t) (hdone : (Effect.onTarget s site work).outcome = .done) :
    site.value.Replaces s t (Effect.onTarget s site work).value := by
  rcases (Schema.fits_allocate hdefaults hv).replaces_target with ⟨t', htarget, hwhole⟩
  have hleft := hwhole _ (hwork t' _ htarget hdone)
  exact ⟨hleft.fits, Schema.items_allocate hdefaults site.value ▸ hleft.items⟩

/-! ## Filling -/

namespace Fill

theorem number_eq_ok {α : Type} {literal type : String} {make : α → Datum}
    {r : Except NumberError α} {d : Datum}
    (h : (number literal type make r).mapError (Sum.inl : FillError → FillError ⊕ Fault) = .ok d) :
    ∃ n, d = make n := by
  cases r with
  | error e => cases h
  | ok n => exact ⟨n, (Except.ok.inj h).symm⟩

variable (w : Fill)

/-- A literal stands for a scalar of the type that it is read for. -/
theorem ty_datum {literal : String} {t : ScalarTy} {d : Datum} (h : w.datum literal t = .ok d) :
    d.ty = t := by
  cases t with
  | text =>
    cases htext : w.text literal with
    | error e =>
      rw [datum, htext] at h
      cases h
    | ok text =>
      rw [datum, htext] at h
      cases h
      rfl
  | duration =>
    simp only [datum] at h
    split at h <;> cases h
    rfl
  | instant =>
    rw [datum] at h
    cases htime : w.times.readers.read literal w.config.layouts with
    | error e =>
      rw [htime] at h
      cases h
    | ok t =>
      rw [htime] at h
      cases h
      rfl
  | bool =>
    simp only [datum] at h
    split at h <;> cases h
    rfl
  | int t =>
    -- the current time is a literal for numbers of type `i64` only
    by_cases ht : t = .i64
    · subst ht
      simp only [datum] at h
      split at h
      · cases h
        rfl
      · rcases number_eq_ok h with ⟨n, rfl⟩
        rfl
    · rw [datum] at h
      · rcases number_eq_ok h with ⟨n, rfl⟩
        rfl
      · exact ht
  | single =>
    rcases number_eq_ok h with ⟨n, rfl⟩
    rfl
  | double =>
    rcases number_eq_ok h with ⟨n, rfl⟩
    rfl
  | char => cases h

theorem setLiteral_replaces (hs : w.schema.SettersBehave) (literal : String) {t : Ty} {v : Value}
    (hv : v.Fits w.schema t) (hdone : (w.setLiteral literal v).2 = .done) :
    v.Replaces w.schema t (w.setLiteral literal v).1 := by
  have hty := hv.ty_eq
  simp only [setLiteral] at hdone ⊢
  cases hset : w.schema.setter? v.ty with
  | some set =>
    simp only [hset] at hdone ⊢
    exact hs.setter t set (.text literal) v (hty ▸ hset) hv
  | none =>
    -- without a setter a literal is read for scalars only
    simp only [hset] at hdone ⊢
    cases v with
    | scalar d =>
      cases hdatum : w.datum literal d.ty with
      | ok d' =>
        simp only [hdatum]
        have hfits := Value.Fits.scalar (s := w.schema) d'
        rw [w.ty_datum hdatum] at hfits
        exact ⟨hty ▸ hfits, Nat.le_refl _⟩
      | error e =>
        cases e <;> simp [hdatum] at hdone
    | _ => cases hdone

theorem copyField_replaces (root : Value) (name : String) {t : Ty} {v : Value}
    (hv : v.Fits w.schema t) (hdone : (w.copyField root name v).2 = .done) :
    v.Replaces w.schema t (w.copyField root name v).1 := by
  simp only [copyField] at hdone ⊢
  by_cases hname : name.isEmpty = true
  · rw [if_pos hname] at hdone
    cases hdone
  · rw [if_neg hname] at hdone ⊢
    repeat' split at hdone
    all_goals try cases hdone
    -- of all the ways that this may go, one succeeds
    rename_i hassign
    exact hv.replaces_assign? hassign

theorem run_replaces (hs : w.schema.SettersBehave) (hdefaults : w.schema.DefaultsBehave)
    {site : Site} {arg : Arg} {t : Ty} (hv : site.value.Fits w.schema t)
    (hdone : (w.run site arg).outcome = .done) :
    site.value.Replaces w.schema t (w.run site arg).value := by
  cases arg with
  | text s => cases hdone
  | int n => cases hdone
  | fill a =>
    simp only [run] at hdone ⊢
    refine Effect.onTarget_replaces hdefaults ?_ hv hdone
    intro t v hv hdone
    split at hdone
    · rename_i hzero
      rw [if_pos hzero]
      exact hv.replaces_self
    · rename_i hzero
      rw [if_neg hzero]
      cases a with
      | field name => exact w.copyField_replaces _ name hv hdone
      | literal literal => exact w.setLiteral_replaces hs literal hv hdone

end Fill

/-! ## All of them -/

namespace Handler

theorem tame_of_assign (hs : s.SettersBehave) (hdefaults : s.DefaultsBehave) {h : Handler}
    (hrun : h.run = assign s) : h.Tame s := by
  intro site arg t hv hdone
  rw [hrun] at hdone ⊢
  refine Effect.onTarget_replaces hdefaults ?_ hv hdone
  intro t v hv hdone
  cases hset : s.setter? v.ty with
  | some set => exact hs.setter t set arg v (hv.ty_eq ▸ hset) hv
  | none =>
    rw [hset] at hdone
    cases hdone

theorem tame_of_assignFormat (hs : s.SettersBehave) (hdefaults : s.DefaultsBehave) {h : Handler}
    (hrun : h.run = assignFormat s) : h.Tame s := by
  intro site arg t hv hdone
  rw [hrun] at hdone ⊢
  refine Effect.onTarget_replaces hdefaults ?_ hv hdone
  intro t v hv hdone
  cases harg : arg.text? with
  | none =>
    rw [harg] at hdone
    cases hdone
  | some format =>
    rw [harg] at hdone
    cases hset : s.formatSetter? v.ty with
    | some set => exact hs.formatSetter t set format v (hv.ty_eq ▸ hset) hv
    | none =>
      simp only [hset] at hdone
      cases hdone

/-- The bundled handlers are tame. -/
theorem Bundled.tame (hs : s.SettersBehave) (hdefaults : s.DefaultsBehave) {h : Handler}
    (hh : h.Bundled s) : h.Tame s := by
  cases hh with
  | set hrun => exact tame_of_assign hs hdefaults hrun
  | setFormat hrun => exact tame_of_assignFormat hs hdefaults hrun
  | setBy work hwork hrun =>
    intro site arg t hv _
    rw [hrun]
    have hleft := hwork { site with value := s.allocate site.value } arg t
      (Schema.fits_allocate hdefaults hv)
    exact ⟨hleft.fits, Schema.items_allocate hdefaults site.value ▸ hleft.items⟩
  | fill w clock hschema hrun =>
    subst hschema
    intro site arg t hv hdone
    rw [hrun] at hdone ⊢
    exact (w.showing (clock site)).run_replaces hs hdefaults hv hdone
  | validate check hrun =>
    intro site arg t hv _
    rw [hrun, validate_keeps]
    exact hv.replaces_self

/-- The handlers that a dispatcher may come with are among them. -/
theorem bundled_of_handler? {times : Times} {name : String} {h : Handler}
    (hh : (Dispatcher.bundled s times).handler? name = some h) : h.Bundled s := by
  simp only [Dispatcher.handler?, Dispatcher.bundled, List.lookup_cons] at hh
  repeat' split at hh
  · rcases Option.some.inj hh with rfl
    exact .set rfl
  · rcases Option.some.inj hh with rfl
    exact .setFormat rfl
  · rcases Option.some.inj hh with rfl
    exact .fill ⟨s, .standard, times⟩ (fun _ => times.now) rfl rfl
  · cases hh

end Handler

end FieldNotes
