import FieldNotes.Proofs.Filling

/-! # Literals for zeros and for nil pointers

For a literal the filling handler goes by the value of the field alone.  A nil pointer is made to
point at a default first, and the literal is only looked at if that default is zero.  So it is for
all scalars but instants: their default is the start of 1970, and not the start of year 1, their
zero.

* `Fill.fillIn` is what a literal leaves of a value, and `Fill.run_literal` says that this is what
  the handler does with it.
* `Fill.run_nil`: with a nil pointer the handler does what it does with a zero, except for instants,
  for which it ends with the default whatever the literal is.
-/

namespace FieldNotes

/-- What was allocated need not be allocated again. -/
theorem Schema.allocate_allocate (s : Schema) (v : Value) :
    s.allocate (s.allocate v) = s.allocate v := by
  cases v <;> rfl

/-- Only a nil pointer is allocated, and its target is zero. -/
theorem Schema.allocate_of_target {s : Schema} {v : Value} (h : s.isZero v.target = false) :
    s.allocate v = v := by
  cases v with
  | nil t => cases h
  | _ => rfl

/-- The defaults of scalars are zero, but for instants. -/
theorem Datum.default_eq_zero {t : ScalarTy} (ht : t ≠ .instant) : default t = zero t := by
  cases t with
  | instant => exact absurd rfl ht
  | _ => rfl

theorem Datum.isZero_zero (t : ScalarTy) : (zero t).isZero = true := by
  rw [isZero_iff, ty_zero]

namespace Fill

variable (w : Fill) (literal : String)

/-- What a literal leaves of the value of a field, and how that ends. -/
def fillIn (v : Value) : Value × Outcome :=
  let v := w.schema.allocate v
  if w.schema.isZero v.target then
    let (t, outcome) := w.setLiteral literal v.target
    (v.withTarget t, outcome)
  else (v, .done)

theorem run_literal (site : Site) : w.run site (.fill (.literal literal)) =
    ⟨(w.fillIn literal site.value).1, (w.fillIn literal site.value).2, []⟩ := by
  cases hzero : w.schema.isZero (w.schema.allocate site.value).target with
  | true => simp only [run, Effect.onTarget, fillIn, hzero, Bool.not_true, Bool.false_eq_true,
      if_false, if_true]
  | false => simp only [w.run_of_ne_zero hzero, fillIn, hzero, Bool.false_eq_true, if_false]

variable {w literal} {v : Value}

theorem fillIn_of_zero (h : w.schema.isZero (w.schema.allocate v).target = true) :
    w.fillIn literal v =
      ((w.schema.allocate v).withTarget (w.setLiteral literal (w.schema.allocate v).target).1,
        (w.setLiteral literal (w.schema.allocate v).target).2) := by
  simp only [fillIn, h, if_true]

/-- A literal leaves alone what is not zero. -/
theorem fillIn_of_ne_zero (h : w.schema.isZero v.target = false) :
    w.fillIn literal v = (v, .done) := by
  simp only [fillIn, Schema.allocate_of_target h, h, Bool.false_eq_true, if_false]

/-- It makes no difference if the value has been allocated before. -/
theorem fillIn_allocate : w.fillIn literal (w.schema.allocate v) = w.fillIn literal v := by
  simp only [fillIn, Schema.allocate_allocate]

theorem fillIn_zero (t : ScalarTy) : w.fillIn literal (.scalar (.zero t)) =
    w.setLiteral literal (.scalar (.zero t)) :=
  fillIn_of_zero (Datum.isZero_zero t)

variable (w literal)

theorem fillIn_nil {t : ScalarTy} (ht : t ≠ .instant) : w.fillIn literal (.nil (.scalar t)) =
    (.present (w.setLiteral literal (.scalar (.zero t))).1,
      (w.setLiteral literal (.scalar (.zero t))).2) := by
  have hallocate : w.schema.allocate (.nil (.scalar t)) = .present (.scalar (.zero t)) :=
    congrArg (fun d => Value.present (.scalar d)) (Datum.default_eq_zero ht)
  rw [← fillIn_allocate, hallocate]
  exact fillIn_of_zero (Datum.isZero_zero t)

theorem fillIn_nil_instant : w.fillIn literal (.nil (.scalar .instant)) =
    (.present (.scalar (.instant .epoch)), .done) := by
  rw [← fillIn_allocate]
  exact fillIn_of_ne_zero rfl

end Fill

/-- A nil pointer to a scalar is filled in as a zero scalar is, to the same end, and to a pointer to
the same value if that end is good.  Not so for instants: there it ends as a pointer to the start of
1970, whatever the literal is. -/
theorem Fill.run_nil (w : Fill) (literal : String) {t : ScalarTy} (site site' : Site)
    (hty : site.value.ty = .scalar t) (hzero : w.schema.isZero site.value = true)
    (hnil : site'.value = .nil (.scalar t)) :
    let first := w.run site (.fill (.literal literal))
    let second := w.run site' (.fill (.literal literal))
    (t ≠ .instant → second.outcome = first.outcome ∧
      (first.outcome = .done → second.value = .present first.value)) ∧
    (t = .instant → second.outcome = .done ∧
      second.value = .present (.scalar (.instant .epoch))) := by
  intro first second
  obtain ⟨d, hvalue⟩ : ∃ d, site.value = .scalar d := by
    cases hvalue : site.value <;> rw [hvalue] at hty <;> cases hty
    exact ⟨_, rfl⟩
  rw [hvalue] at hty hzero
  obtain rfl := Ty.scalar.inj hty
  have hd : d = .zero d.ty := Datum.isZero_iff.1 hzero
  have hfirst : w.fillIn literal site.value = w.setLiteral literal (.scalar (.zero d.ty)) := by
    rw [hvalue, hd, Datum.ty_zero]
    exact fillIn_zero d.ty
  constructor
  · intro ht
    have hsecond := w.fillIn_nil literal ht
    rw [← hnil, ← hfirst] at hsecond
    simp only [first, second, run_literal, hsecond]
    exact ⟨trivial, fun _ => trivial⟩
  · intro ht
    have hsecond := w.fillIn_nil_instant literal
    rw [← ht, ← hnil] at hsecond
    simp only [second, run_literal, hsecond]
    exact ⟨trivial, trivial⟩

namespace Literals

/-- A handler for a schema without records and setters. -/
def filler : Fill :=
  ⟨{ records := [] }, .standard, .standard .zero⟩

/-- The only field of a record, with a value in it. -/
def only (v : Value) : Site :=
  ⟨.unit, .record "Only" [v], [.field 0], 0, ⟨"only", true, ""⟩, v⟩

end Literals

/-- A number that is zero, and a nil pointer to a number of its type: both come to the number that
is written. -/
theorem Fill.run_nil_number :
    let zero : Value := .scalar (.int .i32 0)
    let nil : Value := .nil (.scalar (.int .i32))
    let first := Literals.filler.run (Literals.only zero) (.fill (.literal "-3"))
    let second := Literals.filler.run (Literals.only nil) (.fill (.literal "-3"))
    (Literals.only zero).value.ty = .scalar (.int .i32) ∧
      Literals.filler.schema.isZero (Literals.only zero).value = true ∧
      (Literals.only nil).value = .nil (.scalar (.int .i32)) ∧
      first.outcome = .done ∧ first.value = .scalar (.int .i32 (-3)) ∧
      second.outcome = .done ∧ second.value = .present (.scalar (.int .i32 (-3))) := by
  intro zero nil first second
  have hdone : first.outcome = .done := rfl
  obtain ⟨hsame, -⟩ := Fill.run_nil Literals.filler "-3" (Literals.only zero) (Literals.only nil)
    rfl (by decide) rfl
  obtain ⟨houtcome, hvalue⟩ := hsame nofun
  exact ⟨rfl, by decide, rfl, hdone, rfl, houtcome, hvalue hdone⟩

/-- An instant that is zero comes to the instant that is written.  A nil pointer to an instant does
not: it comes to the start of 1970, and this is held to be a good end. -/
theorem Fill.run_nil_instant :
    let zero : Value := .scalar (.instant .zero)
    let nil : Value := .nil (.scalar .instant)
    let first := Literals.filler.run (Literals.only zero) (.fill (.literal "7"))
    let second := Literals.filler.run (Literals.only nil) (.fill (.literal "7"))
    Literals.filler.schema.isZero zero = true ∧ first.outcome = .done ∧
      first.value = .scalar (.instant ⟨7, 0⟩) ∧
      second.outcome = .done ∧ second.value ≠ .present first.value := by
  intro zero nil first second
  have hfirst : first.value = .scalar (.instant ⟨7, 0⟩) := rfl
  have hsecond : second.value = .present (.scalar (.instant .epoch)) := rfl
  refine ⟨by decide, rfl, hfirst, rfl, ?_⟩
  intro hsame
  rw [hfirst, hsecond] at hsame
  cases hsame

end FieldNotes
