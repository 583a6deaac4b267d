import FieldNotes.Handler

/-! # The validating handler

A validator checks a value against a rule and never changes it.  It is given the value as it stands,
pointers included.

* `Handler.validate_keeps`: whatever the outcome, the value of the field is what it was.
-/

namespace FieldNotes

namespace Handler

/-- The handler that checks its field against the rule that is its text. -/
def validate (check : Value → String → Outcome) : Handler :=
  ofRun fun site arg =>
    match arg.text? with
    | none => .keep site (.failed .ruleNotText)
    | some rule => .keep site (check site.value rule)

theorem validate_keeps (check : Value → String → Outcome) (site : Site) (arg : Arg) :
    ((validate check).run site arg).value = site.value := by
  simp only [validate, ofRun]
  split <;> rfl

end Handler

end FieldNotes
