import Mathlib.Control.Monad.Basic
import FieldNotes.Proofs.History
import FieldNotes.Proofs.IgnoredFailure
import FieldNotes.Samples.Handlers

/-! # Walks end with the first failure

A walk that returns returns well exactly if every handler that it ran did.  Otherwise the last run
failed, the error tells of it, and nothing was written or run after it.

* `Dispatcher.result_eq_ok_iff`: when a walk that returns returns well.
* `Dispatcher.walk_fails_fast`: all that is known of a walk that ends with an error.
* `Dispatcher.walk_unreadable`: a walk need not return, though no run failed, if a tag cannot be
  read.
-/

namespace FieldNotes

namespace Dispatcher

variable (d : Dispatcher) (schema : Schema) (context : Context) (depth : Nat)

/-- Errors of walks of records are those of handlers. -/
theorem error_eq_field {v : Value} {e : WalkError}
    (he : (d.walkRecord schema context depth v).result = .error (.failed e)) :
    ∃ name handler source, e = .field name handler source := by
  rcases d.exists_history schema context depth v with ⟨runs, _, _, hend⟩
  simp only [he] at hend
  rcases hend with ⟨_, r, source, _, _, _, heq⟩
  exact ⟨_, _, source, heq⟩

/-- A walk leaves the value alone and tells of no field, or it is, but for what stands around, the
walk of a record. -/
theorem walk_cases (v : Value) :
    (∃ result, d.walk schema context depth v = ⟨result, v, d.memo, []⟩ ∧
        ∀ name handler source, result ≠ .error (.failed (.field name handler source))) ∨
      ¬ (v.kind = .pointer ∧ v.pointee? = none) ∧
        ∃ p, (d.walk schema context depth v).result =
            (d.walkRecord schema context depth p).result ∧
          (d.walk schema context depth v).events =
            (d.walkRecord schema context depth p).events := by
  -- by the kinds of values: only a record and a pointer to one are walked
  cases hk : v.kind with
  | record =>
    refine Or.inr ⟨?_, v, ?_, ?_⟩
    · rintro ⟨hpointer, -⟩
      cases hpointer
    · simp only [walk, hk]
    · simp only [walk, hk]
  | pointer =>
    cases hp : v.pointee? with
    | none => exact Or.inl ⟨.ok (), by simp only [walk, hk, hp], by rintro _ _ _ ⟨⟩⟩
    | some p =>
      by_cases hrecord : p.kind = .record
      · refine Or.inr ⟨?_, p, ?_, ?_⟩
        · rintro ⟨-, hnil⟩
          cases hnil
        · simp only [walk, hk, hp, hrecord, if_true]
        · simp only [walk, hk, hp, hrecord, if_true]
      · refine Or.inl ⟨.error (.failed (.notAPointerToRecord v.typeName)), ?_, ?_⟩
        · simp only [walk, hk, hp, hrecord, if_false]
        · rintro _ _ _ ⟨⟩
  | sequence =>
    refine Or.inl ⟨.error (.failed (.notARecord v.typeName)), ?_, ?_⟩
    · simp only [walk, hk]
    · rintro _ _ _ ⟨⟩
  | scalar =>
    refine Or.inl ⟨.error (.failed (.notARecord v.typeName)), ?_, ?_⟩
    · simp only [walk, hk]
    · rintro _ _ _ ⟨⟩

/-- A value that is no record and leads to none is left alone. -/
theorem walk_untouched {v : Value}
    (h : (∃ type, (d.walk schema context depth v).result = .error (.failed (.notARecord type)) ∨
        (d.walk schema context depth v).result = .error (.failed (.notAPointerToRecord type))) ∨
      v.kind = .pointer ∧ v.pointee? = none) :
    calls (d.walk schema context depth v).events = [] ∧
      (d.walk schema context depth v).value = v := by
  rcases d.walk_cases schema context depth v with ⟨result, hwalk, -⟩ | ⟨hnil, p, hresult, -⟩
  · rw [hwalk]
    exact ⟨rfl, rfl⟩
  · -- the walk of a record has no such error
    rw [hresult] at h
    rcases h with ⟨type, he | he⟩ | h
    · rcases d.error_eq_field schema context depth he with ⟨_, _, _, heq⟩
      cases heq
    · rcases d.error_eq_field schema context depth he with ⟨_, _, _, heq⟩
      cases heq
    · exact absurd h hnil

/-- A walk that returns returns well exactly if every run was done. -/
theorem result_eq_ok_iff {runs : List Run} {result : Except Halt Unit}
    (hend : match result with
      | .ok () => ∀ r ∈ runs, r.Done
      | .error h => Walk.Breaks d runs h)
    (hreturns : result = .ok () ∨ ∃ e, result = .error (.failed e)) :
    result = .ok () ↔ ∀ r ∈ runs, r.Done := by
  rcases hreturns with rfl | ⟨e, rfl⟩
  · exact ⟨fun _ => hend, fun _ => rfl⟩
  · rcases hend with ⟨earlier, r, source, rfl, _, hfailed, _⟩
    constructor
    · nofun
    · intro hdone
      have hlast : r.effect.outcome = .done := hdone r (by simp)
      rw [hlast] at hfailed
      cases hfailed

/-- The walk of a record ends with the first failure.

The handlers that it runs lead from the value to the one that is left.  If it returns, it returns
well exactly if all runs were done.  If it returns an error, the last run failed and all before it
were done; the error is that of this run, under the name of its tag and the shown name of its
field, and what this run left is left.  Up to this run the walk makes the calls of the walk in
which its failure is ignored, which goes on.  An error that tells of no field, or a nil pointer,
means that no handler was run and the value was left alone. -/
theorem walk_fails_fast :
    (∀ v,
      let walked := d.walkRecord schema context depth v
      ∃ runs, History d context v runs walked.value ∧ runs.map Run.call = calls walked.events ∧
        ((walked.result = .ok () ∨ ∃ e, walked.result = .error (.failed e)) →
          (walked.result = .ok () ↔ ∀ r ∈ runs, r.Done)) ∧
        ∀ e, walked.result = .error (.failed e) → ∃ earlier r source,
          runs = earlier ++ [r] ∧ (∀ r' ∈ earlier, r'.Done) ∧ r.effect.outcome = .failed source ∧
          e = .field (d.shownName r.call.field) r.call.handler source ∧ walked.value = r.left ∧
          let ignoring := d.walkIgnoringFailure earlier.length schema context depth v
          calls walked.events <+: calls ignoring.events ∧
            ∀ e', ignoring.result = .error (.failed e') →
              (calls walked.events).length < (calls ignoring.events).length) ∧
    ∀ v, ((∃ type, (d.walk schema context depth v).result = .error (.failed (.notARecord type)) ∨
          (d.walk schema context depth v).result = .error (.failed (.notAPointerToRecord type))) ∨
        v.kind = .pointer ∧ v.pointee? = none) →
      calls (d.walk schema context depth v).events = [] ∧
        (d.walk schema context depth v).value = v := by
  refine ⟨?_, fun v => d.walk_untouched schema context depth⟩
  intro v walked
  rcases d.exists_history schema context depth v with ⟨runs, hhistory, hcalls, hend⟩
  refine ⟨runs, hhistory, hcalls, d.result_eq_ok_iff hend, ?_⟩
  intro e he
  have hbreaks : Walk.Breaks d runs (.failed e) := by
    have hresult : (d.walkRecord schema context depth v).result = .error (.failed e) := he
    rw [hresult] at hend
    exact hend
  rcases hbreaks with ⟨earlier, r, source, rfl, hdone, hfailed, heq⟩
  have hn : (calls walked.events).length = earlier.length + 1 := by
    rw [← hcalls, List.length_map, List.length_append, List.length_singleton]
  exact ⟨earlier, r, source, rfl, hdone, hfailed, heq, hhistory.eq_left,
    d.calls_walkIgnoringFailure schema context depth v hn⟩

end Dispatcher

/-! ## A walk that does not return -/

namespace Unreadable

/-- A tag with an escape that there is not. -/
def tag : Tag :=
  ⟨"seen", "\"\\q\""⟩

/-- One record type, of one number with this tag. -/
def schema : Schema where
  records := [⟨"A", [⟨⟨"a", true, "seen:\"\\q\""⟩, .scalar (.int .i64)⟩]⟩]

def dispatcher : Dispatcher :=
  Dispatcher.empty.bind "seen" (Samples.recorder "r")

theorem ofRow : Tag.ofRow "seen:\"\\q\"" = [tag] := by
  decide +kernel

theorem obey_tag (p : Nested.Place) (v : Value) (events : List Event) :
    (dispatcher.rules .unit).obey p tag v ⟨[], events⟩ =
      .halt (.faulted (.brokenTag "seen" (.invalidEscape 2))) v ⟨[], events⟩ := by
  have hstop : tag.isStop = false := by decide +kernel
  have hhandler : (dispatcher.rules .unit).handler? tag.name = some (Samples.recorder "r") := rfl
  have htext : tag.text = .error (.invalidEscape 2) := by decide +kernel
  have hread : (Samples.recorder "r").readTag tag =
      (.error (.brokenTag "seen" (.invalidEscape 2)), []) := by
    simp only [Handler.readTag, htext]
    rfl
  have hask : (dispatcher.rules .unit).ask [] (Samples.recorder "r") tag =
      ⟨.error (.brokenTag "seen" (.invalidEscape 2)), [], []⟩ := by
    have hbroken := Memo.ask_of_broken (m := []) (t := tag) rfl (congrArg Prod.fst hread)
    rwa [hread] at hbroken
  simp only [Nested.Rules.obey, hstop, hhandler, hask, Bool.false_eq_true, if_false,
    Walk.Journal.note, List.append_nil]

end Unreadable

/-- A tag that no text can be read from ends a walk, though no handler was run that could have
failed. -/
theorem Dispatcher.walk_unreadable :
    let v := Unreadable.schema.default (.record "A")
    let walked := Unreadable.dispatcher.walk Unreadable.schema .unit 1 v
    v.kind = .record ∧ calls walked.events = [] ∧
      walked.result = .error (.faulted (.brokenTag "seen" (.invalidEscape 2))) := by
  intro v walked
  have hfields : Unreadable.schema.fields "A" = [⟨"a", true, "seen:\"\\q\""⟩] := rfl
  have hwalked : walked = ⟨.error (.faulted (.brokenTag "seen" (.invalidEscape 2))), v, [],
      [.walking "A"]⟩ := by
    have hv : v = .record "A" [.scalar (.int .i64 0)] := rfl
    have hmemo : Unreadable.dispatcher.memo = [] := rfl
    simp only [walked, Dispatcher.walk_eq_nested, hv, hmemo, Nested.walk, Nested.walkRecord,
      Nested.enter, hfields, Nested.row, Nested.member, List.getElem?_cons_zero, if_true,
      Nested.visit, Unreadable.ofRow, Nested.obeyAll, Unreadable.obey_tag, Work.andThen_halt,
      Work.map_halt]
    rfl
  rw [hwalked]
  exact ⟨rfl, rfl, rfl⟩

end FieldNotes
