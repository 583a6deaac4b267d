import FieldNotes.Proofs.Memo
import FieldNotes.Proofs.Refinement

/-! # Walks in which one failure is ignored

A walk ends with the first handler that fails.  Had this one run come to a good end, with the same
effect, the walk would have done the same up to it, and gone on.

* `Nested.ignoreFailure` obeys tags so: the failure of one run, told by the number of runs before
  it, is let pass.
* `Work.Continues`: work in which a failure is ignored goes the same way as before, or goes on where
  that failed.
* `Nested.enter_continues`: so it is with walks.
* `Dispatcher.walkIgnoringFailure_eq`: so long as no handler fails, to ignore failures changes
  nothing.
* `Dispatcher.calls_walkIgnoringFailure`: the calls of a walk that fails are the first ones of the
  walk in which its failure is ignored.
-/

namespace FieldNotes

open Walk (Journal)

variable {α β : Type}

/-! ## Letting a failure pass -/

/-- The same work, without the failure that it ended with. -/
def Work.ignoringFailure (w : Work α) : Work α :=
  match w.result with
  | .error (.failed _) => { w with result := .ok () }
  | _ => w

theorem Work.ignoringFailure_cases (w : Work α) :
    (∃ e, w.result = .error (.failed e)) ∧ w.ignoringFailure.result = .ok () ∨
      (∀ e, w.result ≠ .error (.failed e)) ∧ w.ignoringFailure = w := by
  unfold ignoringFailure
  split
  · rename_i e he
    exact Or.inl ⟨⟨e, he⟩, rfl⟩
  · rename_i hnot
    exact Or.inr ⟨hnot, rfl⟩

theorem Work.journal_ignoringFailure (w : Work α) : w.ignoringFailure.journal = w.journal := by
  unfold ignoringFailure
  split <;> rfl

/-- Obeys tags, but lets the failure of the run pass that has `n` runs before it. -/
def Nested.ignoreFailure (n : Nat) (obey : Obey) : Obey := fun p t v j =>
  if (calls j.events).length = n then (obey p t v j).ignoringFailure else obey p t v j

/-- Walks a record, but lets the failure of the run pass that has `n` runs before it. -/
def Dispatcher.walkIgnoringFailure (d : Dispatcher) (n : Nat) (schema : Schema) (context : Context)
    (depth : Nat) (v : Value) : Walked :=
  let w := Nested.enter (Nested.ignoreFailure n (d.rules context).obey) schema depth [] id v
    ⟨d.memo, [.walking v.typeName]⟩
  ⟨w.result, w.value, w.journal.memo, w.journal.events⟩

/-! ## Work that goes on -/

/-- The second work goes the same way as the first one, or goes on where the first one failed.  It
adds to what was noted, and does not fail with the run that has `n` runs before it. -/
structure Work.Continues (n : Nat) (work work' : Journal → Work α) : Prop where
  same : ∀ j, work' j = work j ∨
    (∃ e, (work j).result = .error (.failed e)) ∧
      (work j).journal.events <+: (work' j).journal.events
  grows : ∀ j, j.events <+: (work' j).journal.events
  passes : ∀ j e, (work' j).result = .error (.failed e) →
    (calls (work' j).journal.events).length ≠ n + 1

namespace Work.Continues

variable {n : Nat}

theorem done (v : α) : Continues n (Work.done v) (Work.done v) :=
  ⟨fun _ => Or.inl rfl, fun _ => List.prefix_rfl, nofun⟩

theorem exhausted (v : α) : Continues n (halt .exhausted v) (halt .exhausted v) :=
  ⟨fun _ => Or.inl rfl, fun _ => List.prefix_rfl, nofun⟩

variable {work work' : Journal → Work α} (h : Continues n work work')

include h

theorem map (f : α → β) : Continues n (fun j => (work j).map f) fun j => (work' j).map f := by
  refine ⟨?_, h.grows, h.passes⟩
  intro j
  rcases h.same j with heq | hfailed
  · exact Or.inl (congrArg (Work.map f) heq)
  · exact Or.inr hfailed

theorem andThen (stop : α → β) {next next' : α → Journal → Work β}
    (hnext : ∀ v, Continues n (next v) (next' v)) :
    Continues n (fun j => (work j).andThen stop next) fun j => (work' j).andThen stop next' := by
  refine ⟨?_, ?_, ?_⟩
  · intro j
    rcases h.same j with heq | ⟨⟨e, he⟩, hle⟩
    · rw [heq]
      rcases (work j).done_or_halt with ⟨v, k, hw⟩ | ⟨e, v, k, hw⟩ <;> rw [hw]
      · exact (hnext v).same k
      · exact Or.inl rfl
    · -- the first work ended here; whatever follows in the second adds to what was noted
      refine Or.inr ?_
      have hfirst : (work j).andThen stop next = halt (.failed e) (stop (work j).value)
          (work j).journal := by simp only [Work.andThen, he]
      rw [hfirst]
      refine ⟨⟨e, rfl⟩, hle.trans ?_⟩
      rcases (work' j).done_or_halt with ⟨v, k, hw⟩ | ⟨e, v, k, hw⟩ <;> rw [hw]
      · exact (hnext v).grows k
      · exact List.prefix_rfl
  · intro j
    refine (h.grows j).trans ?_
    rcases (work' j).done_or_halt with ⟨v, k, hw⟩ | ⟨e, v, k, hw⟩ <;> rw [hw]
    · exact (hnext v).grows k
    · exact List.prefix_rfl
  · intro j e he
    have hpasses := h.passes j e
    rcases (work' j).done_or_halt with ⟨v, k, hw⟩ | ⟨e', v, k, hw⟩ <;> rw [hw] at he hpasses ⊢
    · exact (hnext v).passes k e he
    · exact hpasses he

end Work.Continues

namespace Nested

open Work (Continues)

variable {n : Nat}

/-! ## Parts of walks -/

theorem row_continues {work work' : Nat → (Value → Value) → Value → Journal → Work Value}
    (h : ∀ i around v, Continues n (work i around v) (work' i around v)) (i : Nat)
    (around : List Value → Value) (vs : List Value) :
    Continues n (row work i around vs) (row work' i around vs) := by
  induction vs generalizing i around with
  | nil => exact .done []
  | cons v vs ih =>
    exact (h i (fun x => around (x :: vs)) v).andThen (· :: vs) fun x =>
      (ih (i + 1) (fun xs => around (x :: xs))).map (x :: ·)

section Entering

variable {go go' : Enter}
  (hgo : ∀ path around v, Continues n (go path around v) (go' path around v))

include hgo

theorem ifRecord_continues (path : Path) (around : Value → Value) (v : Value) :
    Continues n (ifRecord go path around v) (ifRecord go' path around v) := by
  unfold ifRecord
  by_cases hk : v.kind = .record
  · simp only [hk, if_true]
    exact hgo path around v
  · simp only [hk, if_false]
    exact .done v

theorem descend_continues (path : Path) (around : Value → Value) (v : Value) :
    Continues n (descend go path around v) (descend go' path around v) := by
  cases v with
  | record name vs => exact hgo path around _
  | present v => exact (ifRecord_continues hgo _ _ v).map Value.present
  | owned v => exact (ifRecord_continues hgo _ _ v).map Value.owned
  | list t vs =>
    exact (row_continues (fun i => ifRecord_continues hgo _) 0 _ vs).map (Value.list t)
  | array t vs =>
    exact (row_continues (fun i => ifRecord_continues hgo _) 0 _ vs).map (Value.array t)
  | scalar d => exact .done _
  | sealed name d => exact .done _
  | nil t => exact .done _

variable {obey obey' : Obey} (hobey : ∀ p t v, Continues n (obey p t v) (obey' p t v))

omit hgo in
include hobey in
theorem obeyAll_continues (p : Place) (ts : List Tag) (v : Value) :
    Continues n (obeyAll obey p ts v) (obeyAll obey' p ts v) := by
  induction ts generalizing v with
  | nil => exact .done v
  | cons t ts ih => exact (hobey p t v).andThen id ih

include hobey

theorem visit_continues (p : Place) (v : Value) :
    Continues n (visit obey go p v) (visit obey' go' p v) := by
  unfold visit
  refine (obeyAll_continues hobey p (Tag.ofRow p.field.row) v).andThen id fun x => ?_
  cases (Tag.ofRow p.field.row).any Tag.isStop with
  | true => exact ⟨fun _ => Or.inl rfl, fun _ => List.prefix_append _ _, nofun⟩
  | false => exact descend_continues hgo p.path p.around x

theorem member_continues (fields : List Field) (path : Path) (i : Nat) (around : Value → Value)
    (v : Value) :
    Continues n (member obey go fields path i around v)
      (member obey' go' fields path i around v) := by
  unfold member
  cases fields[i]? with
  | none => exact .done v
  | some f =>
    cases hf : f.exported with
    | true =>
      simp only [hf, if_true]
      exact visit_continues hgo hobey _ v
    | false =>
      simp only [hf, Bool.false_eq_true, if_false]
      exact .done v

omit hgo in
theorem enter_continues (schema : Schema) (depth : Nat) (path : Path) (around : Value → Value)
    (v : Value) :
    Continues n (enter obey schema depth path around v)
      (enter obey' schema depth path around v) := by
  induction depth generalizing path around v with
  | zero => exact .exhausted v
  | succ depth ih =>
    cases v with
    | record name vs =>
      exact (row_continues (member_continues ih hobey (schema.fields name) path) 0 _ vs).map
        (Value.record name)
    | _ => exact .done _

end Entering

/-! ## The failure of one run -/

variable (d : Dispatcher) (context : Context)

/-- To obey a tag adds to what was noted, and a failure is one of a single run. -/
theorem exists_noted_obey (p : Place) (t : Tag) (v : Value) (j : Journal) :
    ∃ events, ((d.rules context).obey p t v j).journal.events = j.events ++ events ∧
      ∀ e, ((d.rules context).obey p t v j).result = .error (.failed e) →
        (calls events).length = 1 := by
  have hasked (h : Handler) : calls ((d.rules context).ask j.memo h t).events = [] :=
    Memo.calls_ask j.memo h t
  rcases (d.rules context).obey_cases p t v j with
    heq | ⟨h, -, -, ⟨arg, -, heq⟩ | ⟨f, -, heq⟩⟩ <;> rw [heq]
  · refine ⟨[], (List.append_nil _).symm, ?_⟩
    intro e he
    cases he
  · refine ⟨_, List.append_assoc _ _ _, fun e _ => ?_⟩
    rw [calls_append, hasked, calls_append, calls_reported]
    rfl
  · refine ⟨_, rfl, ?_⟩
    intro e he
    cases he

theorem obey_continues (n : Nat) (p : Place) (t : Tag) (v : Value) :
    Continues n ((d.rules context).obey p t v) (ignoreFailure n (d.rules context).obey p t v) := by
  have hjournal (j : Journal) : (ignoreFailure n (d.rules context).obey p t v j).journal =
      ((d.rules context).obey p t v j).journal := by
    rw [ignoreFailure]
    split
    · exact Work.journal_ignoringFailure _
    · rfl
  refine ⟨?_, ?_, ?_⟩
  · intro j
    rw [ignoreFailure]
    split
    · rcases ((d.rules context).obey p t v j).ignoringFailure_cases with ⟨hfailed, _⟩ | ⟨_, heq⟩
      · have hsame := Work.journal_ignoringFailure ((d.rules context).obey p t v j)
        exact Or.inr ⟨hfailed, hsame ▸ List.prefix_rfl⟩
      · exact Or.inl heq
    · exact Or.inl rfl
  · intro j
    rcases exists_noted_obey d context p t v j with ⟨events, hevents, _⟩
    rw [hjournal, hevents]
    exact List.prefix_append _ _
  · intro j e he
    rw [hjournal]
    rw [ignoreFailure] at he
    split at he
    · -- the failure of the run that has `n` runs before it is ignored
      rcases ((d.rules context).obey p t v j).ignoringFailure_cases with ⟨_, hok⟩ | ⟨hnot, heq⟩
      · rw [hok] at he
        cases he
      · rw [heq] at he
        exact absurd he (hnot e)
    · rename_i hn
      rcases exists_noted_obey d context p t v j with ⟨events, hevents, hone⟩
      rw [hevents, calls_append, List.length_append, hone e he]
      omega

end Nested

/-- Where no handler fails there is nothing to ignore. -/
theorem Dispatcher.walkIgnoringFailure_eq (d : Dispatcher) (n : Nat) (schema : Schema)
    (context : Context) (depth : Nat) (v : Value)
    (h : ∀ e, (d.walkRecord schema context depth v).result ≠ .error (.failed e)) :
    d.walkIgnoringFailure n schema context depth v = d.walkRecord schema context depth v := by
  have hcontinues := Nested.enter_continues (Nested.obey_continues d context n) schema depth [] id v
  rw [d.walkRecord_eq_nested] at h ⊢
  rcases hcontinues.same ⟨d.memo, [.walking v.typeName]⟩ with heq | ⟨⟨e, he⟩, _⟩
  · rw [walkIgnoringFailure, heq]
    rfl
  · exact absurd he (h e)

/-- The calls of a walk are the first ones of the walk in which a failure of its last run is
ignored, and if that walk fails, it does so with a later run. -/
theorem Dispatcher.calls_walkIgnoringFailure (d : Dispatcher) (schema : Schema) (context : Context)
    (depth : Nat) (v : Value) {n : Nat}
    (hn : (calls (d.walkRecord schema context depth v).events).length = n + 1) :
    let walked := d.walkRecord schema context depth v
    let ignoring := d.walkIgnoringFailure n schema context depth v
    calls walked.events <+: calls ignoring.events ∧
      ∀ e', ignoring.result = .error (.failed e') →
        (calls walked.events).length < (calls ignoring.events).length := by
  intro walked ignoring
  have hcontinues := Nested.enter_continues (Nested.obey_continues d context n) schema depth [] id v
  let start : Journal := ⟨d.memo, [.walking v.typeName]⟩
  have hwalked : walked = Nested.walkRecord (d.rules context) d.memo schema depth v :=
    d.walkRecord_eq_nested schema context depth v
  have hfirst : calls walked.events <+: calls ignoring.events := by
    rw [hwalked]
    rcases hcontinues.same start with heq | ⟨_, hle⟩
    · have hcalls : calls ignoring.events =
          calls (Nested.walkRecord (d.rules context) d.memo schema depth v).events :=
        congrArg (fun w : Work Value => calls w.journal.events) heq
      exact hcalls ▸ List.prefix_rfl
    · exact hle.filterMap Event.call?
  refine ⟨hfirst, ?_⟩
  intro e' he'
  have hpasses : (calls ignoring.events).length ≠ n + 1 := hcontinues.passes start e' he'
  have hcount : (calls walked.events).length = n + 1 := hn
  have hle := hfirst.length_le
  omega

end FieldNotes
