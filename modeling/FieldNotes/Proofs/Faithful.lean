import FieldNotes.Proofs.FieldVisits

/-! # The log is faithful

What the log of a usage tells of runs, of arguments and of walks is what happened.

* `Truthful`: what holds of a log that stands in a chronicle.
* `Walk.obey_heeds`: what a walk adds to the log for a tag, wherever it has got to.
* `Usage.log_is_faithful`: the log of any usage.
-/

namespace FieldNotes

open Walk (Journal)

/-- What is told of runs and of arguments is true, and nothing is left out. -/
structure Truthful (log : List Event) : Prop where
  /-- The runs are those that are announced, in this order. -/
  announced : log.filterMap Event.dispatched? = (calls log).map fun c => (c.field.name, c.handler)
  /-- A run is announced right before it. -/
  called : ∀ (pre : List Event) (c : Call) (post : List Event), log = pre ++ .called c :: post →
    ∃ pre' : List Event, pre = pre' ++ [.dispatching c.field.name c.handler]
  /-- What is announced is run right away. -/
  dispatching : ∀ (pre : List Event) (field handler : String) (post : List Event),
    log = pre ++ .dispatching field handler :: post →
      ∃ (c : Call) (post' : List Event), post = .called c :: post' ∧ c.field.name = field ∧
        c.handler = handler
  /-- That a text was read is told right before a run for its tag is announced, the first one since
  the name of the tag was last bound or unbound. -/
  parsed : ∀ (pre : List Event) (t : Tag) (text : String) (post : List Event),
    log = pre ++ .parsed t text :: post →
      t.text = .ok text ∧ t ∉ (Ledger.ofLog pre).read ∧
        (∀ c ∈ (Ledger.ofLog pre).ran, c.tag ≠ t) ∧
        ∃ (c : Call) (post' : List Event),
          post = .dispatching c.field.name c.handler :: .called c :: post' ∧ c.tag = t
  /-- It is told before every such first run. -/
  first : ∀ (pre : List Event) (c : Call) (post : List Event), log = pre ++ .called c :: post →
    (∀ c' ∈ (Ledger.ofLog pre).ran, c'.tag ≠ c.tag) →
      ∃ (pre' : List Event) (text : String), c.tag.text = .ok text ∧
        pre = pre' ++ [.parsed c.tag text, .dispatching c.field.name c.handler]

theorem Chronicle.truthful {log : List Event} {m : Memo} (h : Chronicle log m) : Truthful log where
  announced := h.dispatched_eq
  called := fun _ _ _ => h.before_called
  dispatching := fun _ _ _ _ => h.after_dispatching
  parsed := fun _ _ _ _ => h.after_parsed
  first := fun _ _ _ => h.first_called

/-! ## Tags on the way -/

/-- What can be trusted in a memo is kept when a tag is obeyed. -/
theorem Walk.Journal.Heeds.kept {d : Dispatcher} {f : Field} {t : Tag} {j k : Journal}
    {result : Except Halt Unit} (h : j.Heeds d f t result k) (hj : j.memo.Kept d.handler?) :
    k.memo.Kept d.handler? := by
  cases h with
  | idle => exact hj
  | unread => exact hj
  | ran hh _ htag hread hentry _ hk =>
    subst hk
    cases hentry with
    | again => exact hj
    | first hnone =>
      rw [htag] at hnone
      intro t' arg hfound
      rw [Memo.find?_insert, htag] at hfound
      by_cases ht : t' = t
      · rw [if_pos ht] at hfound
        cases hfound
        exact ⟨_, ht ▸ hh, ht ▸ hread hnone⟩
      · rw [if_neg ht] at hfound
        exact hj t' arg hfound

/-- A tag that cannot be read is the end of a walk, and nothing but reports is told of it. -/
theorem Walk.Journal.Heeds.unread_of_broken {d : Dispatcher} {f : Field} {t : Tag} {j k : Journal}
    {result : Except Halt Unit} (h : j.Heeds d f t result k) (hj : j.memo.Kept d.handler?)
    {handler : Handler} {e : Fault} (hh : d.handler? t.name = some handler)
    (hstop : t.isStop = false) (hbroken : (handler.readTag t).1 = .error e) :
    result = .error (.faulted e) ∧ ∃ reports : List Report, k = j.note (reports.map .reported) := by
  cases h with
  | idle hidle =>
    rcases hidle with hidle | hidle
    · cases hstop.symm.trans hidle
    · cases hh.symm.trans hidle
  | unread hh' hread reports =>
    cases hh.symm.trans hh'
    cases hbroken.symm.trans hread
    exact ⟨rfl, reports, rfl⟩
  | ran hh' _ _ hread =>
    cases hh.symm.trans hh'
    cases hbroken.symm.trans (hread (hj.find?_of_broken hh hbroken))

/-- Wherever a walk has got to, this is what it does for a tag. -/
theorem Walk.obey_heeds (d : Dispatcher) (schema : Schema) (context : Context) {s : Walk.State}
    {path : Path} {v : Value} (hv : s.root.get? path = some v) (index : Nat) (f : Field) (t : Tag) :
    ∃ w : Work Value,
      (Walk.obey ⟨schema, d, context⟩ path index f t).run s = w.fromRoot s.root path ∧
      s.toJournal.Heeds d f t w.result w.journal :=
  ⟨_, Walk.obey_simulates ⟨schema, d, context⟩ index f t s.root v s.toJournal hv,
    Nested.obey_heeds d context ⟨path, index, f, s.root.put path⟩ t v s.toJournal⟩

/-! ## Usages -/

/-- The log of a usage is faithful.

The log and the memo came about together: exactly when something is remembered it is told that it
was read.  The runs are those that are announced, each one right before it happens, and what was
read is told right before the first run for it since its name was last bound or unbound.  On the way
through a record, a tag that cannot be read ends the walk, and nothing but reports is told of it.
Whatever record is walked next, or is pointed at by what is walked, this is told visit by visit: at
each field that is visited, once the handlers were run and all came to a good end, and only then, it
is told that the value of the field is left out, if a tag of the field says so; then comes the next
field.  If the walk ends before its time, it does so on the last visit that is told of, because of
its last run or because of a tag that could not be read. -/
theorem Usage.log_is_faithful (bindings : List (String × Handler)) (nameTag : Option String)
    (acts : List Act) :
    let u := (start bindings nameTag).after acts
    let d := u.dispatcher
    Chronicle u.log d.memo ∧ Truthful u.log ∧
    (∀ t, (d.memo.find? t).isSome = true ↔ t ∈ (Ledger.ofLog u.log).read) ∧
    d.memo.Kept d.handler? ∧
    (∀ (schema : Schema) (context : Context) (s : Walk.State) (path : Path) (index : Nat)
        (f : Field) (t : Tag) (v : Value), s.root.get? path = some v →
      ∃ w : Work Value,
        (Walk.obey ⟨schema, d, context⟩ path index f t).run s = w.fromRoot s.root path ∧
        s.toJournal.Heeds d f t w.result w.journal ∧
        (s.memo.Kept d.handler? → w.journal.memo.Kept d.handler? ∧
          ∀ (h : Handler) (e : Fault), d.handler? t.name = some h → t.isStop = false →
            (h.readTag t).1 = .error e → w.result = .error (.faulted e) ∧
              ∃ reports : List Report,
                w.journal = s.toJournal.note (reports.map .reported))) ∧
    ∀ (schema : Schema) (context : Context) (depth : Nat) (v : Value),
      let walked := d.walk schema context depth v
      (walked.events = [] ∧ ∀ p, p = v ∨ v.pointee? = some p → p.kind ≠ .record) ∨
        ∃ p logs, (p = v ∨ v.pointee? = some p) ∧
          (d.walkRecord schema context depth p).LogsVisits d schema context depth p logs ∧
          walked.events = (d.walkRecord schema context depth p).events ∧
          walked.result = (d.walkRecord schema context depth p).result := by
  intro u d
  have hchronicle := after_chronicle bindings nameTag acts
  refine ⟨hchronicle, hchronicle.truthful, hchronicle.accounts.find?_isSome_iff,
    (after_accounts bindings nameTag acts).1, ?_, ?_⟩
  · intro schema context s path index f t v hv
    obtain ⟨w, hrun, hheeds⟩ := Walk.obey_heeds d schema context hv index f t
    refine ⟨w, hrun, hheeds, fun hkept => ⟨hheeds.kept hkept, ?_⟩⟩
    intro h e hh hstop hbroken
    exact hheeds.unread_of_broken hkept hh hstop hbroken
  · intro schema context depth v walked
    rcases d.walk_events schema context depth v with hnone | ⟨p, hp, hrecord, hevents, hresult⟩
    · exact Or.inl hnone
    · obtain ⟨logs, hlogs⟩ := d.exists_visitLogs schema context depth hrecord
      exact Or.inr ⟨p, logs, hp, hlogs, hevents, hresult⟩

end FieldNotes
