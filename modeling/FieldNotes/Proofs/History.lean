import FieldNotes.Proofs.Memo
import FieldNotes.Proofs.Refinement

/-! # The history of a walk

The handlers that run in a walk lead from the value that is walked to the one that is left: each
finds what the one before it left, and nothing is written between two of them.

* `History`: runs that lead from one value to another.
* `Walk.Keeps`: what a part of a walk keeps unless it ends before its time, and what then holds.
* `Walk.enter_keeps`: what no single tag breaks, no part of a walk breaks.
* `Dispatcher.exists_history`: the calls of a walk are those of a history, and all its runs are done
  but the one that ended it.
-/

namespace FieldNotes

/-- A run of a handler: the root that it found, and what came of it. -/
structure Run where
  call : Call
  root : Value
  effect : Effect

namespace Run

/-- The root that a run leaves. -/
def left (r : Run) : Value :=
  r.root.put r.call.path r.effect.value

/-- A run of the handler bound to the name of its tag, on the value that its path leads to. -/
def Real (d : Dispatcher) (context : Context) (r : Run) : Prop :=
  ∃ h value, d.handler? r.call.handler = some h ∧ r.root.get? r.call.path = some value ∧
    r.effect = h.run ⟨context, r.root, r.call.path, r.call.index, r.call.field, value⟩ r.call.arg

/-- Whether a run came to a good end. -/
def Done (r : Run) : Prop :=
  r.effect.outcome = .done

end Run

/-- Runs that lead from one root to another, each begun where the one before it ended. -/
inductive History (d : Dispatcher) (context : Context) (v : Value) : List Run → Value → Prop
  | nil : History d context v [] v
  | snoc {runs : List Run} {r : Run} (h : History d context v runs r.root)
      (hr : r.Real d context) : History d context v (runs ++ [r]) r.left

/-- The last run of a history left the value that the history leads to. -/
theorem History.eq_left {d : Dispatcher} {context : Context} {v root : Value} {runs : List Run}
    {r : Run} (h : History d context v (runs ++ [r]) root) : root = r.left := by
  generalize hall : runs ++ [r] = all at h
  cases h with
  | nil => simp at hall
  | snoc _ _ =>
    rcases List.append_inj' hall rfl with ⟨_, hlast⟩
    rcases List.cons.inj hlast with ⟨rfl, _⟩
    rfl

namespace Walk

/-! ## What parts of walks keep -/

/-- A part of a walk keeps `I`, unless it ends before its time: then `E` holds of its end. -/
def Keeps (I : State → Prop) (E : Halt → State → Prop) (m : Walk Unit) : Prop :=
  ∀ s, I s → match m.run s with
    | .ok () s' => I s'
    | .error h s' => E h s'

variable {I : State → Prop} {E : Halt → State → Prop}

namespace Keeps

theorem skip : Keeps I E (pure ()) :=
  fun _ hs => hs

theorem seq {m m' : Walk Unit} (h : Keeps I E m) (h' : Keeps I E m') :
    Keeps I E (m >>= fun _ => m') := by
  intro s hs
  have hend := h s hs
  rw [EStateM.run_bind]
  cases hm : m.run s with
  | ok u s' =>
    rw [hm] at hend
    exact h' s' hend
  | error e s' =>
    rw [hm] at hend
    exact hend

/-- To look at something, and go on by it. -/
theorem look {α : Type} {m : Walk α} (hm : ∀ s, ∃ a, m.run s = .ok a s) {k : α → Walk Unit}
    (h : ∀ a, Keeps I E (k a)) : Keeps I E (m >>= k) := by
  intro s hs
  rcases hm s with ⟨a, ha⟩
  rw [EStateM.run_bind, ha]
  exact h a s hs

theorem forM {ι : Type} {f : ι → Walk Unit} (h : ∀ i, Keeps I E (f i)) (l : List ι) :
    Keeps I E (l.forM f) := by
  induction l with
  | nil => exact skip
  | cons i l ih => exact (h i).seq ih

end Keeps

section Entering

variable {go : Path → Walk Unit} (hgo : ∀ path, Keeps I E (go path))

include hgo

theorem ifRecord_keeps (path : Path) :
    Keeps I E (do if (← kindAt? path) = some .record then go path) := by
  refine .look (fun s => ⟨_, rfl⟩) fun kind => ?_
  split
  · exact hgo path
  · exact .skip

theorem descend_keeps (path : Path) : Keeps I E (descend go path) := by
  refine .look (fun s => ⟨_, rfl⟩) fun v => ?_
  cases v with
  | none => exact .skip
  | some v =>
    cases hkind : v.kind with
    | record => simpa only [hkind] using hgo path
    | pointer => simpa only [hkind] using ifRecord_keeps hgo (path ++ [.deref])
    | sequence =>
      simpa only [hkind] using Keeps.forM (fun i => ifRecord_keeps hgo (path ++ [.index i])) _
    | scalar => simpa only [hkind] using Keeps.skip

variable {w : Setting} (hobey : ∀ path index f t, Keeps I E (obey w path index f t))
  (hnote : ∀ f : Field, Keeps I E (tell [.suppressed f.name]))

include hobey hnote

theorem visit_keeps (path : Path) (index : Nat) (f : Field) :
    Keeps I E (visit w go path index f) := by
  refine (Keeps.forM (hobey path index f) _).seq ?_
  split
  · exact hnote f
  · exact descend_keeps hgo path

omit hgo in
/-- What every tag that is obeyed keeps is kept on the way through a record. -/
theorem enter_keeps (hcut : ∀ s, I s → E .exhausted s) (depth : Nat) (path : Path) :
    Keeps I E (enter w depth path) := by
  induction depth generalizing path with
  | zero => exact fun s hs => hcut s hs
  | succ depth ih =>
    have hmember (p : Field × Nat) : Keeps I E
        (if p.1.exported then visit w (enter w depth) (path ++ [.field p.2]) p.2 p.1
          else pure ()) := by
      split
      · exact visit_keeps ih hobey hnote _ p.2 p.1
      · exact .skip
    refine .look (fun s => ⟨_, rfl⟩) fun v => ?_
    cases v with
    | none => exact .skip
    | some v =>
      cases v with
      | record name values => exact .forM hmember _
      | _ => exact .skip

end Entering

/-! ## The history so far -/

variable (d : Dispatcher) (context : Context) (v : Value)

/-- Some runs lead from `v` to the root, and their calls are those that are told of. -/
structure Told (runs : List Run) (s : State) : Prop where
  history : History d context v runs s.root
  calls : runs.map Run.call = calls s.events

/-- All went well so far. -/
def Smooth (s : State) : Prop :=
  ∃ runs, Told d context v runs s ∧ ∀ r ∈ runs, r.Done

/-- What is to be said of the runs of a walk that ends before its time.  One that ended because of a
failure ended with the run that failed. -/
def Breaks (runs : List Run) : Halt → Prop
  | .failed e => ∃ earlier r source, runs = earlier ++ [r] ∧ (∀ r' ∈ earlier, r'.Done) ∧
      r.effect.outcome = .failed source ∧
      e = .field (d.shownName r.call.field) r.call.handler source
  | .faulted _ => ∀ r ∈ runs, ∀ source, r.effect.outcome ≠ .failed source
  | .exhausted => ∀ r ∈ runs, r.Done

/-- Where a walk ended before its time. -/
def Ended (h : Halt) (s : State) : Prop :=
  ∃ runs, Told d context v runs s ∧ Breaks d runs h

variable {d context v}

theorem not_failed_of_done {runs : List Run} (h : ∀ r ∈ runs, r.Done) :
    ∀ r ∈ runs, ∀ source, r.effect.outcome ≠ .failed source := by
  intro r hr source hfailed
  have hdone : r.effect.outcome = .done := h r hr
  rw [hdone] at hfailed
  cases hfailed

/-- Events other than calls do not change the history. -/
theorem Told.note {runs : List Run} {s : State} (h : Told d context v runs s) {memo : Memo}
    {events : List Event} (hevents : FieldNotes.calls events = []) :
    Told d context v runs ⟨(⟨memo, s.events⟩ : Journal).note events, s.root⟩ := by
  refine ⟨h.history, ?_⟩
  rw [Journal.note, calls_append, hevents, List.append_nil]
  exact h.calls

/-- A run that follows makes a longer history. -/
theorem Told.run {runs : List Run} {s : State} (h : Told d context v runs s) {r : Run}
    (hroot : r.root = s.root) (hr : r.Real d context) (field handler : String)
    (reports : List Report) :
    Told d context v (runs ++ [r])
      ⟨s.note ([.dispatching field handler, .called r.call] ++ reports.map .reported), r.left⟩ := by
  refine ⟨.snoc (hroot ▸ h.history) hr, ?_⟩
  rw [List.map_append, h.calls, Journal.note, calls_append, calls_append, calls_reported]
  rfl

theorem call_keeps {schema : Schema} {h : Handler} {t : Tag} (hh : d.handler? t.name = some h)
    (path : Path) (index : Nat) (f : Field) (arg : Arg) :
    Keeps (Smooth d context v) (Ended d context v)
      (call ⟨schema, d, context⟩ h path index f t arg) := by
  rintro s ⟨runs, htold, hdone⟩
  cases hvalue : s.root.get? path with
  | none =>
    -- the path leads nowhere, so that no handler is run
    have hstray : (call ⟨schema, d, context⟩ h path index f t arg).run s =
        .error (.faulted .strayPath)
          { s with toJournal := s.note [.dispatching f.name t.name] } := by
      simp only [call, tell, valueAt?, fault, EStateM.run_bind, EStateM.run_get,
        EStateM.run_modify, EStateM.run_pure, hvalue]
      rfl
    rw [hstray]
    exact ⟨runs, htold.note rfl, not_failed_of_done hdone⟩
  | some value =>
    have hcall := call_simulates ⟨schema, d, context⟩ h index f t arg s.root value s.toJournal
      hvalue
    have hcontext : (Setting.rules ⟨schema, d, context⟩).context = context := rfl
    simp only [Nested.Rules.call, Value.put_self hvalue, hcontext] at hcall
    rw [hcall]
    generalize heffect : h.run ⟨context, s.root, path, index, f, value⟩ arg = effect
    -- the run is the last one, and how it ended says how the work does
    let r : Run := ⟨⟨path, index, f, t, arg⟩, s.root, effect⟩
    have hnext := htold.run (r := r) rfl ⟨h, value, hh, hvalue, heffect.symm⟩ f.name t.name
      effect.reports
    cases houtcome : effect.outcome with
    | done =>
      have hall : ∀ r' ∈ runs ++ [r], r'.Done :=
        List.forall_mem_append.2 ⟨hdone, List.forall_mem_singleton.2 houtcome⟩
      exact ⟨runs ++ [r], hnext, hall⟩
    | failed e => exact ⟨runs ++ [r], hnext, runs, r, e, rfl, hdone, houtcome, rfl⟩
    | faulted e =>
      have hlast (source : HandlerError) : r.effect.outcome ≠ .failed source := by
        intro hfailed
        cases houtcome.symm.trans hfailed
      have hnone : ∀ r' ∈ runs ++ [r], ∀ source, r'.effect.outcome ≠ .failed source :=
        List.forall_mem_append.2
          ⟨not_failed_of_done hdone, List.forall_mem_singleton.2 hlast⟩
      exact ⟨runs ++ [r], hnext, hnone⟩

theorem obey_keeps (schema : Schema) (path : Path) (index : Nat) (f : Field) (t : Tag) :
    Keeps (Smooth d context v) (Ended d context v) (obey ⟨schema, d, context⟩ path index f t) := by
  unfold obey
  cases t.isStop with
  | true => exact .skip
  | false =>
    cases hh : d.handler? t.name with
    | none =>
      simp only [Bool.false_eq_true, if_false]
      exact .skip
    | some h =>
      simp only [Bool.false_eq_true, if_false]
      rintro s ⟨runs, htold, hdone⟩
      have hasked : Told d context v runs
          ⟨(⟨(s.memo.ask h t).memo, s.events⟩ : Journal).note (s.memo.ask h t).events, s.root⟩ :=
        htold.note (Memo.calls_ask s.memo h t)
      rw [EStateM.run_bind, run_argument]
      cases (s.memo.ask h t).result with
      | error e => exact ⟨runs, hasked, not_failed_of_done hdone⟩
      | ok arg => exact call_keeps hh path index f arg _ ⟨runs, hasked, hdone⟩

end Walk

/-- The calls of a walk are those of a history that leads to the value that is left. -/
theorem Dispatcher.exists_history (d : Dispatcher) (schema : Schema) (context : Context)
    (depth : Nat) (v : Value) :
    let walked := d.walkRecord schema context depth v
    ∃ runs, History d context v runs walked.value ∧ runs.map Run.call = calls walked.events ∧
      match walked.result with
      | .ok () => ∀ r ∈ runs, r.Done
      | .error h => Walk.Breaks d runs h := by
  let start : Walk.State := { root := v, memo := d.memo, events := [.walking v.typeName] }
  have hstart : Walk.Smooth d context v start :=
    ⟨[], ⟨.nil, rfl⟩, fun _ hr => absurd hr List.not_mem_nil⟩
  have hnote (f : Field) : Walk.Keeps (Walk.Smooth d context v) (Walk.Ended d context v)
      (Walk.tell [.suppressed f.name]) := by
    rintro s ⟨runs, htold, hdone⟩
    exact ⟨runs, htold.note rfl, hdone⟩
  have hwalk := Walk.enter_keeps (Walk.obey_keeps schema) hnote
    (fun s ⟨runs, htold, hdone⟩ => ⟨runs, htold, hdone⟩) depth [] start hstart
  simp only [walkRecord]
  cases hend : (Walk.enter ⟨schema, d, context⟩ depth []).run start with
  | ok u s =>
    rw [hend] at hwalk
    rcases hwalk with ⟨runs, htold, hdone⟩
    exact ⟨runs, htold.history, htold.calls, hdone⟩
  | error h s =>
    rw [hend] at hwalk
    rcases hwalk with ⟨runs, htold, hbreaks⟩
    exact ⟨runs, htold.history, htold.calls, hbreaks⟩

end FieldNotes
