import FieldNotes.Proofs.Chronicle
import FieldNotes.Proofs.History
import FieldNotes.Proofs.Plans
import FieldNotes.Proofs.StoppedField

/-! # The log of a walk, field by field

At each field that it visits a walk has the tags of the field obeyed, before it goes on.  What it
tells of is told on one of these visits, but for its beginning.

* `VisitLog`: what happens on the visit of a field, `VisitLog.Faithful`: what can be relied on.
* `Obeyed`, `Interrupted`: the handlers of a field were run and all came to a good end, or one of
  them did not, or was not run, since its tag could not be read (`Nested.obeyAll_logsRuns`).
* `Work.LogsVisits`: a part of a walk by recursion is a row of visits, and the fields are those
  which are to be visited in the value that it leaves (`Nested.visit_logsVisits`,
  `Nested.enter_logsVisits`).
* `Dispatcher.exists_visitLogs`: so it is with the walk of a record.
-/

namespace FieldNotes

open Nested (Place obeyAll)
open Walk (Journal)

/-- The tag that a handler was run for. -/
def Run.tag (r : Run) : Tag :=
  r.call.tag

/-- What happened on the visit of a field. -/
structure VisitLog where
  visit : Visit
  /-- The runs of handlers on the field. -/
  runs : List Run
  /-- What was told while the tags of the field were obeyed. -/
  events : List Event
  /-- Whether it was told then that the value of the field is left out. -/
  leftOut : Bool

/-- The tags of a row that a handler is to be run for. -/
def Dispatcher.heeded (d : Dispatcher) (row : String) : List Tag :=
  (Tag.ofRow row).filter fun t => !t.isStop && d.contains t.name

/-- The tags were obeyed: for each one that has a handler this was run, and came to a good end. -/
structure Obeyed (tags : List Tag) (runs : List Run) : Prop where
  ran : runs.map Run.tag = tags
  done : ∀ r ∈ runs, r.Done

namespace VisitLog

/-- All handlers of the field were run, and came to a good end. -/
def Completed (d : Dispatcher) (s : VisitLog) : Prop :=
  Obeyed (d.heeded s.visit.field.row) s.runs

/-- What was told of a visit. -/
def log (s : VisitLog) : List Event :=
  s.events ++ if s.leftOut then [.suppressed s.visit.field.name] else []

/-- What was told of a visit is true. -/
structure Faithful (d : Dispatcher) (s : VisitLog) : Prop where
  /-- The runs are told of while they happen. -/
  calls : calls s.events = s.runs.map Run.call
  /-- They are runs on the field. -/
  here : ∀ r ∈ s.runs, r.call.path = s.visit.path ∧ r.call.index = s.visit.index ∧
    r.call.field = s.visit.field
  /-- The tags are obeyed in their order. -/
  tags : s.runs.map Run.tag <+: d.heeded s.visit.field.row
  /-- Nothing else is told then of walks. -/
  remarks : ∀ e ∈ s.events, e.isRemark = false
  /-- The value is left out if a tag stops the walk, but not before all handlers were run. -/
  leftOut : s.leftOut = true ↔ (∃ t ∈ Tag.ofRow s.visit.field.row, t.isStop = true) ∧ s.Completed d

end VisitLog

theorem Visit.singleton_prefix_andInside (o : Visit) (inside : List Visit) :
    [o] <+: o.andInside inside := by
  unfold andInside
  split
  · exact List.prefix_refl _
  · exact List.prefix_append _ _

/-! ## Tags -/

theorem Memo.isRemark_of_mem_ask {m : Memo} {h : Handler} {t : Tag} {e : Event}
    (he : e ∈ (m.ask h t).events) : e.isRemark = false := by
  have hreported {reports : List Report} (h : e ∈ reports.map Event.reported) :
      e.isRemark = false := by
    obtain ⟨r, -, rfl⟩ := List.mem_map.1 h
    rfl
  rcases m.ask_cases h t with ⟨arg, -, hask⟩ | ⟨-, ⟨f, reports, -, hask⟩ |
    ⟨text, arg, reports, -, -, hask⟩⟩
  · rw [hask] at he
    cases he
  · rw [hask] at he
    exact hreported he
  · rw [hask] at he
    rcases List.mem_append.1 he with he | he
    · exact hreported he
    · rcases List.mem_singleton.1 he with rfl
      rfl

section Recounting

variable {d : Dispatcher} {context : Context} {v₀ : Value}

/-- What was told and run while some tags of a field were obeyed. -/
structure Walk.Journal.LogsRuns (p : Place) (j : Journal) (runs : List Run) (events : List Event)
    (k : Journal) : Prop where
  told : k.events = j.events ++ events
  calls : calls events = runs.map Run.call
  here : ∀ r ∈ runs, r.call.path = p.path ∧ r.call.index = p.index ∧ r.call.field = p.field
  remarks : ∀ e ∈ events, e.isRemark = false

namespace Walk.Journal.LogsRuns

variable {p : Place} {j k l : Journal} {runs runs' : List Run} {events events' : List Event}

theorem refl (p : Place) (j : Journal) : LogsRuns p j [] [] j where
  told := (List.append_nil _).symm
  calls := rfl
  here := fun _ hr => absurd hr List.not_mem_nil
  remarks := fun _ he => absurd he List.not_mem_nil

theorem trans (h : LogsRuns p j runs events k) (h' : LogsRuns p k runs' events' l) :
    LogsRuns p j (runs ++ runs') (events ++ events') l where
  told := by rw [h'.told, h.told, List.append_assoc]
  calls := by rw [calls_append, h.calls, h'.calls, List.map_append]
  here := List.forall_mem_append.2 ⟨h.here, h'.here⟩
  remarks := List.forall_mem_append.2 ⟨h.remarks, h'.remarks⟩

/-- To ask for an argument is told of, but makes no run. -/
theorem ask (p : Place) (j : Journal) (h : Handler) (t : Tag) :
    LogsRuns p j [] (j.memo.ask h t).events
      ⟨(j.memo.ask h t).memo, j.events ++ (j.memo.ask h t).events⟩ where
  told := rfl
  calls := Memo.calls_ask j.memo h t
  here := fun _ hr => absurd hr List.not_mem_nil
  remarks := fun _ he => Memo.isRemark_of_mem_ask he

/-- A run is told of. -/
theorem call (p : Place) (j : Journal) {r : Run} (hpath : r.call.path = p.path)
    (hindex : r.call.index = p.index) (hfield : r.call.field = p.field) (handler : String)
    (reports : List Report) :
    let events : List Event :=
      [.dispatching p.field.name handler, .called r.call] ++ reports.map .reported
    LogsRuns p j [r] events (j.note events) where
  told := rfl
  calls := by
    rw [calls_append, calls_reported]
    rfl
  here := List.forall_mem_singleton.2 ⟨hpath, hindex, hfield⟩
  remarks := by
    intro e he
    rcases List.mem_append.1 he with he | he
    · simp only [List.mem_cons, List.not_mem_nil, or_false] at he
      rcases he with rfl | rfl <;> rfl
    · obtain ⟨r, -, rfl⟩ := List.mem_map.1 he
      rfl

end Walk.Journal.LogsRuns

/-- The tags were not all obeyed: the last run came to no good end, or a tag could not be read. -/
inductive Interrupted (d : Dispatcher) (context : Context) (tags : List Tag) :
    List Run → Halt → Prop
  | run {earlier : List Run} {r : Run} {rest : List Tag} {h : Halt}
      (htags : tags = (earlier ++ [r]).map Run.tag ++ rest)
      (hearlier : ∀ r' ∈ earlier, r'.Done)
      (hend : (d.rules context).ending r.call.field r.tag r.effect.outcome = .error h) :
      Interrupted d context tags (earlier ++ [r]) h
  | tag {runs : List Run} {t : Tag} {rest : List Tag} {handler : Handler} {f : Fault}
      (htags : tags = runs.map Run.tag ++ t :: rest) (hdone : ∀ r ∈ runs, r.Done)
      (hh : d.handler? t.name = some handler) (hread : (handler.readTag t).1 = .error f) :
      Interrupted d context tags runs (.faulted f)

namespace Interrupted

variable {tags : List Tag} {runs : List Run} {h : Halt}

theorem initial (ht : Interrupted d context tags runs h) :
    runs.map Run.tag <+: tags := by
  cases ht with
  | run htags => exact ⟨_, htags.symm⟩
  | tag htags => exact ⟨_, htags.symm⟩

/-- More tags are obeyed after those that were. -/
theorem after {tags' : List Tag} {runs' : List Run} (ht : Interrupted d context tags' runs' h)
    (hobeyed : Obeyed tags runs) : Interrupted d context (tags ++ tags') (runs ++ runs') h := by
  cases ht with
  | @run earlier r rest _ htags hearlier hend =>
    have htags' : tags ++ tags' = (runs ++ earlier ++ [r]).map Run.tag ++ rest := by
      rw [htags, ← hobeyed.ran, ← List.append_assoc, ← List.map_append, List.append_assoc]
    rw [← List.append_assoc]
    exact .run htags' (List.forall_mem_append.2 ⟨hobeyed.done, hearlier⟩) hend
  | @tag _ t rest _ _ htags hdone hh hread =>
    have htags' : tags ++ tags' = (runs ++ runs').map Run.tag ++ t :: rest := by
      rw [htags, ← hobeyed.ran, ← List.append_assoc, ← List.map_append]
    exact .tag htags' (List.forall_mem_append.2 ⟨hobeyed.done, hdone⟩) hh hread

/-- Tags after one that was not obeyed are not obeyed. -/
theorem cut (ht : Interrupted d context tags runs h) (tags' : List Tag) :
    Interrupted d context (tags ++ tags') runs h := by
  cases ht with
  | run htags hearlier hend => exact .run (by rw [htags, List.append_assoc]) hearlier hend
  | tag htags hdone hh hread =>
    exact .tag (by rw [htags, List.append_assoc, List.cons_append]) hdone hh hread

/-- If it was not because of a run, it was because of a tag. -/
theorem unread_of_done (ht : Interrupted d context tags runs h) (hdone : ∀ r ∈ runs, r.Done) :
    ∃ t rest handler f, tags = runs.map Run.tag ++ t :: rest ∧
      d.handler? t.name = some handler ∧ (handler.readTag t).1 = .error f ∧ h = .faulted f := by
  cases ht with
  | run _ _ hend =>
    have hlast := hdone _ (List.mem_append_right _ (List.mem_singleton_self _))
    rw [hlast] at hend
    cases hend
  | tag htags _ hh hread => exact ⟨_, _, _, _, htags, hh, hread, rfl⟩

theorem not_obeyed (ht : Interrupted d context tags runs h) : ¬ Obeyed tags runs := by
  rintro ⟨hran, hdone⟩
  obtain ⟨t, rest, -, -, htags, -⟩ := ht.unread_of_done hdone
  rw [← hran] at htags
  have hlength := congrArg List.length htags
  simp at hlength

end Interrupted

theorem Obeyed.nil : Obeyed [] [] :=
  ⟨rfl, fun _ hr => absurd hr List.not_mem_nil⟩

theorem Obeyed.append {tags tags' : List Tag} {runs runs' : List Run} (h : Obeyed tags runs)
    (h' : Obeyed tags' runs') : Obeyed (tags ++ tags') (runs ++ runs') :=
  ⟨by rw [List.map_append, h.ran, h'.ran], List.forall_mem_append.2 ⟨h.done, h'.done⟩⟩

/-- How obeying some tags ends: they were all obeyed, or not. -/
def Obeyed.Ends (d : Dispatcher) (context : Context) (tags : List Tag) (runs : List Run) :
    Except Halt Unit → Prop
  | .ok () => Obeyed tags runs
  | .error h => Interrupted d context tags runs h

theorem Obeyed.Ends.initial {tags : List Tag} {runs : List Run} {result : Except Halt Unit}
    (h : Obeyed.Ends d context tags runs result) : runs.map Run.tag <+: tags := by
  cases result with
  | ok _ => exact h.ran ▸ List.prefix_refl _
  | error _ => exact Interrupted.initial h

theorem Obeyed.Ends.after {tags tags' : List Tag} {runs runs' : List Run}
    {result : Except Halt Unit} (h' : Obeyed.Ends d context tags' runs' result)
    (h : Obeyed tags runs) : Obeyed.Ends d context (tags ++ tags') (runs ++ runs') result := by
  cases result with
  | ok _ => exact h.append h'
  | error _ => exact Interrupted.after h' h

namespace Nested

/-- To obey a tag is to have the handler run that is bound to its name, if there is one. -/
theorem obey_logsRuns (p : Place) (hole : Hole p.path p.around) (t : Tag) (v : Value) (j : Journal)
    {runs : List Run} (hhistory : History d context v₀ runs (p.around v)) :
    let w := (d.rules context).obey p t v j
    ∃ more events, History d context v₀ (runs ++ more) (p.around w.value) ∧
      j.LogsRuns p more events w.journal ∧
      Obeyed.Ends d context ([t].filter fun t => !t.isStop && d.contains t.name) more w.result := by
  intro w
  have hidle : History d context v₀ (runs ++ []) (p.around v) := by rwa [List.append_nil]
  cases hstop : t.isStop with
  | true =>
    have hw : w = .done v j := Rules.obey_of_stop hstop
    have hheeded : [t].filter (fun t => !t.isStop && d.contains t.name) = [] := by simp [hstop]
    rw [hw, hheeded]
    exact ⟨[], [], hidle, .refl p j, Obeyed.nil⟩
  | false =>
    cases hh : d.handler? t.name with
    | none =>
      have hw : w = .done v j := Rules.obey_of_unbound hh
      have hheeded : [t].filter (fun t => !t.isStop && d.contains t.name) = [] := by
        simp [Dispatcher.contains, hh]
      rw [hw, hheeded]
      exact ⟨[], [], hidle, .refl p j, Obeyed.nil⟩
    | some h =>
      have hheeded : [t].filter (fun t => !t.isStop && d.contains t.name) = [t] := by
        simp [hstop, Dispatcher.contains, hh]
      have hhandler : (d.rules context).handler? t.name = some h := hh
      rw [hheeded]
      cases hread : (j.memo.ask h t).result with
      | error f =>
        -- there is no run, but what was reported on the reading is told
        have hw : w = _ := Rules.obey_of_unread hstop hhandler hread
        rw [hw]
        refine ⟨[], _, hidle, .ask p j h t, ?_⟩
        exact Interrupted.tag rfl (fun _ hr => absurd hr List.not_mem_nil) hh
          (Memo.broken_of_ask hread)
      | ok arg =>
        have hw : w = _ := Rules.obey_of_read hstop hhandler hread
        rw [hw]
        let effect := h.run ⟨context, p.around v, p.path, p.index, p.field, v⟩ arg
        let r : Run := ⟨⟨p.path, p.index, p.field, t, arg⟩, p.around v, effect⟩
        have hleft : r.left = p.around effect.value := hole.put v effect.value
        have hreal : r.Real d context := ⟨h, v, hh, hole.get? v, rfl⟩
        have hrun : History d context v₀ (runs ++ [r]) (p.around effect.value) :=
          hleft ▸ .snoc hhistory hreal
        refine ⟨[r], _, hrun,
          (Journal.LogsRuns.ask p j h t).trans (.call p _ rfl rfl rfl t.name effect.reports), ?_⟩
        show Obeyed.Ends d context [t] [r] ((d.rules context).ending p.field t effect.outcome)
        cases hend : (d.rules context).ending p.field t effect.outcome with
        | ok _ => exact ⟨rfl, List.forall_mem_singleton.2 (Rules.ending_eq_ok hend)⟩
        | error e =>
          have hnone : ∀ r' ∈ ([] : List Run), r'.Done := fun _ hr => absurd hr List.not_mem_nil
          have hrun : Interrupted d context [t] ([] ++ [r]) e := .run rfl hnone hend
          exact hrun

theorem obeyAll_logsRuns (p : Place) (hole : Hole p.path p.around) (ts : List Tag) (v : Value)
    (j : Journal) {runs : List Run} (hhistory : History d context v₀ runs (p.around v)) :
    let w := obeyAll (d.rules context).obey p ts v j
    ∃ more events, History d context v₀ (runs ++ more) (p.around w.value) ∧
      j.LogsRuns p more events w.journal ∧
      Obeyed.Ends d context (ts.filter fun t => !t.isStop && d.contains t.name) more w.result := by
  induction ts generalizing v j runs with
  | nil => exact ⟨[], [], by rwa [List.append_nil], .refl p j, Obeyed.nil⟩
  | cons t ts ih =>
    have hfilter : (t :: ts).filter (fun t => !t.isStop && d.contains t.name) =
        [t].filter (fun t => !t.isStop && d.contains t.name) ++
          ts.filter fun t => !t.isStop && d.contains t.name :=
      List.filter_append [t] ts
    obtain ⟨more, events, hfirst, hlogged, hends⟩ := obey_logsRuns p hole t v j hhistory
    rw [obeyAll, hfilter]
    rcases ((d.rules context).obey p t v j).done_or_halt with ⟨x, k, hw⟩ | ⟨e, x, k, hw⟩
    · rw [hw] at hfirst hlogged hends ⊢
      obtain ⟨more', events', hrest, hlogged', hends'⟩ := ih x k hfirst
      rw [Work.andThen_done]
      refine ⟨more ++ more', events ++ events', ?_, hlogged.trans hlogged', hends'.after hends⟩
      rwa [← List.append_assoc]
    · rw [hw] at hfirst hlogged hends ⊢
      rw [Work.andThen_halt]
      exact ⟨more, events, hfirst, hlogged, Interrupted.cut hends _⟩

end Nested

/-! ## Rows of visits -/

/-- How a row of visits ends.  If all went well, all was visited that there was to visit.  A walk
that is cut off visits no more, and was not done yet with what lies `deep`.  Otherwise something
went wrong on the last visit. -/
def VisitLog.Ends (d : Dispatcher) (context : Context) (visits : List Visit) (deep : Prop)
    (logs : List VisitLog) : Except Halt Unit → Prop
  | .ok () => logs.map VisitLog.visit = visits ∧ ∀ s ∈ logs, s.Completed d
  | .error h => logs.map VisitLog.visit <+: visits ∧
      (h = .exhausted ∧ deep ∧ (∀ s ∈ logs, s.Completed d) ∨ ∃ earlier last,
        logs = earlier ++ [last] ∧ (∀ s ∈ earlier, s.Completed d) ∧
          Interrupted d context (d.heeded last.visit.field.row) last.runs h)

namespace VisitLog.Ends

variable {visits visits' : List Visit} {deep deep' : Prop} {logs logs' : List VisitLog}
  {result : Except Halt Unit} {h : Halt}

theorem initial (hends : VisitLog.Ends d context visits deep logs result) :
    logs.map VisitLog.visit <+: visits := by
  cases result with
  | ok _ => exact hends.1 ▸ List.prefix_refl _
  | error _ => exact hends.1

/-- What lies deep in a part lies deep in the whole. -/
theorem imp (hends : VisitLog.Ends d context visits deep logs result) (h : deep → deep') :
    VisitLog.Ends d context visits deep' logs result := by
  cases result with
  | ok _ => exact hends
  | error _ =>
    refine ⟨hends.1, hends.2.imp_left ?_⟩
    rintro ⟨hcut, hdeep, hcompleted⟩
    exact ⟨hcut, h hdeep, hcompleted⟩

theorem after (hends : VisitLog.Ends d context visits' deep logs' result)
    (hvisits : logs.map VisitLog.visit = visits) (hcompleted : ∀ s ∈ logs, s.Completed d) :
    VisitLog.Ends d context (visits ++ visits') deep (logs ++ logs') result := by
  cases result with
  | ok _ =>
    obtain ⟨hvisits', hcompleted'⟩ := hends
    refine ⟨?_, List.forall_mem_append.2 ⟨hcompleted, hcompleted'⟩⟩
    rw [List.map_append, hvisits, hvisits']
  | error h =>
    obtain ⟨hinitial, hend⟩ := hends
    refine ⟨?_, ?_⟩
    · rw [List.map_append, hvisits]
      exact (List.prefix_append_right_inj visits).2 hinitial
    · rcases hend with ⟨hcut, hdeep, hcompleted'⟩ | ⟨earlier, last, rfl, hcompleted', hlast⟩
      · exact Or.inl ⟨hcut, hdeep, List.forall_mem_append.2 ⟨hcompleted, hcompleted'⟩⟩
      · exact Or.inr ⟨logs ++ earlier, last, (List.append_assoc _ _ _).symm,
          List.forall_mem_append.2 ⟨hcompleted, hcompleted'⟩, hlast⟩

theorem cut (hends : VisitLog.Ends d context visits deep logs (.error h)) (visits' : List Visit) :
    VisitLog.Ends d context (visits ++ visits') deep logs (.error h) :=
  ⟨hends.1.trans (List.prefix_append _ _), hends.2⟩

end VisitLog.Ends

/-- Work that may go down `depth` records is a row of visits, and was told of as such.  What was to
be visited, and how high records lie in each other, is seen from the value that is left. -/
def Work.LogsVisits {α : Type} (d : Dispatcher) (context : Context) (v₀ : Value) (depth : Nat)
    (visits : α → List Visit) (height : α → Nat) (around : α → Value) (runs : List Run)
    (j : Journal) (w : Work α) : Prop :=
  ∃ logs : List VisitLog,
    History d context v₀ (runs ++ logs.flatMap VisitLog.runs) (around w.value) ∧
    w.journal.events = j.events ++ logs.flatMap VisitLog.log ∧ (∀ s ∈ logs, s.Faithful d) ∧
    VisitLog.Ends d context (visits w.value) (depth < height w.value) logs w.result

namespace Work.LogsVisits

variable {α β : Type} {depth : Nat} {visits : α → List Visit} {height : α → Nat}
  {around : α → Value} {runs : List Run} {j : Journal}

theorem done {v : α} (h : History d context v₀ runs (around v)) (hvisits : visits v = []) :
    (Work.done v j).LogsVisits d context v₀ depth visits height around runs j :=
  ⟨[], by rwa [List.flatMap_nil, List.append_nil], (List.append_nil _).symm,
    fun _ hs => absurd hs List.not_mem_nil, hvisits.symm, fun _ hs => absurd hs List.not_mem_nil⟩

theorem exhausted {v : α} (h : History d context v₀ runs (around v)) (hdeep : depth < height v) :
    (Work.halt .exhausted v j).LogsVisits d context v₀ depth visits height around runs j :=
  ⟨[], by rwa [List.flatMap_nil, List.append_nil], (List.append_nil _).symm,
    fun _ hs => absurd hs List.not_mem_nil, List.nil_prefix,
    Or.inl ⟨rfl, hdeep, fun _ hs => absurd hs List.not_mem_nil⟩⟩

/-- Work may be a single visit. -/
theorem single {s : VisitLog} {w : Work α} (hfaithful : s.Faithful d)
    (hhistory : History d context v₀ (runs ++ s.runs) (around w.value))
    (htold : w.journal.events = j.events ++ s.log)
    (hends : VisitLog.Ends d context (visits w.value) (depth < height w.value) [s] w.result) :
    w.LogsVisits d context v₀ depth visits height around runs j :=
  ⟨[s], by rwa [List.flatMap_singleton], by rwa [List.flatMap_singleton],
    List.forall_mem_singleton.2 hfaithful, hends⟩

theorem map {w : Work β} {f : β → α}
    (h : w.LogsVisits d context v₀ depth (fun x => visits (f x)) (fun x => height (f x))
      (fun x => around (f x)) runs j) :
    (w.map f).LogsVisits d context v₀ depth visits height around runs j :=
  h

/-- A record lies one higher than what is in it. -/
theorem succ {w : Work α} (h : w.LogsVisits d context v₀ depth visits height around runs j) :
    w.LogsVisits d context v₀ (depth + 1) visits (fun x => height x + 1) around runs j := by
  obtain ⟨logs, hhistory, hevents, hfaithful, hends⟩ := h
  exact ⟨logs, hhistory, hevents, hfaithful, hends.imp Nat.succ_lt_succ⟩

/-- The visits in the first value of a row and those in the others make a row of visits. -/
theorem cons {vs : List Value} {w : Work Value}
    {rest : Value → Journal → Work (List Value)} {first : Value → List Visit}
    {others : List Value → List Visit} {around : List Value → Value}
    (h : w.LogsVisits d context v₀ depth first (fun x => x.shape.height) (fun x => around (x :: vs))
      runs j)
    (hrest : ∀ x k runs, History d context v₀ runs (around (x :: vs)) →
      (rest x k).LogsVisits d context v₀ depth others (fun xs => Shape.heightOf (Value.shapes xs))
        (fun xs => around (x :: xs)) runs k)
    {visits : List Value → List Visit} (hvisits : ∀ x xs, visits (x :: xs) = first x ++ others xs) :
    (w.andThen (· :: vs) fun x k => (rest x k).map (x :: ·)).LogsVisits d context v₀ depth visits
      (fun xs => Shape.heightOf (Value.shapes xs)) around runs j := by
  obtain ⟨logs, hhistory, hevents, hfaithful, hends⟩ := h
  rcases w.done_or_halt with ⟨x, k, rfl⟩ | ⟨e, x, k, rfl⟩
  · obtain ⟨hall, hcompleted⟩ := hends
    obtain ⟨logs', hhistory', hevents', hfaithful', hends'⟩ := hrest x k _ hhistory
    rw [Work.andThen_done]
    refine ⟨logs ++ logs', ?_, ?_, List.forall_mem_append.2 ⟨hfaithful, hfaithful'⟩, ?_⟩
    · rw [List.flatMap_append, ← List.append_assoc]
      exact hhistory'
    · rw [List.flatMap_append, ← List.append_assoc]
      exact hevents'.trans (congrArg (· ++ _) hevents)
    · have hsplit := hvisits x (rest x k).value
      show VisitLog.Ends d context (visits (x :: (rest x k).value)) _ _ _
      rw [hsplit]
      refine (hends'.after hall hcompleted).imp fun hdeep => ?_
      exact Nat.lt_of_lt_of_le hdeep (Nat.le_max_right _ _)
  · rw [Work.andThen_halt]
    refine ⟨logs, hhistory, hevents, hfaithful, ?_⟩
    show VisitLog.Ends d context (visits (x :: vs)) _ _ _
    rw [hvisits]
    exact (hends.cut _).imp fun hdeep => Nat.lt_of_lt_of_le hdeep (Nat.le_max_left _ _)

end Work.LogsVisits

namespace Nested

/-- Going over a row is a row of visits, if the work on each of its values is one. -/
theorem row_logsVisits {depth : Nat} {path : Path} {step : Nat → Step}
    {work : Nat → (Value → Value) → Value → Journal → Work Value}
    {visits : Nat → Value → List Visit} (visitsOf : Nat → List Value → List Visit)
    (hnil : ∀ i, visitsOf i [] = [])
    (hcons : ∀ i x xs, visitsOf i (x :: xs) = visits i x ++ visitsOf (i + 1) xs)
    (hwork : ∀ i around v j runs, Hole (path ++ [step i]) around →
      History d context v₀ runs (around v) →
      (work i around v j).LogsVisits d context v₀ depth (visits i) (fun x => x.shape.height) around
        runs j)
    (i : Nat) (around : List Value → Value) (hole : RowHole path step i around) (vs : List Value)
    (j : Journal) {runs : List Run} (hhistory : History d context v₀ runs (around vs)) :
    (row work i around vs j).LogsVisits d context v₀ depth (visitsOf i)
      (fun xs => Shape.heightOf (Value.shapes xs)) around runs j := by
  induction vs generalizing i around j runs with
  | nil => exact .done hhistory (hnil i)
  | cons v vs ih =>
    refine (hwork i (fun x => around (x :: vs)) v j runs (hole.head vs) hhistory).cons ?_ (hcons i)
    intro x k runs' hhistory'
    exact ih (i + 1) (fun xs => around (x :: xs)) (hole.tail x) k hhistory'

section Entering

variable {schema : Schema} {depth : Nat} {go : Enter}
  (hgo : ∀ path around v j runs, Hole path around → v.kind = .record →
    History d context v₀ runs (around v) →
    (go path around v j).LogsVisits d context v₀ depth (fun x => x.shape.visits schema path)
      (fun x => x.shape.height) around runs j)

include hgo

theorem ifRecord_logsVisits {path : Path} {around : Value → Value} (hole : Hole path around)
    (v : Value) (j : Journal) {runs : List Run} (hhistory : History d context v₀ runs (around v)) :
    (ifRecord go path around v j).LogsVisits d context v₀ depth
      (fun x => x.shape.visits schema path) (fun x => x.shape.height) around runs j := by
  unfold ifRecord
  split
  · rename_i hkind
    exact hgo path around v j runs hole hkind hhistory
  · rename_i hkind
    refine .done hhistory ?_
    cases v with
    | record name vs => exact absurd rfl hkind
    | _ => rfl

/-- The items of a sequence are gone through. -/
theorem items_logsVisits {path : Path} {around : List Value → Value}
    (hole : RowHole path .index 0 around) (vs : List Value) (j : Journal) {runs : List Run}
    (hhistory : History d context v₀ runs (around vs)) :
    (row (fun i => ifRecord go (path ++ [.index i])) 0 around vs j).LogsVisits d context v₀ depth
      (fun xs => Shape.visitsOfItems schema path 0 (Value.shapes xs))
      (fun xs => Shape.heightOf (Value.shapes xs)) around runs j :=
  row_logsVisits (fun i xs => Shape.visitsOfItems schema path i (Value.shapes xs))
    (fun _ => rfl) (fun _ _ _ => rfl)
    (fun _ _ v j _ hole hhistory => ifRecord_logsVisits hgo hole v j hhistory) 0 around hole vs j
    hhistory

variable (houtline : ∀ path around v j, (go path around v j).value.outline = v.outline)

include houtline

theorem descend_logsVisits {path : Path} {around : Value → Value} (hole : Hole path around)
    (v : Value) (j : Journal) {runs : List Run} (hhistory : History d context v₀ runs (around v)) :
    (descend go path around v j).LogsVisits d context v₀ depth
      (fun x => x.shape.inside schema path) (fun x => x.shape.height) around runs j := by
  cases v with
  | record name vs =>
    -- a record that was entered is a record still
    obtain ⟨xs, hxs⟩ := Value.outline_eq_record (houtline path around (.record name vs) j)
    obtain ⟨logs, hhistory', hevents, hfaithful, hends⟩ :=
      hgo path around _ j runs hole rfl hhistory
    refine ⟨logs, hhistory', hevents, hfaithful, ?_⟩
    have hinside : (go path around (.record name vs) j).value.shape.inside schema path =
        (go path around (.record name vs) j).value.shape.visits schema path := by
      rw [hxs]
      exact Shape.inside_record path name (Value.shapes xs)
    simp only [← hinside] at hends
    exact hends
  | present v => exact (ifRecord_logsVisits hgo hole.present v j hhistory).map
  | owned v => exact (ifRecord_logsVisits hgo hole.owned v j hhistory).map
  | list t vs => exact (items_logsVisits hgo (hole.list t) vs j hhistory).map
  | array t vs => exact (items_logsVisits hgo (hole.array t) vs j hhistory).map
  | _ => exact .done hhistory rfl

/-- First the tags of the field are obeyed, and then come the visits in the value that this leaves.
-/
theorem visit_logsVisits (p : Place) (hole : Hole p.path p.around) (v : Value) (j : Journal)
    {runs : List Run} (hhistory : History d context v₀ runs (p.around v)) :
    (visit (d.rules context).obey go p v j).LogsVisits d context v₀ depth
      (fun x => (⟨p.path, p.index, p.field⟩ : Visit).andInside (x.shape.inside schema p.path))
      (fun x => x.shape.height) p.around runs j := by
  obtain ⟨more, events, hruns, hlogged, hends⟩ :=
    obeyAll_logsRuns p hole (Tag.ofRow p.field.row) v j hhistory
  let entry (leftOut : Bool) : VisitLog := ⟨⟨p.path, p.index, p.field⟩, more, events, leftOut⟩
  have hfaithful (leftOut : Bool) (h : leftOut = true ↔
      (∃ t ∈ Tag.ofRow p.field.row, t.isStop = true) ∧ (entry leftOut).Completed d) :
      (entry leftOut).Faithful d :=
    ⟨hlogged.calls, hlogged.here, hends.initial, hlogged.remarks, h⟩
  show ((obeyAll (d.rules context).obey p (Tag.ofRow p.field.row) v j).andThen id fun v j =>
    if (Tag.ofRow p.field.row).any Tag.isStop then .done v (j.note [.suppressed p.field.name])
    else descend go p.path p.around v j).LogsVisits d context v₀ depth _ _ p.around runs j
  rcases (obeyAll (d.rules context).obey p (Tag.ofRow p.field.row) v j).done_or_halt with
    ⟨x, k, hw⟩ | ⟨e, x, k, hw⟩
  · rw [hw] at hruns hlogged hends ⊢
    rw [Work.andThen_done]
    have htold : k.events = j.events ++ events := hlogged.told
    cases hstop : (Tag.ofRow p.field.row).any Tag.isStop with
    | true =>
      -- the value is left out, so this visit is all
      have hany := List.any_eq_true.1 hstop
      refine .single (hfaithful true ⟨fun _ => ⟨hany, hends⟩, fun _ => rfl⟩) hruns ?_
        ⟨?_, List.forall_mem_singleton.2 hends⟩
      · show k.events ++ [.suppressed p.field.name] = _
        rw [htold, List.append_assoc]
        rfl
      · show [_] = (⟨p.path, p.index, p.field⟩ : Visit).andInside _
        rw [Visit.andInside, if_pos hstop]
    | false =>
      have hnone : ¬ ∃ t ∈ Tag.ofRow p.field.row, t.isStop = true := by
        rw [← List.any_eq_true, hstop]
        nofun
      -- the other visits are in the value as the handlers of this field left it
      obtain ⟨logs, hhistory', hevents, hfaithful', hends'⟩ :=
        descend_logsVisits hgo houtline hole x k hruns
      refine ⟨entry false :: logs, ?_, ?_, ?_, ?_⟩
      · rw [List.flatMap_cons, ← List.append_assoc]
        exact hhistory'
      · have hlog : (entry false).log = events := List.append_nil events
        rw [if_neg Bool.false_ne_true, hevents, htold, List.flatMap_cons, hlog, List.append_assoc]
      · have hopen := hfaithful false ⟨nofun, fun h => absurd h.1 hnone⟩
        exact List.forall_mem_cons.2 ⟨hopen, hfaithful'⟩
      · have hinside (inside : List Visit) :
            (⟨p.path, p.index, p.field⟩ : Visit).andInside inside =
              [(entry false).visit] ++ inside := by
          rw [Visit.andInside, hstop]
          rfl
        have hall :
            VisitLog.Ends d context ([(entry false).visit] ++ _) _ ([entry false] ++ logs) _ :=
          hends'.after rfl (List.forall_mem_singleton.2 hends)
        rwa [← hinside] at hall
  · rw [hw] at hruns hlogged hends ⊢
    rw [Work.andThen_halt]
    -- not all handlers came to a good end, so nothing is told of a value that is left out
    have hnot : ¬ (entry false).Completed d := Interrupted.not_obeyed hends
    refine .single (hfaithful false ⟨nofun, fun h => absurd h.2 hnot⟩) hruns ?_ ⟨?_,
      Or.inr ⟨[], entry false, rfl, fun _ hs => absurd hs List.not_mem_nil, hends⟩⟩
    · exact hlogged.told.trans (congrArg (j.events ++ ·) (List.append_nil events).symm)
    · exact Visit.singleton_prefix_andInside _ _

/-- Of the fields of a record those are visited that are exported. -/
theorem member_logsVisits (fields : List Field) (path : Path) (i : Nat) {around : Value → Value}
    (hole : Hole (path ++ [.field i]) around) (v : Value) (j : Journal) {runs : List Run}
    (hhistory : History d context v₀ runs (around v)) :
    (member (d.rules context).obey go fields path i around v j).LogsVisits d context v₀ depth
      (fun x => Visit.member fields path i fun path => x.shape.inside schema path)
      (fun x => x.shape.height) around runs j := by
  unfold member Visit.member
  cases fields[i]? with
  | none => exact .done hhistory rfl
  | some f =>
    cases hexported : f.exported with
    | true =>
      simp only [hexported, if_true]
      exact visit_logsVisits hgo houtline ⟨path ++ [.field i], i, f, around⟩ hole v j hhistory
    | false =>
      simp only [hexported, Bool.false_eq_true, if_false]
      exact .done hhistory rfl

end Entering

/-- The walk of a record is a row of visits. -/
theorem enter_logsVisits (schema : Schema) (depth : Nat) (path : Path) (around : Value → Value)
    (v : Value) (j : Journal) (runs : List Run) (hole : Hole path around)
    (hrecord : v.kind = .record) (hhistory : History d context v₀ runs (around v)) :
    (enter (d.rules context).obey schema depth path around v j).LogsVisits d context v₀ depth
      (fun x => x.shape.visits schema path) (fun x => x.shape.height) around runs j := by
  induction depth generalizing path around v j runs with
  | zero =>
    cases v with
    | record name vs => exact .exhausted hhistory (Nat.succ_pos _)
    | _ => cases hrecord
  | succ depth ih =>
    cases v with
    | record name vs =>
      have hfields := row_logsVisits
        (fun i xs => Shape.visitsOfFields schema path (schema.fields name) i (Value.shapes xs))
        (fun _ => rfl) (fun _ _ _ => rfl)
        (fun i _ v j _ hole hhistory => member_logsVisits ih
          (outline_enter (d.rules context).obey schema depth) (schema.fields name) path i hole v j
          hhistory)
        0 (fun xs => around (.record name xs)) (hole.record name) vs j hhistory
      exact hfields.succ.map
    | _ => cases hrecord

end Nested

end Recounting

/-! ## Whole walks -/

/-- Every field that is visited is exported. -/
theorem Shape.exported_of_mem_inside {schema : Schema} {s : Shape} {path : Path} {o : Visit}
    (h : o ∈ s.inside schema path) : o.field.exported = true := by
  induction s using Shape.induct generalizing path with
  | parts s ih =>
    rcases mem_inside_iff.1 h with h | ⟨step, c, -, hc, h⟩
    · obtain ⟨name, ss, i, c, f, rfl, hc, -, hexported, rfl | ⟨-, ho⟩⟩ := mem_visits_iff.1 h
      · exact hexported
      · exact ih (.field i) c hc ho
    · exact ih step c hc (mem_inside_of_mem_visits h)

/-- A walk of a record told visit by visit. -/
structure Walked.LogsVisits (d : Dispatcher) (schema : Schema) (context : Context) (depth : Nat)
    (v : Value) (walked : Walked) (logs : List VisitLog) : Prop where
  /-- Nothing else is told. -/
  events : walked.events = .walking v.typeName :: logs.flatMap VisitLog.log
  /-- Nothing else is done. -/
  history : History d context v (logs.flatMap VisitLog.runs) walked.value
  faithful : ∀ s ∈ logs, s.Faithful d
  /-- What is to be visited is seen from the value that is left. -/
  ends : VisitLog.Ends d context (walked.value.shape.visits schema [])
    (depth < walked.value.shape.height) logs walked.result
  exported : ∀ s ∈ logs, s.visit.field.exported = true
  /-- No field is visited twice. -/
  order : logs.Pairwise fun s s' => s.visit.path.Before s'.visit.path

theorem VisitLog.calls_log {d : Dispatcher} {s : VisitLog} (hs : s.Faithful d) :
    calls s.log = s.runs.map Run.call := by
  rw [log, calls_append, hs.calls]
  cases s.leftOut <;> exact List.append_nil _

/-- The calls that are told of are those of the runs. -/
theorem Walked.LogsVisits.calls_eq {d : Dispatcher} {schema : Schema} {context : Context}
    {depth : Nat} {v : Value} {walked : Walked} {logs : List VisitLog}
    (h : walked.LogsVisits d schema context depth v logs) :
    calls walked.events = (logs.flatMap VisitLog.runs).map Run.call := by
  have hlog : ∀ ss : List VisitLog, (∀ s ∈ ss, s.Faithful d) →
      calls (ss.flatMap VisitLog.log) = (ss.flatMap VisitLog.runs).map Run.call := by
    intro ss hss
    induction ss with
    | nil => rfl
    | cons s ss ih =>
      obtain ⟨hs, hrest⟩ := List.forall_mem_cons.1 hss
      rw [List.flatMap_cons, List.flatMap_cons, calls_append, List.map_append, s.calls_log hs,
        ih hrest]
  rw [h.events]
  exact hlog logs h.faithful

section Walks

variable (d : Dispatcher) (schema : Schema) (context : Context) (depth : Nat)

/-- The walk of a record is a row of visits. -/
theorem Dispatcher.exists_visitLogs {v : Value} (hrecord : v.kind = .record) :
    ∃ logs,
      (d.walkRecord schema context depth v).LogsVisits d schema context depth v logs := by
  have hstart : History d context v [] (id v) := .nil
  obtain ⟨logs, hhistory, hevents, hfaithful, hends⟩ :=
    Nested.enter_logsVisits schema depth [] id v ⟨d.memo, [.walking v.typeName]⟩ [] .top hrecord
      hstart
  rw [d.walkRecord_eq_nested]
  have hvisits := hends.initial
  refine ⟨logs, hevents, hhistory, hfaithful, hends, ?_, ?_⟩
  · intro s hs
    have hvisit := hvisits.subset (List.mem_map_of_mem hs)
    exact Shape.exported_of_mem_inside (Shape.mem_inside_of_mem_visits hvisit)
  · have hpairwise := (Shape.pairwise_visits _ []).sublist hvisits.sublist
    rwa [List.pairwise_map] at hpairwise

/-- The walk of any value tells of the walk of a record, the value itself or what it points at, or
of nothing if there is no such record. -/
theorem Dispatcher.walk_events (v : Value) :
    let walked := d.walk schema context depth v
    (walked.events = [] ∧ ∀ p, p = v ∨ v.pointee? = some p → p.kind ≠ .record) ∨
      ∃ p, (p = v ∨ v.pointee? = some p) ∧ p.kind = .record ∧
        walked.events = (d.walkRecord schema context depth p).events ∧
        walked.result = (d.walkRecord schema context depth p).result := by
  have hpointee (p : Value) (whole : Value → Value) :
      let walked := Nested.walkPointee (d.rules context) d.memo schema depth whole p
      (walked.events = [] ∧ p.kind ≠ .record) ∨ p.kind = .record ∧
        walked.events = (d.walkRecord schema context depth p).events ∧
        walked.result = (d.walkRecord schema context depth p).result := by
    rw [d.walkRecord_eq_nested]
    cases p with
    | record name vs => exact Or.inr ⟨rfl, rfl, rfl⟩
    | _ => exact Or.inl ⟨rfl, nofun⟩
  -- a pointer is no record, so all hangs on what it points at
  have hpointer {p whole : Value} (hkind : whole.kind ≠ .record) (hp : whole.pointee? = some p)
      (hnone : p.kind ≠ .record) : ∀ q, q = whole ∨ whole.pointee? = some q → q.kind ≠ .record := by
    rintro q (rfl | hq)
    · exact hkind
    · rw [hp] at hq
      obtain rfl := Option.some.inj hq
      exact hnone
  intro walked
  simp only [walked, d.walk_eq_nested]
  cases v with
  | record name vs =>
    refine Or.inr ⟨.record name vs, Or.inl rfl, rfl, ?_⟩
    rw [d.walkRecord_eq_nested]
    exact ⟨rfl, rfl⟩
  | present p =>
    exact (hpointee p .present).imp (fun h => ⟨h.1, hpointer nofun rfl h.2⟩)
      fun h => ⟨p, Or.inr rfl, h⟩
  | owned p =>
    exact (hpointee p .owned).imp (fun h => ⟨h.1, hpointer nofun rfl h.2⟩)
      fun h => ⟨p, Or.inr rfl, h⟩
  | _ =>
    refine Or.inl ⟨rfl, ?_⟩
    rintro q (rfl | hq)
    · exact nofun
    · cases hq

end Walks

end FieldNotes
