import FieldNotes.Proofs.Annotations
import FieldNotes.Proofs.FieldVisits
import FieldNotes.Proofs.Termination

/-! # Walks go by their plan

While handlers leave the shapes of values alone, a walk does what was planned before it began,
whatever the scalars are.

* `Run.Quiet`: a run that came to a good end and left the shape of its value.
* `VisitLog.course_of_completed`, `VisitLog.course_of_unread`: on a visit the duties of the field
  are done, up to a tag that cannot be read.
* `Dispatcher.course_walkRecord`: so it is with the duties of a whole plan.
* `Dispatcher.walk_by_plan`: two walks of records of one shape go the same way, that of the plan.
-/

namespace FieldNotes

/-! ## Quiet runs -/

/-- A run came to a good end, and what it left has the shape of what it found. -/
structure Run.Quiet (r : Run) : Prop where
  done : r.Done
  shape : ∀ v, r.root.get? r.call.path = some v → r.effect.value.shape = v.shape

theorem Run.Quiet.shape_left {r : Run} (h : r.Quiet) : r.left.shape = r.root.shape := by
  cases hv : r.root.get? r.call.path with
  | some v => exact Value.shape_put hv (h.shape v hv)
  | none =>
    have hset : r.root.set? r.call.path r.effect.value = none := by
      rw [← Option.isNone_iff_eq_none, ← Option.not_isSome, Value.set?_isSome, hv]
      rfl
    rw [Run.left, Value.put, hset, Option.getD_none]

/-- Quiet runs leave the shape of the root. -/
theorem History.shape_eq {d : Dispatcher} {context : Context} {v root : Value} {runs : List Run}
    (h : History d context v runs root) (hquiet : ∀ r ∈ runs, r.Quiet) : root.shape = v.shape := by
  induction h with
  | nil => rfl
  | snoc _ _ ih =>
    obtain ⟨hearlier, hlast⟩ := List.forall_mem_append.1 hquiet
    exact (hlast _ (List.mem_singleton_self _)).shape_left.trans (ih hearlier)

/-! ## Duties that were done -/

/-- Duties that come to calls are done. -/
theorem Duty.course_of_calls {us : List Duty} {cs : List Call}
    (h : us.map Duty.call = cs.map .ok) : course us = ⟨cs, .ok ()⟩ := by
  induction us generalizing cs with
  | nil =>
    cases cs with
    | nil => rfl
    | cons c cs => cases h
  | cons u us ih =>
    cases cs with
    | nil => cases h
    | cons c cs =>
      obtain ⟨hu, hus⟩ := List.cons.inj h
      simp only [course, hu, ih hus]

section Duties

variable {d : Dispatcher}

/-- The duties on a visit are those for the tags that a handler is to be run for. -/
theorem Visit.map_tag_duties (o : Visit) :
    (o.duties d).map Duty.tag = d.heeded o.field.row := by
  have h (ts : List Tag) (place : Nat) :
      ((ts.zipIdx place).filterMap fun p => o.duty? d p.1 p.2).map Duty.tag =
        ts.filter fun t => !t.isStop && d.contains t.name := by
    induction ts generalizing place with
    | nil => rfl
    | cons t ts ih =>
      rw [List.zipIdx_cons, List.filterMap_cons, List.filter_cons]
      cases hstop : t.isStop with
      | true =>
        have hduty : o.duty? d t place = none := by rw [duty?, hstop, if_pos rfl]
        simp [hduty, ih]
      | false =>
        cases hh : d.handler? t.name with
        | none =>
          have hduty : o.duty? d t place = none := by rw [duty?, hh, Option.map_none, ite_self]
          have hunbound : d.contains t.name = false := by rw [Dispatcher.contains, hh]; rfl
          simp [hduty, hunbound, ih]
        | some h =>
          have hduty : o.duty? d t place = some ⟨o, place, t, h⟩ :=
            duty?_eq_some_iff.2 ⟨hstop, rfl, rfl, rfl, hh⟩
          have hbound : d.contains t.name = true := by rw [Dispatcher.contains, hh]; rfl
          simp [hduty, hbound, ih]
  exact h _ 0

/-- A run was given what the handler bound to the name of its tag reads. -/
def Run.Gives (d : Dispatcher) (r : Run) : Prop :=
  ∃ h, d.handler? r.call.handler = some h ∧ (h.readTag r.tag).1 = .ok r.call.arg

namespace VisitLog

variable {s : VisitLog} (hs : s.Faithful d) (hgives : ∀ r ∈ s.runs, r.Gives d)

include hs hgives

/-- A duty comes to the call of a run for its tag. -/
theorem call_eq {u : Duty} (hu : u ∈ s.visit.duties d) {r : Run} (hr : r ∈ s.runs)
    (htag : u.tag = r.tag) : u.call = .ok r.call := by
  obtain ⟨hvisit, -, -, hh⟩ := Visit.mem_duties_iff.1 hu
  obtain ⟨h, hh', hread⟩ := hgives r hr
  obtain ⟨hpath, hindex, hfield⟩ := hs.here r hr
  rw [htag] at hh
  rcases Option.some.inj (hh.symm.trans hh') with heq
  rw [Duty.call, heq, htag, hread, hvisit]
  refine congrArg Except.ok ?_
  rw [← hpath, ← hindex, ← hfield]
  rfl

/-- The first duties come to the calls of the runs, and the others are for the other tags. -/
theorem duties_split {rest : List Tag}
    (htags : d.heeded s.visit.field.row = s.runs.map Run.tag ++ rest) :
    ∃ done later, s.visit.duties d = done ++ later ∧
      done.map Duty.call = (s.runs.map Run.call).map .ok ∧ later.map Duty.tag = rest := by
  rw [← Visit.map_tag_duties] at htags
  obtain ⟨done, later, hduties, hdone, hlater⟩ := List.map_eq_append_iff.1 htags
  refine ⟨done, later, hduties, ?_, hlater⟩
  have hcalls (us : List Duty) (runs : List Run) (hus : ∀ u ∈ us, u ∈ s.visit.duties d)
      (hruns : ∀ r ∈ runs, r ∈ s.runs)
      (htags : us.map Duty.tag = runs.map Run.tag) :
      us.map Duty.call = (runs.map Run.call).map .ok := by
    induction us generalizing runs with
    | nil =>
      cases runs with
      | nil => rfl
      | cons r runs => cases htags
    | cons u us ih =>
      cases runs with
      | nil => cases htags
      | cons r runs =>
        obtain ⟨hu, hus'⟩ := List.forall_mem_cons.1 hus
        obtain ⟨hr, hruns'⟩ := List.forall_mem_cons.1 hruns
        obtain ⟨htag, htags'⟩ := List.cons.inj htags
        rw [List.map_cons, List.map_cons, List.map_cons, call_eq hs hgives hu hr htag,
          ih runs hus' hruns' htags']
  exact hcalls done s.runs (fun u hu => hduties ▸ List.mem_append_left _ hu) (fun _ hr => hr) hdone

/-- If all went well, all duties were done. -/
theorem course_of_completed (hcompleted : s.Completed d) :
    Duty.course (s.visit.duties d) = ⟨s.runs.map Run.call, .ok ()⟩ := by
  obtain ⟨done, later, hduties, hcalls, hlater⟩ :=
    duties_split hs hgives (hcompleted.ran.symm.trans (List.append_nil _).symm)
  rw [hduties, List.map_eq_nil_iff.1 hlater, List.append_nil]
  exact Duty.course_of_calls hcalls

/-- If a tag could not be read, the duties before it were done. -/
theorem course_of_unread {t : Tag} {rest : List Tag} {handler : Handler} {f : Fault}
    (htags : d.heeded s.visit.field.row = s.runs.map Run.tag ++ t :: rest)
    (hh : d.handler? t.name = some handler) (hread : (handler.readTag t).1 = .error f) :
    Duty.course (s.visit.duties d) = ⟨s.runs.map Run.call, .error (.faulted f)⟩ := by
  obtain ⟨done, later, hduties, hcalls, hlater⟩ := duties_split hs hgives htags
  obtain ⟨u, later', rfl, rfl, -⟩ := List.map_eq_cons_iff.1 hlater
  have hu : u ∈ s.visit.duties d := hduties ▸ List.mem_append_right _ List.mem_cons_self
  obtain ⟨-, -, -, hh'⟩ := Visit.mem_duties_iff.1 hu
  rcases Option.some.inj (hh'.symm.trans hh) with rfl
  have hbroken : u.call = .error f := by rw [Duty.call, hread]
  have hdone := Duty.course_of_calls hcalls
  rw [hduties, Duty.course_append_of_ok (congrArg Duty.Course.result hdone), hdone]
  simp only [Duty.course, hbroken, List.append_nil]

omit hs hgives in
/-- So it is with the duties of a row of visits. -/
theorem course_of_visitLogs {logs : List VisitLog} (hfaithful : ∀ s ∈ logs, s.Faithful d)
    (hgives : ∀ r ∈ logs.flatMap VisitLog.runs, r.Gives d)
    (hcompleted : ∀ s ∈ logs, s.Completed d) :
    Duty.course ((logs.map VisitLog.visit).flatMap (Visit.duties d)) =
      ⟨(logs.flatMap VisitLog.runs).map Run.call, .ok ()⟩ := by
  induction logs with
  | nil => rfl
  | cons s logs ih =>
    obtain ⟨hs, hrest⟩ := List.forall_mem_cons.1 hfaithful
    obtain ⟨hw, hcompleted'⟩ := List.forall_mem_cons.1 hcompleted
    obtain ⟨hg, hgives'⟩ := List.forall_mem_append.1 hgives
    have hfirst := course_of_completed hs hg hw
    rw [List.map_cons, List.flatMap_cons, List.flatMap_cons, List.map_append,
      Duty.course_append_of_ok (congrArg Duty.Course.result hfirst), hfirst,
      ih hrest hgives' hcompleted']

end VisitLog

end Duties

/-! ## Whole walks -/

/-- All runs of a history are real. -/
theorem History.real {d : Dispatcher} {context : Context} {v root : Value} {runs : List Run}
    (h : History d context v runs root) : ∀ r ∈ runs, r.Real d context := by
  induction h with
  | nil => exact fun r hr => absurd hr List.not_mem_nil
  | snoc _ hreal ih => exact List.forall_mem_append.2 ⟨ih, List.forall_mem_singleton.2 hreal⟩

/-- Histories with the same calls are the same. -/
theorem History.unique {d : Dispatcher} {context : Context} {v root root' : Value}
    {runs runs' : List Run} (h : History d context v runs root)
    (h' : History d context v runs' root') (hcalls : runs.map Run.call = runs'.map Run.call) :
    runs = runs' ∧ root = root' := by
  induction h generalizing runs' root' with
  | nil =>
    cases h' with
    | nil => exact ⟨rfl, rfl⟩
    | snoc => simp at hcalls
  | @snoc runs r hruns hreal ih =>
    cases h' with
    | nil => simp at hcalls
    | @snoc runs' r' hruns' hreal' =>
      rw [List.map_append, List.map_append] at hcalls
      obtain ⟨hearlier, hlast⟩ := List.append_inj' hcalls rfl
      obtain ⟨rfl, hroot⟩ := ih hruns' hearlier
      have hcall : r.call = r'.call := (List.cons.inj hlast).1
      obtain ⟨h, value, hh, hvalue, heffect⟩ := hreal
      obtain ⟨h', value', hh', hvalue', heffect'⟩ := hreal'
      -- both runs are of one handler on one value
      rw [hcall] at hh hvalue heffect
      rw [hroot] at hvalue heffect
      rcases Option.some.inj (hh.symm.trans hh') with rfl
      rcases Option.some.inj (hvalue.symm.trans hvalue') with rfl
      have hsame : r = r' := by
        cases r
        cases r'
        simp only [Run.mk.injEq]
        exact ⟨hcall, hroot, heffect.trans heffect'.symm⟩
      rw [hsame]
      exact ⟨rfl, rfl⟩

namespace Dispatcher

/-- In the walk of a record all runs come to a good end and leave the shapes of their values. -/
def Quietly (d : Dispatcher) (schema : Schema) (context : Context) (depth : Nat) (v : Value) :
    Prop :=
  let walked := d.walkRecord schema context depth v
  ∃ runs, History d context v runs walked.value ∧ runs.map Run.call = calls walked.events ∧
    ∀ r ∈ runs, r.Quiet

/-- So it is if all handlers are made like this. -/
theorem quietly_of_handlers {d : Dispatcher}
    (hquiet : ∀ name h, d.handler? name = some h → ∀ site arg,
      (h.run site arg).outcome = .done ∧ (h.run site arg).value.shape = site.value.shape)
    (schema : Schema) (context : Context) (depth : Nat) (v : Value) :
    d.Quietly schema context depth v := by
  obtain ⟨runs, hhistory, hcalls, -⟩ := d.exists_history schema context depth v
  refine ⟨runs, hhistory, hcalls, ?_⟩
  intro r hr
  obtain ⟨h, value, hh, hvalue, heffect⟩ := hhistory.real r hr
  obtain ⟨hdone, hshape⟩ := hquiet _ h hh
    ⟨context, r.root, r.call.path, r.call.index, r.call.field, value⟩ r.call.arg
  constructor
  · rw [Run.Done, heffect]
    exact hdone
  · intro x hx
    rcases Option.some.inj (hvalue.symm.trans hx) with rfl
    rw [heffect]
    exact hshape

/-- If all its runs are quiet, the walk of a record goes by its plan. -/
theorem course_walkRecord {d : Dispatcher} (hkept : d.memo.Kept d.handler?) {schema : Schema}
    {v : Value} (hrecord : v.kind = .record) {depth : Nat} (hdepth : v.shape.height ≤ depth)
    {context : Context} (hquietly : d.Quietly schema context depth v) :
    let walked := d.walkRecord schema context depth v
    Duty.course (d.plan schema v.shape) = ⟨calls walked.events, walked.result⟩ ∧
      walked.value.shape = v.shape := by
  intro walked
  obtain ⟨logs, hlogs⟩ := d.exists_visitLogs schema context depth hrecord
  obtain ⟨runs, hhistory, hcalls, hquiet⟩ := hquietly
  obtain ⟨rfl, -⟩ := hhistory.unique hlogs.history (hcalls.trans hlogs.calls_eq)
  have hshape : walked.value.shape = v.shape := hlogs.history.shape_eq hquiet
  have hgives : ∀ r ∈ logs.flatMap VisitLog.runs, r.Gives d := by
    intro r hr
    have hwalk : d.walk schema context depth v = walked := by
      simp only [walk, hrecord, walked]
    refine walk_gives hkept schema context depth v r.call ?_
    rw [hwalk, ← hcalls]
    exact List.mem_map_of_mem hr
  have hends := hlogs.ends
  refine ⟨?_, hshape⟩
  rw [hshape] at hends
  rw [hlogs.calls_eq]
  cases hresult : walked.result with
  | ok _ =>
    rw [hresult] at hends
    obtain ⟨hvisits, hcompleted⟩ := hends
    rw [plan, ← hvisits]
    exact VisitLog.course_of_visitLogs hlogs.faithful hgives hcompleted
  | error e =>
    rw [hresult] at hends
    obtain ⟨⟨rest, hrest⟩, ⟨-, hdeep, -⟩ | ⟨earlier, last, rfl, hcompleted, hinterrupted⟩⟩ := hends
    · exact absurd hdeep (Nat.not_lt_of_le hdepth)
    · rw [List.flatMap_append, List.flatMap_singleton] at hgives hquiet ⊢
      obtain ⟨hearlier, hlast⟩ := List.forall_mem_append.1 hgives
      obtain ⟨hfaithful, hs⟩ := List.forall_mem_append.1 hlogs.faithful
      have hdone := VisitLog.course_of_visitLogs hfaithful hearlier hcompleted
      -- the last run came to a good end, so the walk ended because of a tag
      obtain ⟨t, more, handler, f, htags, hh, hread, rfl⟩ := hinterrupted.unread_of_done fun r hr =>
        (hquiet r (List.mem_append_right _ hr)).done
      have hunread := VisitLog.course_of_unread (hs last (List.mem_singleton_self last)) hlast htags
        hh hread
      have hcut : Duty.course (last.visit.duties d ++ rest.flatMap (Visit.duties d)) =
          Duty.course (last.visit.duties d) :=
        Duty.course_append_of_error (congrArg Duty.Course.result hunread)
      rw [plan, ← hrest, List.map_append, List.append_assoc, List.flatMap_append,
        Duty.course_append_of_ok (congrArg Duty.Course.result hdone), hdone, List.map_append,
        List.map_singleton, List.singleton_append, List.flatMap_cons, hcut, hunread]

end Dispatcher

/-- What a walk does is seen from the shape of the record that is walked, and not from its scalars.

Take two walks with the same bindings, of records of one shape (`Value.shape_eq_iff`), by which no
handler is made to fail and all leave the shapes of their values.  They make the same calls and end
alike.  The calls are those of the plan, which is made from the shape alone: each duty comes once,
in the order into the depth, and there are no others.  If there is a tag among them that cannot be
read, both walks end there with the fault. -/
theorem Dispatcher.walk_by_plan {d d' : Dispatcher} (hd : d.Reachable) (hd' : d'.Reachable)
    (hbindings : d'.handler? = d.handler?) {schema : Schema} {v v' : Value}
    (hrecord : v.kind = .record) (hshape : v'.shape = v.shape) {depth depth' : Nat}
    (hdepth : v.shape.height ≤ depth) (hdepth' : v.shape.height ≤ depth')
    {context context' : Context} (hquiet : d.Quietly schema context depth v)
    (hquiet' : d'.Quietly schema context' depth' v') :
    let walked := d.walkRecord schema context depth v
    let walked' := d'.walkRecord schema context' depth' v'
    let plan := d.plan schema v.shape
    calls walked'.events = calls walked.events ∧ walked'.result = walked.result ∧
      plan.Pairwise Duty.Before ∧ (∀ u, u ∈ plan ↔ u.Due d schema v) ∧
      ∃ done rest, plan = done ++ rest ∧ done.map Duty.call = (calls walked.events).map .ok ∧
        (rest = [] ∧ walked.result = .ok () ∨ ∃ u later f, rest = u :: later ∧
          u.call = .error f ∧ walked.result = .error (.faulted f)) := by
  intro walked walked' plan
  have hrecord' : v'.kind = .record := by
    cases v with
    | record name vs =>
      obtain ⟨vs', rfl, -⟩ := Value.eq_record_of_shape hshape
      rfl
    | _ => cases hrecord
  have hcourse : Duty.course plan = ⟨calls walked.events, walked.result⟩ :=
    (course_walkRecord hd.kept hrecord hdepth hquiet).1
  have hcourse' : Duty.course plan = ⟨calls walked'.events, walked'.result⟩ := by
    have h := (course_walkRecord hd'.kept hrecord' (hshape ▸ hdepth') hquiet').1
    rwa [hshape, plan_congr hbindings] at h
  obtain ⟨hcalls, hresult⟩ := Duty.Course.mk.inj (hcourse'.symm.trans hcourse)
  refine ⟨hcalls, hresult, d.plan_in_order schema v.shape, fun u => d.mem_plan_iff, ?_⟩
  have hcases := Duty.course_cases plan
  rwa [hcourse] at hcases

/-! ## A store -/

namespace Store

/-- A store has a total, and boxes with prices. -/
def schema : Schema where
  records :=
    [⟨"Store", [⟨⟨"total", true, "raise:\"10\""⟩, .scalar (.int .i64)⟩,
       ⟨⟨"boxes", true, ""⟩, .list (.record "Box")⟩]⟩,
     ⟨"Box", [⟨⟨"price", true, "raise:\"1\" raise:\"1\""⟩, .scalar (.int .i64)⟩]⟩]

/-- Adds to the number that it finds, if it finds one. -/
def raise : Handler where
  parse := Handler.asI64
  run site arg :=
    match arg, site.value with
    | .int n, .scalar (.int .i64 m) => ⟨Samples.int64 (m + n), .done, []⟩
    | _, _ => .keep site .done

def dispatcher : Dispatcher :=
  Dispatcher.empty.bind "raise" raise

def box (price : Int) : Value :=
  .record "Box" [.scalar (.int .i64 price)]

def store (total : Int) (boxes : List Value) : Value :=
  .record "Store" [.scalar (.int .i64 total), .list (.record "Box") boxes]

theorem reachable : dispatcher.Reachable :=
  ⟨dispatcher.bindings, none, [], rfl⟩

theorem quiet_raise (site : Site) (arg : Arg) :
    (raise.run site arg).outcome = .done ∧ (raise.run site arg).value.shape = site.value.shape := by
  simp only [raise]
  split
  · rename_i hvalue
    rw [hvalue]
    exact ⟨rfl, rfl⟩
  · exact ⟨rfl, rfl⟩

theorem quietly (context : Context) (v : Value) : dispatcher.Quietly schema context 2 v := by
  refine Dispatcher.quietly_of_handlers ?_ schema context 2 v
  intro name h hh
  have hlookup : (Dispatcher.empty.bind "raise" raise).handler? name = some h := hh
  rw [Dispatcher.find?_bind] at hlookup
  split at hlookup
  · rcases Option.some.inj hlookup with rfl
    exact quiet_raise
  · cases hlookup

end Store

/-- Two stores with two boxes each are walked alike, whatever is in them costs. -/
theorem Dispatcher.walk_stores_by_plan :
    let v := Store.store 3 [Store.box 1, Store.box 2]
    let v' := Store.store 11 [Store.box 7, Store.box 4]
    let walked := Store.dispatcher.walkRecord Store.schema .unit 2 v
    let walked' := Store.dispatcher.walkRecord Store.schema (.int 5) 2 v'
    Store.dispatcher.Reachable ∧ v.kind = .record ∧ v'.shape = v.shape ∧ v.shape.height ≤ 2 ∧
      Store.dispatcher.Quietly Store.schema .unit 2 v ∧
      Store.dispatcher.Quietly Store.schema (.int 5) 2 v' ∧
      (Store.dispatcher.plan Store.schema v.shape).map (fun u => (u.visit.path, u.place)) =
        [([.field 0], 0), ([.field 1, .index 0, .field 0], 0), ([.field 1, .index 0, .field 0], 1),
          ([.field 1, .index 1, .field 0], 0), ([.field 1, .index 1, .field 0], 1)] ∧
      calls walked'.events = calls walked.events ∧ walked'.result = walked.result := by
  intro v v' walked walked'
  have hheight : v.shape.height ≤ 2 := by decide
  have hrecord : v.kind = .record := rfl
  have hshape : v'.shape = v.shape := rfl
  have hquiet := Store.quietly .unit v
  have hquiet' := Store.quietly (.int 5) v'
  obtain ⟨hcalls, hresult, -⟩ := Dispatcher.walk_by_plan Store.reachable Store.reachable rfl hrecord
    hshape hheight hheight hquiet hquiet'
  refine ⟨Store.reachable, hrecord, hshape, hheight, hquiet, hquiet', ?_, hcalls, hresult⟩
  decide +kernel

/-! ## A plan that is cut short -/

namespace Smudge

/-- The tag of the first field cannot be read. -/
def schema : Schema where
  records :=
    [⟨"Card", [⟨⟨"front", true, "mute:\"\\q\""⟩, .scalar (.int .i64)⟩,
       ⟨⟨"back", true, "seen:\"b\""⟩, .scalar (.int .i64)⟩]⟩]

def dispatcher : Dispatcher :=
  (Dispatcher.empty.bind "mute" (Samples.counter "c")).bind "seen" (Samples.recorder "r")

def card : Value :=
  .record "Card" [.scalar (.int .i64 0), .scalar (.int .i64 0)]

/-- What is to be done for the first field. -/
def unreadable : Duty :=
  ⟨⟨[.field 0], 0, ⟨"front", true, "mute:\"\\q\""⟩⟩, 0, ⟨"mute", "\"\\q\""⟩,
    Samples.counter "c"⟩

/-- What is to be done for the second field. -/
def duty : Duty :=
  ⟨⟨[.field 1], 1, ⟨"back", true, "seen:\"b\""⟩⟩, 0, ⟨"seen", "\"b\""⟩, Samples.recorder "r"⟩

theorem quiet {name : String} {h : Handler} (hh : dispatcher.handler? name = some h) (site : Site)
    (arg : Arg) :
    (h.run site arg).outcome = .done ∧ (h.run site arg).value.shape = site.value.shape := by
  have hlookup : (Dispatcher.bind (Dispatcher.empty.bind "mute" (Samples.counter "c")) "seen"
      (Samples.recorder "r")).handler? name = some h := hh
  rw [Dispatcher.find?_bind, Dispatcher.find?_bind] at hlookup
  split at hlookup
  · rcases Option.some.inj hlookup with rfl
    exact ⟨rfl, rfl⟩
  · split at hlookup
    · rcases Option.some.inj hlookup with rfl
      exact ⟨rfl, rfl⟩
    · cases hlookup

theorem visits_card : card.shape.visits schema [] = [unreadable.visit, duty.visit] := by
  decide +kernel

theorem plan_card : dispatcher.plan schema card.shape = [unreadable, duty] := by
  have hfront : Tag.ofRow unreadable.visit.field.row = [unreadable.tag] := by decide +kernel
  have hback : Tag.ofRow duty.visit.field.row = [duty.tag] := by decide +kernel
  have hgo : unreadable.tag.isStop = false ∧ duty.tag.isStop = false := by decide +kernel
  simp only [Dispatcher.plan, visits_card, List.flatMap_cons, Visit.duties, hfront, hback,
    List.zipIdx_cons, List.filterMap_cons, Visit.duty?, hgo.1, hgo.2]
  rfl

theorem call_unreadable : unreadable.call = .error (.brokenTag "mute" (.invalidEscape 2)) := by
  decide +kernel

theorem call_duty : duty.call =
    .ok ⟨[.field 1], 1, ⟨"back", true, "seen:\"b\""⟩, ⟨"seen", "\"b\""⟩, .text "b"⟩ := by
  decide +kernel

theorem duty_mem_plan : duty ∈ dispatcher.plan schema card.shape := by
  rw [plan_card]
  exact List.mem_cons_of_mem _ List.mem_cons_self

end Smudge

/-- A walk need not do all that is due, though its handlers are as well-behaved as can be: it ends
at a tag that cannot be read. -/
theorem Dispatcher.walk_cut_short :
    let walked := Smudge.dispatcher.walkRecord Smudge.schema .unit 1 Smudge.card
    Smudge.card.kind = .record ∧
      (∀ name h, Smudge.dispatcher.handler? name = some h → ∀ site arg,
        (h.run site arg).outcome = .done ∧ (h.run site arg).value.shape = site.value.shape) ∧
      Smudge.dispatcher.Quietly Smudge.schema .unit 1 Smudge.card ∧
      Smudge.duty.Due Smudge.dispatcher Smudge.schema Smudge.card ∧
      Smudge.duty.call = .ok ⟨[.field 1], 1, ⟨"back", true, "seen:\"b\""⟩, ⟨"seen", "\"b\""⟩,
        .text "b"⟩ ∧
      calls walked.events = [] ∧
      walked.result = .error (.faulted (.brokenTag "mute" (.invalidEscape 2))) := by
  intro walked
  have hquiet : Smudge.dispatcher.Quietly Smudge.schema .unit 1 Smudge.card :=
    quietly_of_handlers (fun _ _ hh => Smudge.quiet hh) Smudge.schema .unit 1 Smudge.card
  have hcourse : Duty.course (Smudge.dispatcher.plan Smudge.schema Smudge.card.shape) =
      ⟨calls walked.events, walked.result⟩ :=
    (course_walkRecord Memo.Kept.nil rfl (by decide) hquiet).1
  have hcut : Duty.course (Smudge.dispatcher.plan Smudge.schema Smudge.card.shape) =
      ⟨[], .error (.faulted (.brokenTag "mute" (.invalidEscape 2)))⟩ := by
    rw [Smudge.plan_card]
    simp only [Duty.course, Smudge.call_unreadable]
  obtain ⟨hcalls, hresult⟩ := Duty.Course.mk.inj (hcourse.symm.trans hcut)
  exact ⟨rfl, fun _ _ hh => Smudge.quiet hh, hquiet,
    Dispatcher.mem_plan_iff.1 Smudge.duty_mem_plan, Smudge.call_duty, hcalls, hresult⟩

end FieldNotes
