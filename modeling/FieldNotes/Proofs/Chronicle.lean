import FieldNotes.Proofs.Accounting

/-! # What a log tells

A log grows by whole entries, and each entry goes together with what becomes of the memo.  So the
log can be trusted: what it tells of arguments happened to the memo, and what it tells of runs
happened.

* `Chronicle`: a log and a memo that came about together, entry by entry.
* `Nested.obey_heeds`: what it adds to a log, and to the memo, to obey a tag.
* `Usage.after_chronicle`: such are the log and the memo of any usage.
* `Chronicle.dispatched_eq`, `Chronicle.before_called`, `Chronicle.after_dispatching`: a run of a
  handler is announced, and nothing else is announced as one.
* `Chronicle.after_parsed`, `Chronicle.first_called`: that a text was read is told right before the
  first run for it since its name was last bound or unbound, and at no other time.
-/

namespace FieldNotes

open Walk (Journal)

/-- The entry of a run: what the handler reported before it, what is told of it, and what is
remembered then. -/
inductive RunEntry (m : Memo) (c : Call) : List Report → List Event → Memo → Prop
  /-- The argument was remembered. -/
  | again (hfound : m.find? c.tag = some c.arg) :
      RunEntry m c [] [.dispatching c.field.name c.handler, .called c] m
  /-- The argument was read, and is remembered from now on. -/
  | first (hnone : m.find? c.tag = none) {text : String} (htext : c.tag.text = .ok text)
      (before : List Report) :
      RunEntry m c before [.parsed c.tag text, .dispatching c.field.name c.handler, .called c]
        (m.insert c.tag c.arg)

/-- A log and a memo that came about together. -/
inductive Chronicle : List Event → Memo → Prop
  | nil : Chronicle [] []
  /-- A handler was bound to a name. -/
  | bound {log : List Event} {m : Memo} (h : Chronicle log m) (d : Dispatcher) (name : String) :
      Chronicle (log ++ d.bindEvents name) (m.forget name)
  /-- A name was unbound. -/
  | unbound {log : List Event} {m : Memo} (h : Chronicle log m) (name : String) :
      Chronicle (log ++ [.unregistered name]) (m.forget name)
  /-- A walk began, or left out the value of a field. -/
  | remarked {log : List Event} {m : Memo} (h : Chronicle log m) {e : Event}
      (he : e.isRemark = true) : Chronicle (log ++ [e]) m
  /-- A tag could not be read. -/
  | unread {log : List Event} {m : Memo} (h : Chronicle log m) (reports : List Report) :
      Chronicle (log ++ reports.map .reported) m
  /-- A handler was run, and reported what it liked. -/
  | ran {log : List Event} {m m' : Memo} (h : Chronicle log m) {c : Call} {before : List Report}
      {core : List Event} (hentry : RunEntry m c before core m') (reports : List Report) :
      Chronicle (log ++ (before.map .reported ++ (core ++ reports.map .reported))) m'

/-- A handler reads a tag, or it does not; in any case it may report what it likes. -/
theorem Handler.readTag_cases (h : Handler) (t : Tag) :
    (∃ f, ∃ reports : List Report, h.readTag t = (.error f, reports.map .reported)) ∨
      ∃ text arg, ∃ reports : List Report, t.text = .ok text ∧
        h.readTag t = (.ok arg, reports.map .reported ++ [.parsed t text]) := by
  cases htext : t.text with
  | error e =>
    refine Or.inl ⟨.brokenTag t.name e, [], ?_⟩
    simp only [readTag, htext, List.map_nil]
  | ok text =>
    cases hparse : (h.parse text).result with
    | error e =>
      refine Or.inl ⟨.brokenArgument t.name text e, (h.parse text).reports, ?_⟩
      simp only [readTag, htext, hparse]
    | ok arg =>
      refine Or.inr ⟨text, arg, (h.parse text).reports, rfl, ?_⟩
      simp only [readTag, htext, hparse]

/-- What is asked for is remembered, or cannot be read, or is read. -/
theorem Memo.ask_cases (m : Memo) (h : Handler) (t : Tag) :
    (∃ arg, m.find? t = some arg ∧ m.ask h t = ⟨.ok arg, m, []⟩) ∨
      m.find? t = none ∧
        ((∃ f, ∃ reports : List Report, (h.readTag t).1 = .error f ∧
          m.ask h t = ⟨.error f, m, reports.map .reported⟩) ∨
        ∃ text arg, ∃ reports : List Report, t.text = .ok text ∧ (h.readTag t).1 = .ok arg ∧
          m.ask h t = ⟨.ok arg, m.insert t arg, reports.map .reported ++ [.parsed t text]⟩) := by
  cases hfound : m.find? t with
  | some arg =>
    refine Or.inl ⟨arg, rfl, ?_⟩
    simp only [ask, hfound]
  | none =>
    refine Or.inr ⟨rfl, ?_⟩
    rcases h.readTag_cases t with ⟨f, reports, hread⟩ | ⟨text, arg, reports, htext, hread⟩
    · refine Or.inl ⟨f, reports, by rw [hread], ?_⟩
      rw [ask_of_broken hfound (by rw [hread]), hread]
    · exact Or.inr ⟨text, arg, reports, htext, by rw [hread], ask_of_new hfound hread⟩

/-- What is asked for in vain cannot be read. -/
theorem Memo.broken_of_ask {m : Memo} {h : Handler} {t : Tag} {f : Fault}
    (hf : (m.ask h t).result = .error f) : (h.readTag t).1 = .error f := by
  rcases m.ask_cases h t with ⟨arg, -, hask⟩ | ⟨-, ⟨f', reports, hread, hask⟩ |
    ⟨text, arg, reports, -, -, hask⟩⟩
  · rw [hask] at hf
    cases hf
  · rw [hask] at hf
    cases hf
    exact hread
  · rw [hask] at hf
    cases hf

/-! ## Usages are chronicled -/

/-- How to obey a tag of a field ends, and what becomes of the journal. -/
inductive Walk.Journal.Heeds (d : Dispatcher) (f : Field) (t : Tag) (j : Journal) :
    Except Halt Unit → Journal → Prop
  /-- There is nothing to do. -/
  | idle (h : t.isStop = true ∨ d.handler? t.name = none) : Heeds d f t j (.ok ()) j
  /-- The handler cannot read the tag, and may report so. -/
  | unread {h : Handler} {e : Fault} (hh : d.handler? t.name = some h)
      (hread : (h.readTag t).1 = .error e) (reports : List Report) :
      Heeds d f t j (.error (.faulted e)) (j.note (reports.map .reported))
  /-- The handler is run, with what it reads or what is remembered. -/
  | ran {h : Handler} {c : Call} {before : List Report} {core : List Event} {m : Memo}
      {k : Journal} (hh : d.handler? t.name = some h) (hfield : c.field = f) (htag : c.tag = t)
      (hread : j.memo.find? t = none → (h.readTag t).1 = .ok c.arg)
      (hentry : RunEntry j.memo c before core m) (reports : List Report)
      (hk : k = ⟨m, j.events ++ (before.map .reported ++ (core ++ reports.map .reported))⟩)
      (result : Except Halt Unit) : Heeds d f t j result k

/-- A run is told of when it is announced, when it happens, and by what the handler reports. -/
theorem Nested.Rules.journal_call (r : Rules) (p : Place) (h : Handler) (t : Tag) (arg : Arg)
    (v : Value) (j : Journal) :
    (r.call p h t arg v j).journal =
      j.note ([.dispatching p.field.name t.name, .called ⟨p.path, p.index, p.field, t, arg⟩] ++
        (h.run ⟨r.context, p.around v, p.path, p.index, p.field, v⟩ arg).reports.map .reported) :=
  rfl

theorem Nested.obey_heeds (d : Dispatcher) (context : Context) (p : Nested.Place) (t : Tag)
    (v : Value) (j : Journal) :
    let w := (d.rules context).obey p t v j
    j.Heeds d p.field t w.result w.journal := by
  intro w
  cases hstop : t.isStop with
  | true =>
    have hw : w = .done v j := Rules.obey_of_stop hstop
    rw [hw]
    exact .idle (Or.inl hstop)
  | false =>
    cases hh : d.handler? t.name with
    | none =>
      have hw : w = .done v j := Rules.obey_of_unbound hh
      rw [hw]
      exact .idle (Or.inr hh)
    | some h =>
      have hhandler : (d.rules context).handler? t.name = some h := hh
      have hask : (d.rules context).ask j.memo h t = j.memo.ask h t := rfl
      let call (arg : Arg) : Call := ⟨p.path, p.index, p.field, t, arg⟩
      rcases j.memo.ask_cases h t with ⟨arg, hfound, hasked⟩ | ⟨hnone, ⟨e, reports, hread, hasked⟩ |
        ⟨text, arg, reports, htext, hread, hasked⟩⟩
      · -- the argument is remembered
        have hw : w = _ := Rules.obey_of_read hstop hhandler (by rw [hask, hasked])
        simp only [hw, hask, hasked, List.append_nil]
        have hread : j.memo.find? t = none → (h.readTag t).1 = .ok arg := by
          intro hnone
          cases hfound.symm.trans hnone
        exact .ran hh rfl rfl hread (.again (c := call arg) hfound) _
          ((d.rules context).journal_call p h t arg v j) _
      · have hw : w = _ := Rules.obey_of_unread hstop hhandler (by rw [hask, hasked])
        rw [hw, hask, hasked]
        exact .unread hh hread reports
      · have hw : w = _ := Rules.obey_of_read hstop hhandler (by rw [hask, hasked])
        rw [hw, hask, hasked]
        -- the argument is read, and remembered before the run
        have htold := (d.rules context).journal_call p h t arg v
          ⟨j.memo.insert t arg, j.events ++ (reports.map .reported ++ [.parsed t text])⟩
        rw [Journal.note, List.append_assoc, List.append_assoc] at htold
        have hentry := RunEntry.first (c := call arg) hnone htext reports
        exact .ran hh rfl rfl (fun _ => hread) hentry _ htold _

/-- To obey a tag makes one entry, or none. -/
theorem Walk.Journal.Heeds.chronicle {d : Dispatcher} {f : Field} {t : Tag} {j k : Journal}
    {result : Except Halt Unit} (h : j.Heeds d f t result k) {log : List Event}
    (hj : Chronicle (log ++ j.events) j.memo) : Chronicle (log ++ k.events) k.memo := by
  cases h with
  | idle => exact hj
  | unread _ _ reports =>
    have hentry := hj.unread reports
    rwa [List.append_assoc] at hentry
  | ran _ _ _ _ hentry reports hk =>
    subst hk
    have hran := hj.ran hentry reports
    rwa [List.append_assoc] at hran

theorem Dispatcher.act_chronicle {d : Dispatcher} {log : List Event} (h : Chronicle log d.memo)
    (a : Act) : Chronicle (log ++ (d.act a).events) (d.act a).dispatcher.memo := by
  have hidle : Chronicle (log ++ []) d.memo := by rwa [List.append_nil]
  cases a with
  | register name handler =>
    by_cases hn : name = ""
    · subst hn
      exact hidle
    · rw [act_register hn]
      exact h.bound d name
  | unregister name =>
    cases hc : d.contains name with
    | true =>
      rw [act_unregister_of_contains hc]
      exact h.unbound name
    | false =>
      rw [act_unregister_of_not_contains hc]
      exact hidle
  | setNameTag tag =>
    by_cases ht : tag = some ""
    · subst ht
      exact hidle
    · rw [act_setNameTag ht]
      exact hidle
  | walk schema context depth v =>
    have hwalk := Nested.walk_keeps (I := fun j => Chronicle (log ++ j.events) j.memo)
      (fun p t v j => (Nested.obey_heeds d context p t v j).chronicle) ?_ hidle schema depth v
    · rw [act, d.walk_eq_nested]
      exact hwalk
    · intro e j he hj
      have hentry := hj.remarked he
      rwa [List.append_assoc] at hentry

/-- The log of any usage tells what became of the memo. -/
theorem Usage.after_chronicle (bindings : List (String × Handler)) (nameTag : Option String)
    (acts : List Act) :
    let u := (start bindings nameTag).after acts
    Chronicle u.log u.dispatcher.memo :=
  after_induction (P := fun u => Chronicle u.log u.dispatcher.memo) Chronicle.nil
    (fun _ a h => Dispatcher.act_chronicle h a) acts

/-! ## Entries -/

/-- What an event announces: the field and the name of the handler that is about to be run on it. -/
def Event.dispatched? : Event → Option (String × String)
  | .dispatching field handler => some (field, handler)
  | _ => none

/-- An event among those of a log with an entry added is one of the log, or one of the entry. -/
theorem append_eq_cons_cases {α : Type} {log entry pre post : List α} {e : α}
    (h : log ++ entry = pre ++ e :: post) :
    (∃ more, log = pre ++ e :: more ∧ post = more ++ entry) ∨
      ∃ before, pre = log ++ before ∧ entry = before ++ e :: post := by
  rcases List.append_eq_append_iff.1 h with ⟨before, hpre, hentry⟩ | ⟨more, hlog, hpost⟩
  · exact Or.inr ⟨before, hpre, hentry⟩
  · cases more with
    | nil =>
      rw [List.append_nil] at hlog
      exact Or.inr ⟨[], by rw [hlog, List.append_nil], hpost.symm⟩
    | cons x more =>
      obtain ⟨rfl, htail⟩ := List.cons.inj hpost
      exact Or.inl ⟨more, hlog, htail⟩

/-- Reports that come first are passed over, if something else is looked for. -/
theorem reported_append_eq_cons {reports : List Report} {rest pre post : List Event} {e : Event}
    (he : e.report? = none) (h : reports.map .reported ++ rest = pre ++ e :: post) :
    ∃ before, pre = reports.map .reported ++ before ∧ rest = before ++ e :: post := by
  rcases append_eq_cons_cases h with ⟨more, hreports, -⟩ | h
  · have hmem : e ∈ reports.map Event.reported := by
      rw [hreports]
      exact List.mem_append_right _ List.mem_cons_self
    obtain ⟨r, -, rfl⟩ := List.mem_map.1 hmem
    cases he
  · exact h

/-- Whether an event tells of a run: of the reading before it, of its beginning, or of itself. -/
def Event.isOfRun : Event → Bool
  | .parsed .. | .dispatching .. | .called _ => true
  | _ => false

theorem Event.report?_of_isOfRun {e : Event} (h : e.isOfRun = true) : e.report? = none := by
  cases e <;> first | rfl | cases h

theorem Event.isOfRun_of_mem_bindEvents {d : Dispatcher} {name : String} {e : Event}
    (h : e ∈ d.bindEvents name) : e.isOfRun = false := by
  unfold Dispatcher.bindEvents at h
  simp only [List.mem_append, List.mem_singleton] at h
  rcases h with (h | rfl) | h
  · split at h <;> simp_all [isOfRun]
  · rfl
  · split at h <;> simp_all [isOfRun]

theorem Event.isOfRun_of_isRemark {e : Event} (h : e.isRemark = true) : e.isOfRun = false := by
  cases e <;> first | rfl | cases h

theorem Event.isOfRun_of_mem_reported {reports : List Report} {e : Event}
    (h : e ∈ reports.map Event.reported) : e.isOfRun = false := by
  obtain ⟨r, -, rfl⟩ := List.mem_map.1 h
  rfl

namespace RunEntry

variable {m m' : Memo} {c : Call} {reports : List Report} {core before after : List Event}

/-- What stands where in what is told of a run. -/
theorem split {e : Event} (h : RunEntry m c reports core m')
    (hsplit : core = before ++ e :: after) :
    (∃ text, e = .parsed c.tag text ∧ c.tag.text = .ok text ∧ m.find? c.tag = none ∧
      before = [] ∧ after = [.dispatching c.field.name c.handler, .called c]) ∨
    e = .dispatching c.field.name c.handler ∧ after = [.called c] ∨
    e = .called c ∧
      (m.find? c.tag = some c.arg ∧ before = [.dispatching c.field.name c.handler] ∨
        m.find? c.tag = none ∧ ∃ text, c.tag.text = .ok text ∧
          before = [.parsed c.tag text, .dispatching c.field.name c.handler]) := by
  cases h with
  | again hfound =>
    -- the entry is short, so `before` is all there is up to one of its events
    rcases before with _ | ⟨x, _ | ⟨y, before⟩⟩
    · cases hsplit
      exact Or.inr (Or.inl ⟨rfl, rfl⟩)
    · cases hsplit
      exact Or.inr (Or.inr ⟨rfl, Or.inl ⟨hfound, rfl⟩⟩)
    · simp at hsplit
  | first hnone htext =>
    rcases before with _ | ⟨x, _ | ⟨y, _ | ⟨z, before⟩⟩⟩
    · cases hsplit
      exact Or.inl ⟨_, rfl, htext, hnone, rfl, rfl⟩
    · cases hsplit
      exact Or.inr (Or.inl ⟨rfl, rfl⟩)
    · cases hsplit
      exact Or.inr (Or.inr ⟨rfl, Or.inr ⟨hnone, _, htext, rfl⟩⟩)
    · simp at hsplit

theorem called {c' : Call} (h : RunEntry m c reports core m')
    (hsplit : core = before ++ .called c' :: after) :
    c' = c ∧ (m.find? c.tag = some c.arg ∧ before = [.dispatching c.field.name c.handler] ∨
      m.find? c.tag = none ∧ ∃ text, c.tag.text = .ok text ∧
        before = [.parsed c.tag text, .dispatching c.field.name c.handler]) := by
  rcases h.split hsplit with ⟨_, he, -⟩ | ⟨he, -⟩ | ⟨he, hbefore⟩
  · cases he
  · cases he
  · exact ⟨Event.called.inj he, hbefore⟩

theorem dispatching {field handler : String} (h : RunEntry m c reports core m')
    (hsplit : core = before ++ .dispatching field handler :: after) :
    c.field.name = field ∧ c.handler = handler ∧ after = [.called c] := by
  rcases h.split hsplit with ⟨_, he, -⟩ | ⟨he, hafter⟩ | ⟨he, -⟩
  · cases he
  · cases he
    exact ⟨rfl, rfl, hafter⟩
  · cases he

theorem parsed {t : Tag} {text : String} (h : RunEntry m c reports core m')
    (hsplit : core = before ++ .parsed t text :: after) :
    c.tag = t ∧ t.text = .ok text ∧ m.find? t = none ∧ before = [] ∧
      after = [.dispatching c.field.name c.handler, .called c] := by
  rcases h.split hsplit with ⟨_, he, hrest⟩ | ⟨he, -⟩ | ⟨he, -⟩
  · cases he
    exact ⟨rfl, hrest⟩
  · cases he
  · cases he

end RunEntry

/-- An event stands in the entry of a run: what stands before it and after it. -/
def InEntry (pre : List Event) (e : Event) (post : List Event) : Prop :=
  ∃ older m c reports core m', Chronicle older m ∧ RunEntry m c reports core m' ∧
    ∃ before after rest : List Event, core = before ++ e :: after ∧
      pre = older ++ (reports.map .reported ++ before) ∧ post = after ++ rest

theorem InEntry.widen {pre post : List Event} {e : Event} (h : InEntry pre e post)
    (entry : List Event) : InEntry pre e (post ++ entry) := by
  obtain ⟨older, m, c, reports, core, m', holder, hcore, before, after, rest, hsplit, hpre, rfl⟩ :=
    h
  exact ⟨older, m, c, reports, core, m', holder, hcore, before, after, rest ++ entry, hsplit, hpre,
    List.append_assoc _ _ _⟩

/-- What is told of a run follows on some reports, and is followed by others. -/
theorem RunEntry.inEntry {log : List Event} {m m' : Memo} {c : Call} {core : List Event}
    {reports : List Report} (hlog : Chronicle log m) (hcore : RunEntry m c reports core m')
    (reports' : List Report) {before post : List Event} {e : Event} (he : e.report? = none)
    (h : reports.map .reported ++ (core ++ reports'.map .reported) = before ++ e :: post) :
    InEntry (log ++ before) e post := by
  obtain ⟨before', rfl, hrest⟩ := reported_append_eq_cons he h
  rcases append_eq_cons_cases hrest with ⟨after, hsplit, rfl⟩ | ⟨before'', -, hreports⟩
  · exact ⟨log, m, c, reports, core, m', hlog, hcore, before', after, _, hsplit, rfl, rfl⟩
  · have hmem : e ∈ reports'.map Event.reported :=
      hreports ▸ List.mem_append_right _ List.mem_cons_self
    obtain ⟨r, -, rfl⟩ := List.mem_map.1 hmem
    cases he

namespace Chronicle

variable {log : List Event} {m : Memo}

/-- An event that tells of a run stands in the entry of one. -/
theorem inEntry (h : Chronicle log m) {pre post : List Event} {e : Event}
    (he : e.isOfRun = true) (hlog : log = pre ++ e :: post) : InEntry pre e post := by
  have hreport := Event.report?_of_isOfRun he
  -- an entry without such events is passed over
  have hskip {older entry pre post : List Event} (hentry : ∀ x ∈ entry, x.isOfRun = false)
      (ih : ∀ {pre post : List Event}, older = pre ++ e :: post → InEntry pre e post)
      (hlog : older ++ entry = pre ++ e :: post) : InEntry pre e post := by
    rcases append_eq_cons_cases hlog with ⟨more, hold, rfl⟩ | ⟨before, -, hnew⟩
    · exact (ih hold).widen entry
    · have hfalse := hentry e (hnew ▸ List.mem_append_right _ List.mem_cons_self)
      cases he.symm.trans hfalse
  induction h generalizing pre post with
  | nil => simp at hlog
  | bound _ d name ih => exact hskip (fun x => Event.isOfRun_of_mem_bindEvents) ih hlog
  | unbound _ name ih => exact hskip (List.forall_mem_singleton.2 rfl) ih hlog
  | remarked _ hx ih =>
    exact hskip (List.forall_mem_singleton.2 (Event.isOfRun_of_isRemark hx)) ih hlog
  | unread _ reports ih => exact hskip (fun x => Event.isOfRun_of_mem_reported) ih hlog
  | ran hlog' hentry reports ih =>
    rcases append_eq_cons_cases hlog with ⟨more, hold, rfl⟩ | ⟨before, rfl, hnew⟩
    · exact (ih hold).widen _
    · exact hentry.inEntry hlog' reports hreport hnew

end Chronicle

/-! ## The ledger of a chronicle -/

namespace Ledger

theorem ofLog_append (log entry : List Event) :
    ofLog (log ++ entry) = (ofLog log).enterAll entry := by
  rw [ofLog, enterAll_append]
  rfl

theorem ofLog_append_reported (log : List Event) (reports : List Report) :
    ofLog (log ++ reports.map .reported) = ofLog log := by
  rw [ofLog_append, enterAll_reported]

/-- Only what is told of a run is entered, and not what was reported before it and after it. -/
theorem ofLog_ran (log core : List Event) (before reports : List Report) :
    ofLog (log ++ (before.map .reported ++ (core ++ reports.map .reported))) =
      (ofLog log).enterAll core := by
  rw [ofLog_append, enterAll_append, enterAll_append, enterAll_reported, enterAll_reported]

end Ledger

namespace Chronicle

variable {log : List Event} {m : Memo}

/-- What is remembered stands in the ledger of the log. -/
theorem accounts (h : Chronicle log m) : m.Accounts (.ofLog log) := by
  induction h with
  | nil => exact .nil
  | bound _ d name ih =>
    rw [Ledger.ofLog_append, Ledger.enterAll_bindEvents]
    exact ih.forget name
  | unbound _ name ih =>
    rw [Ledger.ofLog_append]
    exact ih.forget name
  | remarked _ he ih =>
    rw [Ledger.ofLog_append, Ledger.enterAll_cons, Ledger.enter_remark _ he]
    exact ih
  | unread _ reports ih =>
    rw [Ledger.ofLog_append_reported]
    exact ih
  | ran _ hentry reports ih =>
    rw [Ledger.ofLog_ran]
    cases hentry with
    | again hfound => exact ih.call hfound
    | first hnone => exact (ih.insert hnone _).call (by rw [Memo.find?_insert, if_pos rfl])

/-- What was read was run. -/
theorem exists_ran_of_read (h : Chronicle log m) {t : Tag} (ht : t ∈ (Ledger.ofLog log).read) :
    ∃ c ∈ (Ledger.ofLog log).ran, c.tag = t := by
  have hstrike {l : Ledger} {name : String} (ih : t ∈ l.read → ∃ c ∈ l.ran, c.tag = t)
      (ht : t ∈ (l.strike name).read) : ∃ c ∈ (l.strike name).ran, c.tag = t := by
    obtain ⟨hread, hname⟩ := List.mem_filter.1 ht
    obtain ⟨c, hc, rfl⟩ := ih hread
    exact ⟨c, List.mem_filter.2 ⟨hc, hname⟩, rfl⟩
  induction h with
  | nil => cases ht
  | bound _ d name ih =>
    rw [Ledger.ofLog_append, Ledger.enterAll_bindEvents] at ht ⊢
    exact hstrike ih ht
  | unbound _ name ih =>
    rw [Ledger.ofLog_append] at ht ⊢
    exact hstrike ih ht
  | remarked _ he ih =>
    rw [Ledger.ofLog_append, Ledger.enterAll_cons, Ledger.enter_remark _ he] at ht ⊢
    exact ih ht
  | unread _ reports ih =>
    rw [Ledger.ofLog_append_reported] at ht ⊢
    exact ih ht
  | @ran log' _ _ _ c' _ _ hentry reports ih =>
    rw [Ledger.ofLog_ran] at ht ⊢
    -- a tag that was read before has its run in the log before
    have hold (h : t ∈ (Ledger.ofLog log').read) :
        ∃ c ∈ c' :: (Ledger.ofLog log').ran, c.tag = t := by
      obtain ⟨c, hc, htag⟩ := ih h
      exact ⟨c, List.mem_cons_of_mem _ hc, htag⟩
    cases hentry with
    | again => exact hold ht
    | first =>
      rcases List.mem_cons.1 ht with rfl | ht
      · exact ⟨c', List.mem_cons_self, rfl⟩
      · exact hold ht

/-! ## What can be read in a log -/

theorem filterMap_reported (reports : List Report) :
    (reports.map Event.reported).filterMap Event.dispatched? = [] := by
  induction reports with
  | nil => rfl
  | cons r reports ih => exact ih

theorem calls_of_not_isOfRun {events : List Event} (h : ∀ e ∈ events, e.isOfRun = false) :
    calls events = [] ∧ events.filterMap Event.dispatched? = [] := by
  induction events with
  | nil => exact ⟨rfl, rfl⟩
  | cons e events ih =>
    obtain ⟨he, hevents⟩ := List.forall_mem_cons.1 h
    cases e <;> first | exact ih hevents | cases he

/-- The runs are those that are announced, in this order. -/
theorem dispatched_eq (h : Chronicle log m) :
    log.filterMap Event.dispatched? = (calls log).map fun c => (c.field.name, c.handler) := by
  have hsilent {older entry : List Event} (hentry : ∀ e ∈ entry, e.isOfRun = false)
      (ih : older.filterMap Event.dispatched? =
        (calls older).map fun c => (c.field.name, c.handler)) :
      (older ++ entry).filterMap Event.dispatched? =
        (calls (older ++ entry)).map fun c => (c.field.name, c.handler) := by
    obtain ⟨hcalls, hdispatched⟩ := calls_of_not_isOfRun hentry
    rw [List.filterMap_append, calls_append, hcalls, hdispatched, List.append_nil, List.append_nil,
      ih]
  induction h with
  | nil => rfl
  | bound _ d name ih => exact hsilent (fun x => Event.isOfRun_of_mem_bindEvents) ih
  | unbound _ name ih => exact hsilent (List.forall_mem_singleton.2 rfl) ih
  | remarked _ he ih =>
    exact hsilent (List.forall_mem_singleton.2 (Event.isOfRun_of_isRemark he)) ih
  | unread _ reports ih => exact hsilent (fun x => Event.isOfRun_of_mem_reported) ih
  | ran _ hentry reports ih =>
    simp only [List.filterMap_append, calls_append, List.map_append, calls_reported,
      filterMap_reported, ih]
    cases hentry with
    | again => rfl
    | first => rfl

section Positions

variable (h : Chronicle log m) {pre post : List Event}

include h

/-- A run is announced right before it. -/
theorem before_called {c : Call} (hlog : log = pre ++ .called c :: post) :
    ∃ pre', pre = pre' ++ [.dispatching c.field.name c.handler] := by
  obtain ⟨older, m', c', reports, core, _, -, hcore, before, after, rest, hsplit, rfl, -⟩ :=
    h.inEntry rfl hlog
  obtain ⟨rfl, ⟨-, rfl⟩ | ⟨-, text, -, rfl⟩⟩ := hcore.called hsplit
  · exact ⟨older ++ reports.map .reported, (List.append_assoc _ _ _).symm⟩
  · exact ⟨older ++ (reports.map .reported ++ [.parsed c.tag text]), by simp⟩

/-- What is announced is run right away. -/
theorem after_dispatching {field handler : String}
    (hlog : log = pre ++ .dispatching field handler :: post) :
    ∃ c post', post = .called c :: post' ∧ c.field.name = field ∧ c.handler = handler := by
  obtain ⟨older, m', c, reports, core, _, -, hcore, before, after, rest, hsplit, -, rfl⟩ :=
    h.inEntry rfl hlog
  obtain ⟨hfield, hhandler, rfl⟩ := hcore.dispatching hsplit
  exact ⟨c, rest, rfl, hfield, hhandler⟩

/-- When a text was read, it is told right before a run for its tag, the first one of those since
its name was last bound or unbound. -/
theorem after_parsed {t : Tag} {text : String} (hlog : log = pre ++ .parsed t text :: post) :
    t.text = .ok text ∧ t ∉ (Ledger.ofLog pre).read ∧ (∀ c ∈ (Ledger.ofLog pre).ran, c.tag ≠ t) ∧
      ∃ c post', post = .dispatching c.field.name c.handler :: .called c :: post' ∧ c.tag = t := by
  obtain ⟨older, m', c, reports, core, _, holder, hcore, before, after, rest, hsplit, rfl, rfl⟩ :=
    h.inEntry rfl hlog
  obtain ⟨htag, htext, hnone, rfl, rfl⟩ := hcore.parsed hsplit
  rw [List.append_nil, Ledger.ofLog_append_reported]
  refine ⟨htext, ?_, ?_, c, rest, rfl, htag⟩
  · intro hread
    have hsome := (holder.accounts.find?_isSome_iff t).2 hread
    rw [hnone] at hsome
    cases hsome
  · rintro c' hc' rfl
    cases hnone.symm.trans (holder.accounts.ran c' hc')

/-- Before such a first run it is told what was read. -/
theorem first_called {c : Call} (hlog : log = pre ++ .called c :: post)
    (hfirst : ∀ c' ∈ (Ledger.ofLog pre).ran, c'.tag ≠ c.tag) :
    ∃ pre' text, c.tag.text = .ok text ∧
      pre = pre' ++ [.parsed c.tag text, .dispatching c.field.name c.handler] := by
  obtain ⟨older, m', c', reports, core, _, holder, hcore, before, after, rest, hsplit, rfl, -⟩ :=
    h.inEntry rfl hlog
  obtain ⟨rfl, ⟨hfound, rfl⟩ | ⟨-, text, htext, rfl⟩⟩ := hcore.called hsplit
  · -- what is remembered was read before, and run then
    have hread := (holder.accounts.find?_isSome_iff c.tag).1 (by rw [hfound, Option.isSome_some])
    obtain ⟨c', hc', htag⟩ := holder.exists_ran_of_read hread
    refine absurd htag (hfirst c' ?_)
    rw [← List.append_assoc, Ledger.ofLog_append, Ledger.ofLog_append_reported]
    exact hc'
  · exact ⟨older ++ reports.map .reported, text, htext, (List.append_assoc _ _ _).symm⟩

end Positions

end Chronicle

end FieldNotes
