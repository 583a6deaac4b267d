import FieldNotes.Proofs.Accounting
import FieldNotes.Proofs.Transparency
import FieldNotes.Samples.Handlers

/-! # Walks in any order

Values are walked one after another with one dispatcher.  What the walks share is the memo: the walk
that is the first to meet a tag has it read, and the later ones find it remembered.  So the order of
the walks decides which of them has a text read; it decides nothing else.

* `Memo.Extends`: a memo after some calls, which holds their tags beside what it held before.
* `Dispatcher.walk_extends`: so it is after any walk, however it ended.
* `Usage.AfterWalks`: how a usage stands after some walks, told without their order, and
  `Usage.after_walks`.
* `Usage.walks_in_any_order`: every value has the same end in any order of the walks, and the same
  tags are remembered, read and run for.
-/

namespace FieldNotes

open Walk (Journal)

/-! ## What a walk adds to the memo -/

namespace Memo

variable {m : Memo} {h : Handler} {t : Tag}

/-- A tag that could not be read leaves the memo as it is. -/
theorem memo_ask_of_error {f : Fault} (hf : (m.ask h t).result = .error f) :
    (m.ask h t).memo = m := by
  unfold ask at hf ⊢
  cases hfound : m.find? t with
  | some arg => rfl
  | none =>
    rcases hread : h.readTag t with ⟨result, events⟩
    cases result with
    | error e => rfl
    | ok arg =>
      rw [hfound] at hf
      simp only [hread, reduceCtorEq] at hf

/-- A tag that could be read is remembered from then on, beside all that was remembered. -/
theorem isSome_find?_ask {arg : Arg} (harg : (m.ask h t).result = .ok arg) (t' : Tag) :
    ((m.ask h t).memo.find? t').isSome = true ↔ (m.find? t').isSome = true ∨ t = t' := by
  by_cases ht : t' = t
  · subst ht
    refine ⟨fun _ => Or.inr rfl, fun _ => ?_⟩
    unfold ask at harg ⊢
    cases hfound : m.find? t' with
    | some arg' => simp only [hfound, Option.isSome_some]
    | none =>
      rcases hread : h.readTag t' with ⟨result, events⟩
      cases result with
      | error e =>
        rw [hfound] at harg
        simp only [hread, reduceCtorEq] at harg
      | ok arg' => simp only [find?_insert, if_true, Option.isSome_some]
  · rw [find?_ask_of_ne ht]
    constructor
    · exact Or.inl
    · rintro (hsome | heq)
      · exact hsome
      · exact absurd heq.symm ht

/-- Of two memos that can be trusted, both give the same argument for a tag that both remember. -/
theorem Kept.find?_eq {handler? : String → Option Handler} {m' : Memo} (hm : m.Kept handler?)
    (hm' : m'.Kept handler?)
    (hsame : (m.find? t).isSome = true ↔ (m'.find? t).isSome = true) : m.find? t = m'.find? t := by
  cases hfound : m.find? t with
  | none =>
    cases hfound' : m'.find? t with
    | none => rfl
    | some arg' => simp [hfound, hfound'] at hsame
  | some arg =>
    obtain ⟨arg', hfound'⟩ := Option.isSome_iff_exists.1 (hsame.1 (by rw [hfound]; rfl))
    obtain ⟨h, hh, hread⟩ := hm t arg hfound
    obtain ⟨h', hh', hread'⟩ := hm' t arg' hfound'
    -- one handler is bound to the name
    obtain rfl := Option.some.inj (hh.symm.trans hh')
    rw [hfound', Except.ok.inj (hread.symm.trans hread')]

/-- One memo holds the tags of some calls beside what another one holds, and nothing else. -/
def Extends (m : Memo) (ran : List Call) (m' : Memo) : Prop :=
  ∀ t, (m'.find? t).isSome = true ↔ (m.find? t).isSome = true ∨ ∃ c ∈ ran, c.tag = t

namespace Extends

variable {m' m'' : Memo} {ran ran' : List Call}

theorem refl (m : Memo) : m.Extends [] m := by
  intro t
  simp

theorem trans (h : m.Extends ran m') (h' : m'.Extends ran' m'') :
    m.Extends (ran ++ ran') m'' := by
  intro t
  rw [h' t, h t, or_assoc]
  simp only [List.mem_append, or_and_right, exists_or]

/-- One more call of a tag that was read. -/
theorem ask (hm : m.Extends ran m') {arg : Arg} (harg : (m'.ask h t).result = .ok arg) {c : Call}
    (hc : c.tag = t) : m.Extends (ran ++ [c]) (m'.ask h t).memo := by
  refine hm.trans ?_
  intro t'
  rw [isSome_find?_ask harg t']
  simp only [List.mem_singleton, exists_eq_left, hc]

end Extends

end Memo

namespace Nested

/-- To obey a tag is to remember it and to make a call for it, or to do neither. -/
theorem obey_extends (d : Dispatcher) (context : Context) (m : Memo) (p : Place) (t : Tag)
    (v : Value) (j : Journal) (hj : m.Extends (calls j.events) j.memo) :
    m.Extends (calls ((d.rules context).obey p t v j).journal.events)
      ((d.rules context).obey p t v j).journal.memo := by
  have hask (h : Handler) : (d.rules context).ask j.memo h t = j.memo.ask h t := rfl
  rcases (d.rules context).obey_cases p t v j with
    heq | ⟨h, -, -, ⟨arg, hread, heq⟩ | ⟨f, hread, heq⟩⟩
  · rw [heq]
    exact hj
  · -- the call is the only one among the events that are added
    have hasked : calls (j.memo.ask h t).events = [] := Memo.calls_ask j.memo h t
    have hnext := hj.ask hread (c := ⟨p.path, p.index, p.field, t, arg⟩) rfl
    simp only [heq, hask, Rules.call, Journal.note, calls_append, hasked, calls_reported,
      List.append_nil]
    exact hnext
  · have hasked : calls (j.memo.ask h t).events = [] := Memo.calls_ask j.memo h t
    simp only [heq, hask, Work.halt, calls_append, hasked, List.append_nil]
    rw [Memo.memo_ask_of_error hread]
    exact hj

end Nested

/-! ## What a walk adds to the log -/

/-- The tag whose text was read. -/
def Event.read? : Event → Option Tag
  | .parsed t _ => some t
  | _ => none

/-- Whether an event tells of a change of bindings. -/
def Event.rebinds : Event → Bool
  | .registered _ | .unregistered _ => true
  | _ => false

/-- Where no binding changes, nothing is struck out: what was read is entered, the last on top. -/
theorem Ledger.read_enterAll (l : Ledger) {es : List Event} (h : ∀ e ∈ es, e.rebinds = false) :
    (l.enterAll es).read = (es.filterMap Event.read?).reverse ++ l.read := by
  induction es generalizing l with
  | nil => rfl
  | cons e es ih =>
    obtain ⟨he, hes⟩ := List.forall_mem_cons.1 h
    rw [Ledger.enterAll_cons, ih (l.enter e) hes]
    cases e with
    | parsed t text => simp [Event.read?, Ledger.enter]
    | registered name => cases he
    | unregistered name => cases he
    | _ => rfl

theorem Handler.rebinds_readTag (h : Handler) (t : Tag) :
    ∀ e ∈ (h.readTag t).2, e.rebinds = false := by
  have hreports (rs : List Report) : ∀ e ∈ rs.map Event.reported, e.rebinds = false :=
    List.forall_mem_map.2 fun _ _ => rfl
  simp only [readTag]
  split
  · exact List.forall_mem_nil _
  · split
    · exact hreports _
    · exact List.forall_mem_append.2 ⟨hreports _, List.forall_mem_singleton.2 rfl⟩

theorem Memo.rebinds_ask (m : Memo) (h : Handler) (t : Tag) :
    ∀ e ∈ (m.ask h t).events, e.rebinds = false := by
  have hread := h.rebinds_readTag t
  unfold ask
  split
  · exact List.forall_mem_nil _
  · split <;> simp_all

/-- No tag that is obeyed changes a binding. -/
theorem Nested.obey_rebinds (d : Dispatcher) (context : Context) (p : Place) (t : Tag) (v : Value)
    (j : Journal) (hj : ∀ e ∈ j.events, e.rebinds = false) :
    ∀ e ∈ ((d.rules context).obey p t v j).journal.events, e.rebinds = false := by
  rcases (d.rules context).obey_cases p t v j with heq | ⟨h, -, -, ⟨arg, -, heq⟩ | ⟨f, -, heq⟩⟩
  · rw [heq]
    exact hj
  · have hasked := List.forall_mem_append.2 ⟨hj, j.memo.rebinds_ask h t⟩
    rw [heq]
    refine List.forall_mem_append.2 ⟨hasked, ?_⟩
    simp [Event.rebinds]
  · rw [heq]
    exact List.forall_mem_append.2 ⟨hj, j.memo.rebinds_ask h t⟩

namespace Dispatcher

/-- A walk remembers the tags for which it ran handlers, beside what was remembered before. -/
theorem walk_extends (d : Dispatcher) (schema : Schema) (context : Context) (depth : Nat)
    (v : Value) :
    let walked := d.walk schema context depth v
    d.memo.Extends (calls walked.events) walked.memo := by
  rw [d.walk_eq_nested]
  apply Nested.walk_keeps (I := fun j => d.memo.Extends (calls j.events) j.memo)
  · exact Nested.obey_extends d context d.memo
  · intro e j he hj
    have hnone : calls [e] = [] := by
      cases e <;> first | rfl | cases he
    rw [Journal.note, calls_append, hnone, List.append_nil]
    exact hj
  · exact .refl d.memo

/-- A walk changes no binding. -/
theorem walk_rebinds (d : Dispatcher) (schema : Schema) (context : Context) (depth : Nat)
    (v : Value) : ∀ e ∈ (d.walk schema context depth v).events, e.rebinds = false := by
  rw [d.walk_eq_nested]
  apply Nested.walk_keeps (I := fun j => ∀ e ∈ j.events, e.rebinds = false)
  · exact Nested.obey_rebinds d context
  · intro e j he hj
    have hnot : e.rebinds = false := by
      cases e <;> first | rfl | cases he
    exact List.forall_mem_append.2 ⟨hj, List.forall_mem_singleton.2 hnot⟩
  · exact List.forall_mem_nil _

end Dispatcher

/-! ## Requests -/

/-- A walk that is to be made. -/
structure WalkRequest where
  schema : Schema
  context : Context
  depth : Nat
  value : Value

namespace WalkRequest

/-- To make the walk. -/
def act (o : WalkRequest) : Act :=
  .walk o.schema o.context o.depth o.value

/-- The calls of the walk, where nothing is remembered. -/
def calls (o : WalkRequest) (r : Registry) : List Call :=
  FieldNotes.calls (Nested.walk (r.rules o.context) [] o.schema o.depth o.value).events

/-- The calls of some walks, in their order. -/
def allCalls (r : Registry) (walks : List WalkRequest) : List Call :=
  walks.flatMap fun o => o.calls r

/-- What is seen of the walk, where nothing is remembered. -/
def answer (o : WalkRequest) (r : Registry) : Answer :=
  r.walk o.schema o.context o.depth o.value

end WalkRequest

namespace Usage

/-- The tags that were read, in the order in which they were. -/
def readings (u : Usage) : List Tag :=
  u.log.filterMap Event.read?

theorem after_append (u : Usage) (acts more : List Act) :
    u.after (acts ++ more) = (u.after acts).after more :=
  List.foldl_append

/-- How a usage stands after some walks.  What is remembered in the end is told by the calls alone,
that is without regard to the order of the walks. -/
structure AfterWalks (u : Usage) (walks : List WalkRequest) (u' : Usage) : Prop where
  registry : u'.dispatcher.registry = u.dispatcher.registry
  kept : u'.dispatcher.memo.Kept u'.dispatcher.handler?
  answers : u'.answers = u.answers ++ walks.map (WalkRequest.answer · u.dispatcher.registry)
  calls : FieldNotes.calls u'.log =
    FieldNotes.calls u.log ++ WalkRequest.allCalls u.dispatcher.registry walks
  memo : u.dispatcher.memo.Extends (WalkRequest.allCalls u.dispatcher.registry walks)
    u'.dispatcher.memo
  log : ∃ events, u'.log = u.log ++ events ∧ ∀ e ∈ events, e.rebinds = false

/-- One walk. -/
theorem afterWalks_step {u : Usage} (hu : u.dispatcher.memo.Kept u.dispatcher.handler?)
    (o : WalkRequest) : u.AfterWalks [o] (u.step o.act) := by
  obtain ⟨hanswer, hkept⟩ := Dispatcher.walk_registry hu o.schema o.context o.depth o.value
  have hcalls : FieldNotes.calls (u.dispatcher.act o.act).events = o.calls u.dispatcher.registry :=
    (Answer.walked.inj hanswer).2.2
  have hall : WalkRequest.allCalls u.dispatcher.registry [o] = o.calls u.dispatcher.registry :=
    List.flatMap_singleton _ o
  constructor
  case registry => rfl
  case kept => exact hkept
  case answers => exact congrArg (u.answers ++ [·]) hanswer
  case calls => rw [hall, ← hcalls, step, calls_append]
  case memo =>
    rw [hall, ← hcalls]
    exact u.dispatcher.walk_extends o.schema o.context o.depth o.value
  case log => exact ⟨_, rfl, u.dispatcher.walk_rebinds o.schema o.context o.depth o.value⟩

/-- Walks after walks. -/
theorem AfterWalks.trans {u u' u'' : Usage} {walks walks' : List WalkRequest}
    (h : u.AfterWalks walks u') (h' : u'.AfterWalks walks' u'') :
    u.AfterWalks (walks ++ walks') u'' := by
  -- the later walks are made with the same handlers bound
  have hr := h.registry
  constructor
  case registry => rw [h'.registry, hr]
  case kept => exact h'.kept
  case answers => rw [h'.answers, h.answers, hr, List.map_append, List.append_assoc]
  case calls =>
    rw [h'.calls, h.calls, hr, WalkRequest.allCalls, WalkRequest.allCalls, WalkRequest.allCalls,
      List.flatMap_append, List.append_assoc]
  case memo =>
    have hmemo := h.memo.trans (hr ▸ h'.memo)
    rwa [WalkRequest.allCalls, WalkRequest.allCalls, ← List.flatMap_append] at hmemo
  case log =>
    obtain ⟨events, hlog, hevents⟩ := h.log
    obtain ⟨more, hlog', hmore⟩ := h'.log
    refine ⟨events ++ more, ?_, List.forall_mem_append.2 ⟨hevents, hmore⟩⟩
    rw [hlog', hlog, List.append_assoc]

theorem after_walks (walks : List WalkRequest) {u : Usage}
    (hu : u.dispatcher.memo.Kept u.dispatcher.handler?) :
    u.AfterWalks walks (u.after (walks.map WalkRequest.act)) := by
  induction walks generalizing u with
  | nil =>
    refine ⟨rfl, hu, (List.append_nil _).symm, (List.append_nil _).symm, .refl _, [], ?_, ?_⟩
    · exact (List.append_nil _).symm
    · exact List.forall_mem_nil _
  | cons o walks ih =>
    have hfirst := afterWalks_step hu o
    exact hfirst.trans (ih hfirst.kept)

/-! ## Other orders -/

/-- What was read by some walks, from the ledger of the log. -/
theorem AfterWalks.read_ledger {u u' : Usage} {walks : List WalkRequest}
    (h : u.AfterWalks walks u') : ∃ tags, u'.readings = u.readings ++ tags ∧
      (Ledger.ofLog u'.log).read = tags.reverse ++ (Ledger.ofLog u.log).read := by
  obtain ⟨events, hlog, hevents⟩ := h.log
  refine ⟨events.filterMap Event.read?, ?_, ?_⟩
  · rw [readings, readings, hlog, List.filterMap_append]
  · rw [Ledger.ofLog, hlog, Ledger.enterAll_append]
    exact Ledger.read_enterAll _ hevents

/-- The same walks in another order leave the same in the memo. -/
theorem AfterWalks.find?_eq {u u' u'' : Usage} {walks walks' : List WalkRequest}
    (h : u.AfterWalks walks u') (h' : u.AfterWalks walks' u'') (hwalks : walks.Perm walks')
    (t : Tag) : u'.dispatcher.memo.find? t = u''.dispatcher.memo.find? t := by
  have hcalls := hwalks.flatMap_right fun o => o.calls u.dispatcher.registry
  have hsame : (u'.dispatcher.memo.find? t).isSome = true ↔
      (u''.dispatcher.memo.find? t).isSome = true := by
    rw [h.memo t, h'.memo t]
    apply or_congr_right
    exact exists_congr fun c => and_congr_left fun _ => hcalls.mem_iff
  have hbound : u'.dispatcher.handler? = u''.dispatcher.handler? :=
    congrArg Registry.handler? (h.registry.trans h'.registry.symm)
  -- and what is remembered is what the bound handler reads
  exact h.kept.find?_eq (hbound ▸ h'.kept) hsame

/-- With one dispatcher, values can be walked in any order.

Every value ends as it would if it were walked first, be it well, with an error or with a fault.
Afterwards the same arguments are remembered, as many of them, and under every name texts were read
and handlers were run equally often. -/
theorem walks_in_any_order (bindings : List (String × Handler)) (nameTag : Option String)
    (acts : List Act) {walks walks' : List WalkRequest} (hwalks : walks.Perm walks') :
    let u := (start bindings nameTag).after acts
    let one := u.after (walks.map WalkRequest.act)
    let other := u.after (walks'.map WalkRequest.act)
    one.answers = u.answers ++ walks.map (fun o => (u.dispatcher.act o.act).answer) ∧
      other.answers = u.answers ++ walks'.map (fun o => (u.dispatcher.act o.act).answer) ∧
      (∀ t, one.dispatcher.memo.find? t = other.dispatcher.memo.find? t) ∧
      one.dispatcher.remembered = other.dispatcher.remembered ∧
      ∀ name, one.readings.countP (·.name == name) = other.readings.countP (·.name == name) ∧
        (calls one.log).countP (·.handler == name) =
          (calls other.log).countP (·.handler == name) := by
  intro u one other
  obtain ⟨hkept, -⟩ := after_accounts bindings nameTag acts
  have hone : u.AfterWalks walks one := after_walks walks hkept
  have hother : u.AfterWalks walks' other := after_walks walks' hkept
  have hanswer (o : WalkRequest) :
      o.answer u.dispatcher.registry = (u.dispatcher.act o.act).answer :=
    (Dispatcher.walk_registry hkept o.schema o.context o.depth o.value).1.symm
  have hmemo := hone.find?_eq hother hwalks
  -- both usages began with nothing remembered, so their ledgers account for their memos
  have haccounts (more : List WalkRequest) :
      (u.after (more.map WalkRequest.act)).dispatcher.memo.Accounts
        (.ofLog (u.after (more.map WalkRequest.act)).log) := by
    have hall := (after_accounts bindings nameTag (acts ++ more.map WalkRequest.act)).2
    rwa [after_append] at hall
  have hledgers : (Ledger.ofLog one.log).read.Perm (Ledger.ofLog other.log).read := by
    rw [List.perm_ext_iff_of_nodup (haccounts walks).once (haccounts walks').once]
    intro t
    rw [← (haccounts walks).find?_isSome_iff, ← (haccounts walks').find?_isSome_iff]
    exact iff_of_eq (congrArg (Option.isSome · = true) (hmemo t))
  have hreadings : one.readings.Perm other.readings := by
    obtain ⟨tags, hread, hledger⟩ := hone.read_ledger
    obtain ⟨tags', hread', hledger'⟩ := hother.read_ledger
    rw [hledger, hledger', List.perm_append_right_iff] at hledgers
    rw [hread, hread', List.perm_append_left_iff]
    exact (tags.reverse_perm.symm.trans hledgers).trans tags'.reverse_perm
  have hcalls : (calls one.log).Perm (calls other.log) := by
    rw [hone.calls, hother.calls, List.perm_append_left_iff]
    exact hwalks.flatMap_right _
  refine ⟨?_, ?_, hmemo, ?_, ?_⟩
  · simp only [hone.answers, hanswer]
  · simp only [hother.answers, hanswer]
  · calc
      one.dispatcher.remembered = (Ledger.ofLog one.log).read.length :=
        (haccounts walks).length_eq
      _ = (Ledger.ofLog other.log).read.length := hledgers.length_eq
      _ = other.dispatcher.remembered := (haccounts walks').length_eq.symm
  · intro name
    exact ⟨hreadings.countP_eq _, hcalls.countP_eq _⟩

end Usage

/-! ## A card and a leaf -/

namespace Cards

/-- Cards with a tag on the front that can be read and one on the back that cannot, and leaves with
the tag that can be read. -/
def schema : Schema where
  records :=
    [⟨"Card", [⟨⟨"front", true, "count:\"a\""⟩, .scalar (.int .i64)⟩,
       ⟨⟨"back", true, "count:\"bad\""⟩, .scalar (.int .i64)⟩]⟩,
     ⟨"Leaf", [⟨⟨"text", true, "count:\"a\""⟩, .scalar .text⟩]⟩]

def dispatcher : Dispatcher where
  bindings := [("count", Samples.counter "runs")]

def card : Value :=
  .record "Card" [.scalar (.int .i64 1), .scalar (.int .i64 2)]

def leaf : Value :=
  .record "Leaf" [.scalar (.text "")]

def front : Tag :=
  ⟨"count", "\"a\""⟩

def back : Tag :=
  ⟨"count", "\"bad\""⟩

theorem ofRow_front : Tag.ofRow "count:\"a\"" = [front] := by
  decide +kernel

theorem ofRow_back : Tag.ofRow "count:\"bad\"" = [back] := by
  decide +kernel

theorem isStop_front : front.isStop = false := by
  decide +kernel

theorem isStop_back : back.isStop = false := by
  decide +kernel

theorem readTag_front : (Samples.counter "runs").readTag front =
    (.ok (.text "a"), [.reported (.parsed "runs"), .parsed front "a"]) := by
  have htext : front.text = .ok "a" := by decide +kernel
  simp only [Handler.readTag, htext]
  rfl

theorem readTag_back : (Samples.counter "runs").readTag back =
    (.error (.brokenArgument "count" "bad" (.custom "bad argument")),
      [.reported (.parsed "runs")]) := by
  have htext : back.text = .ok "bad" := by decide +kernel
  simp only [Handler.readTag, htext]
  rfl

/-- The rules of the registry. -/
def rules : Nested.Rules := dispatcher.registry.rules .unit

theorem obey_front (p : Nested.Place) (v : Value) (j : Journal) :
    rules.obey p front v j = .done v (j.note [.reported (.parsed "runs"), .parsed front "a",
      .dispatching p.field.name "count",
      .called ⟨p.path, p.index, p.field, front, .text "a"⟩, .reported (.ran "runs")]) := by
  have hhandler : rules.handler? front.name = some (Samples.counter "runs") := rfl
  have hask : rules.ask j.memo (Samples.counter "runs") front =
      ⟨.ok (.text "a"), j.memo, [.reported (.parsed "runs"), .parsed front "a"]⟩ := by
    show (⟨_, _, _⟩ : Asked) = _
    rw [readTag_front]
  simp only [Nested.Rules.obey, isStop_front, hhandler, hask, Nested.Rules.call, Journal.note_note]
  rfl

theorem obey_back (p : Nested.Place) (v : Value) (j : Journal) :
    rules.obey p back v j =
      .halt (.faulted (.brokenArgument "count" "bad" (.custom "bad argument"))) v
        (j.note [.reported (.parsed "runs")]) := by
  have hhandler : rules.handler? back.name = some (Samples.counter "runs") := rfl
  have hask : rules.ask j.memo (Samples.counter "runs") back =
      ⟨.error (.brokenArgument "count" "bad" (.custom "bad argument")), j.memo,
        [.reported (.parsed "runs")]⟩ := by
    show (⟨_, _, _⟩ : Asked) = _
    rw [readTag_back]
  simp only [Nested.Rules.obey, isStop_back, hhandler, hask]
  rfl

theorem walk_card : dispatcher.registry.walk schema .unit 1 card =
    .walked (.error (.faulted (.brokenArgument "count" "bad" (.custom "bad argument")))) card
      [⟨[.field 0], 0, ⟨"front", true, "count:\"a\""⟩, front, .text "a"⟩] := by
  have hfields : schema.fields "Card" =
      [⟨"front", true, "count:\"a\""⟩, ⟨"back", true, "count:\"bad\""⟩] := rfl
  have hrules : dispatcher.registry.rules .unit = rules := rfl
  have hstop : [front].any Tag.isStop = false := by decide +kernel
  simp only [Registry.walk, hrules, card, Nested.walk, Nested.walkRecord, Nested.enter, hfields,
    Nested.row, Nested.member, List.getElem?_cons_zero, List.getElem?_cons_succ, if_true,
    Nested.visit, ofRow_front, ofRow_back, Nested.obeyAll, obey_front, obey_back, hstop,
    Bool.false_eq_true, if_false, Work.andThen_done, Work.andThen_halt, Nested.descend]
  rfl
end Cards

/-- A card is walked up to its back, and a leaf to its end, whichever of them is the first. -/
theorem Usage.cards_in_any_order :
    let readCard : WalkRequest := ⟨Cards.schema, .unit, 1, Cards.card⟩
    let readLeaf : WalkRequest := ⟨Cards.schema, .unit, 1, Cards.leaf⟩
    let u := (start Cards.dispatcher.bindings none).after []
    let one := u.after ([readCard, readLeaf].map WalkRequest.act)
    let other := u.after ([readLeaf, readCard].map WalkRequest.act)
    [readCard, readLeaf].Perm [readLeaf, readCard] ∧
      (u.dispatcher.act readCard.act).answer = .walked
        (.error (.faulted (.brokenArgument "count" "bad" (.custom "bad argument")))) Cards.card
        [⟨[.field 0], 0, ⟨"front", true, "count:\"a\""⟩, Cards.front, .text "a"⟩] ∧
      one.answers = u.answers ++
        [(u.dispatcher.act readCard.act).answer, (u.dispatcher.act readLeaf.act).answer] ∧
      other.answers = u.answers ++
        [(u.dispatcher.act readLeaf.act).answer, (u.dispatcher.act readCard.act).answer] ∧
      (∀ t, one.dispatcher.memo.find? t = other.dispatcher.memo.find? t) ∧
      one.dispatcher.remembered = other.dispatcher.remembered ∧
      ∀ name, one.readings.countP (·.name == name) = other.readings.countP (·.name == name) ∧
        (calls one.log).countP (·.handler == name) =
          (calls other.log).countP (·.handler == name) := by
  intro readCard readLeaf u one other
  have hwalks : [readCard, readLeaf].Perm [readLeaf, readCard] := .swap readLeaf readCard []
  have hcard := (Dispatcher.walk_registry (d := Cards.dispatcher) Memo.Kept.nil Cards.schema .unit 1
    Cards.card).1.trans Cards.walk_card
  exact ⟨hwalks, hcard, Usage.walks_in_any_order Cards.dispatcher.bindings none [] hwalks⟩

end FieldNotes
