import FieldNotes.Proofs.Follows
import FieldNotes.Proofs.Usage
import FieldNotes.Proofs.Memo
import FieldNotes.Proofs.Refinement
import Mathlib.Data.Finset.Card

/-! # An account of the memo

The log of a usage tells which texts were read and which handlers were run.  A ledger is drawn up
from it, in which a name is struck out whenever it is bound anew or unbound.

* `Memo.Accounts`: a memo holds the tags that stand in a ledger as read, each of them once, and the
  handlers that stand in it as run were given what the memo holds.
* `Memo.Accounts.ask`, `Memo.Accounts.forget`: it is kept by asking and by changes of bindings.
* `Walk.obey_of_broken`, `Walk.find?_obey_of_broken`: a tag that cannot be read is a fault each time
  it is met, and is never remembered.
* `Usage.memo_accounts`: the account of any usage.
-/

namespace FieldNotes

open Walk (Journal)

/-! ## Ledgers -/

/-- What was read and run under names since they were last bound or unbound. -/
structure Ledger where
  read : List Tag := []
  ran : List Call := []

namespace Ledger

/-- Strikes out what was entered under a name. -/
def strike (l : Ledger) (name : String) : Ledger :=
  ⟨l.read.filter (·.name != name), l.ran.filter (·.handler != name)⟩

/-- Enters an event. -/
def enter (l : Ledger) : Event → Ledger
  | .parsed t _ => { l with read := t :: l.read }
  | .called c => { l with ran := c :: l.ran }
  | .registered name => l.strike name
  | .unregistered name => l.strike name
  | _ => l

/-- Enters some events in their order. -/
def enterAll (l : Ledger) (es : List Event) : Ledger :=
  es.foldl enter l

/-- The ledger of a log. -/
def ofLog (log : List Event) : Ledger :=
  enterAll {} log

@[simp] theorem enterAll_nil (l : Ledger) : l.enterAll [] = l :=
  rfl

@[simp] theorem enterAll_cons (l : Ledger) (e : Event) (es : List Event) :
    l.enterAll (e :: es) = (l.enter e).enterAll es :=
  rfl

@[simp] theorem enterAll_append (l : Ledger) (es es' : List Event) :
    l.enterAll (es ++ es') = (l.enterAll es).enterAll es' :=
  List.foldl_append

theorem enter_remark (l : Ledger) {e : Event} (he : e.isRemark = true) : l.enter e = l := by
  cases e <;> first | rfl | cases he

@[simp] theorem enterAll_reported (l : Ledger) (rs : List Report) :
    l.enterAll (rs.map .reported) = l := by
  induction rs with
  | nil => rfl
  | cons r rs ih => exact ih

/-- A text that is read is entered, and one that cannot be read is not. -/
theorem enterAll_readTag (l : Ledger) (h : Handler) (t : Tag) :
    l.enterAll (h.readTag t).2 =
      if (h.readTag t).1.isOk then { l with read := t :: l.read } else l := by
  cases htext : t.text with
  | error e =>
    simp only [Handler.readTag, htext]
    rfl
  | ok text =>
    cases hparse : (h.parse text).result with
    | error e =>
      simp only [Handler.readTag, htext, hparse, enterAll_reported]
      rfl
    | ok arg =>
      simp only [Handler.readTag, htext, hparse, enterAll_append, enterAll_reported]
      rfl

theorem enterAll_bindEvents (l : Ledger) (d : Dispatcher) (name : String) :
    l.enterAll (d.bindEvents name) = l.strike name := by
  simp only [Dispatcher.bindEvents]
  split <;> split <;> rfl

end Ledger

/-! ## Memos and ledgers -/

/-- A memo holds what stands in a ledger. -/
structure Memo.Accounts (m : Memo) (l : Ledger) : Prop where
  /-- The tags that were read are remembered, and no others. -/
  keys : m.map (·.1) = l.read.map fun t => (t.name, t.quoted)
  /-- No tag was read twice. -/
  once : l.read.Nodup
  /-- Handlers were run with the argument that is remembered. -/
  ran : ∀ c ∈ l.ran, m.find? c.tag = some c.arg

namespace Memo

theorem find?_isSome_iff (m : Memo) (t : Tag) :
    (m.find? t).isSome = true ↔ (t.name, t.quoted) ∈ m.map (·.1) := by
  rw [find?, List.lookup_isSome_iff, List.mem_map]
  constructor
  · rintro ⟨e, he, hkey⟩
    exact ⟨e, he, (eq_of_beq hkey).symm⟩
  · rintro ⟨e, he, hkey⟩
    exact ⟨e, he, beq_iff_eq.2 hkey.symm⟩

namespace Accounts

variable {m : Memo} {l : Ledger}

theorem nil : Accounts [] {} :=
  ⟨rfl, List.nodup_nil, fun _ hc => absurd hc List.not_mem_nil⟩

theorem find?_isSome_iff (hm : m.Accounts l) (t : Tag) :
    (m.find? t).isSome = true ↔ t ∈ l.read := by
  rw [m.find?_isSome_iff, hm.keys, List.mem_map]
  constructor
  · rintro ⟨t', ht', heq⟩
    rcases t with ⟨n, q⟩
    rcases t' with ⟨n', q'⟩
    rcases Prod.mk.inj heq with ⟨rfl, rfl⟩
    exact ht'
  · intro ht
    exact ⟨t, ht, rfl⟩

theorem length_eq (hm : m.Accounts l) : m.length = l.read.length := by
  have hlength := congrArg List.length hm.keys
  simpa only [List.length_map] using hlength

/-- To remember what was not remembered is to enter that it was read. -/
theorem insert {t : Tag} (hm : m.Accounts l) (hnone : m.find? t = none) (arg : Arg) :
    (m.insert t arg).Accounts { l with read := t :: l.read } := by
  -- the tag is new, so nothing that stands in the ledger is about it
  have hnew : t ∉ l.read := by
    intro ht
    have hsome := (hm.find?_isSome_iff t).2 ht
    rw [hnone] at hsome
    exact absurd hsome (by simp)
  refine ⟨congrArg ((t.name, t.quoted) :: ·) hm.keys, List.nodup_cons.2 ⟨hnew, hm.once⟩, ?_⟩
  intro c hc
  have hold := hm.ran c hc
  have hne : c.tag ≠ t := by
    intro heq
    rw [heq, hnone] at hold
    exact absurd hold (by simp)
  rw [find?_insert, if_neg hne, hold]

/-- Asking for an argument keeps the account, and the argument is remembered afterwards. -/
theorem ask (hm : m.Accounts l) (h : Handler) (t : Tag) :
    (m.ask h t).memo.Accounts (l.enterAll (m.ask h t).events) ∧
      ∀ arg, (m.ask h t).result = .ok arg → (m.ask h t).memo.find? t = some arg := by
  cases hf : m.find? t with
  | some arg =>
    -- what is remembered is not read again, so nothing is entered
    simp only [Memo.ask, hf]
    exact ⟨hm, fun arg' harg => congrArg some (Except.ok.inj harg)⟩
  | none =>
    have hledger := l.enterAll_readTag h t
    rcases hr : h.readTag t with ⟨r, es⟩
    rw [hr] at hledger
    cases r with
    | error f =>
      -- a text that cannot be read leaves no trace on either side
      simp only [Memo.ask, hf, hr]
      rw [hledger]
      exact ⟨hm, fun _ harg => absurd harg (by simp)⟩
    | ok arg =>
      simp only [Memo.ask, hf, hr]
      rw [hledger]
      refine ⟨hm.insert hf arg, ?_⟩
      intro arg' harg
      rw [find?_insert, if_pos rfl, Except.ok.inj harg]

/-- To run a handler with a remembered argument keeps the account. -/
theorem call (hm : m.Accounts l) {c : Call} (hc : m.find? c.tag = some c.arg) :
    m.Accounts (l.enter (.called c)) := by
  refine ⟨hm.keys, hm.once, ?_⟩
  intro c' hc'
  rcases List.mem_cons.1 hc' with rfl | hold
  · exact hc
  · exact hm.ran c' hold

/-- To forget a name is to strike it out. -/
theorem forget (hm : m.Accounts l) (name : String) : (m.forget name).Accounts (l.strike name) := by
  refine ⟨?_, hm.once.filter _, ?_⟩
  · -- on both sides the name alone decides
    have hfilter := congrArg (List.filter fun k : String × String => k.1 != name) hm.keys
    rw [List.filter_map, List.filter_map] at hfilter
    exact hfilter
  · intro c hc
    rcases List.mem_filter.1 hc with ⟨hold, hname⟩
    have hne : ¬ c.tag.name = name := by simpa [Call.handler] using hname
    rw [find?_forget, if_neg hne]
    exact hm.ran c hold

end Accounts

end Memo

/-! ## Walks -/

/-- A journal of a walk can be trusted, and accounts for what happened. -/
def Walk.Journal.Accounts (handler? : String → Option Handler) (l : Ledger) (j : Journal) : Prop :=
  j.memo.Kept handler? ∧ j.memo.Accounts (l.enterAll j.events)

theorem Nested.obey_accounts (d : Dispatcher) (context : Context) (l : Ledger) (p : Nested.Place)
    (t : Tag) (v : Value) (j : Journal) (hj : j.Accounts d.handler? l) :
    (((d.rules context).obey p t v j).journal).Accounts d.handler? l := by
  have hask (h : Handler) : (d.rules context).ask j.memo h t = j.memo.ask h t := rfl
  rcases (d.rules context).obey_cases p t v j with
    heq | ⟨h, -, hh, ⟨arg, hread, heq⟩ | ⟨f, -, heq⟩⟩ <;> rw [heq]
  · exact hj
  · -- the run is entered with the argument that is remembered by now
    rcases hj.2.ask h t with ⟨hasked, hfound⟩
    have hcall : (j.memo.ask h t).memo.find? (⟨p.path, p.index, p.field, t, arg⟩ : Call).tag =
        some arg := hfound arg hread
    refine ⟨hj.1.ask hh, ?_⟩
    simpa [hask, Nested.Rules.call, Journal.note, Ledger.enter] using hasked.call hcall
  · refine ⟨hj.1.ask hh, ?_⟩
    simpa only [hask, Work.halt, Ledger.enterAll_append] using (hj.2.ask h t).1

namespace Dispatcher

variable {d : Dispatcher} {l : Ledger}

theorem walk_accounts (hd : d.memo.Kept d.handler?) (hl : d.memo.Accounts l) (schema : Schema)
    (context : Context) (depth : Nat) (v : Value) :
    (d.walk schema context depth v).memo.Kept d.handler? ∧
      (d.walk schema context depth v).memo.Accounts
        (l.enterAll (d.walk schema context depth v).events) := by
  rw [d.walk_eq_nested]
  refine Nested.walk_keeps (Nested.obey_accounts d context l) ?_ ⟨hd, hl⟩ schema depth v
  intro e j he hj
  refine ⟨hj.1, ?_⟩
  simpa [Journal.note, Ledger.enter_remark _ he] using hj.2

theorem act_accounts (hd : d.memo.Kept d.handler?) (hl : d.memo.Accounts l) (a : Act) :
    (d.act a).dispatcher.memo.Kept (d.act a).dispatcher.handler? ∧
      (d.act a).dispatcher.memo.Accounts (l.enterAll (d.act a).events) := by
  cases a with
  | register name h =>
    by_cases hn : name = ""
    · subst hn
      exact ⟨hd, hl⟩
    · rw [act_register hn, Ledger.enterAll_bindEvents]
      exact ⟨kept_bind name h hd, hl.forget name⟩
  | unregister name =>
    cases hc : d.contains name with
    | true =>
      rw [act_unregister_of_contains hc]
      exact ⟨kept_unbind name hd, hl.forget name⟩
    | false =>
      rw [act_unregister_of_not_contains hc]
      exact ⟨hd, hl⟩
  | setNameTag tag =>
    by_cases ht : tag = some ""
    · subst ht
      exact ⟨hd, hl⟩
    · rw [act_setNameTag ht]
      exact ⟨hd, hl⟩
  | walk schema context depth v => exact walk_accounts hd hl schema context depth v

end Dispatcher

namespace Walk

/-- The state in which a part of a walk ends, in one way or another. -/
def stateAfter (m : Walk Unit) (s : State) : State :=
  match m.run s with
  | .ok _ s' => s'
  | .error _ s' => s'

theorem memo_stateAfter_call (w : Setting) (h : Handler) (path : Path) (index : Nat) (f : Field)
    (t : Tag) (arg : Arg) (s : State) :
    (stateAfter (call w h path index f t arg) s).memo = s.memo := by
  simp only [stateAfter, call, tell, fault, valueAt?, write, EStateM.run_bind, EStateM.run_get,
    EStateM.run_modify, EStateM.run_pure]
  cases s.root.get? path with
  | none => rfl
  | some v =>
    simp only [EStateM.run_bind, EStateM.run_get, EStateM.run_modify]
    generalize h.run _ arg = effect
    cases effect.outcome <;> rfl

variable (w : Setting) (s : State) (path : Path) (index : Nat) (field : Field)

/-- A tag that cannot be read is a fault each time it is met, and nothing is written. -/
theorem obey_of_broken {t : Tag} {h : Handler} {f : Fault} (hnone : s.memo.find? t = none)
    (hh : w.dispatcher.handler? t.name = some h) (hf : (h.readTag t).1 = .error f)
    (hstop : t.isStop = false) :
    (obey w path index field t).run s =
      .error (.faulted f) { s with events := s.events ++ (h.readTag t).2 } := by
  simp only [obey, hstop, Bool.false_eq_true, if_false, hh, EStateM.run_bind, run_argument,
    Memo.ask_of_broken hnone hf]
  rfl

/-- A tag that cannot be read is remembered after no other tag, and not after itself. -/
theorem find?_obey_of_broken {t : Tag} {h : Handler} {f : Fault} (hnone : s.memo.find? t = none)
    (hh : w.dispatcher.handler? t.name = some h) (hf : (h.readTag t).1 = .error f) (t' : Tag) :
    (stateAfter (obey w path index field t') s).memo.find? t = none := by
  cases hstop : t'.isStop with
  | true => simpa only [stateAfter, obey, hstop, if_true, EStateM.run_pure] using hnone
  | false =>
    by_cases ht : t = t'
    · subst ht
      simpa only [stateAfter, obey_of_broken w s path index field hnone hh hf hstop] using hnone
    · cases hh' : w.dispatcher.handler? t'.name with
      | none =>
        simpa only [stateAfter, obey, hstop, Bool.false_eq_true, if_false, hh', EStateM.run_pure]
          using hnone
      | some h' =>
        have hasked : (s.memo.ask h' t').memo.find? t = none := by
          rw [Memo.find?_ask_of_ne ht, hnone]
        simp only [stateAfter, obey, hstop, Bool.false_eq_true, if_false, hh', EStateM.run_bind,
          run_argument]
        cases (s.memo.ask h' t').result with
        | error e => exact hasked
        | ok arg =>
          have hcall := memo_stateAfter_call w h' path index field t' arg
            ⟨(⟨(s.memo.ask h' t').memo, s.events⟩ : Journal).note (s.memo.ask h' t').events, s.root⟩
          simp only [stateAfter] at hcall
          rw [hcall]
          exact hasked

end Walk

/-! ## Usages -/

namespace Usage

theorem after_accounts (bindings : List (String × Handler)) (nameTag : Option String)
    (acts : List Act) :
    let u := (start bindings nameTag).after acts
    u.dispatcher.memo.Kept u.dispatcher.handler? ∧ u.dispatcher.memo.Accounts (.ofLog u.log) := by
  refine after_induction (P := fun u => u.dispatcher.memo.Kept u.dispatcher.handler? ∧
    u.dispatcher.memo.Accounts (.ofLog u.log)) ⟨Memo.Kept.nil, Memo.Accounts.nil⟩ ?_ acts
  intro u a hu
  simpa [step, Ledger.ofLog] using Dispatcher.act_accounts hu.1 hu.2 a

/-- A change of one name leaves what is remembered under other names. -/
theorem find?_step_of_ne (u : Usage) {name : String} {t : Tag} (ht : t.name ≠ name) (h : Handler) :
    (u.step (.register name h)).dispatcher.memo.find? t = u.dispatcher.memo.find? t ∧
      (u.step (.unregister name)).dispatcher.memo.find? t = u.dispatcher.memo.find? t := by
  have hforget : (u.dispatcher.memo.forget name).find? t = u.dispatcher.memo.find? t := by
    rw [Memo.find?_forget, if_neg ht]
  constructor
  · by_cases hn : name = ""
    · subst hn
      rfl
    · rw [step, Dispatcher.act_register hn]
      exact hforget
  · cases hc : u.dispatcher.contains name with
    | true =>
      rw [step, Dispatcher.act_unregister_of_contains hc]
      exact hforget
    | false => rw [step, Dispatcher.act_unregister_of_not_contains hc]

/-- The account of a usage.

What is remembered was read, from the text between the quotes, by the handler that is bound now.  A
tag was read at most once since its name was last bound or unbound, it is remembered exactly if it
was read since, and the handlers run on it since were given what is remembered; so the number of
remembered arguments is that of the tags that were read.  A tag that cannot be read is not
remembered before a walk nor after any tag that is obeyed on the way, and is a fault wherever it is
met.  Changes of one name leave the others alone, and the empty name is refused. -/
theorem memo_accounts (bindings : List (String × Handler)) (nameTag : Option String)
    (acts : List Act) :
    let u := (start bindings nameTag).after acts
    let d := u.dispatcher
    let ledger := Ledger.ofLog u.log
    (∀ t arg, d.memo.find? t = some arg → ∃ h text,
      d.handler? t.name = some h ∧ t.text = .ok text ∧ (h.parse text).result = .ok arg) ∧
    ledger.read.Nodup ∧
    (∀ t, (d.memo.find? t).isSome = true ↔ t ∈ ledger.read) ∧
    (∀ c ∈ ledger.ran, d.memo.find? c.tag = some c.arg) ∧
    d.remembered = ledger.read.toFinset.card ∧
    (∀ t h f, d.handler? t.name = some h → (h.readTag t).1 = .error f →
      d.memo.find? t = none ∧
      ∀ schema context (s : Walk.State) path index field, s.memo.find? t = none →
        (t.isStop = false → (Walk.obey ⟨schema, d, context⟩ path index field t).run s =
          .error (.faulted f) { s with events := s.events ++ (h.readTag t).2 }) ∧
        ∀ t', (Walk.stateAfter (Walk.obey ⟨schema, d, context⟩ path index field t')
          s).memo.find? t = none) ∧
    (∀ name h t, t.name ≠ name →
      (u.step (.register name h)).dispatcher.memo.find? t = d.memo.find? t ∧
      (u.step (.unregister name)).dispatcher.memo.find? t = d.memo.find? t) ∧
    ∀ h, d.act (.register "" h) = ⟨d, .named (.error (.emptyName .register)), []⟩ := by
  intro u d ledger
  rcases after_accounts bindings nameTag acts with ⟨hkept, haccounts⟩
  refine ⟨?_, haccounts.once, haccounts.find?_isSome_iff, haccounts.ran, ?_, ?_, ?_, ?_⟩
  · intro t arg hfound
    rcases hkept t arg hfound with ⟨h, hh, hread⟩
    rcases Handler.readTag_ok_iff.1 hread with ⟨text, htext, hparse⟩
    exact ⟨h, text, hh, htext, hparse⟩
  · -- nothing was read twice, so to count is to take the length
    rw [List.toFinset_card_of_nodup haccounts.once]
    exact haccounts.length_eq
  · intro t h f hh hf
    refine ⟨hkept.find?_of_broken hh hf, ?_⟩
    intro schema context s path index field hnone
    exact ⟨Walk.obey_of_broken ⟨schema, d, context⟩ s path index field hnone hh hf,
      Walk.find?_obey_of_broken ⟨schema, d, context⟩ s path index field hnone hh hf⟩
  · intro name h t ht
    exact u.find?_step_of_ne ht h
  · exact d.act_register_empty

end Usage

end FieldNotes
