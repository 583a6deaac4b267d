import FieldNotes.Proofs.Usage
import FieldNotes.Proofs.Memo
import FieldNotes.Proofs.Refinement

/-! # The memo cannot be seen

To remember arguments saves work and changes nothing else.  What a dispatcher is compared with is a
registry: handlers bound to names and a name tag, and nothing that is remembered.  A registry walks
by recursion on values, and lets the bound handler read the text of a tag each time the tag is met.

* `Rules.obey_follows`: at a single tag, with a memo that can be trusted, a dispatcher does what its
  registry does.
* `Dispatcher.act_registry`: so it is with every act, and the memo can be trusted afterwards.
* `Usage.memo_is_transparent`: so it is with every row of acts; and what is seen of a walk depends
  only on the registry at that time.
-/

namespace FieldNotes

open Walk (Journal)

/-! ## Registries -/

/-- The handlers bound to names, and the name tag. -/
structure Registry where
  handler? : String → Option Handler
  nameTag : Option String

/-- What is to be known of a dispatcher if its memo does not matter. -/
def Dispatcher.registry (d : Dispatcher) : Registry :=
  ⟨d.handler?, d.nameTag⟩

namespace Registry

/-- The rules without a memo: the handler reads the text of the tag. -/
def rules (r : Registry) (context : Context) : Nested.Rules :=
  ⟨context, r.handler?, fun f => f.shownBy r.nameTag,
    fun m h t => ⟨(h.readTag t).1, m, (h.readTag t).2⟩⟩

/-- What is seen of a walk. -/
def walk (r : Registry) (schema : Schema) (context : Context) (depth : Nat) (v : Value) : Answer :=
  let walked := Nested.walk (r.rules context) [] schema depth v
  .walked walked.result walked.value (calls walked.events)

/-- Binds a name, or unbinds it. -/
def rebind (r : Registry) (name : String) (h : Option Handler) : Registry :=
  { r with handler? := fun n => if n = name then h else r.handler? n }

/-- Does an act. -/
def act (r : Registry) : Act → Registry × Answer
  | .register name h =>
    match requireName .register name with
    | .ok () => (r.rebind name (some h), .named (.ok ()))
    | .error f => (r, .named (.error f))
  | .unregister name => (r.rebind name none, .unregistered (r.handler? name).isSome)
  | .setNameTag tag =>
    match tag.map (requireName .nameTag) with
    | some (.error f) => (r, .named (.error f))
    | _ => ({ r with nameTag := tag }, .named (.ok ()))
  | .walk schema context depth v => (r, r.walk schema context depth v)

/-- The answers to a row of acts. -/
def answers : Registry → List Act → List Answer
  | _, [] => []
  | r, a :: acts => (r.act a).2 :: answers (r.act a).1 acts

end Registry

/-! ## Walks -/

/-- The journals of a walk with a memo and of one without: the same calls, and a memo that can be
trusted. -/
def SameCalls (handler? : String → Option Handler) (j j' : Journal) : Prop :=
  calls j.events = calls j'.events ∧ j.memo.Kept handler?

theorem SameCalls.note {handler? : String → Option Handler} {j j' : Journal}
    (hj : SameCalls handler? j j') (es : List Event) :
    SameCalls handler? (j.note es) (j'.note es) := by
  refine ⟨?_, hj.2⟩
  simp only [Journal.note, calls_append, hj.1]

namespace Nested

theorem Rules.obey_follows (d : Dispatcher) (context : Context) (p : Place) (t : Tag) (v : Value)
    (j j' : Journal) (hj : SameCalls d.handler? j j') :
    ((d.rules context).obey p t v j).Follows (fun _ => False) (SameCalls d.handler?)
      ((d.registry.rules context).obey p t v j') := by
  cases hstop : t.isStop with
  | true =>
    simp only [Rules.obey, hstop, if_true]
    exact .done v hj
  | false =>
    have hhandler : (d.rules context).handler? t.name = d.handler? t.name := rfl
    have hhandler' : (d.registry.rules context).handler? t.name = d.handler? t.name := rfl
    simp only [Rules.obey, hstop, Bool.false_eq_true, if_false, hhandler, hhandler']
    cases hh : d.handler? t.name with
    | none => exact .done v hj
    | some h =>
      -- the memo gives what the handler reads, and events without calls
      have hresult : ((d.rules context).ask j.memo h t).result = (h.readTag t).1 :=
        Memo.ask_result hj.2 hh
      have hask : SameCalls d.handler?
          ((⟨((d.rules context).ask j.memo h t).memo, j.events⟩ : Journal).note
            ((d.rules context).ask j.memo h t).events)
          ((⟨j'.memo, j'.events⟩ : Journal).note (h.readTag t).2) := by
        have hcalls : calls ((d.rules context).ask j.memo h t).events = [] :=
          Memo.calls_ask j.memo h t
        refine ⟨?_, hj.2.ask hh⟩
        simp only [Journal.note, calls_append, hj.1, hcalls, calls_readTag]
      have hread : ((d.registry.rules context).ask j'.memo h t) =
          ⟨(h.readTag t).1, j'.memo, (h.readTag t).2⟩ := rfl
      simp only [hresult, hread]
      cases (h.readTag t).1 with
      | error f => exact .halt (.faulted f) v hask
      | ok arg => exact Or.inr ⟨rfl, rfl, hask.note _⟩

end Nested

namespace Dispatcher

/-- What is seen of a walk is what the registry makes of it, and the memo is kept. -/
theorem walk_registry {d : Dispatcher} (hd : d.memo.Kept d.handler?) (schema : Schema)
    (context : Context) (depth : Nat) (v : Value) :
    Answer.walked (d.walk schema context depth v).result (d.walk schema context depth v).value
        (calls (d.walk schema context depth v).events) =
      d.registry.walk schema context depth v ∧
    (d.walk schema context depth v).memo.Kept d.handler? := by
  have hfollows := Nested.walk_follows (Nested.Rules.obey_follows d context)
    (fun e j j' _ hj => hj.note [e])
    (⟨rfl, hd⟩ : SameCalls d.handler? ⟨d.memo, []⟩ ⟨[], []⟩)
    schema (Or.inl (rfl : depth = depth)) v
  rcases hfollows with ⟨_, hfalse, _⟩ | ⟨hv, hr, hcalls, hkept⟩
  · exact hfalse.elim
  · rw [d.walk_eq_nested]
    simp only [Walked.work] at hv hr hcalls hkept
    refine ⟨?_, hkept⟩
    rw [Registry.walk, hv, hr, hcalls]

theorem registry_bind (d : Dispatcher) (name : String) (h : Handler) :
    (d.bind name h).registry = d.registry.rebind name (some h) := by
  have hbound : (d.bind name h).handler? = fun n => if n = name then some h else d.handler? n := by
    funext n
    exact d.find?_bind name n h
  simp only [registry, Registry.rebind, hbound]
  rfl

theorem registry_unbind (d : Dispatcher) (name : String) :
    (d.unbind name).registry = d.registry.rebind name none := by
  have hbound : (d.unbind name).handler? = fun n => if n = name then none else d.handler? n := by
    funext n
    exact d.find?_unbind name n
  simp only [registry, Registry.rebind, hbound]
  rfl

/-- To unbind a name that is not bound changes nothing. -/
theorem rebind_none_of_not_contains {d : Dispatcher} {name : String}
    (hc : d.contains name = false) : d.registry.rebind name none = d.registry := by
  have hnone : d.handler? name = none := by simpa [contains] using hc
  have hsame : (fun n => if n = name then none else d.handler? n) = d.handler? := by
    funext n
    by_cases hn : n = name
    · rw [if_pos hn, hn, hnone]
    · rw [if_neg hn]
  simp only [registry, Registry.rebind, hsame]

theorem act_registry {d : Dispatcher} (hd : d.memo.Kept d.handler?) (a : Act) :
    ((d.act a).dispatcher.registry, (d.act a).answer) = d.registry.act a ∧
      (d.act a).dispatcher.memo.Kept (d.act a).dispatcher.handler? := by
  cases a with
  | register name h =>
    by_cases hn : name = ""
    · subst hn
      exact ⟨rfl, hd⟩
    · have hname : requireName .register name = .ok () := by simp [requireName, hn]
      rw [act_register hn]
      refine ⟨?_, kept_bind name h hd⟩
      simp only [Registry.act, hname, registry_bind]
  | unregister name =>
    cases hc : d.contains name with
    | true =>
      rw [act_unregister_of_contains hc]
      refine ⟨?_, kept_unbind name hd⟩
      have hsome : (d.registry.handler? name).isSome = true := hc
      simp only [Registry.act, hsome, registry_unbind]
    | false =>
      -- there was nothing to be unbound, so nothing is forgotten
      rw [act_unregister_of_not_contains hc]
      refine ⟨?_, hd⟩
      have hsome : (d.registry.handler? name).isSome = false := hc
      simp only [Registry.act, hsome, rebind_none_of_not_contains hc]
  | setNameTag tag =>
    by_cases ht : tag = some ""
    · subst ht
      exact ⟨rfl, hd⟩
    · rw [act_setNameTag ht]
      refine ⟨?_, hd⟩
      cases tag with
      | none => rfl
      | some name =>
        have hname : requireName .nameTag name = .ok () := by simp_all [requireName]
        simp only [Registry.act, Option.map_some, hname]
        rfl
  | walk schema context depth v =>
    have hwalk := walk_registry hd schema context depth v
    refine ⟨?_, hwalk.2⟩
    simp only [act, Registry.act, hwalk.1]
    rfl

end Dispatcher

/-! ## Rows of acts -/

namespace Usage

/-- Whatever is done, it goes as the registry says. -/
theorem after_registry (acts : List Act) (u : Usage)
    (hu : u.dispatcher.memo.Kept u.dispatcher.handler?) :
    (u.after acts).answers = u.answers ++ u.dispatcher.registry.answers acts ∧
      (u.after acts).dispatcher.memo.Kept (u.after acts).dispatcher.handler? := by
  -- the induction is over all usages, since the later acts begin with a changed dispatcher
  induction acts generalizing u with
  | nil => exact ⟨(List.append_nil u.answers).symm, hu⟩
  | cons a acts ih =>
    rcases Dispatcher.act_registry hu a with ⟨hact, hkept⟩
    have hrest := ih (u.step a) hkept
    refine ⟨?_, hrest.2⟩
    rw [after_cons, hrest.1, Registry.answers, ← hact]
    simp only [step, List.append_assoc, List.singleton_append]

/-- A memo cannot be seen in the answers: they are those of a registry, which remembers nothing, and
of which the handlers read the text of a tag at every field.  And after any two histories that have
the same handlers bound and the same name tag, walks are seen alike. -/
theorem memo_is_transparent (bindings : List (String × Handler)) (nameTag : Option String)
    (acts : List Act) :
    ((start bindings nameTag).after acts).answers =
        (start bindings nameTag).dispatcher.registry.answers acts ∧
      ∀ bindings' nameTag' acts',
        ((start bindings nameTag).after acts).dispatcher.registry =
            ((start bindings' nameTag').after acts').dispatcher.registry →
          ∀ schema context depth v,
            (((start bindings nameTag).after acts).dispatcher.act
                (.walk schema context depth v)).answer =
              (((start bindings' nameTag').after acts').dispatcher.act
                (.walk schema context depth v)).answer := by
  have hkept : ∀ bindings nameTag acts,
      ((start bindings nameTag).after acts).dispatcher.memo.Kept
        ((start bindings nameTag).after acts).dispatcher.handler? := by
    intro bindings nameTag acts
    exact (after_registry acts (start bindings nameTag) Memo.Kept.nil).2
  constructor
  · rw [(after_registry acts (start bindings nameTag) Memo.Kept.nil).1]
    rfl
  · -- either history is seen only through the registry that it comes to
    intro bindings' nameTag' acts' hsame schema context depth v
    have hwalk := (Dispatcher.walk_registry (hkept bindings nameTag acts) schema context depth v).1
    have hwalk' :=
      (Dispatcher.walk_registry (hkept bindings' nameTag' acts') schema context depth v).1
    calc
      _ = _ := hwalk
      _ = _ := by rw [hsame]
      _ = _ := hwalk'.symm

end Usage

end FieldNotes
