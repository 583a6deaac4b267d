import FieldNotes.Dispatcher.Walk

/-! # The usage of a dispatcher

A dispatcher is set up and used by acts: handlers are bound and unbound, the name tag is set, and
values are walked.  Walks may end in any way; what they remember stays with the dispatcher.

* `Dispatcher.act` is one act, with what is seen of it (`Answer`) and the events it causes.
* `Usage.after` is the usage after some acts: the dispatcher, all answers and all events so far.
-/

namespace FieldNotes

/-- What can be done with a dispatcher. -/
inductive Act
  | register (name : String) (h : Handler)
  | unregister (name : String)
  | setNameTag (tag : Option String)
  | walk (schema : Schema) (context : Context) (depth : Nat) (v : Value)

/-- What is seen of an act: by the one who asked for it, and by the handlers that were run. -/
inductive Answer
  /-- Whether the name was accepted. -/
  | named (result : Except Fault Unit)
  /-- Whether a handler was bound to the name. -/
  | unregistered (bound : Bool)
  /-- How the walk ended, what it left, and which handlers it ran. -/
  | walked (result : Except Halt Unit) (value : Value) (calls : List Call)

/-- A dispatcher after an act, with what is seen of the act and what happened in it. -/
structure Acted where
  dispatcher : Dispatcher
  answer : Answer
  events : List Event

namespace Dispatcher

/-- Does an act.  A fault in the name leaves the dispatcher as it is. -/
def act (d : Dispatcher) : Act → Acted
  | .register name h =>
    match d.register name h with
    | .ok (d', events) => ⟨d', .named (.ok ()), events⟩
    | .error f => ⟨d, .named (.error f), []⟩
  | .unregister name =>
    let (d', events) := d.unregister name
    ⟨d', .unregistered (d.contains name), events⟩
  | .setNameTag tag =>
    match d.setNameTag tag with
    | .ok d' => ⟨d', .named (.ok ()), []⟩
    | .error f => ⟨d, .named (.error f), []⟩
  | .walk schema context depth v =>
    let walked := d.walk schema context depth v
    ⟨{ d with memo := walked.memo }, .walked walked.result walked.value (calls walked.events),
      walked.events⟩

theorem act_register_empty (d : Dispatcher) (h : Handler) :
    d.act (.register "" h) = ⟨d, .named (.error (.emptyName .register)), []⟩ :=
  rfl

theorem act_register {name : String} (hn : name ≠ "") (d : Dispatcher) (h : Handler) :
    d.act (.register name h) = ⟨d.bind name h, .named (.ok ()), d.bindEvents name⟩ := by
  have hname : requireName .register name = .ok () := by simp [requireName, hn]
  simp only [act, register, hname]
  rfl

theorem act_setNameTag {tag : Option String} (ht : tag ≠ some "") (d : Dispatcher) :
    d.act (.setNameTag tag) = ⟨{ d with nameTag := tag }, .named (.ok ()), []⟩ := by
  cases tag with
  | none => rfl
  | some name =>
    have hn : name ≠ "" := fun h => ht (congrArg some h)
    have hname : requireName .nameTag name = .ok () := by simp [requireName, hn]
    simp only [act, setNameTag, hname]
    rfl

theorem act_unregister_of_contains {name : String} {d : Dispatcher} (hc : d.contains name = true) :
    d.act (.unregister name) = ⟨d.unbind name, .unregistered true, [.unregistered name]⟩ := by
  simp [act, unregister, hc]

theorem act_unregister_of_not_contains {name : String} {d : Dispatcher}
    (hc : d.contains name = false) :
    d.act (.unregister name) = ⟨d, .unregistered false, []⟩ := by
  simp [act, unregister, hc]

end Dispatcher

/-- A dispatcher with all that was done with it, and all that happened. -/
structure Usage where
  dispatcher : Dispatcher
  answers : List Answer := []
  log : List Event := []

namespace Usage

/-- The beginning: some handlers may be bound, but nothing is remembered of their arguments. -/
def start (bindings : List (String × Handler)) (nameTag : Option String) : Usage :=
  ⟨⟨bindings, [], nameTag⟩, [], []⟩

/-- One more act. -/
def step (u : Usage) (a : Act) : Usage :=
  let acted := u.dispatcher.act a
  ⟨acted.dispatcher, u.answers ++ [acted.answer], u.log ++ acted.events⟩

/-- The usage after more acts. -/
def after (u : Usage) (acts : List Act) : Usage :=
  acts.foldl step u

theorem after_cons (u : Usage) (a : Act) (acts : List Act) :
    u.after (a :: acts) = (u.step a).after acts :=
  rfl

/-- What holds at the beginning and is kept by every act holds ever after. -/
theorem after_induction {P : Usage → Prop} {u : Usage} (h : P u)
    (hstep : ∀ u a, P u → P (u.step a)) (acts : List Act) : P (u.after acts) := by
  induction acts generalizing u with
  | nil => exact h
  | cons a acts ih => exact ih (hstep u a h)

end Usage

end FieldNotes
