import FieldNotes.Dispatcher.Walk

/-! # Walks by recursion on values

The walks of a dispatcher go by paths from the root.  Here is what they amount to: a walk that holds
the value it works on, takes it apart, and puts the parts together again.  No path is ever followed;
a path is kept only to be told to handlers, and the root only as what stands around the value.

* `Nested.enter` goes over the fields of a record, `Nested.visit` does what the tags of one field
  ask for and goes on into the value that they leave, and `Nested.descend` finds the records there.
* What a tag asks for is a parameter (`Nested.Obey`), so that walks can be compared which differ in
  that alone.  `Nested.Rules.obey` runs the handler that is bound to the name of the tag.
* `Nested.walk` is the whole walk, of a record or of what a pointer leads to.
-/

namespace FieldNotes

open Walk (Journal)

@[simp] theorem Walk.Journal.note_note (j : Journal) (es es' : List Event) :
    (j.note es).note es' = j.note (es ++ es') := by
  simp [Journal.note]

/-- Work that was done on something: what has become of it, what was noted, and how the work
ended. -/
structure Work (α : Type) where
  value : α
  journal : Journal
  result : Except Halt Unit

namespace Work

variable {α β : Type}

/-- Work that came to its end. -/
def done (v : α) (j : Journal) : Work α :=
  ⟨v, j, .ok ()⟩

/-- Work that was broken off. -/
def halt (h : Halt) (v : α) (j : Journal) : Work α :=
  ⟨v, j, .error h⟩

/-- The same work, seen from a whole that its value is a part of. -/
def map (f : α → β) (w : Work α) : Work β :=
  ⟨f w.value, w.journal, w.result⟩

/-- Goes on with `next`, unless the work was broken off; then `stop` is what is left. -/
def andThen (w : Work α) (stop : α → β) (next : α → Journal → Work β) : Work β :=
  match w.result with
  | .ok () => next w.value w.journal
  | .error h => halt h (stop w.value) w.journal

@[simp] theorem andThen_done (v : α) (j : Journal) (stop : α → β) (next : α → Journal → Work β) :
    (done v j).andThen stop next = next v j :=
  rfl

@[simp] theorem andThen_halt (h : Halt) (v : α) (j : Journal) (stop : α → β)
    (next : α → Journal → Work β) : (halt h v j).andThen stop next = halt h (stop v) j :=
  rfl

@[simp] theorem map_done (f : α → β) (v : α) (j : Journal) : (done v j).map f = done (f v) j :=
  rfl

@[simp] theorem map_halt (f : α → β) (h : Halt) (v : α) (j : Journal) :
    (halt h v j).map f = halt h (f v) j :=
  rfl

/-- Work either came to its end or was broken off. -/
theorem done_or_halt (w : Work α) :
    (∃ v j, w = done v j) ∨ ∃ h v j, w = halt h v j := by
  rcases w with ⟨v, j, (h | _)⟩
  · exact Or.inr ⟨h, v, j, rfl⟩
  · exact Or.inl ⟨v, j, rfl⟩

end Work

namespace Nested

/-- A field under work: what a handler is told of it, and the root as it is for any value of it. -/
structure Place where
  path : Path
  index : Nat
  field : Field
  around : Value → Value

/-- What is done with the value of a field for one of its tags. -/
abbrev Obey := Place → Tag → Value → Journal → Work Value

/-- A walk through a value, given the path that leads to it and what stands around it. -/
abbrev Enter := Path → (Value → Value) → Value → Journal → Work Value

/-! ## Going over values -/

/-- Works on the values of a row one after another, up to the first on which the work breaks off.
Around each of them stand the values before it as they have become, and those after it as they
were. -/
def row (work : Nat → (Value → Value) → Value → Journal → Work Value) :
    Nat → (List Value → Value) → List Value → Journal → Work (List Value)
  | _, _, [], j => .done [] j
  | i, around, v :: vs, j =>
    (work i (fun x => around (x :: vs)) v j).andThen (· :: vs) fun x j =>
      (row work (i + 1) (fun xs => around (x :: xs)) vs j).map (x :: ·)

/-- Walks through a record, and leaves any other value alone. -/
def ifRecord (enter : Enter) : Enter := fun path around v j =>
  if v.kind = .record then enter path around v j else .done v j

/-- Walks through the records that a value holds: through the value itself, through what it points
at, or through each of its items. -/
def descend (enter : Enter) : Enter
  | path, around, .record name vs, j => enter path around (.record name vs) j
  | path, around, .present v, j =>
    (ifRecord enter (path ++ [.deref]) (fun x => around (.present x)) v j).map .present
  | path, around, .owned v, j =>
    (ifRecord enter (path ++ [.deref]) (fun x => around (.owned x)) v j).map .owned
  | path, around, .list t vs, j =>
    (row (fun i => ifRecord enter (path ++ [.index i])) 0 (fun xs => around (.list t xs)) vs j).map
      (.list t)
  | path, around, .array t vs, j =>
    (row (fun i => ifRecord enter (path ++ [.index i])) 0 (fun xs => around (.array t xs)) vs j).map
      (.array t)
  | _, _, v, j => .done v j

section Obeying

variable (obey : Obey)

/-- Does what some tags of a field ask for, in their order. -/
def obeyAll (p : Place) : List Tag → Value → Journal → Work Value
  | [], v, j => .done v j
  | t :: ts, v, j => (obey p t v j).andThen id (obeyAll p ts)

/-- Does what the tags of a field ask for, and then walks through the value they leave, unless one
of them stops the walk. -/
def visit (enter : Enter) (p : Place) (v : Value) (j : Journal) : Work Value :=
  let tags := Tag.ofRow p.field.row
  (obeyAll obey p tags v j).andThen id fun v j =>
    if tags.any Tag.isStop then .done v (j.note [.suppressed p.field.name])
    else descend enter p.path p.around v j

/-- Visits the field at a position of a record, if there is one and it is exported. -/
def member (enter : Enter) (fields : List Field) (path : Path) (i : Nat)
    (around : Value → Value) (v : Value) (j : Journal) : Work Value :=
  match fields[i]? with
  | some f =>
    if f.exported then visit obey enter ⟨path ++ [.field i], i, f, around⟩ v j else .done v j
  | none => .done v j

/-- Walks through a record, going down at most `depth` records. -/
def enter (schema : Schema) : (depth : Nat) → Enter
  | 0, _, _, v, j => .halt .exhausted v j
  | depth + 1, path, around, .record name vs, j =>
    (row (member obey (enter schema depth) (schema.fields name) path) 0
      (fun xs => around (.record name xs)) vs j).map (.record name)
  | _ + 1, _, _, v, j => .done v j

end Obeying

/-! ## Obeying tags -/

/-- By what tags are obeyed: the handlers bound to names, the names of fields in errors, and how the
argument of a tag is come by. -/
structure Rules where
  context : Context
  handler? : String → Option Handler
  shownName : Field → String
  ask : Memo → Handler → Tag → Asked

namespace Rules

variable (r : Rules)

/-- The end of work on a field for a tag, by the outcome of the handler. -/
def ending (f : Field) (t : Tag) : Outcome → Except Halt Unit
  | .done => .ok ()
  | .failed e => .error (.failed (.field (r.shownName f) t.name e))
  | .faulted f => .error (.faulted f)

theorem ending_eq_ok {r : Rules} {f : Field} {t : Tag} {o : Outcome} (h : r.ending f t o = .ok ()) :
    o = .done := by
  cases o with
  | done => rfl
  | failed e => cases h
  | faulted f => cases h

/-- Runs a handler on the value of a field. -/
def call (p : Place) (h : Handler) (t : Tag) (arg : Arg) (v : Value) (j : Journal) : Work Value :=
  let effect := h.run ⟨r.context, p.around v, p.path, p.index, p.field, v⟩ arg
  ⟨effect.value,
    j.note ([.dispatching p.field.name t.name, .called ⟨p.path, p.index, p.field, t, arg⟩] ++
      effect.reports.map .reported),
    r.ending p.field t effect.outcome⟩

/-- Runs the handler that is bound to the name of a tag, if there is one and the tag does not stop
the walk. -/
def obey : Obey := fun p t v j =>
  if t.isStop then .done v j
  else
    match r.handler? t.name with
    | none => .done v j
    | some h =>
      let asked := r.ask j.memo h t
      let j := (⟨asked.memo, j.events⟩ : Journal).note asked.events
      match asked.result with
      | .ok arg => r.call p h t arg v j
      | .error f => .halt (.faulted f) v j

section Obeying

variable {r} {p : Place} {h : Handler} {t : Tag} {v : Value} {j : Journal}

theorem obey_of_stop (hstop : t.isStop = true) : r.obey p t v j = .done v j := by
  simp only [obey, hstop, if_true]

theorem obey_of_unbound (hh : r.handler? t.name = none) : r.obey p t v j = .done v j := by
  simp only [obey, hh, ite_self]

theorem obey_of_read {arg : Arg} (hstop : t.isStop = false) (hh : r.handler? t.name = some h)
    (hread : (r.ask j.memo h t).result = .ok arg) :
    r.obey p t v j = r.call p h t arg v
      ⟨(r.ask j.memo h t).memo, j.events ++ (r.ask j.memo h t).events⟩ := by
  simp only [obey, hstop, Bool.false_eq_true, if_false, hh, hread, Journal.note]

theorem obey_of_unread {f : Fault} (hstop : t.isStop = false) (hh : r.handler? t.name = some h)
    (hread : (r.ask j.memo h t).result = .error f) :
    r.obey p t v j = .halt (.faulted f) v
      ⟨(r.ask j.memo h t).memo, j.events ++ (r.ask j.memo h t).events⟩ := by
  simp only [obey, hstop, Bool.false_eq_true, if_false, hh, hread, Journal.note]

/-- To obey a tag is to do nothing, or to ask for the argument of the tag and then to run the
handler that is bound to its name, or else to stop at the fault that was met. -/
theorem obey_cases (r : Rules) (p : Place) (t : Tag) (v : Value) (j : Journal) :
    r.obey p t v j = .done v j ∨
      ∃ h, t.isStop = false ∧ r.handler? t.name = some h ∧
        let asked := r.ask j.memo h t
        let j' : Journal := ⟨asked.memo, j.events ++ asked.events⟩
        (∃ arg, asked.result = .ok arg ∧ r.obey p t v j = r.call p h t arg v j') ∨
          ∃ f, asked.result = .error f ∧ r.obey p t v j = .halt (.faulted f) v j' := by
  cases hstop : t.isStop with
  | true => exact Or.inl (obey_of_stop hstop)
  | false =>
    cases hh : r.handler? t.name with
    | none => exact Or.inl (obey_of_unbound hh)
    | some h =>
      refine Or.inr ⟨h, rfl, rfl, ?_⟩
      cases hread : (r.ask j.memo h t).result with
      | ok arg => exact Or.inl ⟨arg, hread, obey_of_read hstop hh hread⟩
      | error f => exact Or.inr ⟨f, hread, obey_of_unread hstop hh hread⟩

end Obeying

end Rules

/-! ## Whole walks -/

variable (r : Rules) (memo : Memo) (schema : Schema) (depth : Nat)

/-- Walks through a record. -/
def walkRecord (v : Value) : Walked :=
  let w := enter r.obey schema depth [] id v ⟨memo, [.walking v.typeName]⟩
  ⟨w.result, w.value, w.journal.memo, w.journal.events⟩

/-- Walks through a record behind a pointer; to be led to anything else is an error. -/
def walkPointee (whole : Value → Value) (v : Value) : Walked :=
  match v with
  | .record .. =>
    let walked := walkRecord r memo schema depth v
    { walked with value := whole walked.value }
  | _ => ⟨.error (.failed (.notAPointerToRecord (whole v).typeName)), whole v, memo, []⟩

/-- Walks through a record or the record that a pointer leads to. -/
def walk : Value → Walked
  | .record name vs => walkRecord r memo schema depth (.record name vs)
  | .nil t => ⟨.ok (), .nil t, memo, []⟩
  | .present v => walkPointee r memo schema depth .present v
  | .owned v => walkPointee r memo schema depth .owned v
  | v => ⟨.error (.failed (.notARecord v.typeName)), v, memo, []⟩

end Nested

/-- A walk as work on the value that was walked. -/
def Walked.work (w : Walked) : Work Value :=
  ⟨w.value, ⟨w.memo, w.events⟩, w.result⟩

/-- The rules of a dispatcher. -/
def Dispatcher.rules (d : Dispatcher) (context : Context) : Nested.Rules :=
  ⟨context, d.handler?, d.shownName, Memo.ask⟩

end FieldNotes
