import FieldNotes.Dispatcher.Walk

/-! # Walks that keep one path

The parts of a walk are given their paths.  Here is a walk that keeps a single path instead: a step
is put at its end before a part is walked and taken off again afterwards, also if a handler failed
there.  Whatever happens in between may leave the path in any form.

Such a walk writes down what it observes: the root and the path at which it is about to go over the
fields of a record, to look at an item of a sequence, or to run a handler.

* `Trail.enter` is this walk, and `Dispatcher.trail` the whole of it.
* `Trail.Tracks`: a walk with one path does what a walk by given paths does, and its path is
  afterwards what it was before, unless it came to a sudden end.  What it has observed stays.
* `Trail.enter_tracks`, `Dispatcher.walked_trail`: so it is with the walk of a record.
* `Trail.enter_observes`, `Trail.descend_observes`: the records that are entered and the items of
  sequences are all observed.
-/

namespace FieldNotes

/-- Something that is observed on the way. -/
inductive Observation
  /-- The fields of the record at a path are about to be gone over. -/
  | record (root : Value) (path : Path)
  /-- An item of a sequence is about to be looked at. -/
  | item (root : Value) (path : Path)
  /-- A handler is about to run. -/
  | run (root : Value) (call : Call)

/-- The run that is about to begin. -/
def Observation.call? : Observation → Option Call
  | .run _ call => some call
  | _ => none

namespace Trail

/-- What changes during a walk that keeps its path. -/
structure State extends Walk.State where
  path : Path
  observations : List Observation

end Trail

/-- A part of a walk that keeps its path. -/
abbrev Trail := EStateM Halt Trail.State

namespace Trail

/-! ## The walk -/

section Steps

variable {α : Type}

/-- Does a part of a walk at the path that is kept. -/
def here (m : Path → Walk α) : Trail α := fun s =>
  match EStateM.run (m s.path) s.toState with
  | .ok a s' => .ok a { s with toState := s' }
  | .error h s' => .error h { s with toState := s' }

/-- Writes down what is observed. -/
def note (o : Value → Path → Observation) : Trail Unit :=
  modify fun s => { s with observations := s.observations ++ [o s.root s.path] }

/-- Takes a step, and takes it back.  A fault leaves the path as it is. -/
def within (step : Step) (m : Trail Unit) : Trail Unit := fun s =>
  match EStateM.run m { s with path := s.path ++ [step] } with
  | .ok () s' => .ok () { s' with path := s'.path.dropLast }
  | .error (.failed e) s' => .error (.failed e) { s' with path := s'.path.dropLast }
  | .error h s' => .error h s'

end Steps

variable (w : Walk.Setting)

/-- Does what a tag of the field at the path asks for. -/
def obey (index : Nat) (f : Field) (t : Tag) : Trail Unit := do
  if t.isStop then return
  match w.dispatcher.handler? t.name with
  | none => return
  | some h =>
    let arg ← here fun _ => Walk.argument h t
    note fun root path => .run root ⟨path, index, f, t, arg⟩
    here fun path => Walk.call w h path index f t arg

/-- Enters the value at the path if it is a record. -/
def ifRecord (enter : Trail Unit) : Trail Unit := do
  if (← here Walk.kindAt?) = some .record then enter

/-- Enters the value at the path wherever it holds a record. -/
def descend (enter : Trail Unit) : Trail Unit := do
  match ← here Walk.valueAt? with
  | none => return
  | some v =>
    match v.kind with
    | .record => enter
    | .pointer => within .deref (ifRecord enter)
    | .sequence =>
      (List.range (v.items?.getD []).length).forM fun i => within (.index i) do
        note .item
        ifRecord enter
    | .scalar => return

/-- Visits the field at the path. -/
def visit (enter : Trail Unit) (index : Nat) (f : Field) : Trail Unit := do
  let tags := Tag.ofRow f.row
  tags.forM (obey w index f)
  if tags.any Tag.isStop then here fun _ => Walk.tell [.suppressed f.name] else descend enter

/-- Visits the exported fields of the record at the path. -/
def fields (enter : Trail Unit) : Trail Unit := do
  match ← here Walk.valueAt? with
  | some (.record name values) =>
    ((w.schema.fields name).take values.length).zipIdx.forM fun (f, i) =>
      if f.exported then within (.field i) (visit w enter i f) else return
  | _ => return

/-- Enters the record at the path, going down at most `depth` records. -/
def enter : (depth : Nat) → Trail Unit
  | 0 => throw .exhausted
  | depth + 1 => do
    note .record
    fields w (enter depth)

/-! ## The same as by given paths -/

variable {α β : Type}

theorem run_here (m : Path → Walk α) (s : State) :
    (here m).run s = match (m s.path).run s.toState with
      | .ok a s' => .ok a { s with toState := s' }
      | .error h s' => .error h { s with toState := s' } :=
  rfl

theorem run_note (o : Value → Path → Observation) (s : State) :
    (note o).run s = .ok () { s with observations := s.observations ++ [o s.root s.path] } :=
  rfl

theorem run_within (step : Step) (m : Trail Unit) (s : State) :
    (within step m).run s = match m.run { s with path := s.path ++ [step] } with
      | .ok () s' => .ok () { s' with path := s'.path.dropLast }
      | .error (.failed e) s' => .error (.failed e) { s' with path := s'.path.dropLast }
      | .error h s' => .error h s' :=
  rfl

/-- An end without the path and the observations. -/
def forget : EStateM.Result Halt State α → EStateM.Result Halt Walk.State α
  | .ok a s => .ok a s.toState
  | .error h s => .error h s.toState

/-- An end at which the path is what it was at the beginning; only a sudden end may leave it
longer. -/
def Restores (s : State) : EStateM.Result Halt State α → Prop
  | .ok _ s' => s'.path = s.path
  | .error (.failed _) s' => s'.path = s.path
  | .error _ _ => True

/-- The state at an end. -/
def endState : EStateM.Result Halt State α → State
  | .ok _ s => s
  | .error _ s => s

/-- A part of a walk that keeps its path does what is done at given paths, and restores its path.
Whatever was observed before stays written down. -/
structure Tracks (m : Trail α) (m' : Path → Walk α) : Prop where
  same : ∀ s, forget (m.run s) = (m' s.path).run s.toState
  back : ∀ s, Restores s (m.run s)
  grows : ∀ s, s.observations <+: (endState (m.run s)).observations

namespace Tracks

variable {m : Trail α} {m' : Path → Walk α}

theorem here (m' : Path → Walk α) : Tracks (here m') m' := by
  constructor
  · intro s
    rw [run_here]
    cases (m' s.path).run s.toState <;> rfl
  · intro s
    rw [run_here]
    cases (m' s.path).run s.toState with
    | ok a s' => rfl
    | error h s' => cases h <;> trivial
  · intro s
    rw [run_here]
    cases (m' s.path).run s.toState <;> exact List.prefix_rfl

theorem pure (a : α) : Tracks (Pure.pure a) fun _ => Pure.pure a :=
  ⟨fun _ => rfl, fun _ => rfl, fun _ => List.prefix_rfl⟩

theorem bind (hm : Tracks m m') {k : α → Trail β} {k' : α → Path → Walk β}
    (hk : ∀ a, Tracks (k a) (k' a)) :
    Tracks (m >>= k) fun path => m' path >>= fun a => k' a path := by
  have hrun (s : State) : forget ((m >>= k).run s) =
      (m' s.path >>= fun a => k' a s.path).run s.toState ∧ Restores s ((m >>= k).run s) ∧
        s.observations <+: (endState ((m >>= k).run s)).observations := by
    have hsame := hm.same s
    have hback := hm.back s
    have hgrows := hm.grows s
    rw [EStateM.run_bind, EStateM.run_bind, ← hsame]
    cases hend : m.run s with
    | error h s' =>
      rw [hend] at hback hgrows
      refine ⟨rfl, ?_, hgrows⟩
      cases h with
      | failed e => exact hback
      | faulted f => trivial
      | exhausted => trivial
    | ok a s' =>
      -- what follows begins at the same path
      rw [hend] at hback hgrows
      have hpath : s'.path = s.path := hback
      have hnext := (hk a).same s'
      have hrest := (hk a).back s'
      rw [hpath] at hnext
      refine ⟨hnext, ?_, hgrows.trans ((hk a).grows s')⟩
      simp only
      cases hlast : (k a).run s' with
      | ok b s'' =>
        rw [hlast] at hrest
        exact Eq.trans hrest hpath
      | error h s'' =>
        rw [hlast] at hrest
        cases h with
        | failed e => exact Eq.trans hrest hpath
        | faulted f => trivial
        | exhausted => trivial
  exact ⟨fun s => (hrun s).1, fun s => (hrun s).2.1, fun s => (hrun s).2.2⟩

/-- What is written down stays, too. -/
theorem grows_note (o : Value → Path → Observation) (hm : Tracks m m') (s : State) :
    s.observations ++ [o s.root s.path] <+:
      (endState ((do Trail.note o; m : Trail α).run s)).observations :=
  hm.grows { s with observations := s.observations ++ [o s.root s.path] }

theorem note (o : Value → Path → Observation) {m' : Path → Walk α} (hm : Tracks m m') :
    Tracks (do Trail.note o; m) m' :=
  ⟨fun s => hm.same { s with observations := s.observations ++ [o s.root s.path] },
    fun s => hm.back { s with observations := s.observations ++ [o s.root s.path] },
    fun s => (List.prefix_append _ _).trans (hm.grows_note o s)⟩

theorem endState_within (step : Step) (m : Trail Unit) (s : State) :
    (endState ((Trail.within step m).run s)).observations =
      (endState (m.run { s with path := s.path ++ [step] })).observations := by
  rw [run_within]
  cases m.run { s with path := s.path ++ [step] } with
  | ok u s' => rfl
  | error h s' => cases h <;> rfl

theorem within (step : Step) {m : Trail Unit} {m' : Path → Walk Unit} (hm : Tracks m m') :
    Tracks (within step m) fun path => m' (path ++ [step]) := by
  have hgrows (s : State) :
      s.observations <+: (endState ((Trail.within step m).run s)).observations := by
    rw [endState_within]
    exact hm.grows { s with path := s.path ++ [step] }
  have hrun (s : State) : forget ((Trail.within step m).run s) =
      (m' (s.path ++ [step])).run s.toState ∧ Restores s ((Trail.within step m).run s) := by
    have hsame := hm.same { s with path := s.path ++ [step] }
    have hback := hm.back { s with path := s.path ++ [step] }
    have hdrop : (s.path ++ [step]).dropLast = s.path := List.dropLast_concat
    rw [run_within, ← hsame]
    cases hend : m.run { s with path := s.path ++ [step] } with
    | ok a s' =>
      rw [hend] at hback
      have hpath : s'.path = s.path ++ [step] := hback
      exact ⟨rfl, by simp only [Restores, hpath, hdrop]⟩
    | error h s' =>
      rw [hend] at hback
      cases h with
      | failed e =>
        have hpath : s'.path = s.path ++ [step] := hback
        exact ⟨rfl, by simp only [Restores, hpath, hdrop]⟩
      | faulted f => exact ⟨rfl, trivial⟩
      | exhausted => exact ⟨rfl, trivial⟩
  exact ⟨fun s => (hrun s).1, fun s => (hrun s).2, hgrows⟩

theorem forM {ι : Type} {f : ι → Trail Unit} {f' : ι → Path → Walk Unit}
    (hf : ∀ i, Tracks (f i) (f' i)) (l : List ι) :
    Tracks (l.forM f) fun path => l.forM fun i => f' i path := by
  induction l with
  | nil => exact pure ()
  | cons i l ih => exact (hf i).bind fun _ => ih

theorem throw (h : Halt) : Tracks (throw h : Trail α) fun _ => throw h := by
  refine ⟨fun _ => rfl, ?_, fun _ => List.prefix_rfl⟩
  intro s
  cases h <;> trivial

end Tracks

theorem obey_tracks (index : Nat) (f : Field) (t : Tag) :
    Tracks (obey w index f t) fun path => Walk.obey w path index f t := by
  unfold obey Walk.obey
  cases t.isStop with
  | true => exact .pure ()
  | false =>
    cases w.dispatcher.handler? t.name with
    | none => exact .pure ()
    | some h => exact (Tracks.here _).bind fun arg => .note _ (.here _)

section Entering

variable {go : Trail Unit} {go' : Path → Walk Unit} (hgo : Tracks go go')

include hgo

theorem ifRecord_tracks : Tracks (ifRecord go) fun path => (do
    if (← Walk.kindAt? path) = some .record then go' path) := by
  refine (Tracks.here _).bind fun kind => ?_
  by_cases hkind : kind = some .record
  · simp only [hkind, if_true]
    exact hgo
  · simp only [hkind, if_false]
    exact .pure ()

theorem descend_tracks : Tracks (descend go) (Walk.descend go') := by
  have hrecord := ifRecord_tracks hgo
  refine (Tracks.here _).bind fun v => ?_
  cases v with
  | none => exact .pure ()
  | some v =>
    cases hkind : v.kind with
    | record => simpa only [hkind] using hgo
    | pointer => simpa only [hkind] using hrecord.within .deref
    | sequence =>
      simpa only [hkind] using Tracks.forM (fun i => (hrecord.note _).within (.index i)) _
    | scalar => simpa only [hkind] using Tracks.pure ()

theorem visit_tracks (index : Nat) (f : Field) :
    Tracks (visit w go index f) fun path => Walk.visit w go' path index f := by
  refine (Tracks.forM (obey_tracks w index f) _).bind fun _ => ?_
  split
  · exact .here _
  · exact descend_tracks hgo

end Entering

theorem fields_tracks {go : Trail Unit} {go' : Path → Walk Unit} (hgo : Tracks go go') :
    Tracks (fields w go) fun path => do
      match ← Walk.valueAt? path with
      | some (.record name values) =>
        ((w.schema.fields name).take values.length).zipIdx.forM fun (f, i) =>
          if f.exported then Walk.visit w go' (path ++ [.field i]) i f else return
      | _ => return := by
  have hmember (p : Field × Nat) : Tracks
      (if p.1.exported then within (.field p.2) (visit w go p.2 p.1) else pure ())
      fun path => if p.1.exported then
        Walk.visit w go' (path ++ [.field p.2]) p.2 p.1 else pure () := by
    cases p.1.exported with
    | true => exact (visit_tracks w hgo p.2 p.1).within (.field p.2)
    | false => exact .pure ()
  refine (Tracks.here _).bind fun v => ?_
  cases v with
  | none => exact .pure ()
  | some v =>
    cases v with
    | record name values => exact .forM hmember _
    | _ => exact .pure ()

/-- A walk of a record with one path does what the walk by given paths does. -/
theorem enter_tracks (depth : Nat) : Tracks (enter w depth) (Walk.enter w depth) := by
  induction depth with
  | zero => exact .throw .exhausted
  | succ depth ih => exact .note _ (fields_tracks w ih)

/-! ## What is observed -/

/-- From one state to a later one, this was written down. -/
def State.Observes (s s' : State) (o : Observation) : Prop :=
  ∃ before, s.observations ++ before ++ [o] <+: s'.observations

/-- All of these items of the sequence at the path were looked at, up to the one at which the walk
was broken off, if it was. -/
def LooksAt (s : State) (items : List Nat) : EStateM.Result Halt State Unit → Prop
  | .ok _ s' => ∀ i ∈ items, ∃ root, s.Observes s' (.item root (s.path ++ [.index i]))
  | .error _ s' => ∃ reached i rest, items = reached ++ i :: rest ∧
      ∀ k ∈ reached ++ [i], ∃ root, s.Observes s' (.item root (s.path ++ [.index k]))

namespace State.Observes

variable {s s' s'' : State} {o : Observation}

theorem later (h : s.Observes s' o) (hlater : s'.observations <+: s''.observations) :
    s.Observes s'' o := by
  obtain ⟨before, hbefore⟩ := h
  exact ⟨before, hbefore.trans hlater⟩

theorem sooner (h : s'.Observes s'' o) (hsooner : s.observations <+: s'.observations) :
    s.Observes s'' o := by
  obtain ⟨before, hbefore⟩ := h
  obtain ⟨more, hmore⟩ := hsooner
  refine ⟨more ++ before, ?_⟩
  rwa [← List.append_assoc, hmore]

end State.Observes

/-- The record at the path is observed when it is entered. -/
theorem enter_observes (depth : Nat) (s : State) :
    s.Observes (endState ((enter w (depth + 1)).run s)) (.record s.root s.path) := by
  refine ⟨[], ?_⟩
  rw [List.append_nil]
  exact (fields_tracks w (enter_tracks w depth)).grows_note .record s

section Looking

variable {go : Trail Unit} {go' : Path → Walk Unit} (hgo : Tracks go go')

include hgo

theorem items_observed (items : List Nat) (s : State) :
    LooksAt s items ((items.forM fun i => within (.index i) do
      note .item
      ifRecord go).run s) := by
  induction items generalizing s with
  | nil => exact fun i hi => absurd hi List.not_mem_nil
  | cons i items ih =>
    have hrecord := ifRecord_tracks hgo
    have hlook (i : Nat) := (hrecord.note .item).within (.index i)
    have hitem : s.Observes (endState ((within (.index i) do note .item; ifRecord go).run s))
        (.item s.root (s.path ++ [.index i])) := by
      refine ⟨[], ?_⟩
      rw [List.append_nil, Tracks.endState_within]
      exact hrecord.grows_note .item { s with path := s.path ++ [.index i] }
    rw [List.forM, EStateM.run_bind]
    cases hend : (within (.index i) do note .item; ifRecord go).run s with
    | error h s' =>
      rw [hend] at hitem
      exact ⟨[], i, items, rfl, List.forall_mem_singleton.2 ⟨s.root, hitem⟩⟩
    | ok u s' =>
      rw [hend] at hitem
      have hback := (hlook i).back s
      have hgrows := (hlook i).grows s
      rw [hend] at hback hgrows
      have hpath : s'.path = s.path := hback
      have hrest := ih s'
      have hlater := (Tracks.forM hlook items).grows s'
      simp only
      -- what is observed later on is observed at the same path
      cases hlast : (items.forM fun i => within (.index i) do note .item; ifRecord go).run s' with
      | ok u' s'' =>
        rw [hlast] at hrest hlater
        refine List.forall_mem_cons.2 ⟨⟨s.root, hitem.later hlater⟩, ?_⟩
        intro k hk
        obtain ⟨root, hobserved⟩ := hrest k hk
        rw [hpath] at hobserved
        exact ⟨root, hobserved.sooner hgrows⟩
      | error h s'' =>
        rw [hlast] at hrest hlater
        obtain ⟨reached, k, rest, rfl, hreached⟩ := hrest
        refine ⟨i :: reached, k, rest, rfl, ?_⟩
        refine List.forall_mem_cons.2 ⟨⟨s.root, hitem.later hlater⟩, ?_⟩
        intro k' hk'
        obtain ⟨root, hobserved⟩ := hreached k' hk'
        rw [hpath] at hobserved
        exact ⟨root, hobserved.sooner hgrows⟩

/-- Going down into a sequence, all its items are looked at, as many as it has at the beginning. -/
theorem descend_observes {s : State} {v : Value} {vs : List Value}
    (hv : s.root.get? s.path = some v) (hitems : v.items? = some vs) :
    LooksAt s (List.range vs.length) ((descend go).run s) := by
  have hlooked := items_observed hgo (List.range vs.length) s
  have hvalue : (here Walk.valueAt?).run s = .ok (some v) s := by
    rw [← hv]
    rfl
  rw [descend, EStateM.run_bind, hvalue]
  cases v with
  | list t xs =>
    obtain rfl := Option.some.inj hitems
    exact hlooked
  | array t xs =>
    obtain rfl := Option.some.inj hitems
    exact hlooked
  | _ => cases hitems

end Looking

end Trail

/-- How a walk with one path ended, where its path then was, and what it had observed. -/
structure Trailed where
  walked : Walked
  path : Path
  observations : List Observation

namespace Dispatcher

/-- Walks a record with one path. -/
def trail (d : Dispatcher) (schema : Schema) (context : Context) (depth : Nat) (v : Value) :
    Trailed :=
  let start : Trail.State :=
    { root := v, memo := d.memo, events := [.walking v.typeName], path := [], observations := [] }
  match (Trail.enter ⟨schema, d, context⟩ depth).run start with
  | .ok () s => ⟨⟨.ok (), s.root, s.memo, s.events⟩, s.path, s.observations⟩
  | .error h s => ⟨⟨.error h, s.root, s.memo, s.events⟩, s.path, s.observations⟩

theorem walked_trail (d : Dispatcher) (schema : Schema) (context : Context) (depth : Nat)
    (v : Value) :
    (d.trail schema context depth v).walked = d.walkRecord schema context depth v := by
  let start : Trail.State :=
    { root := v, memo := d.memo, events := [.walking v.typeName], path := [], observations := [] }
  have hsame := (Trail.enter_tracks ⟨schema, d, context⟩ depth).same start
  rw [trail, walkRecord]
  simp only [start] at hsame
  rw [← hsame]
  cases (Trail.enter ⟨schema, d, context⟩ depth).run _ <;> rfl

end Dispatcher

end FieldNotes
