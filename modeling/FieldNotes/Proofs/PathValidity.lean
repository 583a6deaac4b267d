import FieldNotes.Proofs.Memo
import FieldNotes.Proofs.Refinement
import FieldNotes.Proofs.Trail
import FieldNotes.Proofs.Typing

/-! # Paths of walks lead where they should

A walk computes a path before handlers run, and goes by it while they run and after.  It may do so
because they write at the path or below it only: that never touches the way to it.

* `Observation.Sound` says of what was observed that its path leads where it should.  The path of a
  run leads to the value of the very field that the handler is told of.
* `Trail.Leaves` and `Trail.Keeps`: a part of a walk writes at its path only, and what it observes
  is sound.
* `Trail.obeyAll_leaves`, `Trail.descend_keeps`, `Trail.enter_keeps`: so do the parts of a walk, as
  long as handlers leave values of the types that they find.
* `Dispatcher.trail_sound`: all that the walk of a record observes is sound, and it observes all
  that it enters and looks at.
-/

namespace FieldNotes

/-- Where it succeeds, a handler leaves a value of the type that it found. -/
def Handler.KeepsTypes (schema : Schema) (h : Handler) : Prop :=
  ∀ site arg t, site.value.Fits schema t → (h.run site arg).outcome = .done →
    (h.run site arg).value.Fits schema t

/-! ## Fields of records -/

namespace Value

variable {name : String} {vs : List Value} {i : Nat}

/-- A record keeps its type if a value of the declared type is written to a field. -/
theorem Fits.set {schema : Schema} {decl : FieldDecl} {x : Value}
    (h : (Value.record name vs).Fits schema (.record name))
    (hdecl : (schema.decls name)[i]? = some decl) (hx : x.Fits schema decl.ty) :
    (Value.record name (vs.set i x)).Fits schema (.record name) := by
  cases h with
  | record hvs =>
    refine .record fun j d c hd hc => ?_
    by_cases hij : i = j
    · subst hij
      rcases Option.some.inj (hdecl.symm.trans hd) with rfl
      rw [List.getElem?_set_self'] at hc
      cases hold : vs[i]? with
      | none => simp [hold] at hc
      | some y =>
        simp only [hold, Option.map_eq_map, Option.map_some, Function.const_apply,
          Option.some.injEq] at hc
        exact hc ▸ hx
    · rw [List.getElem?_set_ne hij] at hc
      exact hvs j d c hd hc

end Value

/-! ## What is observed -/

/-- The path of an observation leads to a record, to an item, or to the value of an exported field
as it is declared in the type of the record around it.  To the value of a field it leads whatever is
written there. -/
def Observation.Sound (schema : Schema) : Observation → Prop
  | .record root path => ∃ name vs, root.get? path = some (.record name vs)
  | .item root path => ∃ v, root.get? path = some v
  | .run root c => ∃ around name vs decl v,
      c.path = around ++ [.field c.index] ∧ root.get? around = some (.record name vs) ∧
      (schema.decls name)[c.index]? = some decl ∧ decl.field = c.field ∧ c.field.exported = true ∧
      vs[c.index]? = some v ∧ root.get? c.path = some v ∧ v.Fits schema decl.ty ∧
      ∀ x, (root.put c.path x).get? c.path = some x

namespace Trail

/-- All that was observed was sound, and every run that was about to begin began. -/
structure State.Sound (schema : Schema) (s : State) : Prop where
  observations : ∀ x ∈ s.observations, x.Sound schema
  runs : s.observations.filterMap Observation.call? = calls s.events

/-- Begun in `s`, a part of a walk leaves a value with `P` at the path, and nothing else changes in
the root; or it ends before its time.  All that is observed is sound. -/
def Leaves (schema : Schema) (P : Value → Prop) (m : Trail Unit) (s : State) : Prop :=
  match m.run s with
  | .ok () s' => s'.path = s.path ∧ (∃ x, P x ∧ s'.root = s.root.put s.path x) ∧ s'.Sound schema
  | .error _ s' => s'.Sound schema

/-- The same, begun wherever the path leads to `v`. -/
def Keeps (schema : Schema) (v : Value) (P : Value → Prop) (m : Trail Unit) : Prop :=
  ∀ s, s.root.get? s.path = some v → s.Sound schema → Leaves schema P m s

variable {schema : Schema} {P Q : Value → Prop} {v c : Value}

theorem Leaves.mono {m : Trail Unit} {s : State} (h : Leaves schema P m s)
    (hPQ : ∀ x, P x → Q x) : Leaves schema Q m s := by
  rw [Leaves] at h ⊢
  cases hend : m.run s with
  | ok u s' =>
    rw [hend] at h
    rcases h with ⟨hpath, ⟨x, hx, hroot⟩, hsound⟩
    exact ⟨hpath, ⟨x, hPQ x hx, hroot⟩, hsound⟩
  | error e s' =>
    rw [hend] at h
    exact h

theorem Keeps.mono {m : Trail Unit} (h : Keeps schema v P m) (hPQ : ∀ x, P x → Q x) :
    Keeps schema v Q m :=
  fun s hs hsound => (h s hs hsound).mono hPQ

theorem Keeps.skip (hv : P v) : Keeps schema v P (pure ()) := by
  intro s hs hsound
  exact ⟨rfl, ⟨v, hv, (Value.put_self hs).symm⟩, hsound⟩

theorem Leaves.seq {m m' : Trail Unit} {s : State} (hs : s.root.get? s.path = some v)
    (h : Leaves schema P m s)
    (h' : ∀ s' x, P x → s'.path = s.path → s'.root = s.root.put s.path x → s'.Sound schema →
      Leaves schema Q m' s') : Leaves schema Q (m >>= fun _ => m') s := by
  rw [Leaves] at h ⊢
  rw [EStateM.run_bind]
  cases hend : m.run s with
  | error e s' =>
    rw [hend] at h
    exact h
  | ok u s' =>
    rw [hend] at h
    rcases h with ⟨hpath, ⟨x, hx, hroot⟩, hsound⟩
    have hnext := h' s' x hx hpath hroot hsound
    rw [Leaves] at hnext
    simp only
    cases hlast : m'.run s' with
    | error e s'' =>
      rw [hlast] at hnext
      exact hnext
    | ok u' s'' =>
      rw [hlast] at hnext
      rcases hnext with ⟨hpath', ⟨y, hy, hroot'⟩, hsound'⟩
      refine ⟨hpath'.trans hpath, ⟨y, hy, ?_⟩, hsound'⟩
      rw [hroot', hroot, hpath, Value.put_put hs]

theorem Keeps.seq {m m' : Trail Unit} (h : Keeps schema v P m)
    (h' : ∀ x, P x → Keeps schema x Q m') : Keeps schema v Q (m >>= fun _ => m') := by
  intro s hs hsound
  refine (h s hs hsound).seq hs ?_
  intro s' x hx hpath hroot hsound'
  exact h' x hx s' (by rw [hpath, hroot, Value.get?_put hs]) hsound'

theorem Keeps.forM {ι : Type} {f : ι → Trail Unit} {l : List ι} (hv : P v)
    (h : ∀ i ∈ l, ∀ x, P x → Keeps schema x P (f i)) : Keeps schema v P (l.forM f) := by
  induction l generalizing v with
  | nil => exact .skip hv
  | cons i l ih =>
    refine (h i List.mem_cons_self v hv).seq fun x hx => ?_
    exact ih hx fun j hj => h j (List.mem_cons_of_mem _ hj)

/-- To look at the value at the path. -/
theorem Keeps.look {f : Option Value → Trail Unit} (h : Keeps schema v P (f (some v))) :
    Keeps schema v P (here Walk.valueAt? >>= f) := by
  intro s hs hsound
  have hrun : (here Walk.valueAt? >>= f).run s = (f (some v)).run s := by
    have hvalue : (here Walk.valueAt?).run s = .ok (s.root.get? s.path) s := rfl
    rw [EStateM.run_bind, hvalue, hs]
  rw [Leaves, hrun]
  exact h s hs hsound

theorem Keeps.note {m : Trail Unit} {o : Value → Path → Observation}
    (ho : ∀ root path, root.get? path = some v → (o root path).Sound schema)
    (hcall : ∀ root path, (o root path).call? = none) (h : Keeps schema v P m) :
    Keeps schema v P (do Trail.note o; m) := by
  intro s hs hsound
  refine h { s with observations := s.observations ++ [o s.root s.path] } hs ⟨?_, ?_⟩
  · exact List.forall_mem_append.2
      ⟨hsound.observations, List.forall_mem_singleton.2 (ho s.root s.path hs)⟩
  · rw [List.filterMap_append, hsound.runs]
    simp [hcall]

/-- Going down a step: what is left of a part is left of the whole. -/
theorem Leaves.within {m : Trail Unit} {step : Step} {s : State}
    (hs : s.root.get? s.path = some v) (hc : v.get? [step] = some c)
    (h : Leaves schema Q m { s with path := s.path ++ [step] })
    (hput : ∀ x, Q x → P (v.put [step] x)) : Leaves schema P (within step m) s := by
  rw [Leaves] at h ⊢
  rw [run_within]
  cases hend : m.run { s with path := s.path ++ [step] } with
  | error e s' =>
    rw [hend] at h
    cases e <;> exact ⟨h.observations, h.runs⟩
  | ok u s' =>
    rw [hend] at h
    rcases h with ⟨hpath, ⟨x, hx, hroot⟩, hsound⟩
    refine ⟨?_, ⟨v.put [step] x, hput x hx, ?_⟩, ⟨hsound.observations, hsound.runs⟩⟩
    · simp only [hpath, List.dropLast_concat]
    · simp only [hroot, Value.put_append hs hc]

theorem Keeps.within {m : Trail Unit} {step : Step} (hc : v.get? [step] = some c)
    (h : Keeps schema c Q m) (hput : ∀ x, Q x → P (v.put [step] x)) :
    Keeps schema v P (within step m) := by
  intro s hs hsound
  refine Leaves.within hs hc (h _ ?_ ⟨hsound.observations, hsound.runs⟩) hput
  rw [Value.get?_append_of_get? hs, hc]

theorem run_ifRecord (go : Trail Unit) (s : State) :
    (ifRecord go).run s =
      if (s.root.get? s.path).map Value.kind = some .record then go.run s else .ok () s := by
  have hkind : EStateM.run (here Walk.kindAt?) s =
      .ok ((s.root.get? s.path).map Value.kind) s := rfl
  rw [ifRecord, EStateM.run_bind, hkind]
  simp only
  split <;> rfl

/-- A step that leads nowhere leads to no record. -/
theorem Keeps.stray {step : Step} (hc : v.get? [step] = none) (hv : P v) (go : Trail Unit) :
    Keeps schema v P (Trail.within step (ifRecord go)) := by
  intro s hs hsound
  have hnone : s.root.get? (s.path ++ [step]) = none := by
    rw [Value.get?_append_of_get? hs, hc]
  have hrun := run_ifRecord go { s with path := s.path ++ [step] }
  simp only [hnone, Option.map_none, reduceCtorEq, if_false] at hrun
  rw [Leaves, run_within, hrun]
  exact ⟨List.dropLast_concat, ⟨v, hv, (Value.put_self hs).symm⟩,
    ⟨hsound.observations, hsound.runs⟩⟩

/-! ## Obeying tags -/

variable {w : Walk.Setting}

/-- The path leads to the value of a field, which is of the type that is declared for it. -/
structure At (w : Walk.Setting) (name : String) (index : Nat) (decl : FieldDecl) (v : Value)
    (s : State) : Prop where
  around : ∃ path vs, s.path = path ++ [.field index] ∧ s.root.get? path = some (.record name vs) ∧
    vs[index]? = some v
  fits : v.Fits w.schema decl.ty

namespace At

variable {name : String} {index : Nat} {decl : FieldDecl} {s s' : State} {x : Value}

theorem get? (hat : At w name index decl v s) : s.root.get? s.path = some v := by
  rcases hat.around with ⟨path, vs, hpath, hrecord, hv⟩
  rw [hpath, Value.get?_append_of_get? hrecord, Value.get?_record hv]

/-- It still does when another value of the type was written at the path. -/
theorem written (hat : At w name index decl v s) (hx : x.Fits w.schema decl.ty)
    (hpath : s'.path = s.path) (hroot : s'.root = s.root.put s.path x) :
    At w name index decl x s' := by
  rcases hat.around with ⟨path, vs, hsplit, hrecord, hv⟩
  rcases List.getElem?_eq_some_iff.1 hv with ⟨hlt, _⟩
  refine ⟨⟨path, vs.set index x, hpath.trans hsplit, ?_, by simp [hlt]⟩, hx⟩
  rw [hroot, hsplit, Value.put_append hrecord (Value.get?_record hv), Value.put_record hv,
    Value.get?_put hrecord]

/-- So what is observed when a handler is about to run is sound. -/
theorem sound (hat : At w name index decl v s) (hdecl : (w.schema.decls name)[index]? = some decl)
    (hexported : decl.field.exported = true) (t : Tag) (arg : Arg) :
    (Observation.run s.root ⟨s.path, index, decl.field, t, arg⟩).Sound w.schema := by
  rcases hat.around with ⟨path, vs, hsplit, hrecord, hv⟩
  exact ⟨path, name, vs, decl, v, hsplit, hrecord, hdecl, rfl, hexported, hv, hat.get?, hat.fits,
    Value.get?_put hat.get?⟩

end At

section Handlers

variable (hkeep : ∀ n h, w.dispatcher.handler? n = some h → h.KeepsTypes w.schema)
  {name : String} {index : Nat} {decl : FieldDecl}
  (hdecl : (w.schema.decls name)[index]? = some decl) (hexported : decl.field.exported = true)
  {s : State}

include hkeep hdecl hexported

/-- A handler runs at the value of its field, and leaves a value of the same type there. -/
theorem call_leaves {n : String} {h : Handler} (hh : w.dispatcher.handler? n = some h) (t : Tag)
    (arg : Arg) (hat : At w name index decl v s) (hsound : s.Sound w.schema) :
    Leaves w.schema (·.Fits w.schema decl.ty) (do
      note fun root path => .run root ⟨path, index, decl.field, t, arg⟩
      here fun path => Walk.call w h path index decl.field t arg) s := by
  have hobservations : ∀ x ∈ s.observations ++ [.run s.root ⟨s.path, index, decl.field, t, arg⟩],
      x.Sound w.schema :=
    List.forall_mem_append.2
      ⟨hsound.observations, List.forall_mem_singleton.2 (hat.sound hdecl hexported t arg)⟩
  have hruns (rs : List Report) :
      (s.observations ++ [Observation.run s.root ⟨s.path, index, decl.field, t, arg⟩]).filterMap
          Observation.call? = calls (s.events ++ ([.dispatching decl.field.name t.name,
            .called ⟨s.path, index, decl.field, t, arg⟩] ++ rs.map .reported)) := by
    rw [List.filterMap_append, hsound.runs, calls_append, calls_append, calls_reported]
    rfl
  have hcall := Walk.call_simulates w h index decl.field t arg s.root v s.toJournal hat.get?
  simp only [Nested.Rules.call, Value.put_self hat.get?] at hcall
  have hfits := hkeep n h hh ⟨w.context, s.root, s.path, index, decl.field, v⟩ arg decl.ty hat.fits
  have hcontext : w.rules.context = w.context := rfl
  rw [Leaves, EStateM.run_bind, run_note]
  simp only [run_here, hcall, hcontext]
  generalize h.run ⟨w.context, s.root, s.path, index, decl.field, v⟩ arg = effect at hfits ⊢
  cases houtcome : effect.outcome with
  | done => exact ⟨rfl, ⟨effect.value, hfits houtcome, rfl⟩, ⟨hobservations, hruns effect.reports⟩⟩
  | failed e => exact ⟨hobservations, hruns effect.reports⟩
  | faulted f => exact ⟨hobservations, hruns effect.reports⟩

/-- Obeying a tag leaves a value of the declared type. -/
theorem obey_leaves (t : Tag) (hat : At w name index decl v s) (hsound : s.Sound w.schema) :
    Leaves w.schema (·.Fits w.schema decl.ty) (obey w index decl.field t) s := by
  have hskip : Leaves w.schema (·.Fits w.schema decl.ty) (pure ()) s :=
    Keeps.skip hat.fits s hat.get? hsound
  unfold obey
  cases t.isStop with
  | true => exact hskip
  | false =>
    cases hh : w.dispatcher.handler? t.name with
    | none => exact hskip
    | some h =>
      have hcalls := Memo.calls_ask s.memo h t
      simp only [Bool.false_eq_true, if_false]
      rw [Leaves, EStateM.run_bind, run_here, Walk.run_argument]
      have hnoted : s.observations.filterMap Observation.call? =
          calls (s.events ++ (s.memo.ask h t).events) := by
        rw [calls_append, hcalls, List.append_nil, hsound.runs]
      cases (s.memo.ask h t).result with
      | error f => exact ⟨hsound.observations, hnoted⟩
      | ok arg =>
        exact call_leaves hkeep hdecl hexported hh t arg ⟨hat.around, hat.fits⟩
          ⟨hsound.observations, hnoted⟩

/-- So does obeying some tags one after another. -/
theorem obeyAll_leaves (ts : List Tag) (hat : At w name index decl v s)
    (hsound : s.Sound w.schema) :
    Leaves w.schema (·.Fits w.schema decl.ty) (ts.forM (obey w index decl.field)) s := by
  induction ts generalizing v s with
  | nil => exact Keeps.skip hat.fits s hat.get? hsound
  | cons t ts ih =>
    refine (obey_leaves hkeep hdecl hexported t hat hsound).seq hat.get? ?_
    intro s' x hx hpath hroot hsound'
    exact ih (hat.written hx hpath hroot) hsound'

end Handlers

/-! ## Going down -/

section Entering

variable {go : Trail Unit}
  (hgo : ∀ name v, v.Fits schema (.record name) → Keeps schema v (·.Fits schema (.record name)) go)

include hgo

theorem ifRecord_keeps {t : Ty} (hv : v.Fits schema t) :
    Keeps schema v (·.Fits schema t) (ifRecord go) := by
  intro s hs hsound
  have hrun := run_ifRecord go s
  rw [hs, Option.map_some] at hrun
  cases hv with
  | record h =>
    rw [Leaves, hrun]
    exact hgo _ _ (.record h) s hs hsound
  | _ =>
    rw [Leaves, hrun]
    refine Keeps.skip ?_ s hs hsound
    constructor <;> assumption

omit hgo in
/-- A row in which a position is marked. -/
theorem exists_split {vs : List Value} {i : Nat} (h : i < vs.length) :
    ∃ pre c post, vs = pre ++ c :: post ∧ pre.length = i :=
  ⟨vs.take i, vs[i], vs.drop (i + 1), by rw [← List.drop_eq_getElem_cons, List.take_append_drop],
    List.length_take_of_le (Nat.le_of_lt h)⟩

/-- Going over the items of a sequence that has `n` items at the beginning.  It has as many when
each of them is looked at. -/
theorem items_keep {t elem : Ty} {n : Nat} {wrap : List Value → Value}
    (hget : ∀ pre c post, (wrap (pre ++ c :: post)).get? [.index pre.length] = some c)
    (hput : ∀ pre c post x,
      (wrap (pre ++ c :: post)).put [.index pre.length] x = wrap (pre ++ x :: post))
    (hwrap : ∀ vs : List Value, vs.length = n → (∀ c ∈ vs, c.Fits schema elem) →
      (wrap vs).Fits schema t)
    {vs : List Value} (hlength : vs.length = n) (hvs : ∀ c ∈ vs, c.Fits schema elem) :
    Keeps schema (wrap vs) (·.Fits schema t) ((List.range n).forM fun i => within (.index i) do
      note .item
      ifRecord go) := by
  let P (x : Value) : Prop := ∃ ws, x = wrap ws ∧ ws.length = n ∧ ∀ c ∈ ws, c.Fits schema elem
  have hloop : Keeps schema (wrap vs) P ((List.range n).forM fun i => within (.index i) do
      note .item
      ifRecord go) := by
    refine Keeps.forM ⟨vs, rfl, hlength, hvs⟩ ?_
    rintro i hi x ⟨ws, rfl, hws, hfits⟩
    rcases exists_split (by rw [hws]; exact List.mem_range.1 hi) with ⟨pre, c, post, rfl, rfl⟩
    rcases List.forall_mem_append.1 hfits with ⟨hpre, hmore⟩
    rcases List.forall_mem_cons.1 hmore with ⟨hc, hpost⟩
    refine .within (hget pre c post)
      (.note (fun _ _ hroot => ⟨c, hroot⟩) (fun _ _ => rfl) (ifRecord_keeps hgo hc)) ?_
    intro x hx
    have hall : ∀ d ∈ pre ++ x :: post, d.Fits schema elem :=
      List.forall_mem_append.2 ⟨hpre, List.forall_mem_cons.2 ⟨hx, hpost⟩⟩
    exact ⟨pre ++ x :: post, hput pre c post x, by simpa using hws, hall⟩
  refine hloop.mono ?_
  rintro x ⟨ws, rfl, hws, hfits⟩
  exact hwrap ws hws hfits

theorem descend_keeps {t : Ty} (hv : v.Fits schema t) :
    Keeps schema v (·.Fits schema t) (descend go) := by
  refine Keeps.look ?_
  cases hv with
  | scalar d => exact .skip (.scalar d)
  | sealed name d => exact .skip (.sealed name d)
  | record h => exact hgo _ _ (.record h)
  | nil t => exact .stray rfl (.nil t) go
  | present h =>
    exact .within rfl (ifRecord_keeps hgo h) fun x hx => by
      rw [Value.put_present]
      exact .present hx
  | owned h =>
    exact .within rfl (ifRecord_keeps hgo h) fun x hx => by
      rw [Value.put_owned]
      exact .owned hx
  | list h =>
    exact items_keep hgo (fun pre c post => Value.get?_list_index pre post c _)
      (fun pre c post x => Value.put_list_index pre post c x _) (fun ws _ hws => .list hws) rfl h
  | array h =>
    refine items_keep hgo (fun pre c post => Value.get?_array_index pre post c _)
      (fun pre c post x => Value.put_array_index pre post c x _) (fun ws hlength hws => ?_) rfl h
    have hfits := Value.Fits.array hws
    rwa [hlength] at hfits

end Entering

/-- Visiting a field leaves a value of the declared type. -/
theorem visit_leaves (hkeep : ∀ n h, w.dispatcher.handler? n = some h → h.KeepsTypes w.schema)
    {go : Trail Unit} (hgo : ∀ name v, v.Fits w.schema (.record name) →
      Keeps w.schema v (·.Fits w.schema (.record name)) go)
    {name : String} {index : Nat} {decl : FieldDecl}
    (hdecl : (w.schema.decls name)[index]? = some decl) (hexported : decl.field.exported = true)
    {s : State} (hat : At w name index decl v s) (hsound : s.Sound w.schema) :
    Leaves w.schema (·.Fits w.schema decl.ty) (visit w go index decl.field) s := by
  refine (obeyAll_leaves hkeep hdecl hexported _ hat hsound).seq hat.get? ?_
  intro s' x hx hpath hroot hsound'
  have hget := (hat.written hx hpath hroot).get?
  split
  · have hruns : s'.observations.filterMap Observation.call? =
        calls (s'.events ++ [.suppressed decl.field.name]) := by
      rw [calls_append, hsound'.runs]
      exact (List.append_nil _).symm
    exact ⟨rfl, ⟨x, hx, (Value.put_self hget).symm⟩, ⟨hsound'.observations, hruns⟩⟩
  · exact descend_keeps hgo hx s' hget hsound'

/-- Visiting a field of a record, if it is exported, leaves a record of the same type. -/
theorem member_keeps (hkeep : ∀ n h, w.dispatcher.handler? n = some h → h.KeepsTypes w.schema)
    {go : Trail Unit} (hgo : ∀ name v, v.Fits w.schema (.record name) →
      Keeps w.schema v (·.Fits w.schema (.record name)) go)
    {name : String} {index : Nat} {decl : FieldDecl}
    (hdecl : (w.schema.decls name)[index]? = some decl) {vs : List Value}
    (hc : vs[index]? = some c) (hvs : (Value.record name vs).Fits w.schema (.record name)) :
    Keeps w.schema (.record name vs)
      (fun x => ∃ ws, x = .record name ws ∧ ws.length = vs.length ∧
        x.Fits w.schema (.record name))
      (if decl.field.exported then within (.field index) (visit w go index decl.field)
        else pure ()) := by
  intro s hs hsound
  cases hexported : decl.field.exported with
  | false => exact Keeps.skip ⟨vs, rfl, rfl, hvs⟩ s hs hsound
  | true =>
    have hfits : c.Fits w.schema decl.ty := by
      cases hvs with
      | record h => exact h index decl c hdecl hc
    have hat : At w name index decl c { s with path := s.path ++ [.field index] } :=
      ⟨⟨s.path, vs, rfl, hs, hc⟩, hfits⟩
    refine Leaves.within hs (Value.get?_record hc)
      (visit_leaves hkeep hgo hdecl hexported hat ⟨hsound.observations, hsound.runs⟩) ?_
    intro x hx
    exact ⟨vs.set index x, Value.put_record hc x, by simp, by
      rw [Value.put_record hc]
      exact hvs.set hdecl hx⟩

/-- To enter a record is to leave a record of the same type. -/
theorem enter_keeps (hkeep : ∀ n h, w.dispatcher.handler? n = some h → h.KeepsTypes w.schema)
    (depth : Nat) (name : String) (v : Value) (hv : v.Fits w.schema (.record name)) :
    Keeps w.schema v (·.Fits w.schema (.record name)) (enter w depth) := by
  induction depth generalizing name v with
  | zero => exact fun s _ hsound => hsound
  | succ depth ih =>
    cases hv with
    | record hvs =>
      rename_i vs
      refine .note (fun root path hroot => ⟨name, vs, hroot⟩) (fun _ _ => rfl) (.look ?_)
      let P (x : Value) : Prop := ∃ ws, x = .record name ws ∧ ws.length = vs.length ∧
        x.Fits w.schema (.record name)
      refine Keeps.mono (P := P) (Keeps.forM ⟨vs, rfl, rfl, .record hvs⟩ ?_) ?_
      · rintro ⟨f, i⟩ hmem x ⟨ws, rfl, hws, hfits⟩
        -- the declaration of the field, and its value in the record as it is by now
        have hfield := List.mk_mem_zipIdx_iff_getElem?.1 hmem
        rw [List.getElem?_take] at hfield
        split at hfield
        · rename_i hi
          rw [Schema.fields, List.getElem?_map, Option.map_eq_some_iff] at hfield
          rcases hfield with ⟨decl, hdecl, rfl⟩
          have hc : ws[i]? = some ws[i] := List.getElem?_eq_getElem (by omega)
          have hmember := member_keeps hkeep (ih · ·) hdecl hc hfits
          rw [hws] at hmember
          exact hmember
        · cases hfield
      · rintro x ⟨ws, rfl, hws, hfits⟩
        exact hfits

end Trail

/-! ## Whole walks -/

/-- The walk of a record may keep one path: it does then what it does by given paths.

All that it observes is sound, whatever handlers write to the values of their fields, so long as
they keep to the types: where it goes over fields it finds a record, where it looks at an item there
still is one, and where a handler is about to run its path leads to the value of the very field.
Every run that was about to begin began.  Whatever state they are begun in, and whether they succeed
or a handler fails, the parts of a walk restore the path.  Every record that is entered is observed,
and so is every item of a sequence, as many as it has when the walk goes down into it; only behind
an item at which the walk is broken off no more are looked at. -/
theorem Dispatcher.trail_sound {d : Dispatcher} {schema : Schema} {name : String} {v : Value}
    (hv : v.Fits schema (.record name))
    (hkeep : ∀ n h, d.handler? n = some h → h.KeepsTypes schema) (context : Context)
    (depth : Nat) :
    let t := d.trail schema context depth v
    t.walked = d.walkRecord schema context depth v ∧
      (∀ x ∈ t.observations, x.Sound schema) ∧
      t.observations.filterMap Observation.call? = calls t.walked.events ∧
      ∀ (w : Walk.Setting) (depth : Nat) (s : Trail.State),
        Trail.Restores s ((Trail.enter w depth).run s) ∧
        Trail.Restores s ((Trail.descend (Trail.enter w depth)).run s) ∧
        (∀ index f, Trail.Restores s ((Trail.visit w (Trail.enter w depth) index f).run s)) ∧
        s.Observes (Trail.endState ((Trail.enter w (depth + 1)).run s)) (.record s.root s.path) ∧
        ∀ u us, s.root.get? s.path = some u → u.items? = some us →
          Trail.LooksAt s (List.range us.length)
            ((Trail.descend (Trail.enter w depth)).run s) := by
  intro t
  let start : Trail.State :=
    { root := v, memo := d.memo, events := [.walking v.typeName], path := [], observations := [] }
  have hstart : start.Sound schema := ⟨fun x hx => absurd hx List.not_mem_nil, rfl⟩
  have hleaves := Trail.enter_keeps (w := ⟨schema, d, context⟩) hkeep depth name v hv start
    (Value.get?_nil v) hstart
  -- soundness is kept up to the end, be it good or not
  have hsound : (∀ x ∈ t.observations, x.Sound schema) ∧
      t.observations.filterMap Observation.call? = calls t.walked.events := by
    simp only [t, Dispatcher.trail]
    rw [Trail.Leaves] at hleaves
    cases hend : (Trail.enter ⟨schema, d, context⟩ depth).run start with
    | ok u s =>
      rw [hend] at hleaves
      exact ⟨hleaves.2.2.observations, hleaves.2.2.runs⟩
    | error h s =>
      rw [hend] at hleaves
      exact ⟨hleaves.observations, hleaves.runs⟩
  refine ⟨d.walked_trail schema context depth v, hsound.1, hsound.2, ?_⟩
  intro w depth s
  have henter := Trail.enter_tracks w depth
  exact ⟨henter.back s, (Trail.descend_tracks henter).back s,
    fun index f => (Trail.visit_tracks w henter index f).back s, Trail.enter_observes w depth s,
    fun u us => Trail.descend_observes henter⟩

/-! ## Handlers that clear and allocate -/

namespace Shelf

/-- Nothing in the place of a list or of what a pointer may lead to. -/
def cleared : Value → Value
  | .list t _ => .list t []
  | .present v => .nil v.ty
  | v => v

/-- A list with one more item, or a pointer that leads somewhere. -/
def grown (s : Schema) : Value → Value
  | .list t vs => .list t (vs ++ [s.default t])
  | v => s.allocate v

theorem fits_cleared {s : Schema} {t : Ty} {v : Value} (h : v.Fits s t) : (cleared v).Fits s t := by
  cases h with
  | list h => exact .list fun v hv => absurd hv List.not_mem_nil
  | present h =>
    rw [cleared, h.ty_eq]
    exact .nil _
  | _ =>
    rw [cleared]
    · constructor <;> assumption
    all_goals simp

theorem fits_grown {s : Schema} (hdefaults : s.DefaultsBehave) {t : Ty} {v : Value}
    (h : v.Fits s t) : (grown s v).Fits s t := by
  cases h with
  | @list t vs h =>
    have hone : ∀ v ∈ [s.default t], v.Fits s t :=
      List.forall_mem_singleton.2 (Schema.fits_default hdefaults t)
    exact .list (List.forall_mem_append.2 ⟨h, hone⟩)
  | nil t => exact Schema.fits_allocate hdefaults (.nil t)
  | _ => constructor <;> assumption

/-- A shelf of books, one of which may be open.  Each place is worked on by several handlers. -/
def schema : Schema where
  records :=
    [⟨"Shelf",
      [⟨⟨"books", true, "grow:\"\" clear:\"\" grow:\"\" grow:\"\""⟩, .list (.record "Book")⟩,
       ⟨⟨"opened", true, "clear:\"\" grow:\"\""⟩, .optional (.record "Book")⟩]⟩,
     ⟨"Book", [⟨⟨"pages", true, "grow:\"\""⟩, .list (.scalar (.int .i64))⟩]⟩]

theorem defaultsBehave : schema.DefaultsBehave :=
  Schema.DefaultsDerived.behave fun _ => rfl

def clear : Handler :=
  .ofRun fun site _ => ⟨cleared site.value, .done, []⟩

def grow : Handler :=
  .ofRun fun site _ => ⟨grown schema site.value, .done, []⟩

def dispatcher : Dispatcher where
  bindings := [("clear", clear), ("grow", grow)]

theorem keepsTypes {n : String} {h : Handler} (hh : dispatcher.handler? n = some h) :
    h.KeepsTypes schema := by
  simp only [Dispatcher.handler?, dispatcher, List.lookup_cons, List.lookup_nil] at hh
  split at hh
  · rcases Option.some.inj hh with rfl
    exact fun site arg t hsite _ => fits_cleared hsite
  · split at hh
    · rcases Option.some.inj hh with rfl
      exact fun site arg t hsite _ => fits_grown defaultsBehave hsite
    · cases hh

end Shelf

/-- So it is on a shelf, where lists and pointers are emptied and filled before they are entered. -/
theorem Dispatcher.trail_shelf_sound :
    let v := Shelf.schema.default (.record "Shelf")
    v.Fits Shelf.schema (.record "Shelf") ∧
      (∀ n h, Shelf.dispatcher.handler? n = some h → h.KeepsTypes Shelf.schema) ∧
      let t := Shelf.dispatcher.trail Shelf.schema .unit 3 v
      t.walked = Shelf.dispatcher.walkRecord Shelf.schema .unit 3 v ∧
        (∀ x ∈ t.observations, x.Sound Shelf.schema) ∧
        t.observations.filterMap Observation.call? = calls t.walked.events ∧
        ∀ (w : Walk.Setting) (depth : Nat) (s : Trail.State),
          Trail.Restores s ((Trail.enter w depth).run s) ∧
          Trail.Restores s ((Trail.descend (Trail.enter w depth)).run s) ∧
          (∀ index f, Trail.Restores s ((Trail.visit w (Trail.enter w depth) index f).run s)) ∧
          s.Observes (Trail.endState ((Trail.enter w (depth + 1)).run s)) (.record s.root s.path) ∧
          ∀ u us, s.root.get? s.path = some u → u.items? = some us →
            Trail.LooksAt s (List.range us.length)
              ((Trail.descend (Trail.enter w depth)).run s) := by
  intro v
  have hv : v.Fits Shelf.schema (.record "Shelf") :=
    Schema.fits_default Shelf.defaultsBehave _
  have hkeep : ∀ n h, Shelf.dispatcher.handler? n = some h → h.KeepsTypes Shelf.schema :=
    fun _ _ hh => Shelf.keepsTypes hh
  exact ⟨hv, hkeep, Dispatcher.trail_sound hv hkeep .unit 3⟩

end FieldNotes
