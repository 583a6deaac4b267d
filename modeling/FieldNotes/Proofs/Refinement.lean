import FieldNotes.Proofs.Lens
import FieldNotes.Proofs.Follows

/-! # Walks by path do what walks by recursion do

A walk follows a path from the root again and again.  It may do so because of one invariant: when it
works at a path, that path leads to the value which the walk by recursion holds at this moment, and
what stands around that value is the root with a hole where the path ends.

* `Walk.Simulates` states the invariant for a part of a walk.  It is kept by everything that walks
  are put together from: doing nothing, one part after the other (`Simulates.seq`), going one step
  down (`Simulates.part`), and going over the items of a row (`run_row`).
* `Walk.enter_simulates`: at each depth, to enter a path is to walk through the value there.
* `Dispatcher.walk_refines_recursion`: so it is with whole walks.
-/

namespace FieldNotes

/-! ## From the root -/

/-- How work on the value at a path ends, seen from the root. -/
def Work.fromRoot (root : Value) (path : Path) (w : Work Value) :
    EStateM.Result Halt Walk.State Unit :=
  match w.result with
  | .ok () => .ok () ⟨w.journal, root.put path w.value⟩
  | .error h => .error h ⟨w.journal, root.put path w.value⟩

namespace Work

theorem fromRoot_done (root v : Value) (path : Path) (j : Walk.Journal) :
    (done v j).fromRoot root path = .ok () ⟨j, root.put path v⟩ :=
  rfl

theorem fromRoot_halt (root v : Value) (path : Path) (h : Halt) (j : Walk.Journal) :
    (halt h v j).fromRoot root path = .error h ⟨j, root.put path v⟩ :=
  rfl

/-- What was written at the path before does not matter. -/
theorem fromRoot_put {root v : Value} {path : Path} (hv : root.get? path = some v) (x : Value)
    (w : Work Value) : w.fromRoot (root.put path x) path = w.fromRoot root path := by
  simp only [fromRoot, Value.put_put hv]

end Work

namespace Walk

open Nested

/-- At a path that leads to a value, a part of a walk does from the root what `work` does with the
value. -/
def Simulates (m : Walk Unit) (path : Path)
    (work : (Value → Value) → Value → Journal → Work Value) : Prop :=
  ∀ root v j, root.get? path = some v →
    EStateM.run m ⟨j, root⟩ = (work (root.put path) v j).fromRoot root path

/-! ## Parts of walks -/

variable {path : Path}

theorem Simulates.skip : Simulates (pure ()) path fun _ => .done := by
  intro root v j hv
  rw [EStateM.run_pure, Work.fromRoot_done, Value.put_self hv]

theorem Simulates.seq {m m' : Walk Unit}
    {work work' : (Value → Value) → Value → Journal → Work Value}
    (h : Simulates m path work) (h' : Simulates m' path work') :
    Simulates (m >>= fun _ => m') path fun around v j =>
      (work around v j).andThen id (work' around) := by
  intro root v j hv
  show _ = ((work (root.put path) v j).andThen id (work' (root.put path))).fromRoot root path
  rw [EStateM.run_bind, h root v j hv]
  rcases (work (root.put path) v j).done_or_halt with ⟨x, j', hw⟩ | ⟨e, x, j', hw⟩
  · -- what stands around the value is the same after a write as before
    have haround : (root.put path x).put path = root.put path := by
      funext y
      exact Value.put_put hv x y
    rw [hw, Work.andThen_done, Work.fromRoot_done]
    show EStateM.run m' ⟨j', root.put path x⟩ = _
    rw [h' _ _ _ (Value.get?_put hv x), haround, Work.fromRoot_put hv]
  · rw [hw, Work.andThen_halt, Work.fromRoot_halt]
    rfl

/-- Going down a step: the work on a part is work on the whole. -/
theorem Simulates.part {m : Walk Unit} {s : Step}
    {work : (Value → Value) → Value → Journal → Work Value}
    (h : Simulates m (path ++ [s]) work) {root v c : Value} (j : Journal)
    (hv : root.get? path = some v) (hc : v.get? [s] = some c) {whole : Value → Value}
    (hwhole : ∀ x, v.put [s] x = whole x) :
    EStateM.run m ⟨j, root⟩ =
      ((work (fun x => root.put path (whole x)) c j).map whole).fromRoot root path := by
  have hput : root.put (path ++ [s]) = fun x => root.put path (whole x) := by
    funext x
    rw [Value.put_append hv hc, hwhole]
  have hroot : root.get? (path ++ [s]) = some c := by
    rw [Value.get?_append_of_get? hv, hc]
  rw [h root c j hroot]
  simp only [Work.fromRoot, Work.map, hput]

/-- Going over a row.  The steps lead to the items of `wrap items`, of which those in `pre` have
been worked on. -/
theorem run_row {m : Nat → Walk Unit} {step : Nat → Step} {wrap : List Value → Value}
    {work : Nat → (Value → Value) → Value → Journal → Work Value}
    (hget : ∀ pre c post, (wrap (pre ++ c :: post)).get? [step pre.length] = some c)
    (hput : ∀ pre c post x,
      (wrap (pre ++ c :: post)).put [step pre.length] x = wrap (pre ++ x :: post))
    (hm : ∀ i, Simulates (m i) (path ++ [step i]) (work i))
    (pre vs : List Value) (root : Value) (j : Journal)
    (hroot : root.get? path = some (wrap (pre ++ vs))) :
    EStateM.run (forM (List.range' pre.length vs.length) m) ⟨j, root⟩ =
      ((row work pre.length (fun xs => root.put path (wrap (pre ++ xs))) vs j).map
        fun xs => wrap (pre ++ xs)).fromRoot root path := by
  induction vs generalizing pre root j with
  | nil =>
    rw [row, Work.map_done, Work.fromRoot_done, Value.put_self hroot]
    rfl
  | cons v vs ih =>
    have hhead := (hm pre.length).part j hroot (hget pre v vs) (hput pre v vs)
    rw [List.length_cons, List.range'_succ, List.forM_cons, EStateM.run_bind, hhead, row]
    rcases (work pre.length (fun x => root.put path (wrap (pre ++ x :: vs))) v j).done_or_halt with
      ⟨x, j', hw⟩ | ⟨e, x, j', hw⟩
    · -- the item is done: the rest is a row behind one more item
      rw [hw, Work.map_done, Work.fromRoot_done, Work.andThen_done]
      have hroot' : (root.put path (wrap (pre ++ x :: vs))).get? path =
          some (wrap ((pre ++ [x]) ++ vs)) := by
        rw [Value.get?_put hroot, List.append_assoc]
        rfl
      have hrest := ih (pre ++ [x]) _ j' hroot'
      simp only [List.length_append, List.length_singleton, List.append_assoc,
        List.singleton_append, Value.put_put hroot, Work.fromRoot_put hroot] at hrest
      exact hrest
    · rw [hw, Work.map_halt, Work.fromRoot_halt, Work.andThen_halt]
      rfl

/-! ## Obeying tags -/

variable (w : Setting)

/-- The rules that a walk goes by. -/
def Setting.rules : Rules :=
  w.dispatcher.rules w.context

theorem run_argument (h : Handler) (t : Tag) (s : State) :
    EStateM.run (argument h t) s =
      match (s.memo.ask h t).result with
      | .ok arg => .ok arg
          ⟨(⟨(s.memo.ask h t).memo, s.events⟩ : Journal).note (s.memo.ask h t).events, s.root⟩
      | .error f => .error (.faulted f)
          ⟨(⟨(s.memo.ask h t).memo, s.events⟩ : Journal).note (s.memo.ask h t).events, s.root⟩ := by
  simp only [argument, tell, fault, EStateM.run_bind, EStateM.run_get, EStateM.run_modify]
  cases (s.memo.ask h t).result <;> rfl

theorem call_simulates (h : Handler) (index : Nat) (f : Field) (t : Tag) (arg : Arg) :
    Simulates (call w h path index f t arg) path fun around =>
      w.rules.call ⟨path, index, f, around⟩ h t arg := by
  intro root v j hv
  simp only [call, tell, valueAt?, write, EStateM.run_bind, EStateM.run_get, EStateM.run_modify,
    EStateM.run_pure, hv, Rules.call, Value.put_self hv, Journal.note_note]
  have hcontext : w.rules.context = w.context := rfl
  rw [hcontext]
  generalize h.run ⟨w.context, root, path, index, f, v⟩ arg = effect
  cases ho : effect.outcome <;> rfl

/-- A call at a path that leads to a value, from its beginning to its end. -/
theorem run_call {st : State} {v : Value} (hv : st.root.get? path = some v) {h : Handler}
    {index : Nat} {f : Field} (t : Tag) {arg : Arg} {effect : Effect}
    (heffect : h.run ⟨w.context, st.root, path, index, f, v⟩ arg = effect) :
    let left : State := ⟨st.note ([.dispatching f.name t.name, .called ⟨path, index, f, t, arg⟩] ++
      effect.reports.map .reported), st.root.put path effect.value⟩
    (call w h path index f t arg).run st =
      match effect.outcome with
      | .done => .ok () left
      | .failed e => .error (.failed (.field (w.dispatcher.shownName f) t.name e)) left
      | .faulted e => .error (.faulted e) left := by
  have hcall := call_simulates w h index f t arg st.root v st.toJournal hv
  have hcontext : w.rules.context = w.context := rfl
  simp only [Rules.call, Value.put_self hv, hcontext, heffect] at hcall
  intro left
  rw [hcall]
  cases effect with
  | mk value outcome reports => cases outcome <;> rfl

theorem obey_simulates (index : Nat) (f : Field) (t : Tag) :
    Simulates (obey w path index f t) path fun around =>
      w.rules.obey ⟨path, index, f, around⟩ t := by
  intro root v j hv
  cases hstop : t.isStop with
  | true =>
    simp only [obey, Rules.obey, hstop, if_true]
    exact Simulates.skip root v j hv
  | false =>
    simp only [obey, Rules.obey, hstop, Bool.false_eq_true, if_false]
    have hhandler : w.rules.handler? t.name = w.dispatcher.handler? t.name := rfl
    rw [hhandler]
    cases w.dispatcher.handler? t.name with
    | none => exact Simulates.skip root v j hv
    | some h =>
      have hask : w.rules.ask = Memo.ask := rfl
      simp only [EStateM.run_bind, run_argument, hask]
      cases (j.memo.ask h t).result with
      | ok arg => exact call_simulates w h index f t arg root v _ hv
      | error e => simp only [Work.fromRoot_halt, Value.put_self hv]

theorem forM_obey_simulates (index : Nat) (f : Field) (ts : List Tag) :
    Simulates (forM ts (obey w path index f)) path fun around =>
      obeyAll w.rules.obey ⟨path, index, f, around⟩ ts := by
  induction ts with
  | nil => exact Simulates.skip
  | cons t ts ih =>
    rw [List.forM_cons]
    exact (obey_simulates w index f t).seq ih

/-! ## Going down -/

variable {go : Path → Walk Unit} {through : Enter}

/-- To enter a path if it leads to a record. -/
theorem ifRecord_simulates (h : Simulates (go path) path (through path)) :
    Simulates (do if (← kindAt? path) = some .record then go path) path
      (ifRecord through path) := by
  intro root v j hv
  simp only [kindAt?, valueAt?, EStateM.run_bind, EStateM.run_get, EStateM.run_pure, hv,
    Option.map_some, Option.some.injEq, ifRecord]
  by_cases hk : v.kind = .record
  · simp only [hk, if_true]
    exact h root v j hv
  · simp only [hk, if_false]
    exact Simulates.skip root v j hv

theorem descend_simulates (h : ∀ p, Simulates (go p) p (through p)) :
    Simulates (descend go path) path (Nested.descend through path) := by
  intro root v j hv
  have hitems : ∀ i, Simulates
      (do if (← kindAt? (path ++ [.index i])) = some .record then go (path ++ [.index i]))
      (path ++ [.index i]) (ifRecord through (path ++ [.index i])) :=
    fun i => ifRecord_simulates (h _)
  have hpointee := ifRecord_simulates (h (path ++ [.deref]))
  simp only [descend, valueAt?, EStateM.run_bind, EStateM.run_get, EStateM.run_pure, hv]
  cases v with
  | scalar d => exact Simulates.skip root _ j hv
  | sealed name d => exact Simulates.skip root _ j hv
  | record name vs => exact h path root _ j hv
  | nil t =>
    -- a nil pointer leads nowhere
    have hnone : root.get? (path ++ [.deref]) = none := by
      rw [Value.get?_append_of_get? hv]
      rfl
    simp only [Value.kind, kindAt?, valueAt?, EStateM.run_bind, EStateM.run_get, EStateM.run_pure,
      hnone, Option.map_none, reduceCtorEq, if_false]
    exact Simulates.skip root _ j hv
  | present v => exact hpointee.part j hv rfl (Value.put_present v)
  | owned v => exact hpointee.part j hv rfl (Value.put_owned v)
  | list t items =>
    simp only [Value.kind, Value.items?, Option.getD_some, List.range_eq_range',
      List.forM_eq_forM]
    exact run_row (fun pre c post => Value.get?_list_index pre post c t)
      (fun pre c post x => Value.put_list_index pre post c x t) hitems [] items root j hv
  | array t items =>
    simp only [Value.kind, Value.items?, Option.getD_some, List.range_eq_range',
      List.forM_eq_forM]
    exact run_row (fun pre c post => Value.get?_array_index pre post c t)
      (fun pre c post x => Value.put_array_index pre post c x t) hitems [] items root j hv

theorem visit_simulates (h : ∀ p, Simulates (go p) p (through p)) (index : Nat) (f : Field) :
    Simulates (visit w go path index f) path fun around =>
      Nested.visit w.rules.obey through ⟨path, index, f, around⟩ := by
  have hrest : Simulates
      (if (Tag.ofRow f.row).any Tag.isStop then tell [.suppressed f.name] else descend go path)
      path fun around v j =>
        if (Tag.ofRow f.row).any Tag.isStop then .done v (j.note [.suppressed f.name])
        else Nested.descend through path around v j := by
    intro root v j hv
    cases hstop : (Tag.ofRow f.row).any Tag.isStop with
    | true => simp only [if_true, tell, EStateM.run_modify, Work.fromRoot_done, Value.put_self hv]
    | false =>
      simp only [Bool.false_eq_true, if_false]
      exact descend_simulates h root v j hv
  exact (forM_obey_simulates w index f (Tag.ofRow f.row)).seq hrest

/-- To visit the field at a position of a record, if there is one and it is exported. -/
def memberAt (go : Path → Walk Unit) (fields : List Field) (path : Path) (i : Nat) :
    Walk Unit :=
  match fields[i]? with
  | some f => if f.exported then visit w go (path ++ [.field i]) i f else pure ()
  | none => pure ()

theorem memberAt_simulates (h : ∀ p, Simulates (go p) p (through p)) (fields : List Field)
    (i : Nat) :
    Simulates (memberAt w go fields path i) (path ++ [.field i])
      (member w.rules.obey through fields path i) := by
  intro root v j hv
  simp only [memberAt, member]
  cases fields[i]? with
  | none => exact Simulates.skip root v j hv
  | some f =>
    cases hf : f.exported with
    | true =>
      simp only [hf, if_true]
      exact visit_simulates w h i f root v j hv
    | false =>
      simp only [hf, Bool.false_eq_true, if_false]
      exact Simulates.skip root v j hv

/-- Going over some fields is going over their positions. -/
theorem forM_zipIdx_eq (go : Path → Walk Unit) (path : Path) (fields : List Field) (n k : Nat) :
    (forM (((fields.drop k).take n).zipIdx k) fun (f, i) =>
        if f.exported then visit w go (path ++ [.field i]) i f else pure ()) =
      forM (List.range' k n) (memberAt w go fields path) := by
  induction n generalizing k with
  | zero => simp
  | succ n ih =>
    rw [List.range'_succ, List.forM_cons, ← ih (k + 1), memberAt]
    by_cases hk : k < fields.length
    · rw [List.drop_eq_getElem_cons hk, List.take_succ_cons, List.zipIdx_cons, List.forM_cons,
        List.getElem?_eq_getElem hk]
    · have hdrop : fields.drop k = [] := List.drop_eq_nil_of_le (by omega)
      have hdrop' : fields.drop (k + 1) = [] := List.drop_eq_nil_of_le (by omega)
      have hnone : fields[k]? = none := List.getElem?_eq_none (by omega)
      simp [hdrop, hdrop', hnone]

/-- At every depth, to enter a path is to walk through the value that it leads to. -/
theorem enter_simulates (depth : Nat) (path : Path) :
    Simulates (enter w depth path) path (Nested.enter w.rules.obey w.schema depth path) := by
  induction depth generalizing path with
  | zero =>
    intro root v j hv
    simp only [enter, Nested.enter, EStateM.run_throw, Work.fromRoot_halt, Value.put_self hv]
  | succ depth ih =>
    intro root v j hv
    simp only [enter, valueAt?, EStateM.run_bind, EStateM.run_get, EStateM.run_pure, hv]
    cases v with
    | record name values =>
      have hloop := forM_zipIdx_eq w (enter w depth) path (w.schema.fields name) values.length 0
      simp only [List.drop_zero] at hloop
      simp only [List.forM_eq_forM, hloop]
      exact run_row (fun pre c post => Value.get?_field pre post c name)
        (fun pre c post x => Value.put_field pre post c x name)
        (memberAt_simulates w ih (w.schema.fields name)) [] values root j hv
    | scalar d => exact Simulates.skip root _ j hv
    | sealed name d => exact Simulates.skip root _ j hv
    | nil t => exact Simulates.skip root _ j hv
    | present v => exact Simulates.skip root _ j hv
    | owned v => exact Simulates.skip root _ j hv
    | list t items => exact Simulates.skip root _ j hv
    | array t items => exact Simulates.skip root _ j hv

end Walk

/-! ## Whole walks -/

namespace Dispatcher

variable (d : Dispatcher) (schema : Schema) (context : Context) (depth : Nat)

theorem walkRecord_eq_nested (v : Value) :
    d.walkRecord schema context depth v =
      Nested.walkRecord (d.rules context) d.memo schema depth v := by
  have hwalk := Walk.enter_simulates ⟨schema, d, context⟩ depth [] v v
    ⟨d.memo, [.walking v.typeName]⟩ (Value.get?_nil v)
  have hput : v.put [] = id := by
    funext x
    exact Value.put_nil v x
  rw [hput] at hwalk
  simp only [walkRecord, Nested.walkRecord, hwalk]
  have hrules : Walk.Setting.rules ⟨schema, d, context⟩ = d.rules context := rfl
  rw [hrules]
  rcases (Nested.enter (d.rules context).obey schema depth [] id v
    ⟨d.memo, [.walking v.typeName]⟩).done_or_halt with ⟨x, j, hw⟩ | ⟨h, x, j, hw⟩
  · rw [hw, Work.fromRoot_done, Value.put_nil]
    rfl
  · rw [hw, Work.fromRoot_halt, Value.put_nil]
    rfl

/-- A pointer that is not nil is walked through by walking through what it points at. -/
theorem walk_eq_nested_of_pointee {v p : Value} {whole : Value → Value} (hk : v.kind = .pointer)
    (hp : v.pointee? = some p) (hwhole : ∀ x, v.setChild? .deref x = some (whole x))
    (hv : whole p = v) :
    d.walk schema context depth v =
      Nested.walkPointee (d.rules context) d.memo schema depth whole p := by
  simp only [walk, hk, hp, walkRecord_eq_nested, hwhole, Option.getD_some]
  cases p with
  | record name vs => rfl
  | _ =>
    simp only [Nested.walkPointee, hv]
    rfl

theorem walk_eq_nested (v : Value) :
    d.walk schema context depth v = Nested.walk (d.rules context) d.memo schema depth v := by
  cases v with
  | record name vs => exact d.walkRecord_eq_nested schema context depth (.record name vs)
  | present p => exact d.walk_eq_nested_of_pointee schema context depth rfl rfl (fun _ => rfl) rfl
  | owned p => exact d.walk_eq_nested_of_pointee schema context depth rfl rfl (fun _ => rfl) rfl
  | _ => rfl

/-- From a record, and from any value, a walk by paths does what the walk by recursion does: it
leaves the same value, ends alike, and the same happens on the way.  The depth only cuts walks off:
one that was not cut off goes the same way if it may go deeper. -/
theorem walk_refines_recursion (more : Nat) (v : Value) :
    d.walkRecord schema context depth v =
        Nested.walkRecord (d.rules context) d.memo schema depth v ∧
      d.walk schema context depth v = Nested.walk (d.rules context) d.memo schema depth v ∧
      ((d.walk schema context depth v).result = .error .exhausted ∨
        d.walk schema context (depth + more) v = d.walk schema context depth v) := by
  refine ⟨d.walkRecord_eq_nested schema context depth v,
    d.walk_eq_nested schema context depth v, ?_⟩
  rw [d.walk_eq_nested schema context depth v, d.walk_eq_nested schema context (depth + more) v]
  by_cases hend : (Nested.walk (d.rules context) d.memo schema depth v).result = .error .exhausted
  · exact Or.inl hend
  · exact Or.inr (Nested.walk_deeper _ _ schema (Nat.le_add_right depth more) v hend)

end Dispatcher

end FieldNotes
