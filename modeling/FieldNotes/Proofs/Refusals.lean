import FieldNotes.Handler.Validate
import FieldNotes.Proofs.Accounting
import FieldNotes.Proofs.Filling
import FieldNotes.Samples.Types

/-! # Refusals leave no more than an allocation

A handler that comes with this library may end badly in many ways: the type cannot be assigned, the
literal is none of the type, the layout is broken, the argument is of the wrong sort, the reference
leads nowhere.  None of them leaves anything in the root, except that a nil pointer at the path was
allocated before the work began.  This takes setters that do not leave anything either.

* `Schema.SettersRestore`: this is what setters promise.
* `Handler.Stock` lists the bundled handlers, and `Handler.Stock.allocates` says which of them
  allocate, given their argument.
* `Effect.onTarget_refused`: work on a target that is all or nothing leaves the allocation.
* `Handler.Stock.run_refused`: what a run that ends badly leaves of the value of its field.
* `Walk.call_refused`: what a call of one of them leaves of the root.
-/

namespace FieldNotes

/-- A setter that does not come to a good end leaves the value as it was.  It is only given values
of the type that it is for. -/
structure Schema.SettersRestore (s : Schema) : Prop where
  setter : ∀ (set : Setter) (arg : Arg) (v : Value),
    s.setter? v.ty = some set → (set arg v).2 ≠ .done → (set arg v).1 = v
  formatSetter : ∀ (set : FormatSetter) (format : String) (v : Value),
    s.formatSetter? v.ty = some set → (set format v).2 ≠ .done → (set format v).1 = v

/-- The root in which a nil pointer at a path has been made to point at a default.  If there is
something else at the path, or nothing at all, this is the root as it was. -/
def Schema.allocateAt (s : Schema) (root : Value) (path : Path) : Value :=
  match root.get? path with
  | some (.nil t) => root.put path (.present (s.default t))
  | _ => root

namespace Handler

/-- The handlers that come with this library. -/
inductive Stock
  | set
  | setFormat
  | fill (config : FillConfig) (times : Times) (clock : Site → Instant)
  | validate (check : Value → String → Outcome)

namespace Stock

/-- How it runs. -/
def run (s : Schema) : Stock → Site → Arg → Effect
  | .set => assign s
  | .setFormat => assignFormat s
  | .fill config times clock => (Handler.fillBy ⟨s, config, times⟩ clock).run
  | .validate check => (Handler.validate check).run

/-- Whether it allocates before it comes to its work.  The filling handler looks at its argument
first, and goes no further unless it has read it itself. -/
def allocates : Stock → Arg → Bool
  | .set, _ => true
  | .setFormat, _ => true
  | .fill .., .fill _ => true
  | .fill .., _ => false
  | .validate _, _ => false

end Stock

end Handler

variable {s : Schema}

/-! ## Allocation -/

theorem Schema.allocateAt_eq_put {root v : Value} {path : Path} (hv : root.get? path = some v) :
    s.allocateAt root path = root.put path (s.allocate v) := by
  cases v with
  | nil t => simp only [allocateAt, hv, allocate]
  | _ => simp only [allocateAt, hv, allocate, Value.put_self hv]

theorem Schema.allocateAt_of_stray {root : Value} {path : Path} (hv : root.get? path = none) :
    s.allocateAt root path = root := by
  simp only [allocateAt, hv]

/-- Work that leaves the target unless it is done leaves the allocation unless it is done. -/
theorem Effect.onTarget_refused {site : Site} {work : Value → Value × Outcome}
    (hwork : ∀ v, (work v).2 ≠ .done → (work v).1 = v)
    (hend : (Effect.onTarget s site work).outcome ≠ .done) :
    (Effect.onTarget s site work).value = s.allocate site.value := by
  have hkept : (work (s.allocate site.value).target).1 = (s.allocate site.value).target :=
    hwork _ hend
  unfold Effect.onTarget
  simp only [hkept, Value.withTarget_target]

/-! ## Runs -/

namespace Fill

variable (w : Fill)

/-- Of all the ways that a reference may go, one writes, and this is the one that comes to a good
end. -/
theorem copyField_cases (root : Value) (name : String) (v : Value) :
    (w.copyField root name v).2 = .done ∨ (w.copyField root name v).1 = v := by
  simp only [copyField]
  by_cases hname : name.isEmpty = true
  · rw [if_pos hname]
    exact Or.inr rfl
  · rw [if_neg hname]
    repeat' split
    all_goals first
      | exact Or.inr rfl
      | exact Or.inl rfl

/-- With an argument of its own, the filling handler allocates, and a refusal leaves nothing
else. -/
theorem run_refused (hs : w.schema.SettersRestore) {site : Site} {a : FillArg}
    (hend : (w.run site (.fill a)).outcome ≠ .done) :
    (w.run site (.fill a)).value = w.schema.allocate site.value := by
  refine Effect.onTarget_refused ?_ hend
  intro v hv
  split
  · rfl
  · rename_i hzero
    rw [if_neg hzero] at hv
    cases a with
    | field name => exact (w.copyField_cases _ name v).resolve_left hv
    | literal literal =>
      exact w.setLiteral_refused (fun set hset => hs.setter set _ v hset) hv

end Fill

namespace Handler

theorem assign_refused (hs : s.SettersRestore) {site : Site} {arg : Arg}
    (hend : (assign s site arg).outcome ≠ .done) :
    (assign s site arg).value = s.allocate site.value := by
  refine Effect.onTarget_refused ?_ hend
  intro v hv
  cases hset : s.setter? v.ty with
  | none => rfl
  | some set =>
    rw [hset] at hv
    exact hs.setter set arg v hset hv

theorem assignFormat_refused (hs : s.SettersRestore) {site : Site} {arg : Arg}
    (hend : (assignFormat s site arg).outcome ≠ .done) :
    (assignFormat s site arg).value = s.allocate site.value := by
  refine Effect.onTarget_refused ?_ hend
  intro v hv
  cases harg : arg.text? with
  | none => rfl
  | some format =>
    cases hset : s.formatSetter? v.ty with
    | none => rfl
    | some set =>
      simp only [harg, hset] at hv
      exact hs.formatSetter set format v hset hv

/-- A run that ends badly leaves the value of its field, or the allocation of it. -/
theorem Stock.run_refused (hs : s.SettersRestore) {b : Stock} {site : Site} {arg : Arg}
    (hend : (b.run s site arg).outcome ≠ .done) :
    (b.run s site arg).value = if b.allocates arg then s.allocate site.value else site.value := by
  cases b with
  | set => exact assign_refused hs hend
  | setFormat => exact assignFormat_refused hs hend
  | fill config times clock =>
    cases arg with
    | fill a => exact Fill.run_refused ((Fill.mk s config times).showing (clock site)) hs hend
    | text _ => rfl
    | int _ => rfl
  | validate check => exact validate_keeps check site arg

end Handler

/-! ## Calls -/

namespace Walk

variable (w : Setting) (h : Handler) (path : Path) (index : Nat) (f : Field) (t : Tag) (arg : Arg)
  (st : State)

/-- A call at a path that leads nowhere writes nothing, and any other writes at its path what the
handler leaves.  If the handler comes to a good end, so does the call. -/
theorem call_cases :
    (st.root.get? path = none ∧ (stateAfter (call w h path index f t arg) st).root = st.root) ∨
      ∃ v, st.root.get? path = some v ∧
        let effect := h.run ⟨w.context, st.root, path, index, f, v⟩ arg
        (stateAfter (call w h path index f t arg) st).root = st.root.put path effect.value ∧
          (effect.outcome = .done → ∃ st', (call w h path index f t arg).run st = .ok () st') := by
  cases hv : st.root.get? path with
  | none =>
    refine Or.inl ⟨rfl, ?_⟩
    simp only [stateAfter, call, tell, fault, valueAt?, EStateM.run_bind, EStateM.run_get,
      EStateM.run_modify, EStateM.run_pure, hv]
    rfl
  | some v =>
    refine Or.inr ⟨v, rfl, ?_⟩
    simp only [stateAfter, call, tell, fault, valueAt?, write, EStateM.run_bind, EStateM.run_get,
      EStateM.run_modify, EStateM.run_pure, hv]
    generalize h.run ⟨w.context, st.root, path, index, f, v⟩ arg = effect
    cases effect.outcome with
    | done => exact ⟨rfl, fun _ => ⟨_, rfl⟩⟩
    | failed e =>
      refine ⟨rfl, ?_⟩
      intro hdone
      cases hdone
    | faulted e =>
      refine ⟨rfl, ?_⟩
      intro hdone
      cases hdone

variable {w h path index f t arg st}

/-- A call of a bundled handler that ends badly leaves the root as it was, or with the value at the
path allocated.  A call of a validator leaves it as it was, however it ends. -/
theorem call_refused (hs : s.SettersRestore) {b : Handler.Stock} (hrun : h.run = b.run s) :
    (∀ e st', (call w h path index f t arg).run st = .error e st' →
        st'.root = if b.allocates arg then s.allocateAt st.root path else st.root) ∧
      ∀ check, b = .validate check →
        (stateAfter (call w h path index f t arg) st).root = st.root := by
  constructor
  · intro e st' hend
    have hafter : stateAfter (call w h path index f t arg) st = st' := by
      simp only [stateAfter, hend]
    rcases call_cases w h path index f t arg st with ⟨hv, hroot⟩ | ⟨v, hv, hroot, hgood⟩
    · rw [hafter] at hroot
      rw [hroot, Schema.allocateAt_of_stray hv, ite_self]
    · have hbad : (b.run s ⟨w.context, st.root, path, index, f, v⟩ arg).outcome ≠ .done := by
        intro hdone
        obtain ⟨st'', hok⟩ := hgood (by rw [hrun, hdone])
        cases hok.symm.trans hend
      rw [hafter, hrun, Handler.Stock.run_refused hs hbad] at hroot
      rw [hroot, Schema.allocateAt_eq_put hv]
      split
      · rfl
      · exact Value.put_self hv
  · rintro check rfl
    rcases call_cases w h path index f t arg st with ⟨hv, hroot⟩ | ⟨v, hv, hroot, -⟩
    · exact hroot
    · rw [hroot, hrun, Handler.Stock.run, Handler.validate_keeps, Value.put_self hv]

end Walk

/-! ## A basket -/

/-- The sample setters restore: those that may fail do so before they make anything. -/
theorem Samples.settersRestore (scope : String) (others : List RecordDecl) :
    (Samples.schema scope others).SettersRestore := by
  constructor
  · intro set arg v hset hend
    simp only [Samples.schema, Samples.setter?] at hset
    split at hset
    · obtain rfl := Option.some.inj hset
      refine absurd ?_ hend
      unfold Samples.setMoney
      split <;> rfl
    · split at hset
      · obtain rfl := Option.some.inj hset
        cases arg with
        | int n => exact absurd rfl hend
        | fill a => rfl
        | text text =>
          unfold Samples.setCount at hend ⊢
          cases hread : IntType.i64.read text with
          | error e => simp only [hread]
          | ok n =>
            simp only [hread] at hend
            exact absurd rfl hend
      · split at hset
        · obtain rfl := Option.some.inj hset
          exact absurd rfl hend
        · cases hset
  · intro set format v hset hend
    simp only [Samples.schema, Samples.formatSetter?] at hset
    split at hset
    · obtain rfl := Option.some.inj hset
      refine absurd ?_ hend
      unfold Samples.formatMoney
      split <;> rfl
    · split at hset
      · obtain rfl := Option.some.inj hset
        unfold Samples.formatLabel at hend ⊢
        split
        · rfl
        · rename_i hempty
          rw [if_neg hempty] at hend
          exact absurd rfl hend
      · cases hset

namespace Basket

/-- A walk through a basket. -/
def setting : Walk.Setting :=
  ⟨Samples.schema "" [], .empty, .unit⟩

/-- A basket, with a count of apples or without one, and with a label. -/
def basket (apples : Value) : Value :=
  .record "Basket" [apples, .sealed "Label" (.text "fruit")]

/-- It has none. -/
def state : Walk.State :=
  ⟨⟨[], []⟩, basket (.nil (Samples.count ""))⟩

def apples : Field :=
  ⟨"apples", true, "set:\"many\""⟩

def tag : Tag :=
  ⟨"set", "\"many\""⟩

/-- The call that sets the apples. -/
def call (h : Handler) : Walk Unit :=
  Walk.call setting h [.field 0] 0 apples tag (.text "many")

end Basket

/-- A text that is no number is refused, and the apples are counted from zero then.  A validator
that refuses them leaves them uncounted. -/
theorem Walk.call_refused_apples :
    (Samples.schema "" []).SettersRestore ∧
      (∃ e st', (Basket.call (.set Basket.setting.schema)).run Basket.state = .error e st' ∧
        st'.root = Basket.basket (.present (.sealed "Count" (.int .i64 0)))) ∧
      ∀ check, (stateAfter (Basket.call (.validate check)) Basket.state).root =
        Basket.basket (.nil (Samples.count "")) := by
  have hs := Samples.settersRestore "" []
  refine ⟨hs, ⟨_, _, rfl, ?_⟩, ?_⟩
  · have hrefused (e : Halt) (st' : State)
        (hend : (Basket.call (.set Basket.setting.schema)).run Basket.state = .error e st') :
        st'.root = Basket.setting.schema.allocateAt Basket.state.root [.field 0] :=
      (call_refused hs (b := .set) rfl).1 e st' hend
    rw [hrefused _ _ rfl]
    rfl
  · intro check
    exact (call_refused hs (b := .validate check) rfl).2 check rfl

end FieldNotes
