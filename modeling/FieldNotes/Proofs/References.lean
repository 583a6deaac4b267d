import FieldNotes.Proofs.Refusals

/-! # References copy one value of the root

Instead of a literal, the filling handler may be given the name of a field of the root, whose value
it copies into a target that is zero.  The target is part of the same root, and a nil pointer at the
path has been allocated by the time the name is looked up: so the field that is named may be the
target itself, or hold it.

* `Schema.Names`, `Schema.Refers`: what a name stands for in a root.
  `Schema.fieldNamed?_eq_some_iff` and `Value.indirect_eq_some_iff` decide it.
* `Fill.Misses` lists the faults of a reference, and `Fill.copyField_cases_of_name` says that there
  are no other ends than a copy and these.
* `Walk.call_reference`: what a call with a reference leaves of the root, and how it ends.
-/

namespace FieldNotes

/-! ## What a name stands for -/

/-- A position is the last one at which a field has a name. -/
structure LastNamed (fields : List Field) (name : String) (i : Nat) : Prop where
  named : ∃ f, fields[i]? = some f ∧ f.name = name
  last : ∀ (j : Nat) f, fields[j]? = some f → f.name = name → j ≤ i

namespace Value

/-- A value stands behind at most one pointer: it is what the pointer points at, or no pointer led
to it. -/
inductive Behind : Value → Value → Prop
  | here {v : Value} (h : v.kind ≠ .pointer) : Behind v v
  | present (v : Value) : Behind (.present v) v
  | owned (v : Value) : Behind (.owned v) v

theorem indirect_eq_some_iff {v x : Value} : v.indirect = some x ↔ v.Behind x := by
  constructor
  · intro h
    cases v with
    | present v =>
      cases h
      exact .present _
    | owned v =>
      cases h
      exact .owned _
    | nil t => cases h
    | _ =>
      cases h
      exact .here nofun
  · intro h
    cases h with
    | here hk =>
      cases v <;> first | rfl | exact absurd rfl hk
    | present => rfl
    | owned => rfl

theorem indirect_eq_none_iff {v : Value} : v.indirect = none ↔ ∃ t, v = .nil t := by
  constructor
  · intro h
    cases v <;> cases h
    exact ⟨_, rfl⟩
  · rintro ⟨t, rfl⟩
    rfl

theorem copy?_eq (v : Value) : v.copy? = if v.kind = .scalar then some v else none := by
  cases v <;> rfl

end Value

namespace Schema

/-- A name stands for a value of a record: that of the last field of this name, which need not be
exported. -/
def Names (s : Schema) (root : Value) (name : String) (v : Value) : Prop :=
  ∃ record values i, root = .record record values ∧ LastNamed (s.fields record) name i ∧
    values[i]? = some v

/-- A name refers to a value: it stands for the value, or for a pointer to it. -/
def Refers (s : Schema) (root : Value) (name : String) (source : Value) : Prop :=
  ∃ v, s.Names root name v ∧ v.Behind source

theorem lastIndex?_append_singleton (fields : List Field) (f : Field) (name : String) :
    lastIndex? (fields ++ [f]) name =
      if f.name = name then some fields.length else lastIndex? fields name := by
  unfold lastIndex?
  by_cases hname : f.name = name
  · simp [List.zipIdx_append, hname]
  · simp [List.zipIdx_append, hname]

theorem lastIndex?_eq_some_iff {fields : List Field} {name : String} {i : Nat} :
    lastIndex? fields name = some i ↔ LastNamed fields name i := by
  -- the last field decides, so rows are taken from their end
  induction fields using List.reverseRecOn with
  | nil =>
    constructor
    · intro h
      cases h
    · rintro ⟨⟨f, hf, -⟩, -⟩
      cases hf
  | append_singleton fields f ih =>
    have hend : (fields ++ [f])[fields.length]? = some f := by simp
    have hinit {j : Nat} (hj : j < fields.length) : (fields ++ [f])[j]? = fields[j]? :=
      List.getElem?_append_left hj
    have hlt {j : Nat} {g : Field} (hg : (fields ++ [f])[j]? = some g) : j ≤ fields.length := by
      have := (List.getElem?_eq_some_iff.1 hg).1
      simp only [List.length_append, List.length_singleton] at this
      omega
    rw [lastIndex?_append_singleton]
    by_cases hname : f.name = name
    · rw [if_pos hname]
      constructor
      · rintro ⟨⟩
        exact ⟨⟨f, hend, hname⟩, fun j g hg _ => hlt hg⟩
      · rintro ⟨⟨g, hg, -⟩, hlast⟩
        have hle := hlast fields.length f hend hname
        have hge := hlt hg
        exact congrArg some (by omega)
    · rw [if_neg hname, ih]
      constructor
      · rintro ⟨⟨g, hg, hgname⟩, hlast⟩
        refine ⟨⟨g, ?_, hgname⟩, ?_⟩
        · rw [hinit (List.getElem?_eq_some_iff.1 hg).1, hg]
        · intro j g' hg' hname'
          rcases Nat.lt_or_eq_of_le (hlt hg') with hj | rfl
          · exact hlast j g' (hinit hj ▸ hg') hname'
          · rw [hend] at hg'
            rcases Option.some.inj hg' with rfl
            exact absurd hname' hname
      · rintro ⟨⟨g, hg, hgname⟩, hlast⟩
        have hi : i < fields.length := by
          rcases Nat.lt_or_eq_of_le (hlt hg) with hi | rfl
          · exact hi
          · rw [hend] at hg
            rcases Option.some.inj hg with rfl
            exact absurd hgname hname
        refine ⟨⟨g, hinit hi ▸ hg, hgname⟩, ?_⟩
        intro j g' hg' hname'
        exact hlast j g' (by rw [hinit (List.getElem?_eq_some_iff.1 hg').1, hg']) hname'

theorem fieldNamed?_eq_some_iff {s : Schema} {root v : Value} {name : String} :
    s.fieldNamed? root name = some v ↔ s.Names root name v := by
  constructor
  · intro h
    cases root with
    | record record values =>
      obtain ⟨i, hi, hv⟩ := Option.bind_eq_some_iff.1 h
      exact ⟨record, values, i, rfl, lastIndex?_eq_some_iff.1 hi, hv⟩
    | _ => cases h
  · rintro ⟨record, values, i, rfl, hi, hv⟩
    have hindex : s.indexOf? record name = some i := lastIndex?_eq_some_iff.2 hi
    simp only [fieldNamed?, hindex, Option.bind_some, hv]

variable {s : Schema} {root source source' : Value} {name : String}

theorem Refers.unique (h : s.Refers root name source) (h' : s.Refers root name source') :
    source' = source := by
  obtain ⟨v, hnames, hbehind⟩ := h
  obtain ⟨v', hnames', hbehind'⟩ := h'
  rw [← fieldNamed?_eq_some_iff] at hnames hnames'
  rcases Option.some.inj (hnames.symm.trans hnames') with rfl
  rw [← Value.indirect_eq_some_iff] at hbehind hbehind'
  exact Option.some.inj (hbehind'.symm.trans hbehind)

end Schema

/-! ## Copies -/

/-- A text that begins with a point is a reference to what is behind the point. -/
theorem FillArg.read_point (name : String) : FillArg.read ("." ++ name) = .field name := by
  have hchars : ("." ++ name).toList = '.' :: name.toList := by simp
  simp only [FillArg.read, hchars, String.ofList_toList]

namespace Fill

/-- A value can be copied into a target: a name refers to it, and it is a scalar of the type of the
target. -/
structure Copies (s : Schema) (root : Value) (name : String) (target source : Value) : Prop where
  refers : s.Refers root name source
  scalar : source.kind = .scalar
  sameType : source.ty = target.ty

/-- Why nothing can be copied into a target. -/
inductive Misses (s : Schema) (root : Value) (name : String) (target : Value) : Fault → Prop
  | unknown (h : ∀ v, ¬ s.Names root name v) : Misses s root name target (.unknownField name)
  | nil (t : Ty) (h : s.Names root name (.nil t)) : Misses s root name target (.nilField name)
  | notCopyable {source : Value} (h : s.Refers root name source) (hk : source.kind ≠ .scalar) :
      Misses s root name target (.notCopyable name source.typeName)
  | typeMismatch {source : Value} (h : s.Refers root name source) (hk : source.kind = .scalar)
      (hty : source.ty ≠ target.ty) :
      Misses s root name target (.typeMismatch target.typeName name source.typeName)

variable {s : Schema} {root target source : Value} {name : String} {f : Fault}

theorem Copies.unique {source' : Value} (h : Copies s root name target source)
    (h' : Copies s root name target source') : source' = source :=
  h.refers.unique h'.refers

theorem Misses.not_copies (h : Misses s root name target f) :
    ¬ ∃ source, Copies s root name target source := by
  rintro ⟨source, hrefers, hk, hty⟩
  cases h with
  | unknown hnone =>
    obtain ⟨v, hv, -⟩ := hrefers
    exact hnone v hv
  | nil t hnil =>
    obtain ⟨v, hv, hbehind⟩ := hrefers
    rw [← Schema.fieldNamed?_eq_some_iff] at hnil hv
    rcases Option.some.inj (hnil.symm.trans hv) with rfl
    cases hbehind with
    | here hpointer => exact hpointer rfl
  | notCopyable hrefers' hk' =>
    rcases hrefers'.unique hrefers with rfl
    exact hk' hk
  | typeMismatch hrefers' _ hty' =>
    rcases hrefers'.unique hrefers with rfl
    exact hty' hty

/-- What has the type of a scalar is one. -/
theorem kind_of_ty (hk : source.kind = .scalar) (hty : source.ty = target.ty) :
    target.kind = .scalar := by
  cases source <;> cases hk <;> cases target <;> first | rfl | cases hty

variable (w : Fill)

/-- A reference that names something ends with a copy, or with a fault that leaves the target. -/
theorem copyField_cases_of_name (root target : Value) (hname : name ≠ "") :
    (∃ source, Copies w.schema root name target source ∧
      w.copyField root name target = (source, .done)) ∨
    ∃ f, Misses w.schema root name target f ∧
      w.copyField root name target = (target, .faulted f) := by
  have hempty : name.isEmpty = false := by simpa using hname
  simp only [copyField, hempty, Bool.false_eq_true, if_false]
  cases hfield : w.schema.fieldNamed? root name with
  | none =>
    refine Or.inr ⟨_, .unknown fun v hv => ?_, rfl⟩
    rw [Schema.fieldNamed?_eq_some_iff.2 hv] at hfield
    cases hfield
  | some v =>
    have hnames := Schema.fieldNamed?_eq_some_iff.1 hfield
    cases hindirect : v.indirect with
    | none =>
      obtain ⟨t, rfl⟩ := Value.indirect_eq_none_iff.1 hindirect
      exact Or.inr ⟨_, .nil t hnames, by simp only [hindirect]⟩
    | some source =>
      have hrefers : w.schema.Refers root name source :=
        ⟨v, hnames, Value.indirect_eq_some_iff.1 hindirect⟩
      by_cases hk : source.kind = .scalar
      · have hcopy : source.copy? = some source := by rw [Value.copy?_eq, if_pos hk]
        by_cases hty : source.ty = target.ty
        · have hassign : target.assign? source = some source :=
            if_pos ⟨kind_of_ty hk hty, hty.symm⟩
          exact Or.inl ⟨source, ⟨hrefers, hk, hty⟩, by simp only [hindirect, hcopy, hassign]⟩
        · have hassign : target.assign? source = none := if_neg fun h => hty h.2.symm
          exact Or.inr ⟨_, .typeMismatch hrefers hk hty, by simp only [hindirect, hcopy, hassign]⟩
      · have hcopy : source.copy? = none := by rw [Value.copy?_eq, if_neg hk]
        exact Or.inr ⟨_, .notCopyable hrefers hk, by simp only [hindirect, hcopy]⟩

end Fill

/-! ## Targets in a root -/

namespace Value

/-- The way from a value to its target. -/
def wayToTarget : Value → Path
  | .present _ | .owned _ => [.deref]
  | _ => []

theorem get?_wayToTarget (v : Value) : v.get? v.wayToTarget = some v.target := by
  cases v <;> rfl

theorem put_wayToTarget (v t : Value) : v.put v.wayToTarget t = v.withTarget t := by
  cases v with
  | present v => exact put_present v t
  | owned v => exact put_owned v t
  | _ => exact put_nil _ t

end Value

/-- The way from a root to the target of the field at a path. -/
def Schema.targetAt (s : Schema) (path : Path) (v : Value) : Path :=
  path ++ (s.allocate v).wayToTarget

section Targets

variable {s : Schema} {root v : Value} {path : Path} (hv : root.get? path = some v)

include hv

theorem Schema.get?_allocateAt : (s.allocateAt root path).get? path = some (s.allocate v) := by
  rw [Schema.allocateAt_eq_put hv, Value.get?_put hv]

theorem Schema.get?_targetAt :
    (s.allocateAt root path).get? (s.targetAt path v) = some (s.allocate v).target := by
  rw [targetAt, Value.get?_append_of_get? (s.get?_allocateAt hv), Value.get?_wayToTarget]

/-- To write a new target into the value at a path is to write it where the target is. -/
theorem Schema.put_targetAt (t : Value) :
    root.put path ((s.allocate v).withTarget t) =
      (s.allocateAt root path).put (s.targetAt path v) t := by
  rw [targetAt, Value.put_append (s.get?_allocateAt hv) (s.allocate v).get?_wayToTarget,
    Value.put_wayToTarget, Schema.allocateAt_eq_put hv, Value.put_put hv]

end Targets

/-! ## Calls -/

namespace Fill

variable (w : Fill) {site : Site} {name : String}

/-- With a reference, a target that is zero is filled in from the root as it is with the value of
the site allocated. -/
theorem run_reference (hzero : w.schema.isZero (w.schema.allocate site.value).target = true)
    (hvalue : site.root.get? site.path = some site.value) :
    w.run site (.fill (.field name)) =
      let (t, outcome) := w.copyField (w.schema.allocateAt site.root site.path) name
        (w.schema.allocate site.value).target
      ⟨(w.schema.allocate site.value).withTarget t, outcome, []⟩ := by
  have hroot : (site.root.set? site.path (w.schema.allocate site.value)).getD site.root =
      w.schema.allocateAt site.root site.path := by
    rw [Value.set?_eq_some_put hvalue, Option.getD_some, Schema.allocateAt_eq_put hvalue]
  simp only [run, Effect.onTarget, hzero, Bool.not_true, Bool.false_eq_true, if_false, hroot]

end Fill

namespace Walk

/-- How a call ends, at a path that leads to a value. -/
theorem exists_end_call (w : Setting) (h : Handler) {path : Path} (index : Nat) (f : Field)
    (t : Tag) (arg : Arg) {st : State} {v : Value} (hv : st.root.get? path = some v) :
    let effect := h.run ⟨w.context, st.root, path, index, f, v⟩ arg
    ∃ st', st'.root = st.root.put path effect.value ∧
      (call w h path index f t arg).run st =
        match effect.outcome with
        | .done => .ok () st'
        | .failed e => .error (.failed (.field (w.dispatcher.shownName f) t.name e)) st'
        | .faulted e => .error (.faulted e) st' :=
  ⟨_, rfl, run_call w hv t rfl⟩

/-- The root that a call leaves is that of the state in which it ends. -/
theorem root_stateAfter {m : Walk Unit} {st st' : State}
    (h : m.run st = .ok () st' ∨ ∃ e, m.run st = .error e st') :
    (stateAfter m st).root = st'.root := by
  rcases h with h | ⟨e, h⟩ <;> simp only [stateAfter, h]

/-- How a call of the filling handler with a reference ends, at a target that is zero. -/
theorem end_call_reference {w : Setting} {h : Handler} {fill : Fill} {clock : Site → Instant}
    (hrun : h.run = (Handler.fillBy fill clock).run) {path : Path} {st : State} {v : Value}
    (hv : st.root.get? path = some v)
    (hzero : fill.schema.isZero (fill.schema.allocate v).target = true) (index : Nat)
    (f : Field) (t : Tag) (name : String) :
    let m := call w h path index f t (.fill (.field name))
    let root := fill.schema.allocateAt st.root path
    let target := (fill.schema.allocate v).target
    ∃ st',
      (name = "" ∧ st'.root = root ∧ m.run st = .error
        (.failed (.field (w.dispatcher.shownName f) t.name (.fill .emptyFieldRef))) st') ∨
      (name ≠ "" ∧ ∃ source, Fill.Copies fill.schema root name target source ∧
        st'.root = root.put (fill.schema.targetAt path v) source ∧ m.run st = .ok () st') ∨
      (name ≠ "" ∧ ∃ fault, Fill.Misses fill.schema root name target fault ∧
        st'.root = root ∧ m.run st = .error (.faulted fault) st') := by
  intro m root target
  obtain ⟨st', hroot, hend⟩ := exists_end_call w h index f t (.fill (.field name)) hv
  -- what time it is makes no difference to a reference
  have hreference : h.run ⟨w.context, st.root, path, index, f, v⟩ (.fill (.field name)) =
      let (t, outcome) := fill.copyField root name target
      ⟨(fill.schema.allocate v).withTarget t, outcome, []⟩ := by
    rw [hrun]
    exact (fill.showing (clock _)).run_reference hzero hv
  rw [hreference] at hroot hend
  have hwritten (x : Value) :
      st.root.put path ((fill.schema.allocate v).withTarget x) =
        root.put (fill.schema.targetAt path v) x := Schema.put_targetAt hv x
  have hkept : root.put (fill.schema.targetAt path v) target = root :=
    Value.put_self (Schema.get?_targetAt hv)
  refine ⟨st', ?_⟩
  by_cases hname : name = ""
  · have hcopy : fill.copyField root name target = (target, .failed (.fill .emptyFieldRef)) := by
      rw [hname]
      rfl
    simp only [hcopy] at hroot hend
    exact .inl ⟨hname, hroot.trans ((hwritten target).trans hkept), hend⟩
  · rcases fill.copyField_cases_of_name root target hname with
      ⟨source, hcopies, hcopy⟩ | ⟨fault, hmisses, hcopy⟩
    · simp only [hcopy] at hroot hend
      exact .inr (.inl ⟨hname, source, hcopies, hroot.trans (hwritten source), hend⟩)
    · simp only [hcopy] at hroot hend
      exact .inr (.inr
        ⟨hname, fault, hmisses, hroot.trans ((hwritten target).trans hkept), hend⟩)

end Walk

/-- A call of the filling handler with a reference copies one value of the root, or none.

A target that is not zero is left alone, whatever the reference is.  A zero target is filled in
exactly if the name is not empty and refers to a scalar of the type of the target, in the root as it
is with the value at the path allocated; then the target is that scalar, and else nothing was
written.  An empty name is an error.  Whatever else goes wrong is a fault, and tells what it was; of
an error or a fault, no more is left than the allocation. -/
theorem Walk.call_reference {w : Setting} {h : Handler} {fill : Fill} {clock : Site → Instant}
    (hrun : h.run = (Handler.fillBy fill clock).run) {path : Path} {st : State} {v : Value}
    (hv : st.root.get? path = some v) (index : Nat) (f : Field) (t : Tag) (name : String) :
    let m := call w h path index f t (.fill (.read ("." ++ name)))
    let root := fill.schema.allocateAt st.root path
    let target := (fill.schema.allocate v).target
    let place := fill.schema.targetAt path v
    let left := (stateAfter m st).root
    (fill.schema.isZero target = false → (∃ st', m.run st = .ok () st') ∧ left = root) ∧
    (fill.schema.isZero target = true →
      ((∃ st', m.run st = .ok () st') ↔
        name ≠ "" ∧ ∃ source, Fill.Copies fill.schema root name target source) ∧
      (∀ source, name ≠ "" → Fill.Copies fill.schema root name target source →
        left = root.put place source ∧ left.get? place = some source) ∧
      (name = "" → ∃ st', m.run st = .error
        (.failed (.field (w.dispatcher.shownName f) t.name (.fill .emptyFieldRef))) st') ∧
      (name ≠ "" → (¬ ∃ source, Fill.Copies fill.schema root name target source) →
        ∃ fault st', Fill.Misses fill.schema root name target fault ∧
          m.run st = .error (.faulted fault) st') ∧
      ∀ e st', m.run st = .error e st' → st'.root = root) := by
  intro m root target place left
  have hm : m = call w h path index f t (.fill (.field name)) := by
    rw [← FillArg.read_point]
  constructor
  · -- the reference is not even looked at
    intro hzero
    obtain ⟨st', hroot, hend⟩ := exists_end_call w h index f t (.fill (.field name)) hv
    rw [hrun] at hroot hend
    let site : Site := ⟨w.context, st.root, path, index, f, v⟩
    have hkept : (Handler.fillBy fill clock).run site (.fill (.field name)) =
        ⟨fill.schema.allocate v, .done, []⟩ :=
      @Fill.run_of_ne_zero (fill.showing (clock site)) site (.field name) hzero
    rw [hkept] at hroot hend
    rw [← hm] at hend
    exact ⟨⟨st', hend⟩, (root_stateAfter (Or.inl hend)).trans
      (hroot.trans (Schema.allocateAt_eq_put hv).symm)⟩
  · intro hzero
    obtain ⟨st', hends⟩ := end_call_reference (w := w) hrun hv hzero index f t name
    rw [← hm] at hends
    rcases hends with ⟨hname, hroot, hend⟩ | ⟨hname, source, hcopies, hroot, hend⟩ |
      ⟨hname, fault, hmisses, hroot, hend⟩
    · -- there is nothing to look for
      refine ⟨⟨?_, fun h => absurd hname h.1⟩, fun _ h => absurd hname h, fun _ => ⟨st', hend⟩,
        fun h => absurd hname h, ?_⟩
      · rintro ⟨st'', hok⟩
        cases hok.symm.trans hend
      · intro e st'' he
        cases he.symm.trans hend
        exact hroot
    · -- the source is found, and there is no other
      refine ⟨⟨fun _ => ⟨hname, source, hcopies⟩, fun _ => ⟨st', hend⟩⟩, ?_,
        fun h => absurd h hname, fun _ h => absurd ⟨source, hcopies⟩ h, ?_⟩
      · intro source' _ hcopies'
        rcases hcopies.unique hcopies' with rfl
        have hleft : left = root.put place source' := (root_stateAfter (Or.inl hend)).trans hroot
        exact ⟨hleft, hleft ▸ Value.get?_put (Schema.get?_targetAt hv) source'⟩
      · intro e st'' he
        cases he.symm.trans hend
    · -- what misses its source copies from none
      refine ⟨⟨?_, fun h => absurd h.2 hmisses.not_copies⟩,
        fun source _ h => absurd ⟨source, h⟩ hmisses.not_copies, fun h => absurd h hname,
        fun _ _ => ⟨fault, st', hmisses, hend⟩, ?_⟩
      · rintro ⟨st'', hok⟩
        cases hok.symm.trans hend
      · intro e st'' he
        cases he.symm.trans hend
        exact hroot

/-! ## A bill -/

namespace Bill

/-- A bill has a total that is shown, a guest with a share to pay, and a total of its own. -/
def schema : Schema where
  records :=
    [⟨"Bill", [⟨⟨"total", true, ""⟩, .scalar (.int .i64)⟩, ⟨⟨"guest", true, ""⟩, .record "Guest"⟩,
      ⟨⟨"total", false, ""⟩, .scalar (.int .i64)⟩]⟩,
     ⟨"Guest", [⟨⟨"share", true, "default:\".total\""⟩, .optional (.scalar (.int .i64))⟩]⟩]

def fill : Fill :=
  ⟨schema, .standard, .standard .zero⟩

def bill (share : Value) : Value :=
  .record "Bill" [.scalar (.int .i64 3), .record "Guest" [share], .scalar (.int .i64 12)]

/-- The guest has not been told of a share. -/
def state : Walk.State :=
  ⟨⟨[], []⟩, bill (.nil (.scalar (.int .i64)))⟩

def setting : Walk.Setting :=
  ⟨schema, .empty, .unit⟩

/-- The call that fills in the share of the guest. -/
def call (name : String) : Walk Unit :=
  Walk.call setting (.fill fill) [.field 1, .field 0] 0 ⟨"share", true, "default:\".total\""⟩
    ⟨"default", "\".total\""⟩ (.fill (.read ("." ++ name)))

theorem lastNamed_total : LastNamed (schema.fields "Bill") "total" 2 := by
  have hlast : schema.indexOf? "Bill" "total" = some 2 := by decide +kernel
  exact Schema.lastIndex?_eq_some_iff.1 hlast

/-- The name of a total stands for the one that is not shown, since it is the last of this name. -/
theorem copies_total (share target : Value) (hty : target.ty = .scalar (.int .i64)) :
    Fill.Copies schema (bill share) "total" target (.scalar (.int .i64 12)) where
  refers := ⟨_, ⟨"Bill", _, 2, rfl, lastNamed_total, rfl⟩, .here nofun⟩
  scalar := rfl
  sameType := hty.symm

end Bill

/-- The share of the guest is the total that is not shown.  A share of what the bill does not have
is a fault, and leaves the share allocated. -/
theorem Walk.call_reference_total :
    Bill.state.root.get? [.field 1, .field 0] = some (.nil (.scalar (.int .i64))) ∧
      (∃ st', (Bill.call "total").run Bill.state = .ok () st' ∧
        st'.root = Bill.bill (.present (.scalar (.int .i64 12)))) ∧
      ∃ st', (Bill.call "tip").run Bill.state = .error (.faulted (.unknownField "tip")) st' ∧
        st'.root = Bill.bill (.present (.scalar (.int .i64 0))) := by
  have hv : Bill.state.root.get? [.field 1, .field 0] = some (.nil (.scalar (.int .i64))) := rfl
  refine ⟨hv, ?_, ?_⟩
  · have hrun : (Handler.fill Bill.fill).run =
        (Handler.fillBy Bill.fill fun _ => Bill.fill.times.now).run := rfl
    obtain ⟨hiff, hleft, -⟩ := (Walk.call_reference (w := Bill.setting) hrun hv 0
      ⟨"share", true, "default:\".total\""⟩ ⟨"default", "\".total\""⟩ "total").2 rfl
    have hcopies := Bill.copies_total (.present (.scalar (.int .i64 0))) (.scalar (.int .i64 0)) rfl
    obtain ⟨st', hok⟩ := hiff.2 ⟨by decide, _, hcopies⟩
    exact ⟨st', hok, (root_stateAfter (Or.inl hok)).symm.trans (hleft _ (by decide) hcopies).1⟩
  · exact ⟨_, rfl, rfl⟩

end FieldNotes
