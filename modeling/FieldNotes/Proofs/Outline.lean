import FieldNotes.Proofs.History

/-! # Outlines of values

The outline of a value is what is seen of it without going into its parts: whether a pointer is nil,
how long a sequence is, which record type it has, and all of a scalar.

A write at a path changes what stands at the path, below it, and around it.  Around it, it changes
no outline.

* `Value.get?_put_of_apart`: a write leaves what stands elsewhere.
* `Value.outline_put`: a write leaves the outlines of what stands around it.
* `History.get?_eq`, `History.outline_eq`: so do all the runs of a walk.
-/

namespace FieldNotes

/-- What is seen of a value without going into its parts. -/
inductive Outline
  | scalar (d : Datum)
  | sealed (name : String) (d : Datum)
  | record (name : String) (length : Nat)
  | nil (elem : Ty)
  | present
  | owned
  | list (elem : Ty) (length : Nat)
  | array (elem : Ty) (length : Nat)
  deriving DecidableEq, Repr

namespace Value

def outline : Value → Outline
  | .scalar d => .scalar d
  | .sealed name d => .sealed name d
  | .record name fields => .record name fields.length
  | .nil t => .nil t
  | .present _ => .present
  | .owned _ => .owned
  | .list t items => .list t items.length
  | .array t items => .array t items.length

theorem outline_eq_record {v : Value} {name : String} {n : Nat}
    (h : v.outline = .record name n) : ∃ vs, v = .record name vs := by
  cases v <;> cases h
  exact ⟨_, rfl⟩

theorem kind_eq_of_outline {v w : Value} (h : v.outline = w.outline) : v.kind = w.kind := by
  cases v <;> cases w <;> first | rfl | cases h

/-! ## One step -/

theorem outline_setChild? {v v' w : Value} {s : Step} (h : v.setChild? s w = some v') :
    v'.outline = v.outline := by
  cases v <;> cases s <;>
    simp only [setChild?, Option.map_eq_some_iff, replaceAt?_eq_some_iff, Option.some.injEq,
      reduceCtorEq] at h
  case present.deref | owned.deref =>
    subst h
    rfl
  all_goals
    rcases h with ⟨_, ⟨_, rfl⟩, rfl⟩
    simp only [outline, List.length_set]

theorem child?_setChild?_of_ne {v v' w : Value} {s s' : Step} (h : v.setChild? s w = some v')
    (hne : s ≠ s') : v'.child? s' = v.child? s' := by
  cases v <;> cases s <;>
    simp only [setChild?, Option.map_eq_some_iff, replaceAt?_eq_some_iff, Option.some.injEq,
      reduceCtorEq] at h
  case present.deref | owned.deref =>
    subst h
    cases s' with
    | deref => exact absurd rfl hne
    | _ => rfl
  case record.field =>
    rcases h with ⟨_, ⟨_, rfl⟩, rfl⟩
    cases s' with
    | field j => exact List.getElem?_set_ne fun hij => hne (congrArg Step.field hij)
    | _ => rfl
  case list.index | array.index =>
    rcases h with ⟨_, ⟨_, rfl⟩, rfl⟩
    cases s' with
    | index j => exact List.getElem?_set_ne fun hij => hne (congrArg Step.index hij)
    | _ => rfl

/-! ## Whole paths -/

section Writing

variable {v v' w : Value} {p q : Path}

theorem get?_set?_of_apart (h : v.set? p w = some v') (hpq : ¬ p <+: q) (hqp : ¬ q <+: p) :
    v'.get? q = v.get? q := by
  induction p generalizing v v' q with
  | nil => exact absurd List.nil_prefix hpq
  | cons s p ih =>
    cases q with
    | nil => exact absurd List.nil_prefix hqp
    | cons s' q =>
      simp only [set?_cons, Option.bind_eq_some_iff] at h
      rcases h with ⟨c, hc, c', hset, hv'⟩
      rw [get?_cons, get?_cons]
      by_cases hs : s = s'
      · subst hs
        rw [List.cons_prefix_cons] at hpq hqp
        rw [child?_setChild? hv', hc, Option.bind_some, Option.bind_some]
        exact ih hset (fun hle => hpq ⟨rfl, hle⟩) (fun hle => hqp ⟨rfl, hle⟩)
      · rw [child?_setChild?_of_ne hv' hs]

theorem outline_set? (h : v.set? p w = some v') (hpq : ¬ p <+: q) :
    (v'.get? q).map outline = (v.get? q).map outline := by
  induction p generalizing v v' q with
  | nil => exact absurd List.nil_prefix hpq
  | cons s p ih =>
    simp only [set?_cons, Option.bind_eq_some_iff] at h
    rcases h with ⟨c, hc, c', hset, hv'⟩
    cases q with
    | nil =>
      rw [get?_nil, get?_nil, Option.map_some, Option.map_some, outline_setChild? hv']
    | cons s' q =>
      rw [get?_cons, get?_cons]
      by_cases hs : s = s'
      · subst hs
        rw [List.cons_prefix_cons] at hpq
        rw [child?_setChild? hv', hc, Option.bind_some, Option.bind_some]
        exact ih hset fun hle => hpq ⟨rfl, hle⟩
      · rw [child?_setChild?_of_ne hv' hs]

/-- A write leaves what stands neither around its path nor below it. -/
theorem get?_put_of_apart (hpq : ¬ p <+: q) (hqp : ¬ q <+: p) :
    (v.put p w).get? q = v.get? q := by
  unfold put
  cases h : v.set? p w with
  | none => rw [Option.getD_none]
  | some v' => exact get?_set?_of_apart h hpq hqp

/-- A write leaves the outline of what does not stand at its path or below it. -/
theorem outline_put (hpq : ¬ p <+: q) :
    ((v.put p w).get? q).map outline = (v.get? q).map outline := by
  unfold put
  cases h : v.set? p w with
  | none => rw [Option.getD_none]
  | some v' => exact outline_set? h hpq

end Writing

end Value

/-! ## Histories -/

namespace History

variable {d : Dispatcher} {context : Context} {v root : Value} {runs : List Run} {q : Path}

/-- Runs leave what stands neither around any of their paths nor below one. -/
theorem get?_eq (h : History d context v runs root)
    (hq : ∀ r ∈ runs, ¬ r.call.path <+: q ∧ ¬ q <+: r.call.path) : root.get? q = v.get? q := by
  induction h with
  | nil => rfl
  | @snoc runs r _ _ ih =>
    rcases List.forall_mem_append.1 hq with ⟨hearlier, hlast⟩
    rcases hlast r List.mem_cons_self with ⟨hpq, hqp⟩
    have hwrite : r.left.get? q = r.root.get? q := Value.get?_put_of_apart hpq hqp
    exact hwrite.trans (ih hearlier)

/-- Runs leave the outline of what does not stand at any of their paths or below one. -/
theorem outline_eq (h : History d context v runs root)
    (hq : ∀ r ∈ runs, ¬ r.call.path <+: q) :
    (root.get? q).map Value.outline = (v.get? q).map Value.outline := by
  induction h with
  | nil => rfl
  | @snoc runs r _ _ ih =>
    rcases List.forall_mem_append.1 hq with ⟨hearlier, hlast⟩
    have hwrite : (r.left.get? q).map Value.outline = (r.root.get? q).map Value.outline :=
      Value.outline_put (hlast r List.mem_cons_self)
    exact hwrite.trans (ih hearlier)

end History

end FieldNotes
