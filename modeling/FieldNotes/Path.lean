import FieldNotes.Value

/-! # Paths into values

A path leads from a value to a value nested in it.  Looking a value up and replacing it are defined
step by step, and agree on which steps apply.

* `Value.get?_append`: a path in two parts is looked up part by part.
* `Value.get?_set?`: what is written at a path is what is found there.
* `Value.set?_isSome`: a path can be written exactly if it leads somewhere.
-/

namespace FieldNotes

/-- One step from a value to a part of it. -/
inductive Step
  | field (i : Nat)
  | deref
  | index (i : Nat)
  deriving DecidableEq, Repr

/-- A row of steps, the first one taken first. -/
abbrev Path := List Step

/-- How a step is written in diagnostics. -/
def Step.debug : Step → String
  | .field i => "Field(" ++ toString i ++ ")"
  | .deref => "Deref"
  | .index i => "Index(" ++ toString i ++ ")"

namespace Value

/-- The part that a step leads to. -/
def child? : Value → Step → Option Value
  | .record _ fields, .field i => fields[i]?
  | .present v, .deref => some v
  | .owned v, .deref => some v
  | .list _ items, .index i => items[i]?
  | .array _ items, .index i => items[i]?
  | _, _ => none

/-- A list with another item at a position that it has. -/
def replaceAt? (vs : List Value) (i : Nat) (w : Value) : Option (List Value) :=
  if i < vs.length then some (vs.set i w) else none

/-- The value with another part where a step leads to. -/
def setChild? : Value → Step → Value → Option Value
  | .record name fields, .field i, w => (replaceAt? fields i w).map (.record name)
  | .present _, .deref, w => some (.present w)
  | .owned _, .deref, w => some (.owned w)
  | .list t items, .index i, w => (replaceAt? items i w).map (.list t)
  | .array t items, .index i, w => (replaceAt? items i w).map (.array t)
  | _, _, _ => none

/-- The value that a path leads to. -/
def get? (v : Value) : Path → Option Value
  | [] => some v
  | s :: p => (v.child? s).bind (·.get? p)

/-- The value with another one where a path leads to. -/
def set? (v : Value) : Path → Value → Option Value
  | [], w => some w
  | s :: p, w => (v.child? s).bind fun c => (c.set? p w).bind (v.setChild? s)

/-- The value with another one where a path leads to, or as it is if the path leads nowhere. -/
def put (v : Value) (p : Path) (w : Value) : Value :=
  (v.set? p w).getD v

@[simp] theorem get?_nil (v : Value) : v.get? [] = some v := by
  simp [get?]

theorem get?_cons (v : Value) (s : Step) (p : Path) :
    v.get? (s :: p) = (v.child? s).bind (·.get? p) := by
  simp [get?]

@[simp] theorem set?_nil (v w : Value) : v.set? [] w = some w := by
  simp [set?]

theorem set?_cons (v : Value) (s : Step) (p : Path) (w : Value) :
    v.set? (s :: p) w = (v.child? s).bind fun c => (c.set? p w).bind (v.setChild? s) := by
  simp [set?]

theorem get?_append (v : Value) (p q : Path) :
    v.get? (p ++ q) = (v.get? p).bind (·.get? q) := by
  induction p generalizing v with
  | nil => simp
  | cons s p ih => simp [get?_cons, ih, Option.bind_assoc]

theorem replaceAt?_eq_some_iff {vs ws : List Value} {i : Nat} {w : Value} :
    replaceAt? vs i w = some ws ↔ i < vs.length ∧ vs.set i w = ws := by
  simp [replaceAt?]

theorem child?_setChild? {v v' w : Value} {s : Step} (h : v.setChild? s w = some v') :
    v'.child? s = some w := by
  cases v <;> cases s <;>
    simp only [setChild?, Option.map_eq_some_iff, replaceAt?_eq_some_iff, Option.some.injEq,
      reduceCtorEq] at h
  case record.field =>
    obtain ⟨_, ⟨hi, rfl⟩, rfl⟩ := h
    simp [child?, hi]
  case present.deref =>
    subst h
    rfl
  case owned.deref =>
    subst h
    rfl
  case list.index =>
    obtain ⟨_, ⟨hi, rfl⟩, rfl⟩ := h
    simp [child?, hi]
  case array.index =>
    obtain ⟨_, ⟨hi, rfl⟩, rfl⟩ := h
    simp [child?, hi]

theorem setChild?_isSome (v : Value) (s : Step) (w : Value) :
    (v.setChild? s w).isSome = (v.child? s).isSome := by
  cases v <;> cases s <;> simp [setChild?, child?, replaceAt?]
  all_goals split <;> simp_all

theorem get?_set? {v v' w : Value} {p : Path} (h : v.set? p w = some v') :
    v'.get? p = some w := by
  induction p generalizing v v' with
  | nil => simpa [eq_comm] using h
  | cons s p ih =>
    simp only [set?_cons, Option.bind_eq_some_iff] at h
    obtain ⟨c, _, c', hc', hv'⟩ := h
    simp [get?_cons, child?_setChild? hv', ih hc']

theorem set?_isSome (v : Value) (p : Path) (w : Value) :
    (v.set? p w).isSome = (v.get? p).isSome := by
  induction p generalizing v with
  | nil => simp
  | cons s p ih =>
    cases hc : v.child? s with
    | none => simp [set?_cons, get?_cons, hc]
    | some c =>
      have := ih c
      cases hw : c.set? p w with
      | none =>
        simp [hw] at this
        simp [set?_cons, get?_cons, hc, hw, this]
      | some c' =>
        simp [hw] at this
        simp [set?_cons, get?_cons, hc, hw, ← this, setChild?_isSome]

end Value

end FieldNotes
