import FieldNotes.Path

/-! # Laws of looking up and replacing

A path is a lens into every value in which it leads somewhere.

* `Value.get?_put`, `Value.put_put`, `Value.put_self`: what is written is what is found, a second
  write at one place replaces the first, and to write what stands at a place changes nothing.
* `Value.put_append`: to write at a path in two parts is to write into the value that the first part
  leads to, and to put that value back.
* `Value.put_field`, `Value.put_list_index`, `Value.put_array_index`: a write at one item of a row
  leaves the items around it.
* `Hole`: what stands around a value at a path, for whatever value stands there.
-/

namespace FieldNotes

namespace Value

/-! ## One step -/

theorem setChild?_child? {v c : Value} {s : Step} (h : v.child? s = some c) :
    v.setChild? s c = some v := by
  cases v <;> cases s <;> simp only [child?, Option.some.injEq, reduceCtorEq] at h
  case record.field name fields i =>
    rcases List.getElem?_eq_some_iff.1 h with ⟨hi, rfl⟩
    simp [setChild?, replaceAt?, hi]
  case present.deref => simp [setChild?, h]
  case owned.deref => simp [setChild?, h]
  case list.index t items i =>
    rcases List.getElem?_eq_some_iff.1 h with ⟨hi, rfl⟩
    simp [setChild?, replaceAt?, hi]
  case array.index t items i =>
    rcases List.getElem?_eq_some_iff.1 h with ⟨hi, rfl⟩
    simp [setChild?, replaceAt?, hi]

theorem setChild?_setChild? {v v' w : Value} {s : Step} (h : v.setChild? s w = some v')
    (x : Value) : v'.setChild? s x = v.setChild? s x := by
  cases v <;> cases s <;>
    simp only [setChild?, Option.map_eq_some_iff, replaceAt?_eq_some_iff, Option.some.injEq,
      reduceCtorEq] at h
  case record.field =>
    rcases h with ⟨_, ⟨_, rfl⟩, rfl⟩
    simp [setChild?, replaceAt?]
  case present.deref =>
    subst h
    rfl
  case owned.deref =>
    subst h
    rfl
  case list.index =>
    rcases h with ⟨_, ⟨_, rfl⟩, rfl⟩
    simp [setChild?, replaceAt?]
  case array.index =>
    rcases h with ⟨_, ⟨_, rfl⟩, rfl⟩
    simp [setChild?, replaceAt?]

/-! ## Whole paths -/

theorem set?_get? {v w : Value} {p : Path} (h : v.get? p = some w) : v.set? p w = some v := by
  induction p generalizing v with
  | nil => simpa [eq_comm] using h
  | cons s p ih =>
    rw [get?_cons, Option.bind_eq_some_iff] at h
    rcases h with ⟨c, hc, hw⟩
    simp [set?_cons, hc, ih hw, setChild?_child? hc]

theorem set?_set? {v v' w : Value} {p : Path} (h : v.set? p w = some v') (x : Value) :
    v'.set? p x = v.set? p x := by
  induction p generalizing v v' with
  | nil => simp
  | cons s p ih =>
    simp only [set?_cons, Option.bind_eq_some_iff] at h
    rcases h with ⟨c, hc, c', hc', hv'⟩
    simp only [set?_cons, hc, child?_setChild? hv', Option.bind_some, ih hc']
    congr 1
    funext y
    exact setChild?_setChild? hv' y

theorem set?_append (v : Value) (p q : Path) (w : Value) :
    v.set? (p ++ q) w = (v.get? p).bind fun c => (c.set? q w).bind (v.set? p) := by
  induction p generalizing v with
  | nil =>
    have hsome : v.set? [] = some := by
      funext x
      exact set?_nil v x
    rw [hsome, List.nil_append, get?_nil, Option.bind_some, Option.bind_fun_some]
  | cons s p ih =>
    cases hc : v.child? s with
    | none => simp [set?_cons, get?_cons, hc]
    | some c =>
      have hset : v.set? (s :: p) = fun x => (c.set? p x).bind (v.setChild? s) := by
        funext x
        rw [set?_cons, hc, Option.bind_some]
      rw [List.cons_append, set?_cons, get?_cons, hset, hc]
      simp only [Option.bind_some, ih, Option.bind_assoc]

/-! ## Writing at a path that leads somewhere -/

theorem set?_eq_some_put {root v : Value} {p : Path} (h : root.get? p = some v) (w : Value) :
    root.set? p w = some (root.put p w) := by
  have hset : (root.set? p w).isSome = true := by simp [set?_isSome, h]
  rcases Option.isSome_iff_exists.1 hset with ⟨r, hr⟩
  simp [put, hr]

@[simp] theorem put_nil (v w : Value) : v.put [] w = w := by
  simp [put]

theorem get?_put {root v : Value} {p : Path} (h : root.get? p = some v) (w : Value) :
    (root.put p w).get? p = some w :=
  get?_set? (set?_eq_some_put h w)

theorem put_put {root v : Value} {p : Path} (h : root.get? p = some v) (w x : Value) :
    (root.put p w).put p x = root.put p x := by
  have hset := set?_set? (set?_eq_some_put h w) x
  rw [set?_eq_some_put h x] at hset
  rw [put, hset, Option.getD_some]

theorem put_self {root v : Value} {p : Path} (h : root.get? p = some v) : root.put p v = root := by
  rw [put, set?_get? h, Option.getD_some]

theorem put_append {root v c : Value} {p q : Path} (h : root.get? p = some v)
    (hc : v.get? q = some c) (w : Value) :
    root.put (p ++ q) w = root.put p (v.put q w) := by
  have hset : root.set? (p ++ q) w = some (root.put p (v.put q w)) := by
    rw [set?_append, h, Option.bind_some, set?_eq_some_put hc, Option.bind_some,
      set?_eq_some_put h]
  rw [put, hset, Option.getD_some]

theorem get?_append_of_get? {root v : Value} {p q : Path} (h : root.get? p = some v) :
    root.get? (p ++ q) = v.get? q := by
  rw [get?_append, h, Option.bind_some]

/-! ## Writing to a part -/

theorem get?_record {name : String} {vs : List Value} {i : Nat} {v : Value} (h : vs[i]? = some v) :
    (record name vs).get? [.field i] = some v := by
  rw [get?, child?, h]
  rfl

theorem put_record {name : String} {vs : List Value} {i : Nat} {v : Value} (h : vs[i]? = some v)
    (x : Value) :
    (record name vs).put [.field i] x = record name (vs.set i x) := by
  rcases List.getElem?_eq_some_iff.1 h with ⟨hlt, _⟩
  simp [put, set?, child?, setChild?, replaceAt?, hlt]

variable (pre post : List Value) (c w : Value)

theorem get?_field (name : String) :
    (record name (pre ++ c :: post)).get? [.field pre.length] = some c := by
  simp [get?, child?]

theorem put_field (name : String) :
    (record name (pre ++ c :: post)).put [.field pre.length] w =
      record name (pre ++ w :: post) := by
  simp [put, set?, child?, setChild?, replaceAt?]

theorem put_present : (present c).put [.deref] w = present w := by
  simp [put, set?, child?, setChild?]

theorem put_owned : (owned c).put [.deref] w = owned w := by
  simp [put, set?, child?, setChild?]

theorem get?_list_index (t : Ty) :
    (list t (pre ++ c :: post)).get? [.index pre.length] = some c := by
  simp [get?, child?]

theorem put_list_index (t : Ty) :
    (list t (pre ++ c :: post)).put [.index pre.length] w = list t (pre ++ w :: post) := by
  simp [put, set?, child?, setChild?, replaceAt?]

theorem get?_array_index (t : Ty) :
    (array t (pre ++ c :: post)).get? [.index pre.length] = some c := by
  simp [get?, child?]

theorem put_array_index (t : Ty) :
    (array t (pre ++ c :: post)).put [.index pre.length] w = array t (pre ++ w :: post) := by
  simp [put, set?, child?, setChild?, replaceAt?]

end Value

/-! ## Holes -/

/-- A value stands at a path, whatever it is, and a write there replaces it. -/
structure Hole (path : Path) (around : Value → Value) : Prop where
  get? : ∀ x, (around x).get? path = some x
  put : ∀ x y, (around x).put path y = around y

namespace Hole

variable {path : Path} {around : Value → Value}

theorem top : Hole [] id where
  get? _ := Value.get?_nil _
  put _ _ := Value.put_nil _ _

theorem part (h : Hole path around) {wrap : Value → Value} {s : Step}
    (hget : ∀ x, (wrap x).get? [s] = some x) (hput : ∀ x y, (wrap x).put [s] y = wrap y) :
    Hole (path ++ [s]) fun x => around (wrap x) where
  get? x := by rw [Value.get?_append_of_get? (h.get? _), hget]
  put x y := by rw [Value.put_append (h.get? _) (hget x), hput, h.put]

end Hole

/-- In a row, too, something stands at each position, whatever it is. -/
def RowHole (path : Path) (step : Nat → Step) (i : Nat) (around : List Value → Value) : Prop :=
  ∀ pre vs : List Value, Hole (path ++ [step (i + pre.length)]) fun x => around (pre ++ x :: vs)

namespace RowHole

variable {path : Path} {step : Nat → Step} {i : Nat} {around : List Value → Value}

theorem head (h : RowHole path step i around) (vs : List Value) :
    Hole (path ++ [step i]) fun x => around (x :: vs) :=
  h [] vs

theorem tail (h : RowHole path step i around) (x : Value) :
    RowHole path step (i + 1) fun xs => around (x :: xs) := by
  intro pre vs
  have hindex : i + 1 + pre.length = i + (x :: pre).length := by
    rw [List.length_cons]
    omega
  rw [hindex]
  exact h (x :: pre) vs

end RowHole

namespace Hole

variable {path : Path} {around : Value → Value} (h : Hole path around)

include h

theorem record (name : String) :
    RowHole path .field 0 fun vs => around (.record name vs) := by
  intro pre vs
  rw [Nat.zero_add]
  exact h.part (fun x => Value.get?_field pre vs x name) fun x y => Value.put_field pre vs x y name

theorem list (t : Ty) : RowHole path .index 0 fun vs => around (.list t vs) := by
  intro pre vs
  rw [Nat.zero_add]
  exact h.part (fun x => Value.get?_list_index pre vs x t) fun x y =>
    Value.put_list_index pre vs x y t

theorem array (t : Ty) : RowHole path .index 0 fun vs => around (.array t vs) := by
  intro pre vs
  rw [Nat.zero_add]
  exact h.part (fun x => Value.get?_array_index pre vs x t) fun x y =>
    Value.put_array_index pre vs x y t

theorem present : Hole (path ++ [.deref]) fun x => around (.present x) :=
  h.part (fun _ => rfl) fun x y => Value.put_present x y

theorem owned : Hole (path ++ [.deref]) fun x => around (.owned x) :=
  h.part (fun _ => rfl) fun x y => Value.put_owned x y

end Hole

end FieldNotes
