import FieldNotes.Proofs.Lens
import FieldNotes.Proofs.Whole

/-! # Shapes of values

The shape of a value is what is left of it if its scalars are not looked at: which pointers are nil,
how many items sequences have, and of which types records are.

* `Value.shape_get?`, `Value.shape_put`: paths lead to parts of the shape, and to write something of
  the same shape leaves the shape of the whole.
* `Value.shape_eq_iff`: two values that are made for one type have one shape exactly if the same
  pointers are nil and the same sequences equally long, wherever a path leads in both.
-/

namespace FieldNotes

/-- A value without its scalars. -/
inductive Shape
  | scalar
  | record (name : String) (fields : List Shape)
  /-- A nil pointer. -/
  | nil
  | pointer (target : Shape)
  | sequence (items : List Shape)
  deriving Repr

namespace Shape

/-- The part that a step leads to. -/
def child? : Shape → Step → Option Shape
  | .record _ fields, .field i => fields[i]?
  | .pointer s, .deref => some s
  | .sequence items, .index i => items[i]?
  | _, _ => none

/-- The shape that a path leads to. -/
def get? (s : Shape) : Path → Option Shape
  | [] => some s
  | step :: p => (s.child? step).bind (·.get? p)

theorem get?_append (s : Shape) (p q : Path) : s.get? (p ++ q) = (s.get? p).bind (·.get? q) := by
  induction p generalizing s with
  | nil => rfl
  | cons step p ih => simp only [List.cons_append, get?, ih, Option.bind_assoc]

/-- The length of a sequence. -/
def length? : Shape → Option Nat
  | .sequence items => some items.length
  | _ => none

theorem sizeOf_lt_of_child? {s c : Shape} {step : Step} (h : s.child? step = some c) :
    sizeOf c < sizeOf s := by
  cases s with
  | record name ss =>
    cases step with
    | field i =>
      have := List.sizeOf_lt_of_mem (List.mem_of_getElem? h)
      simp only [record.sizeOf_spec]
      omega
    | _ => cases h
  | pointer s =>
    cases step with
    | deref =>
      cases h
      simp
    | _ => cases h
  | sequence ss =>
    cases step with
    | index i =>
      have := List.sizeOf_lt_of_mem (List.mem_of_getElem? h)
      simp only [sequence.sizeOf_spec]
      omega
    | _ => cases h
  | _ => cases step <;> cases h

/-- What holds of every shape of whose parts it holds, holds of all. -/
theorem induct {P : Shape → Prop}
    (parts : ∀ s : Shape, (∀ step c, s.child? step = some c → P c) → P s) (s : Shape) : P s :=
  parts s fun _ c _ => induct parts c
termination_by sizeOf s
decreasing_by exact sizeOf_lt_of_child? (by assumption)

mutual

/-- How deep records lie in each other. -/
def height : Shape → Nat
  | .record _ fields => heightOf fields + 1
  | .pointer s => s.height
  | .sequence items => heightOf items
  | _ => 0

/-- The greatest height of some shapes. -/
def heightOf : List Shape → Nat
  | [] => 0
  | s :: ss => max s.height (heightOf ss)

end

end Shape

namespace Value

mutual

/-- The shape of a value. -/
def shape : Value → Shape
  | .record name fields => .record name (shapes fields)
  | .nil _ => .nil
  | .present v => .pointer v.shape
  | .owned v => .pointer v.shape
  | .list _ items => .sequence (shapes items)
  | .array _ items => .sequence (shapes items)
  | _ => .scalar

/-- The shapes of some values. -/
def shapes : List Value → List Shape
  | [] => []
  | v :: vs => v.shape :: shapes vs

end

theorem shapes_eq_map (vs : List Value) : shapes vs = vs.map shape := by
  induction vs with
  | nil => rfl
  | cons v vs ih => rw [shapes, ih, List.map_cons]

theorem shape_record (name : String) (vs : List Value) :
    (record name vs).shape = .record name (vs.map shape) := by
  rw [shape, shapes_eq_map]

theorem shape_list (t : Ty) (vs : List Value) : (list t vs).shape = .sequence (vs.map shape) := by
  rw [shape, shapes_eq_map]

theorem shape_array (t : Ty) (vs : List Value) : (array t vs).shape = .sequence (vs.map shape) := by
  rw [shape, shapes_eq_map]

/-- What is a record, and of which type, is seen from its shape. -/
theorem eq_record_of_shape {v : Value} {name : String} {ss : List Shape}
    (h : v.shape = .record name ss) : ∃ vs, v = .record name vs ∧ ss = vs.map shape := by
  cases v with
  | record name' vs =>
    rw [shape_record] at h
    cases h
    exact ⟨vs, rfl, rfl⟩
  | _ => cases h

/-! ## Paths -/

theorem shape_child? (v : Value) (s : Step) : (v.child? s).map shape = v.shape.child? s := by
  cases v with
  | record name vs => cases s <;> simp [child?, shape_record, Shape.child?]
  | list t vs => cases s <;> simp [child?, shape_list, Shape.child?]
  | array t vs => cases s <;> simp [child?, shape_array, Shape.child?]
  | _ => cases s <;> rfl

/-- Paths lead to parts of the shape. -/
theorem shape_get? (v : Value) (p : Path) : (v.get? p).map shape = v.shape.get? p := by
  induction p generalizing v with
  | nil => rfl
  | cons s p ih =>
    rw [get?_cons, Shape.get?, ← shape_child?, Option.map_bind, Option.bind_map]
    exact congrArg (Option.bind _) (funext ih)

theorem map_shape_set {vs : List Value} {i : Nat} {c x : Value} (hc : vs[i]? = some c)
    (hx : x.shape = c.shape) : (vs.set i x).map shape = vs.map shape := by
  obtain ⟨hi, rfl⟩ := List.getElem?_eq_some_iff.1 hc
  rw [List.map_set, hx]
  exact List.ext_getElem (by simp) fun j _ _ => by
    by_cases hj : i = j
    · subst hj
      simp
    · simp [List.getElem_set_ne hj]

theorem shape_setChild? {v v' c x : Value} {s : Step} (hc : v.child? s = some c)
    (hx : x.shape = c.shape) (h : v.setChild? s x = some v') : v'.shape = v.shape := by
  cases v <;> cases s <;>
    simp only [setChild?, Option.map_eq_some_iff, replaceAt?_eq_some_iff, Option.some.injEq,
      reduceCtorEq] at h
  case present.deref =>
    subst h
    cases hc
    exact congrArg Shape.pointer hx
  case owned.deref =>
    subst h
    cases hc
    exact congrArg Shape.pointer hx
  case record.field =>
    obtain ⟨_, ⟨-, rfl⟩, rfl⟩ := h
    rw [shape_record, shape_record, map_shape_set hc hx]
  case list.index =>
    obtain ⟨_, ⟨-, rfl⟩, rfl⟩ := h
    rw [shape_list, shape_list, map_shape_set hc hx]
  case array.index =>
    obtain ⟨_, ⟨-, rfl⟩, rfl⟩ := h
    rw [shape_array, shape_array, map_shape_set hc hx]

theorem shape_set? {v v' c x : Value} {p : Path} (hc : v.get? p = some c) (hx : x.shape = c.shape)
    (h : v.set? p x = some v') : v'.shape = v.shape := by
  induction p generalizing v v' with
  | nil =>
    cases hc
    cases h
    exact hx
  | cons s p ih =>
    rw [get?_cons, Option.bind_eq_some_iff] at hc
    obtain ⟨d, hd, hc⟩ := hc
    rw [set?_cons, hd, Option.bind_some, Option.bind_eq_some_iff] at h
    obtain ⟨d', hd', h⟩ := h
    exact shape_setChild? hd (ih hc hd') h

/-- To write something of the same shape leaves the shape of the whole. -/
theorem shape_put {root c x : Value} {p : Path} (hc : root.get? p = some c)
    (hx : x.shape = c.shape) : (root.put p x).shape = root.shape :=
  shape_set? hc hx (set?_eq_some_put hc x)

/-! ## Values of one type -/

/-- Two values are even: if one is a nil pointer, so is the other, and if one is a sequence, the
other is one that is as long. -/
structure Even (v w : Value) : Prop where
  nil : (∃ t, v = .nil t) ↔ ∃ t, w = .nil t
  length : v.items?.map List.length = w.items?.map List.length

/-- Which pointer is nil is seen from the shape. -/
theorem shape_eq_nil_iff {v : Value} : v.shape = .nil ↔ ∃ t, v = .nil t := by
  constructor
  · intro h
    cases v with
    | nil t => exact ⟨t, rfl⟩
    | _ => cases h
  · rintro ⟨t, rfl⟩
    rfl

/-- So is the length of a sequence. -/
theorem length_items?_eq (v : Value) : v.items?.map List.length = v.shape.length? := by
  cases v with
  | list t vs => simp [items?, shape_list, Shape.length?]
  | array t vs => simp [items?, shape_array, Shape.length?]
  | _ => rfl

theorem even_of_shape_eq {v w : Value} (h : v.shape = w.shape) : v.Even w where
  nil := by rw [← shape_eq_nil_iff, ← shape_eq_nil_iff, h]
  length := by rw [length_items?_eq, length_items?_eq, h]

/-- Wherever a path leads in both values, it leads to values that are even. -/
def EvenThroughout (v w : Value) : Prop :=
  ∀ p x y, v.get? p = some x → w.get? p = some y → x.Even y

theorem EvenThroughout.child {v w x y : Value} {s : Step} (h : v.EvenThroughout w)
    (hx : v.child? s = some x) (hy : w.child? s = some y) : x.EvenThroughout y := by
  intro p x' y' hx' hy'
  refine h (s :: p) x' y' ?_ ?_
  · rw [get?_cons, hx, Option.bind_some, hx']
  · rw [get?_cons, hy, Option.bind_some, hy']

theorem EvenThroughout.length_eq {v w : Value} {vs ws : List Value} (h : v.EvenThroughout w)
    (hv : v.items? = some vs) (hw : w.items? = some ws) : vs.length = ws.length := by
  have heven := (h [] v w rfl rfl).length
  rw [hv, hw] at heven
  exact Option.some.inj heven

/-- Rows of one shape, item by item. -/
theorem map_shape_eq {vs ws : List Value} (hlength : vs.length = ws.length)
    (h : ∀ (i : Nat) x y, vs[i]? = some x → ws[i]? = some y → x.shape = y.shape) :
    vs.map shape = ws.map shape := by
  refine List.ext_getElem (by simpa using hlength) ?_
  intro i hi hi'
  rw [List.getElem_map, List.getElem_map]
  exact h i _ _ (List.getElem?_eq_getElem _) (List.getElem?_eq_getElem _)

variable {s : Schema} {t : Ty} {v w : Value}

theorem shape_eq_of_even (hv : v.Fits s t) (hw : w.Fits s t) (hwhole : v.isWhole s = true)
    (hwhole' : w.isWhole s = true) (h : v.EvenThroughout w) : v.shape = w.shape := by
  induction hv generalizing w with
  | scalar d =>
    generalize d.ty = k at hw
    cases hw
    rfl
  | sealed name d =>
    generalize d.ty = k at hw
    cases hw
    rfl
  | @record name vs hvs ih =>
    cases hw with
    | @record _ ws hws =>
      obtain ⟨hlength, hall⟩ := isWhole_record_iff.1 hwhole
      obtain ⟨hlength', hall'⟩ := isWhole_record_iff.1 hwhole'
      rw [shape_record, shape_record, map_shape_eq (hlength.trans hlength'.symm)]
      intro i x y hx hy
      obtain ⟨d, hd⟩ := exists_getElem?_of_length hlength.symm hx
      exact ih i d x hd hx (hws i d y hd hy) (hall x (List.mem_of_getElem? hx))
        (hall' y (List.mem_of_getElem? hy)) (h.child (s := .field i) hx hy)
  | nil t =>
    -- the type does not tell that the other pointer is nil too, but the empty path does
    obtain ⟨t', rfl⟩ := (h [] _ _ rfl rfl).nil.1 ⟨t, rfl⟩
    rfl
  | present _ ih =>
    cases hw with
    | nil =>
      obtain ⟨t', ht'⟩ := (h [] _ _ rfl rfl).nil.2 ⟨_, rfl⟩
      cases ht'
    | present hw =>
      exact congrArg Shape.pointer (ih hw hwhole hwhole' (h.child (s := .deref) rfl rfl))
  | owned _ ih =>
    cases hw with
    | owned hw =>
      exact congrArg Shape.pointer (ih hw hwhole hwhole' (h.child (s := .deref) rfl rfl))
  | @list t vs _ ih =>
    cases hw with
    | @list _ ws hws =>
      rw [shape_list, shape_list, map_shape_eq (h.length_eq rfl rfl)]
      intro i x y hx hy
      exact ih x (List.mem_of_getElem? hx) (hws y (List.mem_of_getElem? hy))
        (allWhole_iff.1 hwhole x (List.mem_of_getElem? hx))
        (allWhole_iff.1 hwhole' y (List.mem_of_getElem? hy)) (h.child (s := .index i) hx hy)
  | @array t vs _ ih =>
    generalize vs.length = n at hw
    cases hw with
    | @array _ ws hws =>
      rw [shape_array, shape_array, map_shape_eq (h.length_eq rfl rfl)]
      intro i x y hx hy
      exact ih x (List.mem_of_getElem? hx) (hws y (List.mem_of_getElem? hy))
        (allWhole_iff.1 hwhole x (List.mem_of_getElem? hx))
        (allWhole_iff.1 hwhole' y (List.mem_of_getElem? hy)) (h.child (s := .index i) hx hy)

/-- Values of one type have one shape exactly if the same pointers are nil and the same sequences
are equally long, wherever a path leads in both. -/
theorem shape_eq_iff (hv : v.Made s t) (hw : w.Made s t) :
    v.shape = w.shape ↔ v.EvenThroughout w := by
  constructor
  · intro h p x y hx hy
    have hshapes : (v.get? p).map shape = (w.get? p).map shape := by
      rw [shape_get?, shape_get?, h]
    rw [hx, hy] at hshapes
    exact even_of_shape_eq (Option.some.inj hshapes)
  · exact shape_eq_of_even hv.fits hw.fits hv.whole hw.whole

end Value

end FieldNotes
