import FieldNotes.Path
import FieldNotes.Schema
import Mathlib.Tactic.ByContra

/-! # Zeros, and what is filled in

A value is filled in where it is zero, and only there.  What its type fixes stays the same all the
while: how many values a record holds, how long an array is, what an owned pointer leads to.

* `Value.blank` is what the type of a value fixes of it: everything else is put back to zero.
* `Value.Equal` says of two values that they are equal as their types have it.  A zero is equal to
  its blank (`Value.equal_blank`), and if sealed types go by the scalars that they are made of it is
  its own blank, so that there is but one zero to a blank (`Value.eq_of_isZero`).
* `Value.Filled` says of two values that one has become the other by being filled in, and
  `Value.Filled.trans` that this goes on.
* `Value.Filled.get?`: what stands at a path before and after.
* `Value.Filled.exists_zero`: where a value has changed, a zero has changed.
-/

namespace FieldNotes

open Schema (allZero_iff isZero_record_iff isZero_array_iff)

/-- Sealed types hold those values equal that are the same, and no others. -/
def Schema.Structural (s : Schema) : Prop :=
  ∀ name t d e, (s.sealing name t).equal d e = true ↔ d = e

namespace Value

/-! ## Blanks -/

mutual

/-- The value with all that its type does not fix put back: scalars to zero, sealed values to their
default, pointers to nil, lists to no items. -/
def blank (s : Schema) : Value → Value
  | .scalar d => .scalar (Datum.zero d.ty)
  | .sealed name d => .sealed name (s.sealing name d.ty).default
  | .record name vs => .record name (blanks s vs)
  | .nil t => .nil t
  | .present v => .nil v.ty
  | .owned v => .owned (v.blank s)
  | .list t _ => .list t []
  | .array t vs => .array t (blanks s vs)

/-- The blanks of some values. -/
def blanks (s : Schema) : List Value → List Value
  | [] => []
  | v :: vs => v.blank s :: blanks s vs

end

variable {s : Schema}

theorem blanks_eq_map (vs : List Value) : blanks s vs = vs.map (blank s) := by
  induction vs with
  | nil => rfl
  | cons v vs ih => rw [blanks, ih, List.map_cons]

theorem length_eq_of_blanks {vs ws : List Value} (h : blanks s ws = blanks s vs) :
    ws.length = vs.length := by
  have hlength := congrArg List.length h
  rwa [blanks_eq_map, blanks_eq_map, List.length_map, List.length_map] at hlength

theorem blank_eq_of_blanks {vs ws : List Value} (h : blanks s ws = blanks s vs) {i : Nat}
    {v w : Value} (hv : vs[i]? = some v) (hw : ws[i]? = some w) : w.blank s = v.blank s := by
  have hat := congrArg (·[i]?) h
  simp only [blanks_eq_map, List.getElem?_map, hv, hw, Option.map_some] at hat
  exact Option.some.inj hat

theorem ty_blank (v : Value) : (v.blank s).ty = v.ty := by
  cases v with
  | scalar d => simp only [blank, ty, Datum.ty_zero]
  | sealed name d => simp only [blank, ty, Sealing.ty_default]
  | owned v => exact congrArg Ty.owned v.ty_blank
  | array t vs => simp only [blank, ty, blanks_eq_map, List.length_map]
  | _ => rfl

theorem kind_blank (v : Value) : (v.blank s).kind = v.kind := by
  cases v <;> rfl

/-- Values with one blank are of one type. -/
theorem ty_eq_of_blank {v w : Value} (h : w.blank s = v.blank s) : w.ty = v.ty := by
  rw [← ty_blank w, h, ty_blank]

theorem kind_eq_of_blank {v w : Value} (h : w.blank s = v.blank s) : w.kind = v.kind := by
  rw [← kind_blank w, h, kind_blank]

/-! ## Equal values -/

/-- Values that are equal as their types have it: sealed values if their type says so, other scalars
and nil pointers if they are the same, and all others part by part. -/
inductive Equal (s : Schema) : Value → Value → Prop
  | refl (v : Value) : Equal s v v
  | sealed {name : String} {d e : Datum} (h : (s.sealing name d.ty).equal d e = true) :
      Equal s (.sealed name d) (.sealed name e)
  | present {v w : Value} (h : Equal s v w) : Equal s (.present v) (.present w)
  | owned {v w : Value} (h : Equal s v w) : Equal s (.owned v) (.owned w)
  | record {name : String} {vs ws : List Value} (hlength : ws.length = vs.length)
      (h : ∀ (i : Nat) v w, vs[i]? = some v → ws[i]? = some w → Equal s v w) :
      Equal s (.record name vs) (.record name ws)
  | list {t : Ty} {vs ws : List Value} (hlength : ws.length = vs.length)
      (h : ∀ (i : Nat) v w, vs[i]? = some v → ws[i]? = some w → Equal s v w) :
      Equal s (.list t vs) (.list t ws)
  | array {t : Ty} {vs ws : List Value} (hlength : ws.length = vs.length)
      (h : ∀ (i : Nat) v w, vs[i]? = some v → ws[i]? = some w → Equal s v w) :
      Equal s (.array t vs) (.array t ws)

/-- Rows of one length have items at the same positions. -/
theorem exists_getElem?_of_length {α β : Type} {vs : List α} {ws : List β}
    (hlength : ws.length = vs.length) {i : Nat} {v : α} (hv : vs[i]? = some v) :
    ∃ w, ws[i]? = some w := by
  obtain ⟨hlt, -⟩ := List.getElem?_eq_some_iff.1 hv
  have hlt' : i < ws.length := by omega
  exact ⟨ws[i], List.getElem?_eq_getElem hlt'⟩

/-- Rows of one length that are not the same differ at some position. -/
theorem exists_item_ne {vs ws : List Value} (hlength : ws.length = vs.length) (hne : ws ≠ vs) :
    ∃ (i : Nat) (v w : Value), vs[i]? = some v ∧ ws[i]? = some w ∧ w ≠ v := by
  by_contra hnone
  apply hne
  apply List.ext_getElem hlength
  intro i hw hv
  by_contra hvw
  exact hnone ⟨i, vs[i], ws[i], List.getElem?_eq_getElem hv, List.getElem?_eq_getElem hw, hvw⟩

/-- Rows of one length are the same if they agree at each position. -/
theorem eq_of_each {vs ws : List Value} (hlength : ws.length = vs.length)
    (h : ∀ (i : Nat) v w, vs[i]? = some v → ws[i]? = some w → w = v) : ws = vs := by
  by_contra hne
  obtain ⟨i, v, w, hv, hw, hvw⟩ := exists_item_ne hlength hne
  exact hvw (h i v w hv hw)

/-- Where sealed types go by the scalars that they are made of, only the same values are equal. -/
theorem Equal.eq {v w : Value} (hs : s.Structural) (h : v.Equal s w) : w = v := by
  induction h with
  | refl v => rfl
  | sealed h => rw [(hs _ _ _ _).1 h]
  | present _ ih => rw [ih]
  | owned _ ih => rw [ih]
  | record hlength _ ih => rw [eq_of_each hlength ih]
  | list hlength _ ih => rw [eq_of_each hlength ih]
  | array hlength _ ih => rw [eq_of_each hlength ih]

theorem length_blanks (vs : List Value) : (blanks s vs).length = vs.length := by
  rw [blanks_eq_map, List.length_map]

mutual

/-- A zero is equal to its blank. -/
theorem equal_blank : (v : Value) → s.isZero v = true → v.Equal s (v.blank s)
  | .scalar d, h => by
    have hd : d = Datum.zero d.ty := Datum.isZero_iff.1 h
    rw [blank, ← hd]
    exact .refl _
  | .sealed name d, h => .sealed h
  | .record name vs, h => .record (length_blanks vs) (equal_blanks vs h)
  | .nil t, _ => .refl _
  | .list t [], _ => .refl _
  | .array t vs, h => .array (length_blanks vs) (equal_blanks vs h)

theorem equal_blanks : (vs : List Value) → s.allZero vs = true → ∀ (i : Nat) v w,
    vs[i]? = some v → (blanks s vs)[i]? = some w → v.Equal s w
  | [], _, i, v, w, hv, _ => by cases hv
  | x :: vs, h, i, v, w, hv, hw => by
    obtain ⟨hx, hvs⟩ := (Bool.and_eq_true _ _).mp h
    cases i with
    | zero =>
      obtain rfl := Option.some.inj hv
      obtain rfl := Option.some.inj hw
      exact equal_blank x hx
    | succ i => exact equal_blanks vs hvs i v w hv hw

end

/-- Zeros with one blank are one, if sealed types go by the scalars that they are made of. -/
theorem eq_of_isZero {v w : Value} (hs : s.Structural) (hv : s.isZero v = true)
    (hw : s.isZero w = true) (h : w.blank s = v.blank s) : w = v := by
  rw [← (equal_blank w hw).eq hs, h, (equal_blank v hv).eq hs]

/-! ## Parts of zeros -/

/-- A part of a zero is a zero, and a value with the blank of the whole has a part there with the
blank of the part. -/
theorem child?_of_isZero {v w x : Value} {step : Step} (hv : s.isZero v = true)
    (h : w.blank s = v.blank s) (hx : v.child? step = some x) :
    s.isZero x = true ∧ ∃ y, w.child? step = some y ∧ y.blank s = x.blank s := by
  -- the zeros that have parts are records and arrays, and their blanks have as many
  have hitems (vs ws : List Value) (i : Nat) (hvs : s.allZero vs = true)
      (hblanks : blanks s ws = blanks s vs) (hi : vs[i]? = some x) :
      s.isZero x = true ∧ ∃ y, ws[i]? = some y ∧ y.blank s = x.blank s := by
    refine ⟨allZero_iff.1 hvs x (List.mem_of_getElem? hi), ?_⟩
    obtain ⟨hlt, -⟩ := List.getElem?_eq_some_iff.1 hi
    have hlt' : i < ws.length := by
      have hlength := length_eq_of_blanks hblanks
      omega
    have hw : ws[i]? = some ws[i] := List.getElem?_eq_getElem hlt'
    exact ⟨ws[i], hw, blank_eq_of_blanks hblanks hi hw⟩
  cases v with
  | record name vs =>
    -- only a record has the blank of one
    cases w <;> simp only [blank, reduceCtorEq, record.injEq] at h
    cases step with
    | field i => exact hitems vs _ i hv h.2 hx
    | _ => cases hx
  | array t vs =>
    cases w <;> simp only [blank, reduceCtorEq, array.injEq] at h
    cases step with
    | index i => exact hitems vs _ i hv h.2 hx
    | _ => cases hx
  | list t vs =>
    cases vs with
    | nil => cases step <;> cases hx
    | cons v vs => cases hv
  | present v => cases hv
  | owned v => cases hv
  | _ => cases step <;> cases hx

/-! ## Filling in -/

/-- One value has become another one by being filled in: parts that were zero may be others now, and
nothing else has changed. -/
inductive Filled (s : Schema) : Value → Value → Prop
  | refl (v : Value) : Filled s v v
  /-- A zero becomes any value with its blank. -/
  | zero {v w : Value} (hzero : s.isZero v = true) (hblank : w.blank s = v.blank s) : Filled s v w
  | present {v w : Value} (h : Filled s v w) : Filled s (.present v) (.present w)
  | owned {v w : Value} (h : Filled s v w) : Filled s (.owned v) (.owned w)
  | record {name : String} {vs ws : List Value} (hlength : ws.length = vs.length)
      (h : ∀ (i : Nat) v w, vs[i]? = some v → ws[i]? = some w → Filled s v w) :
      Filled s (.record name vs) (.record name ws)
  | list {t : Ty} {vs ws : List Value} (hlength : ws.length = vs.length)
      (h : ∀ (i : Nat) v w, vs[i]? = some v → ws[i]? = some w → Filled s v w) :
      Filled s (.list t vs) (.list t ws)
  | array {t : Ty} {vs ws : List Value} (hlength : ws.length = vs.length)
      (h : ∀ (i : Nat) v w, vs[i]? = some v → ws[i]? = some w → Filled s v w) :
      Filled s (.array t vs) (.array t ws)

theorem blanks_eq_of_each {vs ws : List Value} (hlength : ws.length = vs.length)
    (h : ∀ (i : Nat) v w, vs[i]? = some v → ws[i]? = some w → w.blank s = v.blank s) :
    blanks s ws = blanks s vs := by
  rw [blanks_eq_map, blanks_eq_map]
  apply List.ext_getElem?
  intro i
  rw [List.getElem?_map, List.getElem?_map]
  cases hv : vs[i]? with
  | none =>
    have hw : ws[i]? = none := by
      rw [List.getElem?_eq_none_iff] at hv ⊢
      omega
    rw [hw]
  | some v =>
    obtain ⟨w, hw⟩ := exists_getElem?_of_length hlength hv
    rw [hw, Option.map_some, Option.map_some, h i v w hv hw]

/-- At a path there was a zero, and it is there no longer. -/
def FilledAt (s : Schema) (v w : Value) (p : Path) : Prop :=
  ∃ z, v.get? p = some z ∧ s.isZero z = true ∧ w.get? p ≠ some z

/-- A change in a part is one in the whole. -/
theorem FilledAt.behind {v w x y : Value} {step : Step} {p : Path} (hx : v.child? step = some x)
    (hy : w.child? step = some y) (h : FilledAt s x y p) : FilledAt s v w (step :: p) := by
  obtain ⟨z, hz, hzero, hne⟩ := h
  refine ⟨z, ?_, hzero, ?_⟩
  · rw [get?_cons, hx, Option.bind_some, hz]
  · rw [get?_cons, hy, Option.bind_some]
    exact hne

namespace Filled

variable {v w u : Value}

theorem blank_eq (h : v.Filled s w) : w.blank s = v.blank s := by
  induction h with
  | refl v => rfl
  | zero _ hblank => exact hblank
  | present _ ih => exact congrArg Value.nil (ty_eq_of_blank ih)
  | owned _ ih => exact congrArg Value.owned ih
  | record hlength _ ih => exact congrArg (Value.record _) (blanks_eq_of_each hlength ih)
  | list _ _ _ => rfl
  | array hlength _ ih => exact congrArg (Value.array _) (blanks_eq_of_each hlength ih)

/-- Nothing becomes zero by being filled in. -/
theorem isZero_of_isZero (h : v.Filled s w) (hw : s.isZero w = true) : s.isZero v = true := by
  have heach {vs ws : List Value} (hlength : ws.length = vs.length)
      (ih : ∀ (i : Nat) v w, vs[i]? = some v → ws[i]? = some w → s.isZero w = true →
        s.isZero v = true) (hws : ∀ w ∈ ws, s.isZero w = true) : ∀ v ∈ vs, s.isZero v = true := by
    intro x hx
    obtain ⟨i, hi⟩ := List.mem_iff_getElem?.1 hx
    obtain ⟨y, hy⟩ := exists_getElem?_of_length hlength hi
    exact ih i x y hi hy (hws y (List.mem_of_getElem? hy))
  induction h with
  | refl v => exact hw
  | zero hzero _ => exact hzero
  | present _ _ => cases hw
  | owned _ _ => cases hw
  | record hlength _ ih => exact isZero_record_iff.2 (heach hlength ih (isZero_record_iff.1 hw))
  | list hlength _ _ =>
    have hnil := List.isEmpty_iff.1 hw
    rw [hnil, List.length_nil] at hlength
    exact List.isEmpty_iff.2 (List.eq_nil_of_length_eq_zero hlength.symm)
  | array hlength _ ih => exact isZero_array_iff.2 (heach hlength ih (isZero_array_iff.1 hw))

/-- A value that is filled in twice is filled in. -/
theorem trans (h : v.Filled s w) (h' : w.Filled s u) : v.Filled s u := by
  have heach {vs ws us : List Value} (hws : ws.length = vs.length)
      (ih : ∀ (i : Nat) v w, vs[i]? = some v → ws[i]? = some w → ∀ {u}, w.Filled s u →
        v.Filled s u)
      (h' : ∀ (i : Nat) w u, ws[i]? = some w → us[i]? = some u → w.Filled s u) :
      ∀ (i : Nat) v u, vs[i]? = some v → us[i]? = some u → v.Filled s u := by
    intro i x z hx hz
    obtain ⟨y, hy⟩ := exists_getElem?_of_length hws hx
    exact ih i x y hx hy (h' i y z hy hz)
  -- if what came first has become a zero, it was that zero all along
  have hzeros {v w u : Value} (h : v.Filled s w) (hzero : s.isZero w = true)
      (hblank : u.blank s = w.blank s) : v.Filled s u :=
    .zero (h.isZero_of_isZero hzero) (hblank.trans h.blank_eq)
  induction h generalizing u with
  | refl v => exact h'
  | zero hzero hblank => exact .zero hzero (h'.blank_eq.trans hblank)
  | present h ih =>
    cases h' with
    | refl _ => exact .present h
    | zero hzero _ => cases hzero
    | present h' => exact .present (ih h')
  | owned h ih =>
    cases h' with
    | refl _ => exact .owned h
    | zero hzero _ => cases hzero
    | owned h' => exact .owned (ih h')
  | record hlength h ih =>
    cases h' with
    | refl _ => exact .record hlength h
    | zero hzero hblank => exact hzeros (.record hlength h) hzero hblank
    | record hlength' h' => exact .record (hlength'.trans hlength) (heach hlength ih h')
  | list hlength h ih =>
    cases h' with
    | refl _ => exact .list hlength h
    | zero hzero hblank => exact hzeros (.list hlength h) hzero hblank
    | list hlength' h' => exact .list (hlength'.trans hlength) (heach hlength ih h')
  | array hlength h ih =>
    cases h' with
    | refl _ => exact .array hlength h
    | zero hzero hblank => exact hzeros (.array hlength h) hzero hblank
    | array hlength' h' => exact .array (hlength'.trans hlength) (heach hlength ih h')

/-! ## Parts of what is filled in -/

/-- The items at one position, before and after. -/
theorem item {vs ws : List Value} (hlength : ws.length = vs.length)
    (h : ∀ (i : Nat) v w, vs[i]? = some v → ws[i]? = some w → v.Filled s w) {i : Nat}
    {x : Value} (hx : vs[i]? = some x) : ∃ y, ws[i]? = some y ∧ x.Filled s y := by
  obtain ⟨y, hy⟩ := exists_getElem?_of_length hlength hx
  exact ⟨y, hy, h i x y hx hy⟩

theorem child? {x : Value} {step : Step} (h : v.Filled s w) (hx : v.child? step = some x) :
    ∃ y, w.child? step = some y ∧ x.Filled s y := by
  cases h with
  | refl _ => exact ⟨x, hx, .refl x⟩
  | zero hzero hblank =>
    obtain ⟨hx', y, hy, hyx⟩ := child?_of_isZero hzero hblank hx
    exact ⟨y, hy, .zero hx' hyx⟩
  | present h =>
    cases step with
    | deref =>
      obtain rfl := Option.some.inj hx
      exact ⟨_, rfl, h⟩
    | _ => cases hx
  | owned h =>
    cases step with
    | deref =>
      obtain rfl := Option.some.inj hx
      exact ⟨_, rfl, h⟩
    | _ => cases hx
  | record hlength h =>
    cases step with
    | field i => exact item hlength h hx
    | _ => cases hx
  | list hlength h =>
    cases step with
    | index i => exact item hlength h hx
    | _ => cases hx
  | array hlength h =>
    cases step with
    | index i => exact item hlength h hx
    | _ => cases hx

/-- Where there was a value, there is one still, and it is that value filled in. -/
theorem get? {x : Value} {q : Path} (h : v.Filled s w) (hx : v.get? q = some x) :
    ∃ y, w.get? q = some y ∧ x.Filled s y := by
  induction q generalizing v w with
  | nil =>
    obtain rfl := Option.some.inj hx
    exact ⟨w, rfl, h⟩
  | cons step q ih =>
    rw [get?_cons, Option.bind_eq_some_iff] at hx
    obtain ⟨c, hc, hx⟩ := hx
    obtain ⟨d, hd, hcd⟩ := h.child? hc
    obtain ⟨y, hy, hxy⟩ := ih hcd hx
    refine ⟨y, ?_, hxy⟩
    rw [get?_cons, hd, Option.bind_some, hy]

/-- A value without parts that is not zero has not changed. -/
theorem eq_of_scalar (h : v.Filled s w) (hkind : v.kind = .scalar) (hv : s.isZero v = false) :
    w = v := by
  cases h with
  | refl _ => rfl
  | zero hzero _ =>
    rw [hzero] at hv
    cases hv
  | _ => cases hkind

/-- A pointer that is not nil leads to what it led to, filled in. -/
theorem of_present {x : Value} (h : (Value.present x).Filled s w) :
    ∃ y, w = .present y ∧ x.Filled s y := by
  cases h with
  | refl _ => exact ⟨x, rfl, .refl x⟩
  | zero hzero _ => cases hzero
  | present h => exact ⟨_, rfl, h⟩

theorem of_owned {x : Value} (h : (Value.owned x).Filled s w) :
    ∃ y, w = .owned y ∧ x.Filled s y := by
  cases h with
  | refl _ => exact ⟨x, rfl, .refl x⟩
  | zero hzero _ => cases hzero
  | owned h => exact ⟨_, rfl, h⟩

/-- A list that is not empty keeps its length. -/
theorem of_list {t : Ty} {vs : List Value} (h : (Value.list t vs).Filled s w) (hvs : vs ≠ []) :
    ∃ ws, w = .list t ws ∧ ws.length = vs.length := by
  cases h with
  | refl _ => exact ⟨vs, rfl, rfl⟩
  | zero hzero _ => exact absurd (List.isEmpty_iff.1 hzero) hvs
  | list hlength _ => exact ⟨_, rfl, hlength⟩

theorem kind_eq (h : v.Filled s w) : w.kind = v.kind :=
  kind_eq_of_blank h.blank_eq

/-- A record stays a record of its type, be it zero or not. -/
theorem of_record {name : String} {vs : List Value} (h : (Value.record name vs).Filled s w) :
    ∃ ws, w = .record name ws := by
  have hblank := h.blank_eq
  cases w <;> simp only [blank, reduceCtorEq, record.injEq] at hblank
  obtain ⟨rfl, -⟩ := hblank
  exact ⟨_, rfl⟩

/-- An array keeps its length, be it zero or not. -/
theorem of_array {t : Ty} {vs : List Value} (h : (Value.array t vs).Filled s w) :
    ∃ ws, w = .array t ws ∧ ws.length = vs.length := by
  have hblank := h.blank_eq
  cases w <;> simp only [blank, reduceCtorEq, array.injEq] at hblank
  obtain ⟨rfl, hblanks⟩ := hblank
  exact ⟨_, rfl, length_eq_of_blanks hblanks⟩

/-! ## Changes -/

/-- A value that has changed was zero somewhere, and is no longer there. -/
theorem exists_filledAt (h : v.Filled s w) (hne : w ≠ v) : ∃ p, FilledAt s v w p := by
  induction h with
  | refl v => exact absurd rfl hne
  | zero hzero _ => exact ⟨[], _, rfl, hzero, fun heq => hne (Option.some.inj heq)⟩
  | present _ ih =>
    obtain ⟨p, hp⟩ := ih fun heq => hne (congrArg Value.present heq)
    exact ⟨.deref :: p, hp.behind rfl rfl⟩
  | owned _ ih =>
    obtain ⟨p, hp⟩ := ih fun heq => hne (congrArg Value.owned heq)
    exact ⟨.deref :: p, hp.behind rfl rfl⟩
  | record hlength _ ih =>
    obtain ⟨i, x, y, hx, hy, hxy⟩ :=
      exists_item_ne hlength fun heq => hne (congrArg (Value.record _) heq)
    obtain ⟨p, hp⟩ := ih i x y hx hy hxy
    exact ⟨.field i :: p, hp.behind hx hy⟩
  | list hlength _ ih =>
    obtain ⟨i, x, y, hx, hy, hxy⟩ :=
      exists_item_ne hlength fun heq => hne (congrArg (Value.list _) heq)
    obtain ⟨p, hp⟩ := ih i x y hx hy hxy
    exact ⟨.index i :: p, hp.behind hx hy⟩
  | array hlength _ ih =>
    obtain ⟨i, x, y, hx, hy, hxy⟩ :=
      exists_item_ne hlength fun heq => hne (congrArg (Value.array _) heq)
    obtain ⟨p, hp⟩ := ih i x y hx hy hxy
    exact ⟨.index i :: p, hp.behind hx hy⟩

/-- There are no new parts but in what was zero. -/
theorem child?_eq_none {step : Step} (h : v.Filled s w) (hv : s.isZero v = false)
    (hs : v.child? step = none) : w.child? step = none := by
  have hitem {vs ws : List Value} (hlength : ws.length = vs.length) {i : Nat}
      (hi : vs[i]? = none) : ws[i]? = none := by
    rw [List.getElem?_eq_none_iff] at hi ⊢
    omega
  cases h with
  | refl _ => exact hs
  | zero hzero _ =>
    rw [hzero] at hv
    cases hv
  | present _ => cases step <;> first | rfl | cases hs
  | owned _ => cases step <;> first | rfl | cases hs
  | record hlength _ =>
    cases step with
    | field i => exact hitem hlength hs
    | _ => rfl
  | list hlength _ =>
    cases step with
    | index i => exact hitem hlength hs
    | _ => rfl
  | array hlength _ =>
    cases step with
    | index i => exact hitem hlength hs
    | _ => rfl

/-- Where a value is another one than before, there was a zero there or above or below it, and that
zero has changed. -/
theorem exists_zero (h : v.Filled s w) (q : Path) (hne : w.get? q ≠ v.get? q) :
    ∃ p, FilledAt s v w p ∧ (p <+: q ∨ q <+: p) := by
  induction q generalizing v w with
  | nil =>
    obtain ⟨p, hp⟩ := h.exists_filledAt fun heq => hne (congrArg some heq)
    exact ⟨p, hp, Or.inr List.nil_prefix⟩
  | cons step q ih =>
    cases hzero : s.isZero v with
    | true =>
      -- nothing can have changed below this zero but with it
      refine ⟨[], ⟨v, rfl, hzero, ?_⟩, Or.inl List.nil_prefix⟩
      intro heq
      obtain rfl := Option.some.inj heq
      exact hne rfl
    | false =>
      cases hs : v.child? step with
      | none =>
        rw [get?_cons, get?_cons, hs, h.child?_eq_none hzero hs] at hne
        exact absurd rfl hne
      | some x =>
        obtain ⟨y, hy, hxy⟩ := h.child? hs
        rw [get?_cons, get?_cons, hs, hy, Option.bind_some, Option.bind_some] at hne
        obtain ⟨p, hp, hpq⟩ := ih hxy hne
        refine ⟨step :: p, hp.behind hs hy, ?_⟩
        rcases hpq with hpq | hqp
        · exact Or.inl (List.cons_prefix_cons.2 ⟨rfl, hpq⟩)
        · exact Or.inr (List.cons_prefix_cons.2 ⟨rfl, hqp⟩)

end Filled

end Value

end FieldNotes
