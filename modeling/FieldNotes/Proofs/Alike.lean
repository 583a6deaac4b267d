import FieldNotes.Proofs.Frame

/-! # Values that differ in a field

Two values are compared that are the same but for what stands in the values of one field of a record
type, wherever such a field is.

* `Value.leadsInto` says of a path that it leads into the value of such a field, and
  `Value.leadsInto_iff` that this goes by the records on its way.
* `Value.Alike` says of two values that they have the same outlines where no such path leads.
* `Value.Alike.of_parts`: values of one outline are alike if their parts are.
-/

namespace FieldNotes

namespace Value

variable (record : String) (i : Nat)

/-- Whether a step leads to the field at position `i` of a record of the type `record`. -/
def hasField : Value → Step → Bool
  | .record name _, .field j => name == record && j == i
  | _, _ => false

/-- Whether a path leads into the value of the field at position `i` of a record of the type
`record`, that is to a part of this value.  The path begins at such a value itself if `here` is
true. -/
def leadsInto (here : Bool) (v : Value) : Path → Bool
  | [] => false
  | s :: q => here || (v.child? s).any fun c => c.leadsInto (v.hasField record i s) q

/-- Two values have the same outlines wherever no value of the field was gone into. -/
def Alike (here : Bool) (v v' : Value) : Prop :=
  ∀ q, v.leadsInto record i here q = false →
    (v'.get? q).map outline = (v.get? q).map outline

variable {record i}

/-- The fields that are meant are all the fields at position `i` of records of the type. -/
theorem hasField_iff {v : Value} {s : Step} :
    v.hasField record i s = true ↔ (∃ vs, v = .record record vs) ∧ s = .field i := by
  constructor
  · intro h
    cases v <;> cases s <;> simp only [hasField, Bool.false_eq_true, Bool.and_eq_true,
      beq_iff_eq] at h
    rcases h with ⟨rfl, rfl⟩
    exact ⟨⟨_, rfl⟩, rfl⟩
  · rintro ⟨⟨vs, rfl⟩, rfl⟩
    simp [hasField]

theorem leadsInto_of_get? {v x : Value} {p rest : Path} {vs : List Value}
    (hp : v.get? p = some (.record record vs)) (hx : vs[i]? = some x) (hrest : rest ≠ [])
    (here : Bool) : v.leadsInto record i here (p ++ .field i :: rest) = true := by
  induction p generalizing v here with
  | nil =>
    rcases Option.some.inj hp with rfl
    have hchild : (Value.record record vs).child? (.field i) = some x := hx
    have hfield : (Value.record record vs).hasField record i (.field i) = true :=
      hasField_iff.2 ⟨⟨vs, rfl⟩, rfl⟩
    rcases List.exists_cons_of_ne_nil hrest with ⟨s, q, rfl⟩
    rw [List.nil_append, leadsInto, hchild, Option.any_some, hfield, leadsInto, Bool.true_or,
      Bool.or_true]
  | cons s p ih =>
    rw [get?_cons, Option.bind_eq_some_iff] at hp
    rcases hp with ⟨c, hc, hp⟩
    rw [List.cons_append, leadsInto, hc, Option.any_some, ih hp, Bool.or_true]

theorem leadsInto_iff {v : Value} {q : Path} :
    v.leadsInto record i false q = true ↔ ∃ p rest vs x, q = p ++ .field i :: rest ∧ rest ≠ [] ∧
      v.get? p = some (.record record vs) ∧ vs[i]? = some x := by
  constructor
  · intro h
    induction q generalizing v with
    | nil => cases h
    | cons s q ih =>
      rw [leadsInto, Bool.false_or, Option.any_eq_true] at h
      rcases h with ⟨c, hc, hq⟩
      cases hfield : v.hasField record i s with
      | true =>
        rcases hasField_iff.1 hfield with ⟨⟨vs, rfl⟩, rfl⟩
        refine ⟨[], q, vs, c, rfl, ?_, rfl, hc⟩
        rintro rfl
        cases hq
      | false =>
        rw [hfield] at hq
        rcases ih hq with ⟨p, rest, vs, x, rfl, hrest, hp, hx⟩
        refine ⟨s :: p, rest, vs, x, rfl, hrest, ?_, hx⟩
        rw [get?_cons, hc, Option.bind_some, hp]
  · rintro ⟨p, rest, vs, x, rfl, hrest, hp, hx⟩
    exact leadsInto_of_get? hp hx hrest false

theorem hasField_of_not_isField {s : Step} (hs : ¬ s.IsField) (v : Value) :
    v.hasField record i s = false := by
  rw [Bool.eq_false_iff]
  intro hfield
  rcases hasField_iff.1 hfield with ⟨_, rfl⟩
  exact hs trivial

/-- What is below a part of a value is below the value. -/
theorem leadsInto_cons {v c : Value} {s : Step} (hc : v.child? s = some c) (q : Path) :
    v.leadsInto record i false (s :: q) = c.leadsInto record i (v.hasField record i s) q := by
  rw [leadsInto, hc, Option.any_some, Bool.false_or]

theorem isSome_getElem?_of_length {vs ws : List Value} (h : vs.length = ws.length) (k : Nat) :
    vs[k]?.isSome = ws[k]?.isSome := by
  by_cases hk : k < ws.length
  · rw [List.getElem?_eq_getElem hk, List.getElem?_eq_getElem (h ▸ hk)]
    rfl
  · rw [List.getElem?_eq_none (Nat.le_of_not_lt hk),
      List.getElem?_eq_none (h ▸ Nat.le_of_not_lt hk)]

/-- Values of one outline have the same steps to parts. -/
theorem child?_isSome_of_outline {v v' : Value} (h : v'.outline = v.outline) (s : Step) :
    (v'.child? s).isSome = (v.child? s).isSome := by
  cases v <;> cases v' <;> simp only [outline, reduceCtorEq, Outline.record.injEq,
    Outline.list.injEq, Outline.array.injEq] at h <;> cases s <;>
    first | rfl | exact isSome_getElem?_of_length h.2 _

namespace Alike

theorem refl (here : Bool) (v : Value) : Alike record i here v v :=
  fun _ _ => rfl

/-- Of the value of the field only the outline counts. -/
theorem of_outline {v v' : Value} (h : v'.outline = v.outline) : Alike record i true v v' := by
  intro q hq
  cases q with
  | nil => exact congrArg some h
  | cons s q => cases hq

theorem outline_eq {here : Bool} {v v' : Value} (h : Alike record i here v v') :
    v'.outline = v.outline :=
  Option.some.inj (h [] rfl)

/-- Two values are alike if they have the same outline and their parts are alike. -/
theorem of_parts {v v' : Value} (hout : v'.outline = v.outline)
    (hparts : ∀ s c c', v.child? s = some c → v'.child? s = some c' →
      Alike record i (v.hasField record i s) c c') : Alike record i false v v' := by
  intro q hq
  cases q with
  | nil => exact congrArg some hout
  | cons s q =>
    have hsame := child?_isSome_of_outline hout s
    rw [get?_cons, get?_cons]
    cases hc : v.child? s with
    | none =>
      rw [hc] at hsame
      have hnone : v'.child? s = none := by simpa using hsame
      rw [hnone]
    | some c =>
      rw [hc] at hsame
      rcases Option.isSome_iff_exists.1 hsame with ⟨c', hc'⟩
      rw [leadsInto_cons hc] at hq
      rw [hc', Option.bind_some, Option.bind_some]
      exact hparts s c c' hc hc' q hq

theorem present {v v' : Value} (h : Alike record i false v v') :
    Alike record i false (.present v) (.present v') := by
  refine of_parts rfl ?_
  intro s c c' hc hc'
  cases s <;> cases hc
  cases hc'
  exact h

theorem owned {v v' : Value} (h : Alike record i false v v') :
    Alike record i false (.owned v) (.owned v') := by
  refine of_parts rfl ?_
  intro s c c' hc hc'
  cases s <;> cases hc
  cases hc'
  exact h

variable {vs vs' : List Value} (hlength : vs'.length = vs.length)

include hlength

theorem list (t : Ty)
    (h : ∀ (k : Nat) x x', vs[k]? = some x → vs'[k]? = some x' → Alike record i false x x') :
    Alike record i false (.list t vs) (.list t vs') := by
  refine of_parts (congrArg (Outline.list t) hlength) ?_
  intro s c c' hc hc'
  cases s with
  | index k => exact h k c c' hc hc'
  | _ => cases hc

theorem array (t : Ty)
    (h : ∀ (k : Nat) x x', vs[k]? = some x → vs'[k]? = some x' → Alike record i false x x') :
    Alike record i false (.array t vs) (.array t vs') := by
  refine of_parts (congrArg (Outline.array t) hlength) ?_
  intro s c c' hc hc'
  cases s with
  | index k => exact h k c c' hc hc'
  | _ => cases hc

/-- The fields of a record are alike one by one, and the field that is meant but for its outline. -/
theorem fields (name : String)
    (h : ∀ (k : Nat) x x', vs[k]? = some x → vs'[k]? = some x' →
      Alike record i (name == record && k == i) x x') :
    Alike record i false (.record name vs) (.record name vs') := by
  refine of_parts (congrArg (Outline.record name) hlength) ?_
  intro s c c' hc hc'
  cases s with
  | field k => exact h k c c' hc hc'
  | _ => cases hc

end Alike

end Value

end FieldNotes
