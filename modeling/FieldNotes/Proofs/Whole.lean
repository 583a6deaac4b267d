import FieldNotes.Proofs.Blanks
import FieldNotes.Proofs.Typing
import Mathlib.Data.List.Forall2

/-! # Whole values

A value is whole if every record in it has a value for each field that is declared for its type.  A
value that fits its type and is whole is all that its type says, and what its type fixes of it is
known from the type alone.

* `Value.isWhole` finds out whether a value is whole.
* `Value.Made`: a value fits a type and is whole.  Two values that are made for one type have one
  blank (`Value.Made.blank_eq`).
* `Schema.made_allocate`: what is allocated is made for its type, where the defaults of record types
  are (`Schema.DefaultsMade`).
-/

namespace FieldNotes

namespace Value

mutual

/-- Whether every record in a value has as many values as its type has fields. -/
def isWhole (s : Schema) : Value → Bool
  | .record name vs => vs.length == (s.decls name).length && allWhole s vs
  | .present v => v.isWhole s
  | .owned v => v.isWhole s
  | .list _ vs => allWhole s vs
  | .array _ vs => allWhole s vs
  | _ => true

/-- Whether all of these values are whole. -/
def allWhole (s : Schema) : List Value → Bool
  | [] => true
  | v :: vs => v.isWhole s && allWhole s vs

end

variable {s : Schema}

theorem allWhole_iff {vs : List Value} :
    allWhole s vs = true ↔ ∀ v ∈ vs, v.isWhole s = true := by
  induction vs with
  | nil => simp [allWhole]
  | cons v vs ih => simp [allWhole, ih]

theorem isWhole_record_iff {name : String} {vs : List Value} :
    (record name vs).isWhole s = true ↔
      vs.length = (s.decls name).length ∧ ∀ v ∈ vs, v.isWhole s = true := by
  simp only [isWhole, Bool.and_eq_true, beq_iff_eq, allWhole_iff]

theorem isWhole_of_scalar {v : Value} (h : v.kind = .scalar) : v.isWhole s = true := by
  cases v with
  | scalar d => rfl
  | sealed name d => rfl
  | _ => cases h

/-- Of a pointer that may be nil no more is fixed than what it may point at. -/
theorem blank_of_optional {v : Value} {t : Ty} (h : v.ty = .optional t) : v.blank s = .nil t := by
  cases v with
  | nil t' => exact congrArg Value.nil (Ty.optional.inj h)
  | present v => exact congrArg Value.nil (Ty.optional.inj h)
  | _ => cases h

/-- A value is built as its type says, and lacks nothing. -/
structure Made (s : Schema) (t : Ty) (v : Value) : Prop where
  fits : v.Fits s t
  whole : v.isWhole s = true

namespace Made

variable {t : Ty} {v w : Value} {vs ws : List Value}

/-! ## Parts -/

theorem scalar (d : Datum) : (Value.scalar d).Made s (.scalar d.ty) :=
  ⟨.scalar d, rfl⟩

theorem present_iff : (Value.present v).Made s (.optional t) ↔ v.Made s t := by
  constructor
  · rintro ⟨hfits, hwhole⟩
    cases hfits with
    | present hfits => exact ⟨hfits, hwhole⟩
  · rintro ⟨hfits, hwhole⟩
    exact ⟨.present hfits, hwhole⟩

theorem owned_iff : (Value.owned v).Made s (.owned t) ↔ v.Made s t := by
  constructor
  · rintro ⟨hfits, hwhole⟩
    cases hfits with
    | owned hfits => exact ⟨hfits, hwhole⟩
  · rintro ⟨hfits, hwhole⟩
    exact ⟨.owned hfits, hwhole⟩

theorem list_iff : (Value.list t vs).Made s (.list t) ↔ ∀ v ∈ vs, v.Made s t := by
  constructor
  · rintro ⟨hfits, hwhole⟩ v hv
    cases hfits with
    | list hfits => exact ⟨hfits v hv, allWhole_iff.1 hwhole v hv⟩
  · intro h
    exact ⟨.list fun v hv => (h v hv).fits, allWhole_iff.2 fun v hv => (h v hv).whole⟩

theorem array_iff : (Value.array t vs).Made s (.array vs.length t) ↔ ∀ v ∈ vs, v.Made s t := by
  constructor
  · rintro ⟨hfits, hwhole⟩ v hv
    -- the length in the type is the length of these very items
    generalize vs.length = n at hfits
    cases hfits with
    | array hfits => exact ⟨hfits v hv, allWhole_iff.1 hwhole v hv⟩
  · intro h
    exact ⟨.array fun v hv => (h v hv).fits, allWhole_iff.2 fun v hv => (h v hv).whole⟩

theorem record_iff {name : String} :
    (Value.record name vs).Made s (.record name) ↔
      vs.length = (s.decls name).length ∧
        ∀ (i : Nat) d v, (s.decls name)[i]? = some d → vs[i]? = some v → v.Made s d.ty := by
  constructor
  · rintro ⟨hfits, hwhole⟩
    obtain ⟨hlength, hall⟩ := isWhole_record_iff.1 hwhole
    cases hfits with
    | record hfits =>
      refine ⟨hlength, ?_⟩
      intro i d v hd hv
      exact ⟨hfits i d v hd hv, hall v (List.mem_of_getElem? hv)⟩
  · rintro ⟨hlength, h⟩
    refine ⟨.record fun i d v hd hv => (h i d v hd hv).fits, isWhole_record_iff.2 ⟨hlength, ?_⟩⟩
    intro v hv
    obtain ⟨i, hi⟩ := List.mem_iff_getElem?.1 hv
    obtain ⟨d, hd⟩ := exists_getElem?_of_length hlength.symm hi
    exact (h i d v hd hi).whole

/-- A record is made of values that are made for the types of its fields, one for each. -/
theorem of_forall₂ {name : String}
    (h : List.Forall₂ (fun d v => v.Made s d.ty) (s.decls name) vs) :
    (Value.record name vs).Made s (.record name) := by
  refine record_iff.2 ⟨h.length_eq.symm, ?_⟩
  intro i d v hd hv
  obtain ⟨hi, rfl⟩ := List.getElem?_eq_some_iff.1 hd
  obtain ⟨hi', rfl⟩ := List.getElem?_eq_some_iff.1 hv
  exact h.get hi hi'

/-! ## Blanks -/

/-- All that a type fixes of its values is the same in all of them. -/
theorem blank_eq (hv : v.Made s t) (hw : w.Made s t) : w.blank s = v.blank s := by
  obtain ⟨hvfits, hvwhole⟩ := hv
  induction hvfits generalizing w with
  | scalar d =>
    have hty := hw.fits.ty_eq
    cases w <;> simp only [ty, Ty.scalar.injEq, reduceCtorEq] at hty
    rw [blank, blank, hty]
  | sealed name d =>
    have hty := hw.fits.ty_eq
    cases w <;> simp only [ty, Ty.sealed.injEq, reduceCtorEq] at hty
    obtain ⟨rfl, hty⟩ := hty
    rw [blank, blank, hty]
  | record h ih =>
    have hv := record_iff.1 ⟨.record h, hvwhole⟩
    cases hw.fits with
    | record _ =>
      have hw := record_iff.1 hw
      refine congrArg (Value.record _) (blanks_eq_of_each (hw.1.trans hv.1.symm) ?_)
      intro i x y hx hy
      obtain ⟨d, hd⟩ := exists_getElem?_of_length hv.1.symm hx
      exact ih i d x hd hx (hw.2 i d y hd hy) (hv.2 i d x hd hx).whole
  | nil t => exact blank_of_optional hw.fits.ty_eq
  | present h ih =>
    rw [blank_of_optional hw.fits.ty_eq, blank, h.ty_eq]
  | owned h ih =>
    cases hw.fits with
    | owned _ => exact congrArg Value.owned (ih (owned_iff.1 hw) hvwhole)
  | list h ih =>
    cases hw.fits with
    | list _ => rfl
  | array h ih =>
    have hty := hw.fits.ty_eq
    cases w <;> simp only [ty, Ty.array.injEq, reduceCtorEq] at hty
    obtain ⟨hlength, rfl⟩ := hty
    rw [← hlength] at hw
    refine congrArg (Value.array _) (blanks_eq_of_each hlength ?_)
    intro i x y hx hy
    exact ih x (List.mem_of_getElem? hx) (array_iff.1 hw y (List.mem_of_getElem? hy))
      (allWhole_iff.1 hvwhole x (List.mem_of_getElem? hx))

/-- The blank of a value is made for its type, too. -/
theorem blank (hv : v.Made s t) : (v.blank s).Made s t := by
  obtain ⟨hfits, hwhole⟩ := hv
  induction hfits with
  | scalar d =>
    have hmade := Made.scalar (s := s) (Datum.zero d.ty)
    rwa [Datum.ty_zero] at hmade
  | sealed name d =>
    have hfits := Fits.sealed (s := s) name (s.sealing name d.ty).default
    rw [Sealing.ty_default] at hfits
    exact ⟨hfits, rfl⟩
  | record h ih =>
    have hv := record_iff.1 ⟨.record h, hwhole⟩
    refine record_iff.2 ⟨(length_blanks _).trans hv.1, ?_⟩
    intro i d x hd hx
    rw [blanks_eq_map, List.getElem?_map, Option.map_eq_some_iff] at hx
    obtain ⟨y, hy, rfl⟩ := hx
    exact ih i d y hd hy (hv.2 i d y hd hy).whole
  | nil t => exact ⟨.nil t, rfl⟩
  | present h ih =>
    rw [Value.blank, h.ty_eq]
    exact ⟨.nil _, rfl⟩
  | owned h ih => exact owned_iff.2 (ih hwhole)
  | list h ih => exact list_iff.2 fun x hx => absurd hx List.not_mem_nil
  | array h ih =>
    rename_i t vs
    have hblanks : ∀ x ∈ blanks s vs, x.Made s t := by
      intro x hx
      rw [blanks_eq_map] at hx
      obtain ⟨y, hy, rfl⟩ := List.mem_map.1 hx
      exact ih y hy (allWhole_iff.1 hwhole y hy)
    have hmade := array_iff.2 hblanks
    rw [length_blanks] at hmade
    exact hmade

end Made

end Value

/-! ## Defaults -/

namespace Schema

/-- The default of each record type is made for it: it has a value of the right type for every
field, and so on below. -/
def DefaultsMade (s : Schema) : Prop :=
  ∀ name, (s.default (.record name)).Made s (.record name)

variable {s : Schema}

theorem made_defaultWith {records : String → Value}
    (h : ∀ name, (records name).Made s (.record name)) (t : Ty) :
    (s.defaultWith records t).Made s t := by
  refine ⟨fits_defaultWith (fun name => (h name).fits) t, ?_⟩
  induction t with
  | scalar b => rfl
  | sealed name b => rfl
  | record name => exact (h name).whole
  | optional t ih => rfl
  | owned t ih => exact ih
  | list t ih => rfl
  | array n t ih =>
    refine Value.allWhole_iff.2 ?_
    intro v hv
    rw [List.eq_of_mem_replicate hv]
    exact ih

/-- The default of a type is made for it. -/
theorem made_default (h : s.DefaultsMade) (t : Ty) : (s.default t).Made s t :=
  made_defaultWith h t

/-- What is allocated is made for its type. -/
theorem made_allocate (h : s.DefaultsMade) {t : Ty} {v : Value} (hv : v.Made s t) :
    (s.allocate v).Made s t := by
  cases v with
  | nil elem =>
    obtain rfl := hv.fits.ty_eq
    exact Value.Made.present_iff.2 (made_default h elem)
  | _ => exact hv

/-- Defaults that follow the declarations have values of the right types.  They lack none if no
record type holds itself in its default. -/
theorem DefaultsDerived.made (hderived : s.DefaultsDerived)
    (hwhole : ∀ decl ∈ s.records, (s.default (.record decl.name)).isWhole s = true) :
    s.DefaultsMade := by
  intro name
  refine ⟨fits_default hderived.behave _, ?_⟩
  cases hrecord : s.record? name with
  | none =>
    -- a type that is not declared has no fields to lack
    have hdecls : s.decls name = [] := by simp only [decls, hrecord]
    have hdefault : s.default (.record name) = .record name [] := by
      simp only [default, defaultWith]
      cases s.records.length <;>
        simp only [recordDefault, hderived name, Option.getD_none, hdecls, List.map_nil]
    have hlength : ([] : List Value).length = (s.decls name).length := by rw [hdecls]; rfl
    rw [hdefault]
    exact Value.isWhole_record_iff.2 ⟨hlength, fun v hv => absurd hv List.not_mem_nil⟩
  | some decl =>
    have hfound := List.find?_some hrecord
    obtain rfl : decl.name = name := eq_of_beq hfound
    exact hwhole decl (List.mem_of_find?_eq_some hrecord)

end Schema

end FieldNotes
