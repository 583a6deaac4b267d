import FieldNotes.Proofs.Literals
import Mathlib.Data.Finset.Card
import Mathlib.Data.Finset.Dedup

/-! # Zeros of types

A type has one zero at most, if sealed types hold only the same values equal.  What stands behind a
pointer or in a list has no part in this, since nil pointers and empty lists are zeros; what stands
in a value by value has to be zero with it.

* `Schema.Holds` says which types hold another one by value.
* `Schema.Sized`: no record type holds itself by value, so its values end somewhere.
* `Value.withZeroTimes` sets the instants that stand in a value by value to zero.
* `Schema.zero_of_type`: a type has a zero if it holds no owned pointer by value.  This is then its
  default with such instants; the default itself is zero if the type holds no instant either.
-/

namespace FieldNotes

namespace Schema

/-- The types that hold a type by value: the type itself, record types with a field that holds it,
and arrays with items that hold it. -/
inductive Holds (s : Schema) (u : Ty) : Ty → Prop
  | self : Holds s u u
  | field {name : String} {d : FieldDecl} (hd : d ∈ s.decls name) (h : Holds s u d.ty) :
      Holds s u (.record name)
  | item {n : Nat} {t : Ty} (hn : 0 < n) (h : Holds s u t) : Holds s u (.array n t)

/-- No record type holds itself in one of its fields. -/
def Sized (s : Schema) : Prop :=
  ∀ name, ∀ d ∈ s.decls name, ¬ s.Holds (.record name) d.ty

end Schema

namespace Value

open Schema (allZero_iff isZero_record_iff isZero_array_iff)

mutual

/-- The value with the zero instant for every instant that stands in it by value. -/
def withZeroTimes : Value → Value
  | .scalar (.instant _) => .scalar (.instant .zero)
  | .record name vs => .record name (allWithZeroTimes vs)
  | .array t vs => .array t (allWithZeroTimes vs)
  | v => v

/-- These values, each with zero instants. -/
def allWithZeroTimes : List Value → List Value
  | [] => []
  | v :: vs => v.withZeroTimes :: allWithZeroTimes vs

end

theorem allWithZeroTimes_eq_map (vs : List Value) :
    allWithZeroTimes vs = vs.map withZeroTimes := by
  induction vs with
  | nil => rfl
  | cons v vs ih => rw [allWithZeroTimes, ih, List.map_cons]

theorem allZero_allWithZeroTimes {s : Schema} {vs : List Value}
    (h : ∀ v ∈ vs, s.isZero v.withZeroTimes = true) : s.allZero (allWithZeroTimes vs) = true := by
  rw [allWithZeroTimes_eq_map, allZero_iff]
  intro w hw
  obtain ⟨v, hv, rfl⟩ := List.mem_map.1 hw
  exact h v hv

theorem withZeroTimes_scalar (d : Datum) :
    (scalar d).withZeroTimes = scalar (if d.ty = .instant then .zero .instant else d) := by
  cases d <;> rfl

namespace Made

variable {s : Schema} {t u : Ty} {v : Value}

/-- Setting instants changes no type. -/
theorem withZeroTimes (h : v.Made s t) : v.withZeroTimes.Made s t := by
  obtain ⟨hfits, hwhole⟩ := h
  induction hfits with
  | scalar d =>
    rw [withZeroTimes_scalar]
    split
    · rename_i hd
      rw [hd]
      exact .scalar (.zero .instant)
    · exact .scalar d
  | sealed name d => exact ⟨.sealed name d, rfl⟩
  | nil t => exact ⟨.nil t, rfl⟩
  | present h _ => exact ⟨.present h, hwhole⟩
  | owned h _ => exact ⟨.owned h, hwhole⟩
  | list h _ => exact ⟨.list h, hwhole⟩
  | @record name vs h ih =>
    obtain ⟨hlength, hvs⟩ := record_iff.1 ⟨.record h, hwhole⟩
    rw [Value.withZeroTimes, allWithZeroTimes_eq_map]
    refine record_iff.2 ⟨by rw [List.length_map, hlength], ?_⟩
    intro i d w hd hw
    rw [List.getElem?_map, Option.map_eq_some_iff] at hw
    obtain ⟨v, hv, rfl⟩ := hw
    exact ih i d v hd hv (hvs i d v hd hv).whole
  | @array t vs h ih =>
    have hvs := array_iff.1 ⟨.array h, hwhole⟩
    have hmade : (array t (vs.map Value.withZeroTimes)).Made s
        (.array (vs.map Value.withZeroTimes).length t) := by
      refine array_iff.2 ?_
      intro w hw
      obtain ⟨v, hv, rfl⟩ := List.mem_map.1 hw
      exact ih v hv (hvs v hv).whole
    rwa [List.length_map, ← allWithZeroTimes_eq_map] at hmade

/-- Where no instant stands by value there is none to set. -/
theorem withZeroTimes_eq (h : v.Made s t) (ht : ¬ s.Holds (.scalar .instant) t) :
    v.withZeroTimes = v := by
  obtain ⟨hfits, hwhole⟩ := h
  induction hfits with
  | scalar d =>
    have hd : d.ty ≠ .instant := by
      intro hd
      rw [hd] at ht
      exact ht .self
    rw [withZeroTimes_scalar, if_neg hd]
  | @record name vs h ih =>
    obtain ⟨hlength, hvs⟩ := record_iff.1 ⟨.record h, hwhole⟩
    have heach : ∀ v ∈ vs, v.withZeroTimes = v := by
      intro v hv
      obtain ⟨i, hi⟩ := List.mem_iff_getElem?.1 hv
      obtain ⟨d, hd⟩ := exists_getElem?_of_length hlength.symm hi
      exact ih i d v hd hi (fun hholds => ht (.field (List.mem_of_getElem? hd) hholds))
        (hvs i d v hd hi).whole
    rw [Value.withZeroTimes, allWithZeroTimes_eq_map, List.map_congr_left heach, List.map_id']
  | @array t vs h ih =>
    have hvs := array_iff.1 ⟨.array h, hwhole⟩
    have heach : ∀ v ∈ vs, v.withZeroTimes = v := by
      intro v hv
      exact ih v hv (fun hholds => ht (.item (List.length_pos_of_mem hv) hholds)) (hvs v hv).whole
    rw [Value.withZeroTimes, allWithZeroTimes_eq_map, List.map_congr_left heach, List.map_id']
  | _ => rfl

/-- A zero has a zero of each type that stands in its type by value. -/
theorem exists_zero_of_holds (h : s.Holds u t) (hv : v.Made s t) (hzero : s.isZero v = true) :
    ∃ w : Value, w.Made s u ∧ s.isZero w = true := by
  induction h generalizing v with
  | self => exact ⟨v, hv, hzero⟩
  | @field name d hd h ih =>
    obtain ⟨hfits, hwhole⟩ := hv
    cases hfits with
    | @record _ vs hfits =>
      obtain ⟨hlength, hvs⟩ := record_iff.1 ⟨.record hfits, hwhole⟩
      obtain ⟨i, hi⟩ := List.mem_iff_getElem?.1 hd
      obtain ⟨w, hw⟩ := exists_getElem?_of_length hlength hi
      exact ih (hvs i d w hi hw) (isZero_record_iff.1 hzero w (List.mem_of_getElem? hw))
  | @item n t hn h ih =>
    obtain ⟨hfits, hwhole⟩ := hv
    cases hfits with
    | @array _ vs hfits =>
      have hvs := array_iff.1 ⟨.array hfits, hwhole⟩
      obtain ⟨w, ws, rfl⟩ := List.exists_cons_of_length_pos hn
      exact ih (hvs w List.mem_cons_self) (isZero_array_iff.1 hzero w List.mem_cons_self)

/-- So a zero holds no owned pointer by value: no owned pointer is zero. -/
theorem not_holds_owned (hv : v.Made s t) (hzero : s.isZero v = true) :
    ¬ ∃ e, s.Holds (.owned e) t := by
  rintro ⟨e, h⟩
  obtain ⟨w, ⟨hfits, -⟩, hw⟩ := exists_zero_of_holds h hv hzero
  cases hfits with
  | owned _ => cases hw

end Made

end Value

namespace Schema

variable {s : Schema} {t u : Ty}

theorem Holds.trans {t' : Ty} (h : s.Holds u t) (h' : s.Holds t t') : s.Holds u t' := by
  induction h' with
  | self => exact h
  | field hd _ ih => exact .field hd ih
  | item hn _ ih => exact .item hn ih

/-! ## Defaults -/

/-- Among these names are those of all record types with fields that a type holds by value. -/
def Covers (s : Schema) (names : Finset String) (t : Ty) : Prop :=
  ∀ name, s.decls name ≠ [] → s.Holds (.record name) t → name ∈ names

namespace Covers

variable {names : Finset String}

theorem of_holds (h : s.Covers names t) (hu : s.Holds u t) : s.Covers names u :=
  fun name hname hholds => h name hname (hholds.trans hu)

/-- Where no record type holds itself there is one name less in its fields. -/
theorem field {name : String} {d : FieldDecl} (hsized : s.Sized)
    (h : s.Covers names (.record name)) (hd : d ∈ s.decls name) :
    s.Covers (names.erase name) d.ty := by
  intro other hother hholds
  refine Finset.mem_erase.2 ⟨?_, h other hother (.field hd hholds)⟩
  rintro rfl
  exact hsized other d hd hholds

/-- All names that are declared cover any type. -/
theorem declared (s : Schema) (t : Ty) : s.Covers (s.records.map (·.name)).toFinset t := by
  intro name hname _
  obtain ⟨d, hd⟩ := List.exists_mem_of_ne_nil _ hname
  obtain ⟨decl, hdecl, rfl, -⟩ := exists_record_of_mem_decls hd
  exact List.mem_toFinset.2 (List.mem_map_of_mem hdecl)

end Covers

/-- A property of types and their defaults that goes from parts to wholes.  What an owned pointer
leads to is not looked at. -/
structure GoesUp (s : Schema) (P : Ty → Value → Prop) : Prop where
  scalar (b : ScalarTy) : P (.scalar b) (.scalar (.default b))
  sealed (name : String) (b : ScalarTy) :
    P (.sealed name b) (.sealed name (s.sealing name b).default)
  record (name : String) (f : FieldDecl → Value) (h : ∀ d ∈ s.decls name, P d.ty (f d)) :
    P (.record name) (.record name ((s.decls name).map f))
  optional (t : Ty) : P (.optional t) (.nil t)
  owned (t : Ty) (v : Value) : P (.owned t) (.owned v)
  list (t : Ty) : P (.list t) (.list t [])
  array (n : Nat) (t : Ty) (v : Value) (h : 0 < n → P t v) :
    P (.array n t) (.array t (List.replicate n v))

namespace GoesUp

variable {P : Ty → Value → Prop}

/-- Such a property holds of a default if it holds of those of the records in it. -/
theorem defaultWith (h : s.GoesUp P) {records : String → Value}
    (hrecords : ∀ name, s.Holds (.record name) t → P (.record name) (records name)) :
    P t (s.defaultWith records t) := by
  induction t with
  | scalar b => exact h.scalar b
  | sealed name b => exact h.sealed name b
  | record name => exact hrecords name .self
  | optional t _ => exact h.optional t
  | owned t _ => exact h.owned t _
  | list t _ => exact h.list t
  | array n t ih =>
    refine h.array n t _ fun hn => ih fun name hname => ?_
    exact hrecords name (.item hn hname)

/-- It holds of the default of a record type if this goes as deep as there are names. -/
theorem recordDefault (h : s.GoesUp P) (hderived : s.DefaultsDerived) (hsized : s.Sized)
    {names : Finset String} {name : String} {depth : Nat}
    (hcovers : s.Covers names (.record name)) (hcard : names.card ≤ depth) :
    P (.record name) (s.recordDefault depth name) := by
  induction depth generalizing names name with
  | zero =>
    rw [Schema.recordDefault, hderived name]
    -- without names to go there are no fields either
    have hdecls : s.decls name = [] := by
      by_contra hne
      have hpos := Finset.card_pos.2 ⟨name, hcovers name hne .self⟩
      omega
    have hrecord := h.record name (fun _ => .nil (.record name)) fun d hd => by
      rw [hdecls] at hd
      cases hd
    rwa [hdecls] at hrecord
  | succ depth ih =>
    rw [Schema.recordDefault, hderived name]
    refine h.record name _ fun d hd => ?_
    have hname : name ∈ names := hcovers name (List.ne_nil_of_mem hd) .self
    have herase := Finset.card_erase_of_mem hname
    refine h.defaultWith fun other hother => ?_
    exact ih ((hcovers.field hsized hd).of_holds hother) (by omega)

/-- It holds of all defaults if no record type holds itself: as deep as defaults go, they never
come to an end before their records do. -/
theorem default (h : s.GoesUp P) (hderived : s.DefaultsDerived) (hsized : s.Sized) (t : Ty) :
    P t (s.default t) := by
  have hcard := List.toFinset_card_le (s.records.map (·.name))
  rw [List.length_map] at hcard
  exact h.defaultWith fun name _ =>
    h.recordDefault hderived hsized (.declared s (.record name)) hcard

end GoesUp

/-- A default that holds no owned pointer by value lacks nothing, and but for its instants it is
zero. -/
theorem default_of_not_holds_owned (hstructural : s.Structural) (hderived : s.DefaultsDerived)
    (hsized : s.Sized) (ht : ¬ ∃ e, s.Holds (.owned e) t) :
    (s.default t).Made s t ∧ s.isZero (s.default t).withZeroTimes = true := by
  -- what is shown of the parts of a default goes up to the whole
  have hup : s.GoesUp fun t v => (¬ ∃ e, s.Holds (.owned e) t) →
      v.isWhole s = true ∧ s.isZero v.withZeroTimes = true :=
    { scalar := by
        intro b _
        refine ⟨rfl, ?_⟩
        rw [Value.withZeroTimes_scalar, Datum.ty_default]
        split
        · exact Datum.isZero_zero .instant
        · rename_i hb
          rw [Datum.default_eq_zero hb]
          exact Datum.isZero_zero b
      sealed := by
        intro name b _
        refine ⟨rfl, (hstructural _ _ _ _).2 ?_⟩
        rw [Sealing.ty_default]
      record := by
        intro name f h hfree
        have hvs : ∀ v ∈ (s.decls name).map f,
            v.isWhole s = true ∧ s.isZero v.withZeroTimes = true := by
          intro v hv
          obtain ⟨d, hd, rfl⟩ := List.mem_map.1 hv
          exact h d hd fun ⟨e, he⟩ => hfree ⟨e, .field hd he⟩
        refine ⟨Value.isWhole_record_iff.2 ⟨List.length_map _, fun v hv => (hvs v hv).1⟩, ?_⟩
        exact Value.allZero_allWithZeroTimes fun v hv => (hvs v hv).2
      optional := fun t _ => ⟨rfl, rfl⟩
      -- an owned pointer stands in its own type
      owned := fun t v hfree => absurd ⟨t, .self⟩ hfree
      list := fun t _ => ⟨rfl, rfl⟩
      array := by
        intro n t v h hfree
        -- an array without items holds nothing, and there its item type need not be free
        have hvs : ∀ w ∈ List.replicate n v,
            w.isWhole s = true ∧ s.isZero w.withZeroTimes = true := by
          intro w hw
          obtain ⟨hn, rfl⟩ := List.mem_replicate.1 hw
          have hpos : 0 < n := by omega
          exact h hpos fun ⟨e, he⟩ => hfree ⟨e, .item hpos he⟩
        refine ⟨Value.allWhole_iff.2 fun v hv => (hvs v hv).1, ?_⟩
        exact Value.allZero_allWithZeroTimes fun v hv => (hvs v hv).2 }
  have hdefault := hup.default hderived hsized t ht
  exact ⟨⟨fits_default hderived.behave t, hdefault.1⟩, hdefault.2⟩

/-- A default that is zero holds neither instants nor owned pointers by value. -/
theorem ne_of_isZero_default (hderived : s.DefaultsDerived) (hsized : s.Sized)
    (hzero : s.isZero (s.default t) = true) (hu : s.Holds u t) :
    u ≠ .scalar .instant ∧ ∀ e, u ≠ .owned e := by
  have hup : s.GoesUp fun t v => s.isZero v = true →
      ∀ u, s.Holds u t → u ≠ .scalar .instant ∧ ∀ e, u ≠ .owned e :=
    { scalar := by
        intro b hzero u hu
        cases hu
        refine ⟨?_, nofun⟩
        rintro ⟨⟩
        have hepoch : (Datum.default .instant).isZero = false := by decide
        cases hepoch.symm.trans hzero
      sealed := by
        intro name b _ u hu
        cases hu
        exact ⟨nofun, nofun⟩
      record := by
        intro name f h hzero u hu
        cases hu with
        | self => exact ⟨nofun, nofun⟩
        | field hd hu =>
          exact h _ hd (isZero_record_iff.1 hzero _ (List.mem_map_of_mem hd)) u hu
      optional := by
        intro t _ u hu
        cases hu
        exact ⟨nofun, nofun⟩
      -- an owned pointer is never zero
      owned := by
        intro t v hzero
        cases hzero
      list := by
        intro t _ u hu
        cases hu
        exact ⟨nofun, nofun⟩
      array := by
        intro n t v h hzero u hu
        cases hu with
        | self => exact ⟨nofun, nofun⟩
        | item hn hu =>
          have hv : v ∈ List.replicate n v := List.mem_replicate.2 ⟨by omega, rfl⟩
          exact h hn (isZero_array_iff.1 hzero v hv) u hu }
  exact hup.default hderived hsized t hzero u hu

/-- A type has one zero at most.  It has one if no owned pointer stands in it by value, and then
this is its default, with the zero instant for every instant that stands in it by value.  So the
default itself is zero if neither owned pointers nor instants stand in the type by value.  This is
so where sealed types hold only the same values equal, and where defaults follow the declarations.
-/
theorem zero_of_type (hstructural : s.Structural) (hderived : s.DefaultsDerived)
    (hsized : s.Sized) (t : Ty) :
    (∀ v w : Value, v.Made s t → w.Made s t → s.isZero v = true → s.isZero w = true → w = v) ∧
    ((∃ v : Value, v.Made s t ∧ s.isZero v = true) ↔ ¬ ∃ e, s.Holds (.owned e) t) ∧
    (∀ v : Value, v.Made s t → s.isZero v = true → v = (s.default t).withZeroTimes) ∧
    (s.isZero (s.default t) = true ↔
      (¬ ∃ e, s.Holds (.owned e) t) ∧ ¬ s.Holds (.scalar .instant) t) := by
  have hunique : ∀ v w : Value, v.Made s t → w.Made s t →
      s.isZero v = true → s.isZero w = true → w = v :=
    fun v w hv hw hvzero hwzero =>
      Value.eq_of_isZero hstructural hvzero hwzero (hv.blank_eq hw)
  refine ⟨hunique, ?_, ?_, ?_⟩
  · constructor
    · rintro ⟨v, hv, hzero⟩
      exact hv.not_holds_owned hzero
    · intro ht
      obtain ⟨hmade, hzero⟩ := default_of_not_holds_owned hstructural hderived hsized ht
      exact ⟨_, hmade.withZeroTimes, hzero⟩
  · intro v hv hzero
    obtain ⟨hmade, hzero'⟩ :=
      default_of_not_holds_owned hstructural hderived hsized (hv.not_holds_owned hzero)
    exact hunique _ _ hmade.withZeroTimes hv hzero' hzero
  · constructor
    · intro hzero
      constructor
      · rintro ⟨e, he⟩
        exact (ne_of_isZero_default hderived hsized hzero he).2 e rfl
      · intro h
        exact (ne_of_isZero_default hderived hsized hzero h).1 rfl
    · rintro ⟨howned, hinstant⟩
      obtain ⟨hmade, hzero⟩ := default_of_not_holds_owned hstructural hderived hsized howned
      rwa [hmade.withZeroTimes_eq hinstant] at hzero

end Schema

/-! ## A type with a zero that is not its default -/

namespace Branches

def stamp : RecordDecl :=
  ⟨"Stamp", [⟨⟨"time", true, ""⟩, .scalar .instant⟩, ⟨⟨"label", true, ""⟩, .scalar .text⟩]⟩

/-- A branch leads on to another one, but only behind a pointer that may be nil. -/
def branch : RecordDecl :=
  ⟨"Branch",
   [⟨⟨"stamp", true, ""⟩, .record "Stamp"⟩,
    ⟨⟨"marks", true, ""⟩, .array 2 (.scalar (.int .i64))⟩,
    ⟨⟨"next", true, ""⟩, .optional (.owned (.record "Branch"))⟩,
    ⟨⟨"spare", true, ""⟩, .array 0 (.owned (.record "Branch"))⟩]⟩

def schema : Schema where
  records := [stamp, branch]

theorem holds_stamp {u : Ty} (h : schema.Holds u (.record "Stamp")) :
    u = .record "Stamp" ∨ u = .scalar .instant ∨ u = .scalar .text := by
  have hdecls : schema.decls "Stamp" = stamp.fields := rfl
  cases h with
  | self => exact Or.inl rfl
  | field hd h =>
    rw [hdecls] at hd
    simp only [stamp, List.mem_cons, List.not_mem_nil, or_false] at hd
    rcases hd with rfl | rfl
    · cases h
      exact Or.inr (Or.inl rfl)
    · cases h
      exact Or.inr (Or.inr rfl)

/-- What stands in the fields of a branch. -/
theorem holds_field {d : FieldDecl} {u : Ty} (hd : d ∈ branch.fields) (h : schema.Holds u d.ty) :
    u ≠ .record "Branch" ∧ ∀ e, u ≠ .owned e := by
  simp only [branch, List.mem_cons, List.not_mem_nil, or_false] at hd
  rcases hd with rfl | rfl | rfl | rfl
  · rcases holds_stamp h with rfl | rfl | rfl
    · exact ⟨by decide, nofun⟩
    · exact ⟨nofun, nofun⟩
    · exact ⟨nofun, nofun⟩
  · cases h with
    | self => exact ⟨nofun, nofun⟩
    | item _ h =>
      cases h
      exact ⟨nofun, nofun⟩
  · cases h
    exact ⟨nofun, nofun⟩
  · cases h with
    | self => exact ⟨nofun, nofun⟩
    | item hn _ => exact absurd hn (Nat.lt_irrefl 0)

theorem holds_branch {u : Ty} (h : schema.Holds u (.record "Branch")) : ∀ e, u ≠ .owned e := by
  have hdecls : schema.decls "Branch" = branch.fields := rfl
  cases h with
  | self => exact nofun
  | field hd h =>
    rw [hdecls] at hd
    exact (holds_field hd h).2

theorem sized : schema.Sized := by
  intro name d hd h
  obtain ⟨decl, hdecl, rfl, hfield⟩ := Schema.exists_record_of_mem_decls hd
  simp only [schema, List.mem_cons, List.not_mem_nil, or_false] at hdecl
  rcases hdecl with rfl | rfl
  · simp only [stamp, List.mem_cons, List.not_mem_nil, or_false] at hfield
    rcases hfield with rfl | rfl <;> cases h
  · exact (holds_field hfield h).1 rfl

theorem structural : schema.Structural :=
  fun _ _ _ _ => beq_iff_eq

theorem derived : schema.DefaultsDerived :=
  fun _ => rfl

end Branches

/-- The zero of a branch is its default but for the instant; its owned pointers do not stand in it
by value. -/
theorem Schema.zero_of_branch :
    let t : Ty := .record "Branch"
    let zero : Value := .record "Branch"
      [.record "Stamp" [.scalar (.instant .zero), .scalar (.text "")],
       .array (.scalar (.int .i64)) [.scalar (.int .i64 0), .scalar (.int .i64 0)],
       .nil (.owned (.record "Branch")), .array (.owned (.record "Branch")) []]
    Branches.schema.Structural ∧ Branches.schema.DefaultsDerived ∧ Branches.schema.Sized ∧
      zero.Made Branches.schema t ∧ Branches.schema.isZero zero = true ∧
      (∀ v : Value, v.Made Branches.schema t → Branches.schema.isZero v = true → v = zero) ∧
      Branches.schema.isZero (Branches.schema.default t) = false := by
  intro t zero
  obtain ⟨-, hexists, hdefault, hzero⟩ := Schema.zero_of_type Branches.structural
    Branches.derived Branches.sized t
  have howned : ¬ ∃ e, Branches.schema.Holds (.owned e) t := by
    rintro ⟨e, h⟩
    exact Branches.holds_branch h e rfl
  have heq : (Branches.schema.default t).withZeroTimes = zero := rfl
  rw [heq] at hdefault
  obtain ⟨v, hv, hvzero⟩ := hexists.2 howned
  obtain rfl := hdefault v hv hvzero
  refine ⟨Branches.structural, Branches.derived, Branches.sized, hv, hvzero, hdefault, ?_⟩
  rw [Bool.eq_false_iff]
  intro h
  refine (hzero.1 h).2 (.field (d := ⟨⟨"stamp", true, ""⟩, .record "Stamp"⟩) ?_ ?_)
  · exact List.mem_cons_self
  · exact .field (d := ⟨⟨"time", true, ""⟩, .scalar .instant⟩) List.mem_cons_self .self

end FieldNotes
