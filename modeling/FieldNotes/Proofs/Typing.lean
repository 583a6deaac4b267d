import FieldNotes.Schema

/-! # Values of their types

A value fits a type if it is built as the type says, down to its scalars.  The values of a record
fit the types of the fields that they stand for.

* `Value.Fits`: a value fits a type.
* `Value.items`: how many items the lists in a value have.
* `Schema.fits_default`, `Schema.items_default`: the default of a type fits it, and no list in it
  has items, if the defaults that record types have of their own are such (`Schema.DefaultsBehave`).
-/

namespace FieldNotes

/-- A value is of a type, and its parts are of the types of their places. -/
inductive Value.Fits (s : Schema) : Ty → Value → Prop
  | scalar (d : Datum) : Fits s (.scalar d.ty) (.scalar d)
  | sealed (name : String) (d : Datum) : Fits s (.sealed name d.ty) (.sealed name d)
  | record {name : String} {vs : List Value}
      (h : ∀ (i : Nat) (d : FieldDecl) (v : Value),
        (s.decls name)[i]? = some d → vs[i]? = some v → Fits s d.ty v) :
      Fits s (.record name) (.record name vs)
  | nil (t : Ty) : Fits s (.optional t) (.nil t)
  | present {t : Ty} {v : Value} (h : Fits s t v) : Fits s (.optional t) (.present v)
  | owned {t : Ty} {v : Value} (h : Fits s t v) : Fits s (.owned t) (.owned v)
  | list {t : Ty} {vs : List Value} (h : ∀ v ∈ vs, Fits s t v) : Fits s (.list t) (.list t vs)
  | array {t : Ty} {vs : List Value} (h : ∀ v ∈ vs, Fits s t v) :
      Fits s (.array vs.length t) (.array t vs)

namespace Value

variable {s : Schema} {t : Ty} {v : Value}

theorem Fits.ty_eq (h : v.Fits s t) : v.ty = t := by
  induction h with
  | scalar d => rfl
  | sealed name d => rfl
  | record _ _ => rfl
  | nil t => rfl
  | present _ ih => exact congrArg Ty.optional ih
  | owned _ ih => exact congrArg Ty.owned ih
  | list _ _ => rfl
  | array _ _ => rfl

/-- A value without parts fits its own type. -/
theorem fits_of_scalar (s : Schema) (h : v.kind = .scalar) : v.Fits s v.ty := by
  cases v with
  | scalar d => exact .scalar d
  | sealed name d => exact .sealed name d
  | _ => cases h

/-! ## Items -/

mutual

/-- The number of items of all lists in a value. -/
def items : Value → Nat
  | .record _ vs => itemsOf vs
  | .present v => v.items
  | .owned v => v.items
  | .list _ vs => vs.length + itemsOf vs
  | .array _ vs => itemsOf vs
  | _ => 0

/-- The number of items of all lists in some values. -/
def itemsOf : List Value → Nat
  | [] => 0
  | v :: vs => v.items + itemsOf vs

end

theorem items_le_itemsOf {vs : List Value} (h : v ∈ vs) : v.items ≤ itemsOf vs := by
  induction vs with
  | nil => cases h
  | cons w vs ih =>
    rw [itemsOf]
    rcases List.mem_cons.1 h with rfl | hv
    · exact Nat.le_add_right _ _
    · exact Nat.le_trans (ih hv) (Nat.le_add_left _ _)

theorem itemsOf_eq_zero {vs : List Value} (h : ∀ v ∈ vs, v.items = 0) : itemsOf vs = 0 := by
  induction vs with
  | nil => rfl
  | cons w vs ih =>
    rw [itemsOf, h w List.mem_cons_self, ih fun v hv => h v (List.mem_cons_of_mem w hv)]

theorem items_of_scalar (h : v.kind = .scalar) : v.items = 0 := by
  cases v with
  | scalar d => rfl
  | sealed name d => rfl
  | _ => cases h

end Value

/-- The fields of a record type are those that are declared for it. -/
theorem Schema.exists_record_of_mem_decls {s : Schema} {a : String} {d : FieldDecl}
    (hd : d ∈ s.decls a) : ∃ decl ∈ s.records, decl.name = a ∧ d ∈ decl.fields := by
  simp only [decls, record?] at hd
  split at hd
  · rename_i decl hdecl
    have hname := List.find?_some hdecl
    exact ⟨decl, List.mem_of_find?_eq_some hdecl, eq_of_beq hname, hd⟩
  · cases hd

/-! ## Defaults -/

namespace Schema

variable {s : Schema} {records : String → Value}

/-- The defaults that record types have of their own fit these types, and no list in them has
items. -/
structure DefaultsBehave (s : Schema) : Prop where
  fits : ∀ name vs, s.ownDefault? name = some vs → (Value.record name vs).Fits s (.record name)
  items : ∀ name vs, s.ownDefault? name = some vs → Value.itemsOf vs = 0

/-- No record type has a default of its own, so that all defaults follow the declarations. -/
def DefaultsDerived (s : Schema) : Prop :=
  ∀ name, s.ownDefault? name = none

theorem DefaultsDerived.behave (h : s.DefaultsDerived) : s.DefaultsBehave := by
  constructor
  · intro name vs hvs
    rw [h name] at hvs
    cases hvs
  · intro name vs hvs
    rw [h name] at hvs
    cases hvs

theorem fits_defaultWith (h : ∀ name, (records name).Fits s (.record name)) (t : Ty) :
    (s.defaultWith records t).Fits s t := by
  induction t with
  | scalar b =>
    have hfits := Value.Fits.scalar (s := s) (Datum.default b)
    rwa [Datum.ty_default] at hfits
  | sealed name b =>
    have hfits := Value.Fits.sealed (s := s) name (s.sealing name b).default
    rwa [Sealing.ty_default] at hfits
  | record name => exact h name
  | optional t ih => exact .nil t
  | owned t ih => exact .owned ih
  | list t ih => exact .list fun v hv => absurd hv List.not_mem_nil
  | array n t ih =>
    have hall : ∀ v ∈ List.replicate n (s.defaultWith records t), v.Fits s t := by
      intro v hv
      rw [List.eq_of_mem_replicate hv]
      exact ih
    have hfits := Value.Fits.array hall
    rwa [List.length_replicate] at hfits

theorem items_defaultWith (h : ∀ name, (records name).items = 0) (t : Ty) :
    (s.defaultWith records t).items = 0 := by
  induction t with
  | scalar b => rfl
  | sealed name b => rfl
  | record name => exact h name
  | optional t ih => rfl
  | owned t ih => exact ih
  | list t ih => rfl
  | array n t ih =>
    refine Value.itemsOf_eq_zero ?_
    intro v hv
    rw [List.eq_of_mem_replicate hv]
    exact ih

theorem fits_recordDefault (h : s.DefaultsBehave) (depth : Nat) (name : String) :
    (s.recordDefault depth name).Fits s (.record name) := by
  induction depth generalizing name with
  | zero =>
    rw [recordDefault]
    cases hown : s.ownDefault? name with
    | some vs => exact h.fits name vs hown
    | none =>
      -- where the depth gives out a record has no values that could be of a wrong type
      refine .record ?_
      intro i d v _ hv
      cases hv
  | succ depth ih =>
    rw [recordDefault]
    cases hown : s.ownDefault? name with
    | some vs => exact h.fits name vs hown
    | none =>
      refine .record ?_
      intro i d v hd hv
      rw [Option.getD_none, List.getElem?_map, hd] at hv
      rcases Option.some.inj hv with rfl
      exact fits_defaultWith ih d.ty

theorem items_recordDefault (h : s.DefaultsBehave) (depth : Nat) (name : String) :
    (s.recordDefault depth name).items = 0 := by
  induction depth generalizing name with
  | zero =>
    rw [recordDefault]
    cases hown : s.ownDefault? name with
    | some vs => exact h.items name vs hown
    | none => rfl
  | succ depth ih =>
    rw [recordDefault]
    cases hown : s.ownDefault? name with
    | some vs => exact h.items name vs hown
    | none =>
      refine Value.itemsOf_eq_zero ?_
      intro v hv
      rcases List.mem_map.1 hv with ⟨d, _, rfl⟩
      exact items_defaultWith ih d.ty

/-- The default of a type fits the type. -/
theorem fits_default (h : s.DefaultsBehave) (t : Ty) : (s.default t).Fits s t :=
  fits_defaultWith (fits_recordDefault h _) t

/-- No list in a default has items. -/
theorem items_default (h : s.DefaultsBehave) (t : Ty) : (s.default t).items = 0 :=
  items_defaultWith (items_recordDefault h _) t

/-- What is allocated fits the type. -/
theorem fits_allocate (h : s.DefaultsBehave) {t : Ty} {v : Value} (hv : v.Fits s t) :
    (s.allocate v).Fits s t := by
  cases v with
  | nil elem =>
    cases hv with
    | nil elem => exact .present (fits_default h elem)
  | _ => exact hv

theorem items_allocate (h : s.DefaultsBehave) (v : Value) :
    (s.allocate v).items = v.items := by
  cases v with
  | nil t => exact items_default h t
  | _ => rfl

end Schema

end FieldNotes
