import FieldNotes.Proofs.Typing
import FieldNotes.Tag
import Mathlib.Logic.Hydra

/-! # What lies ahead of a walk

From a record a walk goes on into the records that its exported fields hold, unless a tag stops it.
Here those are counted, by the names of their types, which it comes to without entering a list.

* `Value.entered`: the records that are entered from a value next.
* `Value.ahead`: the types of all records that lie ahead, and are not items of lists.
* `Value.entered_le`: to go on takes away from what lies ahead, or takes an item off a list.
* `Value.Fits.leads`: all of this follows from the types of fields (`Schema.Leads`).
* `Value.Smaller`: this order of values, which is well-founded (`Value.smaller_wf`) even if a record
  may be exchanged for any number of records of lower types (`transGen_cutExpand_of_count`).
-/

namespace FieldNotes

open Relation (CutExpand TransGen ReflTransGen)

/-- Whether a walk goes on into the value of a field. -/
def Field.entered (f : Field) : Bool :=
  f.exported && !(Tag.ofRow f.row).any Tag.isStop

namespace Value

/-- Whether a value is a record. -/
def isRecord (v : Value) : Bool :=
  v.kind == .record

/-- The records that a walk enters from a value next. -/
def entered : Value → List Value
  | .record name vs => [.record name vs]
  | .present v => [v].filter isRecord
  | .owned v => [v].filter isRecord
  | .list _ vs => vs.filter isRecord
  | .array _ vs => vs.filter isRecord
  | _ => []

mutual

/-- The types of the records that lie ahead of a walk, other than in lists. -/
def ahead (s : Schema) : Value → Multiset String
  | .record name vs => name ::ₘ aheadOfFields s (s.fields name) vs
  | .present v => if v.isRecord then v.ahead s else 0
  | .owned v => if v.isRecord then v.ahead s else 0
  | .array _ vs => aheadOfItems s vs
  | _ => 0

/-- The same for the values of some fields. -/
def aheadOfFields (s : Schema) : List Field → List Value → Multiset String
  | f :: fs, v :: vs => (if f.entered then v.ahead s else 0) + aheadOfFields s fs vs
  | _, _ => 0

/-- The same for some items. -/
def aheadOfItems (s : Schema) : List Value → Multiset String
  | [] => 0
  | v :: vs => (if v.isRecord then v.ahead s else 0) + aheadOfItems s vs

end

variable {s : Schema}

theorem ahead_le_aheadOfFields {fields : List Field} {vs : List Value} {i : Nat} {f : Field}
    {v : Value} (hf : fields[i]? = some f) (hv : vs[i]? = some v) (hentered : f.entered = true) :
    v.ahead s ≤ aheadOfFields s fields vs := by
  induction vs generalizing fields i with
  | nil => cases hv
  | cons w vs ih =>
    cases fields with
    | nil => cases hf
    | cons g fields =>
      rw [aheadOfFields]
      cases i with
      | zero =>
        rcases Option.some.inj hf with rfl
        rcases Option.some.inj hv with rfl
        rw [if_pos hentered]
        exact Multiset.le_add_right _ _
      | succ i =>
        rw [List.getElem?_cons_succ] at hf hv
        exact le_trans (ih hf hv) (Multiset.le_add_left _ _)

theorem ahead_le_aheadOfItems {vs : List Value} {v : Value} (hv : v ∈ vs)
    (hrecord : v.isRecord = true) : v.ahead s ≤ aheadOfItems s vs := by
  induction vs with
  | nil => cases hv
  | cons w vs ih =>
    rw [aheadOfItems]
    rcases List.mem_cons.1 hv with rfl | hmem
    · rw [if_pos hrecord]
      exact Multiset.le_add_right _ _
    · exact le_trans (ih hmem) (Multiset.le_add_left _ _)

/-! ## Going on -/

theorem isRecord_iff {v : Value} : v.isRecord = true ↔ ∃ name vs, v = .record name vs := by
  constructor
  · intro h
    cases v with
    | record name vs => exact ⟨name, vs, rfl⟩
    | _ => cases h
  · rintro ⟨name, vs, rfl⟩
    rfl

theorem mem_entered_of_pointee {v c : Value} (h : c ∈ [v].filter isRecord) :
    c = v ∧ v.isRecord = true := by
  rcases List.mem_filter.1 h with ⟨hmem, hrecord⟩
  rcases List.mem_singleton.1 hmem with rfl
  exact ⟨rfl, hrecord⟩

/-- To go on takes away from what lies ahead, or takes an item off a list. -/
theorem entered_le {v c : Value} (hc : c ∈ v.entered) :
    c.items ≤ v.items ∧ (c.items < v.items ∨ c.ahead s ≤ v.ahead s) := by
  cases v with
  | record name vs =>
    rcases List.mem_singleton.1 hc with rfl
    exact ⟨Nat.le_refl _, Or.inr (le_refl _)⟩
  | present v =>
    rcases mem_entered_of_pointee hc with ⟨rfl, hrecord⟩
    refine ⟨Nat.le_refl _, Or.inr ?_⟩
    rw [ahead, if_pos hrecord]
  | owned v =>
    rcases mem_entered_of_pointee hc with ⟨rfl, hrecord⟩
    refine ⟨Nat.le_refl _, Or.inr ?_⟩
    rw [ahead, if_pos hrecord]
  | list t vs =>
    rcases List.mem_filter.1 hc with ⟨hmem, _⟩
    have hitems := items_le_itemsOf hmem
    have hlength := List.length_pos_of_mem hmem
    rw [items]
    exact ⟨by omega, Or.inl (by omega)⟩
  | array t vs =>
    rcases List.mem_filter.1 hc with ⟨hmem, hrecord⟩
    exact ⟨items_le_itemsOf hmem, Or.inr (ahead_le_aheadOfItems hmem hrecord)⟩
  | _ => cases hc

theorem Fits.of_entered {t : Ty} {v c : Value} (hv : v.Fits s t) (hc : c ∈ v.entered) :
    ∃ name vs, c = .record name vs ∧ c.Fits s (.record name) := by
  have hrecord : ∀ {t : Ty}, c.Fits s t → c.isRecord = true →
      ∃ name vs, c = .record name vs ∧ c.Fits s (.record name) := by
    intro t hfits hc
    rcases isRecord_iff.1 hc with ⟨name, vs, rfl⟩
    have hty := hfits.ty_eq
    subst hty
    exact ⟨name, vs, rfl, hfits⟩
  cases hv with
  | record h =>
    rcases List.mem_singleton.1 hc with rfl
    exact hrecord (.record h) rfl
  | present h =>
    rcases mem_entered_of_pointee hc with ⟨rfl, hc⟩
    exact hrecord h hc
  | owned h =>
    rcases mem_entered_of_pointee hc with ⟨rfl, hc⟩
    exact hrecord h hc
  | list h =>
    rcases List.mem_filter.1 hc with ⟨hmem, hc⟩
    exact hrecord (h c hmem) hc
  | array h =>
    rcases List.mem_filter.1 hc with ⟨hmem, hc⟩
    exact hrecord (h c hmem) hc
  | _ => cases hc

end Value

/-! ## Types that lead to types -/

/-- The record type that a walk comes to from a value of a type, other than in a list. -/
def Ty.inner? : Ty → Option String
  | .record name => some name
  | .optional (.record name) => some name
  | .owned (.record name) => some name
  | .array _ (.record name) => some name
  | _ => none

/-- A record type has a field from which a walk may come to another one. -/
def Schema.Leads (s : Schema) (a b : String) : Prop :=
  ∃ d ∈ s.decls a, d.ty.inner? = some b

namespace Value

variable {s : Schema}

theorem mem_aheadOfFields {fields : List Field} {vs : List Value} {b : String}
    (h : b ∈ aheadOfFields s fields vs) :
    ∃ (i : Nat) (f : Field) (v : Value), fields[i]? = some f ∧ vs[i]? = some v ∧
      b ∈ v.ahead s := by
  induction vs generalizing fields with
  | nil => cases fields <;> cases h
  | cons v vs ih =>
    cases fields with
    | nil => cases h
    | cons f fields =>
      rw [aheadOfFields] at h
      rcases Multiset.mem_add.1 h with hhead | hrest
      · refine ⟨0, f, v, rfl, rfl, ?_⟩
        split at hhead
        · exact hhead
        · cases hhead
      · rcases ih hrest with ⟨i, g, w, hg, hw, hb⟩
        exact ⟨i + 1, g, w, hg, hw, hb⟩

theorem mem_aheadOfItems {vs : List Value} {b : String} (h : b ∈ aheadOfItems s vs) :
    ∃ v ∈ vs, v.isRecord = true ∧ b ∈ v.ahead s := by
  induction vs with
  | nil => cases h
  | cons v vs ih =>
    rw [aheadOfItems] at h
    rcases Multiset.mem_add.1 h with hhead | hrest
    · split at hhead
      · rename_i hrecord
        exact ⟨v, List.mem_cons_self, hrecord, hhead⟩
      · cases hhead
    · rcases ih hrest with ⟨w, hw, hrecord, hb⟩
      exact ⟨w, List.mem_cons_of_mem v hw, hrecord, hb⟩

/-- Only types to which its own type leads lie ahead in a value. -/
theorem Fits.leads {t : Ty} {v : Value} (hv : v.Fits s t) {b : String} (hb : b ∈ v.ahead s) :
    ∃ a, t.inner? = some a ∧ ReflTransGen s.Leads a b := by
  -- a part that is a record is of a record type, which the type of the whole leads to itself
  have hpart : ∀ {t : Ty} {v : Value}, v.Fits s t → v.isRecord = true →
      (∃ a, t.inner? = some a ∧ ReflTransGen s.Leads a b) →
      ∃ a, t = .record a ∧ ReflTransGen s.Leads a b := by
    rintro t v hfits hrecord ⟨a, ha, hab⟩
    rcases isRecord_iff.1 hrecord with ⟨name, vs, rfl⟩
    have hty := hfits.ty_eq
    subst hty
    exact ⟨a, congrArg Ty.record (Option.some.inj ha), hab⟩
  induction hv with
  | @record name vs hfits ih =>
    refine ⟨name, rfl, ?_⟩
    rw [ahead] at hb
    rcases Multiset.mem_cons.1 hb with rfl | hb
    · exact .refl
    · rcases mem_aheadOfFields hb with ⟨i, f, v, hf, hv, hbv⟩
      rw [Schema.fields, List.getElem?_map, Option.map_eq_some_iff] at hf
      rcases hf with ⟨d, hd, _⟩
      rcases ih i d v hd hv hbv with ⟨a, ha, hab⟩
      exact .head ⟨d, List.mem_of_getElem? hd, ha⟩ hab
  | @present t v hfits ih =>
    rw [ahead] at hb
    split at hb
    · rename_i hrecord
      rcases hpart hfits hrecord (ih hb) with ⟨a, rfl, hab⟩
      exact ⟨a, rfl, hab⟩
    · cases hb
  | @owned t v hfits ih =>
    rw [ahead] at hb
    split at hb
    · rename_i hrecord
      rcases hpart hfits hrecord (ih hb) with ⟨a, rfl, hab⟩
      exact ⟨a, rfl, hab⟩
    · cases hb
  | @array t vs hfits ih =>
    rw [ahead] at hb
    rcases mem_aheadOfItems hb with ⟨v, hv, hrecord, hbv⟩
    rcases hpart (hfits v hv) hrecord (ih v hv hbv) with ⟨a, rfl, hab⟩
    exact ⟨a, rfl, hab⟩
  | _ => cases hb

end Value

/-! ## The order -/

/-- To take away is to cut heads off. -/
theorem reflTransGen_cutExpand_add {α : Type} {r : α → α → Prop} (M N : Multiset α) :
    ReflTransGen (CutExpand r) M (M + N) := by
  induction N using Multiset.induction with
  | empty =>
    rw [add_zero]
  | cons a N ih =>
    refine ih.tail ⟨0, a, nofun, ?_⟩
    rw [add_zero, Multiset.add_cons, Multiset.add_comm _ {a}, Multiset.singleton_add]

/-- A multiset is below another one if an element was taken off it, and nothing came in that is not
below this element. -/
theorem transGen_cutExpand_of_count {α : Type} [DecidableEq α] {r : α → α → Prop} {a : α}
    {M M' N : Multiset α} (hM : a ::ₘ N ≤ M) (hM' : ∀ b, ¬ r b a → M'.count b ≤ N.count b) :
    TransGen (CutExpand r) M' M := by
  classical
  -- what is not below the element was there before
  have hold : M'.filter (fun b => ¬ r b a) ≤ N := by
    rw [Multiset.le_iff_count]
    intro b
    rw [Multiset.count_filter]
    split
    · rename_i hb
      exact hM' b hb
    · exact Nat.zero_le _
  rcases Multiset.le_iff_exists_add.1 (le_trans (Multiset.cons_le_cons a hold) hM) with ⟨rest, rfl⟩
  refine TransGen.trans_left (.single ?_) (reflTransGen_cutExpand_add _ rest)
  refine ⟨M'.filter fun b => r b a, a, ?_, ?_⟩
  · intro b hb
    exact (Multiset.mem_filter.1 hb).2
  · calc
      M' + {a} = (M'.filter (fun b => r b a) + M'.filter fun b => ¬ r b a) + {a} := by
        rw [Multiset.filter_add_not]
      _ = a ::ₘ M'.filter (fun b => ¬ r b a) + M'.filter fun b => r b a := by
        rw [← Multiset.singleton_add]
        ac_rfl

namespace Value

/-- One value is smaller than another if its lists have fewer items, or else less lies ahead in it;
there, records may have been exchanged for records of lower types. -/
def Smaller (lower : String → String → Prop) (s : Schema) : Value → Value → Prop :=
  InvImage (Prod.Lex (· < ·) (TransGen (CutExpand lower))) fun v => (v.items, v.ahead s)

theorem smaller_wf {lower : String → String → Prop} (h : WellFounded lower) (s : Schema) :
    WellFounded (Smaller lower s) :=
  InvImage.wf _ (Nat.lt_wfRel.wf.prod_lex h.cutExpand.transGen)

variable {lower : String → String → Prop} {s : Schema}

theorem Smaller.of_items {v w : Value} (h : w.items < v.items) : Smaller lower s w v :=
  Prod.Lex.left _ _ h

theorem Smaller.of_ahead {v w : Value} (hitems : w.items ≤ v.items)
    (h : TransGen (CutExpand lower) (w.ahead s) (v.ahead s)) : Smaller lower s w v := by
  rcases Nat.lt_or_eq_of_le hitems with hlt | heq
  · exact of_items hlt
  · show Prod.Lex _ _ (w.items, w.ahead s) (v.items, v.ahead s)
    rw [heq]
    exact Prod.Lex.right _ h

end Value

end FieldNotes
