import FieldNotes.Proofs.Bundled
import FieldNotes.Proofs.Settling
import FieldNotes.Proofs.Transparency
import Mathlib.Order.WellFoundedSet

/-! # Records that beget records

A handler may put records where there were none: it may make a nil pointer point at a default, and
the walk goes on into the default.  So records of one type beget records of others, and a walk comes
to an end if no type begets itself.

* `Registry.Begets`: on a field of a record of one type, a handler may leave more records of another
  type ahead of the walk than it found.
* `Registry.obey_done`: what a single tag comes to.
* `Registry.obeyAll_leaves`: what the tags of a field come to, in terms of types that are begotten.
* `Registry.enter_settles`: the walk through any record comes to an end if no type begets itself.
* `Registry.begets_acyclic_of_leads`: none does where no type leads back to itself.
-/

namespace FieldNotes

open Nested (Place obeyAll)
open Relation (TransGen ReflTransGen)
open Walk (Journal)

namespace Registry

/-- Records of type `a` beget records of type `b`: on a field of an `a` that a walk goes on into, a
handler that is bound to the name of one of its tags may succeed, and leave more records of type `b`
ahead than it found. -/
def Begets (r : Registry) (s : Schema) (a b : String) : Prop :=
  ∃ d ∈ s.decls a, d.field.entered = true ∧ ∃ t ∈ Tag.ofRow d.field.row, ∃ h arg site,
    r.handler? t.name = some h ∧ (h.readTag t).1 = .ok arg ∧
    site.field = d.field ∧ site.value.Fits s d.ty ∧ (h.run site arg).outcome = .done ∧
    (site.value.ahead s).count b < ((h.run site arg).value.ahead s).count b

end Registry

/-! ## Relations without circles -/

/-- A relation that goes in no circle, and on from finitely many elements only, comes to an end. -/
theorem wellFounded_of_acyclic {α : Type} {r : α → α → Prop} (hfinite : {a | ∃ b, r a b}.Finite)
    (hacyclic : ∀ a, ¬ TransGen r a a) : WellFounded fun b a => r a b := by
  have horder : IsStrictOrder α fun b a => TransGen r a b :=
    { irrefl := hacyclic
      trans := fun _ _ _ hab hbc => hbc.trans hab }
  have hwf : {a | ∃ b, r a b}.WellFoundedOn fun b a => TransGen r a b := hfinite.wellFoundedOn
  -- an element from which the relation does not go on is at the bottom
  have hlast : ∀ a, a ∉ {a | ∃ b, r a b} → Acc (fun b a => r a b) a := by
    intro a ha
    exact ⟨a, fun b hb => absurd ⟨b, hb⟩ ha⟩
  refine ⟨fun a => ?_⟩
  by_cases ha : a ∈ {a | ∃ b, r a b}
  · refine hwf.induction ha ?_
    intro a _ ih
    refine ⟨a, fun b hb => ?_⟩
    by_cases hb' : b ∈ {a | ∃ b, r a b}
    · exact ih b hb' (.single hb)
    · exact hlast b hb'
  · exact hlast a ha

/-- A relation along which a number grows goes in no circle. -/
theorem acyclic_of_lt {α : Type} {r : α → α → Prop} (rank : α → Nat)
    (h : ∀ a b, r a b → rank a < rank b) (a : α) : ¬ TransGen r a a := by
  have hlt : ∀ b, TransGen r a b → rank a < rank b := by
    intro b hab
    induction hab with
    | single hab => exact h _ _ hab
    | tail _ hbc ih => exact lt_trans ih (h _ _ hbc)
  exact fun hcircle => lt_irrefl _ (hlt a hcircle)

namespace Registry

variable {r : Registry} {s : Schema}

theorem begets_wf (h : ∀ a, ¬ TransGen (r.Begets s) a a) :
    WellFounded fun b a => r.Begets s a b := by
  refine wellFounded_of_acyclic ?_ h
  refine (List.finite_toSet (s.records.map (·.name))).subset ?_
  rintro a ⟨b, d, hd, _⟩
  rcases Schema.exists_record_of_mem_decls hd with ⟨decl, hdecl, rfl, _⟩
  exact List.mem_map_of_mem hdecl

/-! ## Tags -/

variable {context : Context}

/-- A tag that is obeyed to the end leaves what was there, or what a handler made of it. -/
theorem obey_done {p : Place} {t : Tag} {v w : Value} {j j' : Journal}
    (h : (r.rules context).obey p t v j = .done w j') :
    w = v ∨ ∃ h arg site, r.handler? t.name = some h ∧ (h.readTag t).1 = .ok arg ∧
      site.field = p.field ∧ site.value = v ∧ (h.run site arg).outcome = .done ∧
      (h.run site arg).value = w := by
  rcases (r.rules context).obey_cases p t v j with
    heq | ⟨handler, -, hhandler, ⟨arg, hread, heq⟩ | ⟨f, -, heq⟩⟩ <;> rw [heq] at h
  · exact Or.inl (congrArg Work.value h).symm
  · exact Or.inr ⟨handler, arg, ⟨context, p.around v, p.path, p.index, p.field, v⟩, hhandler,
      hread, rfl, rfl, Nested.Rules.ending_eq_ok (congrArg Work.result h), congrArg Work.value h⟩
  · cases h

/-- What the tags of a field leave there: a value that takes the place of the old one, with no more
records ahead but those that are begotten. -/
structure Leaves (r : Registry) (s : Schema) (a : String) (t : Ty) (v w : Value) : Prop
    extends v.Replaces s t w where
  begotten : ∀ b, ¬ r.Begets s a b → (w.ahead s).count b ≤ (v.ahead s).count b

namespace Leaves

variable {a : String} {t : Ty} {v w x : Value}

theorem refl (hv : v.Fits s t) : r.Leaves s a t v v :=
  ⟨hv.replaces_self, fun _ _ => Nat.le_refl _⟩

theorem trans (h : r.Leaves s a t v x) (h' : r.Leaves s a t x w) : r.Leaves s a t v w := by
  refine ⟨⟨h'.fits, le_trans h'.items h.items⟩, ?_⟩
  intro b hb
  exact le_trans (h'.begotten b hb) (h.begotten b hb)

end Leaves

section Fields

variable (htame : ∀ name h, r.handler? name = some h → h.Tame s) {a : String} {d : FieldDecl}
    (hd : d ∈ s.decls a) (hentered : d.field.entered = true) {p : Place} (hp : p.field = d.field)

include htame hd hentered hp

theorem obey_leaves {t : Tag} (ht : t ∈ Tag.ofRow d.field.row) {v w : Value} (hv : v.Fits s d.ty)
    {j j' : Journal} (h : (r.rules context).obey p t v j = .done w j') :
    r.Leaves s a d.ty v w := by
  rcases obey_done h with rfl | ⟨handler, arg, site, hh, harg, hfield, rfl, hdone, rfl⟩
  · exact .refl hv
  · refine ⟨htame t.name handler hh site arg d.ty hv hdone, ?_⟩
    -- were there more records of a type, this very run would show that they are begotten
    intro b hb
    refine Nat.le_of_not_lt fun hlt => hb ?_
    exact ⟨d, hd, hentered, t, ht, handler, arg, site, hh, harg, hfield.trans hp, hv, hdone, hlt⟩

theorem obeyAll_leaves {ts : List Tag} (hts : ∀ t ∈ ts, t ∈ Tag.ofRow d.field.row) {v w : Value}
    (hv : v.Fits s d.ty) {j j' : Journal}
    (h : obeyAll (r.rules context).obey p ts v j = .done w j') : r.Leaves s a d.ty v w := by
  induction ts generalizing v j with
  | nil =>
    have hw : v = w := congrArg Work.value h
    subst hw
    exact .refl hv
  | cons t ts ih =>
    rw [obeyAll] at h
    rcases ((r.rules context).obey p t v j).done_or_halt with ⟨x, k, hx⟩ | ⟨e, x, k, hx⟩
    · -- the first tag leaves `x`, and the others leave `w` in its place
      rw [hx, Work.andThen_done] at h
      have hfirst := obey_leaves htame hd hentered hp (hts t List.mem_cons_self) hv hx
      have hrest := ih (fun t' ht' => hts t' (List.mem_cons_of_mem t ht')) hfirst.fits h
      exact hfirst.trans hrest
    · -- work that was broken off is not done
      rw [hx, Work.andThen_halt] at h
      cases h

end Fields

/-! ## Walks -/

/-- What is entered from what the tags of a field leave is smaller than the record. -/
theorem Leaves.smaller {a : String} {vs : List Value} {i : Nat} {d : FieldDecl} {v w c : Value}
    (hd : (s.decls a)[i]? = some d) (hentered : d.field.entered = true) (hv : vs[i]? = some v)
    (hw : r.Leaves s a d.ty v w) (hc : c ∈ w.entered) :
    Value.Smaller (fun b a => r.Begets s a b) s c (.record a vs) := by
  have hitems : v.items ≤ (Value.record a vs).items :=
    Value.items_le_itemsOf (List.mem_of_getElem? hv)
  rcases Value.entered_le (s := s) hc with ⟨hle, hlt | hahead⟩
  · -- an item of a list is entered
    exact .of_items (Nat.lt_of_lt_of_le hlt (le_trans hw.items hitems))
  · -- the record itself no longer lies ahead, and only what it begets has been added
    refine .of_ahead (le_trans hle (le_trans hw.items hitems)) ?_
    have hfield : (s.fields a)[i]? = some d.field := by
      rw [Schema.fields, List.getElem?_map, hd]
      rfl
    refine transGen_cutExpand_of_count
      (Multiset.cons_le_cons a (Value.ahead_le_aheadOfFields hfield hv hentered)) ?_
    intro b hb
    exact le_trans (Multiset.count_le_of_le b hahead) (hw.begotten b hb)

/-- The walk through a record comes to an end if no type begets itself. -/
theorem enter_settles (htame : ∀ name h, r.handler? name = some h → h.Tame s)
    (hbegets : ∀ a, ¬ TransGen (r.Begets s) a a) (v : Value) {name : String}
    (hv : v.Fits s (.record name)) (path : Path) (around : Value → Value) (j : Journal) :
    Settles fun m => Nested.enter (r.rules context).obey s m path around v j := by
  -- the induction is on what lies ahead, not on the value: handlers may have made that greater
  induction v using (Value.smaller_wf (begets_wf hbegets) s).induction generalizing
    name path around j with
  | _ v ih =>
    cases hv with
    | record hfits =>
      refine Nested.enter_settles (Nested.Rules.obey_result _) ?_ path around j
      intro p v hf hv hentered j w j' hw c hc path around j
      rw [Schema.fields, List.getElem?_map, Option.map_eq_some_iff] at hf
      rcases hf with ⟨d, hd, hfield⟩
      rw [← hfield] at hw hentered
      have hleaves := obeyAll_leaves htame (List.mem_of_getElem? hd) hentered hfield.symm
        (fun t ht => ht) (hfits p.index d v hd hv) hw
      rcases hleaves.fits.of_entered hc with ⟨_, _, _, hcfits⟩
      exact ih c (hleaves.smaller hd hentered hv hc) hcfits path around j

theorem walk_settles (htame : ∀ name h, r.handler? name = some h → h.Tame s)
    (hbegets : ∀ a, ¬ TransGen (r.Begets s) a a) {v : Value} (hv : v.Fits s v.ty) (memo : Memo) :
    Settles fun m => (Nested.walk (r.rules context) memo s m v).work := by
  have hrecord : ∀ {name vs}, (Value.record name vs).Fits s (.record name) →
      Settles fun m => (Nested.walkRecord (r.rules context) memo s m (.record name vs)).work :=
    fun hfits => enter_settles htame hbegets _ hfits [] id _
  have hpointee : ∀ {v : Value} (whole : Value → Value), v.Fits s v.ty →
      Settles fun m => (Nested.walkPointee (r.rules context) memo s m whole v).work := by
    intro v whole hv
    cases v with
    | record name vs => exact (hrecord hv).map whole
    | _ => exact .const (w := Walked.work _) nofun
  cases v with
  | record name vs => exact hrecord hv
  | present v =>
    cases hv with
    | present h => exact hpointee .present h
  | owned v =>
    cases hv with
    | owned h => exact hpointee .owned h
  | nil t => exact .const (w := Walked.work _) nofun
  | _ => exact .const (w := Walked.work _) nofun

/-! ## Types without circles -/

/-- Handlers that keep types let a record type beget only types that it leads to. -/
theorem Begets.leads (htame : ∀ name h, r.handler? name = some h → h.Tame s) {a b : String}
    (h : r.Begets s a b) : TransGen s.Leads a b := by
  rcases h with ⟨d, hd, _, t, _, handler, arg, site, hh, _, _, hv, hdone, hlt⟩
  have hb : b ∈ (handler.run site arg).value.ahead s :=
    Multiset.count_pos.1 (Nat.lt_of_le_of_lt (Nat.zero_le _) hlt)
  rcases (htame t.name handler hh site arg d.ty hv hdone).fits.leads hb with ⟨c, hc, hcb⟩
  exact .head' ⟨d, hd, hc⟩ hcb

/-- So where no type leads back to itself, none begets itself.  Lists do not count. -/
theorem begets_acyclic_of_leads (htame : ∀ name h, r.handler? name = some h → h.Tame s)
    (h : ∀ a, ¬ TransGen s.Leads a a) (a : String) : ¬ TransGen (r.Begets s) a a := by
  intro hcircle
  exact h a (hcircle.lift' id fun _ _ hab => hab.leads htame)

end Registry

end FieldNotes
