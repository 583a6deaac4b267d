import FieldNotes.Proofs.Bundled
import FieldNotes.Proofs.Refinement
import FieldNotes.Proofs.StoppedField
import FieldNotes.Proofs.Whole
import FieldNotes.Samples.Types

/-! # What walks that fill in leave alone

The filling handler writes where it finds a zero, and only there.  What it writes may have parts of
its own: a default that was allocated, or what a setter makes of a whole record that was zero.  But
a zero has none but zeros for parts, so nothing that was there before is lost, however far the walk
comes and whatever it ends with.

* `Value.Fills` says of a value and what is left of it that the second is the first one filled in.
* `Fill.run_fills`: the handler fills in.
* `Nested.enter_fills`: what is kept by each tag is kept by the walk, record by record.
* `Dispatcher.walk_only_fills`: what a walk leaves, position by position.
-/

namespace FieldNotes

open Value (Made isWhole_of_scalar kind_assign?)
open Nested (Enter Obey Place Rows Rules row ifRecord descend obeyAll visit member enter)
open Walk (Journal)

/-- Setters make values of the types that they are for. -/
def Schema.SettersMake (s : Schema) : Prop :=
  ∀ (t : Ty) (set : Setter) (arg : Arg) (v : Value),
    s.setter? t = some set → v.Made s t → (set arg v).1.Made s t

/-- All handlers that are bound fill in, with the record types and the setters of the schema.  The
configuration, the readers and writers of times and the clock may be any. -/
def Dispatcher.OnlyFills (d : Dispatcher) (s : Schema) : Prop :=
  ∀ name h, d.handler? name = some h → ∃ (w : Fill) (clock : Site → Instant),
    w.schema = s ∧ h = .fillBy w clock

/-- All handlers that are bound fill in, with the record types and the setters of the schema, and by
clocks that stand still. -/
def Dispatcher.FillsByFixedClocks (d : Dispatcher) (s : Schema) : Prop :=
  ∀ name h, d.handler? name = some h → ∃ w : Fill, w.schema = s ∧ h = .fill w

/-- Of whatever type a value is made, what is left of it is made for the type too, and it has only
been filled in. -/
def Value.Fills (s : Schema) (v w : Value) : Prop :=
  ∀ t, v.Made s t → w.Made s t ∧ v.Filled s w

variable {s : Schema}

theorem Dispatcher.FillsByFixedClocks.onlyFills {d : Dispatcher} (h : d.FillsByFixedClocks s) :
    d.OnlyFills s := by
  intro name handler hhandler
  obtain ⟨w, hw, rfl⟩ := h name handler hhandler
  exact ⟨w, _, hw, rfl⟩

namespace Value.Fills

variable {v w u : Value} {vs ws : List Value}

theorem refl (v : Value) : v.Fills s v :=
  fun _ hv => ⟨hv, .refl v⟩

theorem trans (h : v.Fills s w) (h' : w.Fills s u) : v.Fills s u := by
  intro t hv
  obtain ⟨hw, hvw⟩ := h t hv
  obtain ⟨hu, hwu⟩ := h' t hw
  exact ⟨hu, hvw.trans hwu⟩

/-- A zero may become anything that its type allows. -/
theorem of_isZero (hzero : s.isZero v = true) (h : ∀ t, v.Made s t → w.Made s t) :
    v.Fills s w := by
  intro t hv
  exact ⟨h t hv, .zero hzero (hv.blank_eq (h t hv))⟩

/-- A value is made for its own type only, so that much is known where it is filled in. -/
theorem of_ty (h : v.Made s v.ty → w.Made s v.ty ∧ v.Filled s w) : v.Fills s w := by
  intro t hv
  have hty := hv.fits.ty_eq
  subst hty
  exact h hv

theorem present (h : v.Fills s w) : (Value.present v).Fills s (.present w) := by
  apply of_ty
  intro hv
  obtain ⟨hw, hvw⟩ := h v.ty (Made.present_iff.1 hv)
  exact ⟨Made.present_iff.2 hw, .present hvw⟩

theorem owned (h : v.Fills s w) : (Value.owned v).Fills s (.owned w) := by
  apply of_ty
  intro hv
  obtain ⟨hw, hvw⟩ := h v.ty (Made.owned_iff.1 hv)
  exact ⟨Made.owned_iff.2 hw, .owned hvw⟩

/-- What is filled in behind a pointer is filled in for the whole. -/
theorem withTarget (h : v.target.Fills s w) : v.Fills s (v.withTarget w) := by
  cases v with
  | present v => exact present h
  | owned v => exact owned h
  | _ => exact h

/-- Each field is filled in as its type allows. -/
theorem record {name : String} (h : Rows (fun _ => Value.Fills s) 0 vs ws) :
    (Value.record name vs).Fills s (.record name ws) := by
  apply of_ty
  intro hv
  obtain ⟨hlength, hitems⟩ := h
  obtain ⟨hdecls, hfields⟩ := Made.record_iff.1 hv
  constructor
  · refine Made.record_iff.2 ⟨hlength.trans hdecls, ?_⟩
    intro i d w hd hw
    obtain ⟨v, hv⟩ := exists_getElem?_of_length hlength.symm hw
    exact (hitems i v w hv hw d.ty (hfields i d v hd hv)).1
  · refine .record hlength ?_
    intro i v w hv hw
    obtain ⟨d, hd⟩ := exists_getElem?_of_length hdecls.symm hv
    exact (hitems i v w hv hw d.ty (hfields i d v hd hv)).2

/-- Items of one type are filled in. -/
theorem items {t : Ty} (hvs : ∀ v ∈ vs, v.Made s t) (h : Rows (fun _ => Value.Fills s) 0 vs ws) :
    (∀ w ∈ ws, w.Made s t) ∧
      ∀ (i : Nat) v w, vs[i]? = some v → ws[i]? = some w → v.Filled s w := by
  obtain ⟨hlength, hitems⟩ := h
  constructor
  · intro w hw
    obtain ⟨i, hi⟩ := List.mem_iff_getElem?.1 hw
    obtain ⟨v, hv⟩ := exists_getElem?_of_length hlength.symm hi
    exact (hitems i v w hv hi t (hvs v (List.mem_of_getElem? hv))).1
  · intro i v w hv hw
    exact (hitems i v w hv hw t (hvs v (List.mem_of_getElem? hv))).2

theorem list {t : Ty} (h : Rows (fun _ => Value.Fills s) 0 vs ws) :
    (Value.list t vs).Fills s (.list t ws) := by
  apply of_ty
  intro hv
  obtain ⟨hmade, hfilled⟩ := items (Made.list_iff.1 hv) h
  exact ⟨Made.list_iff.2 hmade, .list h.1 hfilled⟩

theorem array {t : Ty} (h : Rows (fun _ => Value.Fills s) 0 vs ws) :
    (Value.array t vs).Fills s (.array t ws) := by
  apply of_ty
  intro hv
  obtain ⟨hmade, hfilled⟩ := items (Made.array_iff.1 hv) h
  have hws := Made.array_iff.2 hmade
  rw [h.1] at hws
  exact ⟨hws, .array h.1 hfilled⟩

/-- What one part of a walk has filled in, the next one fills in further. -/
theorem andThen {work : Work Value} {next : Value → Journal → Work Value}
    (h : v.Fills s work.value) (hnext : ∀ (x : Value) k, x.Fills s (next x k).value) :
    v.Fills s (work.andThen id next).value := by
  rcases work.done_or_halt with ⟨x, k, rfl⟩ | ⟨e, x, k, rfl⟩
  · exact h.trans (hnext x k)
  · exact h

end Value.Fills

/-- To allocate is to fill in. -/
theorem Schema.fills_allocate (h : s.DefaultsMade) (v : Value) : v.Fills s (s.allocate v) := by
  cases v with
  | nil t => exact .of_isZero rfl fun _ => Schema.made_allocate h
  | _ => exact .refl _

theorem Effect.onTarget_fills (h : s.DefaultsMade) {site : Site} {work : Value → Value × Outcome}
    (hwork : ∀ v : Value, v.Fills s (work v).1) :
    site.value.Fills s (Effect.onTarget s site work).value :=
  (Schema.fills_allocate h site.value).trans (.withTarget (hwork _))

/-! ## The handler -/

namespace Fill

variable (w : Fill)

/-- A literal is set by the setter of the type of the target, or it is read for a scalar, or else it
is refused, and the target stays as it is. -/
theorem setLiteral_cases (literal : String) (v : Value) :
    (∃ set, w.schema.setter? v.ty = some set ∧
        w.setLiteral literal v = set (.text literal) v) ∨
      (∃ d d', v = .scalar d ∧ w.datum literal d.ty = .ok d' ∧
        w.setLiteral literal v = (.scalar d', .done)) ∨
      ((w.setLiteral literal v).1 = v ∧ (w.setLiteral literal v).2 ≠ .done) := by
  unfold setLiteral
  cases w.schema.setter? v.ty with
  | some set => exact Or.inl ⟨set, rfl, rfl⟩
  | none =>
    apply Or.inr
    cases v with
    | scalar d =>
      cases hdatum : w.datum literal d.ty with
      | ok d' => exact Or.inl ⟨d, d', rfl, hdatum, by simp only [hdatum]⟩
      | error e => cases e <;> exact Or.inr ⟨by simp only [hdatum], by simp [hdatum]⟩
    | _ => exact Or.inr ⟨rfl, nofun⟩

/-- A literal that is refused leaves the target as it is, if the setter of its type does so. -/
theorem setLiteral_refused {literal : String} {v : Value}
    (hsetter : ∀ set, w.schema.setter? v.ty = some set →
      (set (.text literal) v).2 ≠ .done → (set (.text literal) v).1 = v)
    (hend : (w.setLiteral literal v).2 ≠ .done) : (w.setLiteral literal v).1 = v := by
  rcases w.setLiteral_cases literal v with ⟨set, hset, heq⟩ | ⟨d, d', -, -, heq⟩ | ⟨hkept, -⟩
  · -- the setter has the last word
    rw [heq] at hend ⊢
    exact hsetter set hset hend
  · rw [heq] at hend
    exact absurd rfl hend
  · exact hkept

/-- What a literal is set to is made for the type of the target, be the literal refused or not. -/
theorem made_setLiteral (hs : w.schema.SettersMake) (literal : String) {t : Ty} {v : Value}
    (hv : v.Made w.schema t) : (w.setLiteral literal v).1.Made w.schema t := by
  rcases w.setLiteral_cases literal v with
    ⟨set, hset, heq⟩ | ⟨d, d', rfl, hdatum, heq⟩ | ⟨heq, -⟩
  · rw [heq]
    exact hs t set _ v (hv.fits.ty_eq ▸ hset) hv
  · have hmade := Value.Made.scalar (s := w.schema) d'
    rw [w.ty_datum hdatum] at hmade
    rw [heq, ← hv.fits.ty_eq]
    exact hmade
  · rw [heq]
    exact hv

theorem made_copyField (root : Value) (name : String) {t : Ty} {v : Value}
    (hv : v.Made w.schema t) : (w.copyField root name v).1.Made w.schema t := by
  simp only [copyField]
  by_cases hname : name.isEmpty = true
  · rw [if_pos hname]
    exact hv
  · rw [if_neg hname]
    repeat' split
    all_goals try exact hv
    -- of all the ways that this may go, one writes
    rename_i x hassign
    exact ⟨(hv.fits.replaces_assign? hassign).fits, isWhole_of_scalar (kind_assign? hassign)⟩

/-- The handler fills in, whatever its argument is and whatever it ends with. -/
theorem run_fills (hs : w.schema.SettersMake) (hdefaults : w.schema.DefaultsMade) (site : Site)
    (arg : Arg) : site.value.Fills w.schema (w.run site arg).value := by
  cases arg with
  | text s => exact .refl _
  | int n => exact .refl _
  | fill a =>
    refine Effect.onTarget_fills hdefaults ?_
    intro v
    split
    · exact .refl v
    · rename_i hzero
      rw [Bool.not_eq_true, Bool.not_eq_false'] at hzero
      cases a with
      | field name => exact .of_isZero hzero fun _ => w.made_copyField _ name
      | literal literal => exact .of_isZero hzero fun _ => w.made_setLiteral hs literal

end Fill

/-! ## Parts of walks -/

namespace Nested

theorem rows_row {V : Nat → Value → Value → Prop} (hrefl : ∀ i v, V i v v)
    {work : Nat → (Value → Value) → Value → Journal → Work Value}
    (hwork : ∀ i around v j, V i v (work i around v j).value) (i : Nat)
    (around : List Value → Value) (vs : List Value) (j : Journal) :
    Rows V i vs (row work i around vs j).value := by
  refine ⟨length_row work i around vs j, ?_⟩
  -- what stands around the rest of the row holds the value just made, so `around` must vary
  induction vs generalizing i around j with
  | nil =>
    intro k x x' hx
    cases hx
  | cons v vs ih =>
    have hhead := hwork i (fun x => around (x :: vs)) v j
    rw [row]
    intro k x x' hx hx'
    rcases (work i (fun x => around (x :: vs)) v j).done_or_halt with
      ⟨y, j', hw⟩ | ⟨e, y, j', hw⟩
    · rw [hw] at hhead
      rw [hw, Work.andThen_done] at hx'
      cases k with
      | zero =>
        obtain rfl := Option.some.inj hx
        obtain rfl := Option.some.inj hx'
        exact hhead
      | succ k =>
        have hindex : i + (k + 1) = i + 1 + k := by omega
        rw [hindex]
        exact ih (i + 1) (fun xs => around (y :: xs)) j' k x x' hx hx'
    · -- what comes behind the break is as it was
      rw [hw] at hhead
      rw [hw, Work.andThen_halt] at hx'
      cases k with
      | zero =>
        obtain rfl := Option.some.inj hx
        obtain rfl := Option.some.inj hx'
        exact hhead
      | succ k =>
        have hsame : some x = some x' := hx.symm.trans hx'
        obtain rfl := Option.some.inj hsame
        exact hrefl _ x

section Going

variable {go : Enter} (hgo : ∀ path around (v : Value) j, v.Fills s (go path around v j).value)

include hgo

theorem ifRecord_fills (path : Path) (around : Value → Value) (v : Value) (j : Journal) :
    v.Fills s (ifRecord go path around v j).value := by
  unfold ifRecord
  split
  · exact hgo path around v j
  · exact .refl v

theorem descend_fills (path : Path) (around : Value → Value) (v : Value) (j : Journal) :
    v.Fills s (descend go path around v j).value := by
  have hitems (around : List Value → Value) (vs : List Value) :
      Rows (fun _ => Value.Fills s) 0 vs
        (row (fun i => ifRecord go (path ++ [.index i])) 0 around vs j).value :=
    rows_row (fun _ v => .refl v) (fun i a v j => ifRecord_fills hgo _ a v j) 0 around vs j
  cases v with
  | record name vs => exact hgo path around _ j
  | present v => exact .present (ifRecord_fills hgo _ _ v j)
  | owned v => exact .owned (ifRecord_fills hgo _ _ v j)
  | list t vs => exact .list (hitems _ vs)
  | array t vs => exact .array (hitems _ vs)
  | scalar d => exact .refl _
  | sealed name d => exact .refl _
  | nil t => exact .refl _

omit hgo

variable {obey : Obey} (hobey : ∀ p t (v : Value) j, v.Fills s (obey p t v j).value)

include hobey

theorem obeyAll_fills (p : Place) (ts : List Tag) (v : Value) (j : Journal) :
    v.Fills s (obeyAll obey p ts v j).value := by
  induction ts generalizing v j with
  | nil => exact .refl v
  | cons t ts ih => exact (hobey p t v j).andThen ih

include hgo

theorem visit_fills (p : Place) (v : Value) (j : Journal) :
    v.Fills s (visit obey go p v j).value := by
  refine (obeyAll_fills hobey p _ v j).andThen ?_
  intro x k
  split
  · exact .refl x
  · exact descend_fills hgo p.path p.around x k

theorem member_fills (fields : List Field) (path : Path) (i : Nat) (around : Value → Value)
    (v : Value) (j : Journal) : v.Fills s (member obey go fields path i around v j).value := by
  unfold member
  split
  · split
    · exact visit_fills hgo hobey _ v j
    · exact .refl v
  · exact .refl v

end Going

section Obeying

variable {obey : Obey} (hobey : ∀ p t (v : Value) j, v.Fills s (obey p t v j).value)

include hobey in
/-- What is filled in by every tag that is obeyed is filled in by entering records. -/
theorem enter_fills (schema : Schema) (depth : Nat) (path : Path) (around : Value → Value)
    (v : Value) (j : Journal) : v.Fills s (enter obey schema depth path around v j).value := by
  induction depth generalizing path around v j with
  | zero => exact .refl v
  | succ depth ih =>
    cases v with
    | record name vs =>
      refine .record (rows_row (fun _ v => .refl v) ?_ 0 _ vs j)
      intro i a v j
      exact member_fills ih hobey _ path i a v j
    | _ => exact .refl _

end Obeying

section Walks

variable {r : Rules} (hobey : ∀ p t (v : Value) j, v.Fills s (r.obey p t v j).value) (memo : Memo)
  (schema : Schema) (depth : Nat)

include hobey

theorem walkPointee_fills {whole : Value → Value}
    (hwhole : ∀ {v w : Value}, v.Fills s w → (whole v).Fills s (whole w)) (v : Value) :
    (whole v).Fills s (walkPointee r memo schema depth whole v).value := by
  cases v with
  | record name vs => exact hwhole (enter_fills hobey schema depth [] id _ _)
  | _ => exact .refl _

theorem walk_fills (v : Value) : v.Fills s (walk r memo schema depth v).value := by
  cases v with
  | record name vs => exact enter_fills hobey schema depth [] id _ _
  | present v => exact walkPointee_fills hobey memo schema depth .present v
  | owned v => exact walkPointee_fills hobey memo schema depth .owned v
  | _ => exact .refl _

end Walks

/-- Where all handlers fill in, so does every tag. -/
theorem Rules.obey_fills {r : Rules}
    (honly : ∀ name h, r.handler? name = some h → ∃ (w : Fill) (clock : Site → Instant),
      w.schema = s ∧ h = .fillBy w clock)
    (hs : s.SettersMake) (hdefaults : s.DefaultsMade) (p : Place) (t : Tag) (v : Value)
    (j : Journal) : v.Fills s (r.obey p t v j).value := by
  rcases r.obey_cases p t v j with heq | ⟨h, -, hh, ⟨arg, -, heq⟩ | ⟨f, -, heq⟩⟩
  · rw [heq]
    exact .refl v
  · obtain ⟨w, clock, rfl, rfl⟩ := honly t.name h hh
    rw [heq]
    exact (w.showing (clock _)).run_fills hs hdefaults
      ⟨r.context, p.around v, p.path, p.index, p.field, v⟩ arg
  · rw [heq]
    exact .refl v

end Nested

/-! ## Whole walks -/

/-- A walk that only fills in, wherever it ends and whatever it ends with, leaves all that was
there: values without parts that were not zero, pointers that were not nil, and the lengths of lists
that were not empty and of arrays.  Where something has changed, a zero has changed. -/
theorem Dispatcher.walk_only_fills {d : Dispatcher} (honly : d.OnlyFills s) (hs : s.SettersMake)
    (hdefaults : s.DefaultsMade) {v : Value} (hv : v.Made s v.ty) (context : Context)
    (depth : Nat) :
    let w := (d.walk s context depth v).value
    (∀ q x, v.get? q = some x → x.kind = .scalar → s.isZero x = false → w.get? q = some x) ∧
      (∀ q x, v.get? q = some (.present x) → ∃ y, w.get? q = some (.present y)) ∧
      (∀ q x, v.get? q = some (.owned x) → ∃ y, w.get? q = some (.owned y)) ∧
      (∀ q t xs, v.get? q = some (.list t xs) → xs ≠ [] →
        ∃ ys, w.get? q = some (.list t ys) ∧ ys.length = xs.length) ∧
      (∀ q t xs, v.get? q = some (.array t xs) →
        ∃ ys, w.get? q = some (.array t ys) ∧ ys.length = xs.length) ∧
      ∀ q, w.get? q ≠ v.get? q → ∃ p, v.FilledAt s w p ∧ (p <+: q ∨ q <+: p) := by
  intro w
  have hobey := Nested.Rules.obey_fills (r := d.rules context) honly hs hdefaults
  have hfills := Nested.walk_fills hobey d.memo s depth v
  rw [← d.walk_eq_nested] at hfills
  obtain ⟨-, hfilled⟩ := hfills v.ty hv
  -- the rest is read off from what stands at a path before and after
  refine ⟨?_, ?_, ?_, ?_, ?_, hfilled.exists_zero⟩
  · intro q x hx hkind hzero
    obtain ⟨y, hy, hxy⟩ := hfilled.get? hx
    rw [hxy.eq_of_scalar hkind hzero] at hy
    exact hy
  · intro q x hx
    obtain ⟨_, hy, hxy⟩ := hfilled.get? hx
    obtain ⟨y, rfl, -⟩ := hxy.of_present
    exact ⟨y, hy⟩
  · intro q x hx
    obtain ⟨_, hy, hxy⟩ := hfilled.get? hx
    obtain ⟨y, rfl, -⟩ := hxy.of_owned
    exact ⟨y, hy⟩
  · intro q t xs hx hne
    obtain ⟨_, hy, hxy⟩ := hfilled.get? hx
    obtain ⟨ys, rfl, hlength⟩ := hxy.of_list hne
    exact ⟨ys, hy, hlength⟩
  · intro q t xs hx
    obtain ⟨_, hy, hxy⟩ := hfilled.get? hx
    obtain ⟨ys, rfl, hlength⟩ := hxy.of_array
    exact ⟨ys, hy, hlength⟩

/-! ## A parcel -/

namespace Parcel

/-- A remark is a text of a type of its own, for which spaces do not count. -/
def remark : Ty :=
  .sealed "Remark" .text

def alike : Datum → Datum → Bool
  | .text s, .text t => s.toList.filter (· ≠ ' ') == t.toList.filter (· ≠ ' ')
  | d, e => d == e

def sealing : (t : ScalarTy) → Sealing t
  | .text => ⟨.text "", alike, rfl⟩
  | t => .plain t

end Parcel

/-- A schema of parcels.  The price of a parcel is set as a whole, from a text that names the unit,
and its amount has a default of its own.  The remark is set to a space, which is still zero, and
what is written for the insurance is no number. -/
def parcels : Schema where
  records :=
    [⟨"Parcel",
      [Samples.exported "weight" Samples.i64 "default:\"3\"",
       Samples.exported "price" (.record "Money") "default:\"\"",
       Samples.exported "remark" Parcel.remark "default:\" \"",
       Samples.exported "insured" (.optional Samples.i64) "default:\"much\"",
       Samples.exported "stamps" (.list Samples.text) "default:\"none\""]⟩,
     ⟨"Money",
      [Samples.exported "amount" Samples.i64 "default:\"5\"",
       Samples.exported "unit" Samples.text ""]⟩]
  setter? t :=
    if t = .record "Money" then some Samples.setMoney
    else if t = Parcel.remark then some Samples.setLabel
    else none
  sealing _ := Parcel.sealing

namespace Parcel

/-- A parcel that was weighed and stamped.  It is insured, but nobody knows for how much. -/
def weighed : Value :=
  .record "Parcel"
    [.scalar (.int .i64 12), .record "Money" [.scalar (.int .i64 0), .scalar (.text "")],
     .sealed "Remark" (.text ""), .present (.scalar (.int .i64 0)),
     .list Samples.text [.scalar (.text "fragile")]]

def filler : Fill :=
  ⟨parcels, .standard, .standard .zero⟩

def dispatcher : Dispatcher where
  bindings := [("default", .fill filler)]

theorem fillsByFixedClocks : dispatcher.FillsByFixedClocks parcels := by
  intro name h hh
  simp only [Dispatcher.handler?, dispatcher, List.lookup_cons] at hh
  split at hh
  · exact ⟨filler, rfl, (Option.some.inj hh).symm⟩
  · cases hh

theorem onlyFills : dispatcher.OnlyFills parcels :=
  fillsByFixedClocks.onlyFills

/-- What has a setter is a price or a remark. -/
theorem setter_cases {t : Ty} {set : Setter} (hset : parcels.setter? t = some set) :
    (t = .record "Money" ∧ set = Samples.setMoney) ∨ (t = remark ∧ set = Samples.setLabel) := by
  simp only [parcels] at hset
  split at hset
  · rename_i ht
    exact Or.inl ⟨ht, (Option.some.inj hset).symm⟩
  · simp only [Option.ite_none_right_eq_some, Option.some.injEq] at hset
    exact Or.inr ⟨hset.1, hset.2.symm⟩

/-- A price is made of an amount and a unit. -/
theorem exists_price {v : Value} (hv : v.Made parcels (.record "Money")) :
    ∃ amount unit, v = .record "Money" [.scalar amount, .scalar unit] ∧ amount.ty = .int .i64 := by
  have hty := hv.fits.ty_eq
  cases v <;> simp only [Value.ty, Ty.record.injEq, reduceCtorEq] at hty
  subst hty
  obtain ⟨hlength, hfields⟩ := Made.record_iff.1 hv
  rename_i vs
  obtain ⟨amount, unit, rfl⟩ := List.length_eq_two.1 hlength
  have hamount := (hfields 0 _ amount rfl rfl).fits.ty_eq
  have hunit := (hfields 1 _ unit rfl rfl).fits.ty_eq
  cases amount <;> simp only [Samples.exported, Samples.i64, Value.ty, Ty.scalar.injEq,
    reduceCtorEq] at hamount
  cases unit <;> simp only [Samples.exported, Samples.text, Value.ty, Ty.scalar.injEq,
    reduceCtorEq] at hunit
  exact ⟨_, _, rfl, hamount⟩

theorem settersMake : parcels.SettersMake := by
  intro t set arg v hset hv
  rcases setter_cases hset with ⟨rfl, rfl⟩ | ⟨rfl, rfl⟩
  · obtain ⟨amount, unit, rfl, hamount⟩ := exists_price hv
    have hmade := Made.scalar (s := parcels) amount
    rw [hamount] at hmade
    exact .of_forall₂ (.cons hmade (.cons (.scalar (.text _)) .nil))
  · have hname : v.typeName = "Remark" := congrArg Ty.name hv.fits.ty_eq
    rw [Samples.setLabel, hname]
    exact ⟨.sealed "Remark" (.text _), rfl⟩

theorem defaultsMade : parcels.DefaultsMade := by
  refine Schema.DefaultsDerived.made (fun _ => rfl) ?_
  decide

theorem made_weighed : weighed.Made parcels weighed.ty := by
  have hprice : (Value.record "Money" [.scalar (.int .i64 0), .scalar (.text "")]).Made parcels
      (.record "Money") :=
    .of_forall₂ (.cons (.scalar (.int .i64 0)) (.cons (.scalar (.text "")) .nil))
  have hstamps : (Value.list Samples.text [.scalar (.text "fragile")]).Made parcels
      (.list Samples.text) := by
    refine Made.list_iff.2 ?_
    intro v hv
    obtain rfl := List.mem_singleton.1 hv
    exact .scalar (.text "fragile")
  have hremark : (Value.sealed "Remark" (.text "")).Made parcels remark :=
    ⟨.sealed "Remark" (.text ""), rfl⟩
  exact .of_forall₂ (.cons (.scalar (.int .i64 12)) (.cons hprice (.cons hremark
    (.cons (Made.present_iff.2 (.scalar (.int .i64 0))) (.cons hstamps .nil)))))

end Parcel

/-- Whatever becomes of the price, the weight of the parcel, its insurance and its stamp are still
there after any walk. -/
theorem Dispatcher.walk_parcel_only_fills :
    Parcel.dispatcher.OnlyFills parcels ∧ parcels.SettersMake ∧ parcels.DefaultsMade ∧
      Parcel.weighed.Made parcels Parcel.weighed.ty ∧
      ∀ context depth,
        let w := (Parcel.dispatcher.walk parcels context depth Parcel.weighed).value
        w.get? [.field 0] = some (.scalar (.int .i64 12)) ∧
          (∃ y, w.get? [.field 3] = some (.present y)) ∧
          (∃ ys, w.get? [.field 4] = some (.list Samples.text ys) ∧ ys.length = 1) ∧
          w.get? [.field 4, .index 0] = some (.scalar (.text "fragile")) ∧
          ∀ q, w.get? q ≠ Parcel.weighed.get? q →
            ∃ p, Parcel.weighed.FilledAt parcels w p ∧ (p <+: q ∨ q <+: p) := by
  refine ⟨Parcel.onlyFills, Parcel.settersMake, Parcel.defaultsMade, Parcel.made_weighed, ?_⟩
  intro context depth w
  obtain ⟨hscalars, hpointers, -, hlists, -, hchanges⟩ := Dispatcher.walk_only_fills
    Parcel.onlyFills Parcel.settersMake Parcel.defaultsMade Parcel.made_weighed context depth
  exact ⟨hscalars _ _ rfl rfl (by decide), hpointers _ _ rfl,
    hlists _ _ [_] rfl (List.cons_ne_nil _ _), hscalars _ _ rfl rfl (by decide), hchanges⟩

end FieldNotes
