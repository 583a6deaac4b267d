import FieldNotes.Proofs.Outline
import FieldNotes.Proofs.Tables
import FieldNotes.Proofs.Typing

/-! # Parts that are lent

A part of a value can be looked at, or it can be lent.  Whoever has it on loan may give back another
value in its place, and the whole becomes what it was with this value there.  Parts are lent step by
step along a path, by accessors of their own.

* `Loan` is a part on loan, and `Value.lend?` lends along a path.
* `Value.map_part_lend?`, `Value.set?_eq_lend?`: what is lent is what is looked up, and to give it
  back is to write it.
* `Value.fits_lent`: a value of the same type may be given back.
* `RecordCode.lend?_reflect`: the accessors that are written for a record lend its parts.
* `Value.paths_are_lenses`: all laws of paths.
-/

namespace FieldNotes

/-- A part on loan, and what the whole becomes when a value is given back. -/
structure Loan where
  part : Value
  whole : Value → Value

namespace Value

/-! ## Lending -/

/-- An item of a row on loan. -/
def lendItem? (vs : List Value) (i : Nat) (around : List Value → Value) : Option Loan :=
  (vs[i]?).map fun v => ⟨v, fun w => around (vs.set i w)⟩

/-- The part that a step leads to, on loan. -/
def lendChild? : Value → Step → Option Loan
  | .record name fields, .field i => lendItem? fields i (.record name)
  | .present v, .deref => some ⟨v, .present⟩
  | .owned v, .deref => some ⟨v, .owned⟩
  | .list t items, .index i => lendItem? items i (.list t)
  | .array t items, .index i => lendItem? items i (.array t)
  | _, _ => none

end Value

/-- Lends on a part of what is on loan. -/
def Loan.lendOn? (l : Loan) (s : Step) : Option Loan :=
  (l.part.lendChild? s).map fun m => ⟨m.part, fun w => l.whole (m.whole w)⟩

/-- The value that a path leads to, on loan: the whole is lent, and then one step after another. -/
def Value.lend? (v : Value) (p : Path) : Option Loan :=
  p.foldlM Loan.lendOn? ⟨v, id⟩

namespace Value

variable {v w c : Value} {s : Step} {p : Path} {l : Loan}

/-! ## One step -/

theorem map_part_lendChild? (v : Value) (s : Step) :
    (v.lendChild? s).map Loan.part = v.child? s := by
  cases v <;> cases s <;>
    simp only [lendChild?, lendItem?, child?, Option.map_map, Option.map_some, Option.map_none]
  all_goals exact Option.map_id'

theorem setChild?_eq_lendChild? (v : Value) (s : Step) (w : Value) :
    v.setChild? s w = (v.lendChild? s).map (·.whole w) := by
  have hitem (vs : List Value) (i : Nat) (around : List Value → Value) :
      (replaceAt? vs i w).map around = (lendItem? vs i around).map (·.whole w) := by
    simp only [replaceAt?, lendItem?, Option.map_map]
    by_cases hi : i < vs.length <;> simp [hi]
  cases v <;> cases s <;>
    simp only [setChild?, lendChild?, hitem, Option.map_some, Option.map_none]

/-! ## Whole paths -/

/-- To look a path up is to take its steps one after the other. -/
theorem foldlM_child? (v : Value) (p : Path) : p.foldlM child? v = v.get? p := by
  induction p generalizing v with
  | nil => rfl
  | cons s p ih =>
    rw [List.foldlM_cons, get?_cons]
    exact congrArg (Option.bind (v.child? s)) (funext ih)

theorem map_part_foldlM (l : Loan) (p : Path) :
    (p.foldlM Loan.lendOn? l).map Loan.part = l.part.get? p := by
  induction p generalizing l with
  | nil => exact congrArg some rfl
  | cons s p ih =>
    rw [List.foldlM_cons, get?_cons, ← map_part_lendChild?, Loan.lendOn?]
    cases l.part.lendChild? s with
    | none => rfl
    | some m => exact ih _

theorem set?_foldlM (l : Loan) (p : Path) (w : Value) :
    (l.part.set? p w).map l.whole = (p.foldlM Loan.lendOn? l).map (·.whole w) := by
  induction p generalizing l with
  | nil => rfl
  | cons s p ih =>
    rw [List.foldlM_cons, set?_cons, ← map_part_lendChild?, Loan.lendOn?]
    cases hm : l.part.lendChild? s with
    | none => rfl
    | some m =>
      have hset (x : Value) : l.part.setChild? s x = some (m.whole x) := by
        rw [setChild?_eq_lendChild?, hm, Option.map_some]
      have hnext := ih ⟨m.part, fun x => l.whole (m.whole x)⟩
      simp only [Option.map_some, Option.bind_some, funext hset]
      rw [Option.bind_eq_bind, Option.bind_some, ← hnext]
      cases m.part.set? p w <;> rfl

/-- What is lent is what is looked up. -/
theorem map_part_lend? (v : Value) (p : Path) : (v.lend? p).map Loan.part = v.get? p :=
  map_part_foldlM ⟨v, id⟩ p

/-- To give a value back is to write it. -/
theorem set?_eq_lend? (v : Value) (p : Path) (w : Value) :
    v.set? p w = (v.lend? p).map (·.whole w) := by
  rw [lend?, ← set?_foldlM, Option.map_id_fun, id]

theorem get?_of_lend? (h : v.lend? p = some l) : v.get? p = some l.part := by
  rw [← map_part_lend?, h, Option.map_some]

theorem set?_of_lend? (h : v.lend? p = some l) (w : Value) : v.set? p w = some (l.whole w) := by
  rw [set?_eq_lend?, h, Option.map_some]

/-- Once a value was given back, it can be lent again, and what is given back then replaces it. -/
theorem lend?_whole (h : v.lend? p = some l) (w : Value) :
    (l.whole w).lend? p = some ⟨w, l.whole⟩ := by
  have hpart := map_part_lend? (l.whole w) p
  rw [get?_set? (set?_of_lend? h w), Option.map_eq_some_iff] at hpart
  obtain ⟨m, hm, hw⟩ := hpart
  have hwhole : m.whole = l.whole := by
    funext x
    have hsecond := set?_set? (set?_of_lend? h w) x
    rw [set?_of_lend? hm, set?_of_lend? h] at hsecond
    exact Option.some.inj hsecond
  rw [hm, ← hw, ← hwhole]

/-! ## Types -/

section Types

variable {schema : Schema} {t : Ty}

theorem fits_set {vs : List Value} {i : Nat} (hvs : ∀ v ∈ vs, v.Fits schema t)
    (hw : w.Fits schema t) : ∀ v ∈ vs.set i w, v.Fits schema t := by
  intro v hv
  rcases List.mem_or_eq_of_mem_set hv with hv | rfl
  · exact hvs v hv
  · exact hw

/-- A part may be replaced by a value of its type. -/
theorem fits_setChild? {v' w : Value} (hv : v.Fits schema t) (hc : v.child? s = some c)
    (hset : v.setChild? s w = some v') (hw : c.Fits schema c.ty → w.Fits schema c.ty) :
    v'.Fits schema t := by
  cases hv <;> cases s <;>
    simp only [child?, Option.some.injEq, reduceCtorEq] at hc <;>
    simp only [setChild?, Option.map_eq_some_iff, replaceAt?_eq_some_iff, Option.some.injEq] at hset
  case record.field name vs hvs i =>
    obtain ⟨_, ⟨hi, rfl⟩, rfl⟩ := hset
    refine .record fun j d x hd hx => ?_
    by_cases hij : i = j
    · subst hij
      rw [List.getElem?_set_self hi] at hx
      cases hx
      -- the part is of the type that is declared for its field
      have hfits := hvs i d c hd hc
      rw [← hfits.ty_eq]
      exact hw (hfits.ty_eq ▸ hfits)
    · rw [List.getElem?_set_ne hij] at hx
      exact hvs j d x hd hx
  case present.deref u x hx =>
    subst hc hset
    rw [← hx.ty_eq]
    exact .present (hw (hx.ty_eq ▸ hx))
  case owned.deref u x hx =>
    subst hc hset
    rw [← hx.ty_eq]
    exact .owned (hw (hx.ty_eq ▸ hx))
  case list.index u vs hvs i =>
    obtain ⟨_, ⟨-, rfl⟩, rfl⟩ := hset
    have hfits := hvs c (List.mem_of_getElem? hc)
    have hback : w.Fits schema u := hfits.ty_eq ▸ hw (hfits.ty_eq.symm ▸ hfits)
    exact .list (fits_set hvs hback)
  case array.index u vs hvs i =>
    obtain ⟨_, ⟨-, rfl⟩, rfl⟩ := hset
    have hfits := hvs c (List.mem_of_getElem? hc)
    have hback : w.Fits schema u := hfits.ty_eq ▸ hw (hfits.ty_eq.symm ▸ hfits)
    have hall := Fits.array (fits_set (i := i) hvs hback)
    rwa [List.length_set] at hall

theorem fits_set? {v' : Value} (hv : v.Fits schema t) (hc : v.get? p = some c)
    (hset : v.set? p w = some v') (hw : w.Fits schema c.ty) : v'.Fits schema t := by
  induction p generalizing v v' t with
  | nil =>
    rw [get?_nil] at hc
    rw [set?_nil] at hset
    cases hc
    cases hset
    exact hv.ty_eq ▸ hw
  | cons s p ih =>
    rw [get?_cons, Option.bind_eq_some_iff] at hc
    obtain ⟨x, hx, hc⟩ := hc
    rw [set?_cons, hx, Option.bind_some, Option.bind_eq_some_iff] at hset
    obtain ⟨x', hx', hset⟩ := hset
    exact fits_setChild? hv hx hset fun hfits => ih hfits hc hx'

/-- If a value of the type of the part is given back, the whole keeps its type. -/
theorem fits_lent (h : v.lend? p = some l) (hv : v.Fits schema t)
    (hw : w.Fits schema l.part.ty) : (l.whole w).Fits schema t :=
  fits_set? hv (get?_of_lend? h) (set?_of_lend? h w) hw

end Types

end Value

/-! ## Derived records -/

namespace Derive.RecordCode

variable {read : ListReader} {item : Item} {p : ItemField × Nat} {k : Nat}

/-- Where different fields are kept, they have different positions. -/
theorem position_ne {q : ItemField × Nat} {j : Nat} (hp : (item.kept read)[k]? = some p)
    (hq : (item.kept read)[j]? = some q) (hjk : j ≠ k) : p.2 ≠ q.2 := by
  intro heq
  have hnodup : ((item.kept read).map (·.2)).Nodup := (pairwise_kept read item).imp Nat.ne_of_lt
  have hlt : k < ((item.kept read).map (·.2)).length := by
    rw [List.length_map]
    exact (List.getElem?_eq_some_iff.1 hp).1
  refine hjk ((List.getElem?_inj hlt hnodup).1 ?_).symm
  rw [List.getElem?_map, List.getElem?_map, hp, hq, Option.map_some, Option.map_some, heq]

variable (hnames : item.NamesApart) (hp : (item.kept read)[k]? = some p)

include hnames hp

theorem exists_part {α : Type} (x : Contents item α) :
    ∃ a, x.parts[p.2]? = some a ∧ (ofItem read item).field? x k = some a := by
  have hlt : p.2 < x.parts.length := by
    rw [x.length_parts]
    exact (List.getElem?_eq_some_iff.1 (mem_kept.1 (List.mem_of_getElem? hp)).1).1
  have hpart := List.getElem?_eq_getElem hlt
  refine ⟨_, hpart, ?_⟩
  rw [field?_ofItem hnames, hp, Option.bind_some, hpart]

/-- What is written to a member is found at its position and at no other. -/
theorem field?_setAt {α : Type} (x : Contents item α) (a : α) (j : Nat) :
    (ofItem read item).field? (x.setAt p.2 a) j =
      if j = k then some a else (ofItem read item).field? x j := by
  rw [field?_ofItem hnames, field?_ofItem hnames]
  by_cases hjk : j = k
  · obtain ⟨_, hpart, -⟩ := exists_part hnames hp x
    have hlt := (List.getElem?_eq_some_iff.1 hpart).1
    rw [if_pos hjk, hjk, hp, Option.bind_some, Contents.setAt, List.getElem?_set_self hlt]
  · rw [if_neg hjk]
    cases hq : (item.kept read)[j]? with
    | none => rfl
    | some q =>
      rw [Option.bind_some, Option.bind_some, Contents.setAt,
        List.getElem?_set_ne (position_ne hp hq hjk)]

/-- The parts of the record that walks are shown, after a member was written. -/
theorem parts_setAt (x : Contents item Value) (w : Value) :
    (List.range (ofItem read item).descriptors.length).filterMap
        ((ofItem read item).field? (x.setAt p.2 w)) =
      ((List.range (ofItem read item).descriptors.length).filterMap
        ((ofItem read item).field? x)).set k w := by
  refine List.ext_getElem? fun j => ?_
  rw [reflect_getElem? hnames, field?_setAt hnames hp, List.getElem?_set',
    reflect_getElem? hnames]
  by_cases hjk : j = k
  · obtain ⟨v, -, hfield⟩ := exists_part hnames hp x
    rw [if_pos hjk, if_pos hjk.symm, hjk, hfield]
    rfl
  · rw [if_neg hjk, if_neg (Ne.symm hjk)]

omit hp in
/-- The accessor that lends a member lends the part at its position, and to write the member is to
give that part back. -/
theorem lend?_reflect (name : String) (x : Contents item Value) (k : Nat) :
    ((ofItem read item).reflect name x).lend? [.field k] =
      ((ofItem read item).lend? x k).map fun a =>
        ⟨a.1, fun w => (ofItem read item).reflect name (a.2 w)⟩ := by
  have hlend : ((ofItem read item).reflect name x).lend? [.field k] =
      ((ofItem read item).reflect name x).lendChild? (.field k) := by
    rw [Value.lend?, List.foldlM_cons, Loan.lendOn?]
    cases Value.lendChild? _ _ <;> rfl
  rw [hlend, reflect, Value.lendChild?, Value.lendItem?, reflect_getElem? hnames,
    lend?_ofItem hnames]
  cases hp : (item.kept read)[k]? with
  | none =>
    rw [field?_ofItem hnames, hp]
    rfl
  | some p =>
    obtain ⟨v, hpart, hfield⟩ := exists_part hnames hp x
    rw [hfield, Option.bind_some, hpart]
    simp only [Option.map_some, Option.some.injEq, Loan.mk.injEq, true_and]
    funext w
    rw [reflect, parts_setAt hnames hp]

end Derive.RecordCode

/-! ## Lawful lenses -/

namespace Value

/-- Paths are lawful lenses.

A path in two parts is looked up part by part.  Looking up and lending go one step after the other,
each by accessors of its own, and they agree: there is a loan where something is found, of what is
found there, and to give a value back is to write it.

If what was lent is given back, nothing has changed.  If another value is, it is what is found at
the path, and below the path is what is found in it; what stands neither around the path nor below
it is as it was, and to give back once more is to forget the first time.  A whole keeps its type if
the value is of the type of the part.  For records that are derived, it is their own accessors that
lend the parts. -/
theorem paths_are_lenses (v : Value) (p : Path) :
    (∀ q, v.get? (p ++ q) = (v.get? p).bind (·.get? q)) ∧
    p.foldlM child? v = v.get? p ∧
    (v.lend? p).map Loan.part = v.get? p ∧
    (∀ w, v.set? p w = (v.lend? p).map (·.whole w)) ∧
    (∀ l, v.lend? p = some l →
      l.whole l.part = v ∧
      ∀ w,
        (l.whole w).get? p = some w ∧
        (∀ q, (l.whole w).get? (p ++ q) = w.get? q) ∧
        (∀ q, ¬ p <+: q → ¬ q <+: p → (l.whole w).get? q = v.get? q) ∧
        ((l.whole w).lend? p = some ⟨w, l.whole⟩) ∧
        ∀ schema t, v.Fits schema t → w.Fits schema l.part.ty → (l.whole w).Fits schema t) ∧
    ∀ read item table o, Derive.derive read item = .ok (.record table o) → item.NamesApart →
      ∀ (name : String) (x : Derive.Contents item Value) (k : Nat),
        let code := (Derive.Derived.record table o).code
        (code.reflect name x).get? [.field k] = code.field? x k ∧
        (code.reflect name x).lend? [.field k] =
          (code.lend? x k).map fun a => ⟨a.1, fun w => code.reflect name (a.2 w)⟩ := by
  refine ⟨get?_append v p, foldlM_child? v p, map_part_lend? v p, set?_eq_lend? v p, ?_, ?_⟩
  · intro l h
    have hget := get?_of_lend? h
    refine ⟨?_, fun w => ?_⟩
    · -- to give back what was lent is to write what is there
      have hset := set?_of_lend? h l.part
      rw [set?_get? hget] at hset
      exact (Option.some.inj hset).symm
    · have hset := set?_of_lend? h w
      have hpart := get?_set? hset
      refine ⟨hpart, fun q => get?_append_of_get? hpart, ?_, lend?_whole h w, ?_⟩
      · exact fun q hpq hqp => get?_set?_of_apart hset hpq hqp
      · exact fun schema t hv hw => fits_lent h hv hw
  · intro read item table o hderive hnames name x k code
    have hcode : code = .ofItem read item := by
      simp only [code, Derive.Derived.code, Derive.Derived.table, Derive.RecordCode.ofItem,
        Derive.derive_record_eq hderive]
    rw [hcode]
    refine ⟨?_, Derive.RecordCode.lend?_reflect hnames name x k⟩
    rw [Derive.RecordCode.reflect, get?_cons, child?, Derive.RecordCode.reflect_getElem? hnames]
    simp only [get?_nil, Option.bind_fun_some]

/-! ## A pointer in a list -/

/-- A list of two pointers, of which the first is nil. -/
def slots (n : Int) : Value :=
  .list (.optional (.scalar (.int .i64)))
    [.nil (.scalar (.int .i64)), .present (.scalar (.int .i64 n))]

/-- The number behind the second pointer is lent and another one given back; the first pointer leads
nowhere, before and after. -/
theorem paths_are_lenses_slots :
    ∃ l, (slots 4).lend? [.index 1, .deref] = some l ∧ l.part = .scalar (.int .i64 4) ∧
      (l.whole (.scalar (.int .i64 5))).get? [.index 1, .deref] = some (.scalar (.int .i64 5)) ∧
      (l.whole (.scalar (.int .i64 5))).get? [.index 0, .deref] = none := by
  obtain ⟨-, -, hpart, -, hlaws, -⟩ := paths_are_lenses (slots 4) [.index 1, .deref]
  have hget : (slots 4).get? [.index 1, .deref] = some (.scalar (.int .i64 4)) := rfl
  rw [hget, Option.map_eq_some_iff] at hpart
  obtain ⟨l, hl, hlent⟩ := hpart
  obtain ⟨-, hgiven⟩ := hlaws l hl
  obtain ⟨hback, -, hapart, -, -⟩ := hgiven (.scalar (.int .i64 5))
  refine ⟨l, hl, hlent, hback, ?_⟩
  rw [hapart [.index 0, .deref] (by decide) (by decide)]
  rfl

end Value

end FieldNotes
