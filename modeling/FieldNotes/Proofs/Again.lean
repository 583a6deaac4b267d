import FieldNotes.Proofs.Filling

/-! # A second walk through what a first one has left

Two walks of one value are compared, the second of which begins with what the first one has left.
It leaves just that, and ends alike.  A tag that was obeyed to a good end need not do nothing the
second time, though: it may also do once more what it has done the first time, after which the walk
goes on as it did then.  So the second work may as well begin with what the first one began with.

* `Again` says of some work that it leaves what the earlier work has left, and ends alike.
* `Nested.Repeats` is what is asked of a tag: between its first and its second turn the value may be
  filled in further, since the walk goes on below.
* `Nested.enter_again`, `Nested.walk_again`: what holds of tags holds of walks.
-/

namespace FieldNotes

open Nested (Enter Obey Place Rules row ifRecord descend obeyAll visit member enter)
open Value (Made exists_getElem?_of_length)
open Walk (Journal)

variable {s : Schema}

/-! ## Ends of work -/

/-- Work leaves a value and comes to an end. -/
def Work.Ends {α : Type} (w : Work α) (v : α) (r : Except Halt Unit) : Prop :=
  w.value = v ∧ w.result = r

namespace Work.Ends

variable {α : Type} {w : Work α} {v : α}

theorem eq_done (h : w.Ends v (.ok ())) : w = .done v w.journal := by
  rcases w with ⟨x, j, r⟩
  obtain ⟨rfl, rfl⟩ := h
  rfl

theorem eq_halt {e : Halt} (h : w.Ends v (.error e)) : w = .halt e v w.journal := by
  rcases w with ⟨x, j, r⟩
  obtain ⟨rfl, rfl⟩ := h
  rfl

end Work.Ends

/-- Work that begins with what earlier work began with, or with what it has left, around whatever
other values, leaves what the earlier work has left and ends as it did.  Nothing is said if that was
cut off. -/
def Again {α : Type} (work work' : (α → Value) → α → Journal → Work α) (v : α) : Prop :=
  ∀ around around' j j', (work around v j).result = .error .exhausted ∨
    ∀ w, w = v ∨ w = (work around v j).value →
      (work' around' w j').Ends (work around v j).value (work around v j).result

namespace Again

variable {α : Type} {work work' : (α → Value) → α → Journal → Work α} {v x w : α}
  {around : α → Value} {j k : Journal}

/-- Work that came to its end comes to its end again. -/
theorem done (h : Again work work' v) (hx : work around v j = .done x k) (hw : w = v ∨ w = x)
    (around' : α → Value) (j' : Journal) : ∃ l, work' around' w j' = .done x l := by
  have hends := h around around' j j'
  rw [hx] at hends
  exact ⟨_, (hends.resolve_left nofun w hw).eq_done⟩

/-- Work that was broken off is broken off again, if it was not cut off. -/
theorem halt {e : Halt} (h : Again work work' v) (hx : work around v j = .halt e x k)
    (he : e ≠ .exhausted) (hw : w = v ∨ w = x) (around' : α → Value) (j' : Journal) :
    ∃ l, work' around' w j' = .halt e x l := by
  have hends := h around around' j j'
  rw [hx] at hends
  refine ⟨_, (hends.resolve_left ?_ w hw).eq_halt⟩
  intro hcut
  exact he (Except.error.inj hcut)

/-- Work that does nothing. -/
theorem of_idle (h : ∀ around j, work around v j = .done v j)
    (h' : ∀ around j, work' around v j = .done v j) : Again work work' v := by
  intro around around' j j'
  rw [h around j]
  apply Or.inr
  intro w hw
  obtain rfl : w = v := hw.elim id id
  show (work' around' w j').Ends w (.ok ())
  rw [h' around' j']
  exact ⟨rfl, rfl⟩

/-- Work on the part of a value is work on the whole. -/
theorem within {outer outer' : (Value → Value) → Value → Journal → Work Value}
    (h : Again work work' v) (whole : α → Value)
    (houter : ∀ around x j,
      outer around (whole x) j = (work (fun y => around (whole y)) x j).map whole)
    (houter' : ∀ around x j,
      outer' around (whole x) j = (work' (fun y => around (whole y)) x j).map whole) :
    Again outer outer' (whole v) := by
  intro around around' j j'
  rw [houter]
  refine (h (fun y => around (whole y)) (fun y => around' (whole y)) j j').imp id ?_
  intro hends w hw
  obtain ⟨x, rfl, hx⟩ : ∃ x, w = whole x ∧
      (x = v ∨ x = (work (fun y => around (whole y)) v j).value) := by
    rcases hw with rfl | rfl
    · exact ⟨_, rfl, Or.inl rfl⟩
    · exact ⟨_, rfl, Or.inr rfl⟩
  obtain ⟨hvalue, hend⟩ := hends x hx
  rw [houter']
  exact ⟨congrArg whole hvalue, hend⟩

end Again

namespace Nested

/-! ## Tags -/

/-- For a tag of a field, nothing new is done a second time.  For the same value just the same is
done.  Where the tag was obeyed to a good end, nothing is done later, or just what was done before,
and where it was not, nothing is done but to come to that end again. -/
structure Repeats (s : Schema) (obey obey' : Obey) (f : Field) (t : Tag) : Prop where
  same : ∀ (p p' : Place) (v : Value) (j j' : Journal), p.field = f → p'.field = f →
    (obey' p' t v j').Ends (obey p t v j).value (obey p t v j).result
  stays : ∀ (p p' : Place) (ty : Ty) (v y : Value) (j j' : Journal), p.field = f → p'.field = f →
    v.Made s ty → (obey p t v j).result = .ok () → y.Made s ty →
    (obey p t v j).value.Filled s y →
      (obey' p' t y j').Ends y (.ok ()) ∨ (obey' p' t y j').Ends (obey p t v j).value (.ok ())
  fails : ∀ (p p' : Place) (ty : Ty) (v : Value) (j j' : Journal) (e : Halt), p.field = f →
    p'.field = f → v.Made s ty → (obey p t v j).result = .error e →
      (obey' p' t (obey p t v j).value j').Ends (obey p t v j).value (.error e)

/-- A tag that leaves all values as they are, and comes to one end for all of them. -/
theorem Repeats.of_constant {obey obey' : Obey} {f : Field} {t : Tag} {r : Except Halt Unit}
    (h : ∀ p v j, (obey p t v j).Ends v r) (h' : ∀ p v j, (obey' p t v j).Ends v r) :
    Repeats s obey obey' f t := by
  constructor
  · intro p p' v j j' _ _
    obtain ⟨hvalue, hresult⟩ := h p v j
    rw [hvalue, hresult]
    exact h' p' v j'
  · intro p p' ty v y j j' _ _ _ hok _ _
    obtain rfl : r = .ok () := (h p v j).2.symm.trans hok
    exact Or.inl (h' p' y j')
  · intro p p' ty v j j' e _ _ _ he
    obtain rfl : r = .error e := (h p v j).2.symm.trans he
    exact h' p' _ j'

section Obeying

variable {obey obey' : Obey} {f : Field} {ts : List Tag}
  (hts : ∀ t ∈ ts, Repeats s obey obey' f t) {p q : Place} (hp : p.field = f) (hq : q.field = f)
  {ty : Ty} {v : Value}

include hts hp hq

/-- Tags that are obeyed for one value twice do the same twice. -/
theorem obeyAll_same (j j' : Journal) :
    (obeyAll obey' q ts v j').Ends (obeyAll obey p ts v j).value
      (obeyAll obey p ts v j).result := by
  induction ts generalizing v j j' with
  | nil => exact ⟨rfl, rfl⟩
  | cons t ts ih =>
    have hfirst := (hts t List.mem_cons_self).same p q v j j' hp hq
    rw [obeyAll, obeyAll]
    rcases (obey p t v j).done_or_halt with ⟨z, l, hw⟩ | ⟨e, z, l, hw⟩
    · rw [hw] at hfirst ⊢
      rw [hfirst.eq_done, Work.andThen_done, Work.andThen_done]
      exact ih (fun t ht => hts t (List.mem_cons_of_mem _ ht)) l _
    · rw [hw] at hfirst ⊢
      rw [hfirst.eq_halt, Work.andThen_halt, Work.andThen_halt]
      exact ⟨rfl, rfl⟩

variable (hfills : ∀ p t (v : Value) j, v.Fills s (obey p t v j).value)

include hfills

/-- Tags that were obeyed to a good end do nothing later, or once more what they did. -/
theorem obeyAll_stays (hv : v.Made s ty) {x y : Value} {j k : Journal} (j' : Journal)
    (hok : obeyAll obey p ts v j = .done x k) (hmade : y.Made s ty) (hy : x.Filled s y) :
    (obeyAll obey' q ts y j').Ends y (.ok ()) ∨ (obeyAll obey' q ts y j').Ends x (.ok ()) := by
  induction ts generalizing v j j' with
  | nil => exact Or.inl ⟨rfl, rfl⟩
  | cons t ts ih =>
    have hrest := fun t ht => hts t (List.mem_cons_of_mem _ ht)
    have hfirst := (hts t List.mem_cons_self).stays p q ty v y j j' hp hq hv
    have hnext := (hfills p t v j ty hv).1
    rw [obeyAll] at hok ⊢
    rcases (obey p t v j).done_or_halt with ⟨z, l, hw⟩ | ⟨e, z, l, hw⟩
    · rw [hw] at hfirst hnext
      rw [hw, Work.andThen_done] at hok
      have hlater := obeyAll_fills hfills p ts z l ty hnext
      rw [hok] at hlater
      rcases hfirst rfl hmade (hlater.2.trans hy) with hidle | hredo
      · rw [hidle.eq_done, Work.andThen_done]
        exact ih hrest hnext _ hok
      · -- what was done before is done once more, and so do the tags behind
        have hsame := obeyAll_same hrest hp hq (v := z) l (obey' q t y j').journal
        rw [hok] at hsame
        rw [hredo.eq_done, Work.andThen_done]
        exact Or.inr hsame
    · rw [hw, Work.andThen_halt] at hok
      cases hok

/-- Tags that were obeyed to a good end leave what they have left, be it for the value that they met
or for what has come of it, or they leave the latter. -/
theorem obeyAll_starts (hv : v.Made s ty) {x y w : Value} {j k : Journal} (j' : Journal)
    (hok : obeyAll obey p ts v j = .done x k) (hmade : y.Made s ty) (hy : x.Filled s y)
    (hw : w = v ∨ w = y) : ∃ z l, obeyAll obey' q ts w j' = .done z l ∧ (z = x ∨ z = y) := by
  rcases hw with rfl | rfl
  · have hsame := obeyAll_same hts hp hq (v := w) j j'
    rw [hok] at hsame
    exact ⟨x, _, hsame.eq_done, Or.inl rfl⟩
  · rcases obeyAll_stays hts hp hq hfills hv j' hok hmade hy with hidle | hredo
    · exact ⟨w, _, hidle.eq_done, Or.inr rfl⟩
    · exact ⟨x, _, hredo.eq_done, Or.inl rfl⟩

/-- Tags of which one was not obeyed to a good end come to this end again. -/
theorem obeyAll_fails (hv : v.Made s ty) {x : Value} {j k : Journal} (j' : Journal) {e : Halt}
    (he : obeyAll obey p ts v j = .halt e x k) :
    (obeyAll obey' q ts x j').Ends x (.error e) := by
  induction ts generalizing v j j' with
  | nil => cases he
  | cons t ts ih =>
    have hrest := fun t ht => hts t (List.mem_cons_of_mem _ ht)
    have hstays := (hts t List.mem_cons_self).stays p q ty v x j j' hp hq hv
    have hfails := (hts t List.mem_cons_self).fails p q ty v j j'
    have hmade := (hfills p t v j ty hv).1
    rw [obeyAll] at he ⊢
    rcases (obey p t v j).done_or_halt with ⟨z, l, hw⟩ | ⟨e', z, l, hw⟩
    · rw [hw] at hstays hmade
      rw [hw, Work.andThen_done] at he
      have hlater := obeyAll_fills hfills p ts z l ty hmade
      rw [he] at hlater
      rcases hstays rfl hlater.1 hlater.2 with hidle | hredo
      · rw [hidle.eq_done, Work.andThen_done]
        exact ih hrest hmade _ he
      · have hsame := obeyAll_same hrest hp hq (v := z) l (obey' q t x j').journal
        rw [he] at hsame
        rw [hredo.eq_done, Work.andThen_done]
        exact hsame
    · rw [hw] at hfails
      rw [hw, Work.andThen_halt] at he
      cases he
      have hagain : (obey' q t z j').Ends z (.error e) := hfails e hp hq hv rfl
      show ((obey' q t z j').andThen id (obeyAll obey' q ts)).Ends z (.error e)
      rw [hagain.eq_halt]
      exact ⟨rfl, rfl⟩

end Obeying

/-! ## Going over values -/

theorem row_again {work work' : Nat → (Value → Value) → Value → Journal → Work Value} {i : Nat}
    {vs : List Value} (h : ∀ k v, vs[k]? = some v → Again (work (i + k)) (work' (i + k)) v) :
    Again (row work i) (row work' i) vs := by
  induction vs generalizing i with
  | nil => exact .of_idle (fun _ _ => rfl) fun _ _ => rfl
  | cons v vs ih =>
    have hrest : Again (row work (i + 1)) (row work' (i + 1)) vs := by
      refine ih ?_
      intro k x hx
      have hindex : i + 1 + k = i + (k + 1) := by omega
      rw [hindex]
      exact h (k + 1) x hx
    have hitem : Again (work i) (work' i) v := h 0 v rfl
    intro around around' j j'
    rw [row]
    rcases (work i (fun x => around (x :: vs)) v j).done_or_halt with
      ⟨x, k, hx⟩ | ⟨e, x, k, hx⟩
    · rw [hx, Work.andThen_done]
      generalize hwork : row work (i + 1) (fun xs => around (x :: xs)) vs k = rest
      by_cases hcut : rest.result = .error .exhausted
      · exact Or.inl hcut
      · apply Or.inr
        intro ws hws
        -- the second row is the first one, or what the first work has left of it, item by item
        obtain ⟨w, ws, rfl, hw, hws⟩ : ∃ y ys, ws = y :: ys ∧ (y = v ∨ y = x) ∧
            (ys = vs ∨ ys = rest.value) := by
          rcases hws with rfl | rfl
          · exact ⟨_, _, rfl, Or.inl rfl, Or.inl rfl⟩
          · exact ⟨_, _, rfl, Or.inr rfl, Or.inr rfl⟩
        obtain ⟨l, hx'⟩ := hitem.done hx hw (fun y => around' (y :: ws)) j'
        have hrest' := hrest (fun xs => around (x :: xs)) (fun xs => around' (x :: xs)) k l
        rw [hwork] at hrest'
        obtain ⟨hvalue, hresult⟩ := hrest'.resolve_left hcut ws hws
        show (row work' i around' (w :: ws) j').Ends (x :: rest.value) rest.result
        rw [row, hx', Work.andThen_done]
        exact ⟨congrArg (x :: ·) hvalue, hresult⟩
    · rw [hx, Work.andThen_halt]
      by_cases he : e = .exhausted
      · exact Or.inl (congrArg Except.error he)
      · apply Or.inr
        intro ws hws
        obtain ⟨w, rfl, hw⟩ : ∃ y, ws = y :: vs ∧ (y = v ∨ y = x) := by
          rcases hws with rfl | rfl
          · exact ⟨_, rfl, Or.inl rfl⟩
          · exact ⟨_, rfl, Or.inr rfl⟩
        obtain ⟨l, hx'⟩ := hitem.halt hx he hw (fun y => around' (y :: vs)) j'
        show (row work' i around' (w :: vs) j').Ends (x :: vs) (.error e)
        rw [row, hx', Work.andThen_halt]
        exact ⟨rfl, rfl⟩

section Going

variable {go go' : Enter} (hgo : ∀ path (v : Value) ty, v.Made s ty → Again (go path) (go' path) v)
  (hfills : ∀ path around (v : Value) j, v.Fills s (go path around v j).value)

include hgo hfills

theorem ifRecord_again (path : Path) {v : Value} {ty : Ty} (hv : v.Made s ty) :
    Again (ifRecord go path) (ifRecord go' path) v := by
  by_cases hkind : v.kind = .record
  · intro around around' j j'
    have hfirst : ifRecord go path around v j = go path around v j := if_pos hkind
    rw [hfirst]
    refine (hgo path v ty hv around around' j j').imp id ?_
    intro hends w hw
    -- a record stays one, so it is entered again
    have hkind' : w.kind = .record := by
      rcases hw with rfl | rfl
      · exact hkind
      · exact (hfills path around v j ty hv).2.kind_eq.trans hkind
    rw [ifRecord, if_pos hkind']
    exact hends w hw
  · have hidle (go : Enter) (around : Value → Value) (j : Journal) :
        ifRecord go path around v j = .done v j := by
      simp only [ifRecord, if_neg hkind]
    exact .of_idle (hidle go) (hidle go')

theorem descend_again (path : Path) {v : Value} {ty : Ty} (hv : v.Made s ty) :
    Again (descend go path) (descend go' path) v := by
  have hpart (step : Step) {v : Value} {ty : Ty} (hv : v.Made s ty) :
      Again (ifRecord go (path ++ [step])) (ifRecord go' (path ++ [step])) v :=
    ifRecord_again hgo hfills _ hv
  have hitems {t : Ty} {vs : List Value} (hvs : ∀ v ∈ vs, v.Made s t) :
      Again (row (fun i => ifRecord go (path ++ [.index i])) 0)
        (row (fun i => ifRecord go' (path ++ [.index i])) 0) vs :=
    row_again fun k v hv => hpart _ (hvs v (List.mem_of_getElem? hv))
  have hty := hv.fits.ty_eq
  subst hty
  cases v with
  | record name vs =>
    intro around around' j j'
    refine (hgo path _ _ hv around around' j j').imp id ?_
    intro hends w hw
    obtain ⟨ws, rfl⟩ : ∃ ws, w = .record name ws := by
      rcases hw with rfl | rfl
      · exact ⟨_, rfl⟩
      · exact (hfills path around _ j _ hv).2.of_record
    exact hends _ hw
  | present v =>
    exact (hpart .deref (Made.present_iff.1 hv)).within .present (fun _ _ _ => rfl) fun _ _ _ => rfl
  | owned v =>
    exact (hpart .deref (Made.owned_iff.1 hv)).within .owned (fun _ _ _ => rfl) fun _ _ _ => rfl
  | list t vs =>
    exact (hitems (Made.list_iff.1 hv)).within (.list t) (fun _ _ _ => rfl) fun _ _ _ => rfl
  | array t vs =>
    exact (hitems (Made.array_iff.1 hv)).within (.array t) (fun _ _ _ => rfl) fun _ _ _ => rfl
  | scalar d => exact .of_idle (fun _ _ => rfl) fun _ _ => rfl
  | sealed name d => exact .of_idle (fun _ _ => rfl) fun _ _ => rfl
  | nil t => exact .of_idle (fun _ _ => rfl) fun _ _ => rfl

omit hgo hfills

theorem visit_of_done {obey : Obey} {p : Place} {v x : Value} {j k : Journal}
    (hw : obeyAll obey p (Tag.ofRow p.field.row) v j = .done x k) : visit obey go p v j =
      if (Tag.ofRow p.field.row).any Tag.isStop then .done x (k.note [.suppressed p.field.name])
      else descend go p.path p.around x k := by
  simp only [visit, hw, Work.andThen_done]

theorem visit_of_halt {obey : Obey} {p : Place} {v x : Value} {j k : Journal} {e : Halt}
    (hw : obeyAll obey p (Tag.ofRow p.field.row) v j = .halt e x k) :
    visit obey go p v j = .halt e x k := by
  simp only [visit, hw, Work.andThen_halt, id]

variable {obey obey' : Obey} (hobey : ∀ p t (v : Value) j, v.Fills s (obey p t v j).value)

include hgo hfills hobey

theorem visit_again {f : Field} (hrepeats : ∀ t ∈ Tag.ofRow f.row, Repeats s obey obey' f t)
    (path : Path) (i : Nat) {v : Value} {ty : Ty} (hv : v.Made s ty) :
    Again (fun around => visit obey go ⟨path, i, f, around⟩)
      (fun around => visit obey' go' ⟨path, i, f, around⟩) v := by
  intro around around' j j'
  beta_reduce
  have hmade := (obeyAll_fills hobey ⟨path, i, f, around⟩ (Tag.ofRow f.row) v j ty hv).1
  rcases (obeyAll obey ⟨path, i, f, around⟩ (Tag.ofRow f.row) v j).done_or_halt with
    ⟨x, k, hw⟩ | ⟨e, x, k, hw⟩
  · rw [hw] at hmade
    rw [visit_of_done hw]
    split
    · rename_i hstop
      apply Or.inr
      intro w hstart
      obtain ⟨z, l, hw', hz⟩ := obeyAll_starts hrepeats (q := ⟨path, i, f, around'⟩) rfl rfl hobey
        hv j' hw hmade (.refl x) hstart
      obtain rfl : z = x := hz.elim id id
      show (visit obey' go' ⟨path, i, f, around'⟩ w j').Ends z (.ok ())
      rw [visit_of_done hw', if_pos hstop]
      exact ⟨rfl, rfl⟩
    · rename_i hstop
      have hbelow := descend_again hgo hfills path hmade around around' k
      have hleft := descend_fills hfills path around x k ty hmade
      by_cases hcut : (descend go path around x k).result = .error .exhausted
      · exact Or.inl hcut
      · apply Or.inr
        intro w hstart
        -- below, the second walk begins with what the first one began with, or has left there
        obtain ⟨z, l, hw', hz⟩ := obeyAll_starts hrepeats (q := ⟨path, i, f, around'⟩) rfl rfl hobey
          hv j' hw hleft.1 hleft.2 hstart
        rw [visit_of_done hw', if_neg hstop]
        exact (hbelow l).resolve_left hcut z hz
  · have hsame := obeyAll_same hrepeats (p := ⟨path, i, f, around⟩) (q := ⟨path, i, f, around'⟩)
      rfl rfl (v := v) j j'
    rw [hw] at hsame
    have hagain : (obeyAll obey' ⟨path, i, f, around'⟩ (Tag.ofRow f.row) x j').Ends x (.error e) :=
      obeyAll_fails hrepeats rfl rfl hobey hv j' hw
    rw [visit_of_halt hw]
    apply Or.inr
    intro w hstart
    show (visit obey' go' ⟨path, i, f, around'⟩ w j').Ends x (.error e)
    rcases hstart with rfl | rfl
    · rw [visit_of_halt hsame.eq_halt]
      exact ⟨rfl, rfl⟩
    · rw [visit_of_halt hagain.eq_halt]
      exact ⟨rfl, rfl⟩

theorem member_again {fields : List Field}
    (hrepeats : ∀ f ∈ fields, ∀ t ∈ Tag.ofRow f.row, Repeats s obey obey' f t) (path : Path)
    (i : Nat) {v : Value} {ty : Ty} (hv : v.Made s ty) :
    Again (member obey go fields path i) (member obey' go' fields path i) v := by
  cases hf : fields[i]? with
  | none =>
    have hidle (obey : Obey) (go : Enter) (around : Value → Value) (j : Journal) :
        member obey go fields path i around v j = .done v j := by
      simp only [member, hf]
    exact .of_idle (hidle obey go) (hidle obey' go')
  | some f =>
    cases hexported : f.exported with
    | false =>
      have hidle (obey : Obey) (go : Enter) (around : Value → Value) (j : Journal) :
          member obey go fields path i around v j = .done v j := by
        simp only [member, hf, hexported, Bool.false_eq_true, if_false]
      exact .of_idle (hidle obey go) (hidle obey' go')
    | true =>
      have hagain := visit_again hgo hfills hobey (hrepeats f (List.mem_of_getElem? hf))
        (path ++ [.field i]) i hv
      intro around around' j j'
      simp only [member, hf, hexported, if_true]
      exact hagain around around' j j'

end Going

/-! ## Whole walks -/

section Walks

variable {obey obey' : Obey} (hobey : ∀ p t (v : Value) j, v.Fills s (obey p t v j).value)
  (hrepeats : ∀ name, ∀ f ∈ s.fields name, ∀ t ∈ Tag.ofRow f.row, Repeats s obey obey' f t)

include hobey hrepeats

theorem enter_again (depth : Nat) (path : Path) (v : Value) (ty : Ty) (hv : v.Made s ty) :
    Again (enter obey s depth path) (enter obey' s depth path) v := by
  induction depth generalizing path v ty with
  -- with no depth left, the first walk was cut off
  | zero => exact fun _ _ _ _ => Or.inl rfl
  | succ depth ih =>
    have hty := hv.fits.ty_eq
    subst hty
    cases v with
    | record name vs =>
      have hfields := (Made.record_iff.1 hv).2
      have hdecls := (Made.record_iff.1 hv).1
      have hrow : Again (row (member obey (enter obey s depth) (s.fields name) path) 0)
          (row (member obey' (enter obey' s depth) (s.fields name) path) 0) vs := by
        apply row_again
        intro i v hx
        obtain ⟨d, hd⟩ := exists_getElem?_of_length hdecls.symm hx
        exact member_again ih (enter_fills hobey s depth) hobey (hrepeats name) path _
          (hfields i d v hd hx)
      exact hrow.within (.record name) (fun _ _ _ => rfl) fun _ _ _ => rfl
    | _ => exact .of_idle (fun _ _ => rfl) fun _ _ => rfl

end Walks

section Walks

variable {r r' : Rules} (hobey : ∀ p t (v : Value) j, v.Fills s (r.obey p t v j).value)
  (hrepeats : ∀ name, ∀ f ∈ s.fields name, ∀ t ∈ Tag.ofRow f.row, Repeats s r.obey r'.obey f t)
  (memo memo' : Memo) (depth : Nat)

include hobey hrepeats

theorem walkRecord_again {name : String} {vs : List Value} {ty : Ty}
    (hv : (Value.record name vs).Made s ty) :
    (walkRecord r memo s depth (.record name vs)).result = .error .exhausted ∨
      ∃ ws, (walkRecord r memo s depth (.record name vs)).value = .record name ws ∧
        (walkRecord r' memo' s depth (.record name ws)).work.Ends (.record name ws)
          (walkRecord r memo s depth (.record name vs)).result := by
  have hagain := enter_again hobey hrepeats depth [] _ _ hv id id
    ⟨memo, [.walking (Value.record name vs).typeName]⟩
  obtain ⟨ws, hws⟩ := (enter_fills hobey s depth [] id _
    ⟨memo, [.walking (Value.record name vs).typeName]⟩ _ hv).2.of_record
  rw [hws] at hagain
  exact (hagain ⟨memo', [.walking (Value.record name ws).typeName]⟩).imp id
    fun hends => ⟨ws, hws, hends _ (Or.inr rfl)⟩

theorem walkPointee_again (whole : Value → Value) {v : Value} {ty : Ty} (hv : v.Made s ty) :
    (walkPointee r memo s depth whole v).result = .error .exhausted ∨
      ∃ w, (walkPointee r memo s depth whole v).value = whole w ∧
        (walkPointee r' memo' s depth whole w).work.Ends (whole w)
          (walkPointee r memo s depth whole v).result := by
  cases v with
  | record name vs =>
    refine (walkRecord_again hobey hrepeats memo memo' depth hv).imp id ?_
    rintro ⟨ws, hws, hvalue, hresult⟩
    exact ⟨.record name ws, congrArg whole hws, congrArg whole hvalue, hresult⟩
  | _ => exact Or.inr ⟨_, rfl, rfl, rfl⟩

/-- A second walk leaves what the first one has left, and ends alike. -/
theorem walk_again {v : Value} (hv : v.Made s v.ty) :
    (walk r memo s depth v).result = .error .exhausted ∨
      (walk r' memo' s depth (walk r memo s depth v).value).work.Ends
        (walk r memo s depth v).value (walk r memo s depth v).result := by
  cases v with
  | record name vs =>
    refine (walkRecord_again hobey hrepeats memo memo' depth hv).imp id ?_
    rintro ⟨ws, hws, hends⟩
    show (walk r' memo' s depth (walkRecord r memo s depth (.record name vs)).value).work.Ends
      (walkRecord r memo s depth (.record name vs)).value _
    rw [hws]
    exact hends
  | present v =>
    have hagain := walkPointee_again hobey hrepeats memo memo' depth .present
      (Made.present_iff.1 hv)
    refine hagain.imp id ?_
    rintro ⟨w, hw, hends⟩
    show (walk r' memo' s depth (walkPointee r memo s depth .present v).value).work.Ends
      (walkPointee r memo s depth .present v).value _
    rw [hw]
    exact hends
  | owned v =>
    have hagain := walkPointee_again hobey hrepeats memo memo' depth .owned
      (Made.owned_iff.1 hv)
    refine hagain.imp id ?_
    rintro ⟨w, hw, hends⟩
    show (walk r' memo' s depth (walkPointee r memo s depth .owned v).value).work.Ends
      (walkPointee r memo s depth .owned v).value _
    rw [hw]
    exact hends
  | _ => exact Or.inr ⟨rfl, rfl⟩

end Walks

end Nested

end FieldNotes
