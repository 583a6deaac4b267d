import FieldNotes.Proofs.Nested

/-! # Comparing walks

Two walks that differ only in what they do for a single tag, or in how deep they may go, can be
compared tag by tag.  What one tag is to keep is a relation between the journals; the values and the
ends have to be the same.

* `Work.Follows` compares two pieces of work.  Work that ended with one of the halts in `gaveUp` is
  followed by any other: it is not known what it would have come to.
* `Nested.enter_follows` lifts the comparison from single tags to whole walks.
* `Nested.walk_deeper`: a walk that was not cut off for its depth goes the same way at any greater
  depth.
* `Nested.walk_keeps`: what no single tag breaks, no walk breaks.
-/

namespace FieldNotes

open Walk (Journal)

/-- Whether an event tells of the walk itself, and not of a tag. -/
def Event.isRemark : Event → Bool
  | .walking _ | .suppressed _ => true
  | _ => false

/-- The second work goes the way of the first one, unless the first one gave up. -/
def Work.Follows {α : Type} (gaveUp : Halt → Prop) (J : Journal → Journal → Prop)
    (w w' : Work α) : Prop :=
  (∃ h, gaveUp h ∧ w.result = .error h) ∨
    (w'.value = w.value ∧ w'.result = w.result ∧ J w.journal w'.journal)

namespace Work.Follows

variable {α β : Type} {gaveUp : Halt → Prop} {J : Journal → Journal → Prop}

theorem done (v : α) {j j' : Journal} (hj : J j j') :
    (Work.done v j).Follows gaveUp J (Work.done v j') :=
  Or.inr ⟨rfl, rfl, hj⟩

theorem halt (h : Halt) (v : α) {j j' : Journal} (hj : J j j') :
    (Work.halt h v j).Follows gaveUp J (Work.halt h v j') :=
  Or.inr ⟨rfl, rfl, hj⟩

theorem of_gaveUp {h : Halt} (hh : gaveUp h) (v : α) (j : Journal) (w' : Work α) :
    (Work.halt h v j).Follows gaveUp J w' :=
  Or.inl ⟨h, hh, rfl⟩

theorem map {w w' : Work α} (h : w.Follows gaveUp J w') (f : α → β) :
    (w.map f).Follows gaveUp J (w'.map f) := by
  rcases h with ⟨e, he, hr⟩ | ⟨hv, hr, hj⟩
  · exact Or.inl ⟨e, he, hr⟩
  · exact Or.inr ⟨congrArg f hv, hr, hj⟩

theorem andThen {w w' : Work α} (h : w.Follows gaveUp J w') (stop : α → β)
    {next next' : α → Journal → Work β}
    (hnext : ∀ v j j', J j j' → (next v j).Follows gaveUp J (next' v j')) :
    (w.andThen stop next).Follows gaveUp J (w'.andThen stop next') := by
  rcases w with ⟨v, j, r⟩
  rcases w' with ⟨v', j', r'⟩
  rcases h with ⟨e, he, hr⟩ | ⟨hv, hr, hj⟩
  · have hr' : r = .error e := hr
    subst hr'
    exact of_gaveUp he (stop v) j _
  · have hv' : v' = v := hv
    have hr' : r' = r := hr
    subst hv' hr'
    cases r' with
    | ok _ => exact hnext v' j j' hj
    | error e => exact halt e (stop v') hj

end Work.Follows

namespace Nested

variable {gaveUp : Halt → Prop} {J : Journal → Journal → Prop}

/-! ## Parts of walks -/

theorem row_follows {work work' : Nat → (Value → Value) → Value → Journal → Work Value}
    (h : ∀ i around v j j', J j j' →
      (work i around v j).Follows gaveUp J (work' i around v j'))
    (i : Nat) (around : List Value → Value) (vs : List Value) {j j' : Journal} (hj : J j j') :
    (row work i around vs j).Follows gaveUp J (row work' i around vs j') := by
  induction vs generalizing i around j j' with
  | nil => exact .done [] hj
  | cons v vs ih =>
    refine (h i (fun x => around (x :: vs)) v j j' hj).andThen (· :: vs) ?_
    intro x k k' hk
    exact (ih (i + 1) (fun xs => around (x :: xs)) hk).map (x :: ·)

variable {go go' : Enter}
    (hgo : ∀ path around v j j', J j j' →
      (go path around v j).Follows gaveUp J (go' path around v j'))

include hgo

theorem ifRecord_follows (path : Path) (around : Value → Value) (v : Value) {j j' : Journal}
    (hj : J j j') :
    (ifRecord go path around v j).Follows gaveUp J (ifRecord go' path around v j') := by
  simp only [ifRecord]
  split
  · exact hgo path around v j j' hj
  · exact .done v hj

theorem descend_follows (path : Path) (around : Value → Value) (v : Value) {j j' : Journal}
    (hj : J j j') :
    (descend go path around v j).Follows gaveUp J (descend go' path around v j') := by
  have hitem : ∀ i a v j j', J j j' →
      (ifRecord go (path ++ [.index i]) a v j).Follows gaveUp J
        (ifRecord go' (path ++ [.index i]) a v j') := by
    intro i a v j j' hj
    exact ifRecord_follows hgo _ a v hj
  cases v with
  | record name vs => exact hgo path around _ j j' hj
  | present v => exact (ifRecord_follows hgo _ _ v hj).map Value.present
  | owned v => exact (ifRecord_follows hgo _ _ v hj).map Value.owned
  | list t vs => exact (row_follows hitem 0 _ vs hj).map (Value.list t)
  | array t vs => exact (row_follows hitem 0 _ vs hj).map (Value.array t)
  | scalar d => exact .done _ hj
  | sealed name d => exact .done _ hj
  | nil t => exact .done _ hj

omit hgo

/-! ## Walks through values -/

section Values

variable {obey obey' : Obey}
    (hobey : ∀ p t v j j', J j j' → (obey p t v j).Follows gaveUp J (obey' p t v j'))

include hobey

theorem obeyAll_follows (p : Place) (ts : List Tag) (v : Value) {j j' : Journal} (hj : J j j') :
    (obeyAll obey p ts v j).Follows gaveUp J (obeyAll obey' p ts v j') := by
  induction ts generalizing v j j' with
  | nil => exact .done v hj
  | cons t ts ih =>
    refine (hobey p t v j j' hj).andThen id ?_
    intro x k k' hk
    exact ih x hk

variable (hnote : ∀ e j j', e.isRemark = true → J j j' → J (j.note [e]) (j'.note [e]))

include hnote hgo

theorem visit_follows (p : Place) (v : Value) {j j' : Journal} (hj : J j j') :
    (visit obey go p v j).Follows gaveUp J (visit obey' go' p v j') := by
  refine (obeyAll_follows hobey p (Tag.ofRow p.field.row) v hj).andThen id ?_
  intro x k k' hk
  split
  · exact .done x (hnote _ k k' rfl hk)
  · exact descend_follows hgo p.path p.around x hk

theorem member_follows (fields : List Field) (path : Path) (i : Nat) (around : Value → Value)
    (v : Value) {j j' : Journal} (hj : J j j') :
    (member obey go fields path i around v j).Follows gaveUp J
      (member obey' go' fields path i around v j') := by
  simp only [member]
  cases fields[i]? with
  | none => exact .done v hj
  | some f =>
    cases hf : f.exported with
    | true =>
      simp only [hf, if_true]
      exact visit_follows hgo hobey hnote _ v hj
    | false =>
      simp only [hf, Bool.false_eq_true, if_false]
      exact .done v hj

omit hgo

theorem enter_follows (schema : Schema) {depth depth' : Nat}
    (hdepth : depth = depth' ∨ depth ≤ depth' ∧ gaveUp .exhausted)
    (path : Path) (around : Value → Value) (v : Value) {j j' : Journal} (hj : J j j') :
    (enter obey schema depth path around v j).Follows gaveUp J
      (enter obey' schema depth' path around v j') := by
  induction depth generalizing depth' path around v j j' with
  | zero =>
    rcases hdepth with rfl | ⟨_, hgaveUp⟩
    · exact .halt .exhausted v hj
    · exact .of_gaveUp hgaveUp v j _
  | succ depth ih =>
    -- the second walk may go down at least one record too
    obtain ⟨n, rfl, hn⟩ : ∃ n, depth' = n + 1 ∧ (depth = n ∨ depth ≤ n ∧ gaveUp .exhausted) := by
      rcases hdepth with rfl | ⟨hle, hgaveUp⟩
      · exact ⟨depth, rfl, Or.inl rfl⟩
      · exact ⟨depth' - 1, by omega, Or.inr ⟨by omega, hgaveUp⟩⟩
    have hgo : ∀ path around v j j', J j j' →
        (enter obey schema depth path around v j).Follows gaveUp J
          (enter obey' schema n path around v j') := by
      intro path around v j j' hj
      exact ih hn path around v hj
    cases v with
    | record name vs =>
      refine (row_follows ?_ 0 _ vs hj).map (Value.record name)
      intro i a v j j' hj
      exact member_follows hgo hobey hnote (schema.fields name) path i a v hj
    | _ => exact .done _ hj

end Values

/-! ## Whole walks -/

section Walks

variable {r r' : Rules} {memo memo' : Memo}
    (hrules : ∀ p t v j j', J j j' → (r.obey p t v j).Follows gaveUp J (r'.obey p t v j'))
    (hnote : ∀ e j j', e.isRemark = true → J j j' → J (j.note [e]) (j'.note [e]))
    (hstart : J ⟨memo, []⟩ ⟨memo', []⟩)
    (schema : Schema) {depth depth' : Nat}
    (hdepth : depth = depth' ∨ depth ≤ depth' ∧ gaveUp .exhausted)

include hrules hnote hstart hdepth

theorem walkRecord_follows (v : Value) :
    (walkRecord r memo schema depth v).work.Follows gaveUp J
      (walkRecord r' memo' schema depth' v).work :=
  enter_follows hrules hnote schema hdepth [] id v (hnote (.walking v.typeName) _ _ rfl hstart)

theorem walkPointee_follows (whole : Value → Value) (v : Value) :
    (walkPointee r memo schema depth whole v).work.Follows gaveUp J
      (walkPointee r' memo' schema depth' whole v).work := by
  cases v with
  | record name vs =>
    exact (walkRecord_follows hrules hnote hstart schema hdepth (.record name vs)).map whole
  | _ => exact .halt _ _ hstart

theorem walk_follows (v : Value) :
    (walk r memo schema depth v).work.Follows gaveUp J (walk r' memo' schema depth' v).work := by
  cases v with
  | record name vs => exact walkRecord_follows hrules hnote hstart schema hdepth _
  | present v => exact walkPointee_follows hrules hnote hstart schema hdepth .present v
  | owned v => exact walkPointee_follows hrules hnote hstart schema hdepth .owned v
  | nil t => exact .done _ hstart
  | _ => exact .halt _ _ hstart

end Walks

/-! ## Two uses -/

theorem obey_follows_self (gaveUp : Halt → Prop) (obey : Obey) (p : Place) (t : Tag) (v : Value)
    (j j' : Journal) (hj : j = j') : (obey p t v j).Follows gaveUp Eq (obey p t v j') := by
  subst hj
  exact Or.inr ⟨rfl, rfl, rfl⟩

theorem eq_of_follows {w w' : Work Value} (h : w.Follows (· = .exhausted) Eq w')
    (hend : w.result ≠ .error .exhausted) : w' = w := by
  rcases h with ⟨e, rfl, hr⟩ | ⟨hv, hr, hj⟩
  · exact absurd hr hend
  · rcases w with ⟨v, j, res⟩
    rcases w' with ⟨v', j', res'⟩
    simp only at hv hr hj
    rw [hv, hr, hj]

/-- A walk that was not cut off goes the same way if it may go deeper. -/
theorem walk_deeper (r : Rules) (memo : Memo) (schema : Schema) {depth depth' : Nat}
    (hle : depth ≤ depth') (v : Value)
    (hend : (walk r memo schema depth v).result ≠ .error .exhausted) :
    walk r memo schema depth' v = walk r memo schema depth v := by
  have hfollows := walk_follows (obey_follows_self (· = .exhausted) r.obey)
    (fun _ _ _ _ hj => hj ▸ rfl) (rfl : (⟨memo, []⟩ : Journal) = _) schema (Or.inr ⟨hle, rfl⟩) v
  have hwork := eq_of_follows hfollows hend
  generalize walk r memo schema depth v = w at hwork
  generalize walk r memo schema depth' v = w' at hwork
  rcases w with ⟨res, x, m, es⟩
  rcases w' with ⟨res', x', m', es'⟩
  simp only [Walked.work, Work.mk.injEq, Journal.mk.injEq] at hwork
  rcases hwork with ⟨rfl, ⟨rfl, rfl⟩, rfl⟩
  rfl

/-! ## What is kept -/

section Keeping

variable {I : Journal → Prop}

/-- Work that is compared with itself, if all that counts is a property of the journal. -/
theorem follows_self_iff {α : Type} (w : Work α) :
    w.Follows (fun _ => False) (fun j j' => j = j' ∧ I j) w ↔ I w.journal := by
  constructor
  · rintro (⟨_, hfalse, _⟩ | ⟨_, _, _, hI⟩)
    · exact hfalse.elim
    · exact hI
  · intro hI
    exact Or.inr ⟨rfl, rfl, rfl, hI⟩

/-- What is kept wherever something is entered is kept by going into a value. -/
theorem descend_keeps {go : Enter} (hgo : ∀ path around v j, I j → I (go path around v j).journal)
    (path : Path) (around : Value → Value) (v : Value) {j : Journal} (hj : I j) :
    I (descend go path around v j).journal := by
  have hself : ∀ path around v j j', (j = j' ∧ I j) →
      (go path around v j).Follows (fun _ => False) (fun j j' => j = j' ∧ I j)
        (go path around v j') := by
    rintro path around v j _ ⟨rfl, hj⟩
    exact (follows_self_iff _).2 (hgo path around v j hj)
  exact (follows_self_iff _).1 (descend_follows hself path around v ⟨rfl, hj⟩)

section Obeying

variable {obey : Obey} (hobey : ∀ p t v j, I j → I (obey p t v j).journal)
  (hnote : ∀ e j, e.isRemark = true → I j → I (j.note [e]))

include hobey in
theorem obey_follows_of_keeps (p : Place) (t : Tag) (v : Value) (j j' : Journal)
    (hj : j = j' ∧ I j) : (obey p t v j).Follows (fun _ => False) (fun j j' => j = j' ∧ I j)
      (obey p t v j') := by
  rcases hj with ⟨rfl, hj⟩
  exact (follows_self_iff _).2 (hobey p t v j hj)

include hnote in
theorem note_of_keeps (e : Event) (j j' : Journal) (he : e.isRemark = true)
    (hj : j = j' ∧ I j) : j.note [e] = j'.note [e] ∧ I (j.note [e]) := by
  rcases hj with ⟨rfl, hj⟩
  exact ⟨rfl, hnote e j he hj⟩

include hobey hnote

/-- What is kept by every tag that is obeyed is kept by entering records. -/
theorem enter_keeps (schema : Schema) (depth : Nat) (path : Path) (around : Value → Value)
    (v : Value) {j : Journal} (hj : I j) :
    I (enter obey schema depth path around v j).journal :=
  (follows_self_iff _).1 (enter_follows (obey_follows_of_keeps hobey) (note_of_keeps hnote) schema
    (Or.inl rfl) path around v ⟨rfl, hj⟩)

end Obeying

/-- What is kept by every tag that is obeyed is kept by walks. -/
theorem walk_keeps {r : Rules} {memo : Memo}
    (hobey : ∀ p t v j, I j → I (r.obey p t v j).journal)
    (hnote : ∀ e j, e.isRemark = true → I j → I (j.note [e])) (hstart : I ⟨memo, []⟩)
    (schema : Schema) (depth : Nat) (v : Value) :
    I (walk r memo schema depth v).work.journal :=
  (follows_self_iff _).1 (walk_follows (obey_follows_of_keeps hobey) (note_of_keeps hnote)
    ⟨rfl, hstart⟩ schema (Or.inl (rfl : depth = depth)) v)

end Keeping

end Nested

end FieldNotes
