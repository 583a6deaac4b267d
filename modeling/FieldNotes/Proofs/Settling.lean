import FieldNotes.Proofs.Ahead
import FieldNotes.Proofs.Nested

/-! # Walks that come to an end

A walk that may go down any number of records comes to an end if, from some depth on, it is not cut
off, and going deeper does not change it.

* `Settles`: this is said of work that is given a depth.
* `Nested.enter_settles`: the walk through a record settles if, whatever the handlers leave in its
  fields, the walks through all records that are entered there settle.
-/

namespace FieldNotes

open Walk (Journal)

/-- From some depth on the work stays the same, and is not cut off. -/
def Settles {α : Type} (work : Nat → Work α) : Prop :=
  ∃ n w, w.result ≠ .error .exhausted ∧ ∀ m, n ≤ m → work m = w

namespace Settles

variable {α β : Type}

theorem const {w : Work α} (h : w.result ≠ .error .exhausted) : Settles fun _ => w :=
  ⟨0, w, h, fun _ _ => rfl⟩

theorem done (v : α) (j : Journal) : Settles fun _ => Work.done v j :=
  const nofun

theorem map {work : Nat → Work α} (h : Settles work) (f : α → β) :
    Settles fun m => (work m).map f := by
  rcases h with ⟨n, w, hw, hn⟩
  refine ⟨n, w.map f, hw, ?_⟩
  intro m hm
  show (work m).map f = w.map f
  rw [hn m hm]

theorem andThen {work : Nat → Work α} {next : Nat → α → Journal → Work β} (h : Settles work)
    (stop : α → β)
    (hnext : ∀ v j, (∃ m, work m = .done v j) → Settles fun m => next m v j) :
    Settles fun m => (work m).andThen stop (next m) := by
  rcases h with ⟨n, w, hw, hn⟩
  rcases w.done_or_halt with ⟨v, j, rfl⟩ | ⟨e, v, j, rfl⟩
  · -- the second part begins where the first one has settled
    rcases hnext v j ⟨n, hn n (Nat.le_refl n)⟩ with ⟨n', w', hw', hn'⟩
    refine ⟨max n n', w', hw', ?_⟩
    intro m hm
    show (work m).andThen stop (next m) = w'
    rw [hn m (le_trans (Nat.le_max_left n n') hm), Work.andThen_done]
    exact hn' m (le_trans (Nat.le_max_right n n') hm)
  · refine ⟨n, .halt e (stop v) j, hw, ?_⟩
    intro m hm
    show (work m).andThen stop (next m) = _
    rw [hn m hm, Work.andThen_halt]

/-- One record more to go down does not matter. -/
theorem of_succ {work : Nat → Work α} (h : Settles fun m => work (m + 1)) : Settles work := by
  rcases h with ⟨n, w, hw, hn⟩
  refine ⟨n + 1, w, hw, ?_⟩
  intro m hm
  obtain ⟨k, rfl⟩ : ∃ k, m = k + 1 := ⟨m - 1, by omega⟩
  exact hn k (by omega)

end Settles

namespace Nested

/-! ## Tags -/

namespace Rules

/-- No tag is obeyed with the end that is kept for the depth. -/
theorem obey_result (r : Rules) (p : Place) (t : Tag) (v : Value) (j : Journal) :
    (r.obey p t v j).result ≠ .error .exhausted := by
  have hending : ∀ o, r.ending p.field t o ≠ .error .exhausted := by
    intro o
    cases o <;> exact nofun
  rcases r.obey_cases p t v j with heq | ⟨h, -, -, ⟨arg, -, heq⟩ | ⟨f, -, heq⟩⟩ <;> rw [heq]
  · exact nofun
  · exact hending _
  · exact nofun

end Rules

/-! ## Going over values -/

theorem row_settles {work : Nat → Nat → (Value → Value) → Value → Journal → Work Value} {i : Nat}
    {vs : List Value}
    (h : ∀ k v, vs[k]? = some v → ∀ around j, Settles fun m => work m (i + k) around v j)
    (around : List Value → Value) (j : Journal) :
    Settles fun m => row (work m) i around vs j := by
  induction vs generalizing i around j with
  | nil => exact .done [] j
  | cons v vs ih =>
    refine (h 0 v rfl (fun x => around (x :: vs)) j).andThen (· :: vs) ?_
    intro x j' _
    refine (ih ?_ (fun xs => around (x :: xs)) j').map (x :: ·)
    intro k w hw around j
    have hrest := h (k + 1) w hw around j
    rwa [Nat.add_comm k 1, ← Nat.add_assoc] at hrest

variable {go : Nat → Enter}

theorem ifRecord_settles {v : Value}
    (h : v.isRecord = true → ∀ path around j, Settles fun m => go m path around v j) (path : Path)
    (around : Value → Value) (j : Journal) :
    Settles fun m => ifRecord (go m) path around v j := by
  simp only [ifRecord]
  split
  · rename_i hkind
    exact h (beq_iff_eq.2 hkind) path around j
  · exact .done v j

/-- Going down comes to an end if it does in every record that is entered. -/
theorem descend_settles {v : Value}
    (h : ∀ c ∈ v.entered, ∀ path around j, Settles fun m => go m path around c j) (path : Path)
    (around : Value → Value) (j : Journal) :
    Settles fun m => descend (go m) path around v j := by
  -- every item is entered as it stood in the sequence, whatever became of those before it
  have hitem : ∀ {vs : List Value},
      (∀ c ∈ vs.filter Value.isRecord, ∀ path around j, Settles fun m => go m path around c j) →
      ∀ k v, vs[k]? = some v → ∀ around j,
        Settles fun m => ifRecord (go m) (path ++ [.index (0 + k)]) around v j := by
    intro vs hvs k v hv around j
    refine ifRecord_settles ?_ _ around j
    intro hrecord
    exact hvs v (List.mem_filter.2 ⟨List.mem_of_getElem? hv, hrecord⟩)
  cases v with
  | record name vs => exact h _ List.mem_cons_self path around j
  | present v =>
    refine (ifRecord_settles ?_ _ _ j).map Value.present
    intro hrecord
    exact h v (List.mem_filter.2 ⟨List.mem_cons_self, hrecord⟩)
  | owned v =>
    refine (ifRecord_settles ?_ _ _ j).map Value.owned
    intro hrecord
    exact h v (List.mem_filter.2 ⟨List.mem_cons_self, hrecord⟩)
  | list t vs => exact (row_settles (hitem h) _ j).map (Value.list t)
  | array t vs => exact (row_settles (hitem h) _ j).map (Value.array t)
  | scalar d => exact .done _ j
  | sealed name d => exact .done _ j
  | nil t => exact .done _ j

section Obeying

variable {obey : Obey} (hobey : ∀ p t v j, (obey p t v j).result ≠ .error .exhausted)

include hobey

theorem obeyAll_result (p : Place) (ts : List Tag) (v : Value) (j : Journal) :
    (obeyAll obey p ts v j).result ≠ .error .exhausted := by
  induction ts generalizing v j with
  | nil => exact nofun
  | cons t ts ih =>
    have hfirst := hobey p t v j
    rw [obeyAll]
    rcases (obey p t v j).done_or_halt with ⟨x, j', hw⟩ | ⟨e, x, j', hw⟩
    · rw [hw, Work.andThen_done]
      exact ih x j'
    · rw [hw] at hfirst
      rw [hw, Work.andThen_halt]
      exact hfirst

theorem visit_settles {p : Place} {v : Value} {j : Journal}
    (h : (Tag.ofRow p.field.row).any Tag.isStop = false → ∀ w j',
      obeyAll obey p (Tag.ofRow p.field.row) v j = .done w j' →
        ∀ c ∈ w.entered, ∀ path around j, Settles fun m => go m path around c j) :
    Settles fun m => visit obey (go m) p v j := by
  -- the tags themselves take no depth; only what is entered after them does
  have hobeyed := Settles.const (obeyAll_result hobey p (Tag.ofRow p.field.row) v j)
  simp only [visit]
  refine hobeyed.andThen id ?_
  rintro w j' ⟨_, hw⟩
  cases hstop : (Tag.ofRow p.field.row).any Tag.isStop with
  | true =>
    simp only [if_true]
    exact .done w _
  | false =>
    simp only [Bool.false_eq_true, if_false]
    exact descend_settles (h hstop w j' hw) p.path p.around j'

/-- The walk through a record comes to an end if, whatever the handlers leave in its fields, it does
in every record that is entered there. -/
theorem enter_settles {schema : Schema} {name : String} {vs : List Value}
    (h : ∀ (p : Place) v, (schema.fields name)[p.index]? = some p.field → vs[p.index]? = some v →
      p.field.entered = true → ∀ j w j',
        obeyAll obey p (Tag.ofRow p.field.row) v j = .done w j' →
          ∀ c ∈ w.entered, ∀ path around j, Settles fun m => enter obey schema m path around c j)
    (path : Path) (around : Value → Value) (j : Journal) :
    Settles fun m => enter obey schema m path around (.record name vs) j := by
  refine Settles.of_succ ((row_settles ?_ _ j).map (Value.record name))
  intro i v hv around j
  rw [Nat.zero_add]
  simp only [member]
  cases hf : (schema.fields name)[i]? with
  | none => exact .done v j
  | some f =>
    cases hexported : f.exported with
    | false =>
      simp only [hexported, Bool.false_eq_true, if_false]
      exact .done v j
    | true =>
      simp only [hexported, if_true]
      refine visit_settles hobey ?_
      intro hstop w j' hw
      refine h ⟨path ++ [.field i], i, f, around⟩ v hf hv ?_ j w j' hw
      simp [Field.entered, hexported, hstop]

end Obeying

end Nested

end FieldNotes
