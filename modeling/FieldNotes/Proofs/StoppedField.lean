import FieldNotes.Proofs.Alike
import FieldNotes.Proofs.Follows
import FieldNotes.Proofs.Stops

/-! # Walks that are kept out of one field

A field of a record type is given one more tag, which stops walks.  A walk of the same value then
does the same as before, but for what it did in the values of this field.

* `Marks` says which calls were made in the values of the field, and `unmarked` leaves them out.
* `Work.OmitsMarked` compares the work that was done before with the work that is done now.
* `Nested.row_omits`, `Nested.descend_omits`, `Nested.visit_omits`: the parts of walks, where
  both walks go the same way.
* `Nested.descend_alone_omits`, `Nested.visit_stopped_omits`: where only the first walk goes down.
* `Nested.enter_omits`: a walk that is kept out of the field does the rest of the work.
-/

namespace FieldNotes

open Walk (Journal)

/-! ## Calls -/

/-- A handler that goes by the context, the value and the name of its field, and its argument. -/
def Handler.Local (h : Handler) : Prop :=
  ∀ (site site' : Site) (arg : Arg), site.context = site'.context → site.value = site'.value →
    site.field.name = site'.field.name →
    (h.run site arg).value = (h.run site' arg).value ∧
      (h.run site arg).outcome = (h.run site' arg).outcome

/-- A field without its row of tags. -/
def Field.bare (f : Field) : Field :=
  { f with row := "" }

/-- A call without the row of tags of its field, but still with the tag that it was made for. -/
def Call.bare (c : Call) : Call :=
  { c with field := c.field.bare }

/-- The calls that are not marked. -/
def unmarked (marked : List (Call × Bool)) : List Call :=
  (marked.filter fun m => !m.2).map fun m => m.1.bare

theorem unmarked_append (marked more : List (Call × Bool)) :
    unmarked (marked ++ more) = unmarked marked ++ unmarked more := by
  rw [unmarked, List.filter_append, List.map_append]
  rfl

/-- A call is marked if it was made in the value of the field. -/
def Marks (record : String) (i : Nat) (here : Bool) (path : Path) (v : Value) (m : Call × Bool) :
    Prop :=
  ∃ q, m.1.path = path ++ q ∧ m.2 = v.leadsInto record i here q

/-- A call on the value itself is not marked. -/
theorem Marks.here {record : String} {i : Nat} {here : Bool} {path : Path} {m : Call × Bool}
    (x : Value) (hm : m.1.path = path ∧ m.2 = false) : Marks record i here path x m := by
  rcases hm with ⟨hpath, hmark⟩
  exact ⟨[], by rw [hpath, List.append_nil], hmark⟩

/-- What is marked behind a step that is none to a field is marked. -/
theorem Marks.behind {record : String} {i : Nat} {s : Step} {x y : Value} {path : Path}
    {m : Call × Bool} (hs : ¬ s.IsField) (hx : y.child? s = some x)
    (h : Marks record i false (path ++ [s]) x m) : Marks record i false path y m := by
  rcases h with ⟨q, hpath, hmark⟩
  refine ⟨s :: q, ?_, ?_⟩
  · rw [hpath, List.append_assoc]
    rfl
  · rw [hmark, Value.leadsInto_cons hx, Value.hasField_of_not_isField hs]

/-! ## Two pieces of work -/

/-- The first work added some calls to its journal, of which some are marked, and the second work
added the others to its own.  If the first one came to its end, so did the second, with the values
in the relation `V` and memos that agree; if not, the second work may have gone on. -/
def Work.OmitsMarked {α : Type} (handler? : String → Option Handler) (V : α → α → Prop)
    (P : α → Call × Bool → Prop) (j j' : Journal) (w w' : Work α) : Prop :=
  ∃ marked cs, j.Adds (marked.map (·.1)) w.journal ∧ j'.Adds cs w'.journal ∧
    (∀ m ∈ marked, P w.value m) ∧ unmarked marked <+: cs.map Call.bare ∧
    (w.result = .ok () → w'.result = .ok () ∧ V w.value w'.value ∧
      w.journal.memo.Agree handler? w'.journal.memo ∧ cs.map Call.bare = unmarked marked)

namespace Work.OmitsMarked

variable {α β : Type} {handler? : String → Option Handler} {V : α → α → Prop} {U : β → β → Prop}
  {P : α → Call × Bool → Prop} {Q : β → Call × Bool → Prop} {j j' : Journal}

/-- Work without calls. -/
theorem of_silent {w w' : Work α} (hj : j.Adds [] w.journal) (hj' : j'.Adds [] w'.journal)
    (hend : w.result = .ok () → w'.result = .ok () ∧ V w.value w'.value ∧
      w.journal.memo.Agree handler? w'.journal.memo) : w.OmitsMarked handler? V P j j' w' := by
  refine ⟨[], [], hj, hj', List.forall_mem_nil _, List.prefix_rfl, ?_⟩
  intro hok
  rcases hend hok with ⟨hok', hV, hagree⟩
  exact ⟨hok', hV, hagree, rfl⟩

theorem done {v v' : α} (hV : V v v') (hagree : j.memo.Agree handler? j'.memo) :
    (Work.done v j).OmitsMarked handler? V P j j' (Work.done v' j') :=
  of_silent (.refl j) (.refl j') fun _ => ⟨rfl, hV, hagree⟩

theorem map {w w' : Work α} (h : w.OmitsMarked handler? V P j j' w') (f f' : α → β)
    (hV : ∀ v v', V v v' → U (f v) (f' v')) (hP : ∀ v m, P v m → Q (f v) m) :
    (w.map f).OmitsMarked handler? U Q j j' (w'.map f') := by
  rcases h with ⟨marked, cs, hj, hj', hmarked, hfirst, hend⟩
  refine ⟨marked, cs, hj, hj', fun m hm => hP _ m (hmarked m hm), hfirst, ?_⟩
  intro hok
  rcases hend hok with ⟨hok', hvalues, hagree, hcs⟩
  exact ⟨hok', hV _ _ hvalues, hagree, hcs⟩

theorem andThen {w w' : Work α} (h : w.OmitsMarked handler? V P j j' w') {stop stop' : α → β}
    {next next' : α → Journal → Work β} (hstop : ∀ v m, P v m → Q (stop v) m)
    (hkeep : ∀ v k m, P v m → Q (next v k).value m)
    (hgrows : ∀ v k, (next' v k).Grows k)
    (hnext : ∀ v v' k k', V v v' → k.memo.Agree handler? k'.memo →
      (next v k).OmitsMarked handler? U Q k k' (next' v' k')) :
    (w.andThen stop next).OmitsMarked handler? U Q j j' (w'.andThen stop' next') := by
  rcases h with ⟨marked, cs, hj, hj', hmarked, hfirst, hend⟩
  rcases w.done_or_halt with ⟨v, k, rfl⟩ | ⟨e, v, k, rfl⟩
  · -- both go on
    rcases hend rfl with ⟨hok', hV, hagree, hcs⟩
    rcases w'.done_or_halt with ⟨v', k', rfl⟩ | ⟨e, v', k', rfl⟩
    · rcases hnext v v' k k' hV hagree with ⟨more, ds, hk, hk', hlater, hfirst', hend'⟩
      refine ⟨marked ++ more, cs ++ ds, ?_, hj'.trans hk', ?_, ?_, ?_⟩
      · rw [List.map_append]
        exact hj.trans hk
      · exact List.forall_mem_append.2 ⟨fun m hm => hkeep v k m (hmarked m hm), hlater⟩
      · rw [List.map_append, unmarked_append, hcs]
        exact (List.prefix_append_right_inj _).2 hfirst'
      · intro hok
        rcases hend' hok with ⟨hok'', hU, hagree', hds⟩
        refine ⟨hok'', hU, hagree', ?_⟩
        rw [List.map_append, unmarked_append, hcs, hds]
    · cases hok'
  · -- the first ends here, and the second may add more calls
    have hall : ∃ ds, j'.Adds (cs ++ ds) (w'.andThen stop' next').journal := by
      rcases w'.done_or_halt with ⟨v', k', rfl⟩ | ⟨e', v', k', rfl⟩
      · rcases hgrows v' k' with ⟨ds, hk'⟩
        exact ⟨ds, hj'.trans hk'⟩
      · exact ⟨[], (List.append_nil cs).symm ▸ hj'⟩
    rcases hall with ⟨ds, hall⟩
    refine ⟨marked, cs ++ ds, hj, hall, fun m hm => hstop v m (hmarked m hm), ?_, nofun⟩
    rw [List.map_append]
    exact hfirst.trans (List.prefix_append _ _)

end Work.OmitsMarked

/-! ## Parts of walks -/

namespace Nested

open Work (OmitsMarked)

variable {handler? : String → Option Handler}

/-- Two rows of values that are related one by one. -/
def Rows (V : Nat → Value → Value → Prop) (i : Nat) (vs vs' : List Value) : Prop :=
  vs'.length = vs.length ∧
    ∀ k x x', vs[k]? = some x → vs'[k]? = some x' → V (i + k) x x'

theorem row_omits {V : Nat → Value → Value → Prop} {P : Nat → Value → Call × Bool → Prop}
    {work work' : Nat → (Value → Value) → Value → Journal → Work Value}
    (h : ∀ i around around' v j j', j.memo.Agree handler? j'.memo →
      (work i around v j).OmitsMarked handler? (V i) (P i) j j' (work' i around' v j'))
    (hgrows : ∀ i around v j, (work' i around v j).Grows j)
    (i : Nat) (around around' : List Value → Value) (vs : List Value) {j j' : Journal}
    (hagree : j.memo.Agree handler? j'.memo) :
    (row work i around vs j).OmitsMarked handler? (Rows V i)
      (fun ws m => ∃ k x, ws[k]? = some x ∧ P (i + k) x m) j j' (row work' i around' vs j') := by
  induction vs generalizing i around around' j j' with
  | nil => exact .done ⟨rfl, fun k x x' hx => by cases hx⟩ hagree
  | cons v vs ih =>
    have hhead (x : Value) (xs : List Value) (m : Call × Bool) (hm : P i x m) :
        ∃ k y, (x :: xs)[k]? = some y ∧ P (i + k) y m := ⟨0, x, rfl, hm⟩
    have hmore (around : List Value → Value) (k : Journal) :
        (row work' (i + 1) around vs k).Grows k :=
      (row_calls (fun i around v j => (hgrows i around v j).calls) (i + 1) around vs k).grows
    -- the second row goes on from a memo that still agrees with that of the first one
    refine (h i (fun x => around (x :: vs)) (fun x => around' (x :: vs)) v j j' hagree).andThen
      (fun x m => hhead x vs m) (fun x k m => hhead x _ m) (fun x k => hmore _ k) ?_
    intro x x' k k' hx hagree'
    refine (ih (i + 1) (fun xs => around (x :: xs)) (fun xs => around' (x' :: xs)) hagree').map
      (x :: ·) (x' :: ·) ?_ ?_
    · rintro xs xs' ⟨hlength, hxs⟩
      refine ⟨congrArg (· + 1) hlength, ?_⟩
      intro n y y' hy hy'
      cases n with
      | zero =>
        rcases Option.some.inj hy with rfl
        rcases Option.some.inj hy' with rfl
        exact hx
      | succ n =>
        have hindex : i + (n + 1) = i + 1 + n := by omega
        exact hindex ▸ hxs n y y' hy hy'
    · rintro xs m ⟨n, y, hy, hm⟩
      have hindex : i + 1 + n = i + (n + 1) := by omega
      exact ⟨n + 1, y, hy, hindex ▸ hm⟩

/-! ## Tags -/

section Tags

variable {d : Dispatcher} (hlocal : ∀ n h, d.handler? n = some h → h.Local) (context : Context)
  {p q : Place} (hpath : q.path = p.path) (hindex : q.index = p.index)
  (hfield : q.field.bare = p.field.bare)

include hlocal hpath hindex hfield

/-- For a tag of a field the same is done, whatever stands around the value of the field. -/
theorem obey_omits (t : Tag) (v : Value) {j j' : Journal}
    (hagree : j.memo.Agree d.handler? j'.memo) :
    ((d.rules context).obey p t v j).OmitsMarked d.handler? (fun x x' => x' = x)
      (fun _ m => m.1.path = p.path ∧ m.2 = false) j j' ((d.rules context).obey q t v j') := by
  unfold Rules.obey
  split
  · exact .done rfl hagree
  · cases hh : (d.rules context).handler? t.name with
    | none => exact .done rfl hagree
    | some h =>
      have hhandler : d.handler? t.name = some h := hh
      have hcalls : calls ((d.rules context).ask j.memo h t).events = [] := Memo.calls_ask _ h t
      have hcalls' : calls ((d.rules context).ask j'.memo h t).events = [] := Memo.calls_ask _ h t
      have hsame : ((d.rules context).ask j'.memo h t).result =
          ((d.rules context).ask j.memo h t).result := (hagree t h hhandler).symm
      simp only [hsame]
      cases ((d.rules context).ask j.memo h t).result with
      | error f => exact .of_silent ⟨_, rfl, hcalls⟩ ⟨_, rfl, hcalls'⟩ nofun
      | ok arg =>
        -- the handler finds the same but for the root and the row of the field
        have hname : q.field.name = p.field.name := by
          have hnames := congrArg Field.name hfield
          exact hnames
        have heffect := hlocal t.name h hhandler
          ⟨context, p.around v, p.path, p.index, p.field, v⟩
          ⟨context, q.around v, q.path, q.index, q.field, v⟩ arg rfl rfl hname.symm
        have hbare : [(⟨q.path, q.index, q.field, t, arg⟩ : Call)].map Call.bare =
            unmarked [(⟨p.path, p.index, p.field, t, arg⟩, false)] := by
          show [Call.bare _] = [Call.bare _]
          simp only [Call.bare, hpath, hindex, hfield]
        refine ⟨[(⟨p.path, p.index, p.field, t, arg⟩, false)],
          [⟨q.path, q.index, q.field, t, arg⟩], ⟨_, List.append_assoc _ _ _, ?_⟩,
          ⟨_, List.append_assoc _ _ _, ?_⟩, List.forall_mem_singleton.2 ⟨rfl, rfl⟩, ?_, ?_⟩
        · rw [calls_append, hcalls, calls_append, calls_reported]
          rfl
        · rw [calls_append, hcalls', calls_append, calls_reported]
          rfl
        · exact ⟨[], by rw [hbare, List.append_nil]⟩
        · intro hok
          have hdone := Rules.ending_eq_ok hok
          refine ⟨?_, heffect.1.symm, ?_, hbare⟩
          · have hdone' := heffect.2.symm.trans hdone
            exact congrArg ((d.rules context).ending q.field t) hdone'
          · exact (Memo.Agree.of_ask hhandler).trans
              (hagree.trans (Memo.Agree.of_ask hhandler).symm)

theorem obeyAll_omits (ts : List Tag) (v : Value) {j j' : Journal}
    (hagree : j.memo.Agree d.handler? j'.memo) :
    (obeyAll (d.rules context).obey p ts v j).OmitsMarked d.handler? (fun x x' => x' = x)
      (fun _ m => m.1.path = p.path ∧ m.2 = false) j j'
      (obeyAll (d.rules context).obey q ts v j') := by
  induction ts generalizing v j j' with
  | nil => exact .done rfl hagree
  | cons t ts ih =>
    refine (obey_omits hlocal context hpath hindex hfield t v hagree).andThen (fun _ _ hm => hm)
      (fun _ _ _ hm => hm) (fun x k => (obeyAll_calls d context q ts x k).grows) ?_
    rintro x x' k k' rfl hagree'
    exact ih x' hagree'

end Tags

/-! ## Going down -/

variable {record : String} {i : Nat}

section Entering

variable {go go' : Enter}
  (hgo : ∀ path around around' v j j', j.memo.Agree handler? j'.memo →
    (go path around v j).OmitsMarked handler? (Value.Alike record i false)
      (Marks record i false path) j j' (go' path around' v j'))

include hgo

theorem ifRecord_omits (path : Path) (around around' : Value → Value) (v : Value)
    {j j' : Journal} (hagree : j.memo.Agree handler? j'.memo) :
    (ifRecord go path around v j).OmitsMarked handler? (Value.Alike record i false)
      (Marks record i false path) j j' (ifRecord go' path around' v j') := by
  unfold ifRecord
  split
  · exact hgo path around around' v j j' hagree
  · exact .done (.refl false v) hagree

variable (hgrows : ∀ path around v j, (go' path around v j).Grows j)

include hgrows

/-- What a value holds is entered by both in the same way. -/
theorem descend_omits (path : Path) (around around' : Value → Value) (v : Value)
    {j j' : Journal} (hagree : j.memo.Agree handler? j'.memo) :
    (descend go path around v j).OmitsMarked handler? (Value.Alike record i false)
      (Marks record i false path) j j' (descend go' path around' v j') := by
  have hpointer (wrap : Value → Value) (v : Value) (around around' : Value → Value)
      (hwrap : ∀ x, (wrap x).child? .deref = some x)
      (halike : ∀ x x', Value.Alike record i false x x' →
        Value.Alike record i false (wrap x) (wrap x')) :
      ((ifRecord go (path ++ [.deref]) around v j).map wrap).OmitsMarked handler?
        (Value.Alike record i false) (Marks record i false path) j j'
        ((ifRecord go' (path ++ [.deref]) around' v j').map wrap) :=
    (ifRecord_omits hgo _ around around' v hagree).map wrap wrap halike fun x m hm =>
      hm.behind id (hwrap x)
  have hitems (wrap : List Value → Value) (vs : List Value) (around around' : List Value → Value)
      (hwrap : ∀ (ws : List Value) k, (wrap ws).child? (.index k) = ws[k]?)
      (halike : ∀ ws ws', Rows (fun _ => Value.Alike record i false) 0 ws ws' →
        Value.Alike record i false (wrap ws) (wrap ws')) :
      ((row (fun k => ifRecord go (path ++ [.index k])) 0 around vs j).map wrap).OmitsMarked
        handler? (Value.Alike record i false) (Marks record i false path) j j'
        ((row (fun k => ifRecord go' (path ++ [.index k])) 0 around' vs j').map wrap) := by
    have hrow := row_omits
      (fun k around around' v j j' h => ifRecord_omits hgo (path ++ [.index k]) around around' v h)
      (fun k around v j => (ifRecord_calls (fun path around v j =>
        (hgrows path around v j).calls) (path ++ [.index k]) around v j).grows)
      0 around around' vs hagree
    refine hrow.map wrap wrap halike ?_
    -- a call that is marked in an item is marked behind the item
    rintro ws m ⟨k, x, hx, hm⟩
    rw [Nat.zero_add] at hm
    exact hm.behind id ((hwrap ws k).trans hx)
  cases v with
  | record name vs => exact hgo path around around' _ j j' hagree
  | present v => exact hpointer .present v _ _ (fun _ => rfl) fun x x' h => .present h
  | owned v => exact hpointer .owned v _ _ (fun _ => rfl) fun x x' h => .owned h
  | list t vs =>
    exact hitems (.list t) vs _ _ (fun _ _ => rfl) fun ws ws' h =>
      .list h.1 t fun k x x' => h.2 k x x'
  | array t vs =>
    exact hitems (.array t) vs _ _ (fun _ _ => rfl) fun ws ws' h =>
      .array h.1 t fun k x x' => h.2 k x x'
  | scalar d => exact .done (.refl false _) hagree
  | sealed name d => exact .done (.refl false _) hagree
  | nil t => exact .done (.refl false _) hagree

end Entering

/-! ## Going down in one walk only -/

theorem length_row (work : Nat → (Value → Value) → Value → Journal → Work Value) (i : Nat)
    (around : List Value → Value) (vs : List Value) (j : Journal) :
    (row work i around vs j).value.length = vs.length := by
  induction vs generalizing i around j with
  | nil => rfl
  | cons v vs ih =>
    unfold row
    rcases (work i (fun x => around (x :: vs)) v j).done_or_halt with
      ⟨x, k, hw⟩ | ⟨e, x, k, hw⟩
    · rw [hw, Work.andThen_done]
      exact congrArg (· + 1) (ih (i + 1) (fun xs => around (x :: xs)) k)
    · rw [hw]
      rfl

/-- Records that are entered stay records of their type. -/
theorem outline_enter (obey : Obey) (schema : Schema) (depth : Nat) (path : Path)
    (around : Value → Value) (v : Value) (j : Journal) :
    (enter obey schema depth path around v j).value.outline = v.outline := by
  cases depth with
  | zero => rfl
  | succ depth =>
    cases v with
    | record name vs => exact congrArg (Outline.record name) (length_row _ 0 _ vs j)
    | _ => rfl

theorem outline_descend {go : Enter}
    (hgo : ∀ path around v j, (go path around v j).value.outline = v.outline) (path : Path)
    (around : Value → Value) (v : Value) (j : Journal) :
    (descend go path around v j).value.outline = v.outline := by
  cases v with
  | record name vs => exact hgo path around _ j
  | list t vs => exact congrArg (Outline.list t) (length_row _ 0 _ vs j)
  | array t vs => exact congrArg (Outline.array t) (length_row _ 0 _ vs j)
  | _ => rfl

section Walks

variable {d : Dispatcher} (hlocal : ∀ n h, d.handler? n = some h → h.Local) (context : Context)
  (schema : Schema)

/-- To obey a tag leaves a memo from which the same arguments are got. -/
theorem obey_agrees {m : Memo} (p : Place) (t : Tag) (v : Value) (j : Journal)
    (hagree : j.memo.Agree d.handler? m) :
    ((d.rules context).obey p t v j).journal.memo.Agree d.handler? m := by
  rcases (d.rules context).obey_cases p t v j with
    heq | ⟨h, -, hh, ⟨arg, -, heq⟩ | ⟨f, -, heq⟩⟩ <;> rw [heq]
  · exact hagree
  · exact (Memo.Agree.of_ask hh).trans hagree
  · exact (Memo.Agree.of_ask hh).trans hagree

theorem grows_enter (depth : Nat) (path : Path) (around : Value → Value) (v : Value)
    (j : Journal) : (enter (d.rules context).obey schema depth path around v j).Grows j :=
  (enter_calls d context schema depth path around v j).grows

theorem grows_descend (depth : Nat) (path : Path) (around : Value → Value) (v : Value)
    (j : Journal) :
    (descend (enter (d.rules context).obey schema depth) path around v j).Grows j :=
  (descend_calls (Q := fun _ _ => True) (enter_calls d context schema depth) path around v j
    (fun _ _ _ => trivial) fun _ _ _ _ _ _ _ => trivial).grows

/-- What is entered by the first walk only is marked, and leaves the outline of the value. -/
theorem descend_alone_omits {i : Nat} {record : String} (depth : Nat) (path : Path)
    (around : Value → Value) (x : Value) {k k' : Journal} (hagree : k.memo.Agree d.handler? k'.memo)
    (es : List Event) (hes : calls es = []) :
    (descend (enter (d.rules context).obey schema depth) path around x k).OmitsMarked d.handler?
      (Value.Alike record i true) (Marks record i true path) k k'
      (Work.done x (k'.note es)) := by
  -- all calls are further down
  have hcalls := descend_calls (enter_calls d context schema depth) path around x k
    (Q := fun _ c => ∃ s q, c.path = path ++ s :: q) (by
      rintro y c ⟨q, hpath, hreach⟩
      rcases hreach.exists_field with ⟨_, _, n, rest, _, rfl⟩
      exact ⟨.field n, rest, hpath⟩) (by
      rintro s y z c _ _ ⟨q, hpath, _⟩
      refine ⟨s, q, ?_⟩
      rw [hpath, List.append_assoc]
      rfl)
  have hmemo := descend_keeps (I := fun j => j.memo.Agree d.handler? k'.memo)
    (fun path around v j hj => enter_keeps (obey_agrees context) (fun e j _ hj => hj) schema depth
      path around v hj) path around x hagree
  have houtline := outline_descend (outline_enter (d.rules context).obey schema depth) path around
    x k
  rcases hcalls with ⟨cs, hadds, hbelow⟩
  have hnone : unmarked (cs.map fun c => (c, true)) = [] := by
    simp [unmarked, List.filter_map]
  refine ⟨cs.map fun c => (c, true), [], ?_, ⟨es, rfl, hes⟩, ?_, ?_, ?_⟩
  · rw [List.map_map]
    exact (List.map_id cs).symm ▸ hadds
  · refine List.forall_mem_map.2 fun c hc => ?_
    rcases hbelow c hc with ⟨s, q, hpath⟩
    exact ⟨s :: q, hpath, by rw [Value.leadsInto, Bool.true_or]⟩
  · rw [hnone]
    exact List.nil_prefix
  · intro _
    exact ⟨rfl, .of_outline houtline.symm, hmemo, hnone.symm⟩

/-- The tag that stops walks asks for nothing else. -/
theorem obeyAll_append_dash (r : Rules) (p : Place) (ts : List Tag) (v : Value) (j : Journal) :
    obeyAll r.obey p (ts ++ [Tag.dash]) v j = obeyAll r.obey p ts v j := by
  induction ts generalizing v j with
  | nil =>
    have hdash : Tag.dash.isStop = true := rfl
    simp only [List.nil_append, obeyAll, Rules.obey, hdash, if_true, Work.andThen_done]
  | cons t ts ih =>
    have hrest : obeyAll r.obey p (ts ++ [Tag.dash]) = obeyAll r.obey p ts := by
      funext v j
      exact ih v j
    rw [List.cons_append, obeyAll, obeyAll, hrest]

variable {record : String} {i : Nat} {gap : String}
  (hgap : ∀ c ∈ gap.toList, Text.isAsciiBlank c = true)

section Visiting

variable {depth : Nat}
  (hgo : ∀ path around around' v j j', j.memo.Agree d.handler? j'.memo →
    (enter (d.rules context).obey schema depth path around v j).OmitsMarked d.handler?
      (Value.Alike record i false) (Marks record i false path) j j'
      (enter (d.rules context).obey (schema.stopped record i gap) depth path around' v j'))
  (path : Path) (index : Nat) (f : Field) (around around' : Value → Value) (v : Value)
  {j j' : Journal} (hagree : j.memo.Agree d.handler? j'.memo)

include hlocal hagree

include hgo in
/-- Any other field is visited by both walks in the same way. -/
theorem visit_omits :
    (visit (d.rules context).obey (enter (d.rules context).obey schema depth)
      ⟨path, index, f, around⟩ v j).OmitsMarked d.handler? (Value.Alike record i false)
      (Marks record i false path) j j'
      (visit (d.rules context).obey
        (enter (d.rules context).obey (schema.stopped record i gap) depth)
        ⟨path, index, f, around'⟩ v j') := by
  have hobeyed := obeyAll_omits hlocal context (p := ⟨path, index, f, around⟩)
    (q := ⟨path, index, f, around'⟩) rfl rfl rfl (Tag.ofRow f.row) v hagree
  refine hobeyed.andThen (fun x m => Marks.here x) (fun x k m => Marks.here _) ?_ ?_
  · intro x k
    cases (Tag.ofRow f.row).any Tag.isStop with
    | true => exact ⟨[], _, rfl, rfl⟩
    | false => exact grows_descend context (schema.stopped record i gap) depth path around' x k
  · rintro x x' k k' rfl hagree'
    cases (Tag.ofRow f.row).any Tag.isStop with
    | true => exact .of_silent ⟨_, rfl, rfl⟩ ⟨_, rfl, rfl⟩ fun _ => ⟨rfl, .refl false _, hagree'⟩
    | false =>
      exact descend_omits hgo (grows_enter context (schema.stopped record i gap) depth) path
        around around' x' hagree'

include hgap in
/-- The field that is meant is visited by the second walk without going on into its value. -/
theorem visit_stopped_omits (hrow : Tag.ReadThrough f.row) (go' : Enter) :
    (visit (d.rules context).obey (enter (d.rules context).obey schema depth)
      ⟨path, index, f, around⟩ v j).OmitsMarked d.handler? (Value.Alike record i true)
      (Marks record i true path) j j'
      (visit (d.rules context).obey go' ⟨path, index, f.stopped gap, around'⟩ v j') := by
  have hobeyed := obeyAll_omits hlocal context (p := ⟨path, index, f, around⟩)
    (q := ⟨path, index, f.stopped gap, around'⟩) rfl rfl rfl (Tag.ofRow f.row) v hagree
  have htags := Field.ofRow_stopped hrow hgap
  have hstop : (Tag.ofRow f.row ++ [Tag.dash]).any Tag.isStop = true := by
    rw [List.any_append]
    exact Bool.or_true _
  unfold visit
  simp only [htags, hstop, if_true, obeyAll_append_dash]
  refine hobeyed.andThen (fun x m => Marks.here x) (fun x k m => Marks.here _)
    (fun x k => ⟨[], _, rfl, rfl⟩) ?_
  rintro x x' k k' rfl hagree'
  cases (Tag.ofRow f.row).any Tag.isStop with
  | true => exact .of_silent ⟨_, rfl, rfl⟩ ⟨_, rfl, rfl⟩ fun _ => ⟨rfl, .refl true _, hagree'⟩
  | false =>
    exact descend_alone_omits context schema depth path around x' hagree' _ rfl

end Visiting

variable (hrow : ∀ f, (schema.fields record)[i]? = some f → Tag.ReadThrough f.row)

include hlocal hgap hrow

/-- The fields of a record are visited by both walks, but for the values of the field that is
meant. -/
theorem member_omits {depth : Nat}
    (hgo : ∀ path around around' v j j', j.memo.Agree d.handler? j'.memo →
      (enter (d.rules context).obey schema depth path around v j).OmitsMarked d.handler?
        (Value.Alike record i false) (Marks record i false path) j j'
        (enter (d.rules context).obey (schema.stopped record i gap) depth path around' v j'))
    (name : String) (path : Path) (k : Nat) (around around' : Value → Value) (v : Value)
    {j j' : Journal} (hagree : j.memo.Agree d.handler? j'.memo) :
    (member (d.rules context).obey (enter (d.rules context).obey schema depth)
      (schema.fields name) path k around v j).OmitsMarked d.handler?
      (Value.Alike record i (name == record && k == i))
      (Marks record i (name == record && k == i) (path ++ [.field k])) j j'
      (member (d.rules context).obey
        (enter (d.rules context).obey (schema.stopped record i gap) depth)
        ((schema.stopped record i gap).fields name) path k around' v j') := by
  unfold member
  rw [schema.getElem?_fields_stopped]
  cases hf : (schema.fields name)[k]? with
  | none => exact .done (.refl _ v) hagree
  | some f =>
    have hexported : (f.stopped gap).exported = f.exported := rfl
    -- the schemas differ in the row of the one field that is meant
    cases hmeant : (name == record && k == i) with
    | false =>
      have hother : ¬ (name = record ∧ k = i) := by simpa using hmeant
      simp only [Option.map_some, if_neg hother]
      split
      · exact visit_omits hlocal context schema hgo _ k f around around' v hagree
      · exact .done (.refl false v) hagree
    | true =>
      have hthis : name = record ∧ k = i := by simpa using hmeant
      simp only [Option.map_some, if_pos hthis, hexported]
      split
      · rcases hthis with ⟨rfl, rfl⟩
        exact visit_stopped_omits hlocal context schema hgap _ k f around around' v hagree
          (hrow f hf) _
      · exact .done (.refl true v) hagree

/-- A walk that is kept out of a field does what the walk of the same value does otherwise. -/
theorem enter_omits (depth : Nat) (path : Path) (around around' : Value → Value) (v : Value)
    (j j' : Journal) (hagree : j.memo.Agree d.handler? j'.memo) :
    (enter (d.rules context).obey schema depth path around v j).OmitsMarked d.handler?
      (Value.Alike record i false) (Marks record i false path) j j'
      (enter (d.rules context).obey (schema.stopped record i gap) depth path around' v j') := by
  induction depth generalizing path around around' v j j' with
  | zero => exact .of_silent (.refl j) (.refl j') nofun
  | succ depth ih =>
    cases v with
    | record name vs =>
      have hrows := row_omits
        (fun k around around' v j j' h => member_omits hlocal context schema hgap hrow ih name path
          k around around' v h)
        (fun k around v j => (member_calls d context (schema.stopped record i gap)
          (enter_calls d context (schema.stopped record i gap) depth)
          ((schema.stopped record i gap).fields name) path k around v j).grows)
        0 (fun xs => around (.record name xs)) (fun xs => around' (.record name xs)) vs hagree
      refine hrows.map (Value.record name) (Value.record name) ?_ ?_
      · rintro ws ws' ⟨hlength, hws⟩
        refine .fields hlength name ?_
        intro k x x' hx hx'
        rw [← Nat.zero_add k]
        exact hws k x x' hx hx'
      · rintro ws m ⟨k, x, hx, q, hpath, hmark⟩
        rw [Nat.zero_add] at hpath hmark
        have hchild : (Value.record name ws).child? (.field k) = some x := hx
        refine ⟨.field k :: q, ?_, ?_⟩
        · rw [hpath, List.append_assoc]
          rfl
        · rw [hmark, Value.leadsInto_cons hchild]
          rfl
    | _ => exact .done (.refl false _) hagree

end Walks

end Nested

end FieldNotes
