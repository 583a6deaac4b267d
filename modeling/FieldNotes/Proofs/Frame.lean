import Mathlib.Control.Monad.Basic
import FieldNotes.Proofs.Outline

/-! # What walks leave alone

A walk changes what its handlers write, and nothing else.  To know what is left alone one has to
know where handlers may be run: on exported fields of records that the walk enters, for tags that
stop nothing and have a handler; and it enters what a field holds where no tag of the field stops
it, directly, behind one pointer, or as an item of a sequence.

* `Reaches` says this of a value that a walk leaves, and `Reaches.cut` that it may be asked of any
  part of it.
* `Nested.enter_calls`, `Dispatcher.reaches`: so it is with the calls of walks.
* `Secluded` lists the places where no handler is run on its own account.
* `Dispatcher.walk_frame`: what is left alone by a walk, whatever comes of it.
-/

namespace FieldNotes

open Walk (Journal)

/-- A step to a field of a record. -/
def Step.IsField : Step → Prop
  | .field _ => True
  | _ => False

/-! ## Where handlers are run -/

/-- A path leads to the value of a field, on which a tag has its handler run.  It begins at a record
that is entered (`none`), or at the value of a field that is visited (`some f`). -/
inductive Reaches (d : Dispatcher) (schema : Schema) :
    Option Field → Value → Path → Field → Tag → Prop
  /-- Exported fields are visited. -/
  | member {name : String} {vs : List Value} {i : Nat} {f g : Field} {x : Value} {q : Path}
      {t : Tag} (hf : (schema.fields name)[i]? = some f) (hexported : f.exported = true)
      (hx : vs[i]? = some x) (h : Reaches d schema (some f) x q g t) :
      Reaches d schema none (.record name vs) (.field i :: q) g t
  /-- The tags of a field are obeyed. -/
  | here {f : Field} {x : Value} {t : Tag} (ht : t ∈ Tag.ofRow f.row) (hstop : t.isStop = false)
      (hbound : (d.handler? t.name).isSome = true) : Reaches d schema (some f) x [] f t
  /-- The value of a field is entered. -/
  | inside {f g : Field} {x : Value} {q : Path} {t : Tag}
      (hopen : (Tag.ofRow f.row).any Tag.isStop = false) (h : Reaches d schema none x q g t) :
      Reaches d schema (some f) x q g t
  /-- What a pointer leads to, or an item of a sequence, is entered. -/
  | behind {f g : Field} {x c : Value} {s : Step} {q : Path} {t : Tag}
      (hopen : (Tag.ofRow f.row).any Tag.isStop = false) (hs : ¬ s.IsField)
      (hc : x.child? s = some c) (h : Reaches d schema none c q g t) :
      Reaches d schema (some f) x (s :: q) g t

namespace Reaches

variable {d : Dispatcher} {schema : Schema} {from? : Option Field} {v x : Value} {p q : Path}
  {f g : Field} {t : Tag}

/-- From a part of the value on, the rest of the path leads to the same field. -/
theorem cut (h : Reaches d schema from? v (p ++ q) g t) (hx : v.get? p = some x) :
    ∃ from?, Reaches d schema from? x q g t := by
  generalize hall : p ++ q = all at h
  induction h generalizing p with
  | @member name vs i f g y r t hf hexported hy h ih =>
    cases p with
    | nil =>
      rcases Option.some.inj hx with rfl
      have hq : q = .field i :: r := hall
      exact ⟨none, hq ▸ .member hf hexported hy h⟩
    | cons s p =>
      rcases List.cons.inj hall with ⟨rfl, hrest⟩
      have hchild : (Value.record name vs).child? (.field i) = some y := hy
      rw [Value.get?_cons, hchild, Option.bind_some] at hx
      exact ih hx hrest
  | @here f y t ht hstop hbound =>
    rcases List.append_eq_nil_iff.1 hall with ⟨rfl, rfl⟩
    rcases Option.some.inj hx with rfl
    exact ⟨some f, .here ht hstop hbound⟩
  | @inside f g y r t hopen h ih =>
    exact ih hx hall
  | @behind f g y c s r t hopen hs hc h ih =>
    cases p with
    | nil =>
      rcases Option.some.inj hx with rfl
      have hq : q = s :: r := hall
      exact ⟨some f, hq ▸ .behind hopen hs hc h⟩
    | cons s' p =>
      rcases List.cons.inj hall with ⟨rfl, hrest⟩
      rw [Value.get?_cons, hc, Option.bind_some] at hx
      exact ih hx hrest

/-- Where records are entered, paths lead on by a field. -/
theorem exists_field (h : Reaches d schema none v q g t) :
    ∃ name vs i rest, v = .record name vs ∧ q = .field i :: rest := by
  cases h with
  | @member name vs i => exact ⟨name, vs, i, _, rfl, rfl⟩

/-- On the way, a record is left by an exported field.  If this is the field that is reached, the
tag is one of its own; if not, no tag of it stops the walk and its value is no scalar. -/
theorem field_of_record {name : String} {vs : List Value} {i : Nat} {rest : Path}
    (h : Reaches d schema from? v (p ++ .field i :: rest) g t)
    (hv : v.get? p = some (.record name vs)) :
    ∃ f x, (schema.fields name)[i]? = some f ∧ f.exported = true ∧ vs[i]? = some x ∧
      (rest = [] → t ∈ Tag.ofRow f.row ∧ t.isStop = false ∧ (d.handler? t.name).isSome = true) ∧
      (rest ≠ [] → (Tag.ofRow f.row).any Tag.isStop = false ∧ x.kind ≠ .scalar) := by
  rcases h.cut hv with ⟨from?, hrecord⟩
  -- a field is no way into a pointer or a sequence, so the record itself is entered
  have hentered : Reaches d schema none (.record name vs) (.field i :: rest) g t := by
    cases hrecord with
    | member hf hexported hx h => exact .member hf hexported hx h
    | inside hopen h => exact h
    | behind hopen hs hc h => exact absurd trivial hs
  cases hentered with
  | @member _ _ _ f _ x _ _ hf hexported hx h =>
    refine ⟨f, x, hf, hexported, hx, ?_, ?_⟩
    · rintro rfl
      cases h with
      | here ht hstop hbound => exact ⟨ht, hstop, hbound⟩
      | inside hopen h =>
        rcases h.exists_field with ⟨_, _, _, _, _, hnil⟩
        cases hnil
    · intro hrest
      cases h with
      | here => exact absurd rfl hrest
      | inside hopen h =>
        rcases h.exists_field with ⟨_, _, _, _, rfl, _⟩
        exact ⟨hopen, nofun⟩
      | behind hopen hs hc h =>
        refine ⟨hopen, ?_⟩
        intro hscalar
        cases x <;> cases hscalar <;> cases hc

/-- On the way, a pointer or a sequence is left for a record. -/
theorem record_of_step {s : Step} {rest : Path} (hs : ¬ s.IsField)
    (h : Reaches d schema from? v (p ++ s :: rest) g t) (hv : v.get? p = some x) :
    ∃ name vs, x.child? s = some (.record name vs) ∧ rest ≠ [] := by
  rcases h.cut hv with ⟨from?, hrest⟩
  cases hrest with
  | member => exact absurd trivial hs
  | inside hopen h =>
    rcases h.exists_field with ⟨_, _, _, _, _, hfield⟩
    cases hfield
    exact absurd trivial hs
  | behind hopen _ hc h =>
    rcases h.exists_field with ⟨name, vs, _, _, rfl, rfl⟩
    exact ⟨name, vs, hc, List.cons_ne_nil _ _⟩

end Reaches

/-! ## The calls of parts of walks -/

/-- A journal is another one with events added to it that tell of some calls. -/
def Walk.Journal.Adds (j : Journal) (cs : List Call) (k : Journal) : Prop :=
  ∃ events, k.events = j.events ++ events ∧ calls events = cs

namespace Walk.Journal.Adds

theorem refl (j : Journal) : j.Adds [] j :=
  ⟨[], (List.append_nil _).symm, rfl⟩

theorem trans {j k l : Journal} {cs ds : List Call} (h : j.Adds cs k) (h' : k.Adds ds l) :
    j.Adds (cs ++ ds) l := by
  rcases h with ⟨events, hk, rfl⟩
  rcases h' with ⟨more, hl, rfl⟩
  refine ⟨events ++ more, ?_, calls_append events more⟩
  rw [hl, hk, List.append_assoc]

theorem calls_eq {j k : Journal} {cs : List Call} (h : j.Adds cs k) :
    calls k.events = calls j.events ++ cs := by
  rcases h with ⟨events, hk, rfl⟩
  rw [hk, calls_append]

end Walk.Journal.Adds

/-- The calls that work adds to a journal are in the relation `P` to the value that it leaves. -/
def Work.Calls {α : Type} (P : α → Call → Prop) (j : Journal) (w : Work α) : Prop :=
  ∃ cs, j.Adds cs w.journal ∧ ∀ c ∈ cs, P w.value c

namespace Work.Calls

variable {α β : Type} {P : α → Call → Prop} {Q : β → Call → Prop} {j : Journal}

/-- Work that ends without having run a handler. -/
theorem of_silent {w : Work α} (h : j.Adds [] w.journal) : w.Calls P j :=
  ⟨[], h, List.forall_mem_nil _⟩

theorem done (v : α) (j : Journal) : (Work.done v j).Calls P j :=
  of_silent (.refl j)

theorem map {w : Work α} (h : w.Calls P j) (f : α → β) (hf : ∀ v c, P v c → Q (f v) c) :
    (w.map f).Calls Q j := by
  rcases h with ⟨cs, hadds, hcalls⟩
  exact ⟨cs, hadds, fun c hc => hf _ c (hcalls c hc)⟩

theorem andThen {w : Work α} (h : w.Calls P j) {stop : α → β} {next : α → Journal → Work β}
    (hstop : ∀ v c, P v c → Q (stop v) c)
    (hnext : ∀ v k, (next v k).Calls Q k ∧ ∀ c, P v c → Q (next v k).value c) :
    (w.andThen stop next).Calls Q j := by
  rcases h with ⟨cs, hadds, hcalls⟩
  rcases w.done_or_halt with ⟨v, k, rfl⟩ | ⟨e, v, k, rfl⟩
  · rcases hnext v k with ⟨⟨ds, hmore, hlater⟩, hkept⟩
    refine ⟨cs ++ ds, hadds.trans hmore, ?_⟩
    exact List.forall_mem_append.2 ⟨fun c hc => hkept c (hcalls c hc), hlater⟩
  · exact ⟨cs, hadds, fun c hc => hstop v c (hcalls c hc)⟩

end Work.Calls

/-- Work adds to its journal, whatever the calls are. -/
def Work.Grows {α : Type} (j : Journal) (w : Work α) : Prop :=
  ∃ cs, j.Adds cs w.journal

theorem Work.Calls.grows {α : Type} {P : α → Call → Prop} {j : Journal} {w : Work α}
    (h : w.Calls P j) : w.Grows j := by
  rcases h with ⟨cs, hadds, _⟩
  exact ⟨cs, hadds⟩

theorem Work.Grows.calls {α : Type} {j : Journal} {w : Work α} (h : w.Grows j) :
    w.Calls (fun _ _ => True) j := by
  rcases h with ⟨cs, hadds⟩
  exact ⟨cs, hadds, fun _ _ => trivial⟩

namespace Nested

open Work (Calls)

/-- The calls of going over a row are those of the work on the values that it leaves. -/
theorem row_calls {P : Nat → Value → Call → Prop}
    {work : Nat → (Value → Value) → Value → Journal → Work Value}
    (h : ∀ i around v j, (work i around v j).Calls (P i) j)
    (i : Nat) (around : List Value → Value) (vs : List Value) (j : Journal) :
    (row work i around vs j).Calls (fun ws c => ∃ k x, ws[k]? = some x ∧ P (i + k) x c) j := by
  induction vs generalizing i around j with
  | nil => exact .done [] j
  | cons v vs ih =>
    have hhead (x : Value) (xs : List Value) (c : Call) (hc : P i x c) :
        ∃ k y, (x :: xs)[k]? = some y ∧ P (i + k) y c := ⟨0, x, rfl, hc⟩
    refine (h i (fun x => around (x :: vs)) v j).andThen (fun x c hc => hhead x vs c hc) ?_
    intro x k
    refine ⟨(ih (i + 1) (fun xs => around (x :: xs)) k).map (x :: ·) ?_, fun c => hhead x _ c⟩
    rintro xs c ⟨n, y, hy, hc⟩
    have hindex : i + 1 + n = i + (n + 1) := by omega
    exact ⟨n + 1, y, hy, hindex ▸ hc⟩

variable (d : Dispatcher) (context : Context) (schema : Schema)

/-- A call on a field that a path leads to from the value at another path. -/
def ReachedFrom (from? : Option Field) (path : Path) (v : Value) (c : Call) : Prop :=
  ∃ q, c.path = path ++ q ∧ Reaches d schema from? v q c.field c.tag

/-- To obey a tag for the first time is to have its handler read it and run. -/
theorem obey_of_new {h : Handler} {t : Tag} {arg : Arg} {events : List Event} (p : Place)
    (v : Value) {j : Journal} (hstop : t.isStop = false) (hh : d.handler? t.name = some h)
    (hnone : j.memo.find? t = none) (hread : h.readTag t = (.ok arg, events)) :
    (d.rules context).obey p t v j =
      (d.rules context).call p h t arg v ⟨j.memo.insert t arg, j.events ++ events⟩ := by
  have hhandler : (d.rules context).handler? t.name = some h := hh
  have hask : (d.rules context).ask j.memo h t = ⟨.ok arg, j.memo.insert t arg, events⟩ :=
    Memo.ask_of_new hnone hread
  rw [Rules.obey_of_read hstop hhandler (congrArg Asked.result hask), hask]

/-- To obey a tag is to make a call for it, or none. -/
theorem obey_calls (p : Place) (t : Tag) (v : Value) (j : Journal) :
    ((d.rules context).obey p t v j).Calls (fun _ c => c.path = p.path ∧ c.field = p.field ∧
      c.tag = t ∧ t.isStop = false ∧ (d.handler? t.name).isSome = true) j := by
  have hasked (h : Handler) : calls ((d.rules context).ask j.memo h t).events = [] :=
    Memo.calls_ask j.memo h t
  rcases (d.rules context).obey_cases p t v j with
    heq | ⟨h, hstop, hh, ⟨arg, -, heq⟩ | ⟨f, -, heq⟩⟩ <;> rw [heq]
  · exact .done v j
  · have hhandler : d.handler? t.name = some h := hh
    have hbound : (d.handler? t.name).isSome = true := by rw [hhandler, Option.isSome_some]
    refine ⟨[⟨p.path, p.index, p.field, t, arg⟩], ⟨_, List.append_assoc _ _ _, ?_⟩, ?_⟩
    · rw [calls_append, hasked, calls_append, calls_reported]
      rfl
    · exact List.forall_mem_singleton.2 ⟨rfl, rfl, rfl, hstop, hbound⟩
  · exact .of_silent ⟨_, rfl, hasked h⟩

theorem obeyAll_calls (p : Place) (ts : List Tag) (v : Value) (j : Journal) :
    (obeyAll (d.rules context).obey p ts v j).Calls (fun _ c => c.path = p.path ∧
      c.field = p.field ∧ c.tag ∈ ts ∧ c.tag.isStop = false ∧
      (d.handler? c.tag.name).isSome = true) j := by
  induction ts generalizing v j with
  | nil => exact .done v j
  | cons t ts ih =>
    refine (obey_calls d context p t v j).andThen ?_ ?_
    · rintro x c ⟨hpath, hfield, rfl, hstop, hbound⟩
      exact ⟨hpath, hfield, List.mem_cons_self, hstop, hbound⟩
    · intro x k
      refine ⟨(ih x k).map id ?_, ?_⟩
      · rintro y c ⟨hpath, hfield, ht, hrest⟩
        exact ⟨hpath, hfield, List.mem_cons_of_mem t ht, hrest⟩
      · rintro c ⟨hpath, hfield, rfl, hstop, hbound⟩
        exact ⟨hpath, hfield, List.mem_cons_self, hstop, hbound⟩

section Entering

variable {go : Enter} {R : Path → Value → Call → Prop}
  (hgo : ∀ path around v j, (go path around v j).Calls (R path) j)

include hgo

theorem ifRecord_calls (path : Path) (around : Value → Value) (v : Value) (j : Journal) :
    (ifRecord go path around v j).Calls (R path) j := by
  unfold ifRecord
  split
  · exact hgo path around v j
  · exact .done v j

/-- The calls of going into the value of a field are those of entering it, or of entering what a
step leads to that is none to a field. -/
theorem descend_calls {Q : Value → Call → Prop} (path : Path) (around : Value → Value) (v : Value)
    (j : Journal) (hinside : ∀ x c, R path x c → Q x c)
    (hbehind : ∀ s x y c, ¬ s.IsField → Value.child? y s = some x → R (path ++ [s]) x c → Q y c) :
    (descend go path around v j).Calls Q j := by
  have hitems (vs : List Value) (around : List Value → Value) (wrap : List Value → Value)
      (hwrap : ∀ (ws : List Value) i, (wrap ws).child? (.index i) = ws[i]?) :
      ((row (fun i => ifRecord go (path ++ [.index i])) 0 around vs j).map wrap).Calls Q j := by
    refine (row_calls (fun i => ifRecord_calls hgo (path ++ [.index i])) 0 around vs j).map wrap ?_
    rintro ws c ⟨k, x, hx, hc⟩
    rw [Nat.zero_add] at hc
    exact hbehind _ x _ c id ((hwrap ws k).trans hx) hc
  cases v with
  | record name vs => exact (hgo path around _ j).map id hinside
  | present v =>
    exact (ifRecord_calls hgo _ _ v j).map _ fun x c => hbehind .deref x (.present x) c id rfl
  | owned v =>
    exact (ifRecord_calls hgo _ _ v j).map _ fun x c => hbehind .deref x (.owned x) c id rfl
  | list t vs => exact hitems vs _ _ fun _ _ => rfl
  | array t vs => exact hitems vs _ _ fun _ _ => rfl
  | scalar d => exact .done _ j
  | sealed name d => exact .done _ j
  | nil t => exact .done _ j

omit hgo

variable (hreach : ∀ path around v j, (go path around v j).Calls (ReachedFrom d schema none path) j)

include hreach

theorem visit_calls (p : Place) (v : Value) (j : Journal) :
    (visit (d.rules context).obey go p v j).Calls (ReachedFrom d schema (some p.field) p.path)
      j := by
  have hhere {x : Value} {c : Call} (hc : c.path = p.path ∧ c.field = p.field ∧
      c.tag ∈ Tag.ofRow p.field.row ∧ c.tag.isStop = false ∧
      (d.handler? c.tag.name).isSome = true) :
      ReachedFrom d schema (some p.field) p.path x c := by
    rcases hc with ⟨hpath, hfield, ht, hstop, hbound⟩
    refine ⟨[], by rw [hpath, List.append_nil], ?_⟩
    rw [hfield]
    exact .here ht hstop hbound
  refine (obeyAll_calls d context p _ v j).andThen (fun x c => hhere) ?_
  intro x k
  refine ⟨?_, fun c => hhere⟩
  cases hopen : (Tag.ofRow p.field.row).any Tag.isStop with
  | true => exact .of_silent ⟨_, rfl, rfl⟩
  | false =>
    refine descend_calls hreach p.path p.around x k ?_ ?_
    · rintro y c ⟨q, hpath, hreached⟩
      exact ⟨q, hpath, .inside hopen hreached⟩
    · rintro s y z c hs hy ⟨q, hpath, hreached⟩
      refine ⟨s :: q, ?_, .behind hopen hs hy hreached⟩
      rw [hpath, List.append_assoc]
      rfl

theorem member_calls (fields : List Field) (path : Path) (i : Nat) (around : Value → Value)
    (v : Value) (j : Journal) :
    (member (d.rules context).obey go fields path i around v j).Calls (fun x c => ∃ f,
      fields[i]? = some f ∧ f.exported = true ∧
        ReachedFrom d schema (some f) (path ++ [.field i]) x c) j := by
  unfold member
  cases hf : fields[i]? with
  | none => exact .done v j
  | some f =>
    cases hexported : f.exported with
    | false =>
      simp only [hexported, Bool.false_eq_true, if_false]
      exact .done v j
    | true =>
      simp only [hexported, if_true]
      refine (visit_calls d context schema hreach ⟨path ++ [.field i], i, f, around⟩ v j).map id ?_
      intro x c hc
      exact ⟨f, rfl, hexported, hc⟩

end Entering

/-- The calls of a walk are reached in the value that it leaves. -/
theorem enter_calls (depth : Nat) (path : Path) (around : Value → Value) (v : Value)
    (j : Journal) :
    (enter (d.rules context).obey schema depth path around v j).Calls
      (ReachedFrom d schema none path) j := by
  induction depth generalizing path around v j with
  | zero => exact .of_silent (.refl j)
  | succ depth ih =>
    cases v with
    | record name vs =>
      refine (row_calls (member_calls d context schema ih (schema.fields name) path) 0 _ vs j).map
        _ ?_
      rintro ws c ⟨k, x, hx, f, hf, hexported, q, hpath, hreached⟩
      rw [Nat.zero_add] at hf hpath
      refine ⟨.field k :: q, ?_, .member hf hexported hx hreached⟩
      rw [hpath, List.append_assoc]
      rfl
    | _ => exact .done _ j

end Nested

/-- The calls of a walk are on fields that are reached in the value that it leaves. -/
theorem Dispatcher.reaches (d : Dispatcher) (schema : Schema) (context : Context) (depth : Nat)
    (v : Value) :
    let walked := d.walkRecord schema context depth v
    ∀ c ∈ calls walked.events, Reaches d schema none walked.value c.path c.field c.tag := by
  intro walked c hc
  have hwalked : walked = Nested.walkRecord (d.rules context) d.memo schema depth v :=
    d.walkRecord_eq_nested schema context depth v
  rcases Nested.enter_calls d context schema depth [] id v ⟨d.memo, [.walking v.typeName]⟩ with
    ⟨cs, hadds, hcalls⟩
  have hall : calls walked.events = cs := by
    rw [hwalked]
    exact hadds.calls_eq
  rw [hall] at hc
  rcases hcalls c hc with ⟨q, hpath, hreach⟩
  rw [hpath, List.nil_append, hwalked]
  exact hreach

/-! ## Secluded places -/

/-- A place of a value at which, and below which, no handler is run on its own account. -/
inductive Secluded (d : Dispatcher) (schema : Schema) (v : Value) : Path → Prop
  /-- The value of a field that is not exported, and all that is below it. -/
  | hidden {p rest : Path} {name : String} {vs : List Value} {i : Nat}
      (hp : v.get? p = some (.record name vs))
      (hhidden : ∀ f, (schema.fields name)[i]? = some f → f.exported = false) :
      Secluded d schema v (p ++ .field i :: rest)
  /-- What is below a field with a tag that stops walks. -/
  | stopped {p rest : Path} {name : String} {vs : List Value} {i : Nat} {f : Field}
      (hp : v.get? p = some (.record name vs)) (hf : (schema.fields name)[i]? = some f)
      (hstop : (Tag.ofRow f.row).any Tag.isStop = true) (hrest : rest ≠ []) :
      Secluded d schema v (p ++ .field i :: rest)
  /-- An item of a sequence that is no record, and all that is below it. -/
  | item {p rest : Path} {i : Nat} {x : Value} (hx : v.get? (p ++ [.index i]) = some x)
      (hkind : x.kind ≠ .record) : Secluded d schema v (p ++ .index i :: rest)
  /-- What is behind a second pointer. -/
  | second {p rest : Path} : Secluded d schema v (p ++ .deref :: .deref :: rest)
  /-- A scalar in a field that has no tag whose handler would be run. -/
  | unbound {p : Path} {name : String} {vs : List Value} {i : Nat} {f : Field} {x : Value}
      (hp : v.get? p = some (.record name vs)) (hf : (schema.fields name)[i]? = some f)
      (hbound : ∀ t ∈ Tag.ofRow f.row, t.isStop = false → d.handler? t.name = none)
      (hx : vs[i]? = some x) (hscalar : x.kind = .scalar) : Secluded d schema v (p ++ [.field i])

section Seclusion

variable {d : Dispatcher} {schema : Schema} {v v' : Value} {cs : List Call} {p q : Path}
  (hreach : ∀ c ∈ cs, Reaches d schema none v' c.path c.field c.tag)
  (hout : ∀ p, (∀ c ∈ cs, ¬ c.path <+: p) →
    (v'.get? p).map Value.outline = (v.get? p).map Value.outline)
  (hnear : ∀ c ∈ cs, c.path <+: q → c.path = q)

include hout hnear in
/-- Around a place on which or below which alone handlers are run, all outlines are kept. -/
theorem exists_around {s : Step} {rest : Path} {x : Value} (hq : q = p ++ s :: rest)
    (hx : v.get? p = some x) : ∃ x', v'.get? p = some x' ∧ x'.outline = x.outline := by
  have hclear : ∀ c ∈ cs, ¬ c.path <+: p := by
    intro c hc hle
    have hpq : p <+: q := hq ▸ List.prefix_append p (s :: rest)
    have heq := hnear c hc (hle.trans hpq)
    have hlength := hle.length_le
    rw [heq, hq, List.length_append, List.length_cons] at hlength
    omega
  have hsame := hout p hclear
  rw [hx, Option.map_some, Option.map_eq_some_iff] at hsame
  exact hsame

include hreach hout hnear

/-- Where a walk does not go into what is behind a step, it calls nothing there. -/
theorem not_reached_of_step {s : Step} {rest : Path} {x : Value} (hs : ¬ s.IsField)
    (hq : q = p ++ s :: rest) (hx : v.get? (p ++ [s]) = some x) (hkind : x.kind ≠ .record) :
    ∀ c ∈ cs, ¬ q <+: c.path := by
  rw [Value.get?_append, Option.bind_eq_some_iff] at hx
  rcases hx with ⟨y, hy, hchild⟩
  rcases exists_around hout hnear hq hy with ⟨y', hy', _⟩
  -- no call is on what is behind the step, since the step is none to a field
  have hclear : ∀ c ∈ cs, ¬ c.path <+: p ++ [s] := by
    intro c hc hle
    have hpq : p ++ [s] <+: q := by
      rw [hq, List.prefix_append_right_inj]
      exact List.cons_prefix_cons.2 ⟨rfl, List.nil_prefix⟩
    have hc' : c.path = p ++ [s] := hle.eq_of_length_le (by
      rw [hnear c hc (hle.trans hpq)]
      exact hpq.length_le)
    have hpath := hreach c hc
    rw [hc'] at hpath
    rcases hpath.record_of_step hs hy' with ⟨_, _, _, hne⟩
    exact hne rfl
  rintro c hc ⟨more, hmore⟩
  have hpath := hreach c hc
  rw [← hmore, hq, List.append_assoc, List.cons_append] at hpath
  rcases hpath.record_of_step hs hy' with ⟨name, vs, hrecord, _⟩
  -- what is behind the step was a record before, too
  have hbefore : (v.get? (p ++ [s])).map Value.outline = some (.record name vs.length) := by
    rw [← hout _ hclear, Value.get?_append, hy', Option.bind_some, Value.get?_cons, hrecord]
    rfl
  rw [Value.get?_append, hy, Option.bind_some, hchild, Option.map_some, Option.some.injEq]
    at hbefore
  rcases Value.outline_eq_record hbefore with ⟨ws, rfl⟩
  exact hkind rfl

/-- On a secluded place, and below it, no handler is run if none is on a field around it. -/
theorem Secluded.not_reached {x : Value} (hx : v.get? q = some x) (h : Secluded d schema v q) :
    ∀ c ∈ cs, ¬ q <+: c.path := by
  -- a call behind a field of a record that is still there
  have hfield {p rest : Path} {name : String} {vs : List Value} {i : Nat} {c : Call}
      (hq : q = p ++ .field i :: rest) (hp : v.get? p = some (.record name vs)) (hc : c ∈ cs)
      (hle : q <+: c.path) : ∃ vs' more, v'.get? p = some (.record name vs') ∧
        c.path = p ++ .field i :: (rest ++ more) ∧
        Reaches d schema none v' (p ++ .field i :: (rest ++ more)) c.field c.tag := by
    rcases hle with ⟨more, hmore⟩
    rcases exists_around hout hnear hq hp with ⟨x', hx', houtline⟩
    rcases Value.outline_eq_record houtline with ⟨vs', rfl⟩
    have hpath : c.path = p ++ .field i :: (rest ++ more) := by
      rw [← hmore, hq, List.append_assoc, List.cons_append]
    exact ⟨vs', more, hx', hpath, hpath ▸ hreach c hc⟩
  generalize hq : q = place at h
  cases h with
  | hidden hp hhidden =>
    rintro c hc hle
    rw [← hq] at hle
    rcases hfield hq hp hc hle with ⟨vs', more, hp', _, hpath⟩
    rcases hpath.field_of_record hp' with ⟨f, _, hf, hexported, _⟩
    rw [hhidden f hf] at hexported
    cases hexported
  | stopped hp hf hstop hrest =>
    rintro c hc hle
    rw [← hq] at hle
    rcases hfield hq hp hc hle with ⟨vs', more, hp', _, hpath⟩
    rcases hpath.field_of_record hp' with ⟨f', _, hf', _, _, _, hopen⟩
    rcases Option.some.inj (hf.symm.trans hf') with rfl
    rw [(hopen (List.append_ne_nil_of_left_ne_nil hrest more)).1] at hstop
    cases hstop
  | item hitem hkind =>
    rw [← hq]
    exact not_reached_of_step hreach hout hnear id hq hitem hkind
  | @second p rest =>
    -- what a pointer leads to is a pointer, if it leads on
    have hsplit : q = (p ++ [.deref]) ++ (.deref :: rest) := by
      rw [hq, List.append_assoc]
      rfl
    rw [hsplit, Value.get?_append, Option.bind_eq_some_iff] at hx
    rcases hx with ⟨y, hy, hrest⟩
    have hkind : y.kind ≠ .record := by
      intro hrecord
      cases y <;> cases hrecord
      cases hrest
    rw [← hq]
    exact not_reached_of_step hreach hout hnear id hq hy hkind
  | @unbound p name vs i f y hp hf hbound hy hscalar =>
    -- the field itself has no call
    have hself : ∀ c ∈ cs, c.path ≠ q := by
      intro c hc heq
      rcases hfield hq hp hc (heq ▸ List.prefix_rfl) with ⟨vs', more, hp', hpath, hreached⟩
      have hmore : more = [] := by
        have hlength := congrArg List.length (hpath.symm.trans (heq.trans hq))
        simpa using hlength
      subst hmore
      rcases hreached.field_of_record hp' with ⟨f', _, hf', _, _, hown, _⟩
      rcases Option.some.inj (hf.symm.trans hf') with rfl
      rcases hown rfl with ⟨ht, hstop, hsome⟩
      rw [hbound c.tag ht hstop] at hsome
      cases hsome
    have hkept := hout q fun c hc hle => hself c hc (hnear c hc hle)
    rintro c hc hle
    rw [← hq] at hle
    rcases hfield hq hp hc hle with ⟨vs', more, hp', hpath, hreached⟩
    have hmore : more ≠ [] := by
      rintro rfl
      exact hself c hc (hpath.trans hq.symm)
    rcases hreached.field_of_record hp' with ⟨_, y', _, _, hy', _, hentered⟩
    rcases hentered hmore with ⟨_, hkind⟩
    -- but the value of the field is still the scalar that it was
    rw [hq, Value.get?_append, hp', Option.bind_some, Value.get?_record hy',
      Value.get?_append, hp, Option.bind_some, Value.get?_record hy] at hkept
    exact hkind ((Value.kind_eq_of_outline (Option.some.inj hkept)).trans hscalar)

end Seclusion

/-- What the walk of a record leaves alone, whatever comes of it.

A place on which no handler was run, nor around it or below it, holds what it held.  A place on
which or around which none was run keeps its outline: a pointer is nil if it was, and a sequence is
as long as it was.  No handler is run on a secluded place, nor below it, unless one was run on a
field around it; so such a place holds what it held, with all that is below. -/
theorem Dispatcher.walk_frame (d : Dispatcher) (schema : Schema) (context : Context) (depth : Nat)
    {v x : Value} {q : Path} (hq : v.get? q = some x) :
    let walked := d.walkRecord schema context depth v
    let ran := calls walked.events
    ((∀ c ∈ ran, ¬ c.path <+: q ∧ ¬ q <+: c.path) → walked.value.get? q = some x) ∧
    ((∀ c ∈ ran, ¬ c.path <+: q) →
      (walked.value.get? q).map Value.outline = some x.outline) ∧
    ((∀ c ∈ ran, c.path <+: q → c.path = q) → Secluded d schema v q →
      (∀ c ∈ ran, ¬ q <+: c.path) ∧ walked.value.get? q = some x) := by
  intro walked ran
  rcases d.exists_history schema context depth v with ⟨runs, hhistory, hcalls, _⟩
  have hruns {P : Call → Prop} (h : ∀ c ∈ ran, P c) : ∀ r ∈ runs, P r.call := by
    have hran : ran = runs.map Run.call := hcalls.symm
    rw [hran] at h
    exact List.forall_mem_map.1 h
  have happart (h : ∀ c ∈ ran, ¬ c.path <+: q ∧ ¬ q <+: c.path) :
      walked.value.get? q = some x := by
    rw [← hq]
    exact hhistory.get?_eq (hruns h)
  have hout (p : Path) (h : ∀ c ∈ ran, ¬ c.path <+: p) :
      (walked.value.get? p).map Value.outline = (v.get? p).map Value.outline :=
    hhistory.outline_eq (hruns h)
  refine ⟨happart, ?_, ?_⟩
  · intro h
    rw [hout q h, hq, Option.map_some]
  · intro hnear hsecluded
    have hnone := Secluded.not_reached (d.reaches schema context depth v) hout hnear hq hsecluded
    refine ⟨hnone, happart fun c hc => ⟨?_, hnone c hc⟩⟩
    intro hle
    have heq := hnear c hc hle
    exact hnone c hc (heq ▸ List.prefix_rfl)

/-! ## A chest with a private drawer -/

namespace Chest

/-- A chest with a label, and a drawer that is not exported.  What is in the drawer would be marked,
too, if it were reached. -/
def schema : Schema where
  records :=
    [⟨"Chest",
      [⟨⟨"label", true, "mark:\"\""⟩, .scalar (.int .i64)⟩,
       ⟨⟨"drawer", false, ""⟩, .record "Drawer"⟩]⟩,
     ⟨"Drawer", [⟨⟨"content", true, "mark:\"\""⟩, .scalar (.int .i64)⟩]⟩]

/-- Marks a number. -/
def mark : Handler :=
  .ofRun fun _ _ => ⟨.scalar (.int .i64 1), .done, []⟩

def dispatcher : Dispatcher where
  bindings := [("mark", mark)]

def value : Value :=
  .record "Chest" [.scalar (.int .i64 0), .record "Drawer" [.scalar (.int .i64 7)]]

/-- The place of what is in the drawer. -/
def content : Path :=
  [.field 1, .field 0]

def tag : Tag :=
  ⟨"mark", "\"\""⟩

theorem ofRow : Tag.ofRow "mark:\"\"" = [tag] := by
  decide +kernel

theorem isStop_tag : tag.isStop = false := by
  decide +kernel

theorem text_tag : tag.text = .ok "" := by
  decide +kernel

/-- The tag is read, and then its handler is run. -/
theorem obey_tag (p : Nested.Place) (v : Value) (events : List Event) :
    (dispatcher.rules .unit).obey p tag v ⟨[], events⟩ =
      .done (.scalar (.int .i64 1)) ⟨[(("mark", "\"\""), .text "")],
        events ++ [.parsed tag ""] ++ [.dispatching p.field.name "mark",
          .called ⟨p.path, p.index, p.field, tag, .text ""⟩]⟩ :=
  Nested.obey_of_new dispatcher .unit p v isStop_tag rfl rfl (Handler.readTag_ofRun _ text_tag)

theorem paths_walk : (calls (dispatcher.walkRecord schema .unit 2 value).events).map Call.path =
    [[.field 0]] := by
  have hfields : schema.fields "Chest" =
      [⟨"label", true, "mark:\"\""⟩, ⟨"drawer", false, ""⟩] := rfl
  have hmemo : dispatcher.memo = [] := rfl
  have hstop : [tag].any Tag.isStop = false := by
    rw [List.any_cons, isStop_tag]
    rfl
  simp only [Dispatcher.walkRecord_eq_nested, Nested.walkRecord, Nested.enter, value, hfields,
    hmemo, Nested.row, Nested.member, List.getElem?_cons_zero, List.getElem?_cons_succ, if_true,
    Bool.false_eq_true, if_false, Nested.visit, ofRow, Nested.obeyAll, obey_tag, hstop,
    Work.andThen_done, Nested.descend]
  rfl

end Chest

/-- A walk marks the label of a chest, and leaves what is in the drawer. -/
theorem Dispatcher.walk_chest :
    let walked := Chest.dispatcher.walkRecord Chest.schema .unit 2 Chest.value
    Chest.value.get? Chest.content = some (.scalar (.int .i64 7)) ∧
      Secluded Chest.dispatcher Chest.schema Chest.value Chest.content ∧
      (calls walked.events).map Call.path = [[.field 0]] ∧
      walked.value.get? Chest.content = some (.scalar (.int .i64 7)) := by
  intro walked
  have hat : Chest.value.get? Chest.content = some (.scalar (.int .i64 7)) := rfl
  have hcalls : (calls walked.events).map Call.path = [[.field 0]] := Chest.paths_walk
  have hnear : ∀ c ∈ calls walked.events, c.path <+: Chest.content → c.path = Chest.content := by
    intro c hc hle
    have hpath : c.path ∈ [[Step.field 0]] := hcalls ▸ List.mem_map_of_mem hc
    rw [List.mem_singleton.1 hpath] at hle
    exact absurd (List.cons_prefix_cons.1 hle).1 (by decide)
  have hsecluded : Secluded Chest.dispatcher Chest.schema Chest.value Chest.content := by
    refine .hidden (p := []) (i := 1) rfl fun f hf => ?_
    rcases Option.some.inj hf with rfl
    rfl
  have hframe := Chest.dispatcher.walk_frame Chest.schema .unit 2 hat
  exact ⟨hat, hsecluded, hcalls, (hframe.2.2 hnear hsecluded).2⟩

end FieldNotes
