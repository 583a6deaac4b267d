import FieldNotes.Proofs.Frame
import FieldNotes.Proofs.Shapes
import Mathlib.Data.List.Lex

/-! # Plans of walks

Which handlers are to be run, and where, can be listed before a walk begins, if only the shape of
the record is known.  The list goes into the depth: what is behind a field comes right after the
field.

* `Shape.visits` lists the exported fields that are come by, `Dispatcher.plan` the tags of these
  fields that a handler is bound to.
* `Dispatcher.mem_plan_iff`: the plan has all duties that there are, and no others.
* `Dispatcher.plan_in_order`: they come one after the other, none of them twice.
* `Duty.course`: what comes of a plan, if all goes well.  A tag that cannot be read is the end of
  it.
-/

namespace FieldNotes

/-- A field that is visited. -/
structure Visit where
  path : Path
  /-- The position of the field in its record. -/
  index : Nat
  field : Field
  deriving DecidableEq, Repr

/-- Something that a walk has to do at a field. -/
structure Duty where
  visit : Visit
  /-- The position of the tag in the row of the field. -/
  place : Nat
  tag : Tag
  handler : Handler

/-! ## Order -/

/-- From one value, one step is taken before another. -/
inductive Step.Before : Step → Step → Prop
  | field {i j : Nat} (h : i < j) : Before (.field i) (.field j)
  | index {i j : Nat} (h : i < j) : Before (.index i) (.index j)

theorem Step.Before.irrefl (s : Step) : ¬ s.Before s := by
  intro h
  cases h with
  | field h => exact Nat.lt_irrefl _ h
  | index h => exact Nat.lt_irrefl _ h

theorem Step.Before.trans {r s t : Step} (h : r.Before s) (h' : s.Before t) : r.Before t := by
  cases h with
  | field h =>
    cases h' with
    | field h' => exact .field (Nat.lt_trans h h')
  | index h =>
    cases h' with
    | index h' => exact .index (Nat.lt_trans h h')

/-- The order into the depth: a path comes before the paths that lead on from it, and where two
paths part, the first step counts. -/
def Path.Before (p q : Path) : Prop :=
  List.Lex Step.Before p q

namespace Path.Before

theorem irrefl (p : Path) : ¬ p.Before p :=
  List.lex_irrefl Step.Before.irrefl p

theorem trans {p q r : Path} (h : p.Before q) (h' : q.Before r) : p.Before r :=
  List.lex_trans Step.Before.trans h h'

theorem onwards (p : Path) (s : Step) (q : Path) : p.Before (p ++ s :: q) := by
  have h : Path.Before (p ++ []) (p ++ s :: q) := List.Lex.append_left Step.Before .nil p
  rwa [List.append_nil] at h

theorem apart (p : Path) {s t : Step} (h : s.Before t) (q r : Path) :
    Path.Before (p ++ s :: q) (p ++ t :: r) :=
  List.Lex.append_left Step.Before (.rel h) p

end Path.Before

/-- Duties at different fields come in the order of the paths, those at one field in the order of
the tags. -/
def Duty.Before (u u' : Duty) : Prop :=
  u.visit.path.Before u'.visit.path ∨ u.visit.path = u'.visit.path ∧ u.place < u'.place

namespace Duty.Before

theorem irrefl (u : Duty) : ¬ u.Before u := by
  rintro (h | ⟨-, h⟩)
  · exact Path.Before.irrefl _ h
  · exact Nat.lt_irrefl _ h

theorem trans {u u' u'' : Duty} (h : u.Before u') (h' : u'.Before u'') : u.Before u'' := by
  rcases h with h | ⟨heq, h⟩
  · rcases h' with h' | ⟨heq', -⟩
    · exact Or.inl (h.trans h')
    · exact Or.inl (heq' ▸ h)
  · rcases h' with h' | ⟨heq', h'⟩
    · exact Or.inl (heq ▸ h')
    · exact Or.inr ⟨heq.trans heq', Nat.lt_trans h h'⟩

end Duty.Before

/-! ## Visits -/

/-- A visit of a field, and what follows it, if no tag of the field stops the walk. -/
def Visit.andInside (o : Visit) (inside : List Visit) : List Visit :=
  if (Tag.ofRow o.field.row).any Tag.isStop then [o] else o :: inside

/-- Visits of the field of a row at a position, if there is one and it is exported. -/
def Visit.member (fields : List Field) (path : Path) (i : Nat) (inside : Path → List Visit) :
    List Visit :=
  match fields[i]? with
  | some f =>
    if f.exported then
      (⟨path ++ [.field i], i, f⟩ : Visit).andInside (inside (path ++ [.field i]))
    else []
  | none => []

theorem Visit.mem_andInside_iff {o o' : Visit} {inside : List Visit} :
    o' ∈ o.andInside inside ↔
      o' = o ∨ (Tag.ofRow o.field.row).any Tag.isStop = false ∧ o' ∈ inside := by
  unfold andInside
  cases (Tag.ofRow o.field.row).any Tag.isStop with
  | true => simp
  | false => simp

theorem Visit.mem_member_iff {fields : List Field} {path : Path} {i : Nat}
    {inside : Path → List Visit} {o : Visit} :
    o ∈ member fields path i inside ↔ ∃ f, fields[i]? = some f ∧ f.exported = true ∧
      (o = ⟨path ++ [.field i], i, f⟩ ∨
        (Tag.ofRow f.row).any Tag.isStop = false ∧ o ∈ inside (path ++ [.field i])) := by
  unfold member
  cases fields[i]? with
  | none => simp
  | some f =>
    cases hexported : f.exported with
    | false => simp [hexported]
    | true => simp [hexported, mem_andInside_iff]

namespace Shape

section Visits

variable (schema : Schema)

mutual

/-- The visits in a value at a path that is entered, if it is a record. -/
def visits (path : Path) : Shape → List Visit
  | .record name ss => visitsOfFields path (schema.fields name) 0 ss
  | _ => []

/-- The visits in the value of a field: in the value itself, in what it points at, or in its items.
-/
def inside (path : Path) : Shape → List Visit
  | .record name ss => visitsOfFields path (schema.fields name) 0 ss
  | .pointer s => s.visits (path ++ [.deref])
  | .sequence ss => visitsOfItems path 0 ss
  | _ => []

/-- The visits of fields from a position on, and in their values. -/
def visitsOfFields (path : Path) (fields : List Field) (i : Nat) : List Shape → List Visit
  | [] => []
  | s :: ss =>
    Visit.member fields path i (fun path => s.inside path) ++ visitsOfFields path fields (i + 1) ss

/-- The visits in items from a position on. -/
def visitsOfItems (path : Path) (i : Nat) : List Shape → List Visit
  | [] => []
  | s :: ss => s.visits (path ++ [.index i]) ++ visitsOfItems path (i + 1) ss

end

theorem visitsOfFields_eq (path : Path) (fields : List Field) (i : Nat) (ss : List Shape) :
    visitsOfFields schema path fields i ss =
      (ss.zipIdx i).flatMap fun (s, k) => Visit.member fields path k fun path =>
        s.inside schema path := by
  induction ss generalizing i with
  | nil => rfl
  | cons s ss ih => rw [visitsOfFields, ih, List.zipIdx_cons, List.flatMap_cons]

theorem visitsOfItems_eq (path : Path) (i : Nat) (ss : List Shape) :
    visitsOfItems schema path i ss =
      (ss.zipIdx i).flatMap fun (s, k) => s.visits schema (path ++ [.index k]) := by
  induction ss generalizing i with
  | nil => rfl
  | cons s ss ih => rw [visitsOfItems, ih, List.zipIdx_cons, List.flatMap_cons]

variable {schema}

theorem inside_record (path : Path) (name : String) (ss : List Shape) :
    (record name ss).inside schema path = (record name ss).visits schema path :=
  rfl

/-- What is behind a field is visited in the value of the field itself, if it is a record, or one
step further on, in a record that a pointer leads to or that is an item. -/
theorem mem_inside_iff {s : Shape} {path : Path} {o : Visit} :
    o ∈ s.inside schema path ↔ o ∈ s.visits schema path ∨
      ∃ step c, ¬ step.IsField ∧ s.child? step = some c ∧
        o ∈ c.visits schema (path ++ [step]) := by
  constructor
  · intro h
    cases s with
    | record name ss => exact Or.inl h
    -- a pointer and a list are no records, so `Or.inr` is for them and the step tells which
    | pointer s => exact Or.inr ⟨.deref, s, id, rfl, h⟩
    | sequence ss =>
      rw [inside, visitsOfItems_eq, List.mem_flatMap] at h
      obtain ⟨⟨c, i⟩, hc, ho⟩ := h
      exact Or.inr ⟨.index i, c, id, List.mem_zipIdx_iff_getElem?.1 hc, ho⟩
    | _ => cases h
  · rintro (h | ⟨step, c, hstep, hc, h⟩)
    · cases s with
      | record name ss => exact h
      | _ => cases h
    · cases s with
      | record name ss =>
        cases step with
        | field i => exact absurd trivial hstep
        | _ => cases hc
      | pointer s =>
        cases step with
        | deref =>
          cases hc
          exact h
        | _ => cases hc
      | sequence ss =>
        cases step with
        | index i =>
          rw [inside, visitsOfItems_eq, List.mem_flatMap]
          exact ⟨(c, i), List.mem_zipIdx_iff_getElem?.2 hc, h⟩
        | _ => cases hc
      | _ => cases step <;> cases hc

theorem mem_visits_iff {s : Shape} {path : Path} {o : Visit} :
    o ∈ s.visits schema path ↔ ∃ name ss i c f, s = .record name ss ∧ ss[i]? = some c ∧
      (schema.fields name)[i]? = some f ∧ f.exported = true ∧
      (o = ⟨path ++ [.field i], i, f⟩ ∨
        (Tag.ofRow f.row).any Tag.isStop = false ∧ o ∈ c.inside schema (path ++ [.field i])) := by
  constructor
  · intro h
    cases s with
    | record name ss =>
      rw [visits, visitsOfFields_eq, List.mem_flatMap] at h
      obtain ⟨⟨c, i⟩, hc, ho⟩ := h
      have hmember := Visit.mem_member_iff.1 ho
      obtain ⟨f, hf, hexported, ho⟩ := hmember
      exact ⟨name, ss, i, c, f, rfl, List.mem_zipIdx_iff_getElem?.1 hc, hf, hexported, ho⟩
    | _ => cases h
  · rintro ⟨name, ss, i, c, f, rfl, hc, hf, hexported, ho⟩
    rw [visits, visitsOfFields_eq, List.mem_flatMap]
    exact ⟨(c, i), List.mem_zipIdx_iff_getElem?.2 hc,
      Visit.mem_member_iff.2 ⟨f, hf, hexported, ho⟩⟩

/-- What is visited in a record is visited behind a field that holds the record. -/
theorem visits_sublist_inside (s : Shape) (path : Path) :
    (s.visits schema path).Sublist (s.inside schema path) := by
  cases s with
  | record name ss => exact List.Sublist.refl _
  | _ => exact List.nil_sublist _

theorem mem_inside_of_mem_visits {s : Shape} {path : Path} {o : Visit}
    (h : o ∈ s.visits schema path) : o ∈ s.inside schema path :=
  (visits_sublist_inside s path).subset h

/-- What is behind a field lies on paths that lead on from it. -/
theorem path_of_mem_inside {s : Shape} {path : Path} {o : Visit} (h : o ∈ s.inside schema path) :
    ∃ step rest, o.path = path ++ step :: rest := by
  induction s using Shape.induct generalizing path with
  | parts s ih =>
    rcases mem_inside_iff.1 h with h | ⟨step, c, -, hc, h⟩
    · obtain ⟨name, ss, i, c, f, rfl, hc, -, -, rfl | ⟨-, ho⟩⟩ := mem_visits_iff.1 h
      · exact ⟨.field i, [], rfl⟩
      · obtain ⟨step, rest, hpath⟩ := ih (.field i) c hc ho
        exact ⟨.field i, step :: rest, by rw [hpath, List.append_assoc]; rfl⟩
    · obtain ⟨step', rest, hpath⟩ := ih step c hc (mem_inside_of_mem_visits h)
      exact ⟨step, step' :: rest, by rw [hpath, List.append_assoc]; rfl⟩

theorem path_of_mem_member {fields : List Field} {path : Path} {i : Nat} {s : Shape} {o : Visit}
    (h : o ∈ Visit.member fields path i fun path => s.inside schema path) :
    ∃ rest, o.path = path ++ .field i :: rest := by
  obtain ⟨f, -, -, rfl | ⟨-, ho⟩⟩ := Visit.mem_member_iff.1 h
  · exact ⟨[], rfl⟩
  · obtain ⟨step, rest, hpath⟩ := path_of_mem_inside ho
    exact ⟨step :: rest, by rw [hpath, List.append_assoc]; rfl⟩

/-! ### The order of visits -/

theorem pairwise_zipIdx {α : Type} (l : List α) (i : Nat) :
    (l.zipIdx i).Pairwise fun a b => a.2 < b.2 := by
  have hrange : ((l.zipIdx i).map Prod.snd).Pairwise (· < ·) := by
    rw [List.zipIdx_map_snd]
    exact List.pairwise_lt_range'
  exact List.pairwise_map.1 hrange

theorem pairwise_andInside {o : Visit} {inside : List Visit}
    (h : inside.Pairwise fun a b => a.path.Before b.path)
    (ho : ∀ o' ∈ inside, o.path.Before o'.path) :
    (o.andInside inside).Pairwise fun a b => a.path.Before b.path := by
  unfold Visit.andInside
  split
  · exact List.pairwise_singleton _ _
  · exact List.pairwise_cons.2 ⟨ho, h⟩

theorem pairwise_member {fields : List Field} {path : Path} {i : Nat} {s : Shape}
    (h : ∀ path, (s.inside schema path).Pairwise fun a b => a.path.Before b.path) :
    (Visit.member fields path i fun path => s.inside schema path).Pairwise
      fun a b => a.path.Before b.path := by
  unfold Visit.member
  split
  · split
    · refine pairwise_andInside (h _) ?_
      intro o ho
      obtain ⟨step, rest, hpath⟩ := path_of_mem_inside ho
      rw [hpath]
      exact .onwards _ step rest
    · exact List.Pairwise.nil
  · exact List.Pairwise.nil

theorem pairwise_inside (s : Shape) (path : Path) :
    (s.inside schema path).Pairwise fun a b => a.path.Before b.path := by
  induction s using Shape.induct generalizing path with
  | parts s ih =>
    cases s with
    | record name ss =>
      rw [inside, visitsOfFields_eq, List.pairwise_flatMap]
      constructor
      · rintro ⟨c, i⟩ hc
        exact pairwise_member (ih (.field i) c (List.mem_zipIdx_iff_getElem?.1 hc))
      · -- visits in different fields part ways at these fields
        refine (pairwise_zipIdx ss 0).imp ?_
        rintro ⟨c, i⟩ ⟨c', i'⟩ hlt o ho o' ho'
        obtain ⟨rest, hpath⟩ := path_of_mem_member ho
        obtain ⟨rest', hpath'⟩ := path_of_mem_member ho'
        rw [hpath, hpath']
        exact .apart path (.field hlt) rest rest'
    | pointer s => exact (ih .deref s rfl (path ++ [.deref])).sublist (visits_sublist_inside s _)
    | sequence ss =>
      rw [inside, visitsOfItems_eq, List.pairwise_flatMap]
      constructor
      · rintro ⟨c, i⟩ hc
        exact (ih (.index i) c (List.mem_zipIdx_iff_getElem?.1 hc) _).sublist
          (visits_sublist_inside c _)
      · refine (pairwise_zipIdx ss 0).imp ?_
        rintro ⟨c, i⟩ ⟨c', i'⟩ hlt o ho o' ho'
        obtain ⟨step, rest, hpath⟩ := path_of_mem_inside (mem_inside_of_mem_visits ho)
        obtain ⟨step', rest', hpath'⟩ := path_of_mem_inside (mem_inside_of_mem_visits ho')
        rw [hpath, hpath', List.append_assoc, List.append_assoc]
        exact .apart path (.index hlt) _ _
    | _ => exact List.Pairwise.nil

theorem pairwise_visits (s : Shape) (path : Path) :
    (s.visits schema path).Pairwise fun a b => a.path.Before b.path :=
  (pairwise_inside s path).sublist (visits_sublist_inside s path)

end Visits

end Shape

/-! ## Duties -/

/-- What there is to do for the tag at some place: to run the handler that is bound to its name,
unless the tag stops walks. -/
def Visit.duty? (d : Dispatcher) (o : Visit) (t : Tag) (place : Nat) : Option Duty :=
  if t.isStop then none else (d.handler? t.name).map fun h => ⟨o, place, t, h⟩

/-- What there is to do on a visit, tag by tag. -/
def Visit.duties (d : Dispatcher) (o : Visit) : List Duty :=
  (Tag.ofRow o.field.row).zipIdx.filterMap fun p => o.duty? d p.1 p.2

/-- What there is to do in a walk of a record of some shape. -/
def Dispatcher.plan (d : Dispatcher) (schema : Schema) (s : Shape) : List Duty :=
  (s.visits schema []).flatMap (Visit.duties d)

/-- There is something to do at a field that is reached in a walk of a record: for a tag of its row
that does not stop the walk and has a handler bound to it. -/
structure Duty.Due (d : Dispatcher) (schema : Schema) (v : Value) (u : Duty) : Prop where
  reached : Reaches d schema none v u.visit.path u.visit.field u.tag
  index : u.visit.path.getLast? = some (.field u.visit.index)
  tag : (Tag.ofRow u.visit.field.row)[u.place]? = some u.tag
  handler : d.handler? u.tag.name = some u.handler

section Duties

variable {d : Dispatcher} {schema : Schema}

theorem Visit.duty?_eq_some_iff {o : Visit} {t : Tag} {place : Nat} {u : Duty} :
    o.duty? d t place = some u ↔ t.isStop = false ∧ u.visit = o ∧ u.place = place ∧ u.tag = t ∧
      d.handler? t.name = some u.handler := by
  unfold duty?
  cases t.isStop with
  | true => simp
  | false =>
    simp only [Bool.false_eq_true, if_false, Option.map_eq_some_iff, true_and]
    constructor
    · rintro ⟨h, hh, rfl⟩
      exact ⟨rfl, rfl, rfl, hh⟩
    · rintro ⟨rfl, rfl, rfl, hh⟩
      exact ⟨u.handler, hh, rfl⟩

theorem Visit.mem_duties_iff {o : Visit} {u : Duty} :
    u ∈ o.duties d ↔ u.visit = o ∧ (Tag.ofRow o.field.row)[u.place]? = some u.tag ∧
      u.tag.isStop = false ∧ d.handler? u.tag.name = some u.handler := by
  unfold duties
  rw [List.mem_filterMap]
  constructor
  · rintro ⟨⟨t, k⟩, ht, hu⟩
    obtain ⟨hstop, hvisit, rfl, rfl, hh⟩ := duty?_eq_some_iff.1 hu
    exact ⟨hvisit, List.mem_zipIdx_iff_getElem?.1 ht, hstop, hh⟩
  · rintro ⟨hvisit, ht, hstop, hh⟩
    exact ⟨(u.tag, u.place), List.mem_zipIdx_iff_getElem?.2 ht,
      duty?_eq_some_iff.2 ⟨hstop, hvisit, rfl, rfl, hh⟩⟩

theorem Visit.pairwise_duties (o : Visit) : (o.duties d).Pairwise Duty.Before := by
  refine (Shape.pairwise_zipIdx (Tag.ofRow o.field.row) 0).filterMap _ ?_
  rintro ⟨t, k⟩ ⟨t', k'⟩ hlt u hu u' hu'
  obtain ⟨-, hvisit, rfl, -, -⟩ := duty?_eq_some_iff.1 hu
  obtain ⟨-, hvisit', rfl, -, -⟩ := duty?_eq_some_iff.1 hu'
  exact Or.inr ⟨by rw [hvisit, hvisit'], hlt⟩

/-- The duties of a plan come in order, and so none of them comes twice. -/
theorem Dispatcher.plan_in_order (d : Dispatcher) (schema : Schema) (s : Shape) :
    (d.plan schema s).Pairwise Duty.Before := by
  rw [plan, List.pairwise_flatMap]
  refine ⟨fun o _ => o.pairwise_duties, (Shape.pairwise_visits s []).imp ?_⟩
  intro o o' hbefore u hu u' hu'
  rw [Visit.mem_duties_iff] at hu hu'
  refine Or.inl ?_
  rw [hu.1, hu'.1]
  exact hbefore

theorem Dispatcher.plan_congr {d' : Dispatcher} (h : d'.handler? = d.handler?) :
    d'.plan schema = d.plan schema := by
  have hduties : Visit.duties d' = Visit.duties d := by
    funext o
    unfold Visit.duties Visit.duty?
    rw [h]
  funext s
  rw [plan, plan, hduties]

/-! ### A plan is complete -/

/-- A tag of a visited field is reached from a value at a path. -/
def Visit.Reached (d : Dispatcher) (schema : Schema) (from? : Option Field) (v : Value)
    (path : Path) (o : Visit) (t : Tag) : Prop :=
  ∃ q, o.path = path ++ q ∧ q.getLast? = some (.field o.index) ∧
    Reaches d schema from? v q o.field t

theorem Visit.Reached.cons {from? from?' : Option Field} {v x : Value} {path : Path} {o : Visit}
    {t : Tag} {s : Step} (h : o.Reached d schema from?' x (path ++ [s]) t)
    (hstep : ∀ q, Reaches d schema from?' x q o.field t →
      Reaches d schema from? v (s :: q) o.field t) :
    o.Reached d schema from? v path t := by
  obtain ⟨q, hpath, hlast, hreach⟩ := h
  refine ⟨s :: q, by rw [hpath, List.append_assoc]; rfl, ?_, hstep q hreach⟩
  rw [List.getLast?_cons, hlast]
  rfl

/-- The tags of a visited field that have handlers are reached: from the record in which the visit
is, and from the field behind which it is. -/
theorem reached_of_mem (s : Shape) :
    ∀ (v : Value) (path : Path) (o : Visit) (t : Tag), v.shape = s → t ∈ Tag.ofRow o.field.row →
      t.isStop = false → (d.handler? t.name).isSome = true →
      (o ∈ s.visits schema path → o.Reached d schema none v path t) ∧
      ∀ f : Field, (Tag.ofRow f.row).any Tag.isStop = false → o ∈ s.inside schema path →
        o.Reached d schema (some f) v path t := by
  induction s using Shape.induct with
  | parts s ih =>
    intro v path o t hs ht hstop hbound
    have hchild (step : Step) {c : Shape} (hc : s.child? step = some c) :
        ∃ x, v.child? step = some x ∧ x.shape = c := by
      rw [← hs, ← Value.shape_child?] at hc
      exact Option.map_eq_some_iff.1 hc
    have hrecord : o ∈ s.visits schema path → o.Reached d schema none v path t := by
      intro hvisit
      obtain ⟨name, ss, i, c, g, rfl, hc, hg, hexported, ho⟩ := Shape.mem_visits_iff.1 hvisit
      obtain ⟨vs, rfl, -⟩ := Value.eq_record_of_shape hs
      obtain ⟨x, hx, hshape⟩ := hchild (.field i) hc
      rcases ho with rfl | ⟨hopen, ho⟩
      · exact ⟨[.field i], rfl, rfl, .member hg hexported hx (.here ht hstop hbound)⟩
      · refine ((ih (.field i) c hc x _ o t hshape ht hstop hbound).2 g hopen ho).cons ?_
        exact fun q hq => .member hg hexported hx hq
    refine ⟨hrecord, ?_⟩
    intro f hopen ho
    rcases Shape.mem_inside_iff.1 ho with ho | ⟨step, c, hstep, hc, ho⟩
    · obtain ⟨q, hpath, hlast, hreach⟩ := hrecord ho
      exact ⟨q, hpath, hlast, .inside hopen hreach⟩
    · obtain ⟨x, hx, hshape⟩ := hchild step hc
      refine ((ih step c hc x _ o t hshape ht hstop hbound).1 ho).cons ?_
      exact fun q hq => .behind hopen hstep hx hq

theorem Reaches.isStop_eq_false {from? : Option Field} {v : Value} {q : Path} {g : Field} {t : Tag}
    (h : Reaches d schema from? v q g t) : t.isStop = false := by
  induction h with
  | member _ _ _ _ ih => exact ih
  | here _ hstop _ => exact hstop
  | inside _ _ ih => exact ih
  | behind _ _ _ _ ih => exact ih

/-- A visit is at the end of a path. -/
def Listed (visits : Path → List Visit) (q : Path) (g : Field) : Prop :=
  ∃ i, q.getLast? = some (.field i) ∧ ∀ path, (⟨path ++ q, i, g⟩ : Visit) ∈ visits path

theorem Listed.cons {visits visits' : Path → List Visit} {q : Path} {g : Field} {s : Step}
    (h : Listed visits q g) (hstep : ∀ path o, o ∈ visits (path ++ [s]) → o ∈ visits' path) :
    Listed visits' (s :: q) g := by
  obtain ⟨i, hlast, hmem⟩ := h
  refine ⟨i, by rw [List.getLast?_cons, hlast]; rfl, ?_⟩
  intro path
  have hmem' := hmem (path ++ [s])
  rw [List.append_assoc] at hmem'
  exact hstep path _ hmem'

/-- What is reached is visited. -/
theorem listed_of_reaches {from? : Option Field} {v : Value} {q : Path} {g : Field} {t : Tag}
    (h : Reaches d schema from? v q g t) :
    match from? with
    | none => Listed (fun path => v.shape.visits schema path) q g
    | some f => q = [] ∧ g = f ∨ (Tag.ofRow f.row).any Tag.isStop = false ∧
        Listed (fun path => v.shape.inside schema path) q g := by
  induction h with
  | @member name vs i f g x q t hf hexported hx h ih =>
    have hchild : (vs.map Value.shape)[i]? = some x.shape := by
      rw [List.getElem?_map, hx, Option.map_some]
    have hmember (path : Path) (o : Visit) (ho : o = ⟨path ++ [.field i], i, f⟩ ∨
        (Tag.ofRow f.row).any Tag.isStop = false ∧ o ∈ x.shape.inside schema (path ++ [.field i])) :
        o ∈ (Value.record name vs).shape.visits schema path := by
      rw [Value.shape_record]
      exact Shape.mem_visits_iff.2 ⟨name, _, i, _, f, rfl, hchild, hf, hexported, ho⟩
    rcases ih with ⟨rfl, rfl⟩ | ⟨hopen, hlisted⟩
    · exact ⟨i, rfl, fun path => hmember path _ (Or.inl rfl)⟩
    · exact hlisted.cons fun path o ho => hmember path o (Or.inr ⟨hopen, ho⟩)
  | here ht hstop hbound => exact Or.inl ⟨rfl, rfl⟩
  | inside hopen h ih =>
    obtain ⟨i, hlast, hmem⟩ := ih
    exact Or.inr ⟨hopen, i, hlast, fun path => Shape.mem_inside_of_mem_visits (hmem path)⟩
  | @behind f g x c s q t hopen hs hc h ih =>
    have hchild : x.shape.child? s = some c.shape := by
      rw [← Value.shape_child?, hc, Option.map_some]
    refine Or.inr ⟨hopen, Listed.cons ih ?_⟩
    intro path o ho
    exact Shape.mem_inside_iff.2 (Or.inr ⟨s, c.shape, hs, hchild, ho⟩)

/-- The plan of a record has what is due in it, and nothing else. -/
theorem Dispatcher.mem_plan_iff {v : Value} {u : Duty} :
    u ∈ d.plan schema v.shape ↔ u.Due d schema v := by
  rw [plan, List.mem_flatMap]
  constructor
  · rintro ⟨o, ho, hu⟩
    obtain ⟨rfl, ht, hstop, hh⟩ := Visit.mem_duties_iff.1 hu
    obtain ⟨q, hpath, hlast, hreach⟩ := (reached_of_mem v.shape v [] u.visit u.tag rfl
      (List.mem_of_getElem? ht) hstop (by rw [hh, Option.isSome_some])).1 ho
    rw [List.nil_append] at hpath
    exact ⟨hpath ▸ hreach, hpath ▸ hlast, ht, hh⟩
  · rintro ⟨hreach, hindex, ht, hh⟩
    obtain ⟨i, hlast, hmem⟩ := listed_of_reaches hreach
    rw [hindex] at hlast
    cases hlast
    exact ⟨u.visit, hmem [], Visit.mem_duties_iff.2 ⟨rfl, ht, hreach.isStop_eq_false, hh⟩⟩

end Duties

/-! ## What comes of a plan -/

namespace Duty

/-- The call that a duty comes to, unless its tag cannot be read. -/
def call (u : Duty) : Except Fault Call :=
  match (u.handler.readTag u.tag).1 with
  | .ok arg => .ok ⟨u.visit.path, u.visit.index, u.visit.field, u.tag, arg⟩
  | .error f => .error f

/-- What is to be seen of doing one's duties. -/
structure Course where
  calls : List Call
  result : Except Halt Unit

/-- The duties are done one after the other, up to the first whose tag cannot be read. -/
def course : List Duty → Course
  | [] => ⟨[], .ok ()⟩
  | u :: us =>
    match u.call with
    | .ok c => ⟨c :: (course us).calls, (course us).result⟩
    | .error f => ⟨[], .error (.faulted f)⟩

theorem course_append_of_ok {us us' : List Duty} (h : (course us).result = .ok ()) :
    course (us ++ us') = ⟨(course us).calls ++ (course us').calls, (course us').result⟩ := by
  induction us with
  | nil => rfl
  | cons u us ih =>
    rw [List.cons_append]
    cases hu : u.call with
    | error f =>
      simp only [course, hu] at h
      cases h
    | ok c =>
      simp only [course, hu] at h ⊢
      rw [ih h, List.cons_append]

theorem course_append_of_error {us us' : List Duty} {h : Halt}
    (hend : (course us).result = .error h) : course (us ++ us') = course us := by
  induction us with
  | nil => cases hend
  | cons u us ih =>
    rw [List.cons_append]
    cases hu : u.call with
    | error f => simp only [course, hu]
    | ok c =>
      simp only [course, hu] at hend ⊢
      rw [ih hend]

/-- All duties were done, or all those before one whose tag cannot be read. -/
theorem course_cases (us : List Duty) : ∃ done rest, us = done ++ rest ∧
    done.map call = (course us).calls.map .ok ∧
    (rest = [] ∧ (course us).result = .ok () ∨ ∃ u rest' f, rest = u :: rest' ∧
      u.call = .error f ∧ (course us).result = .error (.faulted f)) := by
  induction us with
  | nil => exact ⟨[], [], rfl, rfl, Or.inl ⟨rfl, rfl⟩⟩
  | cons u us ih =>
    cases hu : u.call with
    | error f =>
      refine ⟨[], u :: us, rfl, ?_, Or.inr ⟨u, us, f, rfl, hu, ?_⟩⟩
      · simp only [course, hu, List.map_nil]
      · simp only [course, hu]
    | ok c =>
      obtain ⟨done, rest, hus, hcalls, hend⟩ := ih
      refine ⟨u :: done, rest, congrArg (u :: ·) hus, ?_, ?_⟩
      · simp only [course, hu, List.map_cons, hcalls]
      · simpa only [course, hu] using hend

end Duty

end FieldNotes
