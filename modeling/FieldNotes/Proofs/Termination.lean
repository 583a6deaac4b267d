import FieldNotes.Proofs.Begetting

/-! # Which walks come to an end

The bundled handlers allocate, and what they allocate is walked in its turn.  This comes to an end
as long as no record type begets itself, and it may go on for ever if one does.

* `Dispatcher.walk_ends`: the walks of a dispatcher with bundled handlers come to an end if no
  record type begets itself.
* `Dispatcher.walk_circle_endless`: two types, as ordinary as can be, that beget each other.
-/

namespace FieldNotes

open Nested (Place obeyAll)
open Relation (TransGen)
open Walk (Journal)

/-! ## Dispatchers -/

/-- A dispatcher as it may be after some acts. -/
def Dispatcher.Reachable (d : Dispatcher) : Prop :=
  ∃ bindings nameTag acts, d = ((Usage.start bindings nameTag).after acts).dispatcher

theorem Dispatcher.Reachable.kept {d : Dispatcher} (hd : d.Reachable) :
    d.memo.Kept d.handler? := by
  rcases hd with ⟨bindings, nameTag, acts, rfl⟩
  exact (Usage.after_registry acts (Usage.start bindings nameTag) Memo.Kept.nil).2

theorem Dispatcher.reachable_bundled (s : Schema) (times : Times) :
    (Dispatcher.bundled s times).Reachable :=
  ⟨(Dispatcher.bundled s times).bindings, none, [], rfl⟩

/-- The tag by which the fields of the schemas below are filled. -/
def fillTag : Tag := ⟨"default", "\"1\""⟩

/-- The time that the clocks show below; no field asks for it. -/
def present : Times :=
  .standard .zero

theorem ofRow_fillTag : Tag.ofRow "default:\"1\"" = [fillTag] := by
  decide +kernel

theorem isStop_fillTag : fillTag.isStop = false := by
  decide +kernel

theorem readTag_fillTag (w : Fill) : (Handler.fill w).readTag fillTag =
    (.ok (.fill (.literal "1")), [.parsed fillTag "1"]) := by
  have htext : fillTag.text = .ok "1" := by decide +kernel
  simp only [Handler.readTag, htext]
  rfl

/-- A schema in which nodes hold any number of nodes, and may hold a note, which is filled in. -/
def tree : Schema where
  records :=
    [⟨"Node", [⟨⟨"kids", true, ""⟩, .list (.record "Node")⟩,
       ⟨⟨"note", true, "default:\"1\""⟩, .optional (.record "Note")⟩]⟩,
     ⟨"Note", [⟨⟨"mark", true, "default:\"7\""⟩, .owned (.scalar .text)⟩]⟩]

/-- A node with some nodes below, and no notes. -/
def Tree.node (kids : List Value) : Value :=
  .record "Node" [.list (.record "Node") kids, .nil (.record "Note")]

theorem Tree.fits_node {kids : List Value} (h : ∀ v ∈ kids, v.Fits tree (.record "Node")) :
    (Tree.node kids).Fits tree (.record "Node") := by
  refine .record ?_
  intro i d v hd hv
  rcases i with _ | _ | i
  · rcases Option.some.inj hd with rfl
    rcases Option.some.inj hv with rfl
    exact .list h
  · rcases Option.some.inj hd with rfl
    rcases Option.some.inj hv with rfl
    exact .nil _
  · cases hd

theorem Tree.acyclic (a : String) : ¬ TransGen tree.Leads a a := by
  refine acyclic_of_lt (fun name => if name = "Node" then 0 else 1) ?_ a
  rintro a b ⟨d, hd, hb⟩
  rcases Schema.exists_record_of_mem_decls hd with ⟨decl, hdecl, rfl, hfield⟩
  simp only [tree, List.mem_cons, List.not_mem_nil, or_false] at hdecl
  rcases hdecl with rfl | rfl
  · simp only [List.mem_cons, List.not_mem_nil, or_false] at hfield
    rcases hfield with rfl | rfl
    · cases hb
    · rcases Option.some.inj hb with rfl
      decide
  · simp only [List.mem_cons, List.not_mem_nil, or_false] at hfield
    subst hfield
    cases hb

/-- Notes are begotten: the default of a note is not zero, so the pointer is left at it. -/
theorem Tree.begets : (Dispatcher.bundled tree present).registry.Begets tree "Node" "Note" := by
  have hentered : Field.entered ⟨"note", true, "default:\"1\""⟩ = true := by decide +kernel
  have htag : fillTag ∈ Tag.ofRow "default:\"1\"" := by
    rw [ofRow_fillTag]
    exact List.mem_cons_self
  have hread := congrArg Prod.fst (readTag_fillTag ⟨tree, .standard, present⟩)
  refine ⟨⟨⟨"note", true, "default:\"1\""⟩, .optional (.record "Note")⟩, ?_, hentered, fillTag,
    htag, Handler.fill ⟨tree, .standard, present⟩, .fill (.literal "1"),
    ⟨.unit, Tree.node [], [.field 1], 1, _, .nil (.record "Note")⟩, rfl, hread, rfl, .nil _, rfl,
    ?_⟩
  · exact List.mem_cons_of_mem _ List.mem_cons_self
  · show Multiset.count "Note" 0 < Multiset.count "Note" ("Note" ::ₘ _)
    rw [Multiset.count_zero]
    exact Multiset.count_pos.2 (Multiset.mem_cons_self _ _)

/-- A dispatcher with bundled handlers, with setters that do not grow lists and defaults without
items, comes to the end of its walks if no record type begets itself, be it by way of others. -/
theorem Dispatcher.walk_ends {d : Dispatcher} (hd : d.Reachable) {s : Schema}
    (hbundled : ∀ name h, d.handler? name = some h → h.Bundled s) (hsetters : s.SettersBehave)
    (hdefaults : s.DefaultsBehave)
    (hbegets : ∀ a, ¬ TransGen (d.registry.Begets s) a a) {v : Value} (hv : v.Fits s v.ty)
    (context : Context) :
    ∃ n, (d.walk s context n v).result ≠ .error .exhausted ∧
      ∀ m, n ≤ m → d.walk s context m v = d.walk s context n v := by
  have htame : ∀ name h, d.registry.handler? name = some h → h.Tame s :=
    fun name h hh => (hbundled name h hh).tame hsetters hdefaults
  rcases Registry.walk_settles htame hbegets hv [] with ⟨n, w, hw, hn⟩
  have hend : (d.walk s context n v).result ≠ .error .exhausted := by
    have hsame := (d.walk_registry hd.kept s context n v).1
    have hresult := (Answer.walked.inj hsame).1
    have hwork := congrArg Work.result (hn n (Nat.le_refl n))
    rw [hresult]
    exact fun hcut => hw (hwork.symm.trans hcut)
  refine ⟨n, hend, ?_⟩
  intro m hm
  rw [d.walk_eq_nested] at hend
  rw [d.walk_eq_nested, d.walk_eq_nested]
  exact Nested.walk_deeper _ _ s hm v hend

/-- A tree is walked to its end, though notes are put into it on the way. -/
theorem Dispatcher.walk_tree_ends :
    let d := Dispatcher.bundled tree present
    let v := Tree.node [Tree.node [], Tree.node []]
    d.Reachable ∧ (∀ name h, d.handler? name = some h → h.Bundled tree) ∧ tree.SettersBehave ∧
      tree.DefaultsBehave ∧ d.registry.Begets tree "Node" "Note" ∧
      (∀ a, ¬ TransGen (d.registry.Begets tree) a a) ∧
      v.Fits tree v.ty ∧
      ∃ n, (d.walk tree .unit n v).result ≠ .error .exhausted ∧
        ∀ m, n ≤ m → d.walk tree .unit m v = d.walk tree .unit n v := by
  intro d v
  have hreachable : d.Reachable := Dispatcher.reachable_bundled tree present
  have hbundled : ∀ name h, d.handler? name = some h → h.Bundled tree :=
    fun _ _ hh => Handler.bundled_of_handler? hh
  have hsetters : tree.SettersBehave := Schema.settersBehave_of_none (fun _ => rfl) fun _ => rfl
  have hdefaults : tree.DefaultsBehave := Schema.DefaultsDerived.behave fun _ => rfl
  have hbegets : ∀ a, ¬ TransGen (d.registry.Begets tree) a a :=
    Registry.begets_acyclic_of_leads
      (fun name h hh => (hbundled name h hh).tame hsetters hdefaults) Tree.acyclic
  have hleaf : (Tree.node []).Fits tree (.record "Node") :=
    Tree.fits_node fun w hw => absurd hw List.not_mem_nil
  have hv : v.Fits tree v.ty := by
    refine Tree.fits_node ?_
    intro w hw
    simp only [List.mem_cons, List.not_mem_nil, or_false, or_self] at hw
    subst hw
    exact hleaf
  exact ⟨hreachable, hbundled, hsetters, hdefaults, Tree.begets, hbegets, hv,
    Dispatcher.walk_ends hreachable hbundled hsetters hdefaults hbegets hv .unit⟩

/-! ## A circle -/

/-- The record types that a value of a type holds in place, neither in a box nor in a list. -/
def Ty.parts : Ty → List String
  | .record name => [name]
  | .optional t => t.parts
  | .array _ t => t.parts
  | _ => []

/-- The record types can be laid out: none holds itself in place, and defaults are finite. -/
structure Schema.Declarable (s : Schema) : Prop where
  sized : ∀ a, ¬ TransGen (fun a b => ∃ d ∈ s.decls a, b ∈ d.ty.parts) a a
  defaults : ∀ decl ∈ s.records,
    s.recordDefault (s.records.length + 1) decl.name = s.recordDefault s.records.length decl.name

/-- A schema of two record types that beget each other: the default of a `Lower` has an `Upper` in
its box, and with it another place for a `Lower`. -/
def circle : Schema where
  records :=
    [⟨"Upper", [⟨⟨"below", true, "default:\"1\""⟩, .optional (.record "Lower")⟩]⟩,
     ⟨"Lower", [⟨⟨"above", true, ""⟩, .owned (.record "Upper")⟩]⟩]

namespace Circle

/-- The default of the one type. -/
def upper : Value := .record "Upper" [.nil (.record "Lower")]

/-- The default of the other. -/
def lower : Value := .record "Lower" [.owned upper]

theorem ofRow_empty : Tag.ofRow "" = [] := by
  decide +kernel

/-- The rules of a dispatcher with the bundled handlers. -/
def rules : Nested.Rules := (Dispatcher.bundled circle present).registry.rules .unit

/-- On a nil pointer the filling handler allocates, and is content with what it allocated. -/
theorem obey_fillTag (p : Place) (j : Journal) :
    rules.obey p fillTag (.nil (.record "Lower")) j =
      .done (.present lower) (j.note [.parsed fillTag "1", .dispatching p.field.name "default",
        .called ⟨p.path, p.index, p.field, fillTag, .fill (.literal "1")⟩]) := by
  have hhandler : rules.handler? fillTag.name = some (Handler.fill ⟨circle, .standard, present⟩) :=
    rfl
  have hread : rules.ask j.memo (Handler.fill ⟨circle, .standard, present⟩) fillTag =
      ⟨.ok (.fill (.literal "1")), j.memo, [.parsed fillTag "1"]⟩ := by
    show (⟨_, _, _⟩ : Asked) = _
    rw [readTag_fillTag]
  simp only [Nested.Rules.obey, isStop_fillTag, hhandler, hread]
  have hrun : ∀ site : Site, site.value = .nil (.record "Lower") →
      (Handler.fill ⟨circle, .standard, present⟩).run site (.fill (.literal "1")) =
        ⟨.present lower, .done, []⟩ := by
    intro site hsite
    simp only [Handler.fill, Handler.fillBy, Fill.run, Effect.onTarget, hsite]
    rfl
  simp [Nested.Rules.call, hrun, Work.done, Nested.Rules.ending, Journal.note, fillTag]

/-- The journal of a walk through a value grew by at least `n` calls before the depth gave out. -/
def CutOff (depth n : Nat) (v : Value) : Prop :=
  ∀ path around j, ∃ w k,
    Nested.enter rules.obey circle depth path around v j = .halt .exhausted w k ∧
      (calls j.events).length + n ≤ (calls k.events).length

theorem CutOff.zero (v : Value) : CutOff 0 0 v := by
  intro path around j
  exact ⟨v, j, rfl, Nat.le_refl _⟩

/-- An `Upper` calls the handler, and then enters a `Lower`. -/
theorem cutOff_upper {depth n : Nat} (h : CutOff depth n lower) :
    CutOff (depth + 1) (n + 1) upper := by
  intro path around j
  have hfields : circle.fields "Upper" = [⟨"below", true, "default:\"1\""⟩] := rfl
  have hstop : [fillTag].any Tag.isStop = false := by decide +kernel
  have hdescend : ∀ path around j, Nested.descend (Nested.enter rules.obey circle depth) path around
      (.present lower) j = (Nested.enter rules.obey circle depth (path ++ [.deref])
        (fun x => around (.present x)) lower j).map .present :=
    fun _ _ _ => rfl
  simp only [Nested.enter, upper, hfields, Nested.row, Nested.member, Nested.visit,
    ofRow_fillTag, hstop, obeyAll, obey_fillTag, hdescend, List.getElem?_cons_zero, if_true,
    Bool.false_eq_true, if_false, Work.andThen_done]
  rcases h (path ++ [.field 0] ++ [.deref]) _ _ with ⟨w, k, hw, hle⟩
  rw [hw]
  refine ⟨_, k, rfl, ?_⟩
  rw [Journal.note, calls_append, List.length_append] at hle
  have hone : (calls [Event.parsed fillTag "1", .dispatching "below" "default",
    .called ⟨path ++ [.field 0], 0, ⟨"below", true, "default:\"1\""⟩, fillTag,
      .fill (.literal "1")⟩]).length = 1 := rfl
  omega

/-- A `Lower` enters the `Upper` in its box. -/
theorem cutOff_lower {depth n : Nat} (h : CutOff depth n upper) : CutOff (depth + 1) n lower := by
  intro path around j
  have hfields : circle.fields "Lower" = [⟨"above", true, ""⟩] := rfl
  have hstop : ([] : List Tag).any Tag.isStop = false := rfl
  have hdescend : ∀ path around j, Nested.descend (Nested.enter rules.obey circle depth) path around
      (.owned upper) j = (Nested.enter rules.obey circle depth (path ++ [.deref])
        (fun x => around (.owned x)) upper j).map .owned :=
    fun _ _ _ => rfl
  simp only [Nested.enter, lower, hfields, Nested.row, Nested.member, Nested.visit, ofRow_empty,
    hstop, obeyAll, hdescend, List.getElem?_cons_zero, if_true, Bool.false_eq_true,
    if_false, Work.andThen_done]
  rcases h (path ++ [.field 0] ++ [.deref]) _ j with ⟨w, k, hw, hle⟩
  rw [hw]
  exact ⟨_, k, rfl, hle⟩

theorem cutOff (depth : Nat) :
    CutOff depth (depth / 2) lower ∧ CutOff depth ((depth + 1) / 2) upper := by
  induction depth with
  | zero => exact ⟨.zero lower, .zero upper⟩
  | succ depth ih =>
    have hhalf : (depth + 1 + 1) / 2 = depth / 2 + 1 := by omega
    rw [hhalf]
    exact ⟨cutOff_lower ih.2, cutOff_upper ih.1⟩

theorem declarable : circle.Declarable := by
  constructor
  · refine acyclic_of_lt (fun name => if name = "Upper" then 0 else 1) ?_
    rintro a b ⟨d, hd, hb⟩
    rcases Schema.exists_record_of_mem_decls hd with ⟨decl, hdecl, rfl, hfield⟩
    simp only [circle, List.mem_cons, List.not_mem_nil, or_false] at hdecl
    rcases hdecl with rfl | rfl
    · simp only [List.mem_cons, List.not_mem_nil, or_false] at hfield
      subst hfield
      rcases List.mem_singleton.1 hb with rfl
      decide
    · simp only [List.mem_cons, List.not_mem_nil, or_false] at hfield
      subst hfield
      cases hb
  · intro decl hdecl
    simp only [circle, List.mem_cons, List.not_mem_nil, or_false] at hdecl
    rcases hdecl with rfl | rfl <;> rfl

end Circle

/-- The bundled handlers do not come to an end of every walk.  The types of the circle can be
declared, the value is a default, nothing is set, and yet the walk goes as deep as it is allowed to,
and calls a handler at every other record. -/
theorem Dispatcher.walk_circle_endless :
    let d := Dispatcher.bundled circle present
    let v := circle.default (.record "Upper")
    circle.Declarable ∧ circle.SettersBehave ∧ circle.DefaultsBehave ∧ d.Reachable ∧
      (∀ name h, d.handler? name = some h → h.Bundled circle) ∧ v.Fits circle (.record "Upper") ∧
      ∀ depth,
        (d.walk circle .unit depth v).result = .error .exhausted ∧
        (depth + 1) / 2 ≤ (calls (d.walk circle .unit depth v).events).length := by
  intro d v
  have hdefaults : circle.DefaultsBehave := Schema.DefaultsDerived.behave fun _ => rfl
  refine ⟨Circle.declarable, Schema.settersBehave_of_none (fun _ => rfl) fun _ => rfl, hdefaults,
    Dispatcher.reachable_bundled circle present, fun _ _ hh => Handler.bundled_of_handler? hh,
    Schema.fits_default hdefaults (.record "Upper"), ?_⟩
  intro depth
  have hv : v = Circle.upper := rfl
  rw [hv]
  have hkept := (Dispatcher.reachable_bundled circle present).kept
  have hsame := (Dispatcher.walk_registry hkept circle .unit depth Circle.upper).1
  rcases Answer.walked.inj hsame with ⟨hresult, _, hcalls⟩
  rcases (Circle.cutOff depth).2 [] id ⟨[], [.walking Circle.upper.typeName]⟩ with ⟨w, k, hw, hle⟩
  rw [hresult, hcalls]
  refine ⟨congrArg Work.result hw, ?_⟩
  have hlog := congrArg (fun x : Work Value => (calls x.journal.events).length) hw
  exact le_trans (le_trans (Nat.le_add_left _ _) hle) (Nat.le_of_eq hlog.symm)

end FieldNotes
