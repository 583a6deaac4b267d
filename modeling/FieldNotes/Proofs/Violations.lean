import FieldNotes.Proofs.Listings

/-! # Violations

An item may break the rules in several places.  All violations come in one order: parameters for
lifetimes, the attributes of the item and their entries, its kind, and its fields with their
attributes and entries.  From an item with violations nothing is derived, and the first of them is
what it is rejected for.

* `Item.violations` lists the violations of an item, and `derive_eq_verdict` says that the first of
  them decides.
* `Item.violations_eq_nil` says which items have none.
* `Item.Rewords`: an item says the same as another one, with other attributes that are not looked
  at, and with its flags listed in another way.
* `derive_rejects_first_violation`: when an item is rejected and for what, and when it is not.
-/

namespace FieldNotes.Derive

/-! ## Lists of names -/

/-- What is wrong with an entry where a list may have these names only. -/
def entryViolations (allowed : List String) (unknown : DeriveError) (name : Option String) :
    List DeriveError :=
  if name ∈ allowed.map some then [] else [unknown]

/-- What is wrong with a list that may have these names only. -/
def listViolations (allowed : List String) (unknown : DeriveError) (l : Listing) :
    List DeriveError :=
  l.violations (entryViolations allowed unknown)

section Read

variable (read : ListReader)

namespace Attribute

variable (a : Attribute) (allowed : List String)

/-- The names of the entries of an attribute's list. -/
def names : List (Option String) :=
  match a.args with
  | .list entries => (read entries).names
  | _ => []

/-- Whether the arguments of an attribute are a list of these names, in any order and number. -/
def IsListOf : Prop :=
  ∃ entries, a.args = .list entries ∧ (read entries).broken = none ∧
    ∀ name ∈ a.names read, name ∈ allowed.map some

end Attribute

end Read

section Lists

variable {read : ListReader}

theorem entryViolations_eq_nil {allowed : List String} {unknown : DeriveError}
    {name : Option String} :
    entryViolations allowed unknown name = [] ↔ name ∈ allowed.map some := by
  simp [entryViolations]

theorem listViolations_eq_nil {a : Attribute} {entries : List String} {allowed : List String}
    {unknown : DeriveError} (h : a.args = .list entries) :
    listViolations allowed unknown (read entries) = [] ↔ a.IsListOf read allowed := by
  have hnames : a.names read = (read entries).names := by rw [Attribute.names, h]
  simp only [listViolations, Listing.violations, List.append_eq_nil_iff, List.flatMap_eq_nil_iff,
    entryViolations_eq_nil, ← hnames]
  constructor
  · rintro ⟨hall, hbroken⟩
    exact ⟨entries, h, by simpa using hbroken, hall⟩
  · rintro ⟨entries', h', hbroken, hall⟩
    cases h.symm.trans h'
    exact ⟨hall, by simp [hbroken]⟩

/-- A list of names is read as these names. -/
theorem Attribute.isListOf_names (hread : read.ReadsNames) {a : Attribute}
    {ws allowed : List String} (hallowed : ∀ w ∈ allowed, IsName w) (h : a.args = .list ws)
    (hws : ∀ w ∈ ws, w ∈ allowed) : a.names read = ws.map some ∧ a.IsListOf read allowed := by
  have hlisting := hread ws fun w hw => hallowed w (hws w hw)
  have hnames : a.names read = ws.map some := by simp only [names, h, hlisting]
  refine ⟨hnames, ws, h, by rw [hlisting], ?_⟩
  intro name hname
  rw [hnames] at hname
  obtain ⟨w, hw, rfl⟩ := List.mem_map.1 hname
  exact List.mem_map_of_mem (hws w hw)

end Lists

/-! ## Flags -/

/-- The flags of items. -/
def flagNames : List String :=
  ["setter", "format_setter", "opaque"]

/-- The flags, and one more of this name. -/
def Options.add (o : Options) (name : Option String) : Options :=
  ⟨o.setter || some "setter" == name, o.formatSetter || some "format_setter" == name,
    o.isSealed || some "opaque" == name⟩

/-- The flags that are among these names. -/
def Options.ofNames (names : List (Option String)) : Options :=
  ⟨names.contains (some "setter"), names.contains (some "format_setter"),
    names.contains (some "opaque")⟩

/-- What is wrong with one of the item's attributes. -/
def Attribute.flagViolations (read : ListReader) (a : Attribute) : List DeriveError :=
  match a.args with
  | .none => [.noArguments]
  | .text _ | .literal => [.noParentheses]
  | .list entries => listViolations flagNames .unknownOption (read entries)

theorem Attribute.flagViolations_eq_nil {read : ListReader} {a : Attribute} :
    a.flagViolations read = [] ↔ a.IsListOf read flagNames := by
  obtain ⟨path, args⟩ := a
  cases args with
  | list entries => exact listViolations_eq_nil rfl
  | _ => simp [flagViolations, IsListOf]

theorem isName_flagNames : ∀ w ∈ flagNames, IsName w := by
  simp only [flagNames, List.forall_mem_cons]
  exact ⟨⟨_, _, rfl, by decide⟩, ⟨_, _, rfl, by decide⟩, ⟨_, _, rfl, by decide⟩,
    List.forall_mem_nil _⟩

theorem choose_eq_verdict (o : Options) (name : Option String) :
    choose o name = verdict (entryViolations flagNames .unknownOption name) (o.add name) := by
  unfold choose
  split
  case h_4 hsetter hformat hopaque =>
    have hunknown : name ∉ flagNames.map some := by
      simp only [flagNames, List.map_cons, List.map_nil, List.mem_cons, List.not_mem_nil, or_false]
      rintro (h | h | h)
      · exact hsetter h
      · exact hformat h
      · exact hopaque h
    rw [entryViolations, if_neg hunknown]
    rfl
  all_goals simp [entryViolations, flagNames, Options.add, verdict]

theorem foldl_add (names : List (Option String)) (o : Options) :
    names.foldl Options.add o =
      ⟨o.setter || names.contains (some "setter"),
        o.formatSetter || names.contains (some "format_setter"),
        o.isSealed || names.contains (some "opaque")⟩ := by
  induction names generalizing o with
  | nil => simp
  | cons name names ih =>
    rw [List.foldl_cons, ih]
    simp only [Options.add, List.contains_cons, Bool.or_assoc]

theorem chooseAll_eq_verdict (read : ListReader) (o : Options) (a : Attribute) :
    chooseAll read o a = verdict (a.flagViolations read) ((a.names read).foldl Options.add o) := by
  obtain ⟨path, args⟩ := a
  cases args with
  | list entries => exact Listing.handOver_eq_verdict choose_eq_verdict (read entries) o
  | _ => rfl

namespace Item

variable (item : Item)

/-- The attributes of an item that are called `reflect`. -/
def marks : List Attribute :=
  item.attributes.filter (·.path == "reflect")

/-- The flags of an item. -/
def flags (read : ListReader) : Options :=
  .ofNames (item.marks.flatMap (Attribute.names read))

end Item

theorem options_eq_verdict (read : ListReader) (item : Item) :
    options read item.attributes =
      verdict (item.marks.flatMap (Attribute.flagViolations read)) (item.flags read) := by
  have hflags : item.marks.foldl (fun o a => (a.names read).foldl Options.add o) {} =
      item.flags read := by
    rw [← List.foldl_flatMap, foldl_add]
    simp only [Bool.false_or]
    rfl
  rw [← hflags]
  exact foldlM_eq_verdict (chooseAll_eq_verdict read) {} item.marks

/-! ## Fields -/

/-- What is wrong with one of a field's attributes. -/
def Attribute.tagViolations (read : ListReader) (a : Attribute) : List DeriveError :=
  match a.args with
  | .none => [.bareTag]
  | .text _ => []
  | .literal => [.notText]
  | .list entries => listViolations ["skip"] .unknownTagOption (read entries)

theorem Attribute.tagViolations_eq_nil {read : ListReader} {a : Attribute} :
    a.tagViolations read = [] ↔ (∃ s, a.args = .text s) ∨ a.IsListOf read ["skip"] := by
  obtain ⟨path, args⟩ := a
  cases args with
  | list entries =>
    have hlist : Attribute.tagViolations read ⟨path, .list entries⟩ = [] ↔
        Attribute.IsListOf read ⟨path, .list entries⟩ ["skip"] := listViolations_eq_nil rfl
    simp [hlist]
  | _ => simp [tagViolations, IsListOf]

theorem addEntry_eq_verdict (t : Tags) (name : Option String) :
    addEntry t name =
      verdict (entryViolations ["skip"] .unknownTagOption name) { t with skip := true } := by
  unfold addEntry entryViolations
  simp only [List.map_cons, List.map_nil, List.mem_singleton]
  split <;> rfl

theorem addTag_eq_verdict (read : ListReader) (t : Tags) (a : Attribute) :
    addTag read t a =
      verdict (a.tagViolations read) ⟨t.texts ++ a.texts, t.skip || a.skips read⟩ := by
  -- what an accepted attribute says is known, so only the violations are left to be found
  refine eq_verdict_of_ok ?_ fun _ => addTag_eq_ok
  obtain ⟨path, args⟩ := a
  cases args with
  | list entries => exact ⟨_, Listing.handOver_eq_verdict addEntry_eq_verdict (read entries) t⟩
  | text s => exact ⟨_, rfl⟩
  | _ => exact ⟨t, rfl⟩

namespace ItemField

variable (read : ListReader) (f : ItemField)

/-- What is wrong with the attributes of a field. -/
def violations : List DeriveError :=
  (if f.attributes.any (·.path == "reflect") then [.misplaced] else []) ++
    f.tags.flatMap (Attribute.tagViolations read)

/-- Whether nothing is wrong with the attributes of a field. -/
def IsSound : Prop :=
  (∀ a ∈ f.attributes, a.path ≠ "reflect") ∧
    ∀ a ∈ f.tags, (∃ s, a.args = .text s) ∨ a.IsListOf read ["skip"]

variable {read}

theorem not_isSound_iff {f : ItemField} :
    ¬ f.IsSound read ↔ (∃ a ∈ f.attributes, a.path = "reflect") ∨
      ∃ a ∈ f.tags, (∀ s, a.args ≠ .text s) ∧ ¬ a.IsListOf read ["skip"] := by
  simp only [IsSound, not_and_or, not_forall, exists_prop, not_not, not_or, not_exists]

theorem violations_eq_nil {f : ItemField} :
    f.violations read = [] ↔ f.IsSound read := by
  simp [violations, IsSound, Attribute.tagViolations_eq_nil]

end ItemField

section Verdicts

variable (read : ListReader)

theorem tagsOf_eq_verdict (f : ItemField) :
    tagsOf read f = verdict (f.violations read) ⟨f.rows, f.isLeftOut read⟩ := by
  refine eq_verdict_of_ok ?_ fun _ => tagsOf_eq_ok
  unfold tagsOf ItemField.violations
  split
  · exact ⟨{}, rfl⟩
  · exact ⟨_, foldlM_eq_verdict (addTag_eq_verdict read) {} f.tags⟩

theorem tableOf_eq_verdict (kind : ItemKind) (i : Nat) (fs : List ItemField) :
    tableOf read kind i fs = verdict (fs.flatMap (ItemField.violations read))
      (((fs.zipIdx i).filter fun p => !p.1.isLeftOut read).map (entryAt kind)) := by
  refine eq_verdict_of_ok ?_ fun _ => tableOf_eq
  induction fs generalizing i with
  | nil => exact ⟨[], rfl⟩
  | cons f fs ih =>
    obtain ⟨rest, hrest⟩ := ih (i + 1)
    refine ⟨(entryOf kind i f ⟨f.rows, f.isLeftOut read⟩).toList ++ rest, ?_⟩
    rw [tableOf, tagsOf_eq_verdict, List.flatMap_cons]
    refine verdict_bind ?_
    rw [hrest]
    exact verdict_map _

end Verdicts

/-! ## Items -/

namespace Item

variable (read : ListReader) (item : Item)

/-- What is wrong with the parameters of an item. -/
def parameterViolations : List DeriveError :=
  if item.parameters.any isLifetime then [.lifetime] else []

/-- What is wrong with the kind of an item and with its fields, where these matter. -/
def recordViolations : List DeriveError :=
  if (item.flags read).isSealed then []
  else (if item.kind = .enum ∨ item.kind = .union then [.notARecord] else []) ++
    item.members.flatMap (ItemField.violations read)

/-- All violations of an item, in order. -/
def violations : List DeriveError :=
  item.parameterViolations ++
    (item.marks.flatMap (Attribute.flagViolations read) ++ item.recordViolations read)

/-- What is derived from an item without violations. -/
def derived : Derived :=
  if (item.flags read).isSealed then .scalar (item.flags read)
  else .record ((item.kept read).map (entryAt item.kind)) (item.flags read)

end Item

/-- An item is rejected for its first violation. -/
theorem derive_eq_verdict (read : ListReader) (item : Item) :
    derive read item = verdict (item.violations read) (item.derived read) := by
  -- what is left to be checked once the attributes of the item are accepted
  have hrecord : (do
      if (item.flags read).isSealed then return .scalar (item.flags read)
      if item.kind = .enum ∨ item.kind = .union then throw .notARecord
      return .record (← tableOf read item.kind 0 item.members) (item.flags read) :
        Except DeriveError Derived) =
        verdict (item.recordViolations read) (item.derived read) := by
    unfold Item.recordViolations Item.derived
    cases (item.flags read).isSealed with
    | true => rfl
    | false =>
      by_cases hkind : item.kind = .enum ∨ item.kind = .union
      · simp only [hkind, if_true]
        rfl
      · simp only [hkind, if_false, tableOf_eq_verdict]
        exact verdict_map _
  unfold derive Item.violations Item.parameterViolations
  rw [options_eq_verdict]
  cases item.parameters.any isLifetime with
  | true => rfl
  | false => exact verdict_bind hrecord

namespace Item

variable {read : ListReader} {item : Item}

theorem recordViolations_eq_nil :
    item.recordViolations read = [] ↔ (item.flags read).isSealed = true ∨
      (item.kind ≠ .enum ∧ item.kind ≠ .union) ∧ ∀ f ∈ item.members, f.IsSound read := by
  unfold recordViolations
  cases (item.flags read).isSealed with
  | true => simp
  | false => simp [ItemField.violations_eq_nil]

/-- Which items have no violations. -/
theorem violations_eq_nil :
    item.violations read = [] ↔ item.parameters.any isLifetime = false ∧
      (∀ a ∈ item.marks, a.IsListOf read flagNames) ∧
      ((item.flags read).isSealed = true ∨
        (item.kind ≠ .enum ∧ item.kind ≠ .union) ∧ ∀ f ∈ item.members, f.IsSound read) := by
  have hparameters : item.parameterViolations = [] ↔ item.parameters.any isLifetime = false := by
    unfold parameterViolations
    cases item.parameters.any isLifetime <;> simp
  simp only [violations, List.append_eq_nil_iff, List.flatMap_eq_nil_iff,
    Attribute.flagViolations_eq_nil, recordViolations_eq_nil, hparameters]

end Item

/-! ## Other words for the same -/

/-- Whether an attribute is looked at. -/
def Attribute.isKnown (a : Attribute) : Bool :=
  a.path == "tag" || a.path == "reflect"

/-- A field has the same name and visibility as another one, and of the attributes that are looked
at it has the same. -/
structure ItemField.Rewords (f g : ItemField) : Prop where
  name : g.name = f.name
  visibility : g.visibility = f.visibility
  attributes : g.attributes.filter Attribute.isKnown = f.attributes.filter Attribute.isKnown

/-- An item is the same as another one but for attributes: those of its fields that are not looked
at may be any, and those of its own may be any that are wrong in the same ways and list the same
flags. -/
structure Item.Rewords (read : ListReader) (x y : Item) : Prop where
  kind : y.kind = x.kind
  parameters : y.parameters = x.parameters
  whereClause : y.whereClause = x.whereClause
  marks : y.marks.flatMap (Attribute.flagViolations read) =
    x.marks.flatMap (Attribute.flagViolations read)
  flags : ∀ w ∈ flagNames,
    some w ∈ y.marks.flatMap (Attribute.names read) ↔
      some w ∈ x.marks.flatMap (Attribute.names read)
  fields : List.Forall₂ ItemField.Rewords x.fields y.fields

namespace ItemField.Rewords

variable {f g : ItemField} (h : f.Rewords g)

include h

theorem tags_eq : g.tags = f.tags := by
  have htags (f : ItemField) :
      f.tags = (f.attributes.filter Attribute.isKnown).filter (·.path == "tag") := by
    rw [tags, List.filter_filter]
    refine List.filter_congr fun a _ => ?_
    cases hpath : a.path == "tag" <;> simp [Attribute.isKnown, hpath]
  rw [htags, htags, h.attributes]

theorem tagsOf_eq (read : ListReader) : tagsOf read g = tagsOf read f := by
  have hany (f : ItemField) : f.attributes.any (·.path == "reflect") =
      (f.attributes.filter Attribute.isKnown).any (·.path == "reflect") := by
    rw [List.any_filter]
    congr 1
    funext a
    cases hpath : a.path == "reflect" <;> simp [Attribute.isKnown, hpath]
  unfold tagsOf
  rw [hany, hany f, h.attributes]
  have htags := h.tags_eq
  unfold ItemField.tags at htags
  rw [htags]

theorem entryOf_eq (kind : ItemKind) (i : Nat) (t : Tags) :
    entryOf kind i g t = entryOf kind i f t := by
  simp only [entryOf, memberOf, h.name, h.visibility]

end ItemField.Rewords

theorem tableOf_eq_of_rewords {fs gs : List ItemField} (h : List.Forall₂ ItemField.Rewords fs gs)
    (read : ListReader) (kind : ItemKind) (i : Nat) :
    tableOf read kind i gs = tableOf read kind i fs := by
  induction h generalizing i with
  | nil => rfl
  | cons hfirst _ ih => simp only [tableOf, hfirst.tagsOf_eq, hfirst.entryOf_eq, ih]

namespace Item.Rewords

variable {read : ListReader} {x y : Item} (h : x.Rewords read y)

include h

theorem flags_eq : y.flags read = x.flags read := by
  have hsame (w : String) (hw : w ∈ flagNames) :
      (y.marks.flatMap (Attribute.names read)).contains (some w) =
        (x.marks.flatMap (Attribute.names read)).contains (some w) := by
    rw [Bool.eq_iff_iff, List.contains_iff_mem, List.contains_iff_mem]
    exact h.flags w hw
  unfold Item.flags Options.ofNames
  rw [hsame _ (by decide), hsame _ (by decide), hsame _ (by decide)]

theorem derive_eq : derive read y = derive read x := by
  have hmembers : List.Forall₂ ItemField.Rewords x.members y.members := by
    unfold Item.members
    rw [h.kind]
    split
    · exact h.fields
    · exact h.fields
    all_goals exact .nil
  unfold derive
  -- of the attributes of an item, only their violations and flags matter
  rw [options_eq_verdict, options_eq_verdict, h.marks, h.flags_eq, h.parameters, h.kind,
    tableOf_eq_of_rewords hmembers]

theorem heading_eq (bound : String) : heading bound y = heading bound x := by
  unfold heading
  rw [h.parameters, h.whereClause]

end Item.Rewords

/-! ## Flags in other lists -/

/-- The attribute that lists these flags. -/
def flagAttribute (ws : List String) : Attribute :=
  ⟨"reflect", .list ws⟩

theorem filter_flagAttribute (wss : List (List String)) :
    (wss.map flagAttribute).filter (·.path == "reflect") = wss.map flagAttribute := by
  rw [List.filter_eq_self]
  intro a ha
  obtain ⟨ws, _, rfl⟩ := List.mem_map.1 ha
  rfl

section Flags

variable {read : ListReader} (hread : read.ReadsNames) {wss : List (List String)}
  (hws : ∀ w ∈ wss.flatten, w ∈ flagNames)

include hread hws

theorem flagAttribute_isListOf {ws : List String} (h : ws ∈ wss) :
    (flagAttribute ws).names read = ws.map some ∧ (flagAttribute ws).IsListOf read flagNames :=
  Attribute.isListOf_names hread isName_flagNames rfl fun w hw =>
    hws w (List.mem_flatten.2 ⟨ws, h, hw⟩)

theorem flatMap_flagViolations :
    (wss.map flagAttribute).flatMap (Attribute.flagViolations read) = [] := by
  rw [List.flatMap_eq_nil_iff, List.forall_mem_map]
  intro ws h
  exact Attribute.flagViolations_eq_nil.2 (flagAttribute_isListOf hread hws h).2

theorem flatMap_names :
    (wss.map flagAttribute).flatMap (Attribute.names read) = wss.flatten.map some := by
  rw [List.flatMap_map, List.map_flatten, ← List.flatMap_def]
  exact List.flatMap_congr fun ws h => (flagAttribute_isListOf hread hws h).1

end Flags

/-- Flags may be listed in any order, more than once, and in any number of attributes. -/
theorem Item.rewords_of_lists {read : ListReader} (hread : read.ReadsNames) (item : Item)
    (before after : List Attribute) {wss wss' : List (List String)}
    (hws : ∀ w ∈ wss.flatten, w ∈ flagNames)
    (hsame : ∀ w, w ∈ wss'.flatten ↔ w ∈ wss.flatten) :
    Rewords read { item with attributes := before ++ wss.map flagAttribute ++ after }
      { item with attributes := before ++ wss'.map flagAttribute ++ after } := by
  have hws' : ∀ w ∈ wss'.flatten, w ∈ flagNames := fun w hw => hws w ((hsame w).1 hw)
  refine ⟨rfl, rfl, rfl, ?_, ?_, List.forall₂_same.2 fun f _ => ⟨rfl, rfl, rfl⟩⟩
  · simp only [Item.marks, List.filter_append, filter_flagAttribute, List.flatMap_append,
      flatMap_flagViolations hread hws, flatMap_flagViolations hread hws']
  · intro w _
    simp only [Item.marks, List.filter_append, filter_flagAttribute, List.flatMap_append,
      flatMap_names hread hws, flatMap_names hread hws', List.mem_append, List.mem_map, hsame]

/-! ## Which items are rejected -/

/-- An item is rejected for its first violation, and otherwise accepted.

It has a violation if a parameter of it stands for a lifetime, if an attribute `reflect` of it is
anything but a list of flags, or if it is not sealed and is an enumeration or a union, or has a
field, left out or not, with an attribute `reflect`, or with an attribute `tag` that is neither a
text nor a list of `skip`.  Of a sealed item the fields do not matter.  Nothing that is written for
an item depends on attributes of other names, or on how its flags are listed.

All this holds however lists are read; only for flags in other lists one has to know that a list of
names is read as these names. -/
theorem derive_rejects_first_violation (read : ListReader) (item : Item) :
    (derive read item).mapError DeriveError.message =
      verdict ((item.violations read).map DeriveError.message) (item.derived read) ∧
    ((∃ e, derive read item = .error e) ↔
      item.parameters.any isLifetime = true ∨
      (∃ a ∈ item.marks, ¬ a.IsListOf read flagNames) ∨
      ((item.flags read).isSealed = false ∧ (item.kind = .enum ∨ item.kind = .union)) ∨
      ((item.flags read).isSealed = false ∧ ∃ f ∈ item.members,
        (∃ a ∈ f.attributes, a.path = "reflect") ∨
        ∃ a ∈ f.tags, (∀ s, a.args ≠ .text s) ∧ ¬ a.IsListOf read ["skip"])) ∧
    (item.parameters.any isLifetime = false → (∀ a ∈ item.marks, a.IsListOf read flagNames) →
      (item.flags read).isSealed = true → ∀ (kind : ItemKind) (fields : List ItemField),
        derive read { item with kind := kind, fields := fields } =
          .ok (.scalar (item.flags read))) ∧
    (∀ y, item.Rewords read y →
      derive read y = derive read item ∧ ∀ bound, heading bound y = heading bound item) ∧
    (read.ReadsNames → ∀ (before after : List Attribute) (wss wss' : List (List String)),
      (∀ w ∈ wss.flatten, w ∈ flagNames) → (∀ w, w ∈ wss'.flatten ↔ w ∈ wss.flatten) →
        derive read { item with attributes := before ++ wss'.map flagAttribute ++ after } =
          derive read { item with attributes := before ++ wss.map flagAttribute ++ after }) := by
  refine ⟨?_, ?_, ?_, fun y h => ⟨h.derive_eq, h.heading_eq⟩, ?_⟩
  · rw [derive_eq_verdict]
    cases item.violations read <;> rfl
  · have herror : (∃ e, derive read item = .error e) ↔ item.violations read ≠ [] := by
      simp only [derive_eq_verdict, verdict_eq_error_iff]
      rw [← Option.isSome_iff_exists, List.isSome_head?]
    rw [herror, Ne, Item.violations_eq_nil]
    simp only [not_and_or, not_or, Bool.not_eq_false, Bool.not_eq_true, not_forall, exists_prop,
      ne_eq, not_not, ← ItemField.not_isSound_iff]
    rw [and_or_left]
  · intro hparameters hmarks hsealed kind fields
    rw [derive_eq_verdict, verdict_eq_ok_iff, Item.violations_eq_nil]
    refine ⟨⟨hparameters, hmarks, .inl hsealed⟩, ?_⟩
    exact if_pos hsealed
  · intro hread before after wss wss' hws hsame
    exact (item.rewords_of_lists hread before after hws hsame).derive_eq

/-! ## A notice with faults -/

namespace Notice

/-- A notice whose attributes list a flag that is none, and with two faults in a field that is left
out. -/
def item : Item where
  kind := .record
  parameters := ["T"]
  whereClause := ""
  attributes := [⟨"doc", .text "A notice."⟩, ⟨"reflect", .list ["setter", "hidden"]⟩]
  fields :=
    [⟨"title", "pub", [⟨"tag", .text "json:\"t\""⟩]⟩,
     ⟨"mark", "", [⟨"tag", .list ["skip"]⟩, ⟨"tag", .none⟩, ⟨"reflect", .list ["setter"]⟩]⟩]

/-- The same notice, sealed. -/
def sealed : Item :=
  { item with attributes := [⟨"doc", .text "A notice."⟩, ⟨"reflect", .list ["setter", "opaque"]⟩] }

theorem violations_item : item.violations .standard = [.unknownOption, .misplaced, .bareTag] := by
  decide +kernel

end Notice

/-- A notice is rejected for its flag that is none, and where it is sealed, its flags may be listed
the other way round. -/
theorem Notice.rejected_and_sealed :
    (derive .standard item).mapError DeriveError.message = .error "unknown reflect attribute" ∧
    ListReader.standard.ReadsNames ∧ (∀ w ∈ [["setter", "opaque"]].flatten, w ∈ flagNames) ∧
      derive .standard { sealed with
        attributes := [⟨"doc", .text "A notice."⟩] ++
          [["opaque", "setter"], ["setter"]].map flagAttribute ++ [] } =
        .ok (.scalar ⟨true, false, true⟩) := by
  refine ⟨?_, ListReader.readsNames_standard, by decide, ?_⟩
  · rw [(derive_rejects_first_violation .standard item).1, violations_item]
    rfl
  · rw [(derive_rejects_first_violation .standard sealed).2.2.2.2 ListReader.readsNames_standard
      [⟨"doc", .text "A notice."⟩] [] [["setter", "opaque"]] [["opaque", "setter"], ["setter"]]
      (by decide) (by simp [or_comm])]
    decide +kernel

end FieldNotes.Derive
