import FieldNotes.Derive.Code
import FieldNotes.Derive.Listing
import Mathlib.Data.List.Nodup

/-! # Tables line up with members

All that is written for a record goes back to one list: the fields of the item that are not left
out, in their order, each with its position among all fields.

* `Item.kept` is this list, and `tableOf_eq` and `derive_record_eq` say that tables are made of it.
* `position?_memberOf`: the member of a field is found at the position of the field.
* `RecordCode.field?_ofItem`, `RecordCode.lend?_ofItem`: an accessor leads a position in the table
  to the position of the same field among all fields.
* `derive_lines_up`: descriptors, accessors and the zero test agree, and so do look-ups by name.
-/

namespace FieldNotes.Derive

/-! ## What fields say of themselves -/

/-- The texts that an attribute adds to a row of tags. -/
def Attribute.texts (a : Attribute) : List String :=
  match a.args with
  | .text s => [s]
  | _ => []

/-- Whether the list of an attribute has the entry `skip`. -/
def Attribute.skips (read : ListReader) (a : Attribute) : Bool :=
  match a.args with
  | .list entries => (read entries).names.contains (some "skip")
  | _ => false

namespace ItemField

variable (f : ItemField)

/-- The attributes of a field that are called `tag`. -/
def tags : List Attribute :=
  f.attributes.filter (·.path == "tag")

/-- The rows of tags that a field is annotated with, in order. -/
def rows : List String :=
  f.tags.flatMap Attribute.texts

/-- Whether a field is left out, by `#[tag(skip)]`. -/
def isLeftOut (read : ListReader) : Bool :=
  f.tags.any (Attribute.skips read)

/-- Whether a field is public, and not in some part of the program only. -/
def isPublic : Bool :=
  Text.trim f.visibility == "pub"

end ItemField

/-- The fields of an item that are not left out, with their positions among all fields. -/
def Item.kept (read : ListReader) (item : Item) : List (ItemField × Nat) :=
  item.members.zipIdx.filter fun p => !p.1.isLeftOut read

/-- The name of a field: its own, or its position among all fields where these have no names. -/
def Item.nameOf (item : Item) (p : ItemField × Nat) : String :=
  if item.kind = .tuple then toString p.2 else p.1.name

/-- The fields of a record have names that differ.  Where fields have no names, nothing is asked. -/
def Item.NamesApart (item : Item) : Prop :=
  item.kind ≠ .tuple → (item.members.map (·.name)).Nodup

/-! ## Reading attributes -/

section Reading

variable {ε α β : Type}

theorem bind_eq_ok_iff {x : Except ε α} {f : α → Except ε β} {b : β} :
    x >>= f = .ok b ↔ ∃ a, x = .ok a ∧ f a = .ok b := by
  cases x <;> simp [bind, Except.bind]

/-- A list is accepted if it can be read to its end and its entries are accepted in order. -/
theorem Listing.handOver_eq_ok_iff {σ : Type} {l : Listing}
    {accept : σ → Option String → Except DeriveError σ} {s s' : σ} :
    l.handOver accept s = .ok s' ↔ l.names.foldlM accept s = .ok s' ∧ l.broken = none := by
  rw [handOver, bind_eq_ok_iff]
  cases l.broken with
  | none =>
    constructor
    · rintro ⟨next, hnames, hend⟩
      cases hend
      exact ⟨hnames, rfl⟩
    · rintro ⟨hnames, -⟩
      exact ⟨s', hnames, rfl⟩
  | some message =>
    constructor
    · rintro ⟨_, _, hend⟩
      cases hend
    · rintro ⟨_, hend⟩
      cases hend

end Reading

/-! ## What attributes say -/

section Attributes

variable {read : ListReader}

/-- The only entry that a field's list may have is `skip`. -/
theorem addEntry_foldlM_eq_ok {names : List (Option String)} {t t' : Tags}
    (h : names.foldlM addEntry t = .ok t') :
    t' = ⟨t.texts, t.skip || names.contains (some "skip")⟩ := by
  induction names generalizing t with
  | nil =>
    cases h
    simp
  | cons name names ih =>
    rw [List.foldlM_cons, bind_eq_ok_iff] at h
    rcases h with ⟨next, hadd, hrest⟩
    unfold addEntry at hadd
    split at hadd
    · rename_i hname
      cases hadd
      rw [ih hrest, hname]
      simp
    · cases hadd

theorem addTag_eq_ok {t t' : Tags} {a : Attribute} (h : addTag read t a = .ok t') :
    t' = ⟨t.texts ++ a.texts, t.skip || a.skips read⟩ := by
  unfold addTag at h
  split at h
  · cases h
  · rename_i s hargs
    cases h
    simp [Attribute.texts, Attribute.skips, hargs]
  · cases h
  · rename_i entries hargs
    rw [addEntry_foldlM_eq_ok (Listing.handOver_eq_ok_iff.1 h).1]
    simp only [Attribute.texts, Attribute.skips, hargs, List.append_nil]

theorem foldlM_addTag_eq_ok {as : List Attribute} {t t' : Tags}
    (h : as.foldlM (addTag read) t = .ok t') :
    t' = ⟨t.texts ++ as.flatMap Attribute.texts, t.skip || as.any (Attribute.skips read)⟩ := by
  induction as generalizing t with
  | nil =>
    cases h
    simp
  | cons a as ih =>
    rw [List.foldlM_cons, bind_eq_ok_iff] at h
    rcases h with ⟨next, hadd, hrest⟩
    rw [ih hrest, addTag_eq_ok hadd]
    simp [Bool.or_assoc]

/-- What is read off the attributes of a field is what they say, if they are accepted. -/
theorem tagsOf_eq_ok {f : ItemField} {t : Tags} (h : tagsOf read f = .ok t) :
    t = ⟨f.rows, f.isLeftOut read⟩ := by
  unfold tagsOf at h
  split at h
  · cases h
  · have htags := foldlM_addTag_eq_ok h
    rwa [List.nil_append, Bool.false_or] at htags

/-! ## Tables -/

/-- The entry that a field of an item gets, if it is not left out. -/
def entryAt (kind : ItemKind) (p : ItemField × Nat) : Entry :=
  let m := memberOf kind p.2 p.1
  ⟨m, ⟨m.name, p.1.isPublic, String.intercalate " " p.1.rows⟩⟩

theorem toList_entryOf {kind : ItemKind} {i : Nat} {f : ItemField} {t : Tags}
    (h : tagsOf read f = .ok t) :
    (entryOf kind i f t).toList =
      ([(f, i)].filter fun p => !p.1.isLeftOut read).map (entryAt kind) := by
  rw [tagsOf_eq_ok h, entryOf]
  cases hskip : f.isLeftOut read with
  | true => simp [hskip]
  | false =>
    simp only [Bool.false_eq_true, if_false, List.filter_cons, hskip, Bool.not_false, if_true]
    rfl

theorem tableOf_eq {kind : ItemKind} {i : Nat} {fs : List ItemField} {table : List Entry}
    (h : tableOf read kind i fs = .ok table) :
    table = ((fs.zipIdx i).filter fun p => !p.1.isLeftOut read).map (entryAt kind) := by
  induction fs generalizing i table with
  | nil =>
    cases h
    rfl
  | cons f fs ih =>
    simp only [tableOf, bind_eq_ok_iff] at h
    rcases h with ⟨t, htags, rest, hrest, hall⟩
    rcases Except.ok.inj hall with rfl
    rw [List.zipIdx_cons, ← List.singleton_append, List.filter_append, List.map_append,
      toList_entryOf htags, ih hrest]

/-- A record's table has the fields that are not left out. -/
theorem derive_record_eq {item : Item} {table : List Entry} {o : Options}
    (h : derive read item = .ok (.record table o)) :
    table = (item.kept read).map (entryAt item.kind) := by
  simp only [derive] at h
  split at h
  · cases h
  · rcases bind_eq_ok_iff.1 h with ⟨o', _, hrest⟩
    split at hrest
    · cases hrest
    · split at hrest
      · cases hrest
      · rcases bind_eq_ok_iff.1 hrest with ⟨table', htable, heq⟩
        cases heq
        exact tableOf_eq htable

end Attributes

/-! ## Positions -/

section Positions

variable {read : ListReader} {item : Item} {p : ItemField × Nat}

theorem mem_kept :
    p ∈ item.kept read ↔ item.members[p.2]? = some p.1 ∧ p.1.isLeftOut read = false := by
  simp [Item.kept, List.mem_zipIdx_iff_getElem?]

/-- The positions of the fields in a table ascend. -/
theorem pairwise_kept (read : ListReader) (item : Item) :
    ((item.kept read).map (·.2)).Pairwise (· < ·) := by
  have hall : (item.members.zipIdx.map (·.2)).Pairwise (· < ·) := by
    rw [List.zipIdx_map_snd]
    exact List.pairwise_lt_range'
  exact hall.sublist (List.filter_sublist.map _)

theorem memberOf_name (item : Item) (p : ItemField × Nat) :
    (memberOf item.kind p.2 p.1).name = item.nameOf p := by
  unfold memberOf Item.nameOf
  split <;> rfl

/-- Fields that are kept have different names. -/
theorem nodup_names (hnames : item.NamesApart) : ((item.kept read).map item.nameOf).Nodup := by
  by_cases hkind : item.kind = .tuple
  · have hname : item.nameOf = (fun n : Nat => toString n) ∘ (·.2) := by
      funext p
      exact if_pos hkind
    have hpositions : ((item.kept read).map (·.2)).Nodup :=
      (pairwise_kept read item).imp Nat.ne_of_lt
    rw [hname, ← List.map_map]
    refine hpositions.map fun m n hmn => ?_
    -- a position is read off its digits
    have hread := congrArg (fun s : String => Nat.ofDigitChars 10 s.toList 0) hmn
    simpa only [Nat.toString_eq_ofList_toDigits, String.toList_ofList,
      Nat.ofDigitChars_ten_toDigits] using hread
  · have hname : item.nameOf = (·.name) ∘ (·.1) := by
      funext p
      exact if_neg hkind
    have hall : ((item.members.zipIdx.map (·.1)).map (·.name)).Nodup := by
      rw [List.zipIdx_map_fst]
      exact hnames hkind
    rw [hname, ← List.map_map]
    exact hall.sublist ((List.filter_sublist.map _).map _)

/-- The member that a field is has the position of the field. -/
theorem position?_memberOf (hnames : item.NamesApart) (hp : item.members[p.2]? = some p.1) :
    item.position? (memberOf item.kind p.2 p.1) = some p.2 := by
  rcases List.getElem?_eq_some_iff.1 hp with ⟨hlt, hget⟩
  unfold memberOf
  by_cases hkind : item.kind = .tuple
  · rw [if_pos hkind, Item.position?, if_pos hlt]
  · rw [if_neg hkind, Item.position?, List.findIdx?_eq_some_iff_getElem]
    refine ⟨hlt, by simp [hget], ?_⟩
    intro j hj hsame
    -- no field before it has its name
    have hname : item.members[j].name = item.members[p.2].name := by simpa [hget] using hsame
    have heq : (item.members.map (·.name))[j]? = (item.members.map (·.name))[p.2]? := by
      rw [List.getElem?_map, List.getElem?_map, List.getElem?_eq_getElem (Nat.lt_trans hj hlt),
        List.getElem?_eq_getElem hlt, Option.map_some, Option.map_some, hname]
    have hindex := (List.getElem?_inj (by simpa using Nat.lt_trans hj hlt) (hnames hkind)).1 heq
    exact Nat.ne_of_lt hj hindex

end Positions

/-! ## What is written -/

theorem lookup_range' {α : Type} (as : List α) (n k : Nat) :
    ((List.range' n as.length).zip as).lookup (n + k) = as[k]? := by
  induction as generalizing n k with
  | nil => rfl
  | cons a as ih =>
    rw [List.length_cons, List.range'_succ, List.zip_cons_cons, List.lookup_cons]
    cases k with
    | zero => simp
    | succ k =>
      have hne : (n + (k + 1) == n) = false := by simp
      have hnext : n + (k + 1) = n + 1 + k := by omega
      rw [hne, hnext, ih]
      rfl

theorem lookup_numbered (ms : List Member) (k : Nat) : (numbered ms).lookup k = ms[k]? := by
  have hlookup := lookup_range' ms 0 k
  rwa [Nat.zero_add, ← List.range_eq_range'] at hlookup

namespace RecordCode

variable {read : ListReader} {item : Item} {α : Type}

/-- What is written for the table of an item. -/
def ofItem (read : ListReader) (item : Item) : RecordCode :=
  .ofTable ((item.kept read).map (entryAt item.kind))

theorem descriptors_ofItem (k : Nat) :
    (ofItem read item).descriptors[k]? = ((item.kept read)[k]?).map fun p =>
      ⟨⟨item.nameOf p, p.1.isPublic, String.intercalate " " p.1.rows⟩, k⟩ := by
  simp only [ofItem, ofTable, List.getElem?_map, List.getElem?_zipIdx, Option.map_map, Nat.zero_add]
  congr 1
  funext p
  simp only [Function.comp_apply, entryAt, memberOf_name]

theorem lookup_ofItem (k : Nat) :
    (numbered (((item.kept read).map (entryAt item.kind)).map (·.member))).lookup k =
      ((item.kept read)[k]?).map fun p => memberOf item.kind p.2 p.1 := by
  rw [lookup_numbered, List.map_map, List.getElem?_map]
  rfl

variable (hnames : item.NamesApart) (x : Contents item α)

include hnames

theorem get?_memberOf {p : ItemField × Nat} (hp : p ∈ item.kept read) :
    x.get? (memberOf item.kind p.2 p.1) = x.parts[p.2]? := by
  rw [Contents.get?, position?_memberOf hnames (mem_kept.1 hp).1, Option.bind_some]

/-- At a position stands what the field there holds. -/
theorem field?_ofItem (k : Nat) :
    (ofItem read item).field? x k = ((item.kept read)[k]?).bind fun p => x.parts[p.2]? := by
  have hlookup : (ofItem read item).reads.lookup k =
      ((item.kept read)[k]?).map fun p => memberOf item.kind p.2 p.1 := lookup_ofItem k
  rw [field?, hlookup]
  cases hp : (item.kept read)[k]? with
  | none => rfl
  | some p => exact get?_memberOf hnames x (List.mem_of_getElem? hp)

/-- What is lent at a position is what the field there holds, and to write it is to write that. -/
theorem lend?_ofItem (k : Nat) :
    (ofItem read item).lend? x k = ((item.kept read)[k]?).bind fun p =>
      (x.parts[p.2]?).map fun a => (a, x.setAt p.2) := by
  have hlookup : (ofItem read item).lends.lookup k =
      ((item.kept read)[k]?).map fun p => memberOf item.kind p.2 p.1 := lookup_ofItem k
  rw [lend?, hlookup]
  cases hp : (item.kept read)[k]? with
  | none => rfl
  | some p =>
    have hmem := List.mem_of_getElem? hp
    have hset : x.set (memberOf item.kind p.2 p.1) = x.setAt p.2 := by
      funext a
      simp only [Contents.set, position?_memberOf hnames (mem_kept.1 hmem).1]
    simp only [Option.map_some, Option.bind_some, get?_memberOf hnames x hmem, hset]

theorem positions_tests :
    (ofItem read item).tests.map item.position? = (item.kept read).map fun p => some p.2 := by
  simp only [ofItem, ofTable, List.map_map]
  refine List.map_congr_left fun p hp => ?_
  exact position?_memberOf hnames (mem_kept.1 hp).1

/-- A value is zero if all is that the fields in the table hold. -/
theorem isZero_ofItem (zero : α → Bool) :
    (ofItem read item).isZero zero x = true ↔
      ∀ p ∈ item.kept read, ∃ a, x.parts[p.2]? = some a ∧ zero a = true := by
  unfold isZero
  rw [List.all_eq_true]
  have htests : (ofItem read item).tests =
      (item.kept read).map fun p => memberOf item.kind p.2 p.1 := by
    simp only [ofItem, ofTable, List.map_map]
    rfl
  rw [htests, List.forall_mem_map]
  refine forall₂_congr fun p hp => ?_
  rw [get?_memberOf hnames x hp, Option.any_eq_true]

omit hnames in
theorem length_descriptors : (ofItem read item).descriptors.length = (item.kept read).length := by
  simp [ofItem, ofTable]

/-- There is something at the positions of the table, and at no others. -/
theorem field?_isSome (k : Nat) :
    ((ofItem read item).field? x k).isSome = true ↔ k < (ofItem read item).descriptors.length := by
  rw [field?_ofItem hnames, length_descriptors]
  cases hp : (item.kept read)[k]? with
  | none => simp [List.getElem?_eq_none_iff.1 hp]
  | some p =>
    have hmember := (mem_kept.1 (List.mem_of_getElem? hp)).1
    rcases List.getElem?_eq_some_iff.1 hmember with ⟨hlt, _⟩
    rcases List.getElem?_eq_some_iff.1 hp with ⟨hk, _⟩
    have hpart : p.2 < x.parts.length := x.length_parts ▸ hlt
    simp [hk, hpart]

/-- The record that walks are shown holds at a position what is read there. -/
theorem reflect_getElem? (x : Contents item Value) (k : Nat) :
    ((List.range (ofItem read item).descriptors.length).filterMap
      ((ofItem read item).field? x))[k]? = (ofItem read item).field? x k := by
  have hmap : (List.range (ofItem read item).descriptors.length).filterMap
        ((ofItem read item).field? x) =
      (List.range (ofItem read item).descriptors.length).map
        fun k => ((ofItem read item).field? x k).getD default := by
    rw [List.filterMap_eq_map_iff_forall_eq_some]
    intro k hk
    have hsome := (field?_isSome hnames x k).2 (List.mem_range.1 hk)
    rcases Option.isSome_iff_exists.1 hsome with ⟨v, hv⟩
    rw [hv, Option.getD_some]
  rw [hmap, List.getElem?_map]
  by_cases hk : k < (ofItem read item).descriptors.length
  · have hsome := (field?_isSome hnames x k).2 hk
    rcases Option.isSome_iff_exists.1 hsome with ⟨v, hv⟩
    simp [hk, hv]
  · have hnone : (ofItem read item).field? x k = none := by
      rw [Option.eq_none_iff_forall_ne_some]
      intro v hv
      exact hk ((field?_isSome hnames x k).1 (by rw [hv]; rfl))
    simp [hk, hnone]

end RecordCode

/-! ## Names -/

/-- Among fields of different names, each is found by its own. -/
theorem lastIndex?_eq_some {fields : List Field} {k : Nat} {f : Field}
    (hnames : (fields.map (·.name)).Nodup) (hf : fields[k]? = some f) :
    Schema.lastIndex? fields f.name = some k := by
  unfold Schema.lastIndex?
  have hmem : (f, k) ∈ fields.zipIdx.reverse :=
    List.mem_reverse.2 (List.mk_mem_zipIdx_iff_getElem?.2 hf)
  cases hfound : fields.zipIdx.reverse.find? (·.1.name == f.name) with
  | none =>
    have hne := List.find?_eq_none.1 hfound (f, k) hmem
    simp at hne
  | some p =>
    -- what is found has the name too, so it stands at the same position
    have hname : p.1.name = f.name := by
      have hsame := List.find?_some hfound
      exact eq_of_beq hsame
    have hp := List.mem_zipIdx_iff_getElem?.1
      (List.mem_reverse.1 (List.mem_of_find?_eq_some hfound))
    rcases List.getElem?_eq_some_iff.1 hp with ⟨hi, _⟩
    have heq : (fields.map (·.name))[p.2]? = (fields.map (·.name))[k]? := by
      rw [List.getElem?_map, List.getElem?_map, hp, hf, Option.map_some, Option.map_some, hname]
    rw [Option.map_some, (List.getElem?_inj (by simpa using hi) hnames).1 heq]

theorem RecordCode.map_name_fields (read : ListReader) (item : Item) :
    (ofItem read item).fields.map (·.name) = (item.kept read).map item.nameOf := by
  refine List.ext_getElem? fun k => ?_
  simp only [fields, List.getElem?_map, descriptors_ofItem, Option.map_map]
  rfl

/-- What is written for an item lines up with its members.

The fields that are described are those that are not left out, in their order, each under its
position in the table.  They have their own names, or where fields have none their positions among
all fields; they are exported if they are public; and their rows are what their attributes say,
joined by blanks.  At a position of the table both accessors lead to what the field there holds,
also where others are left out before it, and past the table they lead nowhere.  The zero test
looks at each of these fields once.  Each field is found by its name, at its position. -/
theorem derive_lines_up {read : ListReader} {item : Item} {table : List Entry} {o : Options}
    (h : derive read item = .ok (.record table o)) (hnames : item.NamesApart) :
    let code := (Derived.record table o).code
    (∀ k : Nat, code.descriptors[k]? = ((item.kept read)[k]?).map fun p =>
      (⟨⟨item.nameOf p, p.1.isPublic, String.intercalate " " p.1.rows⟩, k⟩ : Descriptor)) ∧
    (∀ (α : Type) (x : Contents item α) (k : Nat),
      code.field? x k = (((item.kept read)[k]?).bind fun p => x.parts[p.2]?) ∧
      code.lend? x k = (((item.kept read)[k]?).bind fun p =>
        (x.parts[p.2]?).map fun a => (a, x.setAt p.2)) ∧
      ((code.field? x k).isSome = true ↔ k < code.descriptors.length)) ∧
    (code.tests.map item.position? = (item.kept read).map (fun p => some p.2) ∧
      ((item.kept read).map (·.2)).Pairwise (· < ·) ∧
      ∀ (α : Type) (zero : α → Bool) (x : Contents item α),
        code.isZero zero x = true ↔
          ∀ p ∈ item.kept read, ∃ a, x.parts[p.2]? = some a ∧ zero a = true) ∧
    ∀ k d, code.descriptors[k]? = some d →
      Schema.lastIndex? code.fields d.field.name = some k ∧
      (Schema.lastIndex? code.fields d.field.name).bind (code.descriptors[·]?) = some d ∧
      ∀ (schema : Schema) (name : String) (x : Contents item Value),
        schema.fields name = code.fields →
          schema.fieldNamed? (code.reflect name x) d.field.name = code.field? x k := by
  intro code
  have hcode : code = RecordCode.ofItem read item := by
    simp only [code, Derived.code, Derived.table, RecordCode.ofItem, derive_record_eq h]
  rw [hcode]
  refine ⟨RecordCode.descriptors_ofItem, fun α x k => ?_, ⟨RecordCode.positions_tests hnames,
    pairwise_kept read item, fun α zero x => RecordCode.isZero_ofItem hnames x zero⟩, ?_⟩
  · exact ⟨RecordCode.field?_ofItem hnames x k, RecordCode.lend?_ofItem hnames x k,
      RecordCode.field?_isSome hnames x k⟩
  · intro k d hd
    have hfield : (RecordCode.ofItem read item).fields[k]? = some d.field := by
      rw [RecordCode.fields, List.getElem?_map, hd, Option.map_some]
    have hindex : Schema.lastIndex? (RecordCode.ofItem read item).fields d.field.name = some k :=
      lastIndex?_eq_some (RecordCode.map_name_fields read item ▸ nodup_names hnames) hfield
    refine ⟨hindex, by rw [hindex, Option.bind_some, hd], fun schema name x hfields => ?_⟩
    rw [RecordCode.reflect, Schema.fieldNamed?, Schema.indexOf?, hfields, hindex]
    exact RecordCode.reflect_getElem? hnames x k

/-! ## A table with a gap -/

namespace Draft

/-- A draft with a title of two rows, a mark that is left out, and a body that is not public. -/
def item : Item where
  kind := .record
  parameters := []
  whereClause := ""
  attributes := []
  fields :=
    [⟨"title", "pub", [⟨"tag", .text "json:\"t\""⟩, ⟨"tag", .text "default:\"untitled\""⟩]⟩,
     ⟨"mark", "pub", [⟨"tag", .list ["skip"]⟩]⟩,
     ⟨"body", "pub(crate)", []⟩]

def title : Entry :=
  ⟨.named "title", ⟨"title", true, "json:\"t\" default:\"untitled\""⟩⟩

def body : Entry :=
  ⟨.named "body", ⟨"body", false, ""⟩⟩

/-- What is held: a number for each of the three fields. -/
def contents : Contents item Nat :=
  ⟨[10, 20, 30], rfl⟩

theorem derive_item : derive .standard item = .ok (.record [title, body] {}) := by
  decide +kernel

theorem kept_item : item.kept .standard = [(item.fields[0], 0), (item.fields[2], 2)] := by
  decide +kernel

theorem namesApart : item.NamesApart := by
  intro _
  decide

end Draft

/-- The body of a draft is the third of its fields and the second in its table. -/
theorem Draft.lines_up :
    derive .standard Draft.item = .ok (.record [Draft.title, Draft.body] {}) ∧
      Draft.item.NamesApart ∧
      let code := (Derived.record [Draft.title, Draft.body] {}).code
      code.field? Draft.contents 1 = some 30 ∧
        Schema.lastIndex? code.fields "body" = some 1 := by
  have hall := derive_lines_up Draft.derive_item Draft.namesApart
  refine ⟨Draft.derive_item, Draft.namesApart, ?_, ?_⟩
  · have hfield := (hall.2.1 Nat Draft.contents 1).1
    rw [Draft.kept_item] at hfield
    exact hfield
  · exact (hall.2.2.2 1 ⟨Draft.body.field, 1⟩ rfl).1

end FieldNotes.Derive
