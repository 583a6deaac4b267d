import FieldNotes.Field.Tagged
import FieldNotes.Samples.Types
import Mathlib.Data.List.Induction
import Mathlib.Data.List.Nodup

/-! # Tables of fields under a tag

Under a tag each field has a value and an argument, or neither; unless the value is a dash, the
field goes by a name.  Where several fields go by one name, the table has it once: at the place of
the first of these fields, and for the last of them.

* `Field.Carries`, `Field.GoesBy` tell what a field has under a tag, and by which name it goes.
* `Table.collect` is a table into which items are put one after the other: names come in the order
  in which they are first put in (`Table.pairwise_collect`), each with the item that was put in last
  (`Table.mem_collect_iff`).
* `taggedFields_lists`: what a table of fields under a tag holds, and in which order.
* `taggedFields_in_order`: which fields are not in it, and where it is in their order.
-/

namespace FieldNotes

open Text

/-- A tag is the first one of its name in a row. -/
def Tag.IsFirst (row name : String) (t : Tag) : Prop :=
  t.name = name ∧
    ∃ before after, ofRow row = before ++ t :: after ∧ ∀ t' ∈ before, t'.name ≠ name

theorem Tag.isFirst_iff {row name : String} {t : Tag} :
    IsFirst row name t ↔ (ofRow row).find? (·.name == name) = some t := by
  rw [List.find?_eq_some_iff_append]
  simp only [IsFirst, beq_iff_eq, Bool.not_eq_true', beq_eq_false_iff_ne, exists_and_right]

namespace Field

/-- What a field has under a tag: a value and an argument. -/
inductive Carries (f : Field) (tag : String) : String → String → Prop
  /-- No tag has this name. -/
  | absent (h : ∀ t ∈ Tag.ofRow f.row, t.name ≠ tag) : Carries f tag "" ""
  /-- The first tag of this name cannot be read, whatever comes behind it. -/
  | unreadable {t : Tag} {e : UnquoteError} (hfirst : Tag.IsFirst f.row tag t)
      (htext : t.text = .error e) : Carries f tag "" ""
  /-- The text of the first tag of this name falls into two parts. -/
  | parts {t : Tag} {text : String} (hfirst : Tag.IsFirst f.row tag t) (htext : t.text = .ok text) :
      Carries f tag (Tag.splitArg text).1 (Tag.splitArg text).2

/-- A field goes by a name under a tag: by its value, or by its declared name if that is empty. -/
structure GoesBy (f : Field) (tag name value arg : String) : Prop where
  carries : f.Carries tag value arg
  value_ne_dash : value ≠ "-"
  name_eq : name = if value = "" then f.name else value

variable {f : Field} {tag name value arg : String} {i : Nat} {e : TaggedField}

theorem carries_iff : f.Carries tag value arg ↔ (f.tagValue? tag).getD ⟨"", ""⟩ = ⟨value, arg⟩ := by
  constructor
  · intro h
    cases h with
    | absent h =>
      have hfind : (Tag.ofRow f.row).find? (·.name == tag) = none :=
        List.find?_eq_none.2 fun t ht => by simpa using h t ht
      simp only [tagValue?, Tag.find?, hfind, Option.bind_none, Option.map_none, Option.getD_none]
    | unreadable hfirst htext =>
      simp only [tagValue?, Tag.find?, Tag.isFirst_iff.1 hfirst, Option.bind_some, htext]
      rfl
    | parts hfirst htext =>
      simp only [tagValue?, Tag.find?, Tag.isFirst_iff.1 hfirst, Option.bind_some, htext]
      rfl
  · intro h
    cases hfind : (Tag.ofRow f.row).find? (·.name == tag) with
    | none =>
      simp only [tagValue?, Tag.find?, hfind, Option.bind_none, Option.map_none,
        Option.getD_none] at h
      cases h
      exact .absent fun t ht => by simpa using List.find?_eq_none.1 hfind t ht
    | some t =>
      simp only [tagValue?, Tag.find?, hfind, Option.bind_some] at h
      cases htext : t.text with
      | error e =>
        rw [htext] at h
        cases h
        exact .unreadable (Tag.isFirst_iff.2 hfind) htext
      | ok text =>
        rw [htext] at h
        cases h
        exact .parts (Tag.isFirst_iff.2 hfind) htext

/-- A field carries something under every tag, and one thing only. -/
theorem exists_carries (f : Field) (tag : String) :
    ∃ value arg, f.Carries tag value arg ∧
      ∀ value' arg', f.Carries tag value' arg' → value' = value ∧ arg' = arg := by
  refine ⟨_, _, carries_iff.2 rfl, ?_⟩
  intro value' arg' h
  have heq := carries_iff.1 h
  exact ⟨congrArg TagValue.value heq.symm, congrArg TagValue.arg heq.symm⟩

/-- A field goes by one name at most. -/
theorem GoesBy.name_unique {name' value' arg' : String} (h : f.GoesBy tag name value arg)
    (h' : f.GoesBy tag name' value' arg') : name' = name := by
  obtain ⟨_, _, -, hunique⟩ := f.exists_carries tag
  have hvalue := (hunique _ _ h'.carries).1.trans (hunique _ _ h.carries).1.symm
  rw [h'.name_eq, h.name_eq, hvalue]

/-- A field goes by a name unless its value is a dash. -/
theorem exists_goesBy_iff :
    (∃ name value arg, f.GoesBy tag name value arg) ↔ ¬ ∃ arg, f.Carries tag "-" arg := by
  obtain ⟨value, arg, hcarries, hunique⟩ := f.exists_carries tag
  constructor
  · rintro ⟨name, value', arg', h⟩ ⟨arg'', hdash⟩
    have hvalue := (hunique _ _ h.carries).1.trans (hunique _ _ hdash).1.symm
    exact h.value_ne_dash hvalue
  · intro h
    refine ⟨_, value, arg, hcarries, ?_, rfl⟩
    rintro rfl
    exact h ⟨arg, hcarries⟩

theorem resolve?_eq_of_carries (i : Nat) (h : f.Carries tag value arg) :
    f.resolve? i tag = if value = "-" then none
      else some ⟨if value = "" then f.name else value, value, arg, i, f⟩ := by
  simp only [resolve?, carries_iff.1 h]

theorem resolve?_eq_some_iff : f.resolve? i tag = some e ↔
    f.GoesBy tag e.name e.value e.arg ∧ e.index = i ∧ e.field = f := by
  obtain ⟨value, arg, hcarries, hunique⟩ := f.exists_carries tag
  rw [resolve?_eq_of_carries i hcarries]
  constructor
  · intro h
    split at h
    · cases h
    · rename_i hdash
      cases h
      exact ⟨⟨hcarries, hdash, rfl⟩, rfl, rfl⟩
  · rintro ⟨hgoes, hindex, hfield⟩
    obtain ⟨hvalue, harg⟩ := hunique _ _ hgoes.carries
    have hdash : value ≠ "-" := hvalue ▸ hgoes.value_ne_dash
    rw [if_neg hdash]
    obtain ⟨name, value', arg', index, field⟩ := e
    have hname := hgoes.name_eq
    simp only at hvalue harg hindex hfield hname
    rw [hname, hvalue, harg, hindex, hfield]

/-- A field is left out if its value is a dash. -/
theorem resolve?_eq_none_iff : f.resolve? i tag = none ↔ ∃ arg, f.Carries tag "-" arg := by
  obtain ⟨value, arg, hcarries, hunique⟩ := f.exists_carries tag
  rw [resolve?_eq_of_carries i hcarries]
  constructor
  · intro h
    split at h
    · rename_i hdash
      exact ⟨arg, hdash ▸ hcarries⟩
    · cases h
  · rintro ⟨arg', h⟩
    rw [if_pos (hunique _ _ h).1.symm]

end Field

/-! ## Tables -/

namespace Table

variable {α : Type} {t : Table α} {name : String} {a : α} {e : String × α}

theorem mem_keys_insert {n : String} :
    n ∈ (t.insert name a).map (·.1) ↔ n = name ∨ n ∈ t.map (·.1) := by
  rw [keys_insert]
  split
  · rename_i hname
    exact ⟨Or.inr, fun h => h.elim (fun heq => heq ▸ hname) id⟩
  · rw [List.mem_append, List.mem_singleton, or_comm]

/-- What is inserted takes the place of what had its name, and nothing else goes. -/
theorem mem_insert : e ∈ t.insert name a ↔ e = (name, a) ∨ e ∈ t ∧ e.1 ≠ name := by
  by_cases h : ∃ e' ∈ t, e'.1 = name
  · have hany : t.any (·.1 == name) = true := by simpa [List.any_eq_true] using h
    obtain ⟨e', he', hname⟩ := h
    rw [insert, if_pos hany, List.mem_map]
    constructor
    · rintro ⟨e'', he'', rfl⟩
      by_cases hname' : e''.1 = name
      · exact Or.inl (by simp [hname'])
      · exact Or.inr (by simpa [hname'] using he'')
    · rintro (rfl | ⟨he, hne⟩)
      · exact ⟨e', he', by simp [hname]⟩
      · exact ⟨e, he, by simp [hne]⟩
  · have hany : ¬ t.any (·.1 == name) = true := by simpa [List.any_eq_true] using h
    rw [insert, if_neg hany, List.mem_append, List.mem_singleton, or_comm]
    refine or_congr_right ?_
    exact ⟨fun he => ⟨he, fun hname => h ⟨e, he, hname⟩⟩, And.left⟩

/-- The table of some items, each put in under its key, one after the other. -/
def collect (key : α → String) (as : List α) : Table α :=
  as.foldl (fun t a => t.insert (key a) a) []

variable {key : α → String} {as : List α}

theorem collect_concat : collect key (as ++ [a]) = (collect key as).insert (key a) a := by
  rw [collect, List.foldl_append]
  rfl

theorem nodup_collect : ((collect key as).map (·.1)).Nodup := by
  induction as using List.reverseRecOn with
  | nil => exact .nil
  | append_singleton as a ih =>
    rw [collect_concat, keys_insert]
    split
    · exact ih
    · rename_i hnew
      exact ih.append (List.nodup_singleton _) (List.disjoint_singleton.2 hnew)

theorem mem_keys_collect : name ∈ (collect key as).map (·.1) ↔ ∃ a ∈ as, key a = name := by
  induction as using List.reverseRecOn with
  | nil => simp [collect]
  | append_singleton as a ih =>
    rw [collect_concat, mem_keys_insert, ih]
    simp only [List.mem_append, List.mem_singleton, or_and_right, exists_or, exists_eq_left]
    rw [or_comm, eq_comm]

/-- Each name has the item that was put in last under it. -/
theorem mem_collect_iff : e ∈ collect key as ↔
    key e.2 = e.1 ∧ ∃ before after, as = before ++ e.2 :: after ∧ ∀ b ∈ after, key b ≠ e.1 := by
  induction as using List.reverseRecOn with
  | nil => simp [collect]
  | append_singleton as a ih =>
    rw [collect_concat, mem_insert, ih]
    constructor
    · rintro (rfl | ⟨⟨hkey, before, after, rfl, hafter⟩, hne⟩)
      · exact ⟨rfl, as, [], rfl, List.forall_mem_nil _⟩
      · refine ⟨hkey, before, after ++ [a], by simp, ?_⟩
        intro b hb
        rcases List.mem_append.1 hb with hb | hb
        · exact hafter b hb
        · rw [List.mem_singleton.1 hb]
          exact hne.symm
    · rintro ⟨hkey, before, after, heq, hafter⟩
      rcases after.eq_nil_or_concat' with rfl | ⟨after, b, rfl⟩
      · obtain ⟨rfl, ha⟩ := List.append_inj' heq rfl
        obtain rfl := List.singleton_inj.1 ha
        exact Or.inl (by rw [hkey])
      · rw [← List.cons_append, ← List.append_assoc] at heq
        obtain ⟨rfl, ha⟩ := List.append_inj' heq rfl
        obtain rfl := List.singleton_inj.1 ha
        refine Or.inr ⟨⟨hkey, before, after, rfl, ?_⟩, ?_⟩
        · exact fun b hb => hafter b (List.mem_append_left _ hb)
        · exact (hafter a (List.mem_append_right _ List.mem_cons_self)).symm

/-- Names come in the order in which they were first put in. -/
theorem pairwise_collect : ((collect key as).map (·.1)).Pairwise fun m n =>
    ∃ before a after, as = before ++ a :: after ∧ key a = m ∧ ∀ b ∈ before, key b ≠ n := by
  induction as using List.reverseRecOn with
  | nil => exact .nil
  | append_singleton as a ih =>
    have hold : ((collect key as).map (·.1)).Pairwise fun m n => ∃ before b after,
        as ++ [a] = before ++ b :: after ∧ key b = m ∧ ∀ c ∈ before, key c ≠ n := by
      refine ih.imp ?_
      rintro m n ⟨before, b, after, rfl, hkey, hbefore⟩
      exact ⟨before, b, after ++ [a], by simp, hkey, hbefore⟩
    rw [collect_concat, keys_insert]
    split
    · exact hold
    · -- a new name comes behind all others, and no item was put in under it
      rename_i hnew
      refine List.pairwise_append.2 ⟨hold, List.pairwise_singleton _ _, ?_⟩
      intro m hm n hn
      obtain rfl := List.mem_singleton.1 hn
      obtain ⟨b, hb, hkey⟩ := mem_keys_collect.1 hm
      obtain ⟨before, after, rfl⟩ := List.append_of_mem hb
      refine ⟨before, b, after ++ [a], by simp, hkey, ?_⟩
      intro c hc hname
      exact hnew (mem_keys_collect.2 ⟨c, List.mem_append_left _ hc, hname⟩)

end Table

/-! ## Fields in a table -/

/-- The fields that are not left out, each with what it carries under a tag. -/
def keptFields (fields : List Field) (tag : String) : List TaggedField :=
  fields.zipIdx.filterMap fun (f, i) => f.resolve? i tag

/-- The field at a position goes by a name. -/
def GoesAt (fields : List Field) (tag : String) (i : Nat) (name : String) : Prop :=
  ∃ f value arg, fields[i]? = some f ∧ f.GoesBy tag name value arg

/-- No two fields go by one name. -/
def NamesDiffer (fields : List Field) (tag : String) : Prop :=
  ∀ i j name, GoesAt fields tag i name → GoesAt fields tag j name → i = j

section

variable {fields : List Field} {tag name : String} {i : Nat} {e : TaggedField}

theorem mem_keptFields : e ∈ keptFields fields tag ↔
    fields[e.index]? = some e.field ∧ e.field.GoesBy tag e.name e.value e.arg := by
  rw [keptFields, List.mem_filterMap]
  constructor
  · rintro ⟨⟨f, i⟩, hf, he⟩
    obtain ⟨hgoes, rfl, rfl⟩ := Field.resolve?_eq_some_iff.1 he
    exact ⟨List.mk_mem_zipIdx_iff_getElem?.1 hf, hgoes⟩
  · rintro ⟨hf, hgoes⟩
    exact ⟨(e.field, e.index), List.mk_mem_zipIdx_iff_getElem?.2 hf,
      Field.resolve?_eq_some_iff.2 ⟨hgoes, rfl, rfl⟩⟩

/-- They are in the order of the fields. -/
theorem pairwise_keptFields : (keptFields fields tag).Pairwise fun e e' => e.index < e'.index := by
  have hall : (fields.zipIdx.map (·.2)).Pairwise (· < ·) := by
    rw [List.zipIdx_map_snd]
    exact List.pairwise_lt_range'
  refine (List.pairwise_map.1 hall).filterMap _ ?_
  intro p p' hlt e he e' he'
  obtain ⟨-, hindex, -⟩ := Field.resolve?_eq_some_iff.1 he
  obtain ⟨-, hindex', -⟩ := Field.resolve?_eq_some_iff.1 he'
  rwa [hindex, hindex']

theorem goesAt_iff :
    GoesAt fields tag i name ↔ ∃ e ∈ keptFields fields tag, e.index = i ∧ e.name = name := by
  constructor
  · rintro ⟨f, value, arg, hf, hgoes⟩
    exact ⟨⟨name, value, arg, i, f⟩, mem_keptFields.2 ⟨hf, hgoes⟩, rfl, rfl⟩
  · rintro ⟨e, he, rfl, rfl⟩
    obtain ⟨hf, hgoes⟩ := mem_keptFields.1 he
    exact ⟨e.field, e.value, e.arg, hf, hgoes⟩

/-- The field at a position goes by one name at most. -/
theorem GoesAt.name_unique {name' : String} (h : GoesAt fields tag i name)
    (h' : GoesAt fields tag i name') : name' = name := by
  obtain ⟨f, value, arg, hf, hgoes⟩ := h
  obtain ⟨f', value', arg', hf', hgoes'⟩ := h'
  obtain rfl := Option.some.inj (hf.symm.trans hf')
  exact hgoes.name_unique hgoes'

theorem namesDiffer_of_nodup (h : ((keptFields fields tag).map (·.name)).Nodup) :
    NamesDiffer fields tag := by
  intro i j name hi hj
  obtain ⟨e, he, rfl, hname⟩ := goesAt_iff.1 hi
  obtain ⟨e', he', rfl, rfl⟩ := goesAt_iff.1 hj
  exact congrArg TaggedField.index (List.inj_on_of_nodup_map h he he' hname)

/-- What a table of the fields under a tag holds, and in which order. -/
structure Lists (fields : List Field) (tag : String) (table : Table TaggedField) : Prop where
  nodup : (table.map (·.1)).Nodup
  mem_iff : ∀ name, name ∈ table.map (·.1) ↔ ∃ i, GoesAt fields tag i name
  /-- Names come in the order of the first fields that go by them. -/
  first : (table.map (·.1)).Pairwise fun m n =>
    ∃ i, GoesAt fields tag i m ∧ ∀ j, GoesAt fields tag j n → i < j
  entry : ∀ e ∈ table, e.2.name = e.1 ∧ fields[e.2.index]? = some e.2.field ∧
    e.2.field.GoesBy tag e.1 e.2.value e.2.arg
  /-- Names stand for the last fields that go by them. -/
  last : ∀ e ∈ table, ∀ j, GoesAt fields tag j e.1 → j ≤ e.2.index

theorem lists_taggedTable (fields : List Field) (tag : String) :
    Lists fields tag (taggedTable fields tag) := by
  have hcollect : taggedTable fields tag =
      Table.collect TaggedField.name (keptFields fields tag) := rfl
  have hpairwise : (keptFields fields tag).Pairwise fun e e' => e.index < e'.index :=
    pairwise_keptFields
  rw [hcollect]
  refine { nodup := Table.nodup_collect, mem_iff := ?_, first := ?_, entry := ?_, last := ?_ }
  · intro name
    rw [Table.mem_keys_collect]
    constructor
    · rintro ⟨e, he, hname⟩
      exact ⟨e.index, goesAt_iff.2 ⟨e, he, rfl, hname⟩⟩
    · rintro ⟨i, h⟩
      obtain ⟨e, he, -, hname⟩ := goesAt_iff.1 h
      exact ⟨e, he, hname⟩
  · refine (Table.nodup_collect.and Table.pairwise_collect).imp ?_
    rintro m n ⟨hne, before, e, after, heq, hname, hbefore⟩
    rw [heq] at hpairwise
    have hmem : e ∈ keptFields fields tag := by
      rw [heq]
      exact List.mem_append_right _ List.mem_cons_self
    refine ⟨e.index, goesAt_iff.2 ⟨e, hmem, rfl, hname⟩, ?_⟩
    intro j h
    obtain ⟨e', he', rfl, rfl⟩ := goesAt_iff.1 h
    -- who goes by the other name stands behind the first that goes by this one
    rw [heq, List.mem_append, List.mem_cons] at he'
    rcases he' with he' | rfl | he'
    · exact absurd rfl (hbefore e' he')
    · exact absurd hname.symm hne
    · exact List.rel_of_pairwise_cons (List.pairwise_append.1 hpairwise).2.1 he'
  · intro e he
    obtain ⟨hname, before, after, heq, -⟩ := Table.mem_collect_iff.1 he
    have hmem : e.2 ∈ keptFields fields tag := by
      rw [heq]
      exact List.mem_append_right _ List.mem_cons_self
    obtain ⟨hf, hgoes⟩ := mem_keptFields.1 hmem
    exact ⟨hname, hf, hname ▸ hgoes⟩
  · intro e he j h
    obtain ⟨hname, before, after, heq, hafter⟩ := Table.mem_collect_iff.1 he
    obtain ⟨e', he', rfl, hname'⟩ := goesAt_iff.1 h
    rw [heq] at hpairwise he'
    rcases List.mem_append.1 he' with he' | he'
    · exact Nat.le_of_lt ((List.pairwise_append.1 hpairwise).2.2 e' he' e.2 List.mem_cons_self)
    · rcases List.mem_cons.1 he' with rfl | he'
      · exact Nat.le_refl _
      · exact absurd hname' (hafter e' he')

theorem taggedFields_eq (fields : List Field) (htag : tag ≠ "") :
    taggedFields fields tag = .ok (taggedTable fields tag) := by
  have hrequire : requireName .taggedFields tag = .ok () := by simp [requireName, htag]
  rw [taggedFields, hrequire]
  rfl

/-- A table of fields under a tag has each name once that a field goes by, in the order of the first
fields that go by them, and under each name the last field that goes by it, with what it carries.
Every field carries one thing under a tag; if its first tag of the name cannot be read, it goes by
its declared name, whatever comes behind that tag. -/
theorem taggedFields_lists (fields : List Field) (htag : tag ≠ "") :
    ∃ table, taggedFields fields tag = .ok table ∧
      (table.map (·.1)).Nodup ∧
      (∀ name, name ∈ table.map (·.1) ↔ ∃ i, GoesAt fields tag i name) ∧
      ((table.map (·.1)).Pairwise fun m n =>
        ∃ i, GoesAt fields tag i m ∧ ∀ j, GoesAt fields tag j n → i < j) ∧
      (∀ e ∈ table, e.2.name = e.1 ∧ fields[e.2.index]? = some e.2.field ∧
        e.2.field.GoesBy tag e.1 e.2.value e.2.arg ∧
        ∀ j, GoesAt fields tag j e.1 → j ≤ e.2.index) ∧
      ∀ f ∈ fields,
        (∃ value arg, f.Carries tag value arg ∧
          ∀ value' arg', f.Carries tag value' arg' → value' = value ∧ arg' = arg) ∧
        ∀ t e, Tag.IsFirst f.row tag t → t.text = .error e → f.GoesBy tag f.name "" "" := by
  have h := lists_taggedTable fields tag
  refine ⟨_, taggedFields_eq fields htag, h.nodup, h.mem_iff, h.first, ?_, ?_⟩
  · intro e he
    obtain ⟨hname, hf, hgoes⟩ := h.entry e he
    exact ⟨hname, hf, hgoes, h.last e he⟩
  · intro f _
    refine ⟨f.exists_carries tag, ?_⟩
    intro t e hfirst htext
    exact ⟨.unreadable hfirst htext, by decide, rfl⟩

/-- The table has each name once that a field goes by, and no others.  It has the field itself if no
later one goes by the same name.  What a name stands for comes before all that is behind it in the
table if only one field goes by this name.  So the table has all fields that are not left out, in
their order, if no two of them go by one name. -/
theorem taggedFields_in_order (fields : List Field) (htag : tag ≠ "") :
    ∃ table, taggedFields fields tag = .ok table ∧
      (table.map (·.1)).Nodup ∧
      (∀ name, (∃ e ∈ table, e.1 = name) ↔ ∃ i, GoesAt fields tag i name) ∧
      (∀ i name, GoesAt fields tag i name →
        ((∃ e ∈ table, e.2.index = i) ↔ ∀ j, GoesAt fields tag j name → j ≤ i)) ∧
      (table.Pairwise fun e e' =>
        (∀ j, GoesAt fields tag j e.1 → j = e.2.index) → e.2.index < e'.2.index) ∧
      (NamesDiffer fields tag →
        (∀ i f, fields[i]? = some f → ¬ (∃ arg, f.Carries tag "-" arg) →
          ∃ e ∈ table, e.2.index = i) ∧
        (table.map (·.2.index)).Pairwise (· < ·)) := by
  have h := lists_taggedTable fields tag
  have hgoes : ∀ e ∈ taggedTable fields tag, GoesAt fields tag e.2.index e.1 := by
    intro e he
    obtain ⟨-, hf, hgoes⟩ := h.entry e he
    exact ⟨_, _, _, hf, hgoes⟩
  have hnames : ∀ name, (∃ e ∈ taggedTable fields tag, e.1 = name) ↔
      ∃ i, GoesAt fields tag i name :=
    fun name => List.mem_map.symm.trans (h.mem_iff name)
  have hlast : ∀ i name, GoesAt fields tag i name →
      ((∃ e ∈ taggedTable fields tag, e.2.index = i) ↔ ∀ j, GoesAt fields tag j name → j ≤ i) := by
    intro i name hi
    constructor
    · rintro ⟨e, he, rfl⟩
      obtain rfl := hi.name_unique (hgoes e he)
      exact h.last e he
    · intro hle
      obtain ⟨e, he, rfl⟩ := (hnames name).2 ⟨i, hi⟩
      exact ⟨e, he, Nat.le_antisymm (hle _ (hgoes e he)) (h.last e he i hi)⟩
  have horder : (taggedTable fields tag).Pairwise fun e e' =>
      (∀ j, GoesAt fields tag j e.1 → j = e.2.index) → e.2.index < e'.2.index := by
    refine (List.pairwise_map.1 h.first).imp_of_mem ?_
    rintro e e' - he' ⟨i, hi, hbefore⟩ hsole
    -- the first field of the name is the only one
    obtain rfl := hsole i hi
    exact hbefore _ (hgoes e' he')
  refine ⟨_, taggedFields_eq fields htag, h.nodup, hnames, hlast, horder, ?_⟩
  intro hdiffer
  constructor
  · intro i f hf hkept
    obtain ⟨name, value, arg, hname⟩ := Field.exists_goesBy_iff.2 hkept
    have hi : GoesAt fields tag i name := ⟨f, value, arg, hf, hname⟩
    exact (hlast i name hi).2 fun j hj => Nat.le_of_eq (hdiffer j i name hj hi)
  · refine List.pairwise_map.2 (horder.imp_of_mem ?_)
    intro e e' he _ hbefore
    exact hbefore fun j hj => hdiffer j e.2.index e.1 hj (hgoes e he)

end

/-! ## Tables of samples -/

namespace Accounts

/-- The fields of an account. -/
def fields : List Field :=
  (Samples.account "").fields.map (·.field)

theorem names_kept : (keptFields fields "json").map (·.name) =
    ["id", "name", "note", "created"] := by
  decide +kernel

theorem tagged : (taggedTable fields "json").map (fun e => (e.1, e.2.index, e.2.arg)) =
    [("id", 0, ""), ("name", 2, ""), ("note", 3, "omitempty"), ("created", 4, "")] := by
  decide +kernel

end Accounts

/-- An account under the tag of its JSON form: the password is left out, and all other fields are
there in their order. -/
theorem taggedFields_account :
    "json" ≠ "" ∧ NamesDiffer Accounts.fields "json" ∧
      ∃ table, taggedFields Accounts.fields "json" = .ok table ∧
        table.map (fun e => (e.1, e.2.index, e.2.arg)) =
          [("id", 0, ""), ("name", 2, ""), ("note", 3, "omitempty"), ("created", 4, "")] ∧
        (table.map (·.2.index)).Pairwise (· < ·) ∧
        ∀ i f, Accounts.fields[i]? = some f → ¬ (∃ arg, f.Carries "json" "-" arg) →
          ∃ e ∈ table, e.2.index = i := by
  have hne : "json" ≠ "" := by decide
  have hdiffer : NamesDiffer Accounts.fields "json" := by
    apply namesDiffer_of_nodup
    rw [Accounts.names_kept]
    decide
  obtain ⟨table, htable, -, -, -, -, hwhole⟩ := taggedFields_in_order Accounts.fields hne
  obtain rfl := Except.ok.inj (htable.symm.trans (taggedFields_eq Accounts.fields hne))
  obtain ⟨hall, horder⟩ := hwhole hdiffer
  exact ⟨hne, hdiffer, _, htable, Accounts.tagged, horder, hall⟩

namespace Renamed

/-- The first and the last of these fields go by one name. -/
def fields : List Field :=
  [⟨"a", true, "json:\"x\""⟩, ⟨"b", true, "json:\"y\""⟩, ⟨"c", true, "json:\"x\""⟩]

theorem values : fields.map (fun f => ((f.tagValue? "json").getD ⟨"", ""⟩).value) =
    ["x", "y", "x"] := by
  decide +kernel

theorem tagged :
    (taggedTable fields "json").map (fun e => (e.1, e.2.index)) = [("x", 2), ("y", 1)] := by
  decide +kernel

end Renamed

/-- Of two fields with one value the first is not in the table, and the other one has its place:
what is found there first stands behind what is found next. -/
theorem taggedFields_renamed :
    (∀ f ∈ Renamed.fields, ¬ ∃ arg, f.Carries "json" "-" arg) ∧
      ∃ table, taggedFields Renamed.fields "json" = .ok table ∧
        table.map (·.2.index) = [2, 1] ∧ ¬ (table.map (·.2.index)).Pairwise (· < ·) ∧
        ¬ ∃ e ∈ table, e.2.index = 0 := by
  constructor
  · rintro f hf ⟨arg, hdash⟩
    have hvalue := congrArg TagValue.value (Field.carries_iff.1 hdash)
    have hmem : "-" ∈ ["x", "y", "x"] := by
      rw [← Renamed.values]
      exact List.mem_map.2 ⟨f, hf, hvalue⟩
    exact absurd hmem (by decide)
  · have hindexes : (taggedTable Renamed.fields "json").map (·.2.index) = [2, 1] := by
      have hboth := congrArg (List.map (·.2)) Renamed.tagged
      rwa [List.map_map] at hboth
    refine ⟨_, taggedFields_eq Renamed.fields (by decide), hindexes, ?_, ?_⟩
    · rw [hindexes]
      decide
    · rintro ⟨e, he, hzero⟩
      have hmem : e.2.index ∈ [2, 1] := hindexes ▸ List.mem_map_of_mem he
      rw [hzero] at hmem
      exact absurd hmem (by decide)

namespace Mixed

/-- Fields whose names are read, declared, left out, or not readable at first. -/
def fields : List Field :=
  [⟨"id", true, "json:\"key\""⟩, ⟨"key", true, ""⟩, ⟨"secret", true, "json:\"-\""⟩,
   ⟨"note", true, "json:\",omitempty\""⟩, ⟨"broken", true, "json:\"\\q\" json:\"good\""⟩]

theorem tagged :
    (taggedTable fields "json").map (fun e => (e.1, e.2.index, e.2.value, e.2.arg)) =
      [("key", 1, "", ""), ("note", 3, "", "omitempty"), ("broken", 4, "", "")] := by
  decide +kernel

end Mixed

/-- A value that is the declared name of a later field, a field that is left out, and a tag that
cannot be read though a second one could be. -/
theorem taggedFields_mixed :
    "json" ≠ "" ∧ ∃ table, taggedFields Mixed.fields "json" = .ok table ∧
      table.map (fun e => (e.1, e.2.index, e.2.value, e.2.arg)) =
        [("key", 1, "", ""), ("note", 3, "", "omitempty"), ("broken", 4, "", "")] ∧
      (∀ j, GoesAt Mixed.fields "json" j "key" → j ≤ 1) ∧
      ¬ ∃ i, GoesAt Mixed.fields "json" i "good" := by
  have hne : "json" ≠ "" := by decide
  obtain ⟨table, htable, -, hmem, -, hentry, -⟩ := taggedFields_lists Mixed.fields hne
  obtain rfl := Except.ok.inj (htable.symm.trans (taggedFields_eq Mixed.fields hne))
  refine ⟨hne, _, htable, Mixed.tagged, ?_, ?_⟩
  · have hkey : ("key", 1, "", "") ∈ (taggedTable Mixed.fields "json").map
        fun e => (e.1, e.2.index, e.2.value, e.2.arg) := by
      rw [Mixed.tagged]
      exact List.mem_cons_self
    obtain ⟨e, he, heq⟩ := List.mem_map.1 hkey
    simp only [Prod.mk.injEq] at heq
    obtain ⟨hname, hindex, -, -⟩ := heq
    have hlast := (hentry e he).2.2.2
    rwa [hname, hindex] at hlast
  · rw [← hmem]
    have hnames : (taggedTable Mixed.fields "json").map (·.1) = ["key", "note", "broken"] := by
      have hall := congrArg (List.map (·.1)) Mixed.tagged
      rwa [List.map_map] at hall
    rw [hnames]
    decide

end FieldNotes
