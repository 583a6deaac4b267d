import FieldNotes.Handler.Fill
import FieldNotes.Proofs.Numerals

/-! # Layouts are tried in order, and last

A written instant may be a zero form, a count of seconds, or of the form of internet protocols.
Only a text that is none of these is read by layouts, one after another, and by each of them in
three ways.  What a single reader makes of a text does not matter for this order, so the readers may
be any.

* `Counts`: the texts that are counts, and what they count.  `Instant.Readers.read_of_counts` says
  what comes of one, whatever the layouts are.
* `Instant.layouts_come_last`: more layouts only help where those before them did not.
-/

namespace FieldNotes

/-! ## Counts -/

/-- A text names a whole number: it is a numeral, with or without a sign. -/
inductive Counts : List Char → Int → Prop
  | bare {ds : List Char} (hne : ds ≠ []) (hds : ∀ c ∈ ds, c.isDigit = true) :
      Counts ds (decimal ds)
  | plus {ds : List Char} (hne : ds ≠ []) (hds : ∀ c ∈ ds, c.isDigit = true) :
      Counts ('+' :: ds) (decimal ds)
  | minus {ds : List Char} (hne : ds ≠ []) (hds : ∀ c ∈ ds, c.isDigit = true) :
      Counts ('-' :: ds) (-(decimal ds : Int))

theorem toOption_map {α β ε : Type} (f : α → β) (r : Except ε α) :
    (r.map f).toOption = r.toOption.map f := by
  cases r <;> rfl

namespace IntType

variable {t : IntType} {ds : List Char}

/-- A numeral is read if the number that it names is within the limit. -/
theorem readMagnitude_toOption {limit : ℕ} {overflow : NumberError}
    (hds : ∀ c ∈ ds, c.isDigit = true) :
    (readMagnitude limit overflow 0 ds).toOption =
      if decimal ds ≤ limit then some (decimal ds) else none := by
  have hiff (n : ℕ) : readMagnitude limit overflow 0 ds = .ok n ↔
      (∀ c ∈ ds, c.isDigit = true) ∧ n = decimal ds ∧ n ≤ limit := by
    simpa only [Nat.zero_mul, Nat.zero_add] using readMagnitude_eq_ok_iff (Nat.zero_le limit)
  cases hread : readMagnitude limit overflow 0 ds with
  | ok n =>
    obtain ⟨-, rfl, hle⟩ := (hiff n).1 hread
    rw [if_pos hle]
    rfl
  | error e =>
    have hgt : ¬ decimal ds ≤ limit := by
      intro hle
      cases hread.symm.trans ((hiff (decimal ds)).2 ⟨hds, rfl, hle⟩)
    rw [if_neg hgt]
    rfl

/-- A signed type reads a count if its number is one of the type. -/
theorem read_of_counts (ht : t.isSigned = true) {s : String} {n : Int} (h : Counts s.toList n) :
    (t.read s).toOption = if t.InRange n then some n else none := by
  have hplus (ds : List Char) (hds : ∀ c ∈ ds, c.isDigit = true)
      (hread : t.read s = (readMagnitude t.max .tooLarge 0 ds).map Int.ofNat) :
      (t.read s).toOption = if t.InRange (decimal ds) then some (decimal ds : Int) else none := by
    rw [hread, toOption_map, readMagnitude_toOption hds]
    by_cases hle : decimal ds ≤ t.max
    · rw [if_pos hle, if_pos ⟨by omega, by omega⟩]
      rfl
    · rw [if_neg hle, if_neg fun hrange => hle (by have := hrange.2; omega)]
      rfl
  generalize hs : s.toList = cs at h
  cases h with
  | bare hne hds => exact hplus cs hds (read_of_digits (Or.inl hs) hne hds)
  | plus hne hds => exact hplus _ hds (read_of_digits (Or.inr hs) hne hds)
  | @minus ds hne hds =>
    obtain ⟨c, ds, rfl⟩ := List.exists_cons_of_ne_nil hne
    have hread : t.read s =
        (readMagnitude t.depth .tooSmall 0 (c :: ds)).map fun n : ℕ => -(n : Int) := by
      unfold read
      rw [hs]
      exact if_pos ht
    rw [hread, toOption_map, readMagnitude_toOption hds]
    by_cases hle : decimal (c :: ds) ≤ t.depth
    · rw [if_pos hle, if_pos ⟨by omega, by omega⟩]
      rfl
    · rw [if_neg hle, if_neg fun hrange => hle (by have := hrange.1; omega)]
      rfl

end IntType

namespace Instant

theorem isCount_iff {text : String} : isCount text = true ↔ ∃ n, Counts text.toList n := by
  have hdigits (ds : List Char) : (!ds.isEmpty && ds.all Char.isDigit) = true ↔
      ds ≠ [] ∧ ∀ c ∈ ds, c.isDigit = true := by
    cases ds <;> simp
  unfold isCount
  generalize text.toList = cs
  constructor
  · intro h
    split at h
    · obtain ⟨hne, hds⟩ := (hdigits _).1 h
      exact ⟨_, .minus hne hds⟩
    · obtain ⟨hne, hds⟩ := (hdigits _).1 h
      exact ⟨_, .plus hne hds⟩
    · obtain ⟨hne, hds⟩ := (hdigits _).1 h
      exact ⟨_, .bare hne hds⟩
  · rintro ⟨n, h⟩
    cases h with
    | bare hne hds =>
      -- a digit is no sign
      split
      · exact absurd (hds '-' List.mem_cons_self) (by decide)
      · exact absurd (hds '+' List.mem_cons_self) (by decide)
      · exact (hdigits _).2 ⟨hne, hds⟩
    | plus hne hds => exact (hdigits _).2 ⟨hne, hds⟩
    | minus hne hds => exact (hdigits _).2 ⟨hne, hds⟩

/-! ## The order of readers -/

namespace Readers

variable {r : Readers} {text : String} {n : Int}

theorem read_of_zeroForm (h : text ∈ zeroForms) (fs : List String) :
    r.read text fs = .ok zero := by
  simp only [read, read?, if_pos h]

/-- No zero form is a count. -/
theorem not_zeroForm_of_counts (h : Counts text.toList n) : text ∉ zeroForms := by
  have hcount : isCount text = true := isCount_iff.2 ⟨n, h⟩
  intro hzero
  have hnone : ∀ z ∈ zeroForms, isCount z = false := by decide +kernel
  rw [hnone text hzero] at hcount
  cases hcount

/-- A count names the second that it counts, if there is such a second, and nothing else. -/
theorem read_of_counts (h : Counts text.toList n) (fs : List String) :
    r.read text fs =
      match if IntType.i64.InRange n then ofSeconds? n else none with
      | some t => .ok t
      | none => .error (.time text) := by
  have hseconds : (IntType.i64.read text).toOption.bind ofSeconds? =
      if IntType.i64.InRange n then ofSeconds? n else none := by
    rw [IntType.read_of_counts rfl h]
    split <;> rfl
  have hread : r.read? text fs = if IntType.i64.InRange n then ofSeconds? n else none := by
    rw [read?, if_neg (not_zeroForm_of_counts h), if_pos (isCount_iff.2 ⟨n, h⟩), hseconds]
  show (match r.read? text fs with
    | some t => Except.ok t
    | none => .error (FillError.time text)) = _
  rw [hread]

/-- A text that is neither a zero form nor a count is read by the reader for internet protocols, or
else by the layouts. -/
theorem read_of_other (hzero : text ∉ zeroForms) (hcount : ¬ ∃ n, Counts text.toList n)
    (fs : List String) :
    r.read text fs =
      match (r.internet? text).or (fs.findSome? (r.readBy? text)) with
      | some t => .ok t
      | none => .error (.time text) := by
  unfold read read?
  rw [if_neg hzero, if_neg fun h => hcount (isCount_iff.1 h)]
  cases r.internet? text <;> rfl

/-- Each text is read in one of three ways. -/
theorem zeroForm_or_counts_or_other (text : String) :
    text ∈ zeroForms ∨ (∃ n, Counts text.toList n) ∨
      text ∉ zeroForms ∧ ¬ ∃ n, Counts text.toList n := by
  by_cases hzero : text ∈ zeroForms
  · exact Or.inl hzero
  · by_cases hcount : ∃ n, Counts text.toList n
    · exact Or.inr (Or.inl hcount)
    · exact Or.inr (Or.inr ⟨hzero, hcount⟩)

/-- Where no layout is looked at, it makes no difference which there are. -/
theorem read_eq_read (h : text ∈ zeroForms ∨ (∃ n, Counts text.toList n) ∨
    (r.internet? text).isSome = true) (fs gs : List String) : r.read text fs = r.read text gs := by
  rcases zeroForm_or_counts_or_other text with hzero | ⟨n, hcount⟩ | ⟨hzero, hcount⟩
  · rw [read_of_zeroForm hzero, read_of_zeroForm hzero]
  · rw [read_of_counts hcount, read_of_counts hcount]
  · obtain ⟨t, ht⟩ := Option.isSome_iff_exists.1 ((h.resolve_left hzero).resolve_left hcount)
    rw [read_of_other hzero hcount, read_of_other hzero hcount, ht]
    rfl

/-- Layouts that are put behind others are only looked at where those have failed. -/
theorem read_append (hcount : ¬ ∃ n, Counts text.toList n) (fs gs : List String) :
    r.read text (fs ++ gs) =
      match r.read text fs with
      | .ok t => .ok t
      | .error _ => r.read text gs := by
  rcases zeroForm_or_counts_or_other text with hzero | hcount' | ⟨hzero, -⟩
  · simp only [read_of_zeroForm hzero]
  · exact absurd hcount' hcount
  · simp only [read_of_other hzero hcount, List.findSome?_append]
    cases r.internet? text with
    | some t => rfl
    | none => cases fs.findSome? (r.readBy? text) <;> rfl

/-- A text that cannot be read is what the error tells. -/
theorem error_of_read {fs : List String} {e : FillError} (h : r.read text fs = .error e) :
    e = .time text := by
  rcases zeroForm_or_counts_or_other text with hzero | ⟨n, hcount⟩ | ⟨hzero, hcount⟩
  · rw [read_of_zeroForm hzero] at h
    cases h
  · rw [read_of_counts hcount] at h
    split at h <;> cases h
    rfl
  · rw [read_of_other hzero hcount] at h
    split at h <;> cases h
    rfl

end Readers

/-- Layouts are tried in order, and only where nothing else has read the text.

This is so for any readers.  What is read by some layouts is read the same if more are put behind
them.  If they fail, and the text is no count, then these alone decide.  For a zero form, for a
count and for a text in the form of internet protocols the layouts make no difference; a count that
is out of the range of numbers or of dates stays an error.  The only error is that of a time, and
tells the text.  The filling handler reads instants in this way. -/
theorem layouts_come_last (r : Readers) (text : String) (fs gs : List String) :
    (∀ t, r.read text fs = .ok t → r.read text (fs ++ gs) = .ok t) ∧
    (∀ e, r.read text fs = .error e → (¬ ∃ n, Counts text.toList n) →
      r.read text (fs ++ gs) = r.read text gs) ∧
    (text ∈ zeroForms → r.read text fs = .ok zero) ∧
    (∀ n, Counts text.toList n → r.read text fs =
      match if IntType.i64.InRange n then ofSeconds? n else none with
      | some t => .ok t
      | none => .error (.time text)) ∧
    ((r.internet? text).isSome = true → r.read text fs = r.read text gs) ∧
    (∀ e, r.read text fs = .error e → e = .time text) ∧
    ∀ w : Fill, w.times.readers = r → w.datum text .instant =
      ((r.read text w.config.layouts).map Datum.instant).mapError Sum.inl := by
  refine ⟨?_, ?_, fun h => Readers.read_of_zeroForm h fs, fun n h => Readers.read_of_counts h fs,
    fun h => Readers.read_eq_read (Or.inr (Or.inr h)) fs gs, fun e => Readers.error_of_read, ?_⟩
  · intro t ht
    by_cases hcount : ∃ n, Counts text.toList n
    · rw [Readers.read_eq_read (Or.inr (Or.inl hcount)) (fs ++ gs) fs, ht]
    · rw [Readers.read_append hcount, ht]
  · intro e he hcount
    rw [Readers.read_append hcount, he]
  · rintro w rfl
    rfl

/-- Of this many seconds there is no count, though there is a layout for just that. -/
example : Readers.standard.read "9223372036854775808" ["%s"] =
    .error (.time "9223372036854775808") := by
  decide +kernel

end Instant

end FieldNotes
