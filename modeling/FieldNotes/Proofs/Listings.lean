import FieldNotes.Proofs.Grammar
import FieldNotes.Proofs.Tables

/-! # Lists of entries

What is read of a list, and where reading ends, does not depend on what becomes of its entries; so
however lists are read, to check one is to check what it is read as.

* `verdict` is what comes of a check, by all that it finds wrong.
* `Listing.handOver_eq_verdict`: a list is checked by checking its entries, and then how it ends.
* `ListReader.ReadsNames`: a list of names is read as these names.
* `ListReader.readsNames_standard`: the standard reader does that.
-/

namespace FieldNotes.Derive

open Text

/-! ## Verdicts -/

section Verdict

variable {ε α β σ ι : Type}

/-- What comes of a check that finds these violations: the first of them, or else a result. -/
def verdict (violations : List ε) (a : α) : Except ε α :=
  match violations with
  | [] => .ok a
  | e :: _ => .error e

variable {p q : List ε} {a b : α}

theorem verdict_eq_ok_iff : verdict p a = .ok b ↔ p = [] ∧ a = b := by
  cases p <;> simp [verdict]

theorem verdict_eq_error_iff {e : ε} : verdict p a = .error e ↔ p.head? = some e := by
  cases p <;> simp [verdict]

/-- Only without violations does the result matter. -/
theorem verdict_congr (h : p = [] → a = b) : verdict p a = verdict p b := by
  cases p with
  | nil => rw [h rfl]
  | cons e p => rfl

/-- Where a check has results of one kind only, it may be told by them. -/
theorem eq_verdict_of_ok {x : Except ε α} (h : ∃ a, x = verdict p a)
    (hok : ∀ a, x = .ok a → a = b) : x = verdict p b := by
  obtain ⟨a, ha⟩ := h
  rw [ha]
  apply verdict_congr
  rintro rfl
  exact hok a ha

/-- What is checked later is found wrong later. -/
theorem verdict_bind {k : α → Except ε β} {b : β} (h : k a = verdict q b) :
    verdict p a >>= k = verdict (p ++ q) b := by
  cases p with
  | nil => exact h
  | cons e p => rfl

theorem verdict_map (f : α → β) :
    (do let a ← verdict p a; return f a) = verdict p (f a) := by
  cases p <;> rfl

theorem foldlM_eq_verdict {step : σ → ι → Except ε σ} {violations : ι → List ε} {next : σ → ι → σ}
    (h : ∀ s x, step s x = verdict (violations x) (next s x)) (s : σ) (xs : List ι) :
    xs.foldlM step s = verdict (xs.flatMap violations) (xs.foldl next s) := by
  induction xs generalizing s with
  | nil => rfl
  | cons x xs ih =>
    rw [List.foldlM_cons, h, List.flatMap_cons, List.foldl_cons]
    exact verdict_bind (ih (next s x))

end Verdict

/-! ## Lists -/

/-- All that is wrong with a list: with its entries, and then with how it ends. -/
def Listing.violations (l : Listing) (ofEntry : Option String → List DeriveError) :
    List DeriveError :=
  l.names.flatMap ofEntry ++ (l.broken.map DeriveError.list).toList

/-- To hand over a list is to check its entries in order, and then how it ends. -/
theorem Listing.handOver_eq_verdict {σ : Type} {accept : σ → Option String → Except DeriveError σ}
    {ofEntry : Option String → List DeriveError} {next : σ → Option String → σ}
    (h : ∀ s name, accept s name = verdict (ofEntry name) (next s name)) (l : Listing) (s : σ) :
    l.handOver accept s = verdict (l.violations ofEntry) (l.names.foldl next s) := by
  rw [handOver, foldlM_eq_verdict h]
  refine verdict_bind ?_
  cases l.broken <;> rfl

/-! ## Words -/

theorem code_of_isAlpha {c : Char} (h : c.isAlpha = true) : 65 ≤ c.toNat ∧ c.toNat ≤ 122 := by
  rcases Bool.or_eq_true_iff.1 h with hupper | hlower
  · have hcode : 'A'.val ≤ c.val ∧ c.val ≤ 'Z'.val := of_decide_eq_true hupper
    exact ⟨hcode.1, Nat.le_trans hcode.2 (by decide)⟩
  · have hcode := Bool.and_eq_true_iff.1 hlower
    have ha : 'a'.val ≤ c.val := of_decide_eq_true hcode.1
    have hz : c.val ≤ 'z'.val := of_decide_eq_true hcode.2
    exact ⟨Nat.le_trans (by decide) ha, hz⟩

theorem isBlank_of_isAlpha {c : Char} (h : c.isAlpha = true) : isBlank c = false := by
  have hcode := code_of_isAlpha h
  rw [Bool.eq_false_iff]
  intro hblank
  simp only [isBlank, blankRanges, List.any_cons, List.any_nil, Bool.or_eq_true, Bool.and_eq_true,
    decide_eq_true_eq, Bool.or_false] at hblank
  omega

/-- What begins an identifier stands behind all digits and signs, and divides no words. -/
theorem code_of_startsIdentifier {c : Char} (h : startsIdentifier c = true) :
    65 ≤ c.toNat ∧ dividesWords c = false := by
  simp only [startsIdentifier, Bool.or_eq_true, Bool.and_eq_true, decide_eq_true_eq,
    Bool.not_eq_true', beq_iff_eq] at h
  rcases h with (halpha | rfl) | ⟨hlt, hdivides⟩
  · have hcode := code_of_isAlpha halpha
    have hmarks : c ≠ '\u200e' ∧ c ≠ '\u200f' := by
      constructor <;> rintro rfl <;> exact absurd hcode.2 (by decide)
    exact ⟨hcode.1, by simp [dividesWords, isBlank_of_isAlpha halpha, hmarks]⟩
  · decide
  · exact ⟨by omega, hdivides⟩

theorem isDigit_of_startsIdentifier {c : Char} (h : startsIdentifier c = true) :
    c.isDigit = false := by
  have hcode := (code_of_startsIdentifier h).1
  have hval : c.toNat = c.val.toNat := rfl
  have hnine : '9'.val.toNat = 57 := rfl
  rw [Bool.eq_false_iff]
  intro hdigit
  simp only [Char.isDigit, Bool.and_eq_true, decide_eq_true_eq, UInt32.le_iff_toNat_le] at hdigit
  omega

theorem ne_of_startsIdentifier {c d : Char} (h : startsIdentifier c = true) (hd : d.toNat < 65) :
    c ≠ d := by
  rintro rfl
  exact absurd (code_of_startsIdentifier h).1 (by omega)

/-- A word is an identifier without a mark before it. -/
def IsWord (w : List Char) : Prop :=
  ∃ c cs, w = c :: cs ∧ startsIdentifier c = true ∧ cs.all isIdentifierChar = true

/-- Behind an entry of a list the list ends, or there is a comma. -/
def EndsEntry (rest : List Char) : Prop :=
  ∀ c, rest.head? = some c → c = ','

theorem skipGap_eq_self {c : Char} {cs : List Char} (hslash : c ≠ '/')
    (hdivides : dividesWords c = false) : skipGap (c :: cs) = c :: cs := by
  simp [skipGap, Gap.rest, hslash, hdivides]

theorem endsEntry_nil : EndsEntry [] := by
  intro c hc
  cases hc

theorem endsEntry_comma (cs : List Char) : EndsEntry (',' :: cs) := by
  intro c hc
  cases hc
  rfl

theorem skipGap_of_endsEntry {rest : List Char} (h : EndsEntry rest) : skipGap rest = rest := by
  cases rest with
  | nil => rfl
  | cons c cs =>
    cases h c rfl
    exact skipGap_eq_self (by decide) (by decide)

section Word

variable {cs rest : List Char} (hcs : cs.all isIdentifierChar = true) (hrest : EndsEntry rest)

include hcs hrest

theorem span_word :
    (cs ++ rest).takeWhile isIdentifierChar = cs ∧
      (cs ++ rest).dropWhile isIdentifierChar = rest := by
  refine Tag.takeWhile_append_of_head (List.all_eq_true.1 hcs) fun d hd => ?_
  cases hrest d hd
  decide

/-- The first sign behind the characters of a word is a comma. -/
theorem eq_comma_of_span (pre : List Char) {more : List Char} {d : Char}
    (h : cs ++ rest = pre ++ d :: more) (hpre : ∀ x ∈ pre, isIdentifierChar x = true)
    (hd : isIdentifierChar d = false) : d = ',' := by
  have hdrop := (span_word hcs hrest).2
  rw [h, List.dropWhile_append_of_pos hpre, List.dropWhile_cons_of_neg (by simp [hd])] at hdrop
  exact hrest d (hdrop ▸ rfl)

end Word

theorem beginsLiteral_word {w rest : List Char} (hw : IsWord w) (hrest : EndsEntry rest) :
    beginsLiteral (w ++ rest) = false := by
  obtain ⟨c, cs, rfl, hc, hcs⟩ := hw
  have hfirst (d : Char) (more : List Char) (hd : isIdentifierChar d = false ∧ d ≠ ',') :
      cs ++ rest ≠ d :: more := fun h =>
    hd.2 (eq_comma_of_span hcs hrest [] h (List.forall_mem_nil _) hd.1)
  have hsecond (x d : Char) (more : List Char)
      (hd : isIdentifierChar x = true ∧ isIdentifierChar d = false ∧ d ≠ ',') :
      cs ++ rest ≠ x :: d :: more := fun h =>
    hd.2.2 (eq_comma_of_span hcs hrest [x] h (List.forall_mem_singleton.2 hd.1) hd.2.1)
  rw [List.cons_append]
  unfold beginsLiteral
  split <;> rename_i hshape
  case h_1 | h_2 | h_3 | h_4 | h_5 | h_8 =>
    exact absurd (List.cons.inj hshape).2 (hfirst _ _ (by decide))
  case h_6 | h_7 | h_9 | h_10 =>
    exact absurd (List.cons.inj hshape).2 (hsecond _ _ _ (by decide))
  case h_11 | h_12 | h_13 =>
    exact absurd (List.cons.inj hshape).1 (ne_of_startsIdentifier hc (by decide))
  case h_14 =>
    rw [← (List.cons.inj hshape).1]
    simp [isDigit_of_startsIdentifier hc, ne_of_startsIdentifier hc (by decide : '"'.toNat < 65)]
  case h_15 => rfl

theorem identifier?_word {w rest : List Char} (hw : IsWord w) (hrest : EndsEntry rest) :
    identifier? (w ++ rest) = some (w, rest) := by
  have hliteral := beginsLiteral_word hw hrest
  obtain ⟨c, cs, rfl, hc, hcs⟩ := hw
  have hplain : plainIdentifier? (c :: cs ++ rest) = some (c :: cs, rest) := by
    rw [List.cons_append, plainIdentifier?, if_pos hc, (span_word hcs hrest).1,
      (span_word hcs hrest).2]
  have hmark : ∀ more, c :: cs ++ rest ≠ 'r' :: '#' :: more := by
    intro more h
    have hcomma := eq_comma_of_span hcs hrest [] (List.cons.inj h).2 (List.forall_mem_nil _)
    exact absurd (hcomma (by decide)) (by decide)
  simp only [identifier?, hliteral]
  exact hplain

theorem skipGap_word {w : List Char} (hw : IsWord w) (rest : List Char) :
    skipGap (w ++ rest) = w ++ rest := by
  obtain ⟨c, cs, rfl, hc, -⟩ := hw
  exact skipGap_eq_self (ne_of_startsIdentifier hc (by decide)) (code_of_startsIdentifier hc).2

theorem entry_word {w rest : List Char} (hw : IsWord w) (hrest : EndsEntry rest) :
    entry (w ++ rest) = .ok (some w, rest) := by
  have hid := identifier?_word hw hrest
  have hskip := skipGap_word hw rest
  have hpath : restOfPath (rest.length + 1) rest = .ok (false, rest) := by
    rw [restOfPath, skipGap_of_endsEntry hrest]
    split
    · exact absurd (hrest _ rfl) (by decide)
    · rfl
  have hroot : ∀ more, w ++ rest ≠ ':' :: ':' :: more := by
    obtain ⟨c, cs, rfl, hc, -⟩ := hw
    intro more h
    exact ne_of_startsIdentifier hc (by decide : ':'.toNat < 65) (List.cons.inj h).1
  simp only [entry, hskip]
  simp only [hid, hpath]
  rfl

theorem listing_word {w rest : List Char} (hw : IsWord w) (hrest : EndsEntry rest) :
    listing (w ++ rest) =
      ⟨some (String.ofList w) :: (listing rest.tail).names, (listing rest.tail).broken⟩ := by
  have hentry := entry_word hw hrest
  have hskip := skipGap_word hw rest
  obtain ⟨c, cs, rfl, -⟩ := hw
  rw [List.cons_append] at hentry hskip ⊢
  rw [listing_eq, hskip]
  simp only [hentry]
  cases rest with
  | nil =>
    rw [List.tail_nil, listing_nil]
    rfl
  | cons d rest =>
    cases hrest d rfl
    rfl

theorem listing_blank (cs : List Char) : listing (' ' :: cs) = listing cs := by
  have hskip : skipGap (' ' :: cs) = skipGap cs := rfl
  rw [listing_eq, hskip, listing_eq]

/-- A list of words is read as these words. -/
theorem listing_words {ws : List String} (hws : ∀ w ∈ ws, IsWord w.toList) :
    ListReader.standard ws = ⟨ws.map some, none⟩ := by
  rw [ListReader.standard, String.toList_intercalate]
  induction ws with
  | nil => exact listing_nil
  | cons w ws ih =>
    obtain ⟨hw, hrest⟩ := List.forall_mem_cons.1 hws
    cases ws with
    | nil =>
      have hone := listing_word hw endsEntry_nil
      rw [List.append_nil, List.tail_nil, listing_nil, String.ofList_toList] at hone
      rw [List.map_cons, List.map_nil, List.intercalate_singleton]
      exact hone
    | cons w' ws =>
      rw [List.map_cons, List.map_cons, List.intercalate_cons_cons, ← List.map_cons,
        List.append_assoc]
      have hends (cs : List Char) : EndsEntry (", ".toList ++ cs) := endsEntry_comma (' ' :: cs)
      rw [listing_word hw (hends _)]
      have htail (cs : List Char) : (", ".toList ++ cs).tail = ' ' :: cs := rfl
      rw [htail, listing_blank, ih hrest, String.ofList_toList]
      rfl

/-! ## Readers -/

/-- A name begins with a letter, and has letters and low lines behind it. -/
def IsName (w : String) : Prop :=
  ∃ c cs, w.toList = c :: cs ∧ c.isAlpha = true ∧ cs.all (fun d => d.isAlpha || d == '_') = true

/-- A list of names is read as these names. -/
def ListReader.ReadsNames (read : ListReader) : Prop :=
  ∀ ws, (∀ w ∈ ws, IsName w) → read ws = ⟨ws.map some, none⟩

theorem IsName.isWord {w : String} (h : IsName w) : IsWord w.toList := by
  obtain ⟨c, cs, hw, hc, hcs⟩ := h
  refine ⟨c, cs, hw, by simp [startsIdentifier, hc], List.all_eq_true.2 fun d hd => ?_⟩
  have hletter : (d.isAlpha || d == '_') = true := List.all_eq_true.1 hcs d hd
  simp [isIdentifierChar, startsIdentifier, hletter]

theorem ListReader.readsNames_standard : standard.ReadsNames :=
  fun _ hws => listing_words fun w hw => (hws w hw).isWord

end FieldNotes.Derive
