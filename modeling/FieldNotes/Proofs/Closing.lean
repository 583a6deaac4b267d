import FieldNotes.Proofs.Scanner
import FieldNotes.Proofs.Stops
import FieldNotes.Proofs.Unquoting

/-! # Where the text of a tag ends

Who looks for the closing quote of a tag passes over one byte behind each backslash.  Who reads the
text passes over whole escapes, which may be longer, or comes to a stop.  The two still agree: the
bytes that an escape has beyond its first are digits, and neither quotes nor backslashes.  So
wherever reading stands, what is left is closed by the same quote.

* `Quoted.Closed`: quotes and last bytes stand behind backslashes only.
* `Quoted.Closed.behind`: what is left behind atoms is closed if all was.
* `Quoted.Closed.stop_cases`: in what is closed, reading only stops at line feeds, and at
  backslashes with a byte behind them.
* `Tag.unreadable_causes`: why the text of a tag may be unreadable, and why not.
-/

namespace FieldNotes

open Text

namespace Text.Quoted

/-- In these bytes each quote, and each backslash that does not begin a pair of bytes itself, is the
second byte of a pair that a backslash begins. -/
inductive Closed : List UInt8 → Prop
  | nil : Closed []
  | plain {b : UInt8} {bs : List UInt8} (hquote : b ≠ quote) (hbackslash : b ≠ backslash)
      (h : Closed bs) : Closed (b :: bs)
  | pair (b : UInt8) {bs : List UInt8} (h : Closed bs) : Closed (backslash :: b :: bs)

namespace Closed

theorem append_plain {bs more : List UInt8} (hbs : ∀ b ∈ bs, b ≠ quote ∧ b ≠ backslash)
    (h : Closed more) : Closed (bs ++ more) := by
  induction bs with
  | nil => exact h
  | cons b bs ih =>
    obtain ⟨hquote, hbackslash⟩ := hbs b List.mem_cons_self
    exact .plain hquote hbackslash (ih fun x hx => hbs x (List.mem_cons_of_mem _ hx))

theorem behind_byte {b : UInt8} {bs : List UInt8} (hb : b ≠ backslash) (h : Closed (b :: bs)) :
    Closed bs := by
  cases h with
  | plain _ _ h => exact h
  | pair _ _ => exact absurd rfl hb

theorem behind_plain {bs more : List UInt8} (hbs : ∀ b ∈ bs, b ≠ quote ∧ b ≠ backslash)
    (h : Closed (bs ++ more)) : Closed more := by
  induction bs with
  | nil => exact h
  | cons b bs ih =>
    have hmore := behind_byte (hbs b List.mem_cons_self).2 h
    exact ih (fun x hx => hbs x (List.mem_cons_of_mem _ hx)) hmore

/-- What stands between the quotes of a tag is closed.  Of a character behind a backslash only the
first byte is passed over, but the others are no quotes and no backslashes. -/
theorem of_inner {cs : List Char} (h : Tag.Inner cs) : Closed (encode cs) := by
  induction h with
  | nil => exact .nil
  | plain hq hb _ ih =>
    rw [encode_cons]
    exact append_plain (fun b h => Tag.Scanner.plain_of_mem hq hb h) ih
  | escaped c _ ih =>
    have hpos : 0 < (String.utf8EncodeChar c).length := by
      rw [String.length_utf8EncodeChar]
      exact c.utf8Size_pos
    obtain ⟨b, bs, hc⟩ := List.exists_cons_of_length_pos hpos
    have hbs : ∀ x ∈ bs, x ≠ quote ∧ x ≠ backslash := by
      intro x hx
      apply Tag.Scanner.plain_of_mem_drop (c := c)
      rw [hc]
      exact hx
    rw [encode_cons, encode_cons, hc]
    exact .pair b (append_plain hbs ih)

end Closed

/-- Behind its first character an escape has digits only. -/
theorem Escape.exists_digits (e : Escape) :
    ∃ (b : UInt8) (bs : List UInt8), encode e.tail = b :: bs ∧
      ∀ x ∈ bs, x ≠ quote ∧ x ≠ backslash := by
  have hdigits {base : Nat} (hbase : base ≤ 16) (ds : List (Digit base)) :
      ∀ x ∈ encode (ds.map Digit.char), x ≠ quote ∧ x ≠ backslash := by
    intro x hx
    obtain ⟨c, hc, hmem⟩ := List.mem_flatMap.1 hx
    obtain ⟨d, -, rfl⟩ := List.mem_map.1 hc
    obtain ⟨-, hquote, hbackslash⟩ :=
      digitChar_plain (Nat.lt_of_lt_of_le d.value.isLt hbase) d.upper
    exact Tag.Scanner.plain_of_mem hquote hbackslash hmem
  cases e with
  | letter c b h =>
    simp only [letters, List.mem_cons, Prod.mk.injEq, List.not_mem_nil, or_false] at h
    rcases h with h | h | h | h | h | h | h | h | h
    all_goals
      obtain ⟨rfl, rfl⟩ := h
      exact ⟨_, [], rfl, List.forall_mem_nil _⟩
  | octal ds hlength _ =>
    cases ds with
    | nil => cases hlength
    | cons d ds =>
      have hd : d.char.toNat < 128 :=
        (digitChar_plain (Nat.lt_of_lt_of_le d.value.isLt (by decide)) d.upper).1
      refine ⟨d.char.toNat.toUInt8, _, ?_, hdigits (by decide) ds⟩
      rw [Escape.tail, List.map_cons, encode_cons, utf8EncodeChar_of_lt hd]
      rfl
  | hex ds _ => exact ⟨0x78, _, rfl, hdigits (by decide) ds⟩
  | short c ds _ _ => exact ⟨0x75, _, rfl, hdigits (by decide) ds⟩
  | long c ds _ _ => exact ⟨0x55, _, rfl, hdigits (by decide) ds⟩

namespace Closed

/-- What is left behind atoms is closed if all was. -/
theorem behind {as : List Atom} {more : List UInt8}
    (h : Closed (as.flatMap Atom.written ++ more)) : Closed more := by
  induction as with
  | nil => exact h
  | cons a as ih =>
    apply ih
    rw [List.flatMap_cons, List.append_assoc] at h
    cases a with
    | byte b hquote hbackslash hline => exact behind_byte hbackslash h
    | escape e =>
      obtain ⟨b, bs, htail, hbs⟩ := e.exists_digits
      rw [Atom.written, htail, List.cons_append, List.cons_append] at h
      cases h with
      | plain _ hbackslash _ => exact absurd rfl hbackslash
      | pair _ h => exact behind_plain hbs h

/-- In what is closed, reading stops at raw line feeds, and at backslashes with a byte behind them.
-/
theorem stop_cases {position : Nat} {rest : List UInt8} {e : UnquoteError} (h : Closed rest)
    (hstop : Stop position rest e) :
    (∃ more, rest = lineFeed :: more ∧ e = .unescaped position) ∨
      ∃ b more, rest = backslash :: b :: more ∧ NoEscape (b :: more) ∧
        e = .invalidEscape (position + 1) := by
  cases hstop with
  | raw hb more =>
    apply Or.inl
    rcases hb with rfl | rfl
    · cases h with
      | plain hquote _ _ => exact absurd rfl hquote
    · exact ⟨more, rfl, rfl⟩
  | escape hmore =>
    apply Or.inr
    cases h with
    | plain _ hbackslash _ => exact absurd rfl hbackslash
    | pair b h => exact ⟨b, _, rfl, hmore, rfl⟩

end Closed

end Text.Quoted

namespace Tag

open Text.Quoted

theorem Piece.exists_closed (p : Piece) : ∃ inner, Encloses p.tag.quoted inner ∧ Closed inner := by
  refine ⟨encode p.inner, ?_, .of_inner p.inner_inner⟩
  unfold Encloses
  rw [tag, bytes_ofList, quoted, List.cons_append, encode_cons, encode_append]
  rfl

/-- Where the text of a tag cannot be read on. -/
theorem Piece.stop_cases (p : Piece) {as : List Atom} {rest : List UInt8} {position : Nat}
    {e : UnquoteError} (hq : Encloses p.tag.quoted (as.flatMap Atom.written ++ rest))
    (hstop : Stop position rest e) :
    (∃ more, rest = lineFeed :: more ∧ e = .unescaped position) ∨
      ∃ b more, rest = backslash :: b :: more ∧ NoEscape (b :: more) ∧
        e = .invalidEscape (position + 1) := by
  obtain ⟨inner, hinner, hclosed⟩ := p.exists_closed
  rw [hinner.unique hq] at hclosed
  exact hclosed.behind.stop_cases hstop

/-- Why the text of a tag may be unreadable: there is a raw line feed in it, or a bad escape before
the closing quote, or its bytes are no text.  It never lacks its quotes, no raw quote comes before
the closing one, and no escape is begun right before it.  So what is written is never taken for a
bare dash. -/
theorem unreadable_causes {row : String} {t : Tag} (ht : t ∈ ofRow row) :
    t.text ≠ .error .notQuoted ∧
    (∀ p, t.text = .error (.unescaped p) → (bytes t.quoted)[p]? = some lineFeed) ∧
    (∀ p, t.text = .error (.invalidEscape p) →
      (bytes t.quoted)[p - 1]? = some backslash ∧
      (∃ as : List Atom, (bytes t.quoted).take (p - 1) = quote :: as.flatMap Atom.written) ∧
      p + 1 < (bytes t.quoted).length) ∧
    ∀ e, t.text = .error e → t.looseText = t.quoted ∧ t.looseText ≠ "-" := by
  obtain ⟨piece, rfl⟩ := exists_piece ht
  have hreads : Reads piece.tag.quoted piece.tag.text := reads_unquote _
  refine ⟨?_, ?_, ?_, ?_⟩
  · intro h
    obtain ⟨inner, hinner, -⟩ := piece.exists_closed
    rw [h] at hreads
    cases hreads with
    | notQuoted hq => exact hq inner hinner
    | stop _ hstop => cases hstop
  · intro p h
    rw [h] at hreads
    cases hreads with
    | stop hq hstop =>
      rcases piece.stop_cases hq hstop with ⟨more, rfl, he⟩ | ⟨b, more, -, -, he⟩
      · cases he
        exact hq.getElem?
      · cases he
  · intro p h
    rw [h] at hreads
    cases hreads with
    | @stop as _ _ hq hstop =>
      rcases piece.stop_cases hq hstop with ⟨more, -, he⟩ | ⟨b, more, rfl, -, he⟩
      · cases he
      · cases he
        -- behind the atoms stand the backslash, the byte behind it, and at last the closing quote
        rw [Nat.add_sub_cancel]
        refine ⟨hq.getElem?, ⟨as, ?_⟩, ?_⟩
        · rw [hq, Nat.add_comm 1, List.take_succ_cons, List.append_assoc,
            List.take_left' rfl]
        · rw [hq]
          simp only [List.length_cons, List.length_append]
          omega
  · intro e he
    have hloose : piece.tag.looseText = piece.tag.quoted := by
      unfold looseText
      rw [he]
    rw [hloose]
    exact ⟨rfl, piece.quoted_ne_dash⟩

/-- An escape that the closing quote cuts off. -/
theorem unreadable_cut :
    let t : Tag := ⟨"key", "\"\\x4\""⟩
    t ∈ ofRow "key:\"\\x4\" b:\"\"" ∧ t.text = .error (.invalidEscape 2) ∧
      (bytes t.quoted)[1]? = some backslash ∧ 3 < (bytes t.quoted).length ∧ t.looseText ≠ "-" := by
  intro t
  have hmem : t ∈ ofRow "key:\"\\x4\" b:\"\"" := by
    have hrow : ofRow "key:\"\\x4\" b:\"\"" = [t, ⟨"b", "\"\""⟩] := by decide +kernel
    rw [hrow]
    exact List.mem_cons_self
  have htext : t.text = .error (.invalidEscape 2) := by decide +kernel
  obtain ⟨-, -, hescape, hloose⟩ := unreadable_causes hmem
  obtain ⟨hbackslash, -, hlength⟩ := hescape 2 htext
  exact ⟨hmem, htext, hbackslash, hlength, (hloose _ htext).2⟩

end Tag

end FieldNotes
