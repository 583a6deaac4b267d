import FieldNotes.Tag
import Mathlib.Data.List.TakeWhile
import Mathlib.Logic.ExistsUnique

/-! # The grammar of rows

A row of tags is, from its beginning on, made of pieces: blanks, a name, a colon, and a text between
quotes.  Where no further piece begins there is the rest, which is not looked at.

* `Tag.Piece` is a tag as it is written, and `Tag.Splits` says that a row is made of such pieces and
  a rest.
* `Tag.first?_eq_some_iff`: what is taken for the first tag of a row is a piece that it begins with.
* `Tag.exists_splits`, `Tag.Splits.unique`: every row splits, in one way only.
* `Tag.scan_of_splits`: the tags of a row are those of its pieces.
* `Tag.ReadThrough` says that a row is read to its end, and `Tag.scan_append` that what follows such
  a row is read as if it stood alone.
-/

namespace FieldNotes.Tag

open Text

/-! ## Words of the grammar -/

/-- The characters that names are made of. -/
def NameChar (c : Char) : Prop :=
  ' ' < c ∧ c ≠ ':' ∧ c ≠ '"' ∧ c ≠ '\x7f'

instance (c : Char) : Decidable (NameChar c) :=
  inferInstanceAs (Decidable (_ ∧ _))

/-- What may stand between the two quotes: characters other than quote and backslash, and any
characters that have a backslash before them. -/
inductive Inner : List Char → Prop
  | nil : Inner []
  | plain {c : Char} {cs : List Char} (hq : c ≠ '"') (hb : c ≠ '\\') (h : Inner cs) :
      Inner (c :: cs)
  | escaped (c : Char) {cs : List Char} (h : Inner cs) : Inner ('\\' :: c :: cs)

/-- A tag as it is written, with the blanks in front of it. -/
structure Piece where
  blanks : List Char
  name : List Char
  inner : List Char
  blanks_blank : ∀ c ∈ blanks, isAsciiBlank c = true
  name_ne_nil : name ≠ []
  name_chars : ∀ c ∈ name, NameChar c
  inner_inner : Inner inner

namespace Piece

/-- The text with its quotes. -/
def quoted (p : Piece) : List Char :=
  '"' :: p.inner ++ ['"']

/-- The tag without the blanks in front of it. -/
def pair (p : Piece) : List Char :=
  p.name ++ ':' :: p.quoted

def chars (p : Piece) : List Char :=
  p.blanks ++ p.pair

/-- What a piece says. -/
def tag (p : Piece) : Tag :=
  ⟨String.ofList p.name, String.ofList p.quoted⟩

end Piece

/-- A row of characters is cut up into the pieces of its tags and a rest.  Behind its blanks, the
rest does not begin with a tag. -/
structure Splits (cs : List Char) (ps : List Piece) (rest : List Char) : Prop where
  joined : cs = ps.flatMap Piece.chars ++ rest
  ended : ∀ (p : Piece) (more : List Char), rest.dropWhile isAsciiBlank ≠ p.pair ++ more

/-! ## Characters -/

theorem isNameChar_iff {c : Char} : isNameChar c = true ↔ NameChar c := by
  simp only [isNameChar, NameChar, Bool.and_eq_true, decide_eq_true_eq, bne_iff_ne, ne_eq,
    and_assoc]

theorem NameChar.not_blank {c : Char} (h : NameChar c) : isAsciiBlank c = false := by
  rw [Bool.eq_false_iff]
  intro hblank
  simp only [isAsciiBlank, Bool.or_eq_true, beq_iff_eq] at hblank
  -- no blank is above the space
  rcases hblank with (((rfl | rfl) | rfl) | rfl) | rfl <;> exact absurd h.1 (by decide)

theorem takeWhile_append_of_head {p : Char → Bool} {cs ds : List Char}
    (hcs : ∀ c ∈ cs, p c = true) (hds : ∀ d, ds.head? = some d → p d = false) :
    (cs ++ ds).takeWhile p = cs ∧ (cs ++ ds).dropWhile p = ds := by
  have hstop : ds.takeWhile p = [] := by
    cases ds with
    | nil => rfl
    | cons d ds => simp [hds d rfl]
  constructor
  · rw [List.takeWhile_append_of_pos hcs, hstop, List.append_nil]
  · rw [List.dropWhile_append_of_pos hcs, dropWhile_eq_self_of_head hds]

/-! ## What stands between quotes -/

theorem body?_append {b : List Char} (h : Inner b) (r : List Char) :
    body? (b ++ '"' :: r) = some (b, r) := by
  induction h with
  | nil => rfl
  | plain hq hb _ ih => simp [body?, hb, ih]
  | escaped c _ ih => simp [body?, ih]

/-- A character that is neither a last backslash nor one before a character is none at all. -/
theorem ne_backslash {c : Char} {rest : List Char} (hlast : c = '\\' → rest = [] → False)
    (hescape : ∀ d more, c = '\\' → rest = d :: more → False) : c ≠ '\\' := by
  intro hc
  cases rest with
  | nil => exact hlast hc rfl
  | cons d more => exact hescape d more hc rfl

theorem inner_of_body? {cs b r : List Char} (h : body? cs = some (b, r)) :
    Inner b ∧ cs = b ++ '"' :: r := by
  fun_induction body? cs generalizing b r with
  | case1 => cases h
  | case2 rest =>
    cases h
    exact ⟨.nil, rfl⟩
  | case3 => cases h
  | case4 c rest ih =>
    rcases Option.map_eq_some_iff.1 h with ⟨⟨b', r'⟩, hb, heq⟩
    cases heq
    rcases ih hb with ⟨hinner, rfl⟩
    exact ⟨.escaped c hinner, rfl⟩
  | case5 c rest hquote hlast hescape ih =>
    rcases Option.map_eq_some_iff.1 h with ⟨⟨b', r'⟩, hb, heq⟩
    cases heq
    rcases ih hb with ⟨hinner, rfl⟩
    exact ⟨.plain hquote (ne_backslash hlast hescape) hinner, rfl⟩

/-! ## The first tag of a row -/

namespace Piece

variable (p : Piece) (more : List Char)

theorem chars_append :
    p.chars ++ more = p.blanks ++ (p.name ++ ':' :: '"' :: (p.inner ++ '"' :: more)) := by
  simp only [chars, pair, quoted, List.append_assoc, List.cons_append, List.nil_append]

/-- The blanks of a piece are all the blanks that it begins with. -/
theorem span_blanks :
    (p.chars ++ more).takeWhile isAsciiBlank = p.blanks ∧
      (p.chars ++ more).dropWhile isAsciiBlank = p.pair ++ more := by
  rw [chars, List.append_assoc]
  refine takeWhile_append_of_head p.blanks_blank ?_
  intro d hd
  -- behind the blanks stands the name, which has a first character
  rcases List.exists_cons_of_ne_nil p.name_ne_nil with ⟨c, cs, hname⟩
  have hc : c ∈ p.name := hname ▸ List.mem_cons_self
  rw [pair, hname] at hd
  rcases Option.some.inj hd with rfl
  exact (p.name_chars c hc).not_blank

theorem span_name :
    (p.pair ++ more).takeWhile isNameChar = p.name ∧
      (p.pair ++ more).dropWhile isNameChar = ':' :: '"' :: (p.inner ++ '"' :: more) := by
  have hpair : p.pair ++ more = p.name ++ ':' :: '"' :: (p.inner ++ '"' :: more) := by
    simp only [pair, quoted, List.append_assoc, List.cons_append, List.nil_append]
  rw [hpair]
  refine takeWhile_append_of_head (fun c hc => isNameChar_iff.2 (p.name_chars c hc)) ?_
  intro d hd
  rcases Option.some.inj hd with rfl
  rfl

end Piece

theorem first?_chars (p : Piece) (r : List Char) : first? (p.chars ++ r) = some (p.tag, r) := by
  have hname : p.name.isEmpty = false := by simpa using p.name_ne_nil
  simp only [first?, (p.span_blanks r).2, (p.span_name r).1, (p.span_name r).2, hname,
    Bool.false_eq_true, if_false, body?_append p.inner_inner r, Option.map_some]
  rfl

theorem exists_piece_of_first? {cs r : List Char} {t : Tag} (h : first? cs = some (t, r)) :
    ∃ p : Piece, cs = p.chars ++ r ∧ p.tag = t := by
  simp only [first?] at h
  split at h
  · rename_i rest hrest
    split at h
    · cases h
    · rename_i hname
      rcases Option.map_eq_some_iff.1 h with ⟨⟨b, r'⟩, hb, heq⟩
      rcases Prod.mk.inj heq with ⟨rfl, rfl⟩
      rcases inner_of_body? hb with ⟨hinner, rfl⟩
      refine ⟨⟨cs.takeWhile isAsciiBlank, (cs.dropWhile isAsciiBlank).takeWhile isNameChar, b,
        ?_, ?_, ?_, hinner⟩, ?_, rfl⟩
      · exact fun c hc => List.mem_takeWhile_imp hc
      · simpa using hname
      · exact fun c hc => isNameChar_iff.1 (List.mem_takeWhile_imp hc)
      · rw [Piece.chars_append, ← hrest, List.takeWhile_append_dropWhile,
          List.takeWhile_append_dropWhile]
  · cases h

theorem first?_eq_some_iff {cs r : List Char} {t : Tag} :
    first? cs = some (t, r) ↔ ∃ p : Piece, cs = p.chars ++ r ∧ p.tag = t := by
  constructor
  · exact exists_piece_of_first?
  · rintro ⟨p, rfl, rfl⟩
    exact first?_chars p r

/-- A row begins with no tag if behind its blanks it does not begin with one. -/
theorem first?_eq_none_iff {cs : List Char} :
    first? cs = none ↔
      ∀ (p : Piece) (more : List Char), cs.dropWhile isAsciiBlank ≠ p.pair ++ more := by
  rw [Option.eq_none_iff_forall_ne_some]
  constructor
  · intro h p more hcs
    -- the piece with the blanks of the row in front of it
    let q : Piece := { p with
      blanks := cs.takeWhile isAsciiBlank
      blanks_blank := fun c hc => List.mem_takeWhile_imp hc }
    refine h (q.tag, more) (first?_eq_some_iff.2 ⟨q, ?_, rfl⟩)
    have hq : q.chars ++ more = cs.takeWhile isAsciiBlank ++ (p.pair ++ more) :=
      List.append_assoc _ _ _
    rw [hq, ← hcs, List.takeWhile_append_dropWhile]
  · rintro h ⟨t, r⟩ hfirst
    rcases first?_eq_some_iff.1 hfirst with ⟨p, rfl, rfl⟩
    exact h p r (p.span_blanks r).2

/-- What a row begins with, it begins with in one way. -/
theorem Piece.chars_append_inj {p q : Piece} {r r' : List Char}
    (h : p.chars ++ r = q.chars ++ r') : p = q ∧ r = r' := by
  have hblanks : p.blanks = q.blanks := by
    rw [← (p.span_blanks r).1, h, (q.span_blanks r').1]
  have hpair : p.pair ++ r = q.pair ++ r' := by
    rw [← (p.span_blanks r).2, h, (q.span_blanks r').2]
  have hname : p.name = q.name := by
    rw [← (p.span_name r).1, hpair, (q.span_name r').1]
  have hinner : p.inner ++ '"' :: r = q.inner ++ '"' :: r' := by
    have hdrop := (p.span_name r).2
    rw [hpair, (q.span_name r').2] at hdrop
    injection hdrop with _ hdrop
    injection hdrop with _ hdrop
    exact hdrop.symm
  have hbody := body?_append p.inner_inner r
  rw [hinner, body?_append q.inner_inner r'] at hbody
  rcases Prod.mk.inj (Option.some.inj hbody) with ⟨hi, hr⟩
  refine ⟨?_, hr.symm⟩
  cases p
  cases q
  simp only at hblanks hname hi
  subst hblanks hname hi
  rfl

/-! ## Whole rows -/

theorem scan_eq (cs : List Char) :
    scan cs = match first? cs with
      | none => []
      | some (t, rest) => t :: scan rest := by
  rw [scan]
  split <;> simp_all

theorem scan_pieces_append (ps : List Piece) (cs : List Char) :
    scan (ps.flatMap Piece.chars ++ cs) = ps.map Piece.tag ++ scan cs := by
  induction ps with
  | nil => rfl
  | cons p ps ih =>
    rw [List.flatMap_cons, List.append_assoc, scan_eq, first?_chars]
    exact congrArg (p.tag :: ·) ih

theorem scan_of_splits {cs : List Char} {ps : List Piece} {rest : List Char}
    (h : Splits cs ps rest) : scan cs = ps.map Piece.tag := by
  have hrest : scan rest = [] := by
    rw [scan_eq, first?_eq_none_iff.2 h.ended]
  rw [h.joined, scan_pieces_append, hrest, List.append_nil]

/-- Nothing but blanks behind the last piece is a rest, since blanks begin no tag. -/
theorem splits_of_blanks {ps : List Piece} {blanks : List Char}
    (hblanks : ∀ c ∈ blanks, isAsciiBlank c = true) :
    Splits (ps.flatMap Piece.chars ++ blanks) ps blanks := by
  refine ⟨rfl, ?_⟩
  intro p more hrest
  have hnil : blanks.dropWhile isAsciiBlank = [] := List.dropWhile_eq_nil_iff.2 hblanks
  rw [hnil] at hrest
  simp [Piece.pair] at hrest

theorem exists_splits (cs : List Char) : ∃ ps rest, Splits cs ps rest := by
  fun_induction scan cs with
  | case1 cs hnone =>
    exact ⟨[], cs, rfl, first?_eq_none_iff.1 hnone⟩
  | case2 cs t rest hfirst ih =>
    rcases first?_eq_some_iff.1 hfirst with ⟨p, rfl, _⟩
    rcases ih with ⟨ps, last, rfl, hended⟩
    exact ⟨p :: ps, last, by rw [List.flatMap_cons, List.append_assoc], hended⟩

/-- A row that is a rest from its beginning on begins with no piece. -/
theorem Splits.ne_chars {cs rest : List Char} (h : Splits cs [] rest) (p : Piece)
    (more : List Char) : cs ≠ p.chars ++ more := by
  rintro rfl
  have hrest : rest = p.chars ++ more := h.joined.symm
  refine h.ended p more ?_
  rw [hrest, (p.span_blanks more).2]

/-- A row splits in one way only. -/
theorem Splits.unique {cs : List Char} {ps qs : List Piece} {rest rest' : List Char}
    (h : Splits cs ps rest) (h' : Splits cs qs rest') : ps = qs ∧ rest = rest' := by
  induction ps generalizing cs qs with
  | nil =>
    cases qs with
    | nil => exact ⟨rfl, h.joined.symm.trans h'.joined⟩
    | cons q qs =>
      refine absurd ?_ (h.ne_chars q (qs.flatMap Piece.chars ++ rest'))
      rw [h'.joined, List.flatMap_cons, List.append_assoc]
  | cons p ps ih =>
    cases qs with
    | nil =>
      refine absurd ?_ (h'.ne_chars p (ps.flatMap Piece.chars ++ rest))
      rw [h.joined, List.flatMap_cons, List.append_assoc]
    | cons q qs =>
      have hjoined : p.chars ++ (ps.flatMap Piece.chars ++ rest) =
          q.chars ++ (qs.flatMap Piece.chars ++ rest') := by
        rw [← List.append_assoc, ← List.append_assoc, ← List.flatMap_cons, ← List.flatMap_cons,
          ← h.joined, ← h'.joined]
      rcases Piece.chars_append_inj hjoined with ⟨rfl, hmore⟩
      rcases ih ⟨rfl, h.ended⟩ ⟨hmore, h'.ended⟩ with ⟨rfl, rfl⟩
      exact ⟨rfl, rfl⟩

/-! ## Rows that are read to their end -/

/-- A row is read to its end if only blanks are left behind its last tag. -/
def ReadThrough (row : String) : Prop :=
  ∃ ps rest, Splits row.toList ps rest ∧ ∀ c ∈ rest, isAsciiBlank c = true

theorem blank_nil : ∀ c ∈ ([] : List Char), isAsciiBlank c = true :=
  List.forall_mem_nil _

theorem blank_space : ∀ c ∈ [' '], isAsciiBlank c = true :=
  List.forall_mem_singleton.2 rfl

theorem readThrough_of_pieces (ps : List Piece) {blanks : List Char}
    (hblanks : ∀ c ∈ blanks, isAsciiBlank c = true) :
    ReadThrough (String.ofList (ps.flatMap Piece.chars ++ blanks)) := by
  refine ⟨ps, blanks, ?_, hblanks⟩
  rw [String.toList_ofList]
  exact splits_of_blanks hblanks

theorem first?_blanks_append {blanks : List Char} (hblanks : ∀ c ∈ blanks, isAsciiBlank c = true)
    (cs : List Char) : first? (blanks ++ cs) = first? cs := by
  simp only [first?, List.dropWhile_append_of_pos hblanks]

theorem scan_blanks_append {blanks : List Char} (hblanks : ∀ c ∈ blanks, isAsciiBlank c = true)
    (cs : List Char) : scan (blanks ++ cs) = scan cs := by
  rw [scan_eq, scan_eq cs, first?_blanks_append hblanks]

/-- What follows a row that is read to its end is read as if it stood alone. -/
theorem scan_append {row : String} (h : ReadThrough row) (cs : List Char) :
    scan (row.toList ++ cs) = ofRow row ++ scan cs := by
  rcases h with ⟨ps, blanks, hsplits, hblanks⟩
  have hrow : ofRow row = ps.map Piece.tag := scan_of_splits hsplits
  rw [hrow, hsplits.joined, List.append_assoc, scan_pieces_append, scan_blanks_append hblanks]

end FieldNotes.Tag
