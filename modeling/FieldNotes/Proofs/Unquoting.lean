import FieldNotes.Proofs.Tokens
import Mathlib.Tactic.Push

/-! # Reading texts between quotes

What stands between two quotes is read byte by byte, from left to right.  A byte stands for itself,
or a backslash begins an escape.  Where neither is the case, reading ends with an error that tells
the place.

* `Quoted.Atom`: what is read in one go.
* `Quoted.escape?_eq_none_iff`: an escape is found where one is written, and nowhere else.
* `Quoted.Stop`: a place at which no atom is written, with the error that it makes.
* `Quoted.resolve_eq_ok_iff`, `Quoted.resolve_eq_error_iff`: all atoms are read, or those before the
  first place without one.
* `unquote_exact`: what is read of a written form, and where and why it cannot be read.
-/

namespace FieldNotes.Text

namespace Quoted

/-! ## What is read -/

/-- What is read in one go. -/
inductive Atom
  /-- A byte that stands for itself. -/
  | byte (b : UInt8) (hquote : b ≠ quote) (hbackslash : b ≠ backslash) (hline : b ≠ lineFeed)
  | escape (e : Escape)

namespace Atom

/-- The bytes that are read. -/
def written : Atom → List UInt8
  | byte b _ _ _ => [b]
  | escape e => backslash :: encode e.tail

/-- The bytes that they stand for. -/
def bytes : Atom → List UInt8
  | byte b _ _ _ => [b]
  | escape e => e.bytes

end Atom

/-- No escape is written here, behind a backslash. -/
def NoEscape (bs : List UInt8) : Prop :=
  ∀ (e : Escape) (more : List UInt8), bs ≠ encode e.tail ++ more

/-- A place at which no atom is written, and the error that it makes. -/
inductive Stop (position : Nat) : List UInt8 → UnquoteError → Prop
  | raw {b : UInt8} (hb : b = quote ∨ b = lineFeed) (more : List UInt8) :
      Stop position (b :: more) (.unescaped position)
  | escape {more : List UInt8} (hmore : NoEscape more) :
      Stop position (backslash :: more) (.invalidEscape (position + 1))

/-- A written form has an opening and a closing quote around an inner part. -/
def Encloses (q : String) (inner : List UInt8) : Prop :=
  bytes q = quote :: (inner ++ [quote])

/-- The text between the quotes, if nothing has to be resolved in it. -/
def verbatim? (q : String) : Option String :=
  match q.toList with
  | '"' :: rest =>
    if rest.getLast? = some '"' ∧
        rest.dropLast.all (fun c => c ≠ '\\' ∧ c ≠ '"' ∧ c ≠ '\n') = true then
      some (String.ofList rest.dropLast)
    else none
  | _ => none

/-- What a written form says, told by the atoms that it is made of. -/
inductive Reads (q : String) : Except UnquoteError String → Prop
  | notQuoted (hq : ∀ inner, ¬ Encloses q inner) : Reads q (.error .notQuoted)
  /-- Behind some atoms there is a place without one. -/
  | stop {as : List Atom} {rest : List UInt8} {e : UnquoteError}
      (hq : Encloses q (as.flatMap Atom.written ++ rest))
      (hstop : Stop (1 + (as.flatMap Atom.written).length) rest e) : Reads q (.error e)
  | text {as : List Atom} {s : String} (hq : Encloses q (as.flatMap Atom.written))
      (hs : as.flatMap Atom.bytes = bytes s) : Reads q (.ok s)
  | noText {as : List Atom} (hq : Encloses q (as.flatMap Atom.written))
      (hs : ∀ s, as.flatMap Atom.bytes ≠ bytes s) : Reads q (.error .invalidUtf8)

/-! ## Digits -/

theorem toUInt8_of_toNat {n : Nat} {b : UInt8} (h : n = b.toNat) : n.toUInt8 = b := by
  rw [h]
  exact UInt8.ofNat_toNat

/-- What is read as a digit is one, in lower or in upper case. -/
theorem exists_digit {base : Nat} {b : UInt8} {n : Nat} (h : digit? base b = some n) :
    ∃ d : Digit base, d.value = n ∧ d.char.toNat.toUInt8 = b := by
  have hdecimal : ∀ n < 10, (digitChar n false).toNat = n + 0x30 := by decide
  have hlower : ∀ n < 6, (digitChar (n + 10) false).toNat = n + 0x61 := by decide
  have hupper : ∀ n < 6, (digitChar (n + 10) true).toNat = n + 0x41 := by decide
  simp only [digit?, Option.filter_eq_some_iff, decide_eq_true_eq] at h
  obtain ⟨hvalue, hlt⟩ := h
  split at hvalue
  · cases hvalue
    refine ⟨⟨⟨_, hlt⟩, false⟩, rfl, toUInt8_of_toNat ?_⟩
    have hchar := hdecimal (b.toNat - 0x30) (by omega)
    exact hchar.trans (by omega)
  split at hvalue
  · cases hvalue
    refine ⟨⟨⟨_, hlt⟩, false⟩, rfl, toUInt8_of_toNat ?_⟩
    have hchar := hlower (b.toNat - 0x61) (by omega)
    exact hchar.trans (by omega)
  split at hvalue
  · cases hvalue
    refine ⟨⟨⟨_, hlt⟩, true⟩, rfl, toUInt8_of_toNat ?_⟩
    have hchar := hupper (b.toNat - 0x41) (by omega)
    exact hchar.trans (by omega)
  · cases hvalue

section Digits

variable {base : Nat}

theorem exists_digits {bs : List UInt8} {n m : Nat}
    (h : bs.foldlM (fun acc b => (digit? base b).map (acc * base + ·)) n = some m) :
    ∃ ds : List (Digit base), bs = ds.map (fun d => d.char.toNat.toUInt8) ∧
      ds.foldl (fun n d => n * base + d.value) n = m := by
  induction bs generalizing n with
  | nil =>
    cases h
    exact ⟨[], rfl, rfl⟩
  | cons b bs ih =>
    rw [List.foldlM_cons, Option.bind_eq_bind, Option.bind_eq_some_iff] at h
    obtain ⟨_, hb, hbs⟩ := h
    obtain ⟨k, hk, rfl⟩ := Option.map_eq_some_iff.1 hb
    obtain ⟨d, rfl, rfl⟩ := exists_digit hk
    obtain ⟨ds, rfl, rfl⟩ := ih hbs
    exact ⟨d :: ds, rfl, rfl⟩

/-- What is read as a number of some digits begins with these digits. -/
theorem exists_numeral (hbase : base ≤ 16) {count n : Nat} {bs : List UInt8}
    (h : leadingNumber? base count bs = some n) :
    ∃ (ds : List (Digit base)) (rest : List UInt8), ds.length = count ∧
      bs = encode (ds.map Digit.char) ++ rest ∧ numeral ds = n := by
  simp only [leadingNumber?] at h
  split at h
  · rename_i hlength
    obtain ⟨ds, hds, hvalue⟩ := exists_digits h
    refine ⟨ds, bs.drop count, ?_, ?_, hvalue⟩
    · rw [← hlength, hds, List.length_map]
    · rw [encode_digits hbase, ← hds, List.take_append_drop]
  · cases h

end Digits

/-! ## Escapes -/

theorem exists_character {code : Nat} {out : List UInt8} (h : characterBytes? code = some out) :
    ∃ c : Char, c.toNat = code ∧ String.utf8EncodeChar c = out := by
  unfold characterBytes? at h
  split at h
  · rename_i hvalid
    have hlt : code < 4294967296 := by
      rcases hvalid with hvalid | ⟨-, hvalid⟩ <;> omega
    refine ⟨_, ?_, Option.some.inj h⟩
    exact Nat.mod_eq_of_lt hlt
  · cases h

/-- Where digits are read as a character, they are the code of one. -/
theorem exists_code {count : Nat} {bs out : List UInt8}
    (h : (leadingNumber? 16 count bs).bind characterBytes? = some out) :
    ∃ (c : Char) (ds : List (Digit 16)) (rest : List UInt8), ds.length = count ∧
      bs = encode (ds.map Digit.char) ++ rest ∧ numeral ds = c.toNat := by
  obtain ⟨n, hn, hcode⟩ := Option.bind_eq_some_iff.1 h
  obtain ⟨ds, rest, hlength, hbs, hvalue⟩ := exists_numeral (by decide) hn
  obtain ⟨c, hc, -⟩ := exists_character hcode
  exact ⟨c, ds, rest, hlength, hbs, hvalue.trans hc.symm⟩

theorem exists_letter {b out : UInt8} (h : letterEscape? b = some out) :
    ∃ c, (c, out) ∈ letters ∧ String.utf8EncodeChar c = [b] := by
  unfold letterEscape? at h
  split at h
  all_goals cases h
  · exact ⟨'a', by decide, rfl⟩
  · exact ⟨'b', by decide, rfl⟩
  · exact ⟨'f', by decide, rfl⟩
  · exact ⟨'n', by decide, rfl⟩
  · exact ⟨'r', by decide, rfl⟩
  · exact ⟨'t', by decide, rfl⟩
  · exact ⟨'v', by decide, rfl⟩
  · exact ⟨'\\', by decide, rfl⟩
  · exact ⟨'"', by decide, rfl⟩

/-- What is read as an escape is one. -/
theorem exists_escape {bs out : List UInt8} {width : Nat} (h : escape? bs = some (out, width)) :
    ∃ (e : Escape) (rest : List UInt8), bs = encode e.tail ++ rest := by
  unfold escape? at h
  split at h
  · cases h
  · rename_i b rest
    -- the first byte tells which escape it can be
    split at h
    · rename_i byte hletter
      obtain ⟨c, hc, hbytes⟩ := exists_letter hletter
      refine ⟨.letter c byte hc, rest, ?_⟩
      rw [Escape.tail, encode_cons, hbytes]
      rfl
    split at h
    · rename_i hx
      obtain ⟨n, hn, -⟩ := Option.map_eq_some_iff.1 h
      obtain ⟨ds, more, hlength, rfl, -⟩ := exists_numeral (by decide) hn
      exact ⟨.hex ds hlength, more, by rw [hx]; rfl⟩
    split at h
    · rename_i hu
      obtain ⟨bytes, hbytes, -⟩ := Option.map_eq_some_iff.1 h
      obtain ⟨c, ds, more, hlength, rfl, hvalue⟩ := exists_code hbytes
      exact ⟨.short c ds hlength hvalue, more, by rw [hu]; rfl⟩
    split at h
    · rename_i hU
      obtain ⟨bytes, hbytes, -⟩ := Option.map_eq_some_iff.1 h
      obtain ⟨c, ds, more, hlength, rfl, hvalue⟩ := exists_code hbytes
      exact ⟨.long c ds hlength hvalue, more, by rw [hU]; rfl⟩
    · obtain ⟨n, hn, -⟩ := Option.map_eq_some_iff.1 h
      obtain ⟨hnumber, hbyte⟩ := Option.filter_eq_some_iff.1 hn
      obtain ⟨ds, more, hlength, hbs, rfl⟩ := exists_numeral (by decide) hnumber
      exact ⟨.octal ds hlength (of_decide_eq_true hbyte), more, hbs⟩

theorem escape?_eq_none_iff {bs : List UInt8} : escape? bs = none ↔ NoEscape bs := by
  constructor
  · rintro h e more rfl
    rw [escape?_tail] at h
    cases h
  · intro h
    cases hread : escape? bs with
    | none => rfl
    | some found =>
      obtain ⟨out, width⟩ := found
      obtain ⟨e, more, hbs⟩ := exists_escape hread
      exact absurd hbs (h e more)

/-! ## Inner parts -/

theorem resolve_atom (a : Atom) (position : Nat) (rest : List UInt8) :
    resolve position (a.written ++ rest) =
      (resolve (position + a.written.length) rest).map (a.bytes ++ ·) := by
  cases a with
  | byte b hquote hbackslash hline =>
    apply resolve_plain
    intro x hx
    rw [List.mem_singleton.1 hx]
    exact ⟨hquote, hline, hbackslash⟩
  | escape e => exact resolve_token (.escape e) position rest

theorem resolve_atoms (as : List Atom) (position : Nat) (rest : List UInt8) :
    resolve position (as.flatMap Atom.written ++ rest) =
      (resolve (position + (as.flatMap Atom.written).length) rest).map
        (as.flatMap Atom.bytes ++ ·) := by
  induction as generalizing position with
  | nil => cases hread : resolve position rest <;> simp [hread, Except.map]
  | cons a as ih =>
    rw [List.flatMap_cons, List.flatMap_cons, List.append_assoc, resolve_atom, ih,
      List.length_append, Nat.add_assoc]
    cases resolve (position + (a.written.length + (as.flatMap Atom.written).length)) rest with
    | error e => rfl
    | ok out => exact congrArg Except.ok (List.append_assoc _ _ _).symm

theorem resolve_stop {position : Nat} {bs : List UInt8} {e : UnquoteError}
    (h : Stop position bs e) : resolve position bs = .error e := by
  cases h with
  | raw hb more => rw [resolve, if_pos hb]
  | escape hmore =>
    rw [resolve, if_neg (by decide), if_pos rfl, escape?_eq_none_iff.2 hmore]

theorem Atom.length_written_pos (a : Atom) : 0 < a.written.length := by
  cases a <;> exact Nat.succ_pos _

theorem atom_or_stop (bs : List UInt8) (position : Nat) :
    bs = [] ∨ (∃ e, Stop position bs e) ∨
      ∃ (a : Atom) (more : List UInt8), bs = a.written ++ more := by
  cases bs with
  | nil => exact Or.inl rfl
  | cons b more =>
    apply Or.inr
    by_cases hraw : b = quote ∨ b = lineFeed
    · exact Or.inl ⟨_, .raw hraw more⟩
    by_cases hbackslash : b = backslash
    · subst hbackslash
      by_cases hescape : NoEscape more
      · exact Or.inl ⟨_, .escape hescape⟩
      · simp only [NoEscape, not_forall, not_not] at hescape
        obtain ⟨e, rest, rfl⟩ := hescape
        exact Or.inr ⟨.escape e, rest, rfl⟩
    · rw [not_or] at hraw
      exact Or.inr ⟨.byte b hraw.1 hbackslash hraw.2, more, rfl⟩

/-- Behind the atoms that bytes begin with, they end, or there is a place to stop at. -/
theorem exists_atoms (bs : List UInt8) (position : Nat) :
    ∃ (as : List Atom) (rest : List UInt8), bs = as.flatMap Atom.written ++ rest ∧
      (rest = [] ∨ ∃ e, Stop (position + (as.flatMap Atom.written).length) rest e) := by
  rcases atom_or_stop bs position with rfl | hstop | ⟨a, more, rfl⟩
  · exact ⟨[], [], rfl, Or.inl rfl⟩
  · exact ⟨[], bs, rfl, Or.inr hstop⟩
  · obtain ⟨as, rest, hmore, hrest⟩ := exists_atoms more (position + a.written.length)
    refine ⟨a :: as, rest, ?_, ?_⟩
    · rw [hmore, List.flatMap_cons, List.append_assoc]
    · rw [List.flatMap_cons, List.length_append, ← Nat.add_assoc]
      exact hrest
  termination_by bs.length
  decreasing_by
    rename_i hbs
    have hpos := a.length_written_pos
    rw [hbs, List.length_append]
    omega

/-- All of an inner part is read if it is made of atoms. -/
theorem resolve_eq_ok_iff {position : Nat} {bs out : List UInt8} :
    resolve position bs = .ok out ↔
      ∃ as : List Atom, bs = as.flatMap Atom.written ∧ as.flatMap Atom.bytes = out := by
  constructor
  · intro h
    obtain ⟨as, rest, rfl, hrest⟩ := exists_atoms bs position
    rw [resolve_atoms] at h
    rcases hrest with rfl | ⟨e, hstop⟩
    · rw [resolve] at h
      cases h
      exact ⟨as, List.append_nil _, (List.append_nil _).symm⟩
    · rw [resolve_stop hstop] at h
      cases h
  · rintro ⟨as, rfl, rfl⟩
    have hread := resolve_atoms as position []
    rw [List.append_nil, resolve] at hread
    exact hread.trans (congrArg Except.ok (List.append_nil _))

/-- Otherwise there is an error, for the first place at which no atom is written. -/
theorem resolve_eq_error_iff {position : Nat} {bs : List UInt8} {e : UnquoteError} :
    resolve position bs = .error e ↔
      ∃ (as : List Atom) (rest : List UInt8), bs = as.flatMap Atom.written ++ rest ∧
        Stop (position + (as.flatMap Atom.written).length) rest e := by
  constructor
  · intro h
    obtain ⟨as, rest, rfl, hrest⟩ := exists_atoms bs position
    rw [resolve_atoms] at h
    rcases hrest with rfl | ⟨e', hstop⟩
    · rw [resolve] at h
      cases h
    · rw [resolve_stop hstop] at h
      cases h
      exact ⟨as, rest, rfl, hstop⟩
  · rintro ⟨as, rest, rfl, hstop⟩
    rw [resolve_atoms, resolve_stop hstop]
    rfl

/-! ## Written forms -/

theorem inner?_eq_some_iff {q : String} {inner : List UInt8} :
    inner? (bytes q) = some inner ↔ Encloses q inner := by
  unfold Encloses
  constructor
  · intro h
    unfold inner? at h
    split at h
    · cases h
    · rename_i b rest hq
      split at h
      · rename_i hquotes
        obtain ⟨rfl, hlast⟩ := hquotes
        obtain ⟨inner', rfl⟩ := List.getLast?_eq_some_iff.1 hlast
        rw [List.dropLast_concat] at h
        cases h
        exact hq
      · cases h
  · intro h
    rw [h, inner?, List.getLast?_concat, List.dropLast_concat]
    rfl

theorem Encloses.unique {q : String} {inner inner' : List UInt8} (h : Encloses q inner)
    (h' : Encloses q inner') : inner = inner' := by
  have hsome := inner?_eq_some_iff.2 h
  rw [inner?_eq_some_iff.2 h'] at hsome
  exact (Option.some.inj hsome).symm

/-- The bytes of a written form count from its opening quote. -/
theorem Encloses.getElem? {q : String} {pre post : List UInt8} {b : UInt8}
    (h : Encloses q (pre ++ b :: post)) : (bytes q)[1 + pre.length]? = some b := by
  have hq : bytes q = (quote :: pre) ++ b :: (post ++ [quote]) := by
    rw [h, List.append_assoc]
    rfl
  rw [hq, List.getElem?_append_right (by rw [List.length_cons]; omega), List.length_cons,
    Nat.add_comm, Nat.sub_self]
  rfl

/-- What is read of a written form is what it says. -/
theorem reads_unquote (q : String) : Reads q (unquote q) := by
  unfold unquote
  cases hinner : inner? (bytes q) with
  | none =>
    apply Reads.notQuoted
    intro inner h
    rw [inner?_eq_some_iff.2 h] at hinner
    cases hinner
  | some inner =>
    have hq := inner?_eq_some_iff.1 hinner
    cases hread : resolve 1 inner with
    | error e =>
      simp only [hread]
      obtain ⟨as, rest, rfl, hstop⟩ := resolve_eq_error_iff.1 hread
      exact .stop hq hstop
    | ok out =>
      obtain ⟨as, rfl, rfl⟩ := resolve_eq_ok_iff.1 hread
      cases htext : ofBytes? (as.flatMap Atom.bytes) with
      | some s =>
        simp only [hread, htext]
        exact .text hq (ofBytes?_eq_some_iff.1 htext)
      | none =>
        simp only [hread, htext]
        apply Reads.noText hq
        intro s hs
        rw [ofBytes?_eq_some_iff.2 hs] at htext
        cases htext

/-- A written form says one thing only. -/
theorem Reads.eq_unquote {q : String} {r : Except UnquoteError String} (h : Reads q r) :
    unquote q = r := by
  cases h with
  | notQuoted hq =>
    cases hinner : inner? (bytes q) with
    | none => rw [unquote, hinner]
    | some inner => exact absurd (inner?_eq_some_iff.1 hinner) (hq inner)
  | stop hq hstop =>
    rw [unquote, inner?_eq_some_iff.2 hq]
    simp only [resolve_eq_error_iff.2 ⟨_, _, rfl, hstop⟩]
  | text hq hs =>
    rw [unquote, inner?_eq_some_iff.2 hq]
    simp only [resolve_eq_ok_iff.2 ⟨_, rfl, rfl⟩, ofBytes?_eq_some_iff.2 hs]
  | noText hq hs =>
    have hnone := Option.eq_none_iff_forall_ne_some.2 fun s h => hs s (ofBytes?_eq_some_iff.1 h)
    rw [unquote, inner?_eq_some_iff.2 hq]
    simp only [resolve_eq_ok_iff.2 ⟨_, rfl, rfl⟩, hnone]

/-- Characters that may stand for themselves are tokens. -/
theorem exists_plain_tokens {cs : List Char} (h : ∀ c ∈ cs, c ≠ '\\' ∧ c ≠ '"' ∧ c ≠ '\n') :
    ∃ ts : List Token, ts.flatMap Token.chars = cs ∧ ts.flatMap Token.bytes = encode cs := by
  induction cs with
  | nil => exact ⟨[], rfl, rfl⟩
  | cons c cs ih =>
    obtain ⟨ts, hchars, hbytes⟩ := ih fun x hx => h x (List.mem_cons_of_mem _ hx)
    obtain ⟨hbackslash, hquote, hline⟩ := h c List.mem_cons_self
    refine ⟨.plain c hquote hbackslash hline :: ts, ?_, ?_⟩
    · rw [List.flatMap_cons, hchars]
      rfl
    · rw [List.flatMap_cons, hbytes]
      rfl

theorem unquote_verbatim {q s : String} (h : verbatim? q = some s) : unquote q = .ok s := by
  unfold verbatim? at h
  split at h
  · rename_i rest hq
    split at h
    · rename_i hrest
      obtain ⟨hlast, hplain⟩ := hrest
      obtain ⟨cs, rfl⟩ := List.getLast?_eq_some_iff.1 hlast
      rw [List.dropLast_concat] at h hplain
      simp only [List.all_eq_true, decide_eq_true_eq] at hplain
      cases h
      obtain ⟨ts, rfl, hbytes⟩ := exists_plain_tokens hplain
      have hwritten : q = String.ofList (written ts) := by
        rw [← String.ofList_toList (s := q), hq]
        rfl
      rw [hwritten]
      apply unquote_tokens
      rw [hbytes, bytes_ofList]
    · cases h
  · cases h

end Quoted

open Quoted

/-- A written form is read as what it says: its text, or an error.  An error for a place tells the
position of a raw quote or line feed, or the one behind a backslash.  Where nothing has to be
resolved, the text is what stands between the quotes. -/
theorem unquote_exact (q : String) :
    (∀ r, unquote q = r ↔ Reads q r) ∧
    (∀ p, unquote q = .error (.unescaped p) →
      (bytes q)[p]? = some quote ∨ (bytes q)[p]? = some lineFeed) ∧
    (∀ p, unquote q = .error (.invalidEscape p) → 0 < p ∧ (bytes q)[p - 1]? = some backslash) ∧
    ∀ s, verbatim? q = some s → unquote q = .ok s := by
  have hreads := reads_unquote q
  refine ⟨?_, ?_, ?_, fun s => unquote_verbatim⟩
  · intro r
    constructor
    · rintro rfl
      exact hreads
    · exact Reads.eq_unquote
  · intro p hp
    rw [hp] at hreads
    cases hreads with
    | stop hq hstop =>
      cases hstop with
      | raw hb more =>
        rw [hq.getElem?]
        rcases hb with rfl | rfl
        · exact Or.inl rfl
        · exact Or.inr rfl
  · intro p hp
    rw [hp] at hreads
    cases hreads with
    | stop hq hstop =>
      cases hstop with
      | escape hmore => exact ⟨Nat.succ_pos _, hq.getElem?⟩

end FieldNotes.Text
