import FieldNotes.Proofs.Bytes
import FieldNotes.Proofs.Grammar

/-! # Scanning bytes

A row is a text, and a scanner may go over its bytes without taking them for characters: the few
bytes that it looks for are below 128, and no other character is written with one of these.  A
backslash takes along one byte and not one character, so a scanner may come to stand within a
character; what it cuts off in the end are whole characters all the same.

* `Scanner.next?` asks such a scanner for one more tag.  It has no answer where a slice would begin
  or end within a character.
* `Scanner.cut?_isSome_iff`: to cut is possible exactly between two characters.
* `Scanner.next?_eq`: a scanner always answers, and finds the tags that `Tag.first?` finds.
* `Scanner.ask_eq`: asked again and again, it gives the tags of the row in their order, and then
  none for ever.
* `Tag.ofRow_eq_iff_splits`: the tags of a row are those of the pieces that it is made of.
-/

namespace FieldNotes.Tag

open Text

namespace Scanner

/-! ## The scanner -/

/-- The byte of a colon. -/
def colon : UInt8 := 0x3a

/-- The bytes that go on with a name. -/
def isNameByte (b : UInt8) : Bool :=
  0x20 < b && b != colon && b != Quoted.quote && b != 0x7f

/-- The number of bytes before the closing quote, where a backslash takes the next byte along.
Without a closing quote it is the number of all bytes, or one more. -/
def inside : List UInt8 → Nat
  | [] => 0
  | b :: bs =>
    if b = Quoted.quote then 0
    else if b = Quoted.backslash then inside (bs.drop 1) + 2
    else inside bs + 1
  termination_by bs => bs.length

/-- The characters before a byte position and those from it on, if it lies between characters. -/
def cut? : Nat → List Char → Option (List Char × List Char)
  | 0, cs => some ([], cs)
  | _ + 1, [] => none
  | n + 1, c :: cs =>
    if c.utf8Size ≤ n + 1 then (cut? (n + 1 - c.utf8Size) cs).map fun (ds, es) => (c :: ds, es)
    else none

/-- Cuts off the text that begins with an opening quote, if it has a closing one. -/
def quoted? (cs : List Char) : Option (Option (List Char × List Char)) :=
  let bs := encode cs
  let i := 1 + inside (bs.drop 1)
  if bs.length ≤ i then some none else (cut? (i + 1) cs).map some

/-- The answer of a scanner that is asked for one more tag, and the row that is left to it.  A
scanner that finds no tag leaves nothing. -/
def next? (row : List Char) : Option (Option Tag × List Char) :=
  let cs := row.dropWhile isAsciiBlank
  let bs := encode cs
  let i := (bs.takeWhile isNameByte).length
  if i = 0 ∨ bs.length ≤ i + 1 ∨ bs[i]? ≠ some colon ∨ bs[i + 1]? ≠ some Quoted.quote then
    some (none, [])
  else do
    let (name, _) ← cut? i cs
    let (_, cs) ← cut? (i + 1) cs
    match ← quoted? cs with
    | none => return (none, [])
    | some (quoted, row) => return (some ⟨String.ofList name, String.ofList quoted⟩, row)

/-- The answers of a scanner that is asked again and again. -/
def ask : Nat → List Char → Option (List (Option Tag))
  | 0, _ => some []
  | n + 1, row => do
    let (t, row) ← next? row
    return t :: (← ask n row)

/-! ## Cutting -/

theorem cut?_encode (cs ds : List Char) : cut? (encode cs).length (cs ++ ds) = some (cs, ds) := by
  induction cs with
  | nil => simp [cut?]
  | cons c cs ih =>
    have hpos := c.utf8Size_pos
    obtain ⟨n, hn⟩ : ∃ n, (encode (c :: cs)).length = n + 1 := by
      refine ⟨c.utf8Size - 1 + (encode cs).length, ?_⟩
      rw [encode_cons, List.length_append, String.length_utf8EncodeChar]
      omega
    have hrest : n + 1 - c.utf8Size = (encode cs).length := by
      rw [← hn, encode_cons, List.length_append, String.length_utf8EncodeChar]
      omega
    have hle : c.utf8Size ≤ n + 1 := by
      rw [← hn, encode_cons, List.length_append, String.length_utf8EncodeChar]
      omega
    rw [hn, List.cons_append, cut?, if_pos hle, hrest, ih]
    rfl

theorem eq_of_cut? {n : Nat} {cs ds es : List Char} (h : cut? n cs = some (ds, es)) :
    cs = ds ++ es ∧ n = (encode ds).length := by
  fun_induction cut? n cs generalizing ds es with
  | case1 cs =>
    cases h
    exact ⟨rfl, rfl⟩
  | case2 => cases h
  | case3 n c cs hle ih =>
    rcases Option.map_eq_some_iff.1 h with ⟨⟨ds', es'⟩, hcut, heq⟩
    cases heq
    rcases ih hcut with ⟨rfl, hn⟩
    refine ⟨rfl, ?_⟩
    rw [encode_cons, List.length_append, String.length_utf8EncodeChar]
    omega
  | case4 => cases h

/-- A text can be cut exactly at the positions between its characters. -/
theorem cut?_isSome_iff (n : Nat) (s : String) :
    (cut? n s.toList).isSome = true ↔ (⟨n⟩ : String.Pos.Raw).IsValid s := by
  have hsize : ∀ cs : List Char, (String.ofList cs).utf8ByteSize = (encode cs).length := by
    intro cs
    rw [← String.size_toByteArray, String.toByteArray_ofList]
    exact List.size_toByteArray
  rw [String.Pos.Raw.isValid_iff_exists_append]
  constructor
  · intro h
    rcases Option.isSome_iff_exists.1 h with ⟨⟨ds, es⟩, hcut⟩
    rcases eq_of_cut? hcut with ⟨hs, hn⟩
    refine ⟨String.ofList ds, String.ofList es, ?_, ?_⟩
    · rw [← String.ofList_append, ← hs, String.ofList_toList]
    · rw [String.Pos.Raw.ext_iff]
      exact hn.trans (hsize ds).symm
  · rintro ⟨s₁, s₂, rfl, hn⟩
    have hlength : n = (encode s₁.toList).length := by
      rw [← hsize, String.ofList_toList]
      exact congrArg String.Pos.Raw.byteIdx hn
    rw [hlength, String.toList_append, cut?_encode]
    rfl

/-! ## Names -/

theorem isNameByte_code {c : Char} (h : c.toNat < 128) :
    isNameByte c.toNat.toUInt8 = isNameChar c := by
  have hcodes : ∀ n < 128, isNameByte n.toUInt8 = isNameChar (Char.ofNat n) := by decide
  rw [hcodes c.toNat h, Char.ofNat_toNat]

theorem isNameByte_of_le {b : UInt8} (h : 128 ≤ b.toNat) : isNameByte b = true := by
  have hne : ∀ d : UInt8, d.toNat < 128 → (b != d) = true := by
    intro d hd
    rw [bne_iff_ne]
    rintro rfl
    omega
  have hlt : 0x20 < b := by
    rw [UInt8.lt_iff_toNat_lt]
    exact Nat.lt_of_lt_of_le (by decide) h
  simp only [isNameByte, hlt, decide_true, hne colon (by decide), hne Quoted.quote (by decide),
    hne 0x7f (by decide), Bool.and_self]

theorem isNameChar_of_le {c : Char} (h : 128 ≤ c.toNat) : isNameChar c = true := by
  have hne : ∀ d : Char, d.toNat < 128 → (c != d) = true := by
    intro d hd
    rw [bne_iff_ne]
    rintro rfl
    omega
  have hlt : ' ' < c := by
    rw [Char.lt_def, UInt32.lt_iff_toNat_lt]
    exact Nat.lt_of_lt_of_le (by decide) h
  simp only [isNameChar, hlt, decide_true, hne ':' (by decide), hne '"' (by decide),
    hne '\x7f' (by decide), Bool.and_self]

theorem isNameByte_of_isNameChar {c : Char} (h : isNameChar c = true) :
    ∀ b ∈ String.utf8EncodeChar c, isNameByte b = true := by
  intro b hb
  by_cases hc : c.toNat < 128
  · rw [utf8EncodeChar_of_lt hc, List.mem_singleton] at hb
    rw [hb, isNameByte_code hc, h]
  · exact isNameByte_of_le (le_of_mem_utf8EncodeChar (Nat.not_lt.1 hc) hb)

theorem exists_byte_of_not_isNameChar {c : Char} (h : isNameChar c = false) :
    ∃ b, String.utf8EncodeChar c = [b] ∧ isNameByte b = false := by
  have hc : c.toNat < 128 := by
    refine Nat.lt_of_not_le fun hle => ?_
    rw [isNameChar_of_le hle] at h
    cases h
  exact ⟨c.toNat.toUInt8, utf8EncodeChar_of_lt hc, by rw [isNameByte_code hc, h]⟩

theorem takeWhile_encode (cs : List Char) :
    (encode cs).takeWhile isNameByte = encode (cs.takeWhile isNameChar) := by
  induction cs with
  | nil => rfl
  | cons c cs ih =>
    rw [encode_cons]
    cases hc : isNameChar c with
    | true =>
      rw [List.takeWhile_append_of_pos (isNameByte_of_isNameChar hc), ih,
        List.takeWhile_cons_of_pos hc, encode_cons]
    | false =>
      rcases exists_byte_of_not_isNameChar hc with ⟨b, hb, hname⟩
      rw [hb, List.takeWhile_cons_of_neg (by simp [hc])]
      simp [hname]

/-- A byte below 128 at the beginning of the bytes is the first character. -/
theorem exists_cons_of_encode {d : Char} (hd : d.toNat < 128) {cs : List Char}
    (h : (encode cs)[0]? = some d.toNat.toUInt8) : ∃ r, cs = d :: r := by
  cases cs with
  | nil => cases h
  | cons c r =>
    have hpos : 0 < (String.utf8EncodeChar c).length := by
      rw [String.length_utf8EncodeChar]
      exact c.utf8Size_pos
    rw [encode_cons, List.getElem?_append_left hpos] at h
    exact ⟨r, congrArg (· :: r) (eq_of_mem_utf8EncodeChar hd (List.mem_of_getElem? h))⟩

/-- Two bytes below 128 at the beginning of the bytes are the first two characters. -/
theorem encode_two_iff {c d : Char} (hc : c.toNat < 128) (hd : d.toNat < 128) (cs : List Char) :
    (encode cs)[0]? = some c.toNat.toUInt8 ∧ (encode cs)[1]? = some d.toNat.toUInt8 ↔
      ∃ r, cs = c :: d :: r := by
  constructor
  · rintro ⟨h0, h1⟩
    rcases exists_cons_of_encode hc h0 with ⟨r, rfl⟩
    rw [encode_cons, utf8EncodeChar_of_lt hc, List.singleton_append,
      List.getElem?_cons_succ] at h1
    rcases exists_cons_of_encode hd h1 with ⟨r, rfl⟩
    exact ⟨r, rfl⟩
  · rintro ⟨r, rfl⟩
    simp [utf8EncodeChar_of_lt hc, utf8EncodeChar_of_lt hd]

/-! ## Texts -/

theorem inside_append {bs : List UInt8}
    (h : ∀ b ∈ bs, b ≠ Quoted.quote ∧ b ≠ Quoted.backslash) (more : List UInt8) :
    inside (bs ++ more) = bs.length + inside more := by
  induction bs with
  | nil => simp
  | cons b bs ih =>
    have hb := h b List.mem_cons_self
    rw [List.cons_append, inside, if_neg hb.1, if_neg hb.2,
      ih fun b hb => h b (List.mem_cons_of_mem _ hb), List.length_cons]
    omega

/-- The bytes of a character that is neither a quote nor a backslash are neither. -/
theorem plain_of_mem {c : Char} (hq : c ≠ '"') (hb : c ≠ '\\') {b : UInt8}
    (h : b ∈ String.utf8EncodeChar c) : b ≠ Quoted.quote ∧ b ≠ Quoted.backslash := by
  constructor
  · rintro rfl
    exact hq (eq_of_mem_utf8EncodeChar (d := '"') (by decide) h)
  · rintro rfl
    exact hb (eq_of_mem_utf8EncodeChar (d := '\\') (by decide) h)

/-- Behind the first byte of a character stand no quotes and no backslashes. -/
theorem plain_of_mem_drop {c : Char} {b : UInt8} (h : b ∈ (String.utf8EncodeChar c).drop 1) :
    b ≠ Quoted.quote ∧ b ≠ Quoted.backslash := by
  by_cases hc : c.toNat < 128
  · rw [utf8EncodeChar_of_lt hc] at h
    cases h
  · have hle := le_of_mem_utf8EncodeChar (Nat.not_lt.1 hc) (List.mem_of_mem_drop h)
    constructor <;> rintro rfl <;> exact absurd hle (by decide)

theorem inside_escaped (c : Char) (bs : List UInt8) :
    inside (Quoted.backslash :: (String.utf8EncodeChar c ++ bs)) =
      1 + (String.utf8EncodeChar c).length + inside bs := by
  have hpos : 0 < (String.utf8EncodeChar c).length := by
    rw [String.length_utf8EncodeChar]
    exact c.utf8Size_pos
  -- the scanner lands behind the first byte, and goes over the others one by one
  have hdrop : (String.utf8EncodeChar c ++ bs).drop 1 = (String.utf8EncodeChar c).drop 1 ++ bs :=
    List.drop_append_of_le_length hpos
  rw [inside, if_neg (by decide), if_pos rfl, hdrop,
    inside_append (fun b hb => plain_of_mem_drop hb), List.length_drop]
  omega

theorem encode_quote : String.utf8EncodeChar '"' = [Quoted.quote] :=
  rfl

theorem encode_backslash : String.utf8EncodeChar '\\' = [Quoted.backslash] :=
  rfl

theorem inside_plain {c : Char} (hq : c ≠ '"') (hb : c ≠ '\\') (bs : List UInt8) :
    inside (String.utf8EncodeChar c ++ bs) = (String.utf8EncodeChar c).length + inside bs :=
  inside_append (fun _ h => plain_of_mem hq hb h) bs

/-- The closing quote is found behind what stands between the quotes. -/
theorem inside_inner {b : List Char} (h : Inner b) (r : List Char) :
    inside (encode (b ++ '"' :: r)) = (encode b).length := by
  induction h with
  | nil => rw [List.nil_append, encode_cons, encode_quote, List.singleton_append, inside,
      if_pos rfl, encode_nil, List.length_nil]
  | plain hq hb _ ih =>
    rw [List.cons_append, encode_cons, encode_cons, inside_plain hq hb, ih, List.length_append]
  | escaped c _ ih =>
    rw [List.cons_append, List.cons_append, encode_cons, encode_backslash, List.singleton_append,
      encode_cons, inside_escaped, ih]
    simp only [encode_cons, encode_backslash, List.length_append, List.length_singleton]
    omega

/-- Where no closing quote is, the scanner goes on to the end. -/
theorem le_inside_of_body? {cs : List Char} (h : body? cs = none) :
    (encode cs).length ≤ inside (encode cs) := by
  fun_induction body? cs with
  | case1 => exact Nat.zero_le _
  | case2 => cases h
  | case3 => simp [encode_backslash, inside, Quoted.quote, Quoted.backslash]
  | case4 c rest ih =>
    have hrest := ih (Option.map_eq_none_iff.1 h)
    rw [encode_cons, encode_backslash, List.singleton_append, encode_cons, inside_escaped]
    simp only [List.length_cons, List.length_append]
    omega
  | case5 c rest hquote hlast hescape ih =>
    have hrest := ih (Option.map_eq_none_iff.1 h)
    rw [encode_cons, inside_plain hquote (ne_backslash hlast hescape), List.length_append]
    omega

/-! ## One tag after another -/

/-- What a scanner would answer that took whole characters. -/
def answer (row : List Char) : Option Tag × List Char :=
  match first? row with
  | none => (none, [])
  | some (t, rest) => (some t, rest)

/-- The bytes show whether a row goes on from a name with a colon and a quote. -/
theorem begins_iff (name tail : List Char) :
    ¬ ((encode name).length = 0 ∨ (encode (name ++ tail)).length ≤ (encode name).length + 1 ∨
        (encode (name ++ tail))[(encode name).length]? ≠ some colon ∨
        (encode (name ++ tail))[(encode name).length + 1]? ≠ some Quoted.quote) ↔
      name ≠ [] ∧ ∃ r, tail = ':' :: '"' :: r := by
  have hname : (encode name).length = 0 ↔ name = [] := by
    cases name with
    | nil => simp
    | cons c cs =>
      have hpos := c.utf8Size_pos
      simp only [encode_cons, List.length_append, String.length_utf8EncodeChar]
      constructor
      · omega
      · exact nofun
  have h0 : (encode (name ++ tail))[(encode name).length]? = (encode tail)[0]? := by
    rw [encode_append, List.getElem?_append_right (Nat.le_refl _), Nat.sub_self]
  have h1 : (encode (name ++ tail))[(encode name).length + 1]? = (encode tail)[1]? := by
    rw [encode_append, List.getElem?_append_right (Nat.le_add_right _ _), Nat.add_sub_cancel_left]
  have htwo := encode_two_iff (c := ':') (d := '"') (by decide) (by decide) tail
  -- where there is a second byte, the bytes do not end before it
  have hlength : (encode tail)[1]? = some Quoted.quote →
      ¬ (encode (name ++ tail)).length ≤ (encode name).length + 1 := by
    intro hquote hle
    rw [← h1, List.getElem?_eq_none hle] at hquote
    cases hquote
  rw [h0, h1, hname, ← htwo]
  constructor
  · intro h
    simp only [not_or, ne_eq, not_not] at h
    exact ⟨h.1, h.2.2.1, h.2.2.2⟩
  · rintro ⟨hne, hcolon, hquote⟩
    simp only [not_or, ne_eq, not_not]
    exact ⟨hne, hlength hquote, hcolon, hquote⟩

/-- A row that goes on from its name with a colon and a quote begins with a tag if the quote is
closed. -/
theorem first?_of_begins {row name r : List Char} (hname : name ≠ [])
    (htake : (row.dropWhile isAsciiBlank).takeWhile isNameChar = name)
    (hdrop : (row.dropWhile isAsciiBlank).dropWhile isNameChar = ':' :: '"' :: r) :
    first? row = (body? r).map fun (b, more) =>
      (⟨String.ofList name, String.ofList ('"' :: b ++ ['"'])⟩, more) := by
  have hempty : name.isEmpty = false := by simpa using hname
  simp only [first?, htake, hdrop, hempty, Bool.false_eq_true, if_false]

theorem first?_of_not_begins {row : List Char}
    (h : ¬ ((row.dropWhile isAsciiBlank).takeWhile isNameChar ≠ [] ∧
      ∃ r, (row.dropWhile isAsciiBlank).dropWhile isNameChar = ':' :: '"' :: r)) :
    first? row = none := by
  simp only [first?]
  split
  · rename_i r hdrop
    have hname : (row.dropWhile isAsciiBlank).takeWhile isNameChar = [] := by
      by_contra hne
      exact h ⟨hne, r, hdrop⟩
    rw [hname, List.isEmpty_nil, if_pos rfl]
  · rfl

/-- From its opening quote on, a scanner cuts off what the row has between quotes. -/
theorem quoted?_eq (r : List Char) :
    quoted? ('"' :: r) = some ((body? r).map fun (b, more) => ('"' :: b ++ ['"'], more)) := by
  have hdrop : (encode ('"' :: r)).drop 1 = encode r := by
    rw [encode_cons, encode_quote, List.singleton_append, List.drop_one, List.tail_cons]
  have hlength : (encode ('"' :: r)).length = 1 + (encode r).length := by
    rw [encode_cons, encode_quote, List.singleton_append, List.length_cons, Nat.add_comm]
  simp only [quoted?, hdrop, hlength]
  cases hbody : body? r with
  | none =>
    rw [if_pos (Nat.add_le_add_left (le_inside_of_body? hbody) 1)]
    rfl
  | some found =>
    rcases found with ⟨b, rest⟩
    rcases inner_of_body? hbody with ⟨hinner, rfl⟩
    have hshort : ¬ 1 + (encode (b ++ '"' :: rest)).length ≤ 1 + (encode b).length := by
      rw [encode_append, List.length_append, encode_cons, encode_quote, List.singleton_append,
        List.length_cons]
      omega
    have hclosed : (encode ('"' :: b ++ ['"'])).length = 1 + (encode b).length + 1 := by
      simp only [List.cons_append, encode_append, encode_cons, encode_quote, encode_nil,
        List.nil_append, List.length_cons, List.length_append, List.length_nil]
      omega
    have hcut := cut?_encode ('"' :: b ++ ['"']) rest
    rw [hclosed, List.append_assoc] at hcut
    rw [inside_inner hinner, if_neg hshort]
    exact congrArg (Option.map some) hcut

/-- A scanner always answers, since it only cuts between characters, and it finds the tag that the
row begins with. -/
theorem next?_eq (row : List Char) : next? row = some (answer row) := by
  have hcs := List.takeWhile_append_dropWhile (p := isNameChar) (l := row.dropWhile isAsciiBlank)
  rw [answer]
  by_cases hbegins : (row.dropWhile isAsciiBlank).takeWhile isNameChar ≠ [] ∧
      ∃ r, (row.dropWhile isAsciiBlank).dropWhile isNameChar = ':' :: '"' :: r
  · rcases hbegins with ⟨hname, r, hr⟩
    rw [first?_of_begins hname rfl hr]
    simp only [next?, takeWhile_encode]
    generalize (row.dropWhile isAsciiBlank).takeWhile isNameChar = name at hcs hname ⊢
    rw [hr] at hcs
    have hcolon : cut? ((encode name).length + 1) (name ++ ':' :: '"' :: r) =
        some (name ++ [':'], '"' :: r) := by
      have hcut := cut?_encode (name ++ [':']) ('"' :: r)
      rwa [encode_append, List.length_append, List.append_assoc] at hcut
    rw [← hcs, if_neg ((begins_iff name _).2 ⟨hname, r, rfl⟩)]
    simp only [cut?_encode, hcolon, quoted?_eq, Option.bind_eq_bind, Option.bind_some]
    cases body? r <;> rfl
  · rw [first?_of_not_begins hbegins]
    simp only [next?, takeWhile_encode]
    generalize (row.dropWhile isAsciiBlank).takeWhile isNameChar = name at hcs hbegins ⊢
    generalize (row.dropWhile isAsciiBlank).dropWhile isNameChar = tail at hcs hbegins ⊢
    rw [← hcs, if_pos (not_not.1 (mt (begins_iff name tail).1 hbegins))]

/-- The scanner gives the tags of a row in their order, and none after them. -/
theorem ask_eq (n : Nat) (row : List Char) :
    ask n row = some ((List.range n).map fun i => (scan row)[i]?) := by
  induction n generalizing row with
  | zero => rfl
  | succ n ih =>
    rw [ask, next?_eq, List.range_succ_eq_map, List.map_cons, List.map_map]
    cases hfirst : first? row with
    | none =>
      have hscan : scan row = [] := by rw [scan_eq, hfirst]
      have hrest : scan [] = [] := by rw [scan_eq]; rfl
      have hanswer : answer row = (none, []) := by rw [answer, hfirst]
      simp only [hanswer, hscan, Option.bind_eq_bind, Option.bind_some, ih, hrest]
      rfl
    | some found =>
      rcases found with ⟨t, rest⟩
      have hscan : scan row = t :: scan rest := by rw [scan_eq, hfirst]
      have hanswer : answer row = (some t, rest) := by rw [answer, hfirst]
      simp only [hanswer, hscan, Option.bind_eq_bind, Option.bind_some, ih]
      rfl

/-- A backslash before a character of two bytes, and a quote that is not closed. -/
example : ask 3 "é:\"\\é\"b:\"2".toList = some [some ⟨"é", "\"\\é\""⟩, none, none] := by
  decide +kernel

end Scanner

/-! ## Rows -/

/-- The tags of a row are exactly those of the pieces that it splits into.  It splits into pieces
and a rest in one way, where each piece begins with all the blanks there are; and a scanner of its
bytes, asked any number of times, never cuts within a character, and gives these tags in their
order and then none for ever. -/
theorem ofRow_eq_iff_splits (row : String) :
    (∀ ts, ofRow row = ts ↔
      ∃ ps rest, Splits row.toList ps rest ∧ ps.map Piece.tag = ts) ∧
    (∃! d : List Piece × List Char, Splits row.toList d.1 d.2) ∧
    (∀ (p : Piece) (more : List Char), (p.chars ++ more).takeWhile isAsciiBlank = p.blanks) ∧
    ∀ n, Scanner.ask n row.toList = some ((List.range n).map fun i => (ofRow row)[i]?) := by
  rcases exists_splits row.toList with ⟨ps, rest, hsplits⟩
  have hscan : ofRow row = ps.map Piece.tag := scan_of_splits hsplits
  refine ⟨?_, ?_, fun p more => (p.span_blanks more).1, fun n => Scanner.ask_eq n row.toList⟩
  · intro ts
    constructor
    · rintro rfl
      exact ⟨ps, rest, hsplits, hscan.symm⟩
    · rintro ⟨qs, rest', hsplits', rfl⟩
      exact scan_of_splits hsplits'
  · refine ⟨(ps, rest), hsplits, ?_⟩
    rintro ⟨qs, rest'⟩ hsplits'
    rcases hsplits'.unique hsplits with ⟨hps, hrest⟩
    exact Prod.ext hps hrest

end FieldNotes.Tag
