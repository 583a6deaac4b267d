/-! # Blank characters

Two classes of blanks are in use.  Tags of an annotation stand apart by ASCII blanks; the text of
a tag is trimmed of every character with the Unicode property White_Space.

* `isAsciiBlank_isBlank`: each ASCII blank is a blank.
* `trimChars_eq_self_of_ends`: trimming leaves a text alone whose two ends are no blanks.
-/

namespace FieldNotes.Text

/-- The blanks that stand between tags: space, tab, line feed, form feed, carriage return. -/
def isAsciiBlank (c : Char) : Bool :=
  c == ' ' || c == '\t' || c == '\n' || c == '\x0c' || c == '\r'

/-- The code points of the property White_Space, as closed ranges. -/
def blankRanges : List (Nat × Nat) :=
  [(0x0009, 0x000D), (0x0020, 0x0020), (0x0085, 0x0085), (0x00A0, 0x00A0), (0x1680, 0x1680),
   (0x2000, 0x200A), (0x2028, 0x2029), (0x202F, 0x202F), (0x205F, 0x205F), (0x3000, 0x3000)]

/-- Whether a character has the property White_Space. -/
def isBlank (c : Char) : Bool :=
  blankRanges.any fun r => r.1 ≤ c.toNat && c.toNat ≤ r.2

theorem isAsciiBlank_isBlank {c : Char} (h : isAsciiBlank c = true) : isBlank c = true := by
  simp only [isAsciiBlank, Bool.or_eq_true, beq_iff_eq] at h
  rcases h with (((rfl | rfl) | rfl) | rfl) | rfl <;> decide

/-- A list of characters without the blanks at its two ends. -/
def trimChars (cs : List Char) : List Char :=
  ((cs.dropWhile isBlank).reverse.dropWhile isBlank).reverse

/-- A text without the blanks at its two ends. -/
def trim (s : String) : String :=
  String.ofList (trimChars s.toList)

theorem dropWhile_eq_self_of_head {p : Char → Bool} {cs : List Char}
    (h : ∀ c, cs.head? = some c → p c = false) : cs.dropWhile p = cs := by
  cases cs with
  | nil => rfl
  | cons c cs => simp [h c rfl]

theorem trimChars_eq_self_of_ends {cs : List Char}
    (hfirst : ∀ c, cs.head? = some c → isBlank c = false)
    (hlast : ∀ c, cs.getLast? = some c → isBlank c = false) : trimChars cs = cs := by
  have hrev : ∀ c, cs.reverse.head? = some c → isBlank c = false := by
    intro c hc
    exact hlast c (by simpa using hc)
  simp [trimChars, dropWhile_eq_self_of_head hfirst, dropWhile_eq_self_of_head hrev]

end FieldNotes.Text
