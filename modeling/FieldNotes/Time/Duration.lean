import FieldNotes.Number.Integer

/-! # Durations

A duration is a number of seconds below 2^64 and of nanoseconds.  Its text is either a numeral that
ends in a digit, which counts milliseconds, or a row of amounts `number unit` that are summed.  The
number of an amount has a whole part, a fraction or both; of the fraction eighteen digits count,
and what it comes to is rounded down to a nanosecond.

* `Duration.amounts?` reads the amounts, `Duration.total?` sums them in words of 128 bits.
* `Duration.nanos_parse_lt`: what is read has less than a second in its nanoseconds.
-/

namespace FieldNotes

/-- A length of time. -/
structure Duration where
  seconds : Nat
  nanos : Nat
  deriving DecidableEq, Repr

namespace Duration

/-- The number of nanoseconds in a second. -/
def second : Nat := 1000000000

def zero : Duration := ⟨0, 0⟩

/-- A number of nanoseconds as a duration. -/
def ofNanos (n : Nat) : Duration := ⟨n / second, n % second⟩

/-- The units in which amounts are written. -/
inductive Scale
  | ns | us | ms | s | m | h
  deriving DecidableEq, Repr

/-- The length of a unit in nanoseconds. -/
def Scale.nanos : Scale → Nat
  | .ns => 1
  | .us => 1000
  | .ms => 1000000
  | .s => second
  | .m => 60 * second
  | .h => 3600 * second

/-- The unit of a name; the micro sign and the Greek letter mu both stand for micro. -/
def Scale.ofName? (name : List Char) : Option Scale :=
  match name with
  | ['n', 's'] => some .ns
  | ['u', 's'] => some .us
  | ['\u00b5', 's'] => some .us
  | ['\u03bc', 's'] => some .us
  | ['m', 's'] => some .ms
  | ['s'] => some .s
  | ['m'] => some .m
  | ['h'] => some .h
  | _ => none

/-- One amount as written: the digits before and after its point, and its unit. -/
structure Amount where
  whole : List Char
  fraction : List Char
  scale : Scale
  deriving DecidableEq, Repr

/-- How many digits of a fraction count. -/
def fractionDigits : Nat := 18

/-- The nanoseconds that the whole part of an amount comes to. -/
def Amount.wholeNanos (a : Amount) : Nat :=
  digitsValue a.whole * a.scale.nanos

/-- The nanoseconds that the fraction of an amount comes to, rounded down. -/
def Amount.fractionNanos (a : Amount) : Nat :=
  let ds := a.fraction.take fractionDigits
  digitsValue ds * a.scale.nanos / 10 ^ ds.length

/-- Whether a character ends the name of a unit. -/
def endsUnit (c : Char) : Bool :=
  c == '.' || c.isDigit

/-- The digits before and after the point that a text begins with, and the rest of the text. -/
def splitNumber (cs : List Char) : List Char × List Char × List Char :=
  match (splitDigits cs).2 with
  | '.' :: tail => ((splitDigits cs).1, splitDigits tail)
  | tail => ((splitDigits cs).1, [], tail)

theorem length_splitNumber_le (cs : List Char) : (splitNumber cs).2.2.length ≤ cs.length := by
  have h1 := length_splitDigits_le cs
  unfold splitNumber
  split
  · rename_i tail htail
    have h2 := length_splitDigits_le tail
    simp only [htail, List.length_cons] at h1
    simp only
    omega
  · exact h1

/-- The amount that a text begins with, and the rest of the text. -/
def amount? (cs : List Char) : Option (Amount × List Char) :=
  match splitNumber cs with
  | (whole, fraction, tail) =>
    if whole.isEmpty && fraction.isEmpty then none
    else (Scale.ofName? (tail.takeWhile fun c => !endsUnit c)).map fun scale =>
      (⟨whole, fraction, scale⟩, tail.dropWhile fun c => !endsUnit c)

theorem ofName?_nil : Scale.ofName? [] = none := rfl

theorem length_rest_of_amount? {cs rest : List Char} {a : Amount}
    (h : amount? cs = some (a, rest)) : rest.length < cs.length := by
  have hle := length_splitNumber_le cs
  unfold amount? at h
  split at h
  rename_i whole fraction tail hsplit
  rw [hsplit] at hle
  split at h
  · simp at h
  · obtain ⟨scale, hscale, heq⟩ := Option.map_eq_some_iff.1 h
    simp only [Prod.mk.injEq] at heq
    obtain ⟨-, rfl⟩ := heq
    cases tail with
    | nil => simp [ofName?_nil] at hscale
    | cons c tail =>
      by_cases hc : endsUnit c
      · simp [hc, ofName?_nil] at hscale
      · have h3 := (List.dropWhile_sublist (fun c => !endsUnit c) (l := tail)).length_le
        simp [hc] at hle ⊢
        omega

/-- The amounts of a text that holds nothing else. -/
def amounts? (cs : List Char) : Option (List Amount) :=
  if cs.isEmpty then some []
  else
    match _h : amount? cs with
    | none => none
    | some (a, rest) => (amounts? rest).map (a :: ·)
  termination_by cs.length
  decreasing_by exact length_rest_of_amount? (by assumption)

/-- The number, unless it needs more than 128 bits. -/
def fit? (n : Nat) : Option Nat :=
  if n ≤ IntType.u128.max then some n else none

/-- Adds amounts to a number of nanoseconds; every whole part, product and partial sum has to fit
into 128 bits. -/
def total? (nanos : Nat) : List Amount → Option Nat
  | [] => some nanos
  | a :: rest => do
    let _ ← fit? (digitsValue a.whole)
    let whole ← fit? a.wholeNanos
    let nanos ← fit? (nanos + whole)
    let nanos ← fit? (nanos + a.fractionNanos)
    total? nanos rest

/-- A text without the plus sign it may begin with. -/
def dropPlus : List Char → List Char
  | '+' :: cs => cs
  | cs => cs

/-- Whether a text ends in a digit. -/
def endsInDigit (cs : List Char) : Bool :=
  match cs.getLast? with
  | some c => c.isDigit
  | none => false

/-- Reads a duration. -/
def parse? (s : String) : Option Duration :=
  let cs := s.toList
  if cs.isEmpty then some zero
  else if endsInDigit cs then
    match IntType.u64.read s with
    | .ok n => some (ofNanos (n.toNat * 1000000))
    | .error _ => none
  else if (dropPlus cs).isEmpty then none
  else do
    let amounts ← amounts? (dropPlus cs)
    let nanos ← total? 0 amounts
    if nanos / second ≤ IntType.u64.max then some (ofNanos nanos) else none

theorem nanos_ofNanos_lt (n : Nat) : (ofNanos n).nanos < second :=
  Nat.mod_lt _ (by decide)

theorem nanos_parse_lt {s : String} {d : Duration} (h : parse? s = some d) :
    d.nanos < second := by
  simp only [parse?] at h
  split at h
  · simp [zero] at h
    subst h
    decide
  · split at h
    · split at h
      · simp at h
        subst h
        exact nanos_ofNanos_lt _
      · simp at h
    · split at h
      · simp at h
      · simp only [Option.bind_eq_bind, Option.bind_eq_some_iff] at h
        obtain ⟨_, _, n, _, h⟩ := h
        split at h
        · simp at h
          subst h
          exact nanos_ofNanos_lt _
        · simp at h

end Duration

end FieldNotes
