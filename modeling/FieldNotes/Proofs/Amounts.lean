import FieldNotes.Handler.Fill
import FieldNotes.Proofs.Grammar
import FieldNotes.Proofs.Numerals

/-! # Written durations

A duration is written as a numeral of milliseconds, or as a row of components: numbers with units,
one behind the other.  Nothing else is a duration.

* `Duration.Component` is a number with its unit, as it is written; `Component.nanos` is what it
  counts for, and `Component.exact` what it would come to if no digit were cut off.
* `Duration.Says` is what a text says, told without reading it.
* `Duration.amounts?_eq_some_iff`: the amounts that are read are those of the components.
* `Duration.total?_eq_some_iff`: to sum them in words of 128 bits is to sum them.
* `Duration.parse?_exact`: a duration is read from the texts that say it, and from no others.
-/

namespace FieldNotes.Duration

/-! ## What is written -/

/-- The units as they are written, and the nanoseconds that each takes. -/
def units : List (List Char × ℕ) :=
  [(['n', 's'], 1), (['u', 's'], 1000), (['\u00b5', 's'], 1000), (['\u03bc', 's'], 1000),
   (['m', 's'], 1000000), (['s'], 1000000000), (['m'], 60000000000), (['h'], 3600000000000)]

/-- A point with the digits behind it, if there is one. -/
def pointed : Option (List Char) → List Char
  | none => []
  | some ds => '.' :: ds

/-- A number with a unit, as it is written.  There are digits before the point or behind it. -/
structure Component where
  whole : List Char
  fraction? : Option (List Char)
  unit : List Char
  /-- The nanoseconds that the unit takes. -/
  length : ℕ
  whole_digits : ∀ c ∈ whole, c.isDigit = true
  fraction_digits : ∀ c ∈ fraction?.getD [], c.isDigit = true
  some_digits : whole ≠ [] ∨ fraction?.getD [] ≠ []
  unit_known : (unit, length) ∈ units

namespace Component

variable (c : Component)

def chars : List Char :=
  c.whole ++ pointed c.fraction? ++ c.unit

/-- The digits behind the point. -/
def fraction : List Char :=
  c.fraction?.getD []

/-- Those of them that count. -/
def counted : List Char :=
  c.fraction.take 18

/-- The nanoseconds that a component counts for.  Those of the fraction are rounded down. -/
def nanos : ℕ :=
  decimal c.whole * c.length +
    ⌊(decimal c.counted : ℚ) / 10 ^ c.counted.length * c.length⌋₊

/-- The nanoseconds that a component comes to exactly. -/
def exact : ℚ :=
  (decimal c.whole + decimal c.fraction / 10 ^ c.fraction.length) * c.length

end Component

/-- The nanoseconds that the components of a row count for together. -/
def total (row : List Component) : ℕ :=
  (row.map Component.nanos).sum

/-- All numbers that come up while a row is summed fit into words of 128 bits. -/
structure InWords (row : List Component) : Prop where
  wholes : ∀ c ∈ row, decimal c.whole < 2 ^ 128
  products : ∀ c ∈ row,
    decimal c.whole * c.length < 2 ^ 128 ∧ decimal c.counted * c.length < 2 ^ 128
  sums : ∀ done c rest, row = done ++ c :: rest →
    total done + decimal c.whole * c.length < 2 ^ 128 ∧ total (done ++ [c]) < 2 ^ 128

/-- What a text says.  It depends on its last character whether the text is taken for a numeral of
milliseconds or for components. -/
def Says (cs : List Char) (d : Duration) : Prop :=
  match cs.getLast? with
  | none => d = ⟨0, 0⟩
  | some last =>
    if last.isDigit then
      ∃ n, Names cs n ∧ n < 2 ^ 64 ∧ d = ⟨n / 1000, n % 1000 * 1000000⟩
    else
      ∃ row : List Component, row ≠ [] ∧ AfterPlus cs (row.flatMap Component.chars) ∧
        InWords row ∧ total row < 2 ^ 64 * 1000000000 ∧
        d = ⟨total row / 1000000000, total row % 1000000000⟩

/-! ## Units -/

theorem endsUnit_of_isDigit {c : Char} (h : c.isDigit = true) : endsUnit c = true := by
  unfold endsUnit
  rw [h, Bool.or_true]

/-- Units are known by their names, none of which goes on with a digit or a point. -/
theorem exists_scale {unit : List Char} {length : ℕ} (h : (unit, length) ∈ units) :
    (∃ scale, Scale.ofName? unit = some scale ∧ scale.nanos = length) ∧
      (∀ c ∈ unit, endsUnit c = false) ∧ unit ≠ [] := by
  simp only [units, List.mem_cons, Prod.mk.injEq, List.not_mem_nil, or_false] at h
  rcases h with h | h | h | h | h | h | h | h
  all_goals
    obtain ⟨rfl, rfl⟩ := h
    refine ⟨⟨_, rfl, rfl⟩, ?_, List.cons_ne_nil _ _⟩
    simp only [List.forall_mem_cons, List.not_mem_nil, false_imp_iff, implies_true, and_true]
    decide

theorem mem_units_of_ofName? {unit : List Char} {scale : Scale}
    (h : Scale.ofName? unit = some scale) : (unit, scale.nanos) ∈ units := by
  unfold Scale.ofName? at h
  split at h
  all_goals cases h
  all_goals decide

/-- A unit takes at most an hour, and if it takes no more than a second it divides one. -/
theorem length_bounds {unit : List Char} {length : ℕ} (h : (unit, length) ∈ units) :
    0 < length ∧ length ≤ 3600000000000 ∧ (length ≤ 1000000000 → length ∣ 1000000000) := by
  simp only [units, List.mem_cons, Prod.mk.injEq, List.not_mem_nil, or_false] at h
  rcases h with h | h | h | h | h | h | h | h
  all_goals
    obtain ⟨rfl, rfl⟩ := h
    decide

/-! ## Numbers -/

theorem splitDigits_eq {ds tail : List Char} (hds : ∀ c ∈ ds, c.isDigit = true)
    (htail : ∀ c, tail.head? = some c → c.isDigit = false) :
    splitDigits (ds ++ tail) = (ds, tail) := by
  obtain ⟨htake, hdrop⟩ := Tag.takeWhile_append_of_head hds htail
  unfold splitDigits
  rw [htake, hdrop]

/-- A number is split off with the digits before and behind its point. -/
theorem splitNumber_append {ds : List Char} {fraction? : Option (List Char)} {tail : List Char}
    (hds : ∀ c ∈ ds, c.isDigit = true) (hfraction : ∀ c ∈ fraction?.getD [], c.isDigit = true)
    (htail : ∀ c, tail.head? = some c → endsUnit c = false) :
    splitNumber (ds ++ pointed fraction? ++ tail) = (ds, fraction?.getD [], tail) := by
  have hnodigit : ∀ c, tail.head? = some c → c.isDigit = false := by
    intro c hc
    have hunit := htail c hc
    unfold endsUnit at hunit
    exact (Bool.or_eq_false_iff.1 hunit).2
  cases fraction? with
  | none =>
    have hsplit : splitDigits (ds ++ pointed none ++ tail) = (ds, tail) := by
      rw [pointed, List.append_nil]
      exact splitDigits_eq hds hnodigit
    unfold splitNumber
    rw [hsplit]
    split
    · -- a unit does not begin with a point
      rename_i more hmore
      cases hmore
      cases htail '.' rfl
    · rfl
  | some es =>
    have hsplit : splitDigits (ds ++ pointed (some es) ++ tail) = (ds, '.' :: (es ++ tail)) := by
      rw [pointed, List.append_assoc]
      apply splitDigits_eq hds
      intro c hc
      cases hc
      rfl
    unfold splitNumber
    rw [hsplit]
    exact congrArg (Prod.mk ds) (splitDigits_eq hfraction hnodigit)

theorem digits_of_splitDigits (cs : List Char) : ∀ c ∈ (splitDigits cs).1, c.isDigit = true :=
  fun _ hc => List.mem_takeWhile_imp hc

/-- What is split off is a number, and it stands at the beginning. -/
theorem exists_number {cs whole fraction tail : List Char}
    (h : splitNumber cs = (whole, fraction, tail)) :
    ∃ fraction? : Option (List Char), cs = whole ++ pointed fraction? ++ tail ∧
      fraction?.getD [] = fraction ∧ (∀ c ∈ whole, c.isDigit = true) ∧
      ∀ c ∈ fraction, c.isDigit = true := by
  have hcs := splitDigits_append cs
  have hwhole := digits_of_splitDigits cs
  unfold splitNumber at h
  split at h
  · rename_i more hmore
    cases h
    refine ⟨some (splitDigits more).1, ?_, rfl, hwhole, digits_of_splitDigits more⟩
    have hpointed : pointed (some (splitDigits more).1) ++ (splitDigits more).2 = '.' :: more :=
      congrArg ('.' :: ·) (splitDigits_append more)
    rw [List.append_assoc]
    exact hcs.symm.trans (congrArg ((splitDigits cs).1 ++ ·) (hmore.trans hpointed.symm))
  · cases h
    refine ⟨none, ?_, rfl, hwhole, List.forall_mem_nil _⟩
    rw [pointed, List.append_nil, hcs]

/-! ## Components -/

namespace Component

/-- What a component is read as. -/
def amount (c : Component) : Amount :=
  ⟨c.whole, c.fraction, (Scale.ofName? c.unit).getD .ns⟩

theorem nanos_scale (c : Component) : c.amount.scale.nanos = c.length := by
  obtain ⟨⟨scale, hname, hnanos⟩, -, -⟩ := exists_scale c.unit_known
  unfold amount
  rw [hname]
  exact hnanos

/-- A component begins with a digit or with its point, so it ends the unit before it. -/
theorem endsUnit_head (c : Component) (rest : List Char) {x : Char}
    (hx : (c.chars ++ rest).head? = some x) : endsUnit x = true := by
  cases hwhole : c.whole with
  | cons d ds =>
    simp only [chars, hwhole, List.cons_append, List.head?_cons, Option.some.injEq] at hx
    subst hx
    apply endsUnit_of_isDigit
    apply c.whole_digits
    rw [hwhole]
    exact List.mem_cons_self
  | nil =>
    cases hfraction : c.fraction? with
    | none =>
      have hsome := c.some_digits
      rw [hwhole, hfraction] at hsome
      simp at hsome
    | some ds =>
      simp only [chars, hwhole, hfraction, pointed, List.nil_append, List.cons_append,
        List.head?_cons, Option.some.injEq] at hx
      subst hx
      rfl

/-- A component is read as its amount, if what follows ends its unit. -/
theorem amount?_append (c : Component) {rest : List Char}
    (hrest : ∀ x, rest.head? = some x → endsUnit x = true) :
    amount? (c.chars ++ rest) = some (c.amount, rest) := by
  obtain ⟨⟨scale, hname, -⟩, hunit, hne⟩ := exists_scale c.unit_known
  have hnumber : splitNumber (c.chars ++ rest) = (c.whole, c.fraction, c.unit ++ rest) := by
    rw [chars, List.append_assoc]
    apply splitNumber_append c.whole_digits c.fraction_digits
    intro x hx
    obtain ⟨u, us, hus⟩ := List.exists_cons_of_ne_nil hne
    rw [hus] at hx hunit
    obtain rfl : u = x := Option.some.inj hx
    exact hunit u List.mem_cons_self
  have hunit' : ∀ x ∈ c.unit, (!endsUnit x) = true := by
    intro x hx
    rw [hunit x hx]
    rfl
  have hrest' : ∀ x, rest.head? = some x → (!endsUnit x) = false := by
    intro x hx
    rw [hrest x hx]
    rfl
  have hspan := Tag.takeWhile_append_of_head hunit' hrest'
  have hdigits : (c.whole.isEmpty && c.fraction.isEmpty) = false := by
    rw [Bool.and_eq_false_iff, List.isEmpty_eq_false_iff, List.isEmpty_eq_false_iff]
    exact c.some_digits
  unfold amount?
  rw [hnumber]
  simp only [hdigits, Bool.false_eq_true, if_false, hspan.1, hspan.2, hname, Option.map_some,
    amount, Option.getD_some]

end Component

/-- What is read as an amount is a component. -/
theorem exists_component {cs rest : List Char} {a : Amount} (h : amount? cs = some (a, rest)) :
    ∃ c : Component, cs = c.chars ++ rest ∧ c.amount = a := by
  unfold amount? at h
  split at h
  rename_i whole fraction tail hsplit
  obtain ⟨fraction?, hcs, rfl, hwhole, hfraction⟩ := exists_number hsplit
  split at h
  · cases h
  · rename_i hdigits
    obtain ⟨scale, hname, heq⟩ := Option.map_eq_some_iff.1 h
    cases heq
    rw [Bool.not_eq_true, Bool.and_eq_false_iff, List.isEmpty_eq_false_iff,
      List.isEmpty_eq_false_iff] at hdigits
    refine ⟨⟨whole, fraction?, _, scale.nanos, hwhole, hfraction, hdigits,
      mem_units_of_ofName? hname⟩, ?_, ?_⟩
    · rw [hcs]
      unfold Component.chars
      rw [List.append_assoc, List.append_assoc, List.append_assoc,
        List.takeWhile_append_dropWhile]
    · unfold Component.amount
      rw [hname]
      rfl

theorem amounts?_of_amount? {cs rest : List Char} {a : Amount} (h : amount? cs = some (a, rest)) :
    amounts? cs = (amounts? rest).map (a :: ·) := by
  have hlt := length_rest_of_amount? h
  have hne : ¬ cs.isEmpty = true := by
    cases cs with
    | nil => cases hlt
    | cons c cs => exact Bool.false_ne_true
  rw [amounts?, if_neg hne]
  split
  · rename_i hnone
    rw [h] at hnone
    cases hnone
  · rename_i a' rest' hread
    rw [h] at hread
    cases hread
    rfl

/-- The amounts that are read from a text are those of the components that it is made of. -/
theorem amounts?_eq_some_iff {cs : List Char} {as : List Amount} :
    amounts? cs = some as ↔
      ∃ row : List Component, cs = row.flatMap Component.chars ∧ row.map Component.amount = as := by
  constructor
  · intro h
    induction cs using amounts?.induct generalizing as with
    | case1 cs hempty =>
      rw [amounts?, if_pos hempty] at h
      cases h
      exact ⟨[], List.isEmpty_iff.1 hempty, rfl⟩
    | case2 cs hempty hnone =>
      rw [amounts?, if_neg hempty] at h
      split at h
      · cases h
      · simp_all
    | case3 cs hempty a rest hread ih =>
      rw [amounts?_of_amount? hread] at h
      obtain ⟨as, has, rfl⟩ := Option.map_eq_some_iff.1 h
      obtain ⟨c, rfl, rfl⟩ := exists_component hread
      obtain ⟨row, rfl, rfl⟩ := ih has
      exact ⟨c :: row, rfl, rfl⟩
  · rintro ⟨row, rfl, rfl⟩
    induction row with
    | nil =>
      rw [List.flatMap_nil, amounts?]
      rfl
    | cons c row ih =>
      -- the unit of the first component is ended by the second one
      have hread : amount? (c.chars ++ row.flatMap Component.chars) =
          some (c.amount, row.flatMap Component.chars) := by
        apply c.amount?_append
        intro x hx
        cases row with
        | nil => cases hx
        | cons c' row => exact c'.endsUnit_head _ hx
      rw [List.flatMap_cons, amounts?_of_amount? hread, ih]
      rfl

/-! ## Sums -/

/-- The digits of a fraction that count are too few for an overflow. -/
theorem Component.part_lt (c : Component) : decimal c.counted * c.length < 2 ^ 128 := by
  have hdigits : ∀ x ∈ c.counted, x.isDigit = true :=
    fun x hx => c.fraction_digits x (List.mem_of_mem_take hx)
  have hlength : c.counted.length ≤ 18 := List.length_take_le _ _
  have hlt : decimal c.counted < 10 ^ 18 :=
    (decimal_lt hdigits).trans_le (Nat.pow_le_pow_right (by decide) hlength)
  have hunit := (length_bounds c.unit_known).2.1
  calc decimal c.counted * c.length
      ≤ 10 ^ 18 * 3600000000000 := Nat.mul_le_mul hlt.le hunit
    _ < 2 ^ 128 := by decide

/-- Rounded down, a component counts for its whole part and for what is left of its fraction. -/
theorem Component.nanos_eq (c : Component) :
    c.nanos = c.amount.wholeNanos + c.amount.fractionNanos := by
  unfold nanos Amount.wholeNanos Amount.fractionNanos
  simp only [floor_fraction, nanos_scale, digitsValue_eq_decimal]
  rfl

@[simp] theorem total_nil : total [] = 0 :=
  rfl

@[simp] theorem total_cons (c : Component) (row : List Component) :
    total (c :: row) = c.nanos + total row :=
  List.sum_cons

theorem total_append (row row' : List Component) :
    total (row ++ row') = total row + total row' := by
  unfold total
  rw [List.map_append, List.sum_append]

/-- What comes up while a row is summed is no more than the sum. -/
theorem inWords_iff {row : List Component} : InWords row ↔ total row < 2 ^ 128 := by
  constructor
  · intro h
    -- the sum up to the last component is the whole sum
    rcases List.eq_nil_or_concat row with rfl | ⟨done, c, rfl⟩
    · decide
    · rw [List.concat_eq_append] at h ⊢
      exact (h.sums done c [] rfl).2
  · intro h
    have hsums : ∀ done c rest, row = done ++ c :: rest →
        total done + decimal c.whole * c.length < 2 ^ 128 ∧ total (done ++ [c]) < 2 ^ 128 := by
      rintro done c rest rfl
      have hwhole : decimal c.whole * c.length ≤ c.nanos := Nat.le_add_right _ _
      rw [total_append, total_cons] at h
      rw [total_append, total_cons, total_nil]
      omega
    have hproducts : ∀ c ∈ row, decimal c.whole * c.length < 2 ^ 128 := by
      intro c hc
      obtain ⟨done, rest, hrow⟩ := List.append_of_mem hc
      have hsum := (hsums done c rest hrow).1
      omega
    constructor
    · intro c hc
      have hpos := (length_bounds c.unit_known).1
      exact (Nat.le_mul_of_pos_right _ hpos).trans_lt (hproducts c hc)
    · intro c hc
      exact ⟨hproducts c hc, c.part_lt⟩
    · exact hsums

theorem fit?_eq_some_iff {n m : ℕ} : fit? n = some m ↔ n < 2 ^ 128 ∧ n = m := by
  have hmax : IntType.u128.max = 2 ^ 128 - 1 := rfl
  unfold fit?
  rw [Option.ite_none_right_eq_some, Option.some.injEq, hmax]
  apply and_congr_left'
  omega

/-- The amounts of a row are summed to the end if the sum fits into 128 bits. -/
theorem total?_eq_some_iff {row : List Component} {n m : ℕ} (hn : n < 2 ^ 128) :
    total? n (row.map Component.amount) = some m ↔ n + total row < 2 ^ 128 ∧ n + total row = m := by
  induction row generalizing n with
  | nil =>
    rw [List.map_nil, total?, total_nil, Nat.add_zero, Option.some.injEq]
    exact (and_iff_right hn).symm
  | cons c row ih =>
    have hpos := (length_bounds c.unit_known).1
    have hwhole := Nat.le_mul_of_pos_right (digitsValue c.amount.whole) hpos
    have hnanos : c.nanos = c.amount.wholeNanos + c.amount.fractionNanos := c.nanos_eq
    have hproduct : c.amount.wholeNanos = digitsValue c.amount.whole * c.length := by
      unfold Amount.wholeNanos
      rw [c.nanos_scale]
    simp only [List.map_cons, total?, Option.bind_eq_bind, Option.bind_eq_some_iff,
      fit?_eq_some_iff, total_cons]
    constructor
    · rintro ⟨_, ⟨-, rfl⟩, _, ⟨-, rfl⟩, _, ⟨-, rfl⟩, _, ⟨hle, rfl⟩, h⟩
      rw [ih hle] at h
      omega
    · intro h
      -- the numbers on the way are all smaller than the sum
      refine ⟨_, ⟨?_, rfl⟩, _, ⟨?_, rfl⟩, _, ⟨?_, rfl⟩, _, ⟨?_, rfl⟩, (ih ?_).2 ?_⟩
      all_goals omega

/-! ## Reading durations -/

theorem afterPlus_iff {cs body : List Char} (hbody : ∀ c, body.head? = some c → c ≠ '+') :
    AfterPlus cs body ↔ dropPlus cs = body := by
  unfold AfterPlus dropPlus
  split
  · rename_i more
    constructor
    · rintro (rfl | h)
      · exact absurd rfl (hbody '+' rfl)
      · exact List.tail_eq_of_cons_eq h
    · rintro rfl
      exact Or.inr rfl
  · rename_i hplus
    constructor
    · rintro (rfl | rfl)
      · rfl
      · exact absurd rfl (hplus body)
    · rintro rfl
      exact Or.inl rfl

theorem Component.chars_ne_nil (c : Component) : c.chars ≠ [] := by
  have hunit := (exists_scale c.unit_known).2.2
  unfold chars
  exact List.append_ne_nil_of_right_ne_nil _ hunit

theorem head_flatMap_chars {row : List Component} {x : Char}
    (hx : (row.flatMap Component.chars).head? = some x) : x ≠ '+' := by
  cases row with
  | nil => cases hx
  | cons c row =>
    have hends := c.endsUnit_head _ hx
    rintro rfl
    cases hends

theorem flatMap_chars_eq_nil_iff {row : List Component} :
    row.flatMap Component.chars = [] ↔ row = [] := by
  cases row with
  | nil => exact iff_of_true rfl rfl
  | cons c row =>
    refine iff_of_false ?_ (List.cons_ne_nil _ _)
    rw [List.flatMap_cons]
    exact List.append_ne_nil_of_left_ne_nil c.chars_ne_nil _

/-- Milliseconds are read from a text that names their number. -/
theorem millis_eq_some_iff {s : String} {d : Duration} :
    (match IntType.u64.read s with
      | .ok n => some (ofNanos (n.toNat * 1000000))
      | .error _ => none) = some d ↔
      ∃ n, Names s.toList n ∧ n < 2 ^ 64 ∧ d = ⟨n / 1000, n % 1000 * 1000000⟩ := by
  have hmax : IntType.u64.max = 2 ^ 64 - 1 := rfl
  have hofNanos (n : ℕ) : ofNanos (n * 1000000) = ⟨n / 1000, n % 1000 * 1000000⟩ := by
    simp only [ofNanos, second, Duration.mk.injEq]
    omega
  have hread (n : Int) := IntType.read_eq_ok_iff (t := .u64) rfl (s := s) (n := n)
  constructor
  · intro h
    cases hn : IntType.u64.read s with
    | error e =>
      rw [hn] at h
      cases h
    | ok n =>
      obtain ⟨m, hnames, hle, rfl⟩ := (hread n).1 hn
      rw [hn] at h
      rw [← Option.some.inj h]
      exact ⟨m, hnames, by omega, hofNanos m⟩
  · rintro ⟨n, hnames, hlt, rfl⟩
    rw [(hread n).2 ⟨n, hnames, by omega, rfl⟩]
    exact congrArg some (hofNanos n)

/-- Amounts are read from the components that a text is made of behind its plus sign. -/
theorem row_eq_some_iff {cs : List Char} {d : Duration} :
    (if (dropPlus cs).isEmpty then none
      else do
        let amounts ← amounts? (dropPlus cs)
        let nanos ← total? 0 amounts
        if nanos / second ≤ IntType.u64.max then some (ofNanos nanos) else none) = some d ↔
      ∃ row : List Component, row ≠ [] ∧ AfterPlus cs (row.flatMap Component.chars) ∧
        InWords row ∧ total row < 2 ^ 64 * 1000000000 ∧
        d = ⟨total row / 1000000000, total row % 1000000000⟩ := by
  have hmax : IntType.u64.max = 2 ^ 64 - 1 := rfl
  have hzero : (0 : ℕ) < 2 ^ 128 := by decide
  simp only [hmax, second, Option.ite_none_left_eq_some, Option.bind_eq_bind,
    Option.bind_eq_some_iff, Option.ite_none_right_eq_some, Option.some.injEq,
    amounts?_eq_some_iff]
  constructor
  · rintro ⟨hempty, _, ⟨row, hrow, rfl⟩, n, htotal, hle, rfl⟩
    obtain ⟨hlt, rfl⟩ := (total?_eq_some_iff hzero).1 htotal
    rw [Nat.zero_add] at hlt hle ⊢
    refine ⟨row, ?_, ?_, inWords_iff.2 hlt, by omega, rfl⟩
    · rintro rfl
      exact hempty (List.isEmpty_iff.2 hrow)
    · exact (afterPlus_iff fun _ hx => head_flatMap_chars hx).2 hrow
  · rintro ⟨row, hne, hrow, hwords, hlt, rfl⟩
    have hdrop := (afterPlus_iff fun _ hx => head_flatMap_chars hx).1 hrow
    refine ⟨?_, _, ⟨row, hdrop, rfl⟩, total row, ?_, by omega, rfl⟩
    · intro hempty
      rw [hdrop, List.isEmpty_iff, flatMap_chars_eq_nil_iff] at hempty
      exact hne hempty
    · rw [total?_eq_some_iff hzero, Nat.zero_add]
      exact ⟨inWords_iff.1 hwords, rfl⟩

theorem parse?_eq_some_iff {s : String} {d : Duration} : parse? s = some d ↔ Says s.toList d := by
  unfold parse? Says
  cases hlast : s.toList.getLast? with
  | none =>
    rw [List.getLast?_eq_none_iff.1 hlast]
    exact ⟨fun h => (Option.some.inj h).symm, fun h => congrArg some h.symm⟩
  | some last =>
    have hempty : ¬ s.toList.isEmpty = true := by
      intro h
      rw [List.isEmpty_iff.1 h] at hlast
      cases hlast
    have hends : endsInDigit s.toList = last.isDigit := by
      unfold endsInDigit
      rw [hlast]
    simp only [if_neg hempty, hends]
    split
    · exact millis_eq_some_iff
    · exact row_eq_some_iff

/-! ## What is cut off -/

namespace Component

variable (c : Component)

theorem floor_exact : ⌊c.exact⌋₊ =
    decimal c.whole * c.length + decimal c.fraction * c.length / 10 ^ c.fraction.length := by
  have hsplit : c.exact = (decimal c.fraction : ℚ) / 10 ^ c.fraction.length * c.length +
      ((decimal c.whole * c.length : ℕ) : ℚ) := by
    unfold exact
    push_cast
    ring
  have hnonneg : (0 : ℚ) ≤ (decimal c.fraction : ℚ) / 10 ^ c.fraction.length * c.length := by
    positivity
  rw [hsplit, Nat.floor_add_natCast hnonneg, floor_fraction, Nat.add_comm]

theorem fraction_eq : c.fraction = c.counted ++ c.fraction.drop 18 :=
  (List.take_append_drop 18 c.fraction).symm

theorem dropped_digits : ∀ x ∈ c.fraction.drop 18, x.isDigit = true :=
  fun x hx => c.fraction_digits x (List.mem_of_mem_drop hx)

/-- Digits that do not count change a component by less than a nanosecond, and for units up to a
second they make no difference once all is rounded down. -/
theorem nanos_exact : c.nanos ≤ ⌊c.exact⌋₊ ∧ ⌊c.exact⌋₊ ≤ c.nanos + 1 ∧
    (c.length ≤ 1000000000 ∨ c.fraction.length ≤ 18 → c.nanos = ⌊c.exact⌋₊) := by
  have hnanos : c.nanos =
      decimal c.whole * c.length + decimal c.counted * c.length / 10 ^ c.counted.length := by
    unfold nanos
    rw [floor_fraction]
  rw [hnanos, floor_exact]
  by_cases hshort : c.fraction.length ≤ 18
  · have hall : c.counted = c.fraction := List.take_of_length_le hshort
    rw [hall]
    exact ⟨Nat.le_refl _, Nat.le_succ _, fun _ => rfl⟩
  · have hcounted : c.counted.length = 18 := List.length_take_of_le (Nat.le_of_not_le hshort)
    obtain ⟨-, hhour, hdivides⟩ := length_bounds c.unit_known
    have hlow := cut_le_decimal c.counted (c.fraction.drop 18) c.length
    have hhigh := decimal_le_cut c.counted c.length c.dropped_digits (by
      rw [hcounted]
      exact hhour.trans (by decide))
    rw [← c.fraction_eq] at hlow hhigh
    refine ⟨by omega, by omega, ?_⟩
    rintro (hsecond | hle)
    · have hsame := decimal_eq_cut c.counted c.length c.dropped_digits (by
        rw [hcounted]
        exact (hdivides hsecond).trans (by decide))
      rw [← c.fraction_eq] at hsame
      rw [hsame]
    · exact absurd hle hshort

end Component

/-- A duration is read from the texts that say it, and every other text is refused with itself as
the reason.  A component counts for what it comes to, rounded down, but for less than a nanosecond
where digits of its fraction do not count, which makes no difference for units up to a second. -/
theorem parse?_exact (s : String) :
    (∀ d, parse? s = some d ↔ Says s.toList d) ∧
    (∀ w : Fill, w.datum s .duration = .error (.inl (.duration s)) ↔ ∀ d, ¬ Says s.toList d) ∧
    ∀ c : Component, c.nanos ≤ ⌊c.exact⌋₊ ∧ ⌊c.exact⌋₊ ≤ c.nanos + 1 ∧
      (c.length ≤ 1000000000 ∨ c.fraction.length ≤ 18 → c.nanos = ⌊c.exact⌋₊) := by
  have hread (d : Duration) : parse? s = some d ↔ Says s.toList d := parse?_eq_some_iff
  refine ⟨hread, ?_, fun c => c.nanos_exact⟩
  intro w
  simp only [Fill.datum]
  cases hparse : parse? s with
  | none =>
    refine iff_of_true rfl ?_
    intro d hd
    rw [(hread d).2 hd] at hparse
    cases hparse
  | some d =>
    refine iff_of_false nofun ?_
    intro h
    exact h d ((hread d).1 hparse)

end FieldNotes.Duration
