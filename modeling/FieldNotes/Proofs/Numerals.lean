import FieldNotes.Number.Integer
import Mathlib.Data.Nat.Digits.Lemmas
import Mathlib.Algebra.Order.Floor.Semifield
import Mathlib.Data.Rat.Floor
import Mathlib.Tactic.Ring

/-! # Numerals

A numeral is a row of digits.  It names a number digit by digit, each counting ten times as much as
the one behind it.

* `decimal` is the number that a numeral names, and `digitsValue_eq_decimal` says that it is the one
  that is read from it.
* `IntType.read_eq_ok_iff`: an unsigned type reads the texts that name its numbers.
* `decimal_le_cut`, `decimal_eq_cut`: what it makes for a fraction to be cut off behind some digits.
-/

namespace FieldNotes

/-- The number that a numeral names. -/
def decimal (ds : List Char) : ℕ :=
  Nat.ofDigits 10 (ds.reverse.map fun c => c.toNat - '0'.toNat)

/-- A text is a body, with or without a plus sign in front of it. -/
def AfterPlus (cs body : List Char) : Prop :=
  cs = body ∨ cs = '+' :: body

/-- A text names a number: it is a numeral, with or without a plus sign. -/
def Names (cs : List Char) (n : ℕ) : Prop :=
  ∃ ds, AfterPlus cs ds ∧ ds ≠ [] ∧ (∀ c ∈ ds, c.isDigit = true) ∧ decimal ds = n

/-! ## The number that a numeral names -/

@[simp] theorem decimal_nil : decimal [] = 0 :=
  rfl

theorem decimal_append (ds es : List Char) :
    decimal (ds ++ es) = decimal ds * 10 ^ es.length + decimal es := by
  unfold decimal
  rw [List.reverse_append, List.map_append, Nat.ofDigits_append, List.length_map,
    List.length_reverse]
  ring

theorem decimal_singleton (d : Char) : decimal [d] = d.toNat - '0'.toNat := by
  simp [decimal]

/-- A digit is less than ten. -/
theorem digit_lt {c : Char} (hc : c.isDigit = true) : c.toNat - '0'.toNat < 10 := by
  unfold Char.isDigit at hc
  simp only [Bool.and_eq_true, decide_eq_true_eq, UInt32.le_iff_toNat_le] at hc
  have hle : c.toNat ≤ 57 := hc.2
  have hzero : '0'.toNat = 48 := rfl
  omega

theorem decimal_lt {ds : List Char} (hds : ∀ c ∈ ds, c.isDigit = true) :
    decimal ds < 10 ^ ds.length := by
  have hlt := Nat.ofDigits_lt_base_pow_length (b := 10)
    (l := ds.reverse.map fun c => c.toNat - '0'.toNat) (by decide) (by
      intro x hx
      simp only [List.mem_map, List.mem_reverse] at hx
      obtain ⟨c, hc, rfl⟩ := hx
      exact digit_lt (hds c hc))
  rwa [List.length_map, List.length_reverse] at hlt

/-- Digits that are put behind a number one by one. -/
theorem foldl_digits (ds : List Char) (n : ℕ) :
    ds.foldl (fun n d => n * 10 + (d.toNat - '0'.toNat)) n = n * 10 ^ ds.length + decimal ds := by
  induction ds generalizing n with
  | nil => simp
  | cons d ds ih =>
    have hcons : decimal (d :: ds) = (d.toNat - '0'.toNat) * 10 ^ ds.length + decimal ds := by
      rw [← decimal_singleton]
      exact decimal_append [d] ds
    rw [List.foldl_cons, ih, hcons, List.length_cons]
    ring

theorem digitsValue_eq_decimal (ds : List Char) : digitsValue ds = decimal ds := by
  unfold digitsValue
  rw [foldl_digits, Nat.zero_mul, Nat.zero_add]

/-! ## Reading numerals -/

namespace IntType

/-- Digits are put behind a magnitude as long as it stays within its limit.  It never falls, so it
is enough that it does so in the end. -/
theorem readMagnitude_eq_ok_iff {limit acc n : ℕ} {overflow : NumberError} {cs : List Char}
    (hacc : acc ≤ limit) :
    readMagnitude limit overflow acc cs = .ok n ↔
      (∀ c ∈ cs, c.isDigit = true) ∧ n = acc * 10 ^ cs.length + decimal cs ∧ n ≤ limit := by
  induction cs generalizing acc with
  | nil =>
    simp only [readMagnitude, Except.ok.injEq, List.length_nil, decimal_nil]
    constructor
    · rintro rfl
      simp [hacc]
    · rintro ⟨-, rfl, -⟩
      simp
  | cons c cs ih =>
    unfold readMagnitude digit?
    by_cases hc : c.isDigit = true
    · have hvalue : acc * 10 ^ (c :: cs).length + decimal (c :: cs) =
          (acc * 10 + (c.toNat - '0'.toNat)) * 10 ^ cs.length + decimal cs := by
        rw [← foldl_digits, List.foldl_cons, foldl_digits]
      simp only [hc, if_true, List.forall_mem_cons, true_and, hvalue]
      split
      · rename_i hle
        exact ih hle
      · -- the limit is exceeded, and it will be so in the end
        rename_i hgt
        constructor
        · intro h
          cases h
        · rintro ⟨-, rfl, hle⟩
          have hpos : 0 < 10 ^ cs.length := Nat.pow_pos (by decide)
          have hgrow := Nat.le_mul_of_pos_right (acc * 10 + (c.toNat - '0'.toNat)) hpos
          omega
    · simp [hc]

theorem read_of_digits {t : IntType} {s : String} {ds : List Char} (hs : AfterPlus s.toList ds)
    (hne : ds ≠ []) (hds : ∀ c ∈ ds, c.isDigit = true) :
    t.read s = (readMagnitude t.max .tooLarge 0 ds).map Int.ofNat := by
  obtain ⟨c, cs, rfl⟩ := List.exists_cons_of_ne_nil hne
  have hc := hds c List.mem_cons_self
  unfold read
  rcases hs with hs | hs
  · -- the first character is no sign, since it is a digit
    rw [hs]
    split
    all_goals simp_all
  · rw [hs]
    rfl

theorem names_of_readMagnitude {limit : ℕ} {overflow : NumberError} {cs ds : List Char} {n : Int}
    (hcs : AfterPlus cs ds) (hne : ds ≠ [])
    (h : (readMagnitude limit overflow 0 ds).map Int.ofNat = .ok n) :
    ∃ m : ℕ, Names cs m ∧ m ≤ limit ∧ n = m := by
  cases hm : readMagnitude limit overflow 0 ds with
  | error e =>
    rw [hm] at h
    cases h
  | ok m =>
    rw [hm] at h
    cases h
    obtain ⟨hds, hvalue, hle⟩ := (readMagnitude_eq_ok_iff (Nat.zero_le _)).1 hm
    rw [Nat.zero_mul, Nat.zero_add] at hvalue
    exact ⟨m, ⟨ds, hcs, hne, hds, hvalue.symm⟩, hle, rfl⟩

/-- An unsigned type reads the texts that name its numbers. -/
theorem read_eq_ok_iff {t : IntType} (ht : t.isSigned = false) {s : String} {n : Int} :
    t.read s = .ok n ↔ ∃ m : ℕ, Names s.toList m ∧ m ≤ t.max ∧ n = m := by
  constructor
  · intro h
    unfold read at h
    split at h
    · cases h
    · cases h
    · cases h
    · rename_i hne hs
      exact names_of_readMagnitude (Or.inr hs) hne h
    · -- a minus sign is no sign here
      rw [ht] at h
      cases h
    · rename_i hne _ _ _ _
      exact names_of_readMagnitude (Or.inl rfl) hne h
  · rintro ⟨m, ⟨ds, hs, hne, hds, rfl⟩, hle, rfl⟩
    have hm : readMagnitude t.max .tooLarge 0 ds = .ok (decimal ds) := by
      apply (readMagnitude_eq_ok_iff (Nat.zero_le _)).2
      exact ⟨hds, by rw [Nat.zero_mul, Nat.zero_add], hle⟩
    rw [read_of_digits hs hne hds, hm]
    rfl

end IntType

/-! ## Fractions that are cut off -/

section Cutting

variable (ds es : List Char) (scale : ℕ)

/-- A part of a whole that is written by digits, rounded down. -/
theorem floor_fraction :
    ⌊(decimal ds : ℚ) / 10 ^ ds.length * scale⌋₊ = decimal ds * scale / 10 ^ ds.length := by
  rw [div_mul_eq_mul_div]
  exact_mod_cast Nat.floor_div_eq_div (K := ℚ) (decimal ds * scale) (10 ^ ds.length)

theorem cut_le_decimal : decimal ds * scale / 10 ^ ds.length ≤
    decimal (ds ++ es) * scale / 10 ^ (ds ++ es).length := by
  have hpos : 0 < 10 ^ es.length := Nat.pow_pos (by decide)
  rw [decimal_append, List.length_append, Nat.pow_add,
    ← Nat.mul_div_mul_right (decimal ds * scale) (10 ^ ds.length) hpos]
  apply Nat.div_le_div_right
  calc decimal ds * scale * 10 ^ es.length
      = decimal ds * 10 ^ es.length * scale := by ring
    _ ≤ (decimal ds * 10 ^ es.length + decimal es) * scale :=
        Nat.mul_le_mul_right _ (Nat.le_add_right _ _)

variable {es} (hes : ∀ c ∈ es, c.isDigit = true)

include hes

/-- What is cut off of a part comes to no more than one, if no unit is as large as the digits that
are left can tell. -/
theorem decimal_le_cut (hscale : scale ≤ 10 ^ ds.length) :
    decimal (ds ++ es) * scale / 10 ^ (ds ++ es).length ≤
      decimal ds * scale / 10 ^ ds.length + 1 := by
  have hpos : 0 < 10 ^ es.length := Nat.pow_pos (by decide)
  have hpos' : 0 < 10 ^ ds.length := Nat.pow_pos (by decide)
  have hlt : decimal es < 10 ^ es.length := decimal_lt hes
  rw [decimal_append, List.length_append, Nat.pow_add]
  calc (decimal ds * 10 ^ es.length + decimal es) * scale / (10 ^ ds.length * 10 ^ es.length)
      ≤ (decimal ds * 10 ^ es.length + 10 ^ es.length) * scale /
          (10 ^ ds.length * 10 ^ es.length) := by
        apply Nat.div_le_div_right
        apply Nat.mul_le_mul_right
        omega
    _ = (decimal ds * scale + scale) * 10 ^ es.length / (10 ^ ds.length * 10 ^ es.length) := by
        congr 1
        ring
    _ = (decimal ds * scale + scale) / 10 ^ ds.length := Nat.mul_div_mul_right _ _ hpos
    _ ≤ (decimal ds * scale + 10 ^ ds.length) / 10 ^ ds.length := by
        apply Nat.div_le_div_right
        omega
    _ = decimal ds * scale / 10 ^ ds.length + 1 := Nat.add_div_right _ hpos'

/-- Nothing is lost if the digits that are left tell the part exactly. -/
theorem decimal_eq_cut (hscale : scale ∣ 10 ^ ds.length) :
    decimal (ds ++ es) * scale / 10 ^ (ds ++ es).length = decimal ds * scale / 10 ^ ds.length := by
  have hpos : 0 < 10 ^ ds.length := Nat.pow_pos (by decide)
  have hlt : decimal es < 10 ^ es.length := decimal_lt hes
  obtain ⟨k, hk⟩ := hscale
  have hs : 0 < scale := Nat.pos_of_dvd_of_pos ⟨k, hk⟩ hpos
  rw [decimal_append, List.length_append, Nat.pow_add, hk]
  calc (decimal ds * 10 ^ es.length + decimal es) * scale / (scale * k * 10 ^ es.length)
      = scale * (decimal ds * 10 ^ es.length + decimal es) / (scale * (10 ^ es.length * k)) := by
        congr 1 <;> ring
    _ = (decimal ds * 10 ^ es.length + decimal es) / (10 ^ es.length * k) :=
        Nat.mul_div_mul_left _ _ hs
    _ = (decimal ds * 10 ^ es.length + decimal es) / 10 ^ es.length / k :=
        (Nat.div_div_eq_div_mul _ _ _).symm
    _ = decimal ds / k := by
        rw [Nat.mul_comm, Nat.mul_add_div (by omega), Nat.div_eq_of_lt hlt, Nat.add_zero]
    _ = decimal ds * scale / (scale * k) := by
        rw [Nat.mul_comm, Nat.mul_div_mul_left _ _ hs]

end Cutting

end FieldNotes
