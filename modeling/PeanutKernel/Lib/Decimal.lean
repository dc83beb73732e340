import Mathlib.Data.Nat.Digits.Lemmas

/-!
# Decimal texts

A number in ASCII: one or more digits without a zero in front of others, with a minus sign before
the digits of a negative one. A text of that form reads as one number, and each number has just one
text (`isDecimalOf_iff`).
-/

namespace Decimal

def digit (d : ℕ) : UInt8 := UInt8.ofNat (d + 48)

def digitValue (c : UInt8) : ℕ := c.toNat - 48

def isDigit (c : UInt8) : Bool := 48 ≤ c.toNat && c.toNat ≤ 57

structure IsNumeral (t : List UInt8) : Prop where
  ne_nil : t ≠ []
  digits : ∀ c ∈ t, isDigit c
  no_zero_first : t.head? = some 48 → t = [48]

inductive Canonical : List UInt8 → Prop
  | numeral {t : List UInt8} : IsNumeral t → Canonical t
  | negative {t : List UInt8} : IsNumeral t → t ≠ [48] → Canonical (45 :: t)

def readNumeral (t : List UInt8) : Option ℕ :=
  if t ≠ [] ∧ t.all isDigit then some (Nat.ofDigits 10 (t.reverse.map digitValue)) else none

def read : List UInt8 → Option ℤ
  | 45 :: t => (readNumeral t).map fun n : ℕ => -(n : ℤ)
  | t => (readNumeral t).map fun n : ℕ => (n : ℤ)

/-- The text is canonical and reads back as the number. -/
def IsDecimalOf (z : ℤ) (t : List UInt8) : Prop := Canonical t ∧ read t = some z

/-- The digits of a positive number, the first one first. -/
def digitsOf (n : ℕ) : List UInt8 := (Nat.digits 10 n).reverse.map digit

/-- The text of a number. -/
def ofInt (z : ℤ) : List UInt8 :=
  if z = 0 then [48] else if z < 0 then 45 :: digitsOf z.natAbs else digitsOf z.natAbs

section Digits

theorem isDigit_iff {c : UInt8} : isDigit c ↔ 48 ≤ c.toNat ∧ c.toNat ≤ 57 := by
  simp [isDigit]

theorem digitValue_digit {d : ℕ} (hd : d < 10) : digitValue (digit d) = d := by
  rw [digitValue, digit, UInt8.toNat_ofNat_of_lt' (by rw [UInt8.size]; omega)]
  omega

theorem isDigit_digit {d : ℕ} (hd : d < 10) : isDigit (digit d) := by
  rw [isDigit_iff, digit, UInt8.toNat_ofNat_of_lt' (by rw [UInt8.size]; omega)]
  omega

variable {c : UInt8} (hc : isDigit c)

include hc

theorem digit_digitValue : digit (digitValue c) = c := by
  obtain ⟨hle, _⟩ := isDigit_iff.1 hc
  rw [digit, digitValue, Nat.sub_add_cancel hle, UInt8.ofNat_toNat]

theorem digitValue_lt : digitValue c < 10 := by
  obtain ⟨_, hle⟩ := isDigit_iff.1 hc
  rw [digitValue]
  omega

theorem digitValue_eq_zero : digitValue c = 0 ↔ c = 48 := by
  constructor
  · intro h
    rw [← digit_digitValue hc, h]
    rfl
  · rintro rfl
    rfl

end Digits

section Numerals

variable {n : ℕ} {t : List UInt8}

theorem isDigit_of_mem_digitsOf {c : UInt8} (hc : c ∈ digitsOf n) : isDigit c := by
  obtain ⟨d, hd, rfl⟩ := List.mem_map.1 hc
  exact isDigit_digit (Nat.digits_lt_base (by decide) (List.mem_reverse.1 hd))

theorem digitsOf_ne_nil (hn : n ≠ 0) : digitsOf n ≠ [] := by
  simpa [digitsOf, Nat.digits_eq_nil_iff_eq_zero] using hn

theorem head_digitsOf (hn : n ≠ 0) : (digitsOf n).head? ≠ some 48 := by
  have hlast := Nat.getLast_digit_ne_zero 10 hn
  rw [digitsOf, List.head?_map, List.head?_reverse,
    List.getLast?_eq_some_getLast (Nat.digits_ne_nil_iff_ne_zero.2 hn), Option.map_some]
  intro h
  have hlt : (Nat.digits 10 n).getLast (Nat.digits_ne_nil_iff_ne_zero.2 hn) < 10 :=
    Nat.digits_lt_base (by decide) (List.getLast_mem _)
  have hzero := congrArg digitValue (Option.some.inj h)
  rw [digitValue_digit hlt] at hzero
  exact hlast hzero

theorem isNumeral_digitsOf (hn : n ≠ 0) : IsNumeral (digitsOf n) where
  ne_nil := digitsOf_ne_nil hn
  digits _ := isDigit_of_mem_digitsOf
  no_zero_first h := absurd h (head_digitsOf hn)

theorem map_digitValue_digitsOf : (digitsOf n).reverse.map digitValue = Nat.digits 10 n := by
  rw [digitsOf, ← List.map_reverse, List.reverse_reverse, List.map_map]
  have hid : ∀ d ∈ Nat.digits 10 n, (digitValue ∘ digit) d = d := fun d hd =>
    digitValue_digit (Nat.digits_lt_base (by decide) hd)
  rw [List.map_congr_left hid, List.map_id']

theorem readNumeral_digitsOf (hn : n ≠ 0) : readNumeral (digitsOf n) = some n := by
  rw [readNumeral, if_pos ⟨digitsOf_ne_nil hn, List.all_eq_true.2 fun _ => isDigit_of_mem_digitsOf⟩,
    map_digitValue_digitsOf, Nat.ofDigits_digits]

/-- A numeral other than zero is the text of the number it reads as. -/
theorem IsNumeral.eq_digitsOf (h : IsNumeral t) (hzero : t ≠ [48])
    (hread : readNumeral t = some n) : n ≠ 0 ∧ t = digitsOf n := by
  rw [readNumeral, if_pos ⟨h.ne_nil, List.all_eq_true.2 h.digits⟩, Option.some.injEq] at hread
  have hlt : ∀ d ∈ t.reverse.map digitValue, d < 10 := by
    intro d hd
    obtain ⟨c, hc, rfl⟩ := List.mem_map.1 hd
    exact digitValue_lt (h.digits c (List.mem_reverse.1 hc))
  have hlast : ∀ hne : t.reverse.map digitValue ≠ [],
      (t.reverse.map digitValue).getLast hne ≠ 0 := by
    intro hne
    rw [List.getLast_map, List.getLast_reverse, Ne,
      digitValue_eq_zero (h.digits _ (List.head_mem h.ne_nil))]
    intro hhead
    exact hzero (h.no_zero_first (by rw [List.head?_eq_some_head h.ne_nil, hhead]))
  have hdigits : Nat.digits 10 n = t.reverse.map digitValue := by
    rw [← hread]
    exact Nat.digits_ofDigits 10 (by decide) _ hlt hlast
  have hid : ∀ c ∈ t, (digit ∘ digitValue) c = c := fun c hc => digit_digitValue (h.digits c hc)
  constructor
  · rintro rfl
    exact h.ne_nil (by simpa using hdigits.symm)
  · rw [digitsOf, hdigits, ← List.map_reverse, List.reverse_reverse, List.map_map,
      List.map_congr_left hid, List.map_id']

theorem digitsOf_ne_zero_text (hn : n ≠ 0) : digitsOf n ≠ [48] := by
  intro h
  exact head_digitsOf hn (by rw [h]; rfl)

end Numerals

section Integers

variable {z : ℤ} {t : List UInt8}

theorem IsNumeral.read (h : IsNumeral t) : read t = (readNumeral t).map fun n : ℕ => (n : ℤ) := by
  obtain _ | ⟨c, t⟩ := t
  · rfl
  · have hc : c ≠ 45 := by
      rintro rfl
      exact absurd (h.digits 45 List.mem_cons_self) (by decide)
    rw [Decimal.read.eq_def]
    split
    · next heq => exact absurd (List.cons.inj heq).1 hc
    · rfl

theorem IsNumeral.exists_readNumeral (h : IsNumeral t) : ∃ n, readNumeral t = some n :=
  ⟨_, if_pos ⟨h.ne_nil, List.all_eq_true.2 h.digits⟩⟩

theorem ofInt_natCast {n : ℕ} (hn : n ≠ 0) : ofInt n = digitsOf n := by
  rw [ofInt, if_neg (by omega), if_neg (by omega), Int.natAbs_natCast]

theorem ofInt_neg_natCast {n : ℕ} (hn : n ≠ 0) : ofInt (-n) = 45 :: digitsOf n := by
  rw [ofInt, if_neg (by omega), if_pos (by omega), Int.natAbs_neg, Int.natAbs_natCast]

theorem isDecimalOf_ofInt (z : ℤ) : IsDecimalOf z (ofInt z) := by
  rcases lt_trichotomy z 0 with hneg | rfl | hpos
  · obtain ⟨n, rfl⟩ : ∃ n : ℕ, z = -n := ⟨z.natAbs, by omega⟩
    have hn : n ≠ 0 := by omega
    rw [ofInt_neg_natCast hn]
    refine ⟨.negative (isNumeral_digitsOf hn) (digitsOf_ne_zero_text hn), ?_⟩
    rw [Decimal.read, readNumeral_digitsOf hn, Option.map_some]
  · exact ⟨.numeral ⟨by decide, List.all_eq_true.1 rfl, fun _ => rfl⟩, by decide⟩
  · obtain ⟨n, rfl⟩ := Int.eq_ofNat_of_zero_le hpos.le
    have hn : n ≠ 0 := by omega
    rw [ofInt_natCast hn]
    refine ⟨.numeral (isNumeral_digitsOf hn), ?_⟩
    rw [(isNumeral_digitsOf hn).read, readNumeral_digitsOf hn, Option.map_some]

/-- Each number has one text. -/
theorem isDecimalOf_iff : IsDecimalOf z t ↔ t = ofInt z := by
  constructor
  · rintro ⟨hcanonical, hread⟩
    cases hcanonical with
    | numeral h =>
      by_cases hzero : t = [48]
      · subst hzero
        obtain rfl : (0 : ℤ) = z := Option.some.inj hread
        rfl
      · obtain ⟨n, hn⟩ := h.exists_readNumeral
        rw [h.read, hn, Option.map_some, Option.some.injEq] at hread
        obtain ⟨hne, ht⟩ := h.eq_digitsOf hzero hn
        rw [← hread, ofInt_natCast hne, ht]
    | @negative t h hzero =>
      obtain ⟨n, hn⟩ := h.exists_readNumeral
      rw [Decimal.read, hn, Option.map_some, Option.some.injEq] at hread
      obtain ⟨hne, ht⟩ := h.eq_digitsOf hzero hn
      rw [← hread, ofInt_neg_natCast hne, ht]
  · rintro rfl
    exact isDecimalOf_ofInt z

end Integers

end Decimal
