import Mathlib.Data.List.Basic
import Mathlib.Order.Lattice
import Mathlib.Order.Nat

/-!
# Searching a list that keys split

A list of intervals is kept in `n` parts, one after the other, and part `i` has a key between the
intervals before it and its own. To look for the interval around `x` it is enough to search the part
of the last key at or below `x`, or the first part if there is none (`Split.find?_flatMap`).
-/

namespace SplitSearch

variable {α K : Type*} [LinearOrder K] {key : ℕ → K} {x : K} {n : ℕ}

/-- The last of the first `n` keys at or below `x`, or the first key. -/
def lastLe (key : ℕ → K) (x : K) (n : ℕ) : ℕ :=
  (List.range n).foldl (fun pick i => if key i ≤ x then i else pick) 0

theorem lastLe_succ (key : ℕ → K) (x : K) (n : ℕ) :
    lastLe key x (n + 1) = if key n ≤ x then n else lastLe key x n := by
  simp only [lastLe, List.range_succ, List.foldl_append, List.foldl_cons, List.foldl_nil]

theorem lastLe_lt (hn : 0 < n) : lastLe key x n < n := by
  induction n with
  | zero => exact absurd hn (lt_irrefl 0)
  | succ n ih =>
    rw [lastLe_succ]
    split_ifs
    · exact Nat.lt_succ_self n
    · rcases n.eq_zero_or_pos with rfl | hpos
      · exact Nat.zero_lt_one
      · exact (ih hpos).trans (Nat.lt_succ_self n)

theorem key_lastLe (key : ℕ → K) (x : K) (n : ℕ) :
    lastLe key x n = 0 ∨ key (lastLe key x n) ≤ x := by
  induction n with
  | zero => exact .inl rfl
  | succ n ih =>
    rw [lastLe_succ]
    split_ifs with h
    · exact .inr h
    · exact ih

theorem lt_key_of_lastLe_lt {i : ℕ} (hi : lastLe key x n < i) (hin : i < n) : x < key i := by
  induction n with
  | zero => exact absurd hin (Nat.not_lt_zero i)
  | succ n ih =>
    rw [lastLe_succ] at hi
    split_ifs at hi with h
    · omega
    · rcases Nat.lt_succ_iff_lt_or_eq.1 hin with hlt | rfl
      · exact ih hi hlt
      · exact not_le.1 h

/-- Each part starts at its key or later and ends before the keys that follow. -/
structure Split (key : ℕ → K) (part : ℕ → List α) (lo hi : α → K) (n : ℕ) : Prop where
  lower : ∀ i < n, ∀ a ∈ part i, key i ≤ lo a
  upper : ∀ i j, i < j → j < n → ∀ a ∈ part i, hi a ≤ key j

variable {part : ℕ → List α} {lo hi : α → K} {p : α → Bool}

theorem Split.not_around (h : Split key part lo hi n) {i : ℕ} (hi' : i < n)
    (hne : i ≠ lastLe key x n) {a : α} (ha : a ∈ part i) : ¬ (lo a ≤ x ∧ x < hi a) := by
  rintro ⟨hlo, hhi⟩
  rcases lt_or_gt_of_ne hne with hlt | hgt
  · have hkey := (key_lastLe key x n).resolve_left (by omega)
    have hend := h.upper i _ hlt (lastLe_lt (by omega)) a ha
    exact not_lt.2 (hend.trans hkey) hhi
  · have hkey := lt_key_of_lastLe_lt hgt hi'
    exact not_le.2 hkey ((h.lower i hi' a ha).trans hlo)

theorem findSome?_range_eq_some {f : ℕ → Option α} {a : α} :
    (List.range n).findSome? f = some a ↔ ∃ i < n, f i = some a ∧ ∀ j < i, f j = none := by
  induction n with
  | zero => simp
  | succ n ih =>
    rw [List.range_succ, List.findSome?_append, Option.or_eq_some_iff, ih,
      List.findSome?_eq_none_iff, List.findSome?_singleton]
    simp only [List.mem_range]
    constructor
    · rintro (⟨i, hi, h⟩ | ⟨hnone, hn⟩)
      · exact ⟨i, by omega, h⟩
      · exact ⟨n, by omega, hn, hnone⟩
    · rintro ⟨i, hi, h⟩
      rcases Nat.lt_succ_iff_lt_or_eq.1 hi with hi | rfl
      · exact .inl ⟨i, hi, h⟩
      · exact .inr ⟨h.2, h.1⟩

theorem findSome?_range {f : ℕ → Option α} {k : ℕ} (hk : k < n)
    (h : ∀ i < n, i ≠ k → f i = none) : (List.range n).findSome? f = f k := by
  refine Option.ext fun a => findSome?_range_eq_some.trans ⟨?_, fun ha => ?_⟩
  · rintro ⟨i, hi, ha, -⟩
    obtain rfl : i = k := by
      by_contra hne
      simp [h i hi hne] at ha
    exact ha
  · exact ⟨k, hk, ha, fun j hj => h j (hj.trans hk) hj.ne⟩

/-- Only the part of the last key at or below `x` needs to be searched. -/
theorem Split.find?_flatMap (h : Split key part lo hi n) (hn : 0 < n)
    (hp : ∀ a, p a = true → lo a ≤ x ∧ x < hi a) :
    ((List.range n).flatMap part).find? p = (part (lastLe key x n)).find? p := by
  have hother : ∀ i < n, i ≠ lastLe key x n → (part i).find? p = none := by
    intro i hi' hne
    rw [List.find?_eq_none]
    exact fun a ha hpa => h.not_around hi' hne ha (hp a hpa)
  rw [List.find?_flatMap]
  exact findSome?_range (lastLe_lt hn) hother

end SplitSearch
