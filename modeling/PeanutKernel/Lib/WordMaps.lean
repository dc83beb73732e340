import Mathlib.Algebra.Group.Units.Basic
import Mathlib.Data.BitVec
import Mathlib.Data.FinEnum
import Mathlib.Data.Fintype.Card

/-!
# Maps on words that lose nothing

The steps mixing functions are made of: a xor of a word with its own shift by at least one bit, and
the multiplication by a word that has an inverse. Each is injective on the words of a length, so
each is a bijection, and so is every composition of them.
-/

namespace WordMaps

variable {w k : ℕ}

def xorShiftRight (k : ℕ) (x : BitVec w) : BitVec w := x ^^^ (x >>> k)

def xorShiftLeft (k : ℕ) (x : BitVec w) : BitVec w := x ^^^ (x <<< k)

/-- A bit of the word is a bit of the result and a bit further up, so the word is read off the
result from its highest bit down. -/
theorem xorShiftRight_injective (hk : 0 < k) :
    Function.Injective (xorShiftRight k : BitVec w → BitVec w) := by
  intro x y hxy
  have hbit : ∀ i, (x.getLsbD i ^^ x.getLsbD (k + i)) = (y.getLsbD i ^^ y.getLsbD (k + i)) := by
    intro i
    simpa [xorShiftRight] using congrArg (·.getLsbD i) hxy
  have hsame : ∀ n i, w - i ≤ n → x.getLsbD i = y.getLsbD i := by
    intro n
    induction n with
    | zero =>
      intro i hi
      rw [BitVec.getLsbD_of_ge x i (by omega), BitVec.getLsbD_of_ge y i (by omega)]
    | succ n ih =>
      intro i hi
      rcases Nat.lt_or_ge i w with hiw | hiw
      · have h := hbit i
        rw [ih (k + i) (by omega)] at h
        exact Bool.xor_left_inj.1 h
      · rw [BitVec.getLsbD_of_ge x i hiw, BitVec.getLsbD_of_ge y i hiw]
  exact BitVec.eq_of_getLsbD_eq fun i _ => hsame (w - i) i le_rfl

/-- Here from the lowest bit up. -/
theorem xorShiftLeft_injective (hk : 0 < k) :
    Function.Injective (xorShiftLeft k : BitVec w → BitVec w) := by
  intro x y hxy
  refine BitVec.eq_of_getLsbD_eq fun i hi => ?_
  induction i using Nat.strong_induction_on with
  | _ i ih =>
    have h : (x.getLsbD i ^^ (!decide (i < k) && x.getLsbD (i - k)))
        = (y.getLsbD i ^^ (!decide (i < k) && y.getLsbD (i - k))) := by
      have := congrArg (·.getLsbD i) hxy
      simpa only [xorShiftLeft, BitVec.getLsbD_xor, BitVec.getLsbD_shiftLeft, hi, decide_true,
        Bool.true_and] using this
    rcases Nat.lt_or_ge i k with hik | hik
    · simpa [hik] using h
    · rw [ih (i - k) (by omega) (by omega)] at h
      exact Bool.xor_left_inj.1 h

theorem mul_injective {c d : BitVec w} (hcd : c * d = 1) :
    Function.Injective fun x : BitVec w => x * c :=
  (IsUnit.of_mul_eq_one d hcd).mul_left_injective

theorem bijective_of_injective {f : BitVec w → BitVec w} (hf : Function.Injective f) :
    Function.Bijective f :=
  Finite.injective_iff_bijective.1 hf

end WordMaps
