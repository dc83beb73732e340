import Mathlib.Data.Nat.Basic

/-!
# Rings with a cycle bit

A producer fills the slots of a ring in order, lap after lap, and marks each entry with a bit that
changes from one lap to the next. In lap `lap`, with the slots before `index` filled, slot `i` has
the bit `slotBit lap index i`; before the first lap all bits are clear. A consumer in lap `lap'`
takes the slots in the same order as long as they have the bit of its lap. If the producer is not
more than the ring ahead, it finds that bit exactly if the entry has been written
(`slotBit_eq_lapBit_iff`).
-/

namespace CycleRing

/-- The bit of the entries of a lap: set in the first. -/
def lapBit (lap : ℕ) : Bool := lap % 2 = 0

def slotBit (lap index i : ℕ) : Bool := if i < index then lapBit lap else !lapBit lap

theorem lapBit_succ (lap : ℕ) : lapBit (lap + 1) = !lapBit lap := by
  unfold lapBit
  rw [← decide_not]
  exact decide_eq_decide.2 (by omega)

variable {size lap lap' index i : ℕ}

/-- Two laps that follow each other, or are the same, are told apart by their bits. -/
theorem lapBit_eq_iff (hle : lap' ≤ lap) (hge : lap ≤ lap' + 1) :
    lapBit lap = lapBit lap' ↔ lap = lap' := by
  rcases Nat.eq_or_lt_of_le hle with rfl | hlt
  · exact iff_of_true rfl rfl
  · obtain rfl : lap = lap' + 1 := by omega
    rw [lapBit_succ]
    refine iff_of_false ?_ (Nat.succ_ne_self _)
    cases lapBit lap' <;> decide

theorem not_lapBit_eq_iff (hle : lap' ≤ lap) (hge : lap ≤ lap' + 1) :
    (!lapBit lap) = lapBit lap' ↔ lap = lap' + 1 := by
  have hsame := lapBit_eq_iff hle hge
  rw [Bool.not_eq]
  exact hsame.not.trans (by omega)

/-- Writing the next entry changes the bit of its slot and no other. -/
theorem slotBit_succ :
    slotBit lap (index + 1) i = if i = index then lapBit lap else slotBit lap index i := by
  unfold slotBit
  by_cases hi : i = index
  · rw [if_pos (by omega), if_pos hi]
  · rw [if_neg hi]
    exact if_congr (by omega) rfl rfl

theorem slotBit_wrap (hi : i < size) : slotBit (lap + 1) 0 i = slotBit lap size i := by
  unfold slotBit
  rw [if_neg (Nat.not_lt_zero i), if_pos hi, lapBit_succ, Bool.not_not]

theorem slotBit_eq_lapBit_iff (hle : lap' ≤ lap) (hge : lap ≤ lap' + 1) (hi : i < size)
    (hahead : size * lap + index ≤ size * lap' + i + size) :
    slotBit lap index i = lapBit lap' ↔ size * lap' + i < size * lap + index := by
  rcases Nat.eq_or_lt_of_le hle with rfl | hlt
  · unfold slotBit
    split_ifs with hin
    · exact iff_of_true rfl (by omega)
    · refine iff_of_false ?_ (by omega)
      cases lapBit lap' <;> decide
  · obtain rfl : lap = lap' + 1 := by omega
    rw [Nat.mul_add, Nat.mul_one] at hahead ⊢
    unfold slotBit
    rw [if_neg (by omega), lapBit_succ, Bool.not_not]
    exact iff_of_true rfl (by omega)

end CycleRing
