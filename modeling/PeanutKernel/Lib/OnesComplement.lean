import Mathlib.Algebra.BigOperators.Group.List.Basic
import Mathlib.Data.Nat.ModEq

/-!
# One's complement sums

Words are the numbers up to `m`, all ones. A sum that runs over `m` comes back with its carry added
at the low end, so it is taken modulo `m`, with `0` and `m` the two zeros: only a sum of zeros is
`0`. `Same` says that two numbers stand for the same word; each number stands for one word
(`Same.eq`), and folding the carries of a number, all at once or one by one, does not change the
word (`same_carried`).
-/

namespace OnesComplement

variable {m a b c d : ℕ} {ws : List ℕ}

/-- The carries of `n` added at the low end. -/
def carried (m n : ℕ) : ℕ := n % (m + 1) + n / (m + 1)

def onesAdd (m a b : ℕ) : ℕ := carried m (a + b)

def onesSum (m : ℕ) (ws : List ℕ) : ℕ := ws.foldl (onesAdd m) 0

structure Same (m a b : ℕ) : Prop where
  zero : a = 0 ↔ b = 0
  modEq : a ≡ b [MOD m]

theorem Same.refl (m a : ℕ) : Same m a a := ⟨Iff.rfl, Nat.ModEq.refl a⟩

theorem Same.symm (h : Same m a b) : Same m b a := ⟨h.zero.symm, h.modEq.symm⟩

theorem Same.trans (h : Same m a b) (h' : Same m b c) : Same m a c :=
  ⟨h.zero.trans h'.zero, h.modEq.trans h'.modEq⟩

theorem Same.add (h : Same m a b) (h' : Same m c d) : Same m (a + c) (b + d) := by
  refine ⟨?_, h.modEq.add h'.modEq⟩
  rw [Nat.add_eq_zero_iff, Nat.add_eq_zero_iff, h.zero, h'.zero]

/-- A word other than `0` is determined by its remainder. -/
theorem Same.eq (h : Same m a b) (ha : a ≤ m) (hb : b ≤ m) : a = b := by
  rcases Nat.eq_zero_or_pos a with h0 | h0
  · rw [h0, h.zero.1 h0]
  · have hb0 : b ≠ 0 := fun hb0 => h0.ne' (h.zero.2 hb0)
    have hmod : a - 1 ≡ b - 1 [MOD m] := by
      refine Nat.ModEq.add_right_cancel' 1 ?_
      rw [Nat.sub_add_cancel h0, Nat.sub_add_cancel (Nat.pos_of_ne_zero hb0)]
      exact h.modEq
    have := Nat.ModEq.eq_of_lt_of_lt hmod (by omega) (by omega)
    omega

theorem same_carried (m n : ℕ) : Same m (carried m n) n := by
  have hn : n % (m + 1) + (m + 1) * (n / (m + 1)) = n := Nat.mod_add_div n (m + 1)
  refine ⟨?_, ?_⟩
  · unfold carried
    constructor
    · intro h
      rw [← hn, (Nat.add_eq_zero_iff.1 h).1, (Nat.add_eq_zero_iff.1 h).2, Nat.mul_zero]
    · rintro rfl
      rw [Nat.zero_mod, Nat.zero_div]
  · calc carried m n ≡ n % (m + 1) + n / (m + 1) + m * (n / (m + 1)) [MOD m] := by
          simp [Nat.ModEq, carried]
      _ = n % (m + 1) + (m + 1) * (n / (m + 1)) := by rw [Nat.add_mul, one_mul]; omega
      _ = n := hn

theorem carried_le (hn : a ≤ 2 * m) : carried m a ≤ m := by
  unfold carried
  have hdiv := Nat.mod_add_div a (m + 1)
  have hmod := Nat.mod_lt a (Nat.succ_pos m)
  rcases Nat.lt_or_ge a (m + 1) with h | h
  · rw [Nat.mod_eq_of_lt h, Nat.div_eq_of_lt h]
    omega
  · have hone : a / (m + 1) = 1 := Nat.div_eq_of_lt_le (by omega) (by omega)
    rw [hone] at hdiv ⊢
    omega

theorem onesAdd_le (ha : a ≤ m) (hb : b ≤ m) : onesAdd m a b ≤ m := carried_le (by omega)

theorem same_foldl (hws : ∀ w ∈ ws, w ≤ m) (ha : a ≤ m) :
    ws.foldl (onesAdd m) a ≤ m ∧ Same m (ws.foldl (onesAdd m) a) (a + ws.sum) := by
  induction ws generalizing a with
  | nil => exact ⟨ha, Same.refl m a⟩
  | cons w ws ih =>
    obtain ⟨hle, hsame⟩ := ih (fun v hv => hws v (List.mem_cons_of_mem w hv))
      (onesAdd_le ha (hws w List.mem_cons_self))
    refine ⟨hle, hsame.trans ?_⟩
    rw [List.sum_cons, ← Nat.add_assoc]
    exact (same_carried m (a + w)).add (Same.refl m ws.sum)

/-- The sum with the carries added word by word is the word of the plain sum. -/
theorem onesSum_le (hws : ∀ w ∈ ws, w ≤ m) : onesSum m ws ≤ m :=
  (same_foldl hws (Nat.zero_le m)).1

theorem same_onesSum (hws : ∀ w ∈ ws, w ≤ m) : Same m (onesSum m ws) ws.sum := by
  have := (same_foldl hws (Nat.zero_le m)).2
  rwa [Nat.zero_add] at this

/-- A word and its complement add up to the zero of all ones. -/
theorem eq_ones_of_complement (ha : a ≤ m) (hab : Same m a b) (hc : c ≤ m)
    (hsame : Same m c (b + (m - a))) : c = m := by
  have hsum : Same m (a + (m - a)) (b + (m - a)) := hab.add (Same.refl m (m - a))
  rw [Nat.add_sub_cancel' ha] at hsum
  exact (hsame.trans hsum.symm).eq hc le_rfl

end OnesComplement
