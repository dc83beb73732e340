import PeanutKernel.NetChecksum
import PeanutKernel.Lib.OnesComplement
import Mathlib.Algebra.BigOperators.Group.Finset.Piecewise
import Mathlib.Algebra.Order.BigOperators.Group.Finset

/-!
# The checksum is the one's complement sum

Up to 65535 bytes the sum of the words stays below `2 ^ 32`, so the loop adds without losing a
carry, and folding the carries at the end gives the word that adding them one by one gives. A
checksum stored in a field that was zero adds its own complement to the sum, which then is all ones.
-/

namespace PeanutKernel

namespace Net

open OnesComplement Finset

variable {data : Buf} {count off sum i v : ℕ}

section Sums

/-- The sum of the words, byte by byte. -/
def byteSum (data : Buf) (count : ℕ) : ℕ := ∑ k ∈ range count, (data k).toNat * 2 ^ (8 * (k % 2))

theorem byteSum_add_two (data : Buf) (count : ℕ) :
    byteSum data (count + 2) = le16 data 0 + byteSum (fun i => data (i + 2)) count := by
  have hshift : ∀ k, (data (k + 1 + 1)).toNat * 2 ^ (8 * ((k + 1 + 1) % 2))
      = (data (k + 2)).toNat * 2 ^ (8 * (k % 2)) := by
    intro k
    rw [Nat.add_assoc k 1 1, Nat.add_mod_right]
  unfold byteSum
  rw [sum_range_succ', sum_range_succ']
  simp only [hshift, le16, Nat.zero_mod, Nat.zero_add, Nat.mul_zero, Nat.pow_zero, Nat.mul_one,
    Nat.mod_eq_of_lt Nat.one_lt_two]
  omega

theorem bytesOf_cons_cons (data : Buf) (count : ℕ) :
    bytesOf data (count + 2) = data 0 :: data 1 :: bytesOf (fun i => data (i + 2)) count := by
  unfold bytesOf
  rw [List.range_succ_eq_map, List.range_succ_eq_map]
  simp [Function.comp_def]

theorem sum_wordsOf (data : Buf) (count : ℕ) :
    (wordsOf (bytesOf data count)).sum = byteSum data count := by
  induction count using Nat.twoStepInduction generalizing data with
  | zero => rfl
  | one => simp [bytesOf, wordsOf, byteSum]
  | more count ih _ =>
    rw [bytesOf_cons_cons, wordsOf, List.sum_cons, ih, byteSum_add_two]
    rfl

theorem le_of_mem_wordsOf {l : List UInt8} : ∀ w ∈ wordsOf l, w ≤ 65535 := by
  fun_induction wordsOf l with
  | case1 => simp
  | case2 b =>
    have := b.toNat_lt
    simp only [List.mem_singleton, forall_eq]
    omega
  | case3 b b' l ih =>
    have := b.toNat_lt
    have := b'.toNat_lt
    simp only [List.mem_cons, forall_eq_or_imp]
    exact ⟨by omega, ih⟩

theorem byteSum_lt (hcount : count ≤ 65535) : byteSum data count < 2 ^ 32 := by
  have hterm : ∀ k ∈ range count, (data k).toNat * 2 ^ (8 * (k % 2)) ≤ 255 * 2 ^ 8 := by
    intro k _
    have hbyte := (data k).toNat_lt
    refine Nat.mul_le_mul (by omega) (Nat.pow_le_pow_right (by omega) ?_)
    omega
  have hsum := sum_le_card_nsmul (range count) _ _ hterm
  rw [card_range, nsmul_eq_mul, Nat.cast_id] at hsum
  exact lt_of_le_of_lt hsum (by omega)

theorem sumLoop_eq (h : sum + byteSum (fun i => data (off + i)) count < 2 ^ 32) :
    sumLoop data count off sum = sum + byteSum (fun i => data (off + i)) count := by
  induction count using Nat.twoStepInduction generalizing off sum with
  | zero => simp [sumLoop, byteSum]
  | one =>
    simp only [byteSum, sum_range_one, Nat.zero_mod, Nat.mul_zero, Nat.pow_zero, Nat.mul_one,
      Nat.add_zero] at h ⊢
    rw [sumLoop, Nat.mod_eq_of_lt h]
  | more count ih _ =>
    rw [byteSum_add_two] at h ⊢
    have hshift : (fun i => data (off + (i + 2))) = fun i => data (off + 2 + i) := by
      funext i
      congr 1
      omega
    rw [hshift] at h ⊢
    have hword : le16 (fun i => data (off + i)) 0 = le16 data off := rfl
    rw [hword] at h ⊢
    rw [sumLoop, Nat.mod_eq_of_lt (by omega), ih (by omega)]
    omega

end Sums

theorem foldSum_spec (sum : ℕ) : foldSum sum ≤ 65535 ∧ Same 65535 (foldSum sum) sum := by
  fun_induction foldSum sum with
  | case1 sum h => exact ⟨by omega, Same.refl _ _⟩
  | case2 sum h ih => exact ⟨ih.1, ih.2.trans (same_carried 65535 sum)⟩

/-- The checksum and what is left of the sum after folding are complements. -/
theorem netChecksum_eq (data : Buf) (hcount : count ≤ 65535) :
    netChecksum data count = 65535 - foldSum (byteSum data count) := by
  have hloop : sumLoop data count 0 0 = byteSum data count := by
    have hlt : 0 + byteSum (fun i => data (0 + i)) count < 2 ^ 32 := by
      simp only [Nat.zero_add]
      exact byteSum_lt hcount
    rw [sumLoop_eq hlt]
    simp only [Nat.zero_add]
  have hle := (foldSum_spec (byteSum data count)).1
  unfold netChecksum
  rw [hloop]
  omega

theorem foldSum_byteSum (data : Buf) (count : ℕ) :
    foldSum (byteSum data count) = onesSum 65535 (wordsOf (bytesOf data count)) := by
  obtain ⟨hle, hsame⟩ := foldSum_spec (byteSum data count)
  have hwords := same_onesSum (le_of_mem_wordsOf (l := bytesOf data count))
  rw [sum_wordsOf] at hwords
  exact (hsame.trans hwords.symm).eq hle (onesSum_le le_of_mem_wordsOf)

/-- Storing a word in a field adds it to what the sum is with the field zero. -/
theorem byteSum_storeLe16 (hi : 2 * i + 1 < count) (hv : v ≤ 65535) :
    byteSum (storeLe16 data (2 * i) v) count = byteSum (storeLe16 data (2 * i) 0) count + v := by
  have hterm : ∀ k, (storeLe16 data (2 * i) v k).toNat * 2 ^ (8 * (k % 2))
      = (storeLe16 data (2 * i) 0 k).toNat * 2 ^ (8 * (k % 2))
        + ((if k = 2 * i then v % 2 ^ 8 else 0)
          + if k = 2 * i + 1 then v / 2 ^ 8 * 2 ^ 8 else 0) := by
    intro k
    unfold storeLe16
    rcases eq_or_ne k (2 * i) with rfl | hlow
    · simp
    · rcases eq_or_ne k (2 * i + 1) with rfl | hhigh
      · have hmod : (2 * i + 1) % 2 = 1 := by omega
        have hdiv : v / 256 < 256 := by omega
        simp [hmod, hdiv]
      · simp [hlow, hhigh]
  unfold byteSum
  rw [sum_congr rfl fun k _ => hterm k, sum_add_distrib, sum_add_distrib, sum_ite_eq', sum_ite_eq',
    if_pos (mem_range.2 (by omega)), if_pos (mem_range.2 hi)]
  omega

/-- `net_checksum` is the complement of the one's complement sum of the words, and stored in a field
that was zero it makes the checksum of the whole zero. -/
theorem netChecksum_complement (data : Buf) (count : ℕ) (hcount : count ≤ 65535) :
    netChecksum data count = 65535 - onesSum 65535 (wordsOf (bytesOf data count)) ∧
      ∀ i, 2 * i + 1 < count →
        netChecksum
          (storeLe16 data (2 * i) (netChecksum (storeLe16 data (2 * i) 0) count)) count = 0 := by
  refine ⟨by rw [netChecksum_eq data hcount, foldSum_byteSum], fun i hi => ?_⟩
  have hzeroed := netChecksum_eq (storeLe16 data (2 * i) 0) hcount
  obtain ⟨hle, hsame⟩ := foldSum_spec (byteSum (storeLe16 data (2 * i) 0) count)
  rw [netChecksum_eq _ hcount, hzeroed, byteSum_storeLe16 hi (Nat.sub_le _ _)]
  obtain ⟨hle', hsame'⟩ := foldSum_spec
    (byteSum (storeLe16 data (2 * i) 0) count
      + (65535 - foldSum (byteSum (storeLe16 data (2 * i) 0) count)))
  rw [eq_ones_of_complement hle hsame hle' hsame', Nat.sub_self]

/-- Three bytes, the first two the field. -/
theorem netChecksum_complement_three : 3 ≤ 65535 ∧
    netChecksum (fun i => UInt8.ofNat i) 3
      = 65535 - onesSum 65535 (wordsOf (bytesOf (fun i => UInt8.ofNat i) 3)) ∧
    netChecksum (storeLe16 (fun i => UInt8.ofNat i) (2 * 0)
      (netChecksum (storeLe16 (fun i => UInt8.ofNat i) (2 * 0) 0) 3)) 3 = 0 :=
  ⟨by decide, (netChecksum_complement (fun i => UInt8.ofNat i) 3 (by decide)).1,
    (netChecksum_complement (fun i => UInt8.ofNat i) 3 (by decide)).2 0 (by decide)⟩

end Net

end PeanutKernel
