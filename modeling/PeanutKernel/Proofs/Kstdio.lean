import PeanutKernel.Kstdio
import PeanutKernel.Syscall
import PeanutKernel.Lib.Decimal

/-!
# What is printed of a number

The first loop stores the digits of a positive number, the last one first, and the second prints
them from the other end (`printDigits_spec`). The most negative number is its own negation, so that
no digit is stored for it and a minus sign is all that is printed; every other number comes out as
its decimal text. An `int64_t` has at most 19 digits.
-/

namespace PeanutKernel.Kstdio

open MemM

section Loops

variable {b : ℕ} {n : Int64}

theorem kputDigits_congr {i : ℕ} {mem mem' : Buf} (h : ∀ j < i, mem j = mem' j) :
    (kputDigits i).value mem = (kputDigits i).value mem' := by
  induction i with
  | zero => rfl
  | succ i ih =>
    simp only [kputDigits, value_bind, value_load, after_load, value_pure]
    rw [h i (by omega), ih fun j hj => h j (by omega)]

theorem kputDigits_within {i : ℕ} (hi : i ≤ b) (mem : Buf) :
    MemM.Within (fun x => x.cell < b) (kputDigits i) mem := by
  induction i with
  | zero => exact (within_pure _).2 trivial
  | succ i ih =>
    rw [kputDigits, within_bind, within_load, within_bind]
    exact ⟨hi, ih (by omega), (within_pure _).2 trivial⟩

theorem digit_stored (hn : 0 < n) :
    (n % 10 + 48).toInt8.toUInt8 = Decimal.digit (n.toInt.toNat % 10) := by
  have hpos : 0 < n.toInt := Int64.lt_iff_toInt_lt.1 hn
  have hmod : n % 10 = Int64.ofNat (n.toInt.toNat % 10) := by
    rw [← Int64.toInt_inj, Int64.toInt_mod, Int64.toInt_ofNat_of_lt (by omega),
      Int.tmod_eq_emod_of_nonneg hpos.le]
    change n.toInt % 10 = _
    omega
  have hlt : n.toInt.toNat % 10 < 10 := Nat.mod_lt _ (by decide)
  rw [hmod]
  generalize n.toInt.toNat % 10 = d at hlt
  interval_cases d <;> rfl

theorem digits_step (hn : 0 < n) :
    Nat.digits 10 n.toInt.toNat = n.toInt.toNat % 10 :: Nat.digits 10 (n / 10).toInt.toNat := by
  have hpos : 0 < n.toInt := Int64.lt_iff_toInt_lt.1 hn
  rw [Nat.digits_def' (by decide) (by omega), toInt_div_ten hn]
  congr 2
  omega

/-- The two loops, started with digits already in the buffer below `i`. -/
theorem printDigits_spec (n : Int64) (i : ℕ) (mem : Buf)
    (hb : i + (Nat.digits 10 n.toInt.toNat).length ≤ b) :
    (storeDigits n i >>= kputDigits).value mem
        = Decimal.digitsOf n.toInt.toNat ++ (kputDigits i).value mem
      ∧ MemM.Within (fun x => x.cell < b) (storeDigits n i >>= kputDigits) mem := by
  induction n, i using storeDigits.induct generalizing mem with
  | case1 n i hn ih =>
    rw [digits_step hn, List.length_cons] at hb
    have hdigits : Decimal.digitsOf n.toInt.toNat
        = Decimal.digitsOf (n / 10).toInt.toNat ++ [Decimal.digit (n.toInt.toNat % 10)] := by
      rw [Decimal.digitsOf, digits_step hn]
      simp [Decimal.digitsOf]
    have hkept : (kputDigits i).value (Function.update mem i (n % 10 + 48).toInt8.toUInt8)
        = (kputDigits i).value mem :=
      kputDigits_congr fun j hj => Function.update_of_ne hj.ne _ _
    obtain ⟨hvalue, hwithin⟩ := ih (Function.update mem i (n % 10 + 48).toInt8.toUInt8) (by omega)
    rw [storeDigits, dif_pos hn]
    constructor
    · rw [value_bind] at hvalue
      rw [value_bind, value_bind, after_bind, after_store, hvalue, hdigits, kputDigits, value_bind,
        value_bind, value_load, after_load, value_pure, hkept, Function.update_self,
        digit_stored hn, List.append_assoc, List.singleton_append]
    · rw [within_bind, value_bind, after_bind, after_store] at *
      rw [within_bind, within_store, after_store]
      exact ⟨⟨by change i < b; omega, hwithin.1⟩, hwithin.2⟩
  | case2 n i hn =>
    have hzero : n.toInt.toNat = 0 := by
      have : ¬ 0 < n.toInt := fun h => hn (Int64.lt_iff_toInt_lt.2 h)
      omega
    rw [storeDigits, dif_neg hn, hzero]
    exact ⟨rfl, kputDigits_within (by omega) mem⟩

theorem length_digits_le (n : Int64) : (Nat.digits 10 n.toInt.toNat).length ≤ 19 := by
  have hlt := n.toInt_lt
  rw [Nat.digits_length_le_iff (by decide)]
  omega

end Loops

section Print

theorem toInt_neg (n : Int64) (hn : n ≠ Int64.minValue) : (-n).toInt = -n.toInt := by
  have hne : n.toInt ≠ -2 ^ 63 := fun h =>
    hn (Int64.toInt_inj.1 (h.trans Int64.toInt_minValue.symm))
  have hlo := n.le_toInt
  have hhi := n.toInt_lt
  rw [Int64.toInt_neg, Int.bmod_eq_of_le (by omega) (by omega)]

theorem kprintInt_within (n : Int64) (buffer : Buf) :
    MemM.Within (fun x => x.cell < 20) (kprintInt n) buffer := by
  have hloops : ∀ n : Int64,
      MemM.Within (fun x => x.cell < 20) (storeDigits n 0 >>= kputDigits) buffer := by
    intro n
    have hlen := length_digits_le n
    exact (printDigits_spec n 0 buffer (by omega)).2
  rw [kprintInt]
  split_ifs with hzero hneg
  · exact (within_pure _).2 trivial
  · have h := hloops (-n)
    rw [within_bind] at h
    rw [within_bind, within_bind]
    exact ⟨h.1, h.2, (within_pure _).2 trivial⟩
  · exact hloops n

theorem kprintInt_value (n : Int64) (hn : n ≠ Int64.minValue) (buffer : Buf) :
    (kprintInt n).value buffer = Decimal.ofInt n.toInt := by
  have hloops : ∀ n : Int64,
      (storeDigits n 0 >>= kputDigits).value buffer = Decimal.digitsOf n.toInt.toNat := by
    intro n
    have hlen := length_digits_le n
    rw [(printDigits_spec (b := 20) n 0 buffer (by omega)).1]
    exact List.append_nil _
  have hzero : n = 0 ↔ n.toInt = 0 := Int64.toInt_inj.symm
  have hneg : n < 0 ↔ n.toInt < 0 := Int64.lt_iff_toInt_lt
  rw [kprintInt, Decimal.ofInt]
  simp only [hzero, hneg]
  split_ifs with h0 hlt
  · rfl
  · have h := hloops (-n)
    rw [value_bind, toInt_neg n hn] at h
    rw [value_bind, value_bind, value_pure, h]
    congr 2
    omega
  · rw [hloops]
    congr 1
    omega

theorem kprintInt_minValue (buffer : Buf) :
    (kprintInt Int64.minValue).value buffer = [45] := by
  have hneg : -Int64.minValue = Int64.minValue := by decide
  rw [kprintInt, if_neg (by decide), if_pos (by decide), hneg, storeDigits, dif_neg (by decide)]
  rfl

/-- What is printed of a number is its decimal text, and the buffer is used inside its 20 bytes,
for every number but the most negative one. -/
theorem kprintInt_decimal_iff (n : Int64) :
    (∀ buffer, Decimal.IsDecimalOf n.toInt ((kprintInt n).value buffer)
        ∧ MemM.Within (fun x => x.cell < 20) (kprintInt n) buffer)
      ↔ n ≠ Int64.minValue := by
  constructor
  · rintro h rfl
    have hdecimal := (h fun _ => 0).1.2
    rw [kprintInt_minValue] at hdecimal
    exact absurd hdecimal (by decide)
  · intro hn buffer
    rw [Decimal.isDecimalOf_iff]
    exact ⟨kprintInt_value n hn buffer, kprintInt_within n buffer⟩

theorem kprintInt_most_negative :
    (kprintInt Int64.minValue).value (fun _ => 0) = ascii "-"
      ∧ ¬ Decimal.IsDecimalOf Int64.minValue.toInt
        ((kprintInt Int64.minValue).value fun _ => 0) := by
  rw [kprintInt_minValue]
  refine ⟨by decide, ?_⟩
  rintro ⟨_, hread⟩
  exact absurd hread (by decide)

end Print

section Calls

theorem kprintDigits_eq : ∀ (rounds n : ℕ), n < 10 ^ rounds →
    kprintDigits rounds n = Decimal.digitsOf n
  | 0, n, hn => by
    obtain rfl : n = 0 := by omega
    rfl
  | rounds + 1, n, hn => by
    rw [kprintDigits]
    split_ifs with hpos
    · rw [kprintDigits_eq rounds (n / 10) (by rw [pow_succ] at hn; omega), Decimal.digitsOf,
        Decimal.digitsOf, Nat.digits_def' (by decide) hpos, List.reverse_cons, List.map_append]
      rfl
    · obtain rfl : n = 0 := by omega
      rfl

theorem toInt_toInt64 (n : UInt64) :
    n.toInt64.toInt = if 2 * n.toNat < 2 ^ 64 then (n.toNat : ℤ) else n.toNat - 2 ^ 64 :=
  BitVec.toInt_eq_toNat_cond n.toBitVec

/-- What a system call prints of a number in a register is what the two loops print of it. -/
theorem kprintInt_register (n : UInt64) (buffer : Buf) :
    PeanutKernel.kprintInt n = (kprintInt n.toInt64).value buffer := by
  have hlt := n.toNat_lt
  have hint := toInt_toInt64 n
  have hzero : n = 0 ↔ n.toNat = 0 := UInt64.toNat_inj.symm
  rw [PeanutKernel.kprintInt]
  by_cases hmin : n.toInt64 = Int64.minValue
  · have hn : n.toNat = 2 ^ 63 := by
      rw [hmin, Int64.toInt_minValue] at hint
      split_ifs at hint <;> omega
    rw [hmin, kprintInt_minValue, if_neg (hzero.not.2 (by omega)),
      if_pos (show 2 ^ 63 ≤ n.toNat by omega), if_pos hn]
  · have hne : n.toNat ≠ 2 ^ 63 := by
      intro h
      refine hmin (Int64.toInt_inj.1 ?_)
      rw [hint, h]
      rfl
    rw [kprintInt_value _ hmin]
    split_ifs at hint with hhalf
    · rw [hint, if_neg (show ¬ 2 ^ 63 ≤ n.toNat by omega)]
      split_ifs with h0
      · rw [hzero.1 h0]
        rfl
      · have hpos : n.toNat ≠ 0 := fun h => h0 (hzero.2 h)
        rw [Decimal.ofInt_natCast hpos, kprintDigits_eq 19 _ (by omega)]
    · have hneg : n.toInt64.toInt = -((2 ^ 64 - n.toNat : ℕ) : ℤ) := by omega
      rw [hneg, Decimal.ofInt_neg_natCast (by omega), if_neg (hzero.not.2 (by omega)),
        if_pos (show 2 ^ 63 ≤ n.toNat by omega), if_neg hne, kprintDigits_eq 19 _ (by omega)]

end Calls

end PeanutKernel.Kstdio
