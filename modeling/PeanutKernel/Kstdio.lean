import PeanutKernel.Lib.Access

/-!
# Printing a number

`kprint_int` (`freelib/kstdio.c`), by the accesses it makes to its buffer of digits. The cells of
the memory are the indices of `buffer`, whose contents are not known at the start; the value is the
list of the characters given to `kputc`. The arithmetic is that of an `int64_t`, whose negation
wraps.
-/

namespace PeanutKernel.Kstdio

theorem toInt_div_ten {n : Int64} (hn : 0 < n) : (n / 10).toInt = n.toInt / 10 := by
  have hpos : 0 < n.toInt := Int64.lt_iff_toInt_lt.1 hn
  have hne : n ≠ Int64.minValue := by
    rintro rfl
    exact absurd hn (by decide)
  rw [Int64.toInt_div_of_ne_left n 10 hne, Int.tdiv_eq_ediv_of_nonneg (by omega)]
  rfl

/-- `while (n > 0) buffer[i++] = (n % 10) + '0', n /= 10`: the index after the last digit. -/
def storeDigits (n : Int64) (i : ℕ) : MemM ℕ UInt8 ℕ :=
  if _ : 0 < n then do
    MemM.store i (n % 10 + 48).toInt8.toUInt8
    storeDigits (n / 10) (i + 1)
  else pure i
termination_by n.toInt.toNat
decreasing_by
  have hpos : 0 < n.toInt := Int64.lt_iff_toInt_lt.1 ‹0 < n›
  rw [toInt_div_ten ‹0 < n›]
  omega

/-- `while (i > 0) kputc(buffer[--i])`. -/
def kputDigits : ℕ → MemM ℕ UInt8 (List UInt8)
  | 0 => pure []
  | i + 1 => do
    let c ← MemM.load i
    let rest ← kputDigits i
    pure (c :: rest)

def kprintInt (n : Int64) : MemM ℕ UInt8 (List UInt8) :=
  if n = 0 then pure [48]
  else if n < 0 then do
    let i ← storeDigits (-n) 0
    let digits ← kputDigits i
    pure (45 :: digits)
  else do
    let i ← storeDigits n 0
    kputDigits i

end PeanutKernel.Kstdio
