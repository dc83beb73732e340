import PeanutKernel.Block

/-!
# The Internet checksum

`net_checksum` of `drivers/net/net.c`. Words of 16 bits are read as an x86 processor does, low byte
first, and summed in 32 bits.
-/

namespace PeanutKernel

namespace Net

/-- The two loops that read `count` bytes from `off` on: the words, then a last byte. -/
def sumLoop (data : Buf) : ℕ → ℕ → ℕ → ℕ
  | 0, _, sum => sum
  | 1, off, sum => (sum + (data off).toNat) % 2 ^ 32
  | count + 2, off, sum => sumLoop data count (off + 2) ((sum + le16 data off) % 2 ^ 32)

/-- The loop `while (sum >> 16)`. -/
def foldSum (sum : ℕ) : ℕ :=
  if sum / 2 ^ 16 = 0 then sum else foldSum (sum % 2 ^ 16 + sum / 2 ^ 16)
termination_by sum
decreasing_by omega

def netChecksum (data : Buf) (count : ℕ) : ℕ :=
  (2 ^ 32 - 1 - foldSum (sumLoop data count 0 0)) % 2 ^ 16

/-- The words of a buffer, low byte first; a last byte alone is a word with high byte zero. -/
def wordsOf : List UInt8 → List ℕ
  | [] => []
  | [b] => [b.toNat]
  | b :: b' :: l => (b.toNat + 2 ^ 8 * b'.toNat) :: wordsOf l

/-- `*(uint16_t*)(data + off) = v`. -/
def storeLe16 (data : Buf) (off v : ℕ) : Buf := fun i =>
  if i = off then UInt8.ofNat v else if i = off + 1 then UInt8.ofNat (v / 2 ^ 8) else data i

end Net

end PeanutKernel
