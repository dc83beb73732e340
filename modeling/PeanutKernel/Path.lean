import PeanutKernel.Block

/-!
# Names and paths

What `fs/fat32.c` and `fs/exfat.c` share: names compared without regard to ASCII case, and paths
cut at runs of `/` and `\`.
-/

namespace PeanutKernel

def upperAscii (c : UInt8) : UInt8 := if 97 ≤ c ∧ c ≤ 122 then c - 32 else c

def streqCi : List UInt8 → List UInt8 → Bool
  | [], [] => true
  | a :: as, b :: bs => upperAscii a = upperAscii b && streqCi as bs
  | _, _ => false

def isSeparator (c : UInt8) : Bool := c = 47 || c = 92

/-- The loops of `fat32_find_root` and `exfat_find_root` over the rest of a path: up to the next
separator, then past the run of separators; `n` rounds are enough for `n` characters. -/
def cutComponents : ℕ → List UInt8 → List (List UInt8)
  | 0, _ => []
  | n + 1, p =>
    if p = [] then []
    else p.takeWhile (!isSeparator ·) ::
      cutComponents n ((p.dropWhile (!isSeparator ·)).dropWhile (isSeparator ·))

/-- The components of a path, as the loops cut them off. -/
def components (path : List UInt8) : List (List UInt8) :=
  cutComponents path.length (path.dropWhile (isSeparator ·))

end PeanutKernel
