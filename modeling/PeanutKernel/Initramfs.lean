import PeanutKernel.Lib.Query
import PeanutKernel.Path
import Mathlib.Algebra.Group.Nat.Defs

/-!
# The initramfs

`fs/initramfs.c`. The section is read byte by byte: a program over it is a `Query` whose questions
are offsets from `_initramfs_start`, so its trace is what it has read, inside the section or not.
`uint32_t` arithmetic is taken modulo `2 ^ 32`. A result is the offset of `*data` and `*size`, and
the error return `-1` is `none`. The loop over the members has no bound in the source; it takes
`fuel` and `diverge`s without it.
-/

namespace PeanutKernel

namespace Initramfs

abbrev ByteM := Query ℕ UInt8

def readByte (off : ℕ) : ByteM UInt8 := .ask off pure

/-- Comparing the bytes from `off` on with a constant, up to the first difference. -/
def matchBytes : List UInt8 → ℕ → ByteM Bool
  | [], _ => pure true
  | b :: bs, off => do
    if (← readByte off) = b then matchBytes bs (off + 1) else pure false

/-- `070701` -/
def magic : List UInt8 := [48, 55, 48, 55, 48, 49]

/-- `TRAILER!!!` -/
def trailer : List UInt8 := [84, 82, 65, 73, 76, 69, 82, 33, 33, 33]

def cpioIsNewc (p remain : ℕ) : ByteM Bool :=
  if remain < 6 then pure false else matchBytes magic p

def hexDigit (c : UInt8) : Option ℕ :=
  if 48 ≤ c ∧ c ≤ 57 then some (c.toNat - 48)
  else if 97 ≤ c ∧ c ≤ 102 then some (c.toNat - 97 + 10)
  else if 65 ≤ c ∧ c ≤ 70 then some (c.toNat - 65 + 10)
  else none

/-- The loop of `cpio_hex` over the remaining digits, `v` being the value so far. -/
def cpioHex : ℕ → ℕ → ℕ → ByteM ℕ
  | 0, _, v => pure v
  | n + 1, f, v => do
    match hexDigit (← readByte f) with
    | none => pure 0
    | some d => cpioHex n (f + 1) ((16 * v + d) % 2 ^ 32)

/-- The loop of `name_matches_exec_path`. -/
def matchName : List UInt8 → ℕ → ByteM Bool
  | [], _ => pure true
  | a :: w, off => do
    if upperAscii a = upperAscii (← readByte off) then matchName w (off + 1) else pure false

/-- A path without one leading `/`. -/
def stripSlash : List UInt8 → List UInt8
  | 47 :: w => w
  | w => w

def nameMatchesExecPath (want : List UInt8) (cpioName namesz : ℕ) : ByteM Bool := do
  if namesz < 2 then pure false
  else if (← readByte (cpioName + (namesz - 1))) ≠ 0 then pure false
  else if (stripSlash want).length ≠ namesz - 1 then pure false
  else matchName (stripSlash want) cpioName

def isTrailer (name namesz : ℕ) : ByteM Bool :=
  if namesz ≠ trailer.length + 1 then pure false else matchBytes (trailer ++ [0]) name

/-- `(n + 3) & ~3u` -/
def pad4 (n : ℕ) : ℕ := (n + 3) % 2 ^ 32 / 4 * 4

/-- The loop of `initramfs_find` from the header at `off` on. -/
def findLoop (path : List UInt8) (total : ℕ) : ℕ → ℕ → ByteM (Option (ℕ × ℕ))
  | 0, _ => .diverge
  | fuel + 1, off =>
    if (off + 110) % 2 ^ 32 ≤ total then do
      if (← cpioIsNewc off ((total + 2 ^ 32 - off) % 2 ^ 32)) = false then pure none
      else do
        let namesz ← cpioHex 8 (off + 54) 0
        let filesz ← cpioHex 8 (off + 54 + 8) 0
        if namesz = 0 ∧ filesz = 0 then pure none
        else if total < (off + 110 + pad4 namesz + pad4 filesz) % 2 ^ 32 then pure none
        else if ← isTrailer (off + 110) namesz then pure none
        else if ← nameMatchesExecPath path (off + 110) namesz then
          pure (some (off + 110 + pad4 namesz, filesz))
        else findLoop path total fuel ((off + (110 + pad4 namesz + pad4 filesz)) % 2 ^ 32)
    else pure none

/-- `length` is `_initramfs_end - _initramfs_start`. -/
def initramfsFind (fuel length : ℕ) (path : List UInt8) : ByteM (Option (ℕ × ℕ)) :=
  if length = 0 then pure none else findLoop path (length % 2 ^ 32) fuel 0

end Initramfs

end PeanutKernel
