import PeanutKernel.Lib.Overlay
import PeanutKernel.Lib.Query
import Mathlib.Algebra.Group.Nat.Defs
import Mathlib.Data.Int.Notation

/-!
# Block devices

`drivers/block/block.c` over a medium: its bytes, sector `s` holding those from `512 * s` on, and
the sectors the device cannot transfer. A transfer that touches one of those fails as a whole.
Code that only reads is a `Query` whose questions are transfers; code that writes passes the medium
on, with the transfers it handed to `block_write`.

`block_read` fills a buffer the caller owns. A buffer is a function of the index here, zero past
the bytes transferred.
-/

namespace PeanutKernel

abbrev Buf := ℕ → UInt8

structure Medium where
  byte : ℕ → UInt8
  bad : ℕ → Bool

structure Transfer where
  lba : ℕ
  count : ℕ
  deriving DecidableEq, Repr

def Transfer.sectors (t : Transfer) : List ℕ := (List.range t.count).map (t.lba + ·)

def Medium.read (m : Medium) (t : Transfer) : Option Buf :=
  if t.sectors.any m.bad then none
  else some fun i => if i < 512 * t.count then m.byte (512 * t.lba + i) else 0

/-- The byte at `a` once `buf` is stored by the transfer. -/
def storeByte (byte : ℕ → UInt8) (t : Transfer) (buf : Buf) (a : ℕ) : UInt8 :=
  if 512 * t.lba ≤ a ∧ a < 512 * t.lba + 512 * t.count then buf (a - 512 * t.lba) else byte a

/-- The bytes of the list, stored from `a` on. -/
def storeBytes (mem : Buf) (a : ℕ) (l : List UInt8) : Buf := overlay a l.length (l.getD · 0) mem

/-- A byte that a function reads, whose questions are offsets from the pointer it is handed. -/
def readU8 (off : ℕ) : Query ℕ UInt8 ℕ := .ask off fun b => pure b.toNat

abbrev BlockM := Query Transfer (Option Buf)

/-- `none` is the error return. -/
def blockRead (lba count : ℕ) : BlockM (Option Buf) :=
  if count = 0 then pure none else .ask ⟨lba, count⟩ pure

/-- `none` is the error return, with the medium as it was. -/
def blockWrite (m : Medium) (lba count : ℕ) (buf : Buf) : Option Medium :=
  if count = 0 then none
  else if (Transfer.sectors ⟨lba, count⟩).any m.bad then none
  else some { m with byte := storeByte m.byte ⟨lba, count⟩ buf }

/-- What a function that writes leaves: its return value, the medium, and the transfers it passed
to `block_write`, in order. -/
structure Written where
  ret : ℤ
  medium : Medium
  writes : List Transfer

/-- `le16` of the file systems, at an offset of a buffer. -/
def le16 (b : Buf) (off : ℕ) : ℕ := (b off).toNat + 2 ^ 8 * (b (off + 1)).toNat

def le32 (b : Buf) (off : ℕ) : ℕ :=
  (b off).toNat + 2 ^ 8 * (b (off + 1)).toNat + 2 ^ 16 * (b (off + 2)).toNat
    + 2 ^ 24 * (b (off + 3)).toNat

def le64 (b : Buf) (off : ℕ) : ℕ := le32 b off + 2 ^ 32 * le32 b (off + 4)

/-- The C string at the start of a list of bytes: what stands before its first zero. -/
def cstr (l : List UInt8) : List UInt8 := l.takeWhile (· ≠ 0)

/-- The bytes of a string literal. -/
def ascii (s : String) : List UInt8 := s.toList.map fun c => UInt8.ofNat c.toNat

/-- The first `n` bytes of a buffer. -/
def bytesOf (b : Buf) (n : ℕ) : List UInt8 := (List.range n).map b

/-- `buf` with its first bytes replaced by `data`. -/
def patch (buf : Buf) (data : List UInt8) : Buf := fun i =>
  if i < data.length then data.getD i 0 else buf i

end PeanutKernel
