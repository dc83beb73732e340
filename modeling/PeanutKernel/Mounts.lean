import PeanutKernel.Fat12
import PeanutKernel.Iso9660

/-!
# Mounting a floppy or a disc

`fat12_init`, `fat12_read` and `fat12_stat` of `fs/fat12.c` and their counterparts in
`fs/iso9660.c`, with the pointers `fat12_bpb` and `iso_pvd` that tell whether the module is mounted.
Both are set to the buffer of the sector before the sector is checked, and the buffer is freed if
the check fails.

What memory holds once it is freed is up to whoever gets it next: a function that looks at it has no
result here. A path or buffer may be `NULL`.
-/

namespace PeanutKernel

namespace Mounts

/-- A pointer to a block of the heap. -/
inductive HeapPtr (α : Type)
  | null
  | live (a : α)
  | freed
  deriving DecidableEq, Repr

inductive Outcome (α : Type)
  | returns (a : α)
  | usesFreed
  deriving DecidableEq, Repr

section Fat12

open Fat (Fat12Bpb Fat12Read floppyRead fat12Bpb fat12MakeName)

/-- `allocated` tells whether `kalloc` returns a buffer. -/
def fat12Init (allocated : Bool) (bpb : HeapPtr Fat12Bpb) : BlockM (ℤ × HeapPtr Fat12Bpb) := do
  if allocated = false then pure (-1, bpb)
  else match ← floppyRead 0 with
  | none => pure (-1, bpb)
  | some sector =>
    if (fat12Bpb sector).bytesPerSector ≠ 512 then pure (-1, .freed)
    else pure (0, .live (fat12Bpb sector))

/-- The tests `fat12_find_root` starts with, before `fat12_bpb` is looked at. -/
def withRoot {α : Type} (bpb : HeapPtr Fat12Bpb) (path : Option (List UInt8)) (error : α)
    (body : Fat12Bpb → List UInt8 → BlockM α) : BlockM (Outcome α) :=
  match bpb, path with
  | .null, _ => pure (.returns error)
  | _, none => pure (.returns error)
  | .freed, some path =>
    if fat12MakeName path = none then pure (.returns error) else pure .usesFreed
  | .live b, some path => do
    let a ← body b path
    pure (.returns a)

def fat12Read (fuel : ℕ) (bpb : HeapPtr Fat12Bpb) (path : Option (List UInt8)) (buffer : Bool)
    (len : ℕ) : BlockM (Outcome Fat12Read) :=
  if buffer = false then pure (.returns ⟨-1, []⟩)
  else withRoot bpb path ⟨-1, []⟩ fun b path => Fat.fat12Read fuel (some b) path len

def fat12Stat (bpb : HeapPtr Fat12Bpb) (path : Option (List UInt8)) :
    BlockM (Outcome (Option (ℕ × Bool))) :=
  withRoot bpb path none fun b path => Fat.fat12Stat (some b) path

end Fat12

section Iso9660

open Iso (IsoM cdromRead readByte isoLe32 isoFindInDir)

/-- The static variables. `iso_pvd` is never looked behind, it is only compared with `NULL`. -/
structure IsoState where
  isoPvd : HeapPtr Unit
  isoRootLba : ℕ
  isoRootSize : ℕ
  deriving DecidableEq, Repr

/-- The bytes from `i` on are the given ones; the first that is not ends the test. -/
def bytesAre (lba : ℕ) : List UInt8 → ℕ → IsoM Bool
  | [], _ => pure true
  | c :: cs, i => do
    let d ← readByte lba i
    if d ≠ c then pure false else bytesAre lba cs (i + 1)

/-- The type and the identifier of a primary volume descriptor. -/
def pvdSignature : List UInt8 := 1 :: ascii "CD001"

def iso9660Init (allocated : Bool) (s : IsoState) : IsoM (ℤ × IsoState) := do
  if allocated = false then pure (-1, s)
  else
    let read ← cdromRead 16
    if read = false then pure (-1, s)
    else
      let signed ← bytesAre 16 pvdSignature 0
      if signed = false then pure (-1, { s with isoPvd := .freed })
      else
        let rootLba ← isoLe32 16 (156 + 2)
        let rootSize ← isoLe32 16 (156 + 10)
        pure (0, ⟨.live (), rootLba, rootSize⟩)

/-- The return value of `iso9660_read` and the bytes it has stored in the buffer. -/
structure IsoRead where
  ret : ℤ
  bytes : List UInt8
  deriving DecidableEq, Repr

/-- `n` bytes of the buffer from `i` on. -/
def takeBytes (lba : ℕ) : ℕ → ℕ → IsoM (List UInt8)
  | 0, _ => pure []
  | n + 1, i => do
    let b ← readByte lba i
    let bs ← takeBytes lba n (i + 1)
    pure (b :: bs)

/-- The loop of `iso9660_read`, with the number of sectors it has left at most. -/
def copySectors (lba size : ℕ) : ℕ → List UInt8 → IsoM IsoRead
  -- the number of bytes is returned as an `int`
  | 0, bytes => pure ⟨Int.bmod bytes.length (2 ^ 32), bytes⟩
  | n + 1, bytes =>
    if bytes.length < size then do
      let sectorLba := (lba + bytes.length / 2048) % 2 ^ 32
      let read ← cdromRead sectorLba
      if read = false then pure ⟨-1, bytes⟩
      else
        let left := size - bytes.length
        let count := if left < 2048 then left else 2048
        let sector ← takeBytes sectorLba count 0
        copySectors lba size n (bytes ++ sector)
    else pure ⟨Int.bmod bytes.length (2 ^ 32), bytes⟩

def iso9660Read (fuel : ℕ) (s : IsoState) (path : Option (List UInt8)) (buffer : Bool) (len : ℕ) :
    IsoM IsoRead :=
  match path with
  | none => pure ⟨-1, []⟩
  | some path =>
    if s.isoPvd = .null ∨ buffer = false then pure ⟨-1, []⟩
    else do
      let found ← isoFindInDir fuel path s.isoRootLba s.isoRootSize
      match found with
      | none => pure ⟨-1, []⟩
      | some entry =>
        if entry.isDir = true ∨ len < entry.size then pure ⟨-1, []⟩
        else copySectors entry.lba entry.size ((entry.size + 2047) / 2048) []

/-- The size of the file and whether it is a directory; `none` is the error return. -/
def iso9660Stat (fuel : ℕ) (s : IsoState) (path : Option (List UInt8)) :
    IsoM (Option (ℕ × Bool)) :=
  match path with
  | none => pure none
  | some path =>
    if s.isoPvd = .null then pure none
    else do
      let found ← isoFindInDir fuel path s.isoRootLba s.isoRootSize
      match found with
      | none => pure none
      | some entry => pure (some (entry.size, entry.isDir))

end Iso9660

end Mounts

end PeanutKernel
