import PeanutKernel.Fat32
import Mathlib.Data.Int.Notation

/-!
# The FAT12 floppy driver

`fs/fat12.c`. The floppy is the medium of the model, read one sector at a time; the backend of
`floppy_read` in `drivers/block/floppy.c` is a stub. The fields of the boot sector have 16 bits at
most and no sum of sector numbers reaches `2 ^ 32`.

After a failed check `fat12_init` leaves `fat12_bpb` pointing to memory it has freed. Here the
pointer is null or points to the boot sector; `Mounts` has the third case.
-/

namespace PeanutKernel

namespace Fat

def floppyRead (lba : ℕ) : BlockM (Option Buf) := blockRead lba 1

structure Fat12Bpb where
  bytesPerSector : ℕ
  sectorsPerCluster : ℕ
  reservedSectors : ℕ
  numFats : ℕ
  rootEntries : ℕ
  sectorsPerFatSmall : ℕ
  deriving DecidableEq, Repr

structure Fat12Dirent where
  attributes : UInt8
  firstClusterLow : ℕ
  fileSize : ℕ
  deriving DecidableEq, Repr

/-- The boot sector as a `fat12_bpb_t`. -/
def fat12Bpb (sector : Buf) : Fat12Bpb where
  bytesPerSector := le16 sector 11
  sectorsPerCluster := (sector 13).toNat
  reservedSectors := le16 sector 14
  numFats := (sector 16).toNat
  rootEntries := le16 sector 17
  sectorsPerFatSmall := le16 sector 22

/-- A slot as a `fat12_dirent_t`. -/
def fat12Dirent (raw : Buf) : Fat12Dirent where
  attributes := raw 11
  firstClusterLow := le16 raw 26
  fileSize := le32 raw 28

/-- `allocated` tells whether `kalloc` returns a buffer. -/
def fat12Init (allocated : Bool) : BlockM (Option Fat12Bpb) := do
  if allocated = false then pure none
  else match ← floppyRead 0 with
  | none => pure none
  | some sector =>
    if (fat12Bpb sector).bytesPerSector ≠ 512 then pure none else pure (some (fat12Bpb sector))

section Layout

variable (b : Fat12Bpb)

def fat12RootDirSectors : ℕ :=
  (b.rootEntries * 32 + b.bytesPerSector - 1) / b.bytesPerSector % 2 ^ 16

def fat12RootLba : ℕ := b.reservedSectors + b.numFats * b.sectorsPerFatSmall

def fat12DataLba : ℕ := fat12RootLba b + fat12RootDirSectors b

/-- Called for clusters from 2 on. -/
def fat12ClusterLba (cluster : ℕ) : ℕ := fat12DataLba b + (cluster - 2) * b.sectorsPerCluster

def fat12NextCluster (cluster : ℕ) : BlockM ℕ := do
  let fatOffset := cluster + cluster / 2
  let sectorLba := b.reservedSectors + fatOffset / b.bytesPerSector
  let offset := fatOffset % b.bytesPerSector
  let entry (value : ℕ) : ℕ := if cluster % 2 = 1 then value / 2 ^ 4 else value % 2 ^ 12
  match ← floppyRead sectorLba with
  | none => pure fat12Eoc
  | some sector =>
    if offset = b.bytesPerSector - 1 then
      match ← floppyRead (sectorLba + 1) with
      | none => pure fat12Eoc
      | some next => pure (entry ((sector offset).toNat + 2 ^ 8 * (next 0).toNat))
    else pure (entry (le16 sector offset))

end Layout

section Names

/-- A field of a name, filled up with blanks. -/
def blankFilled (n : ℕ) (l : List UInt8) : List UInt8 := l ++ List.replicate (n - l.length) 32

/-- The loop of `fat12_make_name`, with what has been stored of the name and of the extension. -/
def makeNameLoop : List UInt8 → Bool → List UInt8 → List UInt8 → Option (List UInt8)
  | [], _, base, ext => if base = [] then none else some (blankFilled 8 base ++ blankFilled 3 ext)
  | c :: path, inExt, base, ext =>
    if isSeparator c then none
    else if c = 46 then if inExt then none else makeNameLoop path true base ext
    else if inExt = false then
      if 8 ≤ base.length then none else makeNameLoop path inExt (base ++ [upperAscii c]) ext
    else if 3 ≤ ext.length then none
    else makeNameLoop path inExt base (ext ++ [upperAscii c])

def fat12MakeName (path : List UInt8) : Option (List UInt8) :=
  makeNameLoop (path.dropWhile isSeparator) false [] []

def fat12NameMatches (raw : Buf) (name : List UInt8) : Bool :=
  bytesOf raw 8 = name.take 8 && bytesOf (fun i => raw (8 + i)) 3 = name.drop 8

end Names

section Lookup

/-- Where the search stands after some slots. -/
inductive RootScan
  | goOn
  | absent
  | found (raw : Buf)

/-- The loop of `fat12_find_root` over `n` slots of a sector from `off` on. -/
def scanRootSector (sector : Buf) (wanted : List UInt8) : ℕ → ℕ → RootScan
  | 0, _ => .goOn
  | n + 1, off =>
    let raw : Buf := fun i => sector (off + i)
    if raw 0 = 0x00 then .absent
    else if raw 0 = 0xE5 then scanRootSector sector wanted n (off + 32)
    else if isLongName raw then scanRootSector sector wanted n (off + 32)
    else if fat12NameMatches raw wanted then .found raw
    else scanRootSector sector wanted n (off + 32)

/-- The loop of `fat12_find_root` over `n` sectors from `lba` on. -/
def scanRoot (b : Fat12Bpb) (wanted : List UInt8) : ℕ → ℕ → BlockM (Option Fat12Dirent)
  | 0, _ => pure none
  | n + 1, lba => do
    match ← floppyRead lba with
    | none => pure none
    | some sector =>
      match scanRootSector sector wanted ((b.bytesPerSector + 31) / 32) 0 with
      | .goOn => scanRoot b wanted n (lba + 1)
      | .absent => pure none
      | .found raw => pure (some (fat12Dirent raw))

/-- `bpb` is `none` before `fat12_init`. -/
def fat12FindRoot (bpb : Option Fat12Bpb) (path : List UInt8) : BlockM (Option Fat12Dirent) :=
  match bpb, fat12MakeName path with
  | some b, some wanted => scanRoot b wanted (fat12RootDirSectors b) (fat12RootLba b)
  | _, _ => pure none

end Lookup

section Files

/-- The return value of `fat12_read` and the bytes it has stored in the buffer. -/
structure Fat12Read where
  ret : ℤ
  bytes : List UInt8
  deriving DecidableEq, Repr

/-- The loop over `n` sectors of a cluster from `lba` on; `false` after a read error. -/
def readSectors (b : Fat12Bpb) (size : ℕ) : ℕ → ℕ → List UInt8 → BlockM (Bool × List UInt8)
  | 0, _, bytes => pure (true, bytes)
  | n + 1, lba, bytes =>
    if bytes.length < size then do
      match ← floppyRead lba with
      | none => pure (false, bytes)
      | some sector =>
        let left := size - bytes.length
        let count := if left < b.bytesPerSector then left else b.bytesPerSector
        readSectors b size n (lba + 1) (bytes ++ bytesOf sector count)
    else pure (true, bytes)

/-- The loop of `fat12_read`. A cluster of no sectors copies nothing, so the size of the file does
not bound the rounds. -/
def fat12ReadLoop (b : Fat12Bpb) (size : ℕ) : ℕ → ℕ → List UInt8 → BlockM Fat12Read
  | 0, _, _ => .diverge
  | fuel + 1, cluster, bytes =>
    if 2 ≤ cluster ∧ cluster < fat12Eoc ∧ bytes.length < size then do
      match ← readSectors b size b.sectorsPerCluster (fat12ClusterLba b cluster) bytes with
      | (false, bytes) => pure ⟨-1, bytes⟩
      | (true, bytes) =>
        let next ← fat12NextCluster b cluster
        fat12ReadLoop b size fuel next bytes
    -- the number of bytes is returned as an `int`
    else pure ⟨if bytes.length = size then Int.bmod bytes.length (2 ^ 32) else -1, bytes⟩

def fat12Read (fuel : ℕ) (bpb : Option Fat12Bpb) (path : List UInt8) (len : ℕ) :
    BlockM Fat12Read := do
  match bpb, ← fat12FindRoot bpb path with
  | some b, some file =>
    if file.attributes &&& attrDirectory ≠ 0 then pure ⟨-1, []⟩
    else if len < file.fileSize then pure ⟨-1, []⟩
    else fat12ReadLoop b file.fileSize fuel file.firstClusterLow []
  | _, _ => pure ⟨-1, []⟩

/-- The size of the file and whether it is a directory; `none` is the error return. -/
def fat12Stat (bpb : Option Fat12Bpb) (path : List UInt8) : BlockM (Option (ℕ × Bool)) := do
  match ← fat12FindRoot bpb path with
  | none => pure none
  | some file => pure (some (file.fileSize, file.attributes &&& attrDirectory ≠ 0))

end Files

end Fat

end PeanutKernel
