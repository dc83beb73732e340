import PeanutKernel.Partition

/-!
# The ext driver

`fs/extfs.c`. `uint64_t` sector numbers and byte offsets are taken modulo `2 ^ 64`, `uint32_t`
values modulo `2 ^ 32`; an error return `-1` is `none`. The shift by `s_log_block_size` takes the
five bits the processor takes.

The buffers of the source hold what earlier calls left in them past the bytes just read; they are
zero there in the model. No well-formed inode, extent node or directory block is read that far.
An extent tree is followed down by the depth each node states, so `map_extents_recurse` takes
`fuel` and `diverge`s without it.
-/

namespace PeanutKernel

namespace Ext

structure ExtVolume where
  partition : Partition
  blockSize : ℕ
  blocksPerGroup : ℕ
  inodesPerGroup : ℕ
  inodeSize : ℕ
  firstDataBlock : ℕ
  groupDescLba : ℕ
  groupDescOff : ℕ
  groups : ℕ
  deriving DecidableEq, Repr

def superMagic : ℕ := 0xEF53

def modeDir : ℕ := 0x4000

def modeReg : ℕ := 0x8000

def extentsFl : ℕ := 0x80000

/-- `EXT_FEATURE_INCOMPAT_64BIT | EXT_FEATURE_INCOMPAT_META_CSUM`. -/
def incompatRejected : ℕ := 0x80 ||| 0x10

section Bytes

def partBytesToLba (firstLba byteOff : ℕ) : ℕ := (firstLba + byteOff / 512) % 2 ^ 64

/-- The loop of `read_bytes` with `left` bytes to go; `n` rounds are enough if `left ≤ n`. -/
def readLoop (firstLba : ℕ) : ℕ → ℕ → ℕ → BlockM (Option (List UInt8))
  | n, pos, left =>
    if left = 0 then pure (some [])
    else match n with
      | 0 => .diverge
      | n + 1 => do
        match ← blockRead (partBytesToLba firstLba pos) 1 with
        | none => pure none
        | some sec =>
          let inSec := pos % 512
          let take := min (512 - inSec) left
          let rest ← readLoop firstLba n ((pos + take) % 2 ^ 64) (left - take)
          pure (rest.map (bytesOf (fun i => sec (inSec + i)) take ++ ·))

def readBytes (firstLba off len : ℕ) : BlockM (Option Buf) := do
  let l ← readLoop firstLba len off len
  pure (l.map fun l i => l.getD i 0)

/-- `sec` with `data` from `off` on. -/
def patchAt (sec : Buf) (off : ℕ) (data : List UInt8) : Buf := fun i =>
  if off ≤ i ∧ i < off + data.length then data.getD (i - off) 0 else sec i

/-- The loop of `write_bytes`, `data` being what is still to be written; `n` rounds are enough if
`data` is no longer than that. A sector that is written as a whole is not read before. -/
def writeLoop (firstLba : ℕ) :
    ℕ → ℕ → List UInt8 → Medium → List Transfer → Option Written
  | n, pos, data, m, writes =>
    if data = [] then some ⟨0, m, writes⟩
    else match n with
      | 0 => none
      | n + 1 =>
        let lba := partBytesToLba firstLba pos
        let inSec := pos % 512
        let take := min (512 - inSec) data.length
        let sec := if take ≠ 512 then m.read ⟨lba, 1⟩ else some fun _ => 0
        match sec with
        | none => some ⟨-1, m, writes⟩
        | some sec =>
          let writes := writes ++ [⟨lba, 1⟩]
          match blockWrite m lba 1 (patchAt sec inSec (data.take take)) with
          | none => some ⟨-1, m, writes⟩
          | some m => writeLoop firstLba n ((pos + take) % 2 ^ 64) (data.drop take) m writes

def writeBytes (firstLba off : ℕ) (data : List UInt8) (m : Medium) (writes : List Transfer) :
    Option Written :=
  writeLoop firstLba data.length off data m writes

end Bytes

section Mount

def extfsMount (p : Partition) : BlockM (Option ExtVolume) := do
  match ← readBytes p.firstLba 1024 1024 with
  | none => pure none
  | some sb =>
    if le16 sb 56 ≠ superMagic then pure none
    else
      let blockSize := 1024 * 2 ^ (le32 sb 24 % 32) % 2 ^ 32
      let blocksPerGroup := le32 sb 32
      let inodesPerGroup := le32 sb 40
      let inodeSize := le16 sb 88
      let firstDataBlock := le32 sb 20
      let totalBlocks := le32 sb 4
      if blockSize < 1024 ∨ 4096 < blockSize then pure none
      else if inodeSize < 128 ∨ 512 < inodeSize then pure none
      else if blocksPerGroup = 0 ∨ inodesPerGroup = 0 ∨ totalBlocks = 0 then pure none
      else if le32 sb 96 &&& incompatRejected ≠ 0 then pure none
      else
        let gdTableByte := (firstDataBlock + 1) % 2 ^ 32 * blockSize
        pure (some {
          partition := p
          blockSize := blockSize
          blocksPerGroup := blocksPerGroup
          inodesPerGroup := inodesPerGroup
          inodeSize := inodeSize
          firstDataBlock := firstDataBlock
          groupDescLba := (p.firstLba + gdTableByte / 512) % 2 ^ 32
          groupDescOff := gdTableByte % 512
          groups := (totalBlocks + blocksPerGroup - 1) % 2 ^ 32 / blocksPerGroup })

end Mount

section Inodes

def readGroupDesc (v : ExtVolume) (group : ℕ) : BlockM (Option Buf) :=
  let first := v.partition.firstLba
  let sectors := (v.groupDescLba + (2 ^ 64 - first % 2 ^ 64)) % 2 ^ 64
  readBytes first ((sectors * 512 + (v.groupDescOff + group * 32)) % 2 ^ 64) 32

def readInodeRaw (v : ExtVolume) (inode outLen : ℕ) : BlockM (Option Buf) := do
  if inode = 0 then pure none
  else
    let group := (inode - 1) / v.inodesPerGroup
    let index := (inode - 1) % v.inodesPerGroup
    if v.groups ≤ group then pure none
    else match ← readGroupDesc v group with
      | none => pure none
      | some gd =>
        let inodeOff := le32 gd 8 * v.blockSize + index * v.inodeSize
        readBytes v.partition.firstLba inodeOff (min outLen v.inodeSize)

def inodeMode (inode : Buf) : ℕ := le16 inode 0

def inodeFlags (inode : Buf) : ℕ := le32 inode 32

def inodeSizeBytes (inode : Buf) : ℕ := le32 inode 4 + 2 ^ 32 * le32 inode 108

def inodeBlockPtr (inode : Buf) (i : ℕ) : ℕ := le32 inode (40 + i * 4)

end Inodes

section Map

def readU32Block (v : ExtVolume) (block idx : ℕ) : BlockM ℕ := do
  match ← readBytes v.partition.firstLba (block * v.blockSize + idx / 128 * 512) 512 with
  | none => pure 0
  | some sec => pure (le32 sec (idx % 128 * 4))

def mapIndirect (v : ExtVolume) (inode : Buf) (lbn : ℕ) : BlockM ℕ := do
  let per := v.blockSize / 4
  if lbn < 12 then pure (inodeBlockPtr inode lbn)
  else if lbn - 12 < per then
    let ib := inodeBlockPtr inode 12
    if ib = 0 then pure 0 else readU32Block v ib (lbn - 12)
  else if lbn - 12 - per < per * per then
    let lbn := lbn - 12 - per
    let dib := inodeBlockPtr inode 13
    if dib = 0 then pure 0
    else do
      let a ← readU32Block v dib (lbn / per)
      if a = 0 then pure 0 else readU32Block v a (lbn % per)
  else
    let lbn := lbn - 12 - per - per * per
    let tib := inodeBlockPtr inode 14
    if tib = 0 then pure 0
    else do
      let a ← readU32Block v tib (lbn / (per * per))
      if a = 0 then pure 0
      else do
        let b ← readU32Block v a (lbn / per % per)
        if b = 0 then pure 0 else readU32Block v b (lbn % per)

def extentMagic : ℕ := 0xF30A

def nodeMagic (node : Buf) : ℕ := le16 node 0

def nodeEntries (node : Buf) : ℕ := le16 node 2

def nodeDepth (node : Buf) : ℕ := le16 node 6

/-- Entry `i` of a node, after the 12 bytes of its header. -/
def nodeEntry (node : Buf) (i : ℕ) : Buf := fun j => node (12 + 12 * i + j)

/-- The block an extent of a leaf maps `lbn` to, if it covers it. -/
def extentBlock (ex : Buf) (lbn : ℕ) : Option ℕ :=
  let start := le32 ex 0
  let len := le16 ex 4 % 2 ^ 15
  if lbn < start ∨ (start + len) % 2 ^ 32 ≤ lbn then none
  else some (((le32 ex 8 ||| le16 ex 6 * 2 ^ 16) + (lbn - start)) % 2 ^ 32)

def leafBlock (node : Buf) (lbn : ℕ) : ℕ :=
  ((List.range (nodeEntries node)).findSome? fun i => extentBlock (nodeEntry node i) lbn).getD 0

/-- The index entry to descend by: the last one that starts at or before `lbn`, or the first. -/
def pickIndex (node : Buf) (lbn : ℕ) : ℕ :=
  (List.range (nodeEntries node)).foldl
    (fun pick i => if le32 (nodeEntry node i) 0 ≤ lbn then i else pick) 0

def readBlockFull (v : ExtVolume) (block : ℕ) : BlockM (Option Buf) :=
  readBytes v.partition.firstLba (block * v.blockSize) v.blockSize

def mapExtentsRecurse (v : ExtVolume) (lbn : ℕ) : ℕ → Buf → BlockM ℕ
  | fuel, node =>
    if nodeMagic node ≠ extentMagic then pure 0
    else if nodeDepth node = 0 then pure (leafBlock node lbn)
    else match fuel with
      | 0 => .diverge
      | fuel + 1 => do
        let ix := nodeEntry node (pickIndex node lbn)
        if 4096 < v.blockSize then pure 0
        else match ← readBlockFull v (le32 ix 4 ||| le16 ix 8 * 2 ^ 16) with
          | none => pure 0
          | some buf => mapExtentsRecurse v lbn fuel buf

def mapBlock (fuel : ℕ) (v : ExtVolume) (inode : Buf) (lbn : ℕ) : BlockM ℕ :=
  if inodeFlags inode &&& extentsFl ≠ 0 then
    mapExtentsRecurse v lbn fuel fun i => inode (40 + i)
  else mapIndirect v inode lbn

end Map

section Lookup

/-- The number of blocks of a file or directory, as the loops over them count. -/
def blockCount (v : ExtVolume) (size : ℕ) : ℕ :=
  (size + v.blockSize - 1) % 2 ^ 64 / v.blockSize % 2 ^ 32

/-- The loop of `read_dir_entries` over the records of a block from `off` on, up to a record with
the name; `n` rounds are enough if `8 * n` bytes are left. -/
def scanRecords (blk : Buf) (blockSize : ℕ) (name : List UInt8) : ℕ → ℕ → Option ℕ
  | 0, _ => none
  | n + 1, off =>
    if off + 8 ≤ blockSize then
      let ino := le32 blk off
      let rec' := le16 blk (off + 4)
      let nlen := (blk (off + 6)).toNat
      if rec' < 8 ∨ blockSize < off + rec' then none
      else if ino ≠ 0 ∧ nlen ≠ 0 ∧ cstr (bytesOf (fun i => blk (off + 8 + i)) nlen) = name then
        some ino
      else scanRecords blk blockSize name n (off + rec')
    else none

/-- The loop of `read_dir_entries` over `n` blocks from block `b` on. -/
def scanBlocks (fuel : ℕ) (v : ExtVolume) (dir : Buf) (name : List UInt8) :
    ℕ → ℕ → BlockM (Option ℕ)
  | 0, _ => pure none
  | n + 1, b => do
    let pb ← mapBlock fuel v dir b
    if pb = 0 then pure none
    else match ← readBlockFull v pb with
      | none => pure none
      | some blk =>
        match scanRecords blk v.blockSize name v.blockSize 0 with
        | some ino => pure (some ino)
        | none => scanBlocks fuel v dir name n (b + 1)

def readDirEntries (fuel : ℕ) (v : ExtVolume) (dirInode : ℕ) (name : List UInt8)
    (wantDir : Bool) : BlockM (Option ℕ) := do
  match ← readInodeRaw v dirInode 256 with
  | none => pure none
  | some dir =>
    if inodeMode dir &&& modeDir = 0 then pure none
    else if 4096 < v.blockSize then pure none
    else match ← scanBlocks fuel v dir name (blockCount v (inodeSizeBytes dir)) 0 with
      | none => pure none
      | some ino =>
        if wantDir then
          match ← readInodeRaw v ino 256 with
          | none => pure none
          | some child => pure (if inodeMode child &&& modeDir = 0 then none else some ino)
        else pure (some ino)

/-- The loop of `extfs_find_root` from inode `cur` with the rest of the path; each round takes at
least one character off it, so `n` rounds are enough for `n` characters. -/
def findFrom (fuel : ℕ) (v : ExtVolume) : ℕ → ℕ → List UInt8 → BlockM (Option ℕ)
  | n, cur, path =>
    if path = [] then pure (some cur)
    else match n with
      | 0 => .diverge
      | n + 1 => do
        let comp := path.takeWhile (· ≠ 47)
        let rest := (path.dropWhile (· ≠ 47)).dropWhile (· = 47)
        if 256 ≤ comp.length then pure none
        else match ← readDirEntries fuel v cur comp (rest ≠ []) with
          | none => pure none
          | some next => findFrom fuel v n next rest

def rootInode : ℕ := 2

def extfsFindRoot (fuel : ℕ) (v : ExtVolume) (path : List UInt8) : BlockM (Option ℕ) :=
  let path := if path.head? = some 47 then path.tail else path
  findFrom fuel v path.length rootInode path

end Lookup

section Files

/-- What `extfs_read_file` and `extfs_write_file` do first: the inode of a regular file. -/
def openRegular (fuel : ℕ) (v : ExtVolume) (path : List UInt8) : BlockM (Option Buf) := do
  match ← extfsFindRoot fuel v path with
  | none => pure none
  | some ino =>
    match ← readInodeRaw v ino 256 with
    | none => pure none
    | some inode => pure (if inodeMode inode &&& modeReg = 0 then none else some inode)

/-- The size of a file and whether it is a directory. -/
def extfsStat (fuel : ℕ) (v : ExtVolume) (path : List UInt8) : BlockM (Option (ℕ × Bool)) := do
  match ← extfsFindRoot fuel v path with
  | none => pure none
  | some ino =>
    match ← readInodeRaw v ino 256 with
    | none => pure none
    | some inode => pure (some (inodeSizeBytes inode, inodeMode inode &&& modeDir ≠ 0))

/-- The loop of `extfs_read_file` over `n` blocks from block `b` on, `copied` bytes done. -/
def readBlocks (fuel : ℕ) (v : ExtVolume) (inode : Buf) (size : ℕ) :
    ℕ → ℕ → ℕ → BlockM (Option (List UInt8))
  | 0, _, _ => pure (some [])
  | n + 1, b, copied => do
    let pb ← mapBlock fuel v inode b
    if pb = 0 then pure none
    else match ← readBlockFull v pb with
      | none => pure none
      | some blk =>
        let take := if size < copied + v.blockSize then size - copied else v.blockSize
        let rest ← readBlocks fuel v inode size n (b + 1) (copied + take)
        pure (rest.map (bytesOf blk take ++ ·))

/-- The bytes stored in the buffer, `bytes_read` of them. -/
def extfsReadFile (fuel : ℕ) (v : ExtVolume) (path : List UInt8) (bufferSize : ℕ) :
    BlockM (Option (List UInt8)) := do
  match ← openRegular fuel v path with
  | none => pure none
  | some inode =>
    let size := inodeSizeBytes inode
    if bufferSize < size then pure none
    else if 4096 < v.blockSize then pure none
    else readBlocks fuel v inode size (blockCount v size) 0 0

/-- The loop of `extfs_write_file` over `n` blocks from block `b` on. -/
def writeBlocks (fuel : ℕ) (v : ExtVolume) (inode : Buf) (size : ℕ) (buffer : List UInt8) :
    ℕ → ℕ → ℕ → Medium → List Transfer → Option Written
  | 0, _, written, m, writes => some ⟨if written = buffer.length then 0 else -1, m, writes⟩
  | n + 1, b, written, m, writes =>
    match (mapBlock fuel v inode b).run m.read with
    | none => none
    | some pb =>
      if pb = 0 then some ⟨-1, m, writes⟩
      else match (readBlockFull v pb).run m.read with
        | none => none
        | some none => some ⟨-1, m, writes⟩
        | some (some blk) =>
          let take := if size < written + v.blockSize then size - written else v.blockSize
          let blk := patch blk ((buffer.drop written).take take)
          match writeBytes v.partition.firstLba (pb * v.blockSize) (bytesOf blk v.blockSize) m
            writes with
          | none => none
          | some w =>
            if w.ret ≠ 0 then some ⟨-1, w.medium, w.writes⟩
            else
              let written := written + take
              if buffer.length ≤ written then
                some ⟨if written = buffer.length then 0 else -1, w.medium, w.writes⟩
              else writeBlocks fuel v inode size buffer n (b + 1) written w.medium w.writes

/-- `none` when the lookup or the mapping of a block does not return. -/
def extfsWriteFile (fuel : ℕ) (v : ExtVolume) (path buffer : List UInt8) (m : Medium) :
    Option Written :=
  match (openRegular fuel v path).run m.read with
  | none => none
  | some none => some ⟨-1, m, []⟩
  | some (some inode) =>
    let size := inodeSizeBytes inode
    if size < buffer.length then some ⟨-1, m, []⟩
    else if size = 0 then some ⟨if buffer.length = 0 then 0 else -1, m, []⟩
    else if 4096 < v.blockSize then some ⟨-1, m, []⟩
    else writeBlocks fuel v inode size buffer (blockCount v size) 0 0 m []

/-- The call up to at most `rounds` rounds of its loop, so that what it has written before a block
whose mapping does not return is there too. -/
def extfsWriteUpTo (rounds fuel : ℕ) (v : ExtVolume) (path buffer : List UInt8) (m : Medium) :
    Option Written :=
  match (openRegular fuel v path).run m.read with
  | none => none
  | some none => some ⟨-1, m, []⟩
  | some (some inode) =>
    let size := inodeSizeBytes inode
    if size < buffer.length then some ⟨-1, m, []⟩
    else if size = 0 then some ⟨if buffer.length = 0 then 0 else -1, m, []⟩
    else if 4096 < v.blockSize then some ⟨-1, m, []⟩
    else writeBlocks fuel v inode size buffer (min rounds (blockCount v size)) 0 0 m []

end Files

end Ext

end PeanutKernel
