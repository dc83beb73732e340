import PeanutKernel.Partition
import PeanutKernel.Cluster
import PeanutKernel.Path
import Mathlib.Logic.Function.Basic

/-!
# The FAT driver

`fs/fat32.c` for FAT12, FAT16 and FAT32, with the write options of the default configuration.
`uint32_t` arithmetic that can wrap is taken modulo `2 ^ 32`; names and paths are the bytes before
their terminator; an error return `-1` is `none`.

Following a cluster chain through a directory has no bound in the source, so the listing loops
take `fuel` and `diverge` without it.
-/

namespace PeanutKernel

namespace Fat

inductive FatType
  | fat12
  | fat16
  | fat32
  deriving DecidableEq, Repr

structure Fat32Volume where
  partition : Partition
  fatType : FatType
  fatStartLba : ℕ
  dataStartLba : ℕ
  rootDirLba : ℕ
  rootDirSectors : ℕ
  rootCluster : ℕ
  sectorsPerFat : ℕ
  sectorsPerCluster : ℕ
  rootEntryCount : ℕ
  deriving DecidableEq, Repr

structure Fat32DirEntry where
  name : List UInt8
  attributes : UInt8
  firstCluster : ℕ
  size : ℕ
  deriving DecidableEq, Repr

def fat12Eoc : ℕ := 0x0FF8

def fat16Eoc : ℕ := 0xFFF8

def fat32Eoc : ℕ := 0x0FFFFFF8

def attrLongName : UInt8 := 0x0F

def attrDirectory : UInt8 := 0x10

/-- `FAT32_MAX_NAME`, the size of a name with its terminator. -/
def maxName : ℕ := 64

section Clusters

def clusterLba (v : Fat32Volume) (cluster : ℕ) : ℕ :=
  (v.dataStartLba + (cluster + (2 ^ 32 - 2)) % 2 ^ 32 * v.sectorsPerCluster) % 2 ^ 32

def readCluster (v : Fat32Volume) (cluster : ℕ) : BlockM (Option Buf) :=
  blockRead (clusterLba v cluster) v.sectorsPerCluster

def fatOffset (v : Fat32Volume) (cluster : ℕ) : ℕ :=
  match v.fatType with
  | .fat12 => (cluster + cluster / 2) % 2 ^ 32
  | .fat16 => cluster * 2 % 2 ^ 32
  | .fat32 => cluster * 4 % 2 ^ 32

/-- The value of a FAT12 entry from the two bytes it lies in. -/
def fat12Value (cluster val : ℕ) : ℕ :=
  let val := if cluster % 2 = 1 then val / 2 ^ 4 else val % 2 ^ 12
  if fat12Eoc ≤ val then fat32Eoc else val

def nextCluster (v : Fat32Volume) (cluster : ℕ) : BlockM ℕ := do
  let sectorIndex := fatOffset v cluster / 512
  let entryOffset := fatOffset v cluster % 512
  match ← blockRead ((v.fatStartLba + sectorIndex) % 2 ^ 32) 1 with
  | none => pure fat32Eoc
  | some sector =>
    match v.fatType with
    | .fat12 =>
      if entryOffset = 511 then
        match ← blockRead ((v.fatStartLba + sectorIndex + 1) % 2 ^ 32) 1 with
        | none => pure fat12Eoc
        | some next =>
          pure (fat12Value cluster ((sector entryOffset).toNat + 2 ^ 8 * (next 0).toNat))
      else pure (fat12Value cluster (le16 sector entryOffset))
    | .fat16 =>
      let val := le16 sector entryOffset
      pure (if fat16Eoc ≤ val then fat32Eoc else val)
    | .fat32 => pure (le32 sector entryOffset % 2 ^ 28)

/-- The loops over a file's clusters stop at an end-of-chain mark alone. -/
def Fat32Volume.clusters (v : Fat32Volume) : ClusterMap where
  enters cluster := cluster < fat32Eoc
  lba cluster := some (clusterLba v cluster)
  next := nextCluster v
  sectorsPerCluster := v.sectorsPerCluster

end Clusters

section Mount

/-- The geometry `fat32_mount` computes from the boot sector. -/
def geometry (sector : Buf) : ℕ × ℕ × ℕ × ℕ × ℕ :=
  let spf16 := le16 sector 22
  let total16 := le16 sector 19
  let rootEntries := le16 sector 17
  let sectorsPerFat := if spf16 ≠ 0 then spf16 else le32 sector 36
  let totalSectors := if total16 ≠ 0 then total16 else le32 sector 32
  let rootDirSectors := (rootEntries * 32 + 511) / 512
  let rootCluster := if rootEntries ≠ 0 then 0 else le32 sector 44
  let used := (le16 sector 14 + (sector 16).toNat * sectorsPerFat + rootDirSectors) % 2 ^ 32
  let dataSectors := (totalSectors + 2 ^ 32 - used) % 2 ^ 32
  (sectorsPerFat, totalSectors, rootDirSectors, rootCluster, dataSectors)

def fatTypeOf (clusterCount : ℕ) : FatType :=
  if clusterCount < 4085 then .fat12 else if clusterCount < 65525 then .fat16 else .fat32

def fat32Mount (p : Partition) : BlockM (Option Fat32Volume) := do
  if partitionIsFat p = false then pure none
  else match ← blockRead p.firstLba 1 with
  | none => pure none
  | some sector =>
    if sector 510 ≠ 0x55 ∨ sector 511 ≠ 0xAA then pure none
    else if le16 sector 11 ≠ 512 then pure none
    else
      let sectorsPerCluster := (sector 13).toNat
      let fatCount := (sector 16).toNat
      let (sectorsPerFat, totalSectors, rootDirSectors, rootCluster, dataSectors) :=
        geometry sector
      if sectorsPerCluster = 0 ∨ fatCount = 0 ∨ sectorsPerFat = 0 ∨ totalSectors = 0 then pure none
      else
        let fatType := fatTypeOf (dataSectors / sectorsPerCluster)
        if fatType = .fat32 ∧ rootCluster < 2 then pure none
        else
          let fatStartLba := (p.firstLba + le16 sector 14) % 2 ^ 32
          let rootDirLba := (fatStartLba + fatCount * sectorsPerFat) % 2 ^ 32
          pure (some {
            partition := p
            fatType := fatType
            fatStartLba := fatStartLba
            dataStartLba := (rootDirLba + rootDirSectors) % 2 ^ 32
            rootDirLba := rootDirLba
            rootDirSectors := rootDirSectors
            rootCluster := rootCluster
            sectorsPerFat := sectorsPerFat
            sectorsPerCluster := sectorsPerCluster
            rootEntryCount := le16 sector 17 })

end Mount

section Names

def makeShortName (raw : Buf) : List UInt8 :=
  let base := (bytesOf raw 8).takeWhile (· ≠ 32)
  let ext := (bytesOf (fun i => raw (8 + i)) 3).takeWhile (· ≠ 32)
  cstr (base ++ if raw 8 ≠ 32 then 46 :: ext else [])

/-- What `parse_entry` makes of a slot: `0`, `-1`, or `1` with the entry. -/
inductive Parsed
  | stop
  | skip
  | entry (e : Fat32DirEntry)

def isLongName (raw : Buf) : Prop := raw 11 &&& attrLongName = attrLongName

instance (raw : Buf) : Decidable (isLongName raw) := inferInstanceAs (Decidable (_ = _))

def parseEntry (raw : Buf) : Parsed :=
  if raw 0 = 0x00 then .stop
  else if raw 0 = 0xE5 then .skip
  else if isLongName raw then .skip
  else .entry {
    name := makeShortName raw
    attributes := raw 11
    firstCluster := 2 ^ 16 * le16 raw 20 + le16 raw 26
    size := le32 raw 28 }

abbrev Lfn := ℕ → UInt8

def clearLfn (lfn : Lfn) : Lfn := Function.update lfn 0 0

def lfnOffsets : List ℕ := [1, 3, 5, 7, 9, 14, 16, 18, 20, 22, 24, 28, 30]

/-- The loop of `parse_lfn_entry` over the remaining offsets, the next unit going to `pos`. -/
def storeUnits (raw : Buf) (lfnSize : ℕ) : List ℕ → ℕ → Lfn → Lfn
  | [], _, lfn => lfn
  | off :: offs, pos, lfn =>
    if pos + 1 < lfnSize then
      let ch := le16 raw off
      if ch = 0x0000 ∨ ch = 0xFFFF then Function.update lfn pos 0
      else
        let lfn := Function.update lfn pos (if ch < 128 then UInt8.ofNat ch else 63)
        storeUnits raw lfnSize offs (pos + 1) (Function.update lfn (pos + 1) 0)
    else lfn

def parseLfnEntry (raw : Buf) (lfn : Lfn) (lfnSize : ℕ) : Lfn :=
  let seq := (raw 0 &&& 0x1F).toNat
  if lfnSize = 0 ∨ seq = 0 then lfn
  else
    let lfn := if raw 0 &&& 0x40 ≠ 0 then clearLfn lfn else lfn
    storeUnits raw lfnSize lfnOffsets ((seq - 1) * 13) lfn

/-- What `copy_name` takes over from the long-name buffer. -/
def lfnName (lfn : Lfn) : List UInt8 := cstr (bytesOf lfn (maxName - 1))

end Names

section Listing

/-- A listing in progress: the long-name buffer, the entries so far, and whether the end mark has
been met. -/
structure DirScan where
  lfn : Lfn
  entries : List Fat32DirEntry
  stop : Bool

def scanSlot (raw : Buf) (s : DirScan) : DirScan :=
  if isLongName raw then { s with lfn := parseLfnEntry raw s.lfn maxName }
  else match parseEntry raw with
    | .stop => { s with stop := true }
    | .skip => { s with lfn := clearLfn s.lfn }
    | .entry e =>
      if s.lfn 0 ≠ 0 then
        { s with
          lfn := clearLfn s.lfn
          entries := s.entries ++ [{ e with name := lfnName s.lfn }] }
      else { s with entries := s.entries ++ [e] }

/-- The loop over `n` slots of a buffer from `off` on. -/
def scanSlots (buf : Buf) (maxEntries : ℕ) : ℕ → ℕ → DirScan → DirScan
  | 0, _, s => s
  | n + 1, off, s =>
    if s.stop = false ∧ s.entries.length < maxEntries then
      scanSlots buf maxEntries n (off + 32) (scanSlot (fun i => buf (off + i)) s)
    else s

def emptyLfn : Lfn := fun _ => 0

/-- The loop `fat32_list_root` (on FAT32) and `list_cluster_entries` share. -/
def listChain (v : Fat32Volume) (maxEntries : ℕ) :
    ℕ → ℕ → List Fat32DirEntry → BlockM (List Fat32DirEntry)
  | 0, _, _ => .diverge
  | fuel + 1, cluster, entries =>
    if cluster < fat32Eoc ∧ entries.length < maxEntries then do
      match ← readCluster v cluster with
      | none => pure entries
      | some buf =>
        let s := scanSlots buf maxEntries (v.sectorsPerCluster * 16) 0 ⟨emptyLfn, entries, false⟩
        if s.stop then pure s.entries
        else do
          let next ← nextCluster v cluster
          listChain v maxEntries fuel next s.entries
    else pure entries

/-- The loop of `fat32_list_root` over `n` sectors of a fixed root directory, from sector `i`. -/
def listFixedRoot (v : Fat32Volume) (maxEntries : ℕ) :
    ℕ → ℕ → DirScan → BlockM (List Fat32DirEntry)
  | 0, _, s => pure s.entries
  | n + 1, i, s =>
    if s.entries.length < maxEntries then do
      match ← blockRead ((v.rootDirLba + i) % 2 ^ 32) 1 with
      | none => pure s.entries
      | some buf =>
        let s := scanSlots buf maxEntries 16 0 s
        if s.stop then pure s.entries else listFixedRoot v maxEntries n (i + 1) s
    else pure s.entries

def fat32ListRoot (fuel : ℕ) (v : Fat32Volume) (maxEntries : ℕ) :
    BlockM (List Fat32DirEntry) :=
  if maxEntries = 0 ∨ 8 < v.sectorsPerCluster then pure []
  else if v.fatType ≠ .fat32 then
    listFixedRoot v maxEntries v.rootDirSectors 0 ⟨emptyLfn, [], false⟩
  else listChain v maxEntries fuel v.rootCluster []

def listClusterEntries (fuel : ℕ) (v : Fat32Volume) (cluster maxEntries : ℕ) :
    BlockM (List Fat32DirEntry) :=
  if 8 < v.sectorsPerCluster then pure [] else listChain v maxEntries fuel cluster []

end Listing

section Lookup

def findEntry (name : List UInt8) (entries : List Fat32DirEntry) : Option Fat32DirEntry :=
  entries.find? fun e => streqCi e.name name

def fat32FindInDir (fuel : ℕ) (v : Fat32Volume) (dirCluster : ℕ) (name : List UInt8) :
    BlockM (Option Fat32DirEntry) := do
  let entries ← listClusterEntries fuel v dirCluster 64
  pure (findEntry name entries)

/-- The loop of `fat32_find_root` over the components; `dir` is `none` in the root directory. -/
def findComponents (fuel : ℕ) (v : Fat32Volume) :
    Option ℕ → List (List UInt8) → BlockM (Option Fat32DirEntry)
  | _, [] => pure none
  | dir, component :: rest =>
    if maxName ≤ component.length then pure none
    else do
      let found ← match dir with
        | none => do
          let entries ← fat32ListRoot fuel v 64
          pure (findEntry component entries)
        | some dirCluster => fat32FindInDir fuel v dirCluster component
      match found with
      | none => pure none
      | some current =>
        if rest = [] then pure (some current)
        else if current.attributes &&& attrDirectory = 0 then pure none
        else findComponents fuel v (some current.firstCluster) rest

def fat32FindRoot (fuel : ℕ) (v : Fat32Volume) (path : List UInt8) :
    BlockM (Option Fat32DirEntry) :=
  findComponents fuel v none (components path)

end Lookup

section Files

/-- The bytes stored in the buffer, `bytes_read` of them. -/
def fat32ReadFile (fuel : ℕ) (v : Fat32Volume) (name : List UInt8) (bufferSize : ℕ) :
    BlockM (Option (List UInt8)) := do
  match ← fat32FindRoot fuel v name with
  | none => pure none
  | some file =>
    if file.attributes &&& attrDirectory ≠ 0 then pure none
    else if bufferSize < file.size ∨ 8 < v.sectorsPerCluster then pure none
    else v.clusters.readChain file.size file.size file.firstCluster

/-- `none` when the lookup does not return. -/
def fat32WriteFile (fuel : ℕ) (v : Fat32Volume) (name data : List UInt8) (m : Medium) :
    Option Written :=
  match (fat32FindRoot fuel v name).run m.read with
  | none => none
  | some none => some ⟨-1, m, []⟩
  | some (some file) =>
    if file.attributes &&& attrDirectory ≠ 0 then some ⟨-1, m, []⟩
    else if file.size < data.length ∨ 8 < v.sectorsPerCluster then some ⟨-1, m, []⟩
    else v.clusters.writeChain data.length data file.firstCluster m []

end Files

end Fat

end PeanutKernel
