import PeanutKernel.Partition
import PeanutKernel.Cluster
import PeanutKernel.Path

/-!
# The exFAT driver

`fs/exfat.c`. `uint32_t` arithmetic that can wrap is taken modulo `2 ^ 32`; names and paths are the
bytes before their terminator; an error return `-1` is `none`. Following a directory's chain has no
bound in the source, so `list_cluster` takes `fuel` and `diverge`s without it.
-/

namespace PeanutKernel

namespace Exfat

structure ExfatVolume where
  partition : Partition
  fatStartLba : ℕ
  clusterHeapLba : ℕ
  rootCluster : ℕ
  clusterCount : ℕ
  sectorsPerCluster : ℕ
  deriving DecidableEq, Repr

structure ExfatDirEntry where
  name : List UInt8
  attributes : UInt8
  firstCluster : ℕ
  size : ℕ
  deriving DecidableEq, Repr

def exfatEoc : ℕ := 0xFFFFFFFF

def entryFile : UInt8 := 0x85

def entryStream : UInt8 := 0xC0

def entryFilename : UInt8 := 0xC1

def maxClusterSectors : ℕ := 8

/-- `EXFAT_MAX_NAME`, the size of a name with its terminator. -/
def maxName : ℕ := 256

def attrDirectory : UInt8 := 0x10

section Mount

/-- `EXFAT` and three blanks. -/
def signature : List UInt8 := [69, 88, 70, 65, 84, 32, 32, 32]

def hasSignature (s : Buf) : Bool :=
  s 510 = 0x55 && s 511 = 0xAA && bytesOf (fun i => s (3 + i)) 8 = signature

def exfatProbeBoot (firstLba : ℕ) : BlockM Bool := do
  match ← blockRead firstLba 1 with
  | none => pure false
  | some s => pure (hasSignature s)

/-- What `exfat_mount` makes of the boot sector. -/
def mountBoot (p : Partition) (s : Buf) : Option ExfatVolume :=
  let spcShift := (s 109).toNat
  let clusterCount := le32 s 92
  let rootCluster := le32 s 96
  if s 108 ≠ 9 then none
  else if 7 < spcShift ∨ s 110 < 1 ∨ le32 s 84 = 0 ∨ clusterCount < 2 ∨ rootCluster < 2 then none
  else if maxClusterSectors < 2 ^ spcShift then none
  else some {
    partition := p
    fatStartLba := (p.firstLba + le32 s 80) % 2 ^ 32
    clusterHeapLba := (p.firstLba + le32 s 88) % 2 ^ 32
    rootCluster := rootCluster
    clusterCount := clusterCount
    sectorsPerCluster := 2 ^ spcShift }

def exfatMount (p : Partition) : BlockM (Option ExfatVolume) := do
  if (← exfatProbeBoot p.firstLba) = false then pure none
  else match ← blockRead p.firstLba 1 with
    | none => pure none
    | some s => pure (mountBoot p s)

end Mount

section Clusters

/-- 0 for a number the volume does not have. -/
def clusterFirstLba (v : ExfatVolume) (cluster : ℕ) : ℕ :=
  if cluster < 2 ∨ v.clusterCount < cluster then 0
  else (v.clusterHeapLba + (cluster - 2) * v.sectorsPerCluster) % 2 ^ 32

def nextCluster (v : ExfatVolume) (cluster : ℕ) : BlockM ℕ := do
  match ← blockRead (v.fatStartLba + cluster * 4 / 512) 1 with
  | none => pure exfatEoc
  | some s =>
    let val := le32 s (cluster * 4 % 512)
    pure (if 0xFFFFFFF8 ≤ val then exfatEoc else val)

def ExfatVolume.clusters (v : ExfatVolume) : ClusterMap where
  enters cluster := 2 ≤ cluster ∧ cluster < exfatEoc
  lba cluster := if clusterFirstLba v cluster = 0 then none else some (clusterFirstLba v cluster)
  next := nextCluster v
  sectorsPerCluster := v.sectorsPerCluster

def readCluster (v : ExfatVolume) (cluster : ℕ) : BlockM (Option Buf) :=
  v.clusters.readCluster cluster

end Clusters

section Listing

/-- The loop of `parse_entry_set` over the secondary entries, `n` of them from number `si` on, with
the units of the name so far. -/
def nameLoop (buf : Buf) (bytes off nameLen : ℕ) : ℕ → ℕ → List ℕ → List ℕ
  | 0, _, nameU => nameU
  | n + 1, si, nameU =>
    if nameU.length < nameLen ∧ nameU.length < maxName then
      let e := off + 32 * si
      if bytes < e + 32 then nameU
      else if buf e ≠ entryFilename then nameLoop buf bytes off nameLen n (si + 1) nameU
      else
        let room := min nameLen (maxName - 1) - nameU.length
        nameLoop buf bytes off nameLen n (si + 1)
          (nameU ++ (List.range (min 15 room)).map fun k => le16 buf (e + 2 + k * 2))
    else nameU

def nameByte (c : ℕ) : UInt8 := if c < 128 then UInt8.ofNat c else 63

def parseEntrySet (buf : Buf) (bytes off : ℕ) : Option ExfatDirEntry :=
  if bytes < off + 32 then none
  else if buf off ≠ entryFile then none
  else
    let secondary := (buf (off + 1)).toNat
    if secondary < 1 ∨ bytes < off + (secondary + 1) * 32 then none
    else
      let stream := off + 32
      if buf stream ≠ entryStream then none
      else
        let nameU := nameLoop buf bytes off (buf (stream + 3)).toNat (secondary - 1) 2 []
        some {
          name := cstr ((nameU.take (maxName - 1)).map nameByte)
          attributes := buf (off + 4)
          firstCluster := le32 buf (stream + 20)
          size := le64 buf (stream + 24) }

/-- The loop of `list_cluster` over a cluster from `off` on, and whether it has met the end mark.
Each round moves on by at least one entry, so `n` rounds are enough for `n` entries. -/
def scanEntries (buf : Buf) (bytes maxEntries : ℕ) :
    ℕ → ℕ → List ExfatDirEntry → List ExfatDirEntry × Bool
  | 0, _, entries => (entries, false)
  | n + 1, off, entries =>
    if off < bytes ∧ entries.length < maxEntries then
      if buf off = 0 then (entries, true)
      else if buf off = 0x80 ∨ buf off = 0x81 then
        scanEntries buf bytes maxEntries n (off + 32) entries
      else if buf off ≠ entryFile then scanEntries buf bytes maxEntries n (off + 32) entries
      else match parseEntrySet buf bytes off with
        | none => scanEntries buf bytes maxEntries n (off + 32) entries
        | some e =>
          scanEntries buf bytes maxEntries n (off + 32 * ((buf (off + 1)).toNat + 1))
            (entries ++ [e])
    else (entries, false)

def listCluster (v : ExfatVolume) (maxEntries : ℕ) :
    ℕ → ℕ → List ExfatDirEntry → BlockM (List ExfatDirEntry)
  | 0, _, _ => .diverge
  | fuel + 1, cluster, entries =>
    if 2 ≤ cluster ∧ cluster < exfatEoc ∧ entries.length < maxEntries then do
      match ← readCluster v cluster with
      | none => pure entries
      | some buf =>
        let bytes := v.sectorsPerCluster * 512
        let (entries, stop) := scanEntries buf bytes maxEntries (bytes / 32) 0 entries
        if stop then pure entries
        else do
          let next ← nextCluster v cluster
          listCluster v maxEntries fuel next entries
    else pure entries

end Listing

section Lookup

def findInClusterChain (fuel : ℕ) (v : ExfatVolume) (cluster : ℕ) (name : List UInt8) :
    BlockM (Option ExfatDirEntry) := do
  let entries ← listCluster v 64 fuel cluster []
  pure (entries.find? fun e => streqCi e.name name)

/-- The loop of `exfat_find_root` over the components. -/
def findComponents (fuel : ℕ) (v : ExfatVolume) :
    ℕ → List (List UInt8) → BlockM (Option ExfatDirEntry)
  | _, [] => pure none
  | dirCluster, component :: rest =>
    if maxName ≤ component.length then pure none
    else do
      match ← findInClusterChain fuel v dirCluster component with
      | none => pure none
      | some current =>
        if rest = [] then pure (some current)
        else if current.attributes &&& attrDirectory = 0 then pure none
        else findComponents fuel v current.firstCluster rest

def exfatFindRoot (fuel : ℕ) (v : ExfatVolume) (path : List UInt8) :
    BlockM (Option ExfatDirEntry) :=
  findComponents fuel v v.rootCluster (components path)

end Lookup

section Files

/-- The bytes stored in the buffer; an error unless they are the whole file. -/
def exfatReadFile (fuel : ℕ) (v : ExfatVolume) (name : List UInt8) (bufferSize : ℕ) :
    BlockM (Option (List UInt8)) := do
  match ← exfatFindRoot fuel v name with
  | none => pure none
  | some file =>
    if file.attributes &&& attrDirectory ≠ 0 then pure none
    else if bufferSize < file.size then pure none
    else do
      let l ← v.clusters.readChain file.size file.size file.firstCluster
      pure (l.filter fun l => l.length = file.size)

/-- `none` when the lookup does not return. -/
def exfatWriteFile (fuel : ℕ) (v : ExfatVolume) (name data : List UInt8) (m : Medium) :
    Option Written :=
  match (exfatFindRoot fuel v name).run m.read with
  | none => none
  | some none => some ⟨-1, m, []⟩
  | some (some file) =>
    if file.attributes &&& attrDirectory ≠ 0 then some ⟨-1, m, []⟩
    else if file.size < data.length then some ⟨-1, m, []⟩
    else v.clusters.writeChain data.length data file.firstCluster m []

end Files

end Exfat

end PeanutKernel
