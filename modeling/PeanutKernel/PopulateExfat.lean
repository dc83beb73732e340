import PeanutKernel.Block
import Mathlib.Logic.Function.Basic

/-!
# The image builder

`tools/populate_exfat.py`, which puts the first files on a formatted exFAT image. An image is a
`bytearray`: its length and its bytes. A raised exception is `none`: the `RuntimeError`s of the
script, an index or a `struct` access outside the image, and a value that does not fit its field.
A slice assignment never raises; as in Python, one that goes past the end makes the image longer.

The set `reserved` is a list, and the four numbers every function takes of the volume are a
`Layout`.
-/

namespace PeanutKernel

namespace Populate

structure Image where
  size : ℕ
  byte : ℕ → UInt8

structure Layout where
  fatOff : ℕ
  heapLba : ℕ
  spc : ℕ
  clusterCount : ℕ
  deriving DecidableEq, Repr

def eoc : ℕ := 0xFFFFFFFF

section Bytes

/-- `image[i]` -/
def Image.get (im : Image) (i : ℕ) : Option UInt8 := if i < im.size then some (im.byte i) else none

/-- `image[i] = b` -/
def Image.set (im : Image) (i : ℕ) (b : UInt8) : Option Image :=
  if i < im.size then some { im with byte := Function.update im.byte i b } else none

/-- `image[off:off + len(data)] = data` -/
def Image.setSlice (im : Image) (off : ℕ) (data : List UInt8) : Image :=
  let start := min off im.size
  let stop := min (off + data.length) im.size
  { size := start + data.length + (im.size - stop)
    byte := fun i =>
      if i < start then im.byte i
      else if i < start + data.length then data.getD (i - start) 0
      else im.byte (i - (start + data.length) + stop) }

def le16Bytes (v : ℕ) : List UInt8 := [UInt8.ofNat v, UInt8.ofNat (v / 2 ^ 8)]

def le32Bytes (v : ℕ) : List UInt8 := le16Bytes v ++ le16Bytes (v / 2 ^ 16)

def le64Bytes (v : ℕ) : List UInt8 := le32Bytes v ++ le32Bytes (v / 2 ^ 32)

def readU32 (im : Image) (off : ℕ) : Option ℕ :=
  if off + 4 ≤ im.size then some (le32 im.byte off) else none

def writeU32 (im : Image) (off value : ℕ) : Option Image :=
  if off + 4 ≤ im.size ∧ value < 2 ^ 32 then some (im.setSlice off (le32Bytes value)) else none

end Bytes

section Clusters

def clusterOff (lay : Layout) (cluster : ℕ) : ℕ := (lay.heapLba + (cluster - 2) * lay.spc) * 512

def clusterBytes (lay : Layout) : ℕ := lay.spc * 512

/-- The loop of `find_free_clusters` over the remaining cluster numbers. -/
def findLoop (im : Image) (lay : Layout) (count : ℕ) (reserved : List ℕ) :
    List ℕ → List ℕ → Option (List ℕ)
  | [], _ => none
  | cluster :: rest, found =>
    if cluster ∈ reserved then findLoop im lay count reserved rest found
    else match readU32 im (lay.fatOff + cluster * 4) with
      | none => none
      | some entry =>
        if entry = 0 then
          if found.length + 1 = count then some (found ++ [cluster])
          else findLoop im lay count reserved rest (found ++ [cluster])
        else findLoop im lay count reserved rest found

def findFreeClusters (im : Image) (lay : Layout) (count : ℕ) (reserved : List ℕ) :
    Option (List ℕ) :=
  findLoop im lay count reserved (List.range' 2 lay.clusterCount) []

def setChain (lay : Layout) : List ℕ → Image → Option Image
  | [], im => some im
  | [c], im => writeU32 im (lay.fatOff + c * 4) eoc
  | c :: d :: rest, im =>
    (writeU32 im (lay.fatOff + c * 4) d).bind fun im => setChain lay (d :: rest) im

/-- The loop of `write_file` over its clusters. -/
def storeChunks (lay : Layout) : List ℕ → List UInt8 → Image → Image
  | [], _, im => im
  | c :: rest, data, im =>
    let chunk := data.take (clusterBytes lay)
    let padded := chunk ++ List.replicate (clusterBytes lay - chunk.length) 0
    storeChunks lay rest (data.drop (clusterBytes lay)) (im.setSlice (clusterOff lay c) padded)

/-- The image, the reserved clusters, and the first cluster and size of the file. -/
def writeFile (lay : Layout) (data : List UInt8) (im : Image) (reserved : List ℕ) :
    Option (Image × List ℕ × ℕ × ℕ) := do
  let needed := max 1 ((data.length + clusterBytes lay - 1) / clusterBytes lay)
  let clusters ← findFreeClusters im lay needed reserved
  let im ← setChain lay clusters im
  let first ← clusters.head?
  pure (storeChunks lay clusters data im, reserved ++ clusters, first, data.length)

def writeDir (lay : Layout) (im : Image) (reserved : List ℕ) : Option (Image × List ℕ × ℕ) := do
  let clusters ← findFreeClusters im lay 1 reserved
  let cluster ← clusters.head?
  let im ← setChain lay [cluster] im
  pure (im.setSlice (clusterOff lay cluster) (List.replicate (clusterBytes lay) 0),
    reserved ++ [cluster], cluster)

end Clusters

section Entries

/-- A file entry, a stream entry and one name entry. -/
def setBytes (name : List UInt8) (attrs : UInt8) (firstCluster size : ℕ) : List UInt8 :=
  [0x85, 2, 0, 0, attrs, 0] ++ List.replicate 26 0
    ++ [0xC0, 0x03, 0, UInt8.ofNat name.length] ++ List.replicate 16 0
    ++ le32Bytes firstCluster ++ le64Bytes size
    ++ [0xC1, 0] ++ (name.take 15).flatMap (fun c => le16Bytes c.toNat)
    ++ List.replicate (30 - 2 * (name.take 15).length) 0

/-- `struct` raises for a number that does not fit its field. -/
def entrySet (name : List UInt8) (attrs : UInt8) (firstCluster size : ℕ) : Option (List UInt8) :=
  if firstCluster < 2 ^ 32 ∧ size < 2 ^ 64 then some (setBytes name attrs firstCluster size)
  else none

/-- The loop of `append_entries` from `off` on; it moves on by at least 32 bytes in each round. -/
def appendLoop (im : Image) (rootOff bytes : ℕ) (entries : List UInt8) : ℕ → ℕ → Option Image
  | 0, _ => none
  | n + 1, off =>
    if off + entries.length ≤ bytes then do
      let b ← im.get (rootOff + off)
      if b = 0 then
        let im := im.setSlice (rootOff + off) entries
        if off + entries.length < bytes then im.set (rootOff + off + entries.length) 0
        else pure im
      else if b = 0x85 then do
        let secondary ← im.get (rootOff + off + 1)
        appendLoop im rootOff bytes entries n (off + 32 * (secondary.toNat + 1))
      else appendLoop im rootOff bytes entries n (off + 32)
    else none

def appendEntries (lay : Layout) (rootCluster : ℕ) (entries : List UInt8) (im : Image) :
    Option Image :=
  appendLoop im (clusterOff lay rootCluster) (clusterBytes lay) entries (clusterBytes lay) 0

end Entries

section Main

def signature : List UInt8 := ascii "EXFAT   "

def bootOk (im : Image) : Bool :=
  512 ≤ im.size && bytesOf (fun i => im.byte (3 + i)) 8 = signature && im.byte 510 = 0x55
    && im.byte 511 = 0xAA && im.byte 108 = 9

def layoutOf (im : Image) : Layout where
  fatOff := le32 im.byte 80 * 512
  heapLba := le32 im.byte 88
  spc := 2 ^ (im.byte 109).toNat
  clusterCount := le32 im.byte 92

def rootOf (im : Image) : ℕ := le32 im.byte 96

def passwd : List UInt8 :=
  ascii "root:x:0:0:root:/root:/sbin/init\nuser:x:1000:1000:Peanut User:/home/user:/bin/sh\n"

def fstab : List UInt8 :=
  ascii "devtmpfs /dev devtmpfs rw 0 0\nproc /proc proc ro 0 0\nsysfs /sys sysfs ro 0 0\n"

/-- The directories of the root, with the first cluster of each. -/
def rootDirs (sbin etc dev : ℕ) : List (List UInt8 × ℕ) :=
  [(ascii "SBIN", sbin), (ascii "BOOT", 0), (ascii "BIN", 0), (ascii "USR", 0), (ascii "LIB", 0),
    (ascii "ETC", etc), (ascii "DEV", dev)]

/-- The loop over the directories of the root. -/
def appendDirs (lay : Layout) (rootCluster : ℕ) : List (List UInt8 × ℕ) → Image → Option Image
  | [], im => some im
  | (name, first) :: rest, im => do
    let entries ← entrySet name 0x10 first 0
    let im ← appendEntries lay rootCluster entries im
    appendDirs lay rootCluster rest im

def populate (image : Image) (init : List UInt8) : Option Image :=
  if bootOk image = false then none
  else do
    let lay := layoutOf image
    let root := rootOf image
    let (im, reserved, sbin) ← writeDir lay image [root]
    let (im, reserved, etc) ← writeDir lay im reserved
    let (im, reserved, dev) ← writeDir lay im reserved
    let (im, reserved, initFirst, initSize) ← writeFile lay init im reserved
    let (im, reserved, passwdFirst, passwdSize) ← writeFile lay passwd im reserved
    let (im, _, fstabFirst, fstabSize) ← writeFile lay fstab im reserved
    let initSet ← entrySet (ascii "INIT") 0x20 initFirst initSize
    let im := im.setSlice (clusterOff lay sbin) initSet
    let passwdSet ← entrySet (ascii "PASSWD") 0x20 passwdFirst passwdSize
    let im := im.setSlice (clusterOff lay etc) passwdSet
    let fstabSet ← entrySet (ascii "FSTAB") 0x20 fstabFirst fstabSize
    let im := im.setSlice (clusterOff lay etc + 96) fstabSet
    let im ← appendDirs lay root (rootDirs sbin etc dev) im
    appendEntries lay root initSet im

end Main

end Populate

end PeanutKernel
