import PeanutKernel.Extfs

/-!
# The reads of the ext driver from its buffers

The loops of `read_dir_entries` over a directory block and of `map_extents_recurse` over a node of
an extent tree, as programs that ask for what they read: bytes of the block by their index, entries
of the node by their number. They do what the functions of the same loops in the model of the driver
do; their traces are the indices read, in the buffer or not.
-/

namespace PeanutKernel

namespace Ext

section Directory

def askBytes : ℕ → ℕ → Query ℕ UInt8 (List UInt8)
  | _, 0 => pure []
  | off, n + 1 => .ask off fun b => do
    let bs ← askBytes (off + 1) n
    pure (b :: bs)

def bufOf (l : List UInt8) : Buf := fun i => l.getD i 0

/-- `scanRecords`, by the bytes it reads. -/
def askRecords (blockSize : ℕ) (name : List UInt8) : ℕ → ℕ → Query ℕ UInt8 (Option ℕ)
  | 0, _ => pure none
  | n + 1, off =>
    if off + 8 ≤ blockSize then do
      let head ← askBytes off 8
      let ino := le32 (bufOf head) 0
      let rec' := le16 (bufOf head) 4
      let nlen := (bufOf head 6).toNat
      if rec' < 8 ∨ blockSize < off + rec' then pure none
      else if ino ≠ 0 ∧ nlen ≠ 0 then do
        let tmp ← askBytes (off + 8) nlen
        if cstr tmp = name then pure (some ino) else askRecords blockSize name n (off + rec')
      else askRecords blockSize name n (off + rec')
    else pure none

end Directory

section Nodes

/-- `leafBlock` from entry `i` on with `n` entries to go. -/
def askLeaf (lbn : ℕ) : ℕ → ℕ → Query ℕ Buf ℕ
  | 0, _ => pure 0
  | n + 1, i => .ask i fun ex =>
    match extentBlock ex lbn with
    | some pb => pure pb
    | none => askLeaf lbn n (i + 1)

/-- `pickIndex` from entry `i` on with `n` entries to go. -/
def askPick (lbn : ℕ) : ℕ → ℕ → ℕ → Query ℕ Buf ℕ
  | 0, _, pick => pure pick
  | n + 1, i, pick => .ask i fun ix => askPick lbn n (i + 1) (if le32 ix 0 ≤ lbn then i else pick)

/-- What `map_extents_recurse` reads of one node: the block it returns if the node is a leaf, the
block of the node below otherwise. -/
def askNode (lbn : ℕ) (node : Buf) : Query ℕ Buf ℕ := do
  if nodeMagic node ≠ extentMagic then pure 0
  else if nodeDepth node = 0 then askLeaf lbn (nodeEntries node) 0
  else do
    let pick ← askPick lbn (nodeEntries node) 0 0
    .ask pick fun ix => pure (le32 ix 4 ||| le16 ix 8 * 2 ^ 16)

end Nodes

end Ext

end PeanutKernel
