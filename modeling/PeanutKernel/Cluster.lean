import PeanutKernel.Block

/-!
# Files in chains of clusters

The loops of `fat32_read_file` and `exfat_read_file`, and those of `fat32_write_file` and
`exfat_write_file`, are the same but for which cluster numbers they enter and where a cluster lies.
A `ClusterMap` holds what a volume decides. A loop copies at least one byte in each round, so the
number of bytes bounds its rounds.
-/

namespace PeanutKernel

structure ClusterMap where
  /-- The loop goes on with this cluster. -/
  enters : ℕ → Bool
  /-- The first sector of a cluster, `none` for a number the volume rejects. -/
  lba : ℕ → Option ℕ
  /-- The next cluster of the chain. -/
  next : ℕ → BlockM ℕ
  sectorsPerCluster : ℕ

namespace ClusterMap

variable (V : ClusterMap)

def clusterBytes : ℕ := 512 * V.sectorsPerCluster

def readCluster (cluster : ℕ) : BlockM (Option Buf) :=
  match V.lba cluster with
  | none => pure none
  | some lba => blockRead lba V.sectorsPerCluster

/-- The read loop with `left` bytes to go; `n` rounds are enough if `left ≤ n`. -/
def readChain : ℕ → ℕ → ℕ → BlockM (Option (List UInt8))
  | n, left, cluster =>
    if V.enters cluster ∧ 0 < left then
      match n with
      | 0 => .diverge
      | n + 1 => do
        match ← V.readCluster cluster with
        | none => pure none
        | some buf =>
          let toCopy := min left V.clusterBytes
          let next ← V.next cluster
          let rest ← readChain n (left - toCopy) next
          pure (rest.map (bytesOf buf toCopy ++ ·))
    else pure (some [])

/-- The write loop, `data` being what is still to be written; `n` rounds are enough if `data` is no
longer than that. It returns 0 if all of it has been written. -/
def writeChain : ℕ → List UInt8 → ℕ → Medium → List Transfer → Option Written
  | n, data, cluster, m, writes =>
    if V.enters cluster ∧ data ≠ [] then
      match n with
      | 0 => none
      | n + 1 =>
        match V.lba cluster with
        | none => some ⟨-1, m, writes⟩
        | some lba =>
          match (blockRead lba V.sectorsPerCluster).run m.read with
          | none => none
          | some none => some ⟨-1, m, writes⟩
          | some (some buf) =>
            let chunk := data.take V.clusterBytes
            let writes := writes ++ [⟨lba, V.sectorsPerCluster⟩]
            match blockWrite m lba V.sectorsPerCluster (patch buf chunk) with
            | none => some ⟨-1, m, writes⟩
            | some m =>
              match (V.next cluster).run m.read with
              | none => none
              | some next => writeChain n (data.drop V.clusterBytes) next m writes
    else some ⟨if data = [] then 0 else -1, m, writes⟩

end ClusterMap

end PeanutKernel
