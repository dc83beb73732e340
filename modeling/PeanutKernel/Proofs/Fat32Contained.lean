import PeanutKernel.Proofs.ClusterWrites
import PeanutKernel.Proofs.Fat32Mount

/-!
# Which sectors a FAT write reaches

`fat32_write_file` takes cluster numbers off the directory and the table and never compares them
with the volume: only the end-of-chain marks stop it. Whether it stays in the data region is up to
the clusters it comes to on the disk as its own writes leave it.
-/

namespace PeanutKernel

namespace Fat

variable {v : Fat32Volume} {m : Medium} {p : Partition} {s : Buf} {fuel : ℕ} {path B : List UInt8}

/-- The first sector after the reserved ones, the tables and the fixed root directory, by the boot
sector and in exact arithmetic. -/
def dataStart (p : Partition) (s : Buf) : ℕ := p.firstLba + usedSectors s

/-- The end of the volume. -/
def dataEnd (p : Partition) (s : Buf) : ℕ := p.firstLba + totalSectors s

def DataSector (p : Partition) (s : Buf) (a : ℕ) : Prop := dataStart p s ≤ a ∧ a < dataEnd p s

instance (p : Partition) (s : Buf) : DecidablePred (DataSector p s) := fun _ =>
  inferInstanceAs (Decidable (_ ∧ _))

/-- The first sector of cluster `c` as the code computes it, clusters 0 and 1 before the region. -/
def wrappedLba (p : Partition) (s : Buf) (c : ℕ) : ℕ :=
  (dataStart p s + (c + (2 ^ 32 - 2)) * (s 13).toNat) % 2 ^ 32

/-- The write of `size` bytes to `path` gets to its loop, with this first cluster. -/
def Enters (fuel : ℕ) (v : Fat32Volume) (m : Medium) (path : List UInt8) (size first : ℕ) : Prop :=
  ∃ file, (fat32FindRoot fuel v path).run m.read = some (some file) ∧
    file.attributes &&& attrDirectory = 0 ∧ size ≤ file.size ∧ v.sectorsPerCluster ≤ 8 ∧
    file.firstCluster = first

/-- The write of `B` to `path` comes to pass cluster `c` to `block_write`. -/
def WritesCluster (fuel : ℕ) (v : Fat32Volume) (m : Medium) (path B : List UInt8) (c : ℕ) : Prop :=
  ∃ first, Enters fuel v m path B.length first ∧ v.clusters.Hands B first m c

/-- Every sector `fat32_write_file` passes to `block_write` is in the data region. -/
def WritesContained (fuel : ℕ) (v : Fat32Volume) (m : Medium) (p : Partition) (s : Buf)
    (path B : List UInt8) : Prop :=
  ∀ w, fat32WriteFile fuel v path B m = some w → Within (DataSector p s) w.writes

theorem fat32WriteFile_eq {first : ℕ} (h : Enters fuel v m path B.length first) :
    fat32WriteFile fuel v path B m = v.clusters.writeChain B.length B first m [] := by
  obtain ⟨file, hfind, hdir, hsize, hspc, rfl⟩ := h
  simp only [fat32WriteFile, hfind]
  rw [if_neg (by simpa using hdir), if_neg (by omega)]

theorem fat32WriteFile_idle {w : Written} (h : ∀ first, ¬ Enters fuel v m path B.length first)
    (hw : fat32WriteFile fuel v path B m = some w) : w.writes = [] := by
  unfold fat32WriteFile at hw
  split at hw
  · cases hw
  · cases hw
    rfl
  · rename_i file hfind
    split_ifs at hw with hdir hsize
    · cases hw
      rfl
    · cases hw
      rfl
    · exact absurd ⟨file, hfind, by simpa using hdir, by omega, by omega, rfl⟩
        (h file.firstCluster)

theorem clusterLba_eq (hread : m.read ⟨p.firstLba, 1⟩ = some s)
    (hmount : (fat32Mount p).run m.read = some (some v)) (c : ℕ) :
    clusterLba v c = wrappedLba p s c := by
  obtain ⟨-, hfat, hroot, hdata, hspc, -⟩ := fat32Mount_some hread hmount
  have hstart : v.dataStartLba = dataStart p s % 2 ^ 32 := by
    unfold dataStart usedSectors
    omega
  rw [clusterLba, wrappedLba, hstart, hspc, Nat.mod_add_mod, Nat.add_mod, Nat.mod_mul_mod,
    ← Nat.add_mod]

/-- A cluster is in the data region just when its first and its last sector are. -/
theorem clusterWithin_data_iff (hread : m.read ⟨p.firstLba, 1⟩ = some s)
    (hmount : (fat32Mount p).run m.read = some (some v)) {c : ℕ} :
    v.clusters.ClusterWithin (DataSector p s) c
      ↔ dataStart p s ≤ wrappedLba p s c ∧ wrappedLba p s c + (s 13).toNat ≤ dataEnd p s := by
  have hpos := fat32Mount_sectorsPerCluster hmount
  obtain ⟨-, -, -, -, hspc, -⟩ := fat32Mount_some hread hmount
  have hin : ∀ a, v.clusters.InCluster c a
      ↔ wrappedLba p s c ≤ a ∧ a < wrappedLba p s c + (s 13).toNat := by
    intro a
    rw [← clusterLba_eq hread hmount, ← hspc]
    constructor
    · rintro ⟨lba, hlba, h⟩
      rwa [← Option.some_inj.1 hlba] at h
    · exact fun h => ⟨_, rfl, h⟩
  unfold ClusterMap.ClusterWithin DataSector
  simp only [hin]
  constructor
  · intro h
    have h1 := h (wrappedLba p s c) (by omega)
    have h2 := h (wrappedLba p s c + ((s 13).toNat - 1)) (by omega)
    omega
  · intro h a ha
    omega

/-- The writes stay in the data region just when the clusters the loop comes to do, by the sectors
the code computes for them; in a volume that ends below sector `2 ^ 32` these are clusters with a
number from 2 up to the last one of the region. -/
theorem fat32_write_contained_iff (hread : m.read ⟨p.firstLba, 1⟩ = some s)
    (hmount : (fat32Mount p).run m.read = some (some v)) (fuel : ℕ) (path B : List UInt8) :
    (WritesContained fuel v m p s path B ↔ ∀ c, WritesCluster fuel v m path B c →
      dataStart p s ≤ wrappedLba p s c ∧ wrappedLba p s c + (s 13).toNat ≤ dataEnd p s) ∧
    (dataEnd p s ≤ 2 ^ 32 → (∀ c, WritesCluster fuel v m path B c →
      2 ≤ c ∧ dataStart p s + (c - 1) * (s 13).toNat ≤ dataEnd p s) →
        WritesContained fuel v m p s path B) := by
  have hV := clusters_sound (fat32Mount_sectorsPerCluster hmount)
  have hiff : WritesContained fuel v m p s path B ↔ ∀ c, WritesCluster fuel v m path B c →
      dataStart p s ≤ wrappedLba p s c ∧
        wrappedLba p s c + (s 13).toNat ≤ dataEnd p s := by
    rw [WritesContained, ClusterMap.within_call_iff hV (fun _ => fat32WriteFile_eq)
      fun h w => fat32WriteFile_idle h]
    simp only [clusterWithin_data_iff hread hmount, WritesCluster]
  refine ⟨hiff, fun hend hall => hiff.2 fun c hc => ?_⟩
  obtain ⟨h2, hle⟩ := hall c hc
  obtain ⟨k, rfl⟩ := Nat.exists_eq_add_of_le' h2
  rw [show k + 2 - 1 = k + 1 from rfl, Nat.succ_mul] at hle
  have hpos := fat32Mount_sectorsPerCluster hmount
  obtain ⟨-, -, -, -, hspc, -⟩ := fat32Mount_some hread hmount
  have hlba : wrappedLba p s (k + 2) = dataStart p s + k * (s 13).toNat := by
    rw [wrappedLba, show k + 2 + (2 ^ 32 - 2) = k + 2 ^ 32 by omega, Nat.add_mul,
      ← Nat.add_assoc, Nat.add_mul_mod_self_left, Nat.mod_eq_of_lt (by omega)]
  omega

theorem fat32_write_contained_iff_sample :
    ∃ s, sampleMedium.read ⟨0, 1⟩ = some s ∧
      WritesContained 2 sampleVolume sampleMedium samplePartition s [65] [1, 2, 3] := by
  refine ⟨_, sampleMedium_good.read _, (fat32_write_contained_iff (p := samplePartition)
    (sampleMedium_good.read _) (by decide +kernel) 2 [65] [1, 2, 3]).2 (by decide +kernel) ?_⟩
  rintro c ⟨first, ⟨file, hfind, -, -, -, rfl⟩, hc⟩
  have hfile : (fat32FindRoot 2 sampleVolume [65]).run sampleMedium.read
      = some (some sampleFile) := by
    decide +kernel
  rw [hfile, Option.some_inj, Option.some_inj] at hfind
  rcases ClusterMap.hands_iff.1 hc with ⟨-, rfl | hc⟩
  · rw [← hfind]
    decide +kernel
  · exact absurd rfl (ClusterMap.hands_iff.1 hc).1.2.1

/-- A directory entry with first cluster 0: the write goes over the table. -/
theorem clusterZero_overwrites_fat :
    let m := sparseMedium (sampleFat ++ sampleSlot 0)
    (fat32Mount samplePartition).run m.read = some (some sampleVolume) ∧
    (fat32WriteFile 2 sampleVolume [65] [1, 2, 3] m).map (fun w => (w.ret, w.writes))
      = some (0, [⟨1, 1⟩]) ∧
    ∃ s, m.read ⟨0, 1⟩ = some s ∧ ¬ DataSector samplePartition s 1 ∧
      ¬ WritesContained 2 sampleVolume m samplePartition s [65] [1, 2, 3] := by
  intro m
  have hgood : m.Good := sparseMedium_good _
  have hrun : (fat32WriteFile 2 sampleVolume [65] [1, 2, 3] m).map (fun w => (w.ret, w.writes))
      = some (0, [⟨1, 1⟩]) := by
    decide +kernel
  refine ⟨by decide +kernel, hrun, _, hgood.read _, by decide +kernel, fun hin => ?_⟩
  obtain ⟨w, hw, hval⟩ := Option.map_eq_some_iff.1 hrun
  have hwrites : w.writes = [⟨1, 1⟩] := congrArg Prod.snd hval
  exact absurd (hin w hw ⟨1, 1⟩ (by simp [hwrites]) 1 (by decide)) (by decide +kernel)

end Fat

end PeanutKernel
