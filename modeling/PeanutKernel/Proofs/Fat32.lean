import PeanutKernel.Fat32
import PeanutKernel.Proofs.Cluster
import Mathlib.Data.Nat.ModEq
import Mathlib.Tactic.Ring

/-!
# The clusters of a FAT volume

`next_cluster` always returns, so a first cluster determines a chain on a medium. Two clusters the
loops enter, below the end-of-chain marks, never share a sector: `cluster_lba` wraps, but the
clusters of a volume span less than the `2 ^ 32` sectors it wraps at.
-/

namespace PeanutKernel

namespace Fat

variable {v : Fat32Volume} {m : Medium}

theorem nextCluster_isSome (v : Fat32Volume) (ans : Transfer → Option Buf) (c : ℕ) :
    ((nextCluster v c).run ans).isSome := by
  have hone : ∀ lba, (blockRead lba 1).run ans = some (ans ⟨lba, 1⟩) := fun lba => rfl
  simp only [nextCluster, Query.run_bind, hone, Option.bind_some]
  split
  · rfl
  · split
    · split_ifs
      · simp only [Query.run_bind, hone, Option.bind_some]
        split <;> rfl
      · rfl
    · rfl
    · rfl

theorem clusters_sound (hpos : 0 < v.sectorsPerCluster) : v.clusters.Sound :=
  ⟨nextCluster_isSome v, hpos⟩

theorem enters_iff {c : ℕ} : v.clusters.enters c = true ↔ c < fat32Eoc := decide_eq_true_iff

theorem usable_iff {c : ℕ} : v.clusters.Usable c ↔ c < fat32Eoc :=
  ⟨fun h => enters_iff.1 h.1, fun h => ⟨enters_iff.2 h, rfl⟩⟩

theorem inCluster_iff {c s : ℕ} : v.clusters.InCluster c s
    ↔ clusterLba v c ≤ s ∧ s < clusterLba v c + v.sectorsPerCluster := by
  constructor
  · rintro ⟨lba, hlba, h⟩
    cases hlba
    exact h
  · exact fun h => ⟨_, rfl, h⟩

theorem mem_clusterSectors {c s : ℕ} :
    s ∈ Transfer.sectors ⟨clusterLba v c, v.sectorsPerCluster⟩ ↔ v.clusters.InCluster c s := by
  rw [inCluster_iff, mem_sectors]

theorem clusterLba_modEq (v : Fat32Volume) (c : ℕ) :
    clusterLba v c ≡ v.dataStartLba + (2 ^ 32 - 2) * v.sectorsPerCluster
      + c * v.sectorsPerCluster [MOD 2 ^ 32] := by
  have h : clusterLba v c ≡ v.dataStartLba + (c + (2 ^ 32 - 2)) * v.sectorsPerCluster
      [MOD 2 ^ 32] :=
    (Nat.mod_modEq _ _).trans (((Nat.mod_modEq _ _).mul_right _).add_left _)
  rwa [show v.dataStartLba + (c + (2 ^ 32 - 2)) * v.sectorsPerCluster
    = v.dataStartLba + (2 ^ 32 - 2) * v.sectorsPerCluster + c * v.sectorsPerCluster by ring] at h

theorem inCluster_unique (hspc : v.sectorsPerCluster ≤ 8) {c c' s : ℕ} (hc : c < fat32Eoc)
    (hc' : c' < fat32Eoc) (h : v.clusters.InCluster c s) (h' : v.clusters.InCluster c' s) :
    c = c' := by
  rw [inCluster_iff] at h h'
  unfold fat32Eoc at hc hc'
  obtain ⟨r, hr⟩ : ∃ r, s = clusterLba v c + r := ⟨s - clusterLba v c, by omega⟩
  obtain ⟨r', hr'⟩ : ∃ r', s = clusterLba v c' + r' := ⟨s - clusterLba v c', by omega⟩
  have hmod : c * v.sectorsPerCluster + r ≡ c' * v.sectorsPerCluster + r' [MOD 2 ^ 32] := by
    have h1 := (clusterLba_modEq v c).add_right r
    have h2 := (clusterLba_modEq v c').add_right r'
    rw [← hr, add_assoc] at h1
    rw [← hr', add_assoc] at h2
    exact Nat.ModEq.add_left_cancel' _ (h1.symm.trans h2)
  have hle : ∀ d, d < 0x0FFFFFF8 → d * v.sectorsPerCluster ≤ 0x0FFFFFF8 * 8 := fun d hd =>
    Nat.mul_le_mul hd.le hspc
  have heq := hmod.eq_of_lt_of_lt (by have := hle c hc; omega) (by have := hle c' hc'; omega)
  have hpos : 0 < v.sectorsPerCluster := by omega
  have hdiv := congrArg (· / v.sectorsPerCluster) heq
  simpa [Nat.add_comm _ r, Nat.add_comm _ r', Nat.add_mul_div_right _ _ hpos,
    Nat.div_eq_of_lt (show r < v.sectorsPerCluster by omega),
    Nat.div_eq_of_lt (show r' < v.sectorsPerCluster by omega)] using hdiv

theorem fat32Mount_sectorsPerCluster {p : Partition}
    (h : (fat32Mount p).run m.read = some (some v)) : 0 < v.sectorsPerCluster := by
  have hone : ∀ lba, (blockRead lba 1).run m.read = some (m.read ⟨lba, 1⟩) := fun lba => rfl
  unfold fat32Mount at h
  split_ifs at h
  · simp at h
  · simp only [Query.run_bind, hone, Option.bind_some] at h
    split at h
    · simp at h
    · split_ifs at h <;> simp only [Query.run_pure, Option.some.injEq, reduceCtorEq] at h
      rename_i hz _
      rw [← h]
      simp only
      omega

section Sample

/-- The boot sector and the table of a FAT12 volume of one-sector clusters: one reserved sector,
one FAT sector, one root directory sector, and clusters 2 and 3 chained. -/
def sampleFat : List (ℕ × UInt8) :=
  [(12, 2), (13, 1), (14, 1), (16, 1), (17, 16), (19, 10), (22, 1), (510, 0x55), (511, 0xAA),
    (512 + 3, 0x03), (512 + 4, 0xF0), (512 + 5, 0xFF)]

/-- A root directory slot for the file `A`. -/
def sampleSlot (firstCluster : UInt8) : List (ℕ × UInt8) :=
  (1024, 65) :: ((List.range 10).map fun i => (1025 + i, 32)) ++
    [(1024 + 11, 0x20), (1024 + 26, firstCluster), (1024 + 28, 0x58), (1024 + 29, 0x02)]

def samplePartition : Partition := ⟨0x01, 0, 10⟩

/-- A volume with one file `A` of 600 bytes in clusters 2 and 3. -/
def sampleMedium : Medium := sparseMedium (sampleFat ++ sampleSlot 2 ++ [(1536 + 7, 42)])

theorem sampleMedium_good : sampleMedium.Good := sparseMedium_good _

def sampleVolume : Fat32Volume where
  partition := samplePartition
  fatType := .fat12
  fatStartLba := 1
  dataStartLba := 3
  rootDirLba := 2
  rootDirSectors := 1
  rootCluster := 0
  sectorsPerFat := 1
  sectorsPerCluster := 1
  rootEntryCount := 16

def sampleFile : Fat32DirEntry := ⟨[65], 0x20, 2, 600⟩

def sampleContent : List UInt8 := (List.range 600).map fun i => if i = 7 then 42 else 0

end Sample

end Fat

end PeanutKernel
