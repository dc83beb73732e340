import PeanutKernel.Proofs.ClusterWrites
import PeanutKernel.Proofs.Exfat

/-!
# Which sectors an exFAT write reaches

`cluster_first_lba` compares a cluster number with the number of clusters and then computes its
first sector in 32-bit arithmetic. The sector it gives is congruent to the exact one, so a cluster
`exfat_write_file` comes to is in the heap unless the sum has wrapped to before its start
(`clusterWithin_heap_iff`).
-/

namespace PeanutKernel

namespace Exfat

variable {v : ExfatVolume} {m : Medium} {p : Partition} {s : Buf} {fuel : ℕ} {path B : List UInt8}

/-- The first sector of the cluster heap, in exact arithmetic. -/
def heapStart (p : Partition) (s : Buf) : ℕ := p.firstLba + le32 s 88

/-- The sectors of the cluster heap by the boot sector, in exact arithmetic. -/
def HeapSector (p : Partition) (s : Buf) (a : ℕ) : Prop :=
  heapStart p s ≤ a ∧ a < heapStart p s + le32 s 92 * 2 ^ (s 109).toNat

/-- The first sector of a cluster of the heap, in exact arithmetic. -/
def exactLba (p : Partition) (s : Buf) (c : ℕ) : ℕ := heapStart p s + (c - 2) * 2 ^ (s 109).toNat

/-- Every sector `exfat_write_file` passes to `block_write` is in the cluster heap. -/
def WritesContained (fuel : ℕ) (v : ExfatVolume) (m : Medium) (p : Partition) (s : Buf)
    (path B : List UInt8) : Prop :=
  ∀ w, exfatWriteFile fuel v path B m = some w → Within (HeapSector p s) w.writes

/-- The write of `size` bytes to `path` gets to its loop, with this first cluster. -/
def Enters (fuel : ℕ) (v : ExfatVolume) (m : Medium) (path : List UInt8) (size first : ℕ) : Prop :=
  ∃ file, (exfatFindRoot fuel v path).run m.read = some (some file) ∧
    file.attributes &&& attrDirectory = 0 ∧ size ≤ file.size ∧ file.firstCluster = first

/-- The write of `B` to `path` comes to pass cluster `c` to `block_write`. -/
def WritesCluster (fuel : ℕ) (v : ExfatVolume) (m : Medium) (path B : List UInt8) (c : ℕ) : Prop :=
  ∃ first, Enters fuel v m path B.length first ∧ v.clusters.Hands B first m c

theorem exfatWriteFile_eq {first : ℕ} (h : Enters fuel v m path B.length first) :
    exfatWriteFile fuel v path B m = v.clusters.writeChain B.length B first m [] := by
  obtain ⟨file, hfind, hdir, hsize, rfl⟩ := h
  simp only [exfatWriteFile, hfind]
  rw [if_neg (not_not.2 hdir), if_neg (by omega)]

theorem exfatWriteFile_idle {w : Written} (h : ∀ first, ¬ Enters fuel v m path B.length first)
    (hw : exfatWriteFile fuel v path B m = some w) : w.writes = [] := by
  unfold exfatWriteFile at hw
  split at hw
  · cases hw
  · cases hw
    rfl
  · rename_i file hfind
    split_ifs at hw with hdir hsize
    · cases hw
      rfl
    · cases hw
      rfl
    · exact absurd ⟨file, hfind, not_not.1 hdir, by omega, rfl⟩ (h file.firstCluster)

section

variable (hread : m.read ⟨p.firstLba, 1⟩ = some s)

include hread

theorem exfatMount_some (h : (exfatMount p).run m.read = some (some v)) :
    v.clusterHeapLba = heapStart p s % 2 ^ 32 ∧ v.clusterCount = le32 s 92 ∧
      v.sectorsPerCluster = 2 ^ (s 109).toNat := by
  rw [exfatMount_run p hread, Option.some_inj] at h
  split_ifs at h
  obtain ⟨-, hheap, -, hcount, hspc⟩ := mountBoot_some h
  exact ⟨hheap, hcount, hspc⟩

/-- The first sector of a cluster is the exact one, but for wrapping. -/
theorem lba_eq (hmount : (exfatMount p).run m.read = some (some v)) {c : ℕ}
    (hc : v.clusters.Usable c) :
    v.clusters.lba c = some (exactLba p s c % 2 ^ 32) ∧ 2 ≤ c ∧ c ≤ le32 s 92 := by
  obtain ⟨hheap, hcount, hspc⟩ := exfatMount_some hread hmount
  obtain ⟨⟨h2, -⟩, hne⟩ := usable_iff.1 hc
  have hcl : c ≤ v.clusterCount := by
    by_contra hlt
    exact hne (by rw [clusterFirstLba, if_pos (by omega)])
  have hlba : clusterFirstLba v c = exactLba p s c % 2 ^ 32 := by
    rw [clusterFirstLba, if_neg (by omega), hheap, hspc, Nat.mod_add_mod, exactLba]
  refine ⟨?_, h2, hcount ▸ hcl⟩
  rw [← hlba]
  exact if_neg hne

theorem clusterWithin_heap_iff (hmount : (exfatMount p).run m.read = some (some v)) {c : ℕ}
    (hc : v.clusters.Usable c) :
    v.clusters.ClusterWithin (HeapSector p s) c ↔ heapStart p s ≤ exactLba p s c % 2 ^ 32 := by
  obtain ⟨-, -, hspc⟩ := exfatMount_some hread hmount
  obtain ⟨hlba, h2, hcl⟩ := lba_eq hread hmount hc
  have hpos : 0 < v.clusters.sectorsPerCluster := exfatMount_sectorsPerCluster hmount
  constructor
  · exact fun h => (h _ ⟨_, hlba, le_rfl, by omega⟩).1
  · rintro h a ⟨lba, hlba', hge, hlt⟩
    rw [hlba, Option.some_inj] at hlba'
    subst hlba'
    refine ⟨h.trans hge, hlt.trans_le ?_⟩
    -- wrapping only lowers the sector, and the exact cluster ends within the heap
    have hmod := Nat.mod_le (exactLba p s c) (2 ^ 32)
    have hend : (c - 2) * 2 ^ (s 109).toNat + 2 ^ (s 109).toNat
        ≤ le32 s 92 * 2 ^ (s 109).toNat := by
      rw [← Nat.succ_mul]
      exact Nat.mul_le_mul_right _ (by omega)
    have hspc' : v.clusters.sectorsPerCluster = 2 ^ (s 109).toNat := hspc
    rw [hspc']
    unfold exactLba at hmod ⊢
    omega

theorem writesContained_iff (hmount : (exfatMount p).run m.read = some (some v)) (fuel : ℕ)
    (path B : List UInt8) :
    WritesContained fuel v m p s path B ↔
      ∀ c, WritesCluster fuel v m path B c → heapStart p s ≤ exactLba p s c % 2 ^ 32 := by
  rw [WritesContained, ClusterMap.within_call_iff (clusters_sound
    (exfatMount_sectorsPerCluster hmount)) (fun _ => exfatWriteFile_eq)
    fun h w => exfatWriteFile_idle h]
  refine forall_congr' fun c => forall_congr' ?_
  rintro ⟨first, -, hc⟩
  exact clusterWithin_heap_iff hread hmount hc.usable

end

/-- The writes stay in the heap just when the first sector of no cluster the loop comes to wraps to
before its start; a volume whose clusters end below sector `2 ^ 32` has no such cluster. -/
theorem exfat_write_contained_iff (hread : m.read ⟨p.firstLba, 1⟩ = some s)
    (hmount : (exfatMount p).run m.read = some (some v)) (fuel : ℕ) (path B : List UInt8) :
    (WritesContained fuel v m p s path B ↔
      ∀ c, WritesCluster fuel v m path B c → heapStart p s ≤ exactLba p s c % 2 ^ 32) ∧
    (exactLba p s (le32 s 92) < 2 ^ 32 → WritesContained fuel v m p s path B) := by
  have hiff := writesContained_iff hread hmount fuel path B
  refine ⟨hiff, fun hlt => hiff.2 ?_⟩
  rintro c ⟨first, -, hc⟩
  obtain ⟨-, h2, hcl⟩ := lba_eq hread hmount hc.usable
  have hle : exactLba p s c ≤ exactLba p s (le32 s 92) :=
    Nat.add_le_add_left (Nat.mul_le_mul_right _ (by omega)) _
  rw [Nat.mod_eq_of_lt (by omega)]
  exact Nat.le_add_right _ _

section Sample

/-- The boot sector of a volume of four one-sector clusters with its table in sector 1, but for the
heap offset. -/
def sampleBoot : List (ℕ × UInt8) :=
  (signature.zipIdx 3).map (fun x => (x.2, x.1)) ++
    [(80, 1), (84, 1), (92, 4), (96, 2), (108, 9), (110, 1), (510, 0x55), (511, 0xAA)]

/-- An entry set for a file `A` of three bytes, from address `a` on. -/
def sampleSet (a : ℕ) (firstCluster : UInt8) : List (ℕ × UInt8) :=
  [(a, 0x85), (a + 1, 2), (a + 32, 0xC0), (a + 35, 1), (a + 52, firstCluster), (a + 56, 3),
    (a + 64, 0xC1), (a + 66, 65)]

def samplePartition : Partition := ⟨0x07, 0, 10⟩

def sampleVolume (heapLba : ℕ) : ExfatVolume := ⟨samplePartition, 1, heapLba, 2, 4, 1⟩

/-- The heap starts at sector 2; the root directory is cluster 2 and the file cluster 3. -/
def sampleMedium : Medium := sparseMedium ((88, 2) :: sampleBoot ++ sampleSet 1024 3)

end Sample

theorem exfat_write_contained_iff_sample :
    ∃ s, sampleMedium.read ⟨0, 1⟩ = some s ∧
      WritesContained 2 (sampleVolume 2) sampleMedium samplePartition s [65] [1, 2, 3] := by
  have hgood : sampleMedium.Good := sparseMedium_good _
  refine ⟨_, hgood.read _, (exfat_write_contained_iff (p := samplePartition) (hgood.read _)
    (by decide +kernel) 2 [65] [1, 2, 3]).2 ?_⟩
  decide +kernel

/-- A heap that starts at the last 32-bit sector: the write to cluster 4 goes over the table in
sector 1. -/
theorem wrapped_cluster_overwrites_fat :
    let m := sparseMedium ([(88, 0xFF), (89, 0xFF), (90, 0xFF), (91, 0xFF)] ++ sampleBoot ++
      sampleSet (512 * (2 ^ 32 - 1)) 4)
    ∃ s, m.read ⟨0, 1⟩ = some s ∧
      (exfatMount samplePartition).run m.read = some (some (sampleVolume (2 ^ 32 - 1))) ∧
      (exfatWriteFile 2 (sampleVolume (2 ^ 32 - 1)) [65] [1, 2, 3] m).map
        (fun w => (w.ret, w.writes)) = some (0, [⟨1, 1⟩]) ∧
      ¬ WritesContained 2 (sampleVolume (2 ^ 32 - 1)) m samplePartition s [65] [1, 2, 3] := by
  intro m
  have hgood : m.Good := sparseMedium_good _
  have hrun : (exfatWriteFile 2 (sampleVolume (2 ^ 32 - 1)) [65] [1, 2, 3] m).map
      (fun w => (w.ret, w.writes)) = some (0, [⟨1, 1⟩]) := by
    decide +kernel
  refine ⟨_, hgood.read _, by decide +kernel, hrun, fun hin => ?_⟩
  obtain ⟨w, hw, hval⟩ := Option.map_eq_some_iff.1 hrun
  have hwrites : w.writes = [⟨1, 1⟩] := congrArg Prod.snd hval
  have hstart := (hin w hw ⟨1, 1⟩ (by simp [hwrites]) 1 (by decide)).1
  revert hstart
  decide +kernel

end Exfat

end PeanutKernel
