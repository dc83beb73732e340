import PeanutKernel.Proofs.Fat32

/-!
# The geometry of a mounted FAT volume

`fat32_mount` computes the size of the data region and the first sectors of the regions in 32-bit
arithmetic and compares none of them with the size of the volume. What it leaves in the volume is
exact if the reserved sectors, the tables and the root directory end within the volume and below
sector `2 ^ 32` (`fat32_geometry_exact_iff`).
-/

namespace PeanutKernel

namespace Fat

variable {v : Fat32Volume} {m : Medium} {p : Partition} {s : Buf}

/-- The sectors of one table, by the boot sector. -/
def sectorsPerFat (s : Buf) : ℕ := (geometry s).1

def totalSectors (s : Buf) : ℕ := (geometry s).2.1

def rootDirSectors (s : Buf) : ℕ := (geometry s).2.2.1

/-- The sectors of all tables. -/
def fatSectors (s : Buf) : ℕ := (s 16).toNat * sectorsPerFat s

/-- The sectors before the data region. -/
def usedSectors (s : Buf) : ℕ := le16 s 14 + fatSectors s + rootDirSectors s

/-- What the boot sector says, in exact arithmetic. -/
structure ExactGeometry (p : Partition) (s : Buf) (v : Fat32Volume) : Prop where
  fits : usedSectors s ≤ totalSectors s
  fatType : v.fatType =
    if (totalSectors s - usedSectors s) / (s 13).toNat < 4085 then .fat12
    else if (totalSectors s - usedSectors s) / (s 13).toNat < 65525 then .fat16
    else .fat32
  fatStartLba : v.fatStartLba = p.firstLba + le16 s 14
  rootDirLba : v.rootDirLba = v.fatStartLba + fatSectors s
  dataStartLba : v.dataStartLba = v.rootDirLba + rootDirSectors s
  dataEnd : v.dataStartLba ≤ p.firstLba + totalSectors s

/-- What a volume that is mounted has been computed from. -/
theorem fat32Mount_some (hread : m.read ⟨p.firstLba, 1⟩ = some s)
    (h : (fat32Mount p).run m.read = some (some v)) :
    v.fatType = fatTypeOf ((totalSectors s + 2 ^ 32 - usedSectors s % 2 ^ 32) % 2 ^ 32
        / (s 13).toNat) ∧
      v.fatStartLba = (p.firstLba + le16 s 14) % 2 ^ 32 ∧
      v.rootDirLba = (v.fatStartLba + fatSectors s) % 2 ^ 32 ∧
      v.dataStartLba = (v.rootDirLba + rootDirSectors s) % 2 ^ 32 ∧
      v.sectorsPerCluster = (s 13).toNat ∧ v.rootDirSectors = rootDirSectors s := by
  have hone : (blockRead p.firstLba 1).run m.read = some (some s) := congrArg some hread
  unfold fat32Mount at h
  split_ifs at h
  · simp at h
  · simp only [Query.run_bind, hone, Option.bind_some] at h
    split_ifs at h <;> simp only [Query.run_pure, Option.some.injEq, reduceCtorEq] at h
    rw [← h]
    exact ⟨rfl, rfl, rfl, rfl, rfl, rfl⟩

theorem totalSectors_lt (s : Buf) : totalSectors s < 2 ^ 32 := by
  unfold totalSectors geometry
  simp only
  split_ifs
  · exact (le16_lt _ _).trans (by decide)
  · exact le32_lt _ _

/-- The volume is exact just when the regions before the data end inside it and no sum wraps. -/
theorem fat32_geometry_exact_iff (hread : m.read ⟨p.firstLba, 1⟩ = some s)
    (hmount : (fat32Mount p).run m.read = some (some v)) (hfirst : p.firstLba < 2 ^ 32) :
    ExactGeometry p s v
      ↔ usedSectors s ≤ totalSectors s ∧ p.firstLba + usedSectors s < 2 ^ 32 := by
  obtain ⟨htype, hfat, hroot, hdata, -, -⟩ := fat32Mount_some hread hmount
  have htotal := totalSectors_lt s
  have hused : usedSectors s = le16 s 14 + fatSectors s + rootDirSectors s := rfl
  constructor
  · intro h
    refine ⟨h.fits, ?_⟩
    have hlt : v.dataStartLba < 2 ^ 32 := by
      rw [hdata]
      exact Nat.mod_lt _ (by decide)
    rw [h.dataStartLba, h.rootDirLba, h.fatStartLba] at hlt
    omega
  · rintro ⟨hfits, hwrap⟩
    have hfat' : v.fatStartLba = p.firstLba + le16 s 14 := by
      rw [hfat, Nat.mod_eq_of_lt (by omega)]
    have hroot' : v.rootDirLba = v.fatStartLba + fatSectors s := by
      rw [hroot, Nat.mod_eq_of_lt (by omega)]
    have hdata' : v.dataStartLba = v.rootDirLba + rootDirSectors s := by
      rw [hdata, Nat.mod_eq_of_lt (by omega)]
    refine ⟨hfits, ?_, hfat', hroot', hdata', by omega⟩
    have hcount : (totalSectors s + 2 ^ 32 - usedSectors s % 2 ^ 32) % 2 ^ 32
        = totalSectors s - usedSectors s := by
      omega
    rw [htype, hcount]
    rfl

theorem fat32_geometry_exact_iff_sample :
    ∃ s, sampleMedium.read ⟨0, 1⟩ = some s ∧ ExactGeometry samplePartition s sampleVolume := by
  refine ⟨_, sampleMedium_good.read ⟨0, 1⟩, ?_⟩
  refine (fat32_geometry_exact_iff (sampleMedium_good.read ⟨0, 1⟩)
    (by decide +kernel) (by decide)).2 ?_
  decide +kernel

/-- A volume of ten sectors with a table of a hundred: the number of data sectors wraps, and the
volume is mounted as FAT32. -/
theorem underflow_mounts_fat32 :
    let m := sparseMedium [(12, 2), (13, 1), (14, 1), (16, 1), (19, 10), (22, 100), (44, 2),
      (510, 0x55), (511, 0xAA)]
    let p : Partition := ⟨0x0B, 0, 10⟩
    ∃ s v, m.read ⟨0, 1⟩ = some s ∧ (fat32Mount p).run m.read = some (some v) ∧
      v.fatType = .fat32 ∧ v.dataStartLba = 101 ∧ totalSectors s = 10 ∧
      ¬ ExactGeometry p s v := by
  intro m p
  have hgood : m.Good := sparseMedium_good _
  refine ⟨_, ⟨p, .fat32, 1, 101, 101, 0, 2, 100, 1, 0⟩, hgood.read _, by decide +kernel, rfl, rfl,
    by decide +kernel, fun h => ?_⟩
  have hfits := h.fits
  revert hfits
  decide +kernel

end Fat

end PeanutKernel
