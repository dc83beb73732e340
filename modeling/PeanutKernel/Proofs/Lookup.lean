import PeanutKernel.Proofs.ExfatContained
import PeanutKernel.Proofs.ExfatLookup
import PeanutKernel.Proofs.Fat32Lookup

/-!
# What the lookups find, and when they return

Both drivers look for a name in a buffer of 64 directory entries, and both follow the chain of a
directory for as long as the table gives them clusters.
-/

namespace PeanutKernel

section Complete

/-- An entry with a name of its own is found just when fewer than 64 entries stand before it. A name
that no entry has is not found on an exFAT volume, and on a FAT volume just when no entry with that
name is shown behind the end of the directory. -/
theorem lookup_finds_iff {m : Medium} {fuel : ℕ} {path name : List UInt8} :
    (∀ {p : Partition} {v : Fat.Fat32Volume} {dir : Option ℕ} {S : List Buf},
        (Fat.fat32Mount p).run m.read = some (some v) →
        Fat.LooksIn fuel v m path name dir S →
      (∀ i, Fat.InDirectory S i → (i = 0 ∨ ¬ Fat.isLongName (padded S (i - 1))) →
        streqCi (Fat.makeShortName (padded S i)) name = true →
        (∀ j, j ≠ i → Fat.InDirectory S j →
          streqCi (Fat.shownAt (padded S) (Fat.nameStart v dir) j).name name = false) →
        ((Fat.fat32FindRoot fuel v path).run m.read
            = some (some (Fat.shownEntry (padded S i) []))
          ↔ Fat.entryCount (padded S) i < 64)) ∧
      ((∀ j, Fat.InDirectory S j →
          streqCi (Fat.shownAt (padded S) (Fat.nameStart v dir) j).name name = false) →
        ((Fat.fat32FindRoot fuel v path).run m.read = some none
          ↔ ∀ j, Fat.Behind S j → Fat.entryCount (padded S) j < 64 →
            streqCi (Fat.shownAt (padded S) (Fat.nameStart v dir) j).name name = false))) ∧
    (∀ {p : Partition} {v : Exfat.ExfatVolume} {c : ℕ} {items : List Exfat.Item},
        (Exfat.exfatMount p).run m.read = some (some v) →
        Exfat.LooksIn fuel v m path name c items →
      (∀ k q, (Exfat.wholeSets v items)[k]? = some q → streqCi q.2.entry.name name = true →
        (∀ j q', j ≠ k → (Exfat.wholeSets v items)[j]? = some q' →
          streqCi q'.2.entry.name name = false) →
        ((Exfat.exfatFindRoot fuel v path).run m.read = some (some q.2.entry) ↔ k < 64)) ∧
      ((∀ q ∈ Exfat.wholeSets v items, streqCi q.2.entry.name name = false) →
        (Exfat.exfatFindRoot fuel v path).run m.read = some none)) := by
  constructor
  · intro p v dir S hmount h
    have hpos := Fat.fat32Mount_sectorsPerCluster hmount
    exact ⟨fun i hi hshort hname hother =>
        Fat.fat32FindRoot_entry_iff hpos h hi hshort hname hother,
      fun hother => Fat.fat32FindRoot_none_iff hpos h hother⟩
  · intro p v c items hmount h
    have hpos := Exfat.exfatMount_sectorsPerCluster hmount
    exact ⟨fun k q hq hname hother => Exfat.exfatFindRoot_entry_iff hpos h hq hname hother,
      fun hother => Exfat.exfatFindRoot_none hpos h hother⟩

section Sample

/-- The root directory of `Fat.sampleMedium`. -/
def sampleRoot : List Buf := (List.range 16).map (Fat.rootSlot Fat.sampleVolume Fat.sampleMedium)

theorem sampleRoot_looksIn :
    Fat.LooksIn 1 Fat.sampleVolume Fat.sampleMedium [65] [65] none sampleRoot where
  small := by decide
  stored := ⟨0, Nat.one_pos, .fixedRoot (Fat.storesRoot_self (by decide) fun _ _ => rfl)⟩
  resolves := ⟨[], Or.inl ⟨by decide, rfl⟩, by decide⟩

/-- The entry set of `Exfat.sampleMedium`. -/
def sampleEntrySet : Exfat.EntrySet where
  file j := Exfat.sampleMedium.byte (1024 + j)
  stream j := Exfat.sampleMedium.byte (1056 + j)
  names := [fun j => Exfat.sampleMedium.byte (1088 + j)]
  file_type := by decide +kernel
  count := by decide +kernel
  stream_type := by decide +kernel
  names_type := by decide +kernel

theorem sampleEntrySet_looksIn :
    Exfat.LooksIn 2 (Exfat.sampleVolume 2) Exfat.sampleMedium [65] [65] 2
      [.set sampleEntrySet] where
  stored := ⟨1, Nat.one_lt_two, ⟨by decide +kernel, fun _ _ _ _ => rfl, by decide +kernel⟩,
    by decide +kernel, by decide +kernel⟩
  resolves := ⟨[], Or.inl ⟨by decide, rfl⟩, by decide⟩

theorem lookup_finds_iff_sample :
    (Fat.fat32FindRoot 1 Fat.sampleVolume [65]).run Fat.sampleMedium.read
      = some (some (Fat.shownEntry (padded sampleRoot 0) [])) ∧
    (Exfat.exfatFindRoot 2 (Exfat.sampleVolume 2) [65]).run Exfat.sampleMedium.read
      = some (some sampleEntrySet.entry) := by
  have hfirst : Fat.InDirectory sampleRoot 0 := ⟨by decide +kernel, by decide +kernel⟩
  constructor
  · obtain ⟨hfat, -⟩ := lookup_finds_iff
    refine ((hfat (p := Fat.samplePartition) (by decide +kernel) sampleRoot_looksIn).1 0 hfirst
      (Or.inl rfl) (by decide +kernel) fun j hj h => ?_).2 (by decide)
    exact absurd (by decide +kernel) (h.before 1 (by omega))
  · obtain ⟨-, hexfat⟩ := lookup_finds_iff
    have hone : Exfat.wholeSets (Exfat.sampleVolume 2) [.set sampleEntrySet]
        = [(0, sampleEntrySet)] := rfl
    refine ((hexfat (p := Exfat.samplePartition) (by decide +kernel) sampleEntrySet_looksIn).1 0
      (0, sampleEntrySet) (by rw [hone]; rfl) (by decide +kernel) fun j q hj hq => ?_).2 (by decide)
    rw [hone, List.getElem?_eq_none (by simp; omega)] at hq
    cases hq

/-- The slot of a file that is named by one byte. -/
def crowdedSlot (i : ℕ) : Buf := fun j =>
  if j = 0 then UInt8.ofNat (128 + i) else if j < 11 then 32 else 0

def crowdedSlots : List Buf := (List.range 65).map crowdedSlot

/-- `Fat.sampleVolume` with a root directory of five sectors. -/
def crowdedVolume : Fat.Fat32Volume :=
  { Fat.sampleVolume with dataStartLba := 7, rootDirSectors := 5, rootEntryCount := 80 }

def crowdedMedium : Medium where
  byte a :=
    if a < 1024 then (((17, 80) :: Fat.sampleFat).lookup a).getD 0
    else if a < 1024 + 65 * 32 then crowdedSlot ((a - 1024) / 32) (a % 32)
    else 0
  bad _ := false

theorem padded_crowdedSlots (i : ℕ) :
    padded crowdedSlots i = if i < 65 then crowdedSlot i else fun _ => 0 := by
  unfold crowdedSlots
  split_ifs with hi
  · exact padded_map_range _ hi
  · rw [padded, List.getD_eq_default _ _ (by simp; omega)]

/-- The root directory of `crowdedMedium`. -/
theorem crowdedSlots_stored : Fat.StoresRoot crowdedVolume crowdedMedium crowdedSlots := by
  refine ⟨by decide, fun _ _ => rfl, by simp [crowdedSlots, crowdedVolume], fun i hi j hj => ?_⟩
  have hi : i < 80 := hi
  have hbyte : 512 * ((2 + i / 16) % 2 ^ 32) + (32 * (i % 16) + j) = 1024 + (32 * i + j) := by omega
  change (if 32 * (i % 16) + j < 512 * 1
    then crowdedMedium.byte (512 * ((2 + i / 16) % 2 ^ 32) + (32 * (i % 16) + j)) else 0) = _
  rw [if_pos (by omega), hbyte, padded_crowdedSlots]
  change (if 1024 + (32 * i + j) < 1024 then _
    else if 1024 + (32 * i + j) < 1024 + 65 * 32 then
      crowdedSlot ((1024 + (32 * i + j) - 1024) / 32) ((1024 + (32 * i + j)) % 32)
    else 0) = _
  rw [if_neg (by omega)]
  split_ifs with hlt h65 h65
  · rw [show (1024 + (32 * i + j) - 1024) / 32 = i by omega,
      show (1024 + (32 * i + j)) % 32 = j by omega]
  · omega
  · omega
  · rfl

/-- The last file of the directory is not found. -/
theorem crowded_not_found :
    (Fat.fat32Mount Fat.samplePartition).run crowdedMedium.read = some (some crowdedVolume) ∧
    Fat.LooksIn 1 crowdedVolume crowdedMedium [192] [192] none crowdedSlots ∧
    Fat.InDirectory crowdedSlots 64 ∧ ¬ Fat.isLongName (padded crowdedSlots 63) ∧
    streqCi (Fat.makeShortName (padded crowdedSlots 64)) [192] = true ∧
    (∀ j, j ≠ 64 → Fat.InDirectory crowdedSlots j →
      streqCi (Fat.shownAt (padded crowdedSlots) (Fat.nameStart crowdedVolume none) j).name [192]
        = false) ∧
    (Fat.fat32FindRoot 1 crowdedVolume [192]).run crowdedMedium.read = some none := by
  have hmount : (Fat.fat32Mount Fat.samplePartition).run crowdedMedium.read
      = some (some crowdedVolume) := by
    decide +kernel
  have hother : ∀ j < 65, j ≠ 64 →
      streqCi (Fat.shownAt (padded crowdedSlots) (Fat.nameStart crowdedVolume none) j).name [192]
        = false := by
    decide +kernel
  refine ⟨hmount, ⟨by decide, ⟨0, Nat.one_pos, .fixedRoot crowdedSlots_stored⟩,
    [], Or.inl ⟨by decide, rfl⟩, by decide⟩, ⟨?_, ?_⟩, ?_, ?_, fun j hj h => ?_, ?_⟩
  · decide +kernel
  · decide +kernel
  · decide +kernel
  · decide +kernel
  · exact hother j (Fat.lt_of_padded (h.before j le_rfl)) hj
  · decide +kernel

end Sample

end Complete

section Returns

/-- The lookup of a path returns just when no directory it comes to has a chain that goes round
through clusters without entries before 64 of them are found. -/
theorem lookup_returns_iff (m : Medium) (path : List UInt8) :
    (∀ v : Fat.Fat32Volume, (∃ fuel, ((Fat.fat32FindRoot fuel v path).run m.read).isSome)
      ↔ ∀ dir, Fat.Visits v m path dir → ¬ Fat.Circular v m dir) ∧
    (∀ v : Exfat.ExfatVolume, (∃ fuel, ((Exfat.exfatFindRoot fuel v path).run m.read).isSome)
      ↔ ∀ c, Exfat.Visits v m path c → ¬ Exfat.Circular v m c) :=
  ⟨fun v => Fat.fat32FindRoot_returns_iff v m path,
    fun v => Exfat.exfatFindRoot_returns_iff v m path⟩

section Sample

/-- `Fat.sampleVolume` with a directory `A` in cluster 2, all slots of which are deleted, and the
table entry of cluster 2 naming cluster 2. -/
def roundFat : Medium where
  byte a :=
    if a = 515 then 2
    else if 1536 ≤ a ∧ a < 2048 then 0xE5
    else (((516, 0) :: (1035, 0x10) :: Fat.sampleFat ++ Fat.sampleSlot 2).lookup a).getD 0
  bad _ := false

/-- `Exfat.sampleVolume 2` with a root directory of allocation bitmap slots, and the table entry of
cluster 2 naming cluster 2. -/
def roundExfat : Medium where
  byte a :=
    if a = 520 then 2
    else if 1024 ≤ a ∧ a < 1536 then 0x81
    else (((88, 2) :: Exfat.sampleBoot).lookup a).getD 0
  bad _ := false

/-- A directory chain of one cluster that goes round: no lookup in it returns. -/
theorem round_never_returns :
    (Fat.fat32Mount Fat.samplePartition).run roundFat.read = some (some Fat.sampleVolume) ∧
    (∀ fuel, (Fat.fat32FindRoot fuel Fat.sampleVolume [65, 47, 66]).run roundFat.read = none) ∧
    (Exfat.exfatMount Exfat.samplePartition).run roundExfat.read
      = some (some (Exfat.sampleVolume 2)) ∧
    (∀ fuel,
      (Exfat.exfatFindRoot fuel (Exfat.sampleVolume 2) [65]).run roundExfat.read = none) := by
  refine ⟨by decide +kernel, fun fuel => ?_, by decide +kernel, fun fuel => ?_⟩
  · by_contra h
    have hlist : (Fat.folders Fat.sampleVolume roundFat).list 1 none
        = some [⟨[65], 0x10, 2, 600⟩] := by
      decide +kernel
    have hvisit : Fat.Visits Fat.sampleVolume roundFat [65, 47, 66] (some 2) :=
      ⟨1, [[65]], [66], [], by decide +kernel, by decide,
        .down (e := ⟨[65], 0x10, 2, 600⟩) (by decide) hlist (by decide) (by decide) (.here _)⟩
    have hview : (Fat.dirLinks Fat.sampleVolume roundFat).view 2 = some ([], false) := by
      decide +kernel
    exact (Fat.fat32FindRoot_returns_iff _ _ _).1 ⟨fuel, Option.isSome_iff_ne_none.2 h⟩ _ hvisit
      ⟨by decide, 0, 1, [], Nat.one_pos, .zero 2, by decide, .succ (by decide) hview (.zero _),
        by decide +kernel⟩
  · by_contra h
    have hview : (Exfat.dirLinks (Exfat.sampleVolume 2) roundExfat).view 2 = some ([], false) := by
      decide +kernel
    exact (Exfat.exfatFindRoot_returns_iff _ _ _).1 ⟨fuel, Option.isSome_iff_ne_none.2 h⟩ 2
      (.head (by decide)) ⟨0, 1, [], Nat.one_pos, .zero 2, by decide,
        .succ (by decide) hview (.zero _), by decide +kernel⟩

end Sample

end Returns

end PeanutKernel
