import PeanutKernel.Proofs.Fat32Listing

/-!
# Directory listings and cluster cuts

The same slots stored in clusters of another size, or as a fixed root directory, are listed in the
same order up to the same end. Only the names can differ: `list_cluster_entries` clears its
long-name buffer at each cluster, so a long name cut by a cluster boundary is shown without its
slots before the boundary (`listing_cuts_iff`).
-/

namespace PeanutKernel

namespace Fat

variable {v : Fat32Volume} {m : Medium} {S : List Buf}

/-- A fixed root directory stores the slots, padded with zero slots. -/
structure StoresRoot (v : Fat32Volume) (m : Medium) (S : List Buf) : Prop where
  fixed : v.fatType ≠ .fat32
  readable : ReadableRoot v m
  room : S.length ≤ v.rootDirSectors * 16
  slots : ∀ i < v.rootDirSectors * 16, SameSlot (rootSlot v m i) (padded S i)

/-- A fixed root directory that can be read stores its own slots. -/
theorem storesRoot_self {v : Fat32Volume} {m : Medium} (hfixed : v.fatType ≠ .fat32)
    (hread : ReadableRoot v m) :
    StoresRoot v m ((List.range (v.rootDirSectors * 16)).map (rootSlot v m)) := by
  refine ⟨hfixed, hread, by simp, fun i hi j _ => ?_⟩
  rw [padded_map_range _ hi]

/-- A long-name slot that begins a name, whatever stands before it. -/
def StartsName (raw : Buf) : Prop :=
  isLongName raw ∧ raw 0 &&& 0x1F ≠ 0 ∧ (raw 0 &&& 0x1F = 1 ∨ raw 0 &&& 0x40 ≠ 0)

instance (raw : Buf) : Decidable (StartsName raw) := inferInstanceAs (Decidable (_ ∧ _))

/-- The long name before slot `i` begins in slot `d`; only slots that go on with it follow. -/
structure NameFrom (slot : ℕ → Buf) (d i : ℕ) : Prop where
  before : d < i
  starts : StartsName (slot d)
  goesOn : ∀ j, d < j → j < i → isLongName (slot j) ∧ ¬ StartsName (slot j)

/-- No entry listed is cut off from the slot its long name begins in by one division of the slots
and not by the other, where `start i` is the first slot of the part slot `i` is in. An entry is
excepted whose long-name slots spell nothing, or its short name. -/
def Uncut (S : List Buf) (maxEntries : ℕ) (start₁ start₂ : ℕ → ℕ) : Prop :=
  ∀ i < S.length, IsEntry (padded S i) → (∀ j < i, ¬ EndMark (padded S j)) →
    entryCount (padded S) i < maxEntries → ∀ d, NameFrom (padded S) d i →
    (start₁ i ≤ d ↔ start₂ i ≤ d) ∨ assembled (padded S) d i = [] ∨
      assembled (padded S) d i = makeShortName (padded S i)

section Names

variable {slot : ℕ → Buf} {raw : Buf} {b d i : ℕ}

theorem nextName_of_starts (h : StartsName raw) (name : List UInt8) :
    nextName raw name = nextName raw [] := by
  obtain ⟨hlong, hne, hfirst⟩ := h
  have hne' : (raw 0 &&& 0x1F).toNat ≠ 0 := fun h0 => hne (UInt8.toNat.inj h0)
  simp only [nextName, if_pos hlong, lfnStep, if_neg hne']
  rcases hfirst with hone | hclear
  · simp [hone]
  · simp [hclear]

theorem nextName_nil (h : ¬ StartsName raw) : nextName raw [] = [] := by
  by_cases hlong : isLongName raw
  · simp only [nextName, if_pos hlong, lfnStep, ite_self, List.length_nil]
    split_ifs with hzero hle
    · rfl
    · have hone : (raw 0 &&& 0x1F).toNat = 1 := by omega
      exact absurd ⟨hlong, fun h0 => hzero (congrArg _ h0), Or.inl (UInt8.toNat.inj hone)⟩ h
    · rfl
  · exact if_neg hlong

/-- What stands before the slot a name begins in does not matter. -/
theorem assembled_of_starts (h : StartsName (slot d)) (hb : b ≤ d) :
    ∀ i, d < i → assembled slot b i = assembled slot d i := by
  intro i hi
  induction i, hi using Nat.le_induction with
  | base =>
    rw [assembled_succ slot hb, assembled_succ slot le_rfl, nextName_of_starts h,
      assembled_of_le slot le_rfl]
  | succ i hi ih => rw [assembled_succ slot (by omega), assembled_succ slot (by omega), ih]

/-- Without the slot it begins in there is no name. -/
theorem assembled_eq_nil : ∀ i, (∀ d, b ≤ d → ¬ NameFrom slot d i) → assembled slot b i = []
  | 0, _ => rfl
  | i + 1, h => by
    by_cases hb : b ≤ i
    · rw [assembled_succ slot hb]
      by_cases hlong : isLongName (slot i)
      · have hnot : ¬ StartsName (slot i) := fun hs =>
          h i hb ⟨i.lt_succ_self, hs, fun j hj hj' => by omega⟩
        rw [assembled_eq_nil i fun d hd hfrom => h d hd ⟨by have := hfrom.before; omega,
          hfrom.starts, fun j hj hj' => ?_⟩, nextName_nil hnot]
        rcases Nat.lt_succ_iff_lt_or_eq.1 hj' with hlt | rfl
        · exact hfrom.goesOn j hj hlt
        · exact ⟨hlong, hnot⟩
      · rw [nextName, if_neg hlong]
    · exact assembled_of_le slot (by omega)

theorem NameFrom.unique (h : NameFrom slot d i) {d' : ℕ} (h' : NameFrom slot d' i) : d' = d := by
  rcases lt_trichotomy d d' with hlt | rfl | hlt
  · exact absurd h'.starts (h.goesOn d' hlt h'.before).2
  · rfl
  · exact absurd h.starts (h'.goesOn d hlt h.before).2

/-- The name shown is that of the slots from `d` on, if they are not cut off. -/
theorem NameFrom.name (h : NameFrom slot d i) (b : ℕ) :
    (shownEntry (slot i) (assembled slot b i)).name =
      if b ≤ d then (shownEntry (slot i) (assembled slot d i)).name
      else makeShortName (slot i) := by
  split_ifs with hb
  · rw [assembled_of_starts h.starts hb i h.before]
  · have hnone : ∀ d', b ≤ d' → ¬ NameFrom slot d' i := fun d' hd h' => hb (h.unique h' ▸ hd)
    rw [assembled_eq_nil i hnone]
    rfl

/-- Cutting the slots at `b₁` or at `b₂` gives the same name. -/
theorem name_eq_iff (b₁ b₂ : ℕ) :
    (shownEntry (slot i) (assembled slot b₁ i)).name
        = (shownEntry (slot i) (assembled slot b₂ i)).name
      ↔ ∀ d, NameFrom slot d i → (b₁ ≤ d ↔ b₂ ≤ d) ∨ assembled slot d i = [] ∨
        assembled slot d i = makeShortName (slot i) := by
  by_cases hex : ∃ d, NameFrom slot d i
  · obtain ⟨d, h⟩ := hex
    have hshort : (shownEntry (slot i) (assembled slot d i)).name = makeShortName (slot i)
        ↔ assembled slot d i = [] ∨ assembled slot d i = makeShortName (slot i) := by
      by_cases hnil : assembled slot d i = [] <;> simp [shownEntry, hnil]
    have hall : (∀ d, NameFrom slot d i → (b₁ ≤ d ↔ b₂ ≤ d) ∨ assembled slot d i = [] ∨
        assembled slot d i = makeShortName (slot i)) ↔ (b₁ ≤ d ↔ b₂ ≤ d) ∨
        (shownEntry (slot i) (assembled slot d i)).name = makeShortName (slot i) := by
      rw [hshort]
      exact ⟨fun hd => hd d h, fun hd d' h' => by rwa [h.unique h']⟩
    rw [hall, h.name b₁, h.name b₂]
    by_cases h₁ : b₁ ≤ d <;> by_cases h₂ : b₂ ≤ d <;> simp [h₁, h₂, eq_comm]
  · have hnil : ∀ b, assembled slot b i = [] := fun b =>
      assembled_eq_nil i fun d _ h => hex ⟨d, h⟩
    rw [hnil, hnil]
    exact iff_of_true rfl fun d h => absurd ⟨d, h⟩ hex

end Names

section Padded

theorem listing_padded (start : ℕ → ℕ) {n : ℕ} (hn : S.length ≤ n) :
    listing (padded S) start n 0 = listing (padded S) start S.length 0 := by
  obtain ⟨k, rfl⟩ := Nat.exists_eq_add_of_le hn
  have hend : EndMark (padded S S.length) := by
    have hzero : padded S S.length = fun _ => 0 := List.getD_eq_default _ _ le_rfl
    rw [hzero]
    decide
  have hrest : listing (padded S) start k (0 + S.length) = [] := by
    cases k with
    | zero => rfl
    | succ k => rw [Nat.zero_add, listing, if_pos hend]
  rw [listing_add, hrest, ite_self, List.append_nil]

theorem listClusterEntries_stored {first K fuel : ℕ} (h : v.clusters.Stores m first K S)
    (hpos : 1 ≤ v.sectorsPerCluster) (hspc : v.sectorsPerCluster ≤ 8) (hfuel : K < fuel)
    (maxEntries : ℕ) :
    (listClusterEntries fuel v first maxEntries).run m.read
      = some ((listing (padded S) (clusterStart v) S.length 0).take maxEntries) := by
  rw [listClusterEntries, if_neg (by omega), listChain_listing hpos h.chain hfuel,
    slotsPerCluster_eq, dirSlot_eq, listing_of_same h.slots (fun _ _ => rfl),
    listing_padded _ h.room]

theorem fat32ListRoot_stored (h : StoresRoot v m S) (hspc : v.sectorsPerCluster ≤ 8)
    (fuel maxEntries : ℕ) :
    (fat32ListRoot fuel v maxEntries).run m.read
      = some ((listing (padded S) (fun _ => 0) S.length 0).take maxEntries) := by
  rw [fat32ListRoot]
  by_cases hmax : maxEntries = 0
  · rw [if_pos (Or.inl hmax), hmax]
    rfl
  · rw [if_neg (by omega), if_pos h.fixed, listFixedRoot_listing h.readable,
      listing_of_same h.slots (fun _ _ => rfl), listing_padded _ h.room]

theorem take_listing_eq_iff {maxEntries : ℕ} {start₁ start₂ : ℕ → ℕ} :
    (listing (padded S) start₁ S.length 0).take maxEntries
        = (listing (padded S) start₂ S.length 0).take maxEntries
      ↔ Uncut S maxEntries start₁ start₂ := by
  have hshown : ∀ i, (shownAt (padded S) start₁ i).name = (shownAt (padded S) start₂ i).name →
      shownAt (padded S) start₁ i = shownAt (padded S) start₂ i := by
    intro i hname
    unfold shownAt shownEntry at hname ⊢
    rw [Fat32DirEntry.mk.injEq]
    exact ⟨hname, rfl, rfl, rfl⟩
  have hone : ∀ start start' : ℕ → ℕ, (∀ i < S.length, IsEntry (padded S i) →
      (∀ j < i, ¬ EndMark (padded S j)) → entryCount (padded S) i < maxEntries →
      shownAt (padded S) start i = shownAt (padded S) start' i) → ∀ (k : ℕ) (e : Fat32DirEntry),
      ((listing (padded S) start S.length 0).take maxEntries)[k]? = some e →
      ((listing (padded S) start' S.length 0).take maxEntries)[k]? = some e := by
    intro start start' hsame k e hk
    have hlt : k < maxEntries := by
      have := (List.getElem?_eq_some_iff.1 hk).1
      rw [List.length_take] at this
      omega
    rw [List.getElem?_take_of_lt hlt] at hk ⊢
    obtain ⟨i, hi, hentry, hlive, rfl, rfl⟩ := getElem?_listing start S.length hk
    rw [listing_getElem? start' hi hentry hlive, hsame i hi hentry hlive hlt]
  constructor
  · intro heq i hi hentry hlive hlt
    have h₁ := listing_getElem? start₁ hi hentry hlive
    have h₂ := listing_getElem? start₂ hi hentry hlive
    rw [← List.getElem?_take_of_lt hlt] at h₁ h₂
    rw [heq, h₂, Option.some_inj] at h₁
    exact (name_eq_iff _ _).1 (congrArg Fat32DirEntry.name h₁.symm)
  · intro huncut
    have hsame' : ∀ i < S.length, IsEntry (padded S i) → (∀ j < i, ¬ EndMark (padded S j)) →
        entryCount (padded S) i < maxEntries →
        shownAt (padded S) start₁ i = shownAt (padded S) start₂ i := fun i hi he hl hlt =>
      hshown i ((name_eq_iff _ _).2 (huncut i hi he hl hlt))
    refine List.ext_getElem? fun k => ?_
    refine Option.ext fun e => ⟨hone _ _ hsame' k e, hone _ _ (fun i hi he hl hlt => ?_) k e⟩
    exact (hsame' i hi he hl hlt).symm

end Padded

/-- The same slots give the same list, from chains with any two cluster sizes and from a fixed root
directory, exactly if both cluster sizes cut the same long names off from their entries, or none
when one of the two is a root directory. -/
theorem listing_cuts_iff (S : List Buf) (maxEntries : ℕ) :
    (∀ (v₁ v₂ : Fat32Volume) (m₁ m₂ : Medium) (first₁ first₂ K₁ K₂ fuel₁ fuel₂ : ℕ),
      1 ≤ v₁.sectorsPerCluster → v₁.sectorsPerCluster ≤ 8 →
      1 ≤ v₂.sectorsPerCluster → v₂.sectorsPerCluster ≤ 8 →
      v₁.clusters.Stores m₁ first₁ K₁ S → v₂.clusters.Stores m₂ first₂ K₂ S →
      K₁ < fuel₁ → K₂ < fuel₂ →
      (ListSame (listClusterEntries fuel₁ v₁ first₁ maxEntries)
          (listClusterEntries fuel₂ v₂ first₂ maxEntries) m₁ m₂
        ↔ Uncut S maxEntries (clusterStart v₁) (clusterStart v₂))) ∧
    ∀ (v₁ v₂ : Fat32Volume) (m₁ m₂ : Medium) (first₂ K₂ fuel₁ fuel₂ : ℕ),
      v₁.sectorsPerCluster ≤ 8 → 1 ≤ v₂.sectorsPerCluster → v₂.sectorsPerCluster ≤ 8 →
      StoresRoot v₁ m₁ S → v₂.clusters.Stores m₂ first₂ K₂ S → K₂ < fuel₂ →
      (ListSame (fat32ListRoot fuel₁ v₁ maxEntries)
          (listClusterEntries fuel₂ v₂ first₂ maxEntries) m₁ m₂
        ↔ Uncut S maxEntries (fun _ => 0) (clusterStart v₂)) := by
  constructor
  · intro v₁ v₂ m₁ m₂ first₁ first₂ K₁ K₂ fuel₁ fuel₂ hpos₁ hspc₁ hpos₂ hspc₂ h₁ h₂ hf₁ hf₂
    rw [listSame_iff (listClusterEntries_stored h₁ hpos₁ hspc₁ hf₁ maxEntries)
      (listClusterEntries_stored h₂ hpos₂ hspc₂ hf₂ maxEntries), take_listing_eq_iff]
  · intro v₁ v₂ m₁ m₂ first₂ K₂ fuel₁ fuel₂ hspc₁ hpos₂ hspc₂ h₁ h₂ hf₂
    rw [listSame_iff (fat32ListRoot_stored h₁ hspc₁ fuel₁ maxEntries)
      (listClusterEntries_stored h₂ hpos₂ hspc₂ hf₂ maxEntries), take_listing_eq_iff]

section Sample

def deletedSlot : Buf := fun j => if j = 0 then 0xE5 else 0

/-- A long-name slot with the name `b`. -/
def longSlot : Buf := fun j =>
  if j = 0 then 0x41 else if j = 1 then 98 else if j = 11 then 0x0F else 0

/-- The slot of a file `A`. -/
def fileSlot : Buf := fun j =>
  if j = 0 then 65 else if j < 11 then 32 else if j = 11 then 0x20 else 0

/-- A long name with its file at the end of 16 slots, and another file. -/
def uncutSlots : List Buf := List.replicate 14 deletedSlot ++ [longSlot, fileSlot, fileSlot]

/-- A long name at the end of 16 slots and its file behind them. -/
def cutSlots : List Buf := List.replicate 15 deletedSlot ++ [longSlot, fileSlot]

/-- A volume with two sectors of root directory and clusters of `n` sectors. -/
def cutVolume (n : ℕ) : Fat32Volume :=
  { sampleVolume with dataStartLba := 4, rootDirSectors := 2, sectorsPerCluster := n }

/-- The slots as a root directory and from cluster 2 on, with cluster 3 behind cluster 2 or not. -/
def cutMedium (two : Bool) (S : List Buf) : Medium where
  byte a :=
    if a < 1024 then
      (((if two then [(515, 0x03), (516, 0xF0), (517, 0xFF)] else [(515, 0xFF), (516, 0x0F)]) :
        List (ℕ × UInt8)).lookup a).getD 0
    else if a < 2048 then padded S ((a - 1024) / 32) (a % 32)
    else padded S ((a - 2048) / 32) (a % 32)
  bad _ := false

theorem listing_cuts_iff_uncut :
    ListSame (listClusterEntries 3 (cutVolume 1) 2 64) (listClusterEntries 3 (cutVolume 2) 2 64)
      (cutMedium true uncutSlots) (cutMedium false uncutSlots) ∧
    ListSame (fat32ListRoot 3 (cutVolume 1) 64) (listClusterEntries 3 (cutVolume 2) 2 64)
      (cutMedium true uncutSlots) (cutMedium false uncutSlots) := by
  have h₁ : (cutVolume 1).clusters.Stores (cutMedium true uncutSlots) 2 2 uncutSlots :=
    ⟨⟨by decide +kernel, fun _ _ _ _ => rfl, by decide +kernel⟩, by decide +kernel,
      by decide +kernel⟩
  have h₂ : (cutVolume 2).clusters.Stores (cutMedium false uncutSlots) 2 1 uncutSlots :=
    ⟨⟨by decide +kernel, fun _ _ _ _ => rfl, by decide +kernel⟩, by decide +kernel,
      by decide +kernel⟩
  have hroot : StoresRoot (cutVolume 1) (cutMedium true uncutSlots) uncutSlots :=
    ⟨by decide, fun _ _ => rfl, by decide, by decide +kernel⟩
  have huncut : ∀ i < 17, ∀ d < i, StartsName (padded uncutSlots d) →
      clusterStart (cutVolume 1) i ≤ d ∧ clusterStart (cutVolume 2) i ≤ d ∨
        ¬ isLongName (padded uncutSlots (d + 1)) ∧ d + 1 < i := by
    decide +kernel
  have hname : ∀ i < 17, ∀ d, NameFrom (padded uncutSlots) d i →
      clusterStart (cutVolume 1) i ≤ d ∧ clusterStart (cutVolume 2) i ≤ d := by
    intro i hi d hd
    rcases huncut i hi d hd.before hd.starts with h | ⟨hlong, hlt⟩
    · exact h
    · exact absurd (hd.goesOn _ d.lt_succ_self hlt).1 hlong
  obtain ⟨hchain, hfixed⟩ := listing_cuts_iff uncutSlots 64
  refine ⟨(hchain (cutVolume 1) (cutVolume 2) _ _ 2 2 2 1 3 3 le_rfl (by decide) (by decide)
    (by decide) h₁ h₂ (by decide) (by decide)).2 fun i hi _ _ _ d hd => ?_, ?_⟩
  · exact Or.inl (iff_of_true (hname i hi d hd).1 (hname i hi d hd).2)
  · refine (hfixed (cutVolume 1) (cutVolume 2) _ _ 2 1 3 3 (by decide) (by decide) (by decide) hroot
      h₂ (by decide)).2 fun i hi _ _ _ d hd => ?_
    exact Or.inl (iff_of_true (Nat.zero_le d) (hname i hi d hd).2)

/-- The long name is lost with clusters of one sector, and shown with clusters of two sectors and
in a root directory. -/
theorem cut_longName_lost :
    (cutVolume 1).clusters.Stores (cutMedium true cutSlots) 2 2 cutSlots ∧
    (cutVolume 2).clusters.Stores (cutMedium false cutSlots) 2 1 cutSlots ∧
    StoresRoot (cutVolume 1) (cutMedium true cutSlots) cutSlots ∧
    (listClusterEntries 3 (cutVolume 1) 2 64).run (cutMedium true cutSlots).read
      = some [⟨[65], 0x20, 0, 0⟩] ∧
    (listClusterEntries 3 (cutVolume 2) 2 64).run (cutMedium false cutSlots).read
      = some [⟨[98], 0x20, 0, 0⟩] ∧
    (fat32ListRoot 3 (cutVolume 1) 64).run (cutMedium true cutSlots).read
      = some [⟨[98], 0x20, 0, 0⟩] := by
  refine ⟨⟨⟨?_, fun _ _ _ _ => rfl, ?_⟩, ?_, ?_⟩, ⟨⟨?_, fun _ _ _ _ => rfl, ?_⟩, ?_, ?_⟩,
    ⟨?_, fun _ _ => rfl, ?_, ?_⟩, ?_, ?_, ?_⟩
  all_goals decide +kernel

end Sample

end Fat

end PeanutKernel
