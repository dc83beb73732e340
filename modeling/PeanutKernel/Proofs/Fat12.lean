import PeanutKernel.Proofs.Fat32Lookup
import PeanutKernel.Proofs.Fat32Mount
import PeanutKernel.Proofs.ShortNames
import Mathlib.Data.List.Find
import Mathlib.Data.Finset.Card

/-!
# The two readers of a FAT12 volume

`fs/fat12.c` and `fs/fat32.c` both read files in the root directory of a FAT12 volume. On an image
both accept they compute the same layout (`Accepted.sameLayout`) and follow the same table
(`fat12NextCluster_run`, `nextAt_eq`). In a root directory of plain names they find the same slot
(`fat12FindRoot_live`, `fat32FindRoot_live`).
-/

namespace PeanutKernel

namespace Fat

variable {m : Medium} {p : Partition} {b : Fat12Bpb} {v : Fat32Volume}

theorem floppyRead_run (hm : m.Good) (lba : ℕ) : (floppyRead lba).run m.read
    = some (some fun i => if i < 512 * 1 then m.byte (512 * lba + i) else 0) :=
  hm.blockRead Nat.one_ne_zero

section Layout

/-- An image both drivers accept as FAT12, for `fs/fat32.c` as a partition from the first sector
on. -/
structure Accepted (m : Medium) (p : Partition) (b : Fat12Bpb) (v : Fat32Volume) : Prop where
  good : m.Good
  first : p.firstLba = 0
  init : (fat12Init true).run m.read = some (some b)
  mount : (fat32Mount p).run m.read = some (some v)
  fat12 : v.fatType = .fat12
  small : v.sectorsPerCluster ≤ 8
  spf16 : b.sectorsPerFatSmall ≠ 0

structure SameLayout (b : Fat12Bpb) (v : Fat32Volume) : Prop where
  bytesPerSector : b.bytesPerSector = 512
  sectorsPerCluster : b.sectorsPerCluster = v.sectorsPerCluster
  table : b.reservedSectors = v.fatStartLba
  root : fat12RootLba b = v.rootDirLba
  rootSectors : fat12RootDirSectors b = v.rootDirSectors
  data : fat12DataLba b = v.dataStartLba
  bound : v.dataStartLba < 2 ^ 25

theorem fat12Init_some {s : Buf} (hread : m.read ⟨0, 1⟩ = some s)
    (h : (fat12Init true).run m.read = some (some b)) : le16 s 11 = 512 ∧ b = fat12Bpb s := by
  have hone : (floppyRead 0).run m.read = some (some s) := congrArg some hread
  simp only [fat12Init, Bool.true_eq_false, if_false, Query.run_bind, hone, Option.bind_some] at h
  split_ifs at h with hbytes
  · cases h
  · simp only [Query.run_pure, Option.some.injEq] at h
    exact ⟨not_not.1 hbytes, h.symm⟩

theorem Accepted.sameLayout (h : Accepted m p b v) : SameLayout b v := by
  obtain ⟨s, hread⟩ : ∃ s, m.read ⟨0, 1⟩ = some s := ⟨_, h.good.read ⟨0, 1⟩⟩
  obtain ⟨hbytes, rfl⟩ := fat12Init_some hread h.init
  rw [← h.first] at hread
  obtain ⟨-, hfat, hroot, hdata, hspc, hsectors⟩ := fat32Mount_some hread h.mount
  rw [h.first] at hfat
  have hspf : fatSectors s = (s 16).toNat * le16 s 22 := by
    have hne : le16 s 22 ≠ 0 := h.spf16
    simp only [fatSectors, sectorsPerFat, geometry, if_pos hne]
  have hrds : rootDirSectors s = (le16 s 17 * 32 + 511) / 512 := rfl
  have hres := le16_lt s 14
  have hent := le16_lt s 17
  have hmul : (s 16).toNat * le16 s 22 ≤ 255 * 65535 :=
    Nat.mul_le_mul (Nat.le_of_lt_succ (s 16).toNat_lt) (Nat.le_of_lt_succ (le16_lt s 22))
  rw [hspf] at hroot
  rw [hrds] at hdata hsectors
  have hrootDir : fat12RootDirSectors (fat12Bpb s) = (le16 s 17 * 32 + 511) / 512 := by
    have hb : (fat12Bpb s).bytesPerSector = 512 := hbytes
    rw [fat12RootDirSectors, hb]
    show (le16 s 17 * 32 + 512 - 1) / 512 % 2 ^ 16 = _
    omega
  have hrootLba : fat12RootLba (fat12Bpb s) = le16 s 14 + (s 16).toNat * le16 s 22 := rfl
  refine ⟨hbytes, hspc.symm, ?_, ?_, hrootDir.trans hsectors.symm, ?_, ?_⟩
  · show le16 s 14 = _
    omega
  · omega
  · rw [fat12DataLba]
    omega
  · omega

theorem SameLayout.clusterBytes_eq (h : SameLayout b v) :
    512 * b.sectorsPerCluster = v.clusters.clusterBytes :=
  congrArg (512 * ·) h.sectorsPerCluster

end Layout

section Table

/-- Entry `c` of a FAT12 table that starts at the byte `start`. -/
def tableEntry (byte : ℕ → UInt8) (start c : ℕ) : ℕ :=
  let value := (byte (start + (c + c / 2))).toNat + 2 ^ 8 * (byte (start + (c + c / 2) + 1)).toNat
  if c % 2 = 1 then value / 2 ^ 4 else value % 2 ^ 12

/-- The bytes of an entry, in one sector or in two. -/
theorem fat12NextCluster_run (hm : m.Good) (hbytes : b.bytesPerSector = 512) (c : ℕ) :
    (fat12NextCluster b c).run m.read = some (tableEntry m.byte (512 * b.reservedSectors) c) := by
  simp only [fat12NextCluster, hbytes, Query.run_bind, floppyRead_run hm, Option.bind_some,
    tableEntry]
  generalize c + c / 2 = o
  have hlt : o % 512 < 512 * 1 := by omega
  have hat : 512 * (b.reservedSectors + o / 512) + o % 512 = 512 * b.reservedSectors + o := by omega
  by_cases hlast : o % 512 = 512 - 1
  · have hnext : 512 * (b.reservedSectors + o / 512 + 1) + 0
        = 512 * b.reservedSectors + o + 1 := by omega
    simp only [if_pos hlast, Query.run_bind, floppyRead_run hm, Option.bind_some, if_pos hlt, hat,
      hnext, if_pos (show 0 < 512 * 1 by decide), Query.run_pure]
  · have hlt' : o % 512 + 1 < 512 * 1 := by omega
    simp only [if_neg hlast, le16, if_pos hlt, if_pos hlt', ← Nat.add_assoc, hat, Query.run_pure]

/-- The clusters of a file by the table. -/
def tableChain (m : Medium) (b : Fat12Bpb) (first : ℕ) : ℕ → ℕ
  | 0 => first
  | k + 1 => tableEntry m.byte (512 * b.reservedSectors) (tableChain m b first k)

theorem nextAt_eq (hm : m.Good) (h : SameLayout b v) (hty : v.fatType = .fat12) {c : ℕ}
    (hc : c < fat12Eoc) :
    v.clusters.nextAt m c =
      if fat12Eoc ≤ tableEntry m.byte (512 * b.reservedSectors) c then fat32Eoc
      else tableEntry m.byte (512 * b.reservedSectors) c := by
  have hread : ∀ lba, (blockRead lba 1).run m.read
      = some (some fun i => if i < 512 * 1 then m.byte (512 * lba + i) else 0) :=
    fun lba => hm.blockRead Nat.one_ne_zero
  have hstart : v.fatStartLba < 2 ^ 25 := by
    have hroot := h.root
    have hdata := h.data
    have hbound := h.bound
    rw [fat12DataLba, fat12RootLba] at hdata
    rw [← h.table]
    omega
  have ho : (c + c / 2) % 2 ^ 32 = c + c / 2 := by
    unfold fat12Eoc at hc
    omega
  have hsmall : c + c / 2 < 2 ^ 13 := by
    unfold fat12Eoc at hc
    omega
  rw [h.table, ClusterMap.nextAt]
  show ((nextCluster v c).run m.read).getD 0 = _
  simp only [nextCluster, fatOffset, hty, ho, Query.run_bind, hread, Option.bind_some]
  have hlt : (c + c / 2) % 512 < 512 * 1 := by omega
  have hat : 512 * ((v.fatStartLba + (c + c / 2) / 512) % 2 ^ 32) + (c + c / 2) % 512
      = 512 * v.fatStartLba + (c + c / 2) := by omega
  by_cases hlast : (c + c / 2) % 512 = 511
  · have hnext : 512 * ((v.fatStartLba + (c + c / 2) / 512 + 1) % 2 ^ 32) + 0
        = 512 * v.fatStartLba + (c + c / 2) + 1 := by omega
    simp only [if_pos hlast, Query.run_bind, hread, Option.bind_some, if_pos hlt, hat, hnext,
      if_pos (show 0 < 512 * 1 by decide), Query.run_pure, Option.getD_some]
    rfl
  · have hlt' : (c + c / 2) % 512 + 1 < 512 * 1 := by omega
    have hat' : 512 * ((v.fatStartLba + (c + c / 2) / 512) % 2 ^ 32) + ((c + c / 2) % 512 + 1)
        = 512 * v.fatStartLba + (c + c / 2) + 1 := by omega
    simp only [if_neg hlast, le16, if_pos hlt, if_pos hlt', hat, hat', Query.run_pure,
      Option.getD_some]
    rfl

end Table

section Root

/-- The slots in use: not deleted, and before the first slot that starts with `0x00`. -/
def liveSlots (S : List Buf) : List Buf :=
  (S.takeWhile fun raw => raw 0 ≠ 0x00).filter fun raw => raw 0 ≠ 0xE5

/-- The slots of a fixed root directory, in order. -/
def rootSlots (v : Fat32Volume) (m : Medium) : List Buf :=
  (List.range (v.rootDirSectors * 16)).map (rootSlot v m)

/-- A root directory of few files with upper-case 8.3 names, without long-name slots in use. -/
structure PlainRoot (S : List Buf) : Prop where
  few : (liveSlots S).length ≤ 64
  short : ∀ raw ∈ liveSlots S, ¬ isLongName raw
  endShort : ∀ raw, S.find? (fun raw => raw 0 = 0x00) = some raw → ¬ isLongName raw
  named : ∀ raw ∈ liveSlots S, ShortNamed raw
  high : ∀ raw ∈ liveSlots S, le16 raw 20 = 0

/-- The slot holds the name, in upper case. -/
def hasName (base ext : List UInt8) (raw : Buf) : Bool :=
  bytesOf raw 8 = blankFilled 8 (base.map upperAscii) &&
    bytesOf (fun i => raw (8 + i)) 3 = blankFilled 3 (ext.map upperAscii)

variable {S : List Buf} {raw : Buf} {base ext path : List UInt8}

theorem fat12NameMatches_wanted (h : EightThree base ext) (raw : Buf) :
    fat12NameMatches raw (wantedName base ext) = hasName base ext raw := by
  have hlen : (blankFilled 8 (base.map upperAscii)).length = 8 := length_blankFilled h.map.base_le
  rw [fat12NameMatches, hasName, wantedName, List.take_left' hlen, List.drop_left' hlen]

theorem liveSlots_end (h : raw 0 = 0) : liveSlots (raw :: S) = [] := by
  rw [liveSlots, List.takeWhile_cons_of_neg (by simp [h])]
  rfl

theorem liveSlots_deleted (h : raw 0 = 0xE5) : liveSlots (raw :: S) = liveSlots S := by
  rw [liveSlots, List.takeWhile_cons_of_pos (by simp [h]), List.filter_cons_of_neg (by simp [h]),
    liveSlots]

theorem liveSlots_live (h : raw 0 ≠ 0) (h' : raw 0 ≠ 0xE5) :
    liveSlots (raw :: S) = raw :: liveSlots S := by
  rw [liveSlots, List.takeWhile_cons_of_pos (by simp [h]), List.filter_cons_of_pos (by simp [h']),
    liveSlots]

/-- The search of `fat12_find_root` as one loop over the slots. -/
def searchSlots (wanted : List UInt8) : List Buf → RootScan
  | [] => .goOn
  | raw :: S =>
    if raw 0 = 0x00 then .absent
    else if raw 0 = 0xE5 then searchSlots wanted S
    else if isLongName raw then searchSlots wanted S
    else if fat12NameMatches raw wanted then .found raw
    else searchSlots wanted S

def RootScan.entry : RootScan → Option Buf
  | .found raw => some raw
  | _ => none

theorem searchSlots_append (wanted : List UInt8) (T : List Buf) :
    ∀ S : List Buf, searchSlots wanted (S ++ T) =
      match searchSlots wanted S with
      | .goOn => searchSlots wanted T
      | r => r
  | [] => rfl
  | raw :: S => by
    rw [List.cons_append, searchSlots, searchSlots, searchSlots_append wanted T S]
    split_ifs <;> rfl

theorem scanRootSector_eq (sector : Buf) (wanted : List UInt8) (n : ℕ) :
    ∀ off, scanRootSector sector wanted n off
      = searchSlots wanted ((List.range n).map fun r j => sector (off + 32 * r + j)) := by
  induction n with
  | zero => exact fun _ => rfl
  | succ n ih =>
    intro off
    have hrest : (fun r j => sector (off + 32 * (r + 1) + j))
        = fun r j => sector (off + 32 + 32 * r + j) := by
      funext r j
      congr 1
      omega
    rw [List.range_succ_eq_map, List.map_cons, List.map_map, Function.comp_def, searchSlots,
      scanRootSector, ih (off + 32)]
    simp only [Nat.succ_eq_add_one, hrest, Nat.mul_zero, Nat.add_zero]

theorem searchSlots_entry (wanted : List UInt8) :
    ∀ S : List Buf, (∀ raw ∈ liveSlots S, ¬ isLongName raw) →
      (searchSlots wanted S).entry = (liveSlots S).find? (fat12NameMatches · wanted)
  | [], _ => rfl
  | raw :: S, h => by
    by_cases hzero : raw 0 = 0x00
    · rw [liveSlots_end hzero, searchSlots, if_pos hzero]
      rfl
    by_cases hdel : raw 0 = 0xE5
    · rw [liveSlots_deleted hdel] at h ⊢
      rw [searchSlots, if_neg hzero, if_pos hdel, searchSlots_entry wanted S h]
    · rw [liveSlots_live hzero hdel] at h ⊢
      rw [searchSlots, if_neg hzero, if_neg hdel, if_neg (h raw List.mem_cons_self),
        List.find?_cons]
      split_ifs with hname
      · rw [hname]
        rfl
      · rw [Bool.not_eq_true] at hname
        rw [hname, searchSlots_entry wanted S fun r hr => h r (List.mem_cons_of_mem _ hr)]

theorem scanRoot_run (hm : m.Good) (h : SameLayout b v) (wanted : List UInt8) (n : ℕ) :
    ∀ k, k + n ≤ v.rootDirSectors →
      (scanRoot b wanted n (fat12RootLba b + k)).run m.read
        = some ((searchSlots wanted
          ((List.range' (k * 16) (n * 16)).map (rootSlot v m))).entry.map fat12Dirent) := by
  induction n with
  | zero =>
    intro k _
    rw [Nat.zero_mul]
    rfl
  | succ n ih =>
    intro k hk
    have hlba : (v.rootDirLba + k) % 2 ^ 32 = fat12RootLba b + k := by
      have hdata := h.data
      have hbound := h.bound
      rw [fat12DataLba, h.rootSectors] at hdata
      rw [h.root] at hdata ⊢
      omega
    have hslots : (List.range' (k * 16) ((n + 1) * 16)).map (rootSlot v m)
        = (List.range 16).map (fun r j => rootBuf v m k (0 + 32 * r + j))
          ++ (List.range' ((k + 1) * 16) (n * 16)).map (rootSlot v m) := by
      have hfirst : (List.range' (k * 16) 16).map (rootSlot v m)
          = (List.range 16).map (fun r j => rootBuf v m k (0 + 32 * r + j)) := by
        rw [List.range'_eq_map_range, List.map_map]
        refine List.map_congr_left fun r hr => ?_
        rw [Function.comp_apply, rootSlot_eq k (List.mem_range.1 hr), Nat.zero_add]
      rw [← hfirst, ← List.map_append, Nat.succ_mul k, List.range'_append_1,
        show (n + 1) * 16 = 16 + n * 16 by omega]
    have hbuf : (fun i => if i < 512 * 1 then m.byte (512 * (fat12RootLba b + k) + i) else 0 : Buf)
        = rootBuf v m k := by
      unfold rootBuf
      rw [hlba]
    have hcount : (b.bytesPerSector + 31) / 32 = 16 := by rw [h.bytesPerSector]
    rw [scanRoot, hslots, searchSlots_append, ← scanRootSector_eq (rootBuf v m k) wanted 16 0]
    simp only [Query.run_bind, floppyRead_run hm, Option.bind_some, hbuf, hcount]
    rcases scanRootSector (rootBuf v m k) wanted 16 0 with _ | _ | raw
    · exact ih (k + 1) (by omega)
    · rfl
    · rfl

/-- What `fat12_find_root` finds. -/
theorem fat12FindRoot_live (hm : m.Good) (h : SameLayout b v) (hroot : PlainRoot (rootSlots v m))
    (hpath : RootPath path base ext) :
    (fat12FindRoot (some b) path).run m.read
      = some (((liveSlots (rootSlots v m)).find? (hasName base ext)).map fat12Dirent) := by
  have hname : (fat12NameMatches · (wantedName base ext)) = hasName base ext :=
    funext (fat12NameMatches_wanted hpath.name)
  have hscan := scanRoot_run hm h (wantedName base ext) v.rootDirSectors 0 (by omega)
  rw [Nat.zero_mul, ← List.range_eq_range', Nat.add_zero] at hscan
  have hfind : fat12FindRoot (some b) path
      = scanRoot b (wantedName base ext) (fat12RootDirSectors b) (fat12RootLba b) := by
    simp only [fat12FindRoot, hpath.makeName]
  rw [hfind, h.rootSectors, hscan, ← hname, ← searchSlots_entry _ _ hroot.short]
  rfl

/-- A slot that is not a long-name slot in use leaves no long name behind. -/
theorem nextName_unused (h : isLongName raw → raw 0 = 0xE5) : nextName raw [] = [] := by
  unfold nextName
  split_ifs with hlong
  · unfold lfnStep
    rw [h hlong]
    rfl
  · rfl

/-- Without long names in use a listing shows the short names. -/
theorem listing_plain (slot : ℕ → Buf) (n : ℕ) :
    ∀ i, assembled slot 0 i = [] →
      (∀ raw ∈ liveSlots ((List.range' i n).map slot), ¬ isLongName raw) →
      (∀ raw, ((List.range' i n).map slot).find? (fun raw => raw 0 = 0x00) = some raw →
        ¬ isLongName raw) →
      listing slot (fun _ => 0) n i
        = (liveSlots ((List.range' i n).map slot)).map fun raw => shownEntry raw [] := by
  induction n with
  | zero => exact fun _ _ _ _ => rfl
  | succ n ih =>
    intro i hname hshort hend
    rw [List.range'_succ, List.map_cons] at hshort hend ⊢
    have hnext : (isLongName (slot i) → slot i 0 = 0xE5) → assembled slot 0 (i + 1) = [] := by
      intro h
      rw [assembled_succ slot (Nat.zero_le i), hname, nextName_unused h]
    by_cases hzero : slot i 0 = 0x00
    · have hmark : EndMark (slot i) :=
        ⟨hend _ (List.find?_cons_of_pos (by simp [hzero])), hzero⟩
      rw [listing, if_pos hmark, liveSlots_end hzero, List.map_nil]
    rw [List.find?_cons_of_neg (by simp [hzero])] at hend
    have hlive : ¬ EndMark (slot i) := fun h => hzero h.2
    by_cases hdel : slot i 0 = 0xE5
    · rw [liveSlots_deleted hdel] at hshort ⊢
      rw [listing, if_neg hlive, if_neg fun h => h.2.2 hdel,
        ih (i + 1) (hnext fun _ => hdel) hshort hend]
    · rw [liveSlots_live hzero hdel] at hshort ⊢
      have hlong := hshort (slot i) List.mem_cons_self
      rw [listing, if_neg hlive, if_pos ⟨hlong, hzero, hdel⟩, shownAt, hname, List.map_cons,
        ih (i + 1) (hnext fun h => absurd h hlong)
          (fun r hr => hshort r (List.mem_cons_of_mem _ hr)) hend]

/-- What `fat32_find_root` finds. -/
theorem fat32FindRoot_live (h : Accepted m p b v) (hroot : PlainRoot (rootSlots v m))
    (hpath : RootPath path base ext) {fuel : ℕ} (hfuel : 0 < fuel) :
    (fat32FindRoot fuel v path).run m.read
      = some (((liveSlots (rootSlots v m)).find? (hasName base ext)).map
        fun raw => shownEntry raw []) := by
  have hty : v.fatType ≠ .fat32 := by
    rw [h.fat12]
    decide
  have hlooks : LooksIn fuel v m path (dotted base ext) none (rootSlots v m) :=
    ⟨h.small, ⟨0, hfuel, .fixedRoot (storesRoot_self hty fun k _ => h.good _)⟩,
      [], Or.inl ⟨rfl, rfl⟩, hpath.components_eq⟩
  have hslots : (List.range' 0 (rootSlots v m).length).map (padded (rootSlots v m))
      = rootSlots v m := by
    rw [← List.range_eq_range']
    refine List.ext_getElem (by simp) fun i hi hi' => ?_
    simp [padded, hi']
  have hlisting := listing_plain (padded (rootSlots v m)) (rootSlots v m).length 0 rfl
  rw [hslots] at hlisting
  have hname : ∀ raw ∈ liveSlots (rootSlots v m),
      streqCi (shownEntry raw []).name (dotted base ext) = hasName base ext raw := by
    intro raw hraw
    rw [← fat12NameMatches_wanted hpath.name, nameMatches_eq hpath.name (hroot.named raw hraw)]
    rfl
  rw [fat32FindRoot_stored (fat32Mount_sectorsPerCluster h.mount) hlooks, nameStart, if_neg hty,
    hlisting hroot.short hroot.endShort,
    List.take_of_length_le (by rw [List.length_map]; exact hroot.few), List.find?_map,
    Function.comp_def, List.find?_congr hname]

end Root

section Files

/-- The chain from `first` has a cluster of the data region for each of the first `size` bytes. -/
def Covers (m : Medium) (b : Fat12Bpb) (first size : ℕ) : Prop :=
  ∀ k, k * (512 * b.sectorsPerCluster) < size →
    2 ≤ tableChain m b first k ∧ tableChain m b first k < fat12Eoc

/-- The chain comes to an end mark. -/
def ChainEnds (m : Medium) (b : Fat12Bpb) (first : ℕ) : Prop :=
  ∃ K, fat12Eoc ≤ tableChain m b first K

variable {size first : ℕ}

theorem readSectors_run (hm : m.Good) (hbytes : b.bytesPerSector = 512) (n : ℕ) :
    ∀ (lba : ℕ) (bytes : List UInt8), bytes.length ≤ size →
      (readSectors b size n lba bytes).run m.read
        = some (true, bytes ++
          stored m.byte (512 * lba + ·) (min (size - bytes.length) (512 * n))) := by
  induction n with
  | zero =>
    intro lba bytes _
    rw [Nat.mul_zero, Nat.min_zero]
    simp [readSectors, stored]
  | succ n ih =>
    intro lba bytes hle
    rw [readSectors]
    by_cases hlt : bytes.length < size
    · have hcount : (if size - bytes.length < 512 then size - bytes.length else 512)
          = min (size - bytes.length) 512 := by
        split_ifs <;> omega
      have hsector : bytesOf (fun i => if i < 512 * 1 then m.byte (512 * lba + i) else 0)
          (min (size - bytes.length) 512)
          = stored m.byte (512 * lba + ·) (min (size - bytes.length) 512) := by
        refine List.map_congr_left fun i hi => ?_
        rw [List.mem_range] at hi
        exact if_pos (by omega)
      rw [if_pos hlt]
      simp only [Query.run_bind, floppyRead_run hm, Option.bind_some, hbytes, hcount, hsector]
      have hlen : (bytes ++ stored m.byte (512 * lba + ·) (min (size - bytes.length) 512)).length
          = bytes.length + min (size - bytes.length) 512 := by
        rw [List.length_append, length_stored]
      rw [ih (lba + 1) _ (by rw [hlen]; omega), hlen, List.append_assoc]
      congr 3
      by_cases hlast : size - bytes.length ≤ 512
      · rw [Nat.min_eq_left hlast, Nat.min_eq_left (by omega : size - bytes.length ≤ 512 * (n + 1)),
          show size - (bytes.length + (size - bytes.length)) = 0 by omega, Nat.zero_min]
        simp [stored]
      · rw [Nat.min_eq_right (by omega : 512 ≤ size - bytes.length),
          show min (size - bytes.length) (512 * (n + 1))
            = 512 + min (size - (bytes.length + 512)) (512 * n) by omega, stored_add]
        congr 2
        funext i
        omega
    · rw [if_neg hlt, show size - bytes.length = 0 by omega, Nat.zero_min]
      simp [stored]

theorem fat12ClusterLba_eq (h : SameLayout b v) (hspc : v.sectorsPerCluster ≤ 8) {c : ℕ}
    (hc : 2 ≤ c) (hc' : c < fat12Eoc) : fat12ClusterLba b c = clusterLba v c := by
  have hbound := h.bound
  have hsmall : c - 2 ≤ 4096 := by
    unfold fat12Eoc at hc'
    omega
  have hmul : (c - 2) * v.sectorsPerCluster ≤ 4096 * 8 := Nat.mul_le_mul hsmall hspc
  have hsub : (c + (2 ^ 32 - 2)) % 2 ^ 32 = c - 2 := by omega
  rw [fat12ClusterLba, clusterLba, h.data, h.sectorsPerCluster, hsub]
  exact (Nat.mod_eq_of_lt (by omega)).symm

theorem fat12ReadLoop_done {fuel c : ℕ} {bytes : List UInt8} (h : bytes.length = size) :
    (fat12ReadLoop b size (fuel + 1) c bytes).run m.read
      = some ⟨Int.bmod size (2 ^ 32), bytes⟩ := by
  rw [fat12ReadLoop, if_neg (by omega), if_pos h, h]
  rfl

/-- The loop of `fat12_read` stores what the chain of `fs/fat32.c` stores. -/
theorem fat12ReadLoop_run (hm : m.Good) (h : SameLayout b v) (hty : v.fatType = .fat12)
    (hpos : 0 < v.sectorsPerCluster) (hspc : v.sectorsPerCluster ≤ 8) (fuel : ℕ) :
    ∀ (first : ℕ) (bytes : List UInt8), bytes.length ≤ size → size - bytes.length < fuel →
      (∀ k, k * v.clusters.clusterBytes < size - bytes.length →
        2 ≤ v.clusters.chainAt m first k ∧ v.clusters.chainAt m first k < fat12Eoc) →
      (fat12ReadLoop b size fuel first bytes).run m.read
        = some ⟨Int.bmod size (2 ^ 32), bytes ++
          stored m.byte (v.clusters.filePlace (v.clusters.chainAt m first))
            (size - bytes.length)⟩ := by
  have hV := clusters_sound hpos
  have hcb := hV.clusterBytes_pos
  induction fuel with
  | zero => exact fun _ _ _ hlt => absurd hlt (Nat.not_lt_zero _)
  | succ fuel ih =>
    intro first bytes hle hfuel hchain
    rcases hle.eq_or_lt with heq | hlt
    · rw [fat12ReadLoop_done heq, heq, Nat.sub_self]
      simp [stored]
    · obtain ⟨hge, heoc⟩ := hchain 0 (by omega)
      change 2 ≤ first at hge
      change first < fat12Eoc at heoc
      have hbase : v.clusters.base first = 512 * clusterLba v first := by
        rw [ClusterMap.base, show v.clusters.lba first = some (clusterLba v first) from rfl,
          Option.getD_some]
      rw [fat12ReadLoop, if_pos ⟨hge, heoc, hlt⟩]
      simp only [Query.run_bind, readSectors_run hm h.bytesPerSector _ _ bytes hle,
        fat12NextCluster_run hm h.bytesPerSector, Option.bind_some]
      rw [fat12ClusterLba_eq h hspc hge heoc, ← hbase, h.clusterBytes_eq,
        ClusterMap.stored_filePlace hV, ← List.append_assoc]
      generalize hcopy : min (size - bytes.length) v.clusters.clusterBytes = toCopy
      have hlen : (bytes ++ stored m.byte (v.clusters.base first + ·) toCopy).length
          = bytes.length + toCopy := by rw [List.length_append, length_stored]
      by_cases hrest : bytes.length + toCopy = size
      · obtain ⟨fuel, rfl⟩ : ∃ n, fuel = n + 1 := ⟨fuel - 1, by omega⟩
        rw [fat12ReadLoop_done (hlen.trans hrest), show size - bytes.length - toCopy = 0 by omega]
        simp [stored]
      · -- the next cluster is one of the file, so both drivers go on with it
        have hfull : toCopy = v.clusters.clusterBytes := by omega
        have hnext : tableEntry m.byte (512 * b.reservedSectors) first
            = v.clusters.nextAt m first := by
          have hlt' := (hchain 1 (by omega)).2
          change v.clusters.nextAt m first < fat12Eoc at hlt'
          rw [nextAt_eq hm h hty heoc] at hlt' ⊢
          split_ifs at hlt' ⊢ with hend
          · exact absurd hlt' (by decide)
          · rfl
        rw [hnext, ih (v.clusters.nextAt m first) _ (by rw [hlen]; omega) (by rw [hlen]; omega),
          hlen, Nat.sub_sub]
        intro k hk
        rw [hlen] at hk
        rw [ClusterMap.chainAt_next]
        refine hchain (k + 1) ?_
        rw [Nat.succ_mul]
        omega

theorem Covers.chainAt_eq (hm : m.Good) (h : SameLayout b v) (hty : v.fatType = .fat12)
    (hcov : Covers m b first size) :
    ∀ k, k * v.clusters.clusterBytes < size → v.clusters.chainAt m first k = tableChain m b first k
  | 0, _ => rfl
  | k + 1, hk => by
    have hk' : k * v.clusters.clusterBytes < size :=
      (Nat.mul_le_mul_right _ k.le_succ).trans_lt hk
    have hlt := (hcov (k + 1) (by rwa [h.clusterBytes_eq])).2
    rw [ClusterMap.chainAt, Covers.chainAt_eq hm h hty hcov k hk',
      nextAt_eq hm h hty (hcov k (by rwa [h.clusterBytes_eq])).2]
    exact if_neg (Nat.not_le.2 hlt)

/-- From where the chain meets itself again it goes on as before. -/
theorem tableChain_shift {i j : ℕ} (h : tableChain m b first i = tableChain m b first j) :
    ∀ t, tableChain m b first (i + t) = tableChain m b first (j + t)
  | 0 => h
  | t + 1 => congrArg (tableEntry m.byte (512 * b.reservedSectors)) (tableChain_shift h t)

/-- A chain that ends has no more clusters than the table has entries. -/
theorem Covers.size_lt (hcov : Covers m b first size) (hend : ChainEnds m b first)
    (hspc : b.sectorsPerCluster ≤ 8) : size < 2 ^ 31 := by
  classical
  let K := Nat.find hend
  have hK : fat12Eoc ≤ tableChain m b first K := Nat.find_spec hend
  have hbefore : ∀ k < K, tableChain m b first k < fat12Eoc := fun k hk =>
    Nat.not_le.1 (Nat.find_min hend hk)
  have hinj : Set.InjOn (tableChain m b first) (Finset.range K) := by
    have hne : ∀ i j, i < j → j < K → tableChain m b first i ≠ tableChain m b first j := by
      intro i j hij hj heq
      have hshift := tableChain_shift heq (K - j)
      rw [show j + (K - j) = K by omega] at hshift
      exact absurd hK (Nat.not_le.2 (hshift ▸ hbefore (i + (K - j)) (by omega)))
    intro i hi j hj heq
    rw [Finset.coe_range, Set.mem_Iio] at hi hj
    rcases lt_trichotomy i j with hlt | rfl | hlt
    · exact absurd heq (hne i j hlt hj)
    · rfl
    · exact absurd heq.symm (hne j i hlt hi)
  have hcard : K ≤ fat12Eoc := by
    have := Finset.card_le_card_of_injOn (t := Finset.range fat12Eoc) (tableChain m b first)
      (fun k hk => Finset.mem_coe.2 (Finset.mem_range.2 (hbefore k (Finset.mem_range.1 hk)))) hinj
    rwa [Finset.card_range, Finset.card_range] at this
  have hsize : size ≤ K * (512 * b.sectorsPerCluster) :=
    Nat.not_lt.1 fun hlt => absurd hK (Nat.not_le.2 (hcov K hlt).2)
  calc size ≤ K * (512 * b.sectorsPerCluster) := hsize
    _ ≤ fat12Eoc * (512 * 8) := Nat.mul_le_mul hcard (Nat.mul_le_mul_left _ hspc)
    _ < 2 ^ 31 := by decide

theorem bmod_of_lt (h : size < 2 ^ 31) : Int.bmod size (2 ^ 32) = size :=
  Int.bmod_eq_of_le (by omega) (by omega)

end Files

section Sample

def sampleBpb : Fat12Bpb where
  bytesPerSector := 512
  sectorsPerCluster := 1
  reservedSectors := 1
  numFats := 1
  rootEntries := 16
  sectorsPerFatSmall := 1

theorem sampleMedium_accepted : Accepted sampleMedium samplePartition sampleBpb sampleVolume where
  good := sampleMedium_good
  first := rfl
  init := by decide +kernel
  mount := by decide +kernel
  fat12 := rfl
  small := by decide
  spf16 := by decide

/-- The one slot in use is that of the file `A`. -/
theorem liveSlots_sample :
    liveSlots (rootSlots sampleVolume sampleMedium) = [rootSlot sampleVolume sampleMedium 0] := by
  have hslots : ∃ T, rootSlots sampleVolume sampleMedium
      = rootSlot sampleVolume sampleMedium 0 :: rootSlot sampleVolume sampleMedium 1 :: T :=
    ⟨_, rfl⟩
  obtain ⟨T, hT⟩ := hslots
  rw [hT, liveSlots_live (by decide +kernel) (by decide +kernel), liveSlots_end (by decide +kernel)]

theorem plainRoot_sample : PlainRoot (rootSlots sampleVolume sampleMedium) where
  few := by
    rw [liveSlots_sample]
    decide
  short raw hraw := by
    rw [liveSlots_sample, List.mem_singleton] at hraw
    rw [hraw]
    decide +kernel
  endShort raw hraw := by
    obtain ⟨i, hi, rfl⟩ := List.mem_map.1 (List.mem_of_find?_eq_some hraw)
    have hall : ∀ i < 16, ¬ isLongName (rootSlot sampleVolume sampleMedium i) := by decide +kernel
    exact hall i (List.mem_range.1 hi)
  named raw hraw := by
    rw [liveSlots_sample, List.mem_singleton] at hraw
    rw [hraw]
    exact ⟨[65], [], ⟨by decide, by decide, by simp⟩, by simp [upperAscii], by decide +kernel,
      by decide +kernel⟩
  high raw hraw := by
    rw [liveSlots_sample, List.mem_singleton] at hraw
    rw [hraw]
    decide +kernel

end Sample

end Fat

end PeanutKernel
