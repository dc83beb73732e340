import PeanutKernel.Proofs.Fat32Listing

/-!
# Long names in a directory listing

A long name is stored in pieces of 13 characters, the last piece first, right before the slot of
the file. `parse_lfn_entry` puts piece `k` at `13 * k` and a terminator after each character it
stores, so the first piece, which comes last, ends with a terminator over the first character of
the second: every longer name is listed with its first 13 characters (`LongNameAt.shown`).
-/

namespace PeanutKernel

namespace Fat

section Encoding

/-- The UTF-16 unit at a position of a stored name: after the name a terminator, then padding. -/
def longNameUnit (name : List UInt8) (i : ℕ) : ℕ :=
  if i = name.length then 0x0000 else if h : i < name.length then (name[i]).toNat else 0xFFFF

/-- The units of piece `k` from its `i`-th on, `n` of them, in little-endian order. -/
def longNameUnits (name : List UInt8) (k i n : ℕ) : List UInt8 :=
  (List.range n).flatMap fun j =>
    let u := longNameUnit name (13 * k + (i + j))
    [UInt8.ofNat u, UInt8.ofNat (u / 2 ^ 8)]

/-- The number of pieces. -/
def pieceCount (name : List UInt8) : ℕ := (name.length + 12) / 13

/-- The slot of piece `k`, with sequence number `k + 1`, marked if it is the last piece. -/
def longNameSlot (checksum : UInt8) (name : List UInt8) (k : ℕ) : List UInt8 :=
  (if k + 1 = pieceCount name then 0x40 ||| UInt8.ofNat (k + 1) else UInt8.ofNat (k + 1))
    :: longNameUnits name k 0 5 ++ [attrLongName, 0, checksum] ++ longNameUnits name k 5 6 ++ [0, 0]
    ++ longNameUnits name k 11 2

/-- The name stands in the slots from `p` on, directly before the slot of its file. -/
structure LongNameAt (slot : ℕ → Buf) (checksum : UInt8) (name : List UInt8) (p : ℕ) : Prop where
  pos : name ≠ []
  short : name.length < maxName
  ascii : ∀ c ∈ name, c ≠ 0 ∧ c < 128
  pieces : ∀ j < pieceCount name, ∀ i < 32,
    slot (p + j) i = (longNameSlot checksum name (pieceCount name - 1 - j)).getD i 0
  entry : IsEntry (slot (p + pieceCount name))

/-- The listing of at most `maxEntries` entries gets as far as slot `n`. -/
structure Reaches (slot : ℕ → Buf) (maxEntries n : ℕ) : Prop where
  live : ∀ i < n, ¬ EndMark (slot i)
  room : entryCount slot n < maxEntries

end Encoding

section Name

variable {slot : ℕ → Buf} {checksum : UInt8} {name : List UInt8} {p : ℕ}

theorem longNameUnit_lt (name : List UInt8) (i : ℕ) : longNameUnit name i < 2 ^ 16 := by
  unfold longNameUnit
  split_ifs with _ h
  · omega
  · have := name[i].toNat_lt
    omega
  · omega

/-- The units of a slot stand where `parse_lfn_entry` looks for them. -/
theorem le16_longNameSlot {raw : Buf} {k : ℕ}
    (hraw : ∀ i < 32, raw i = (longNameSlot checksum name k).getD i 0) {j : ℕ}
    (hj : j < lfnOffsets.length) : le16 raw lfnOffsets[j] = longNameUnit name (13 * k + j) := by
  have hunit : ∀ u, u < 2 ^ 16 →
      (UInt8.ofNat u).toNat + 2 ^ 8 * (UInt8.ofNat (u / 2 ^ 8)).toNat = u := by
    intro u hu
    rw [UInt8.toNat_ofNat', UInt8.toNat_ofNat']
    omega
  refine Eq.trans ?_ (hunit _ (longNameUnit_lt name (13 * k + j)))
  have hj' : j < 13 := hj
  unfold le16
  rcases j with _ | _ | _ | _ | _ | _ | _ | _ | _ | _ | _ | _ | _ | j
  on_goal 14 => omega
  all_goals
    simp only [lfnOffsets, List.getElem_cons_zero, List.getElem_cons_succ]
    rw [hraw _ (by decide), hraw _ (by decide)]
    rfl

/-- Units of a name are taken over as its characters. -/
theorem lfnChars_name (hascii : ∀ c ∈ name, c ≠ 0 ∧ c < 128) (raw : Buf) :
    ∀ (offs : List ℕ) (pos : ℕ),
      (∀ j (hj : j < offs.length), le16 raw offs[j] = longNameUnit name (pos + j)) →
      pos ≤ name.length → lfnChars raw offs = (name.drop pos).take offs.length
  | [], _, _, _ => rfl
  | off :: offs, pos, hunits, hpos => by
    have hhead : le16 raw off = longNameUnit name pos := hunits 0 (Nat.succ_pos _)
    rw [lfnChars_cons, hhead, List.length_cons]
    rcases hpos.lt_or_eq with hlt | rfl
    · have hu : longNameUnit name pos = name[pos].toNat := by
        rw [longNameUnit, if_neg (by omega), dif_pos hlt]
      obtain ⟨hne, h128⟩ := hascii _ (List.getElem_mem hlt)
      have hz : name[pos].toNat ≠ 0 := fun h => hne (UInt8.toNat_inj.1 h)
      have hl : name[pos].toNat < 128 := UInt8.lt_iff_toNat_lt.1 h128
      have hrest := lfnChars_name hascii raw offs (pos + 1) (fun j hj => by
        have := hunits (j + 1) (by simpa using hj)
        rw [List.getElem_cons_succ] at this
        rw [this, Nat.add_right_comm, Nat.add_assoc]) hlt
      rw [hu, if_neg (by omega), if_pos hl, UInt8.ofNat_toNat, hrest,
        List.drop_eq_getElem_cons hlt, List.take_succ_cons]
    · rw [longNameUnit, if_pos rfl, if_pos (Or.inl rfl), List.drop_length, List.take_nil]

/-- The first piece leaves the first 13 characters, whatever the buffer held before. -/
theorem lfnStep_firstPiece (hascii : ∀ c ∈ name, c ≠ 0 ∧ c < 128) {raw : Buf}
    (hraw : ∀ i < 32, raw i = (longNameSlot checksum name 0).getD i 0) (before : List UInt8) :
    lfnStep raw before = name.take 13 := by
  have h0 : raw 0 &&& 0x1F = 1 := by
    rw [hraw 0 (by decide)]
    unfold longNameSlot
    split_ifs
    · exact (by decide : ((0x40 ||| UInt8.ofNat 1) &&& 0x1F : UInt8) = 1)
    · exact (by decide : (UInt8.ofNat 1 &&& 0x1F : UInt8) = 1)
  have hchars : lfnChars raw lfnOffsets = name.take 13 := by
    rw [lfnChars_name hascii raw lfnOffsets 0
      (fun j hj => by rw [le16_longNameSlot hraw hj]) (Nat.zero_le _), List.drop_zero]
    rfl
  have hlen : (name.take 13).length ≤ maxName - 1 := by
    rw [List.length_take]
    unfold maxName
    omega
  rw [lfnStep, h0, if_neg (by decide)]
  simp only [UInt8.toNat_one, Nat.sub_self, Nat.zero_mul, Nat.zero_le, if_true, List.take_zero,
    List.nil_append, hchars, List.take_of_length_le hlen]

theorem pieceCount_pos (hne : name ≠ []) : 0 < pieceCount name := by
  have := List.length_pos_iff.2 hne
  unfold pieceCount
  omega

theorem LongNameAt.isLongName (h : LongNameAt slot checksum name p) {j : ℕ}
    (hj : j < pieceCount name) : Fat.isLongName (slot (p + j)) := by
  have h11 : slot (p + j) 11 = attrLongName := h.pieces j hj 11 (by decide)
  unfold Fat.isLongName
  rw [h11]
  decide

theorem LongNameAt.entryCount (h : LongNameAt slot checksum name p) :
    ∀ j ≤ pieceCount name, Fat.entryCount slot (p + j) = Fat.entryCount slot p
  | 0, _ => rfl
  | j + 1, hj => by
    have hnot : ¬ IsEntry (slot (p + j)) := fun he => he.1 (h.isLongName hj)
    rw [← Nat.add_assoc, Fat.entryCount, if_neg hnot, Nat.add_zero, h.entryCount j (by omega)]

/-- There is no end mark up to the slot of the file. -/
theorem LongNameAt.live (h : LongNameAt slot checksum name p)
    (hlive : ∀ i < p, ¬ EndMark (slot i)) :
    ∀ i < p + pieceCount name, ¬ EndMark (slot i) := by
  intro i hi hend
  rcases Nat.lt_or_ge i p with hlt | hge
  · exact hlive i hlt hend
  · obtain ⟨j, rfl⟩ := Nat.exists_eq_add_of_le hge
    exact hend.1 (h.isLongName (by omega))

/-- A name assembled from its own slots on, or from earlier ones, is cut at 13 characters. -/
theorem LongNameAt.shown (h : LongNameAt slot checksum name p) {start : ℕ → ℕ}
    (hstart : start (p + pieceCount name) ≤ p) :
    (shownAt slot start (p + pieceCount name)).name = name.take 13 := by
  obtain ⟨j, hj⟩ : ∃ j, pieceCount name = j + 1 :=
    Nat.exists_eq_succ_of_ne_zero (pieceCount_pos h.pos).ne'
  -- the first piece comes last
  have hpiece : ∀ i < 32, slot (p + j) i = (longNameSlot checksum name 0).getD i 0 := by
    intro i hi
    rw [h.pieces j (by omega) i hi, show pieceCount name - 1 - j = 0 by omega]
  have hname : assembled slot (start (p + pieceCount name)) (p + pieceCount name)
      = name.take 13 := by
    rw [hj, ← Nat.add_assoc, assembled_succ slot (by rw [Nat.add_assoc, ← hj]; omega), nextName,
      if_pos (h.isLongName (by omega)), lfnStep_firstPiece h.ascii hpiece]
  have hne : name.take 13 ≠ [] := by
    rw [Ne, List.take_eq_nil_iff]
    exact fun hor => hor.elim (by decide) h.pos
  rw [shownAt, shownEntry, hname]
  exact if_neg hne

end Name

section Listing

variable {v : Fat32Volume} {m : Medium} {maxEntries : ℕ} {checksum : UInt8} {name : List UInt8}

/-- The program lists `name` as its entry number `i`. -/
def ListsName (prog : BlockM (List Fat32DirEntry)) (m : Medium) (i : ℕ)
    (name : List UInt8) : Prop :=
  ∃ entries e, prog.run m.read = some entries ∧ entries[i]? = some e ∧ e.name = name

/-- A program that lists the slots up to the one of the file. -/
theorem listsName_iff {prog : BlockM (List Fat32DirEntry)} {slot : ℕ → Buf} {start : ℕ → ℕ}
    {p n : ℕ}
    (hrun : prog.run m.read = some ((listing slot start n 0).take maxEntries))
    (h : LongNameAt slot checksum name p) (hr : Reaches slot maxEntries p)
    (hstart : start (p + pieceCount name) ≤ p) (hn : p + pieceCount name < n) :
    ListsName prog m (entryCount slot p) name ↔ name.length ≤ 13 := by
  have hname := h.shown hstart
  have he : ((listing slot start n 0).take maxEntries)[entryCount slot p]?
      = some (shownAt slot start (p + pieceCount name)) := by
    rw [List.getElem?_take_of_lt hr.room, ← h.entryCount _ le_rfl,
      listing_getElem? start hn h.entry (h.live hr.live)]
  constructor
  · rintro ⟨entries', e', hrun', he', hname'⟩
    rw [hrun, Option.some_inj] at hrun'
    rw [← hrun', he, Option.some_inj] at he'
    rw [← hname', ← he', hname, List.length_take]
    exact Nat.min_le_left _ _
  · intro hlen
    exact ⟨_, _, hrun, he, by rw [hname, List.take_of_length_le hlen]⟩

/-- A long name is listed as it is stored exactly if it has at most 13 characters: by
`list_cluster_entries` and, on FAT32, `fat32_list_root` from a cluster of a chain that ends, and by
`fat32_list_root` from a fixed root directory. -/
theorem longName_listed_iff (hm : m.Good) (hpos : 0 < v.sectorsPerCluster)
    (hspc : v.sectorsPerCluster ≤ 8) (maxEntries : ℕ) (checksum : UInt8) (name : List UInt8) :
    (∀ first k p K fuel : ℕ,
      LongNameAt (dirSlot v m first) checksum name (k * slotsPerCluster v + p) →
      p + pieceCount name < slotsPerCluster v →
      Reaches (dirSlot v m first) maxEntries (k * slotsPerCluster v + p) →
      (∀ j ≤ k, v.clusters.chainAt m first j < fat32Eoc) →
      fat32Eoc ≤ v.clusters.chainAt m first K → K < fuel →
      (ListsName (listClusterEntries fuel v first maxEntries) m
          (entryCount (dirSlot v m first) (k * slotsPerCluster v + p)) name
        ↔ name.length ≤ 13) ∧
      (v.fatType = .fat32 → first = v.rootCluster →
        (ListsName (fat32ListRoot fuel v maxEntries) m
            (entryCount (dirSlot v m first) (k * slotsPerCluster v + p)) name
          ↔ name.length ≤ 13))) ∧
    ∀ p fuel : ℕ, v.fatType ≠ .fat32 → LongNameAt (rootSlot v m) checksum name p →
      p + pieceCount name < v.rootDirSectors * 16 → Reaches (rootSlot v m) maxEntries p →
      (ListsName (fat32ListRoot fuel v maxEntries) m (entryCount (rootSlot v m) p) name
        ↔ name.length ≤ 13) := by
  refine ⟨fun first k p K fuel h hp hr hchain hend hfuel => ?_, fun p fuel hty h hp hr => ?_⟩
  · have hmax : maxEntries ≠ 0 := (Nat.zero_le _).trans_lt hr.room |>.ne'
    have hends : v.clusters.enters (v.clusters.chainAt m first K) = false :=
      decide_eq_false (Nat.not_lt.2 hend)
    obtain ⟨K', hK', hread⟩ := ClusterMap.exists_readableChain hm (fun c hc => ⟨hc, rfl⟩) hends
    have hlast : k < K' := by
      by_contra hge
      exact absurd (hchain K' (by omega)) (of_decide_eq_false hread.ends)
    have hrun := listChain_listing hpos hread (hK'.trans_lt hfuel) maxEntries
    have hstart : clusterStart v (k * slotsPerCluster v + p + pieceCount name)
        ≤ k * slotsPerCluster v + p := by
      rw [clusterStart, Nat.add_assoc, Nat.mul_comm k, Nat.mul_add_div (by omega),
        Nat.div_eq_of_lt hp, Nat.add_zero]
      omega
    have hin : k * slotsPerCluster v + p + pieceCount name < K' * slotsPerCluster v := by
      have := Nat.mul_le_mul_right (slotsPerCluster v) hlast
      rw [Nat.succ_mul] at this
      omega
    refine ⟨listsName_iff ?_ h hr hstart hin, fun hty hroot => listsName_iff ?_ h hr hstart hin⟩
    · rw [listClusterEntries, if_neg (by omega), hrun]
    · rw [fat32ListRoot, if_neg (by omega), if_neg (by simp [hty]), ← hroot, hrun]
  · have hmax : maxEntries ≠ 0 := (Nat.zero_le _).trans_lt hr.room |>.ne'
    have hrun : (fat32ListRoot fuel v maxEntries).run m.read = some ((listing (rootSlot v m)
        (fun _ => 0) (v.rootDirSectors * 16) 0).take maxEntries) := by
      rw [fat32ListRoot, if_neg (by omega), if_pos hty]
      exact listFixedRoot_listing (fun k _ => hm _) maxEntries
    exact listsName_iff hrun h hr (Nat.zero_le p) hp

/-- A long name as it is stored, with the slot of its file. -/
def nameSlots (name : List UInt8) : List UInt8 :=
  (List.range (pieceCount name)).reverse.flatMap (longNameSlot 0 name)
    ++ (List.range 32).map fun i => ((sampleSlot 2).lookup (1024 + i)).getD 0

/-- A volume with a long name in the root directory and in the directory in cluster 2. -/
def nameMedium (name : List UInt8) : Medium :=
  ⟨fun a =>
    if a < 1024 then (sampleFat.lookup a).getD 0
    else if a < 1536 then (nameSlots name).getD (a - 1024) 0
    else (nameSlots name).getD (a - 1536) 0,
  fun _ => false⟩

def thirteenLetters : List UInt8 := (List.range 13).map fun i => UInt8.ofNat (97 + i)

def fourteenLetters : List UInt8 := (List.range 14).map fun i => UInt8.ofNat (97 + i)

theorem nameMedium_root_thirteen :
    LongNameAt (rootSlot sampleVolume (nameMedium thirteenLetters)) 0 thirteenLetters 0 :=
  ⟨by decide, by decide, by decide +kernel, by decide +kernel, by decide +kernel⟩

theorem nameMedium_dir_thirteen :
    LongNameAt (dirSlot sampleVolume (nameMedium thirteenLetters) 2) 0 thirteenLetters 0 :=
  ⟨by decide, by decide, by decide +kernel, by decide +kernel, by decide +kernel⟩

theorem longName_listed_iff_thirteen :
    ListsName (fat32ListRoot 3 sampleVolume 64) (nameMedium thirteenLetters) 0 thirteenLetters ∧
    ListsName (listClusterEntries 3 sampleVolume 2 64) (nameMedium thirteenLetters) 0
      thirteenLetters := by
  have h := longName_listed_iff (v := sampleVolume) (m := nameMedium thirteenLetters) (fun _ => rfl)
    (by decide) (by decide) 64 0 thirteenLetters
  have hreach : ∀ slot : ℕ → Buf, Reaches slot 64 0 := fun slot => ⟨by simp, by simp [entryCount]⟩
  refine ⟨(h.2 0 3 (by decide) nameMedium_root_thirteen (by decide) (hreach _)).2 (by decide), ?_⟩
  exact (h.1 2 0 0 2 3 nameMedium_dir_thirteen (by decide) (hreach _)
    (fun j hj => by obtain rfl : j = 0 := Nat.le_zero.1 hj; decide) (by decide +kernel)
    (by decide)).1.2 (by decide)

/-- A name of 14 letters is listed without its last one. -/
theorem fourteenLetters_truncated :
    LongNameAt (rootSlot sampleVolume (nameMedium fourteenLetters)) 0 fourteenLetters 0 ∧
    Reaches (rootSlot sampleVolume (nameMedium fourteenLetters)) 64 0 ∧
    (fat32ListRoot 3 sampleVolume 64).run (nameMedium fourteenLetters).read
      = some [⟨thirteenLetters, 0x20, 2, 600⟩] ∧
    ¬ ListsName (fat32ListRoot 3 sampleVolume 64) (nameMedium fourteenLetters) 0
      fourteenLetters := by
  have hrun : (fat32ListRoot 3 sampleVolume 64).run (nameMedium fourteenLetters).read
      = some [⟨thirteenLetters, 0x20, 2, 600⟩] := by
    decide +kernel
  refine ⟨⟨by decide, by decide, by decide +kernel, by decide +kernel, by decide +kernel⟩,
    ⟨by simp, by simp [entryCount]⟩, hrun, ?_⟩
  rintro ⟨entries, e, hrun', he, hname⟩
  rw [hrun, Option.some_inj] at hrun'
  rw [← hrun', List.getElem?_cons_zero, Option.some_inj] at he
  rw [← he] at hname
  exact absurd hname (by decide)

end Listing

end Fat

end PeanutKernel
