import PeanutKernel.Proofs.ClusterWrites
import PeanutKernel.Proofs.ExtfsIndirect
import PeanutKernel.Proofs.ExtfsVisits

/-!
# Which sectors an ext write reaches

`extfs_write_file` writes the block at which the pointers or the extents of the inode have a block
of the file (`mapBlock_yields_iff`), and never compares the number with the size of the volume. A
block it comes to has been read as a whole, so all its sectors are written (`writeLoop_sectors`).
The writes stay in the volume, also those before a mapping that does not return, just when the
numbers of those blocks are below the number of blocks (`extfs_write_contained_iff`).
-/

namespace PeanutKernel

namespace Ext

open Query StateTransition

variable {fuel : ℕ} {v : ExtVolume} {m : Medium} {inode : Buf} {firstLba b pb : ℕ}

section Sectors

/-- The transfers of `k` whole sectors from byte `pos` on. -/
def sectorTransfers (firstLba pos k : ℕ) : List Transfer :=
  (List.range k).map fun i => ⟨partBytesToLba firstLba (pos + 512 * i), 1⟩

theorem sectorTransfers_succ (firstLba pos k : ℕ) :
    sectorTransfers firstLba pos (k + 1)
      = ⟨partBytesToLba firstLba pos, 1⟩ :: sectorTransfers firstLba (pos + 512) k := by
  simp only [sectorTransfers, List.range_succ_eq_map, List.map_cons, List.map_map, Nat.mul_zero,
    Nat.add_zero, List.cons.injEq, true_and, List.map_inj_left, Function.comp_apply]
  intro i _
  rw [show pos + 512 * i.succ = pos + 512 + 512 * i by omega]

/-- Whole sectors that have been read can be transferred. -/
theorem readLoop_good (k : ℕ) :
    ∀ (n pos : ℕ) (l : List UInt8), 512 ∣ pos → pos + 512 * k < 2 ^ 64 →
      (readLoop firstLba n pos (512 * k)).run m.read = some (some l) →
      ∀ t ∈ sectorTransfers firstLba pos k, t.sectors.any m.bad = false := by
  induction k with
  | zero => exact fun _ _ _ _ _ _ t ht => absurd ht (by simp [sectorTransfers])
  | succ k ih =>
    intro n pos l hpos hlt h t ht
    rcases n with _ | n
    · rw [readLoop, if_neg (by omega)] at h
      simp at h
    · have hone : (blockRead (partBytesToLba firstLba pos) 1).run m.read
          = some (m.read ⟨partBytesToLba firstLba pos, 1⟩) := rfl
      have htake : min (512 - pos % 512) (512 * (k + 1)) = 512 := by omega
      have hnext : (pos + 512) % 2 ^ 64 = pos + 512 := by omega
      have hleft : 512 * (k + 1) - 512 = 512 * k := by omega
      rw [readLoop, if_neg (by omega)] at h
      simp only [Query.run_bind, hone, Option.bind_some, htake, hnext, hleft] at h
      rw [sectorTransfers_succ, List.mem_cons] at ht
      rcases hsec : m.read ⟨partBytesToLba firstLba pos, 1⟩ with _ | sec
      · simp [hsec] at h
      · rcases ht with rfl | ht
        · unfold Medium.read at hsec
          split_ifs at hsec with hbad
          simpa using hbad
        · simp only [hsec, Query.run_bind, Option.bind_eq_some_iff] at h
          obtain ⟨_ | rest, hrest, h⟩ := h
          · simp at h
          · exact ih n (pos + 512) rest (by omega) (by omega) hrest t ht

/-- Whole sectors that can be transferred are all written. -/
theorem writeLoop_sectors (k : ℕ) :
    ∀ (n pos : ℕ) (data : List UInt8) (m : Medium), 512 ∣ pos → pos + 512 * k < 2 ^ 64 →
      data.length = 512 * k → 512 * k ≤ n →
      (∀ t ∈ sectorTransfers firstLba pos k, t.sectors.any m.bad = false) →
      ∃ m', ∀ writes, writeLoop firstLba n pos data m writes
        = some ⟨0, m', writes ++ sectorTransfers firstLba pos k⟩ := by
  induction k with
  | zero =>
    intro n pos data m _ _ hlen _ _
    obtain rfl : data = [] := List.length_eq_zero_iff.1 (by omega)
    refine ⟨m, fun writes => ?_⟩
    cases n <;> simp [writeLoop, sectorTransfers]
  | succ k ih =>
    intro n pos data m hpos hlt hlen hn hgood
    obtain ⟨n, rfl⟩ : ∃ n', n = n' + 1 := ⟨n - 1, by omega⟩
    have hne : data ≠ [] := List.length_pos_iff.1 (by omega)
    rw [sectorTransfers_succ] at hgood
    have hfirst := hgood _ List.mem_cons_self
    obtain ⟨m', hm'⟩ := ih n (pos + 512) (data.drop 512)
      { m with
        byte := storeByte m.byte ⟨partBytesToLba firstLba pos, 1⟩
          (patchAt (fun _ => 0) 0 (data.take 512)) }
      (by omega) (by omega) (by rw [List.length_drop]; omega) (by omega)
      fun t ht => hgood t (List.mem_cons_of_mem _ ht)
    refine ⟨m', fun writes => ?_⟩
    have hin : pos % 512 = 0 := by omega
    have htake : min (512 - 0) data.length = 512 := by omega
    have hnext : (pos + 512) % 2 ^ 64 = pos + 512 := by omega
    rw [writeLoop, if_neg hne]
    simp only [hin, htake, hnext, ne_eq, not_true_eq_false, if_false, blockWrite, Nat.one_ne_zero,
      hfirst, Bool.false_eq_true]
    rw [hm', sectorTransfers_succ, List.append_assoc, List.singleton_append]

end Sectors

section Places

/-- Word `i` of a block, 0 if its sector cannot be read. -/
def wordAt (v : ExtVolume) (m : Medium) (pb i : ℕ) : ℕ :=
  match m.read ⟨partBytesToLba v.partition.firstLba (pb * v.blockSize + i / 128 * 512), 1⟩ with
  | none => 0
  | some sec => le32 sec (i % 128 * 4)

/-- A pointer in the inode, or in a block as the disk holds it. -/
def pointerAt (v : ExtVolume) (m : Medium) (inode : Buf) : Table → ℕ → ℕ
  | .inode, i => inodeBlockPtr inode i
  | .block pb, i => wordAt v m pb i

/-- The first extent of the leaf that covers block `b` of the file has it at block `pb`. -/
def LeafPlaces (leaf : Buf) (b pb : ℕ) : Prop :=
  ∃ i < nodeEntries leaf, extentBlock (nodeEntry leaf i) b = some pb ∧
    ∀ j < i, extentBlock (nodeEntry leaf j) b = none

/-- The pointers or the extents of the inode have block `b` of the file at block `pb`. -/
def Places (v : ExtVolume) (m : Medium) (inode : Buf) (b pb : ℕ) : Prop :=
  if inodeFlags inode &&& extentsFl ≠ 0 then
    ∃ leaf, Reaches (nextNode v m b) (extentRoot inode) leaf ∧
      nodeMagic leaf = extentMagic ∧ nodeDepth leaf = 0 ∧ LeafPlaces leaf b pb
  else follow (pointerAt v m inode) .inode (position (v.blockSize / 4) b) = pb

theorem pointerAt_lt (t : Table) (i : ℕ) : pointerAt v m inode t i < 2 ^ 32 := by
  cases t with
  | inode => exact le32_lt _ _
  | block pb =>
    simp only [pointerAt, wordAt]
    split
    · decide
    · exact le32_lt _ _

/-- A whole sector is one transfer. -/
theorem readLoop_sector (n : ℕ) {pos : ℕ} (hpos : pos % 512 = 0) :
    (readLoop firstLba (n + 1) pos 512).run m.read
      = some ((m.read ⟨partBytesToLba firstLba pos, 1⟩).map fun sec => bytesOf sec 512) := by
  have hone : (blockRead (partBytesToLba firstLba pos) 1).run m.read
      = some (m.read ⟨partBytesToLba firstLba pos, 1⟩) := rfl
  have hnil : ∀ pos, readLoop firstLba n pos 0 = pure (some []) := fun pos => by
    cases n <;> rfl
  rw [readLoop, if_neg (by decide)]
  simp only [run_bind, hone, Option.bind_some, hpos, Nat.sub_zero, Nat.min_self, Nat.sub_self]
  rcases m.read ⟨partBytesToLba firstLba pos, 1⟩ with _ | sec
  · rfl
  · simp [hnil]

theorem readU32Block_word (hdvd : 512 ∣ v.blockSize) (pb i : ℕ) :
    (readU32Block v pb i).run m.read = some (wordAt v m pb i) := by
  have hpos : (pb * v.blockSize + i / 128 * 512) % 512 = 0 := by
    have := hdvd.mul_left pb
    omega
  simp only [readU32Block, readBytes, run_bind, readLoop_sector 511 hpos, Option.bind_some,
    run_pure, wordAt]
  rcases m.read _ with _ | sec
  · rfl
  · refine congrArg some (le32_congr fun x _ hx => ?_)
    simp [bytesOf, List.getD, show x < 512 by omega]

theorem leafPlaces_iff {leaf : Buf} (hpb : pb ≠ 0) :
    LeafPlaces leaf b pb ↔ leafBlock leaf b = pb := by
  have hsome : leafBlock leaf b = pb ↔ (List.range (nodeEntries leaf)).findSome?
      (fun i => extentBlock (nodeEntry leaf i) b) = some pb := by
    rw [leafBlock]
    rcases List.findSome? _ _ with _ | pb'
    · simp [hpb.symm]
    · simp
  exact SplitSearch.findSome?_range_eq_some.symm.trans hsome.symm

theorem mapExtentsRecurse_yields_iff {node : Buf} :
    Yields m.read (mapExtentsRecurse v b · node) pb ↔
      ∃ leaf, Reaches (nextNode v m b) node leaf ∧ nextNode v m b leaf = none ∧
        lastBlock b leaf = pb := by
  constructor
  · rintro ⟨fuel, h⟩
    induction fuel generalizing node with
    | zero => exact ⟨node, .refl, mapExtentsRecurse_zero h⟩
    | succ fuel ih =>
      rw [mapExtentsRecurse_succ] at h
      rcases hn : nextNode v m b node with _ | next
      · rw [hn] at h
        exact ⟨node, .refl, hn, Option.some_inj.1 h⟩
      · rw [hn] at h
        obtain ⟨leaf, hreach, hlast⟩ := ih h
        exact ⟨leaf, hreach.head hn, hlast⟩
  · rintro ⟨leaf, hreach, hn, hlast⟩
    induction hreach using Relation.ReflTransGen.head_induction_on with
    | refl => exact ⟨1, by rw [mapExtentsRecurse_succ, hn, hlast]⟩
    | head hstep _ ih =>
      obtain ⟨fuel, h⟩ := ih
      exact ⟨fuel + 1, by rw [mapExtentsRecurse_succ, hstep]; exact h⟩

/-- `map_block` returns the block where the inode has the block of the file. -/
theorem mapBlock_yields_iff (hdvd : 512 ∣ v.blockSize) (hpb : pb ≠ 0) :
    Yields m.read (mapBlock · v inode b) pb ↔ Places v m inode b pb := by
  unfold Places mapBlock
  split_ifs with hflag
  · refine mapExtentsRecurse_yields_iff.trans (exists_congr fun leaf => and_congr_right fun _ => ?_)
    constructor
    · rintro ⟨-, hlast⟩
      rw [lastBlock] at hlast
      split_ifs at hlast with hleaf
      · exact ⟨hleaf.1, hleaf.2, (leafPlaces_iff hpb).2 hlast⟩
      · exact absurd hlast.symm hpb
    · rintro ⟨hmagic, hdepth, hplaces⟩
      refine ⟨by rw [nextNode, if_pos (.inr (.inl hdepth))], ?_⟩
      rw [lastBlock, if_pos ⟨hmagic, hdepth⟩]
      exact (leafPlaces_iff hpb).1 hplaces
  · rw [yields_const, mapIndirect_follow (pointerAt v m inode) (fun _ => rfl) pointerAt_lt
      fun pb _ i _ => readU32Block_word hdvd pb i, Option.some_inj]

end Places

section Blocks

variable {size n written : ℕ} {buffer : List UInt8}

/-- The transfers of a block. -/
def blockTransfers (v : ExtVolume) (pb : ℕ) : List Transfer :=
  sectorTransfers v.partition.firstLba (pb * v.blockSize) (v.blockSize / 512)

/-- The bytes of the buffer that go to the block at `written`. -/
def chunkAt (v : ExtVolume) (size : ℕ) (buffer : List UInt8) (written : ℕ) : List UInt8 :=
  (buffer.drop written).take (min (size - written) v.blockSize)

/-- Block `b` of the file is at block `pb` of the volume, which is read and written, leaving
`m'`. -/
def Round (v : ExtVolume) (inode : Buf) (size : ℕ) (buffer : List UInt8) (b written : ℕ)
    (m : Medium) (pb : ℕ) (m' : Medium) : Prop :=
  Places v m inode b pb ∧ pb ≠ 0 ∧
    ∃ blk, (readBlockFull v pb).run m.read = some (some blk) ∧
      ∀ writes, writeBytes v.partition.firstLba (pb * v.blockSize)
        (bytesOf (patch blk (chunkAt v size buffer written)) v.blockSize) m writes
          = some ⟨0, m', writes ++ blockTransfers v pb⟩

/-- The loop over `n` blocks from block `b` on comes to write block `pb` of the volume. -/
inductive Hands (v : ExtVolume) (inode : Buf) (size : ℕ) (buffer : List UInt8) :
    ℕ → ℕ → ℕ → Medium → ℕ → Prop
  | here {n b written : ℕ} {m m' : Medium} {pb : ℕ} :
      Round v inode size buffer b written m pb m' →
      Hands v inode size buffer (n + 1) b written m pb
  | there {n b written : ℕ} {m m' : Medium} {pb pb' : ℕ} :
      Round v inode size buffer b written m pb m' →
      written + min (size - written) v.blockSize < buffer.length →
      Hands v inode size buffer n (b + 1) (written + min (size - written) v.blockSize) m' pb' →
      Hands v inode size buffer (n + 1) b written m pb'

theorem Hands.le {n' : ℕ} (h : Hands v inode size buffer n b written m pb) (hle : n ≤ n') :
    Hands v inode size buffer n' b written m pb := by
  induction h generalizing n' with
  | here h =>
    obtain ⟨k, rfl⟩ : ∃ k, n' = k + 1 := ⟨n' - 1, by omega⟩
    exact .here h
  | there h hlt _ ih =>
    obtain ⟨k, rfl⟩ : ∃ k, n' = k + 1 := ⟨n' - 1, by omega⟩
    exact .there h hlt (ih (by omega))

theorem Hands.lt (hdvd : 512 ∣ v.blockSize) (h : Hands v inode size buffer n b written m pb) :
    pb < 2 ^ 32 := by
  induction h with
  | here h =>
    obtain ⟨fuel, hmap⟩ := (mapBlock_yields_iff hdvd h.2.1).2 h.1
    exact mapBlock_lt fuel v inode _ _ hmap
  | there _ _ _ ih => exact ih

/-- A block that is read is written. -/
theorem round_of_read (hbs : v.blockSize ≤ 4096) (hdvd : 512 ∣ v.blockSize) {blk : Buf}
    (hmap : (mapBlock fuel v inode b).run m.read = some pb) (hne : pb ≠ 0)
    (hblk : (readBlockFull v pb).run m.read = some (some blk)) :
    ∃ m', Round v inode size buffer b written m pb m' := by
  have hplaces := (mapBlock_yields_iff hdvd hne).1 ⟨fuel, hmap⟩
  obtain ⟨k, hk⟩ := hdvd
  have hbound := block_bound hbs (mapBlock_lt fuel v inode b pb hmap) (le_refl v.blockSize)
  have hpos : 512 ∣ pb * v.blockSize := Nat.dvd_mul_left_of_dvd ⟨k, hk⟩ pb
  have hgood : ∀ t ∈ sectorTransfers v.partition.firstLba (pb * v.blockSize) k,
      t.sectors.any m.bad = false := by
    simp only [readBlockFull, readBytes, Query.run_bind, Option.bind_eq_some_iff,
      Query.run_pure, Option.some_inj, Option.map_eq_some_iff] at hblk
    obtain ⟨_, hloop, l, rfl, -⟩ := hblk
    nth_rewrite 3 [hk] at hloop
    exact readLoop_good k _ _ l hpos (hk ▸ hbound) hloop
  obtain ⟨m', hm'⟩ := writeLoop_sectors k v.blockSize
    (pb * v.blockSize) (bytesOf (patch blk (chunkAt v size buffer written)) v.blockSize) m hpos
    (hk ▸ hbound) (by simp [bytesOf, hk]) hk.ge hgood
  refine ⟨m', hplaces, hne, blk, hblk, fun writes => ?_⟩
  rw [writeBytes, blockTransfers, show v.blockSize / 512 = k by omega]
  convert hm' writes using 2
  simp [bytesOf]

theorem writeBlocks_round {m' : Medium} (hmap : (mapBlock fuel v inode b).run m.read = some pb)
    (h : Round v inode size buffer b written m pb m') (writes : List Transfer) :
    writeBlocks fuel v inode size buffer (n + 1) b written m writes
      = if buffer.length ≤ written + min (size - written) v.blockSize then
          some ⟨if written + min (size - written) v.blockSize = buffer.length then 0 else -1, m',
            writes ++ blockTransfers v pb⟩
        else writeBlocks fuel v inode size buffer n (b + 1)
          (written + min (size - written) v.blockSize) m' (writes ++ blockTransfers v pb) := by
  obtain ⟨-, hne, blk, hblk, hw⟩ := h
  rw [writeBlocks]
  simp only [hmap, if_neg hne, hblk, take_eq]
  rw [show (buffer.drop written).take (min (size - written) v.blockSize)
    = chunkAt v size buffer written from rfl, hw writes]
  rfl

/-- A round that returns wrote nothing, or its block. -/
theorem writeBlocks_cases (hbs : v.blockSize ≤ 4096) (hdvd : 512 ∣ v.blockSize)
    {writes : List Transfer} {w : Written}
    (h : writeBlocks fuel v inode size buffer (n + 1) b written m writes = some w) :
    w.writes = writes ∨ ∃ pb m', (mapBlock fuel v inode b).run m.read = some pb ∧
      Round v inode size buffer b written m pb m' := by
  rw [writeBlocks] at h
  rcases hmap : (mapBlock fuel v inode b).run m.read with _ | pb
  · simp [hmap] at h
  · simp only [hmap] at h
    by_cases hz : pb = 0
    · rw [if_pos hz] at h
      cases h
      exact .inl rfl
    · rw [if_neg hz] at h
      rcases hblk : (readBlockFull v pb).run m.read with _ | _ | blk
      · simp [hblk] at h
      · simp only [hblk] at h
        cases h
        exact .inl rfl
      · obtain ⟨m', hr⟩ := round_of_read hbs hdvd hmap hz hblk
        exact .inr ⟨pb, m', rfl, hr⟩

/-- The transfers handed to `block_write` are those of blocks the loop comes to. -/
theorem mem_writeBlocks (hbs : v.blockSize ≤ 4096) (hdvd : 512 ∣ v.blockSize) (n : ℕ) :
    ∀ (b written : ℕ) (m : Medium) (writes : List Transfer) (w : Written),
      writeBlocks fuel v inode size buffer n b written m writes = some w →
      ∀ t ∈ w.writes, t ∈ writes ∨
        ∃ pb, Hands v inode size buffer n b written m pb ∧ t ∈ blockTransfers v pb := by
  induction n with
  | zero =>
    intro b written m writes w h t ht
    cases h
    exact .inl ht
  | succ n ih =>
    intro b written m writes w h t ht
    rcases writeBlocks_cases hbs hdvd h with hsame | ⟨pb, m', hmap, hr⟩
    · exact .inl (hsame ▸ ht)
    · have hmem : t ∈ writes ++ blockTransfers v pb → t ∈ writes ∨ ∃ pb,
          Hands v inode size buffer (n + 1) b written m pb ∧ t ∈ blockTransfers v pb :=
        fun ht => (List.mem_append.1 ht).imp_right fun ht => ⟨pb, .here hr, ht⟩
      rw [writeBlocks_round hmap hr] at h
      by_cases hend : buffer.length ≤ written + min (size - written) v.blockSize
      · rw [if_pos hend] at h
        cases h
        exact hmem ht
      · rw [if_neg hend] at h
        rcases ih _ _ _ _ _ h t ht with ht | ⟨pb', hpb', ht⟩
        · exact hmem ht
        · exact .inr ⟨pb', .there hr (by omega) hpb', ht⟩

/-- With enough fuel a run of some rounds hands over each of those blocks. -/
theorem Hands.handed (hdvd : 512 ∣ v.blockSize)
    (h : Hands v inode size buffer n b written m pb) :
    ∃ k ≤ n, ∃ f, ∀ fuel ≥ f, ∀ writes, ∃ w,
      writeBlocks fuel v inode size buffer k b written m writes = some w ∧
        ∀ t, t ∈ writes ∨ t ∈ blockTransfers v pb → t ∈ w.writes := by
  induction h with
  | @here n b written m m' pb hr =>
    obtain ⟨f, hf⟩ := (mapBlock_yields_iff hdvd hr.2.1).2 hr.1
    refine ⟨1, by omega, f, fun fuel hle writes => ?_⟩
    rw [writeBlocks_round ((mapBlock_mono inode b).le hle hf) hr]
    split_ifs <;> exact ⟨_, rfl, fun t ht => List.mem_append.2 ht⟩
  | @there n b written m m' pb pb' hr hlt _ ih =>
    obtain ⟨f, hf⟩ := (mapBlock_yields_iff hdvd hr.2.1).2 hr.1
    obtain ⟨k, hk, f', ih⟩ := ih
    refine ⟨k + 1, by omega, max f f', fun fuel hle writes => ?_⟩
    rw [writeBlocks_round ((mapBlock_mono inode b).le (le_of_max_le_left hle) hf) hr,
      if_neg (Nat.not_le.2 hlt)]
    obtain ⟨w, hw, hmem⟩ := ih fuel (le_of_max_le_right hle) (writes ++ blockTransfers v pb)
    exact ⟨w, hw, fun t ht => hmem t (ht.imp_left (List.mem_append_left _))⟩

end Blocks

section Contained

variable {p : Partition} {sb : Buf}

/-- The sectors of a volume of `totalBlocks` blocks. -/
def VolumeSector (p : Partition) (totalBlocks blockSize s : ℕ) : Prop :=
  p.firstLba ≤ s ∧ s < p.firstLba + totalBlocks * blockSize / 512

/-- The write of `B` to `path` comes to write block `pb` of the volume. -/
def WritesBlock (v : ExtVolume) (m : Medium) (path B : List UInt8) (pb : ℕ) : Prop :=
  ∃ inode, Yields m.read (openRegular · v path) (some inode) ∧ B.length ≤ inodeSizeBytes inode ∧
    inodeSizeBytes inode ≠ 0 ∧
    Hands v inode (inodeSizeBytes inode) B (blockCount v (inodeSizeBytes inode)) 0 0 m pb

theorem extfsWriteUpTo_all (fuel : ℕ) (v : ExtVolume) (path B : List UInt8) (m : Medium) :
    extfsWriteUpTo (2 ^ 32) fuel v path B m = extfsWriteFile fuel v path B m := by
  have hcount : ∀ size, min (2 ^ 32) (blockCount v size) = blockCount v size := fun size =>
    Nat.min_eq_right (Nat.mod_lt _ (by decide)).le
  simp only [extfsWriteUpTo, extfsWriteFile, hcount]

/-- A write goes to a block that the call comes to. -/
theorem writesBlock_of_mem (hbs : v.blockSize ≤ 4096) (hdvd : 512 ∣ v.blockSize) {rounds : ℕ}
    {path B : List UInt8} {w : Written} (hw : extfsWriteUpTo rounds fuel v path B m = some w)
    {t : Transfer} (ht : t ∈ w.writes) :
    ∃ pb, WritesBlock v m path B pb ∧ t ∈ blockTransfers v pb := by
  have hidle : ∀ r, some (⟨r, m, []⟩ : Written) ≠ some w := by
    rintro r ⟨⟩
    cases ht
  unfold extfsWriteUpTo at hw
  split at hw
  · cases hw
  · exact absurd hw (hidle _)
  · rename_i inode hopen
    simp only at hw
    by_cases hlen : inodeSizeBytes inode < B.length
    · rw [if_pos hlen] at hw
      exact absurd hw (hidle _)
    · rw [if_neg hlen] at hw
      by_cases hz : inodeSizeBytes inode = 0
      · rw [if_pos hz] at hw
        exact absurd hw (hidle _)
      · rw [if_neg hz, if_neg (Nat.not_lt.2 hbs)] at hw
        rcases mem_writeBlocks hbs hdvd _ _ _ _ _ _ hw t ht with ht | ⟨pb, hh, ht⟩
        · cases ht
        · exact ⟨pb, ⟨inode, ⟨fuel, hopen⟩, by omega, hz, hh.le (Nat.min_le_right _ _)⟩, ht⟩

/-- A block that the call comes to is written, by a call of some rounds. -/
theorem WritesBlock.handed (hbs : v.blockSize ≤ 4096) (hdvd : 512 ∣ v.blockSize)
    {path B : List UInt8} (h : WritesBlock v m path B pb) :
    ∃ rounds fuel w, extfsWriteUpTo rounds fuel v path B m = some w ∧
      ∀ t ∈ blockTransfers v pb, t ∈ w.writes := by
  obtain ⟨inode, ⟨f, hopen⟩, hB, hz, hh⟩ := h
  obtain ⟨k, hk, f', hrun⟩ := hh.handed hdvd
  obtain ⟨w, hw, hmem⟩ := hrun (max f f') (le_max_right f f') []
  refine ⟨k, max f f', w, ?_, fun t ht => hmem t (.inr ht)⟩
  have hopen' := (openRegular_mono path).le (le_max_left f f') hopen
  simp only [extfsWriteUpTo, hopen', if_neg (Nat.not_lt.2 hB), if_neg hz,
    if_neg (Nat.not_lt.2 hbs), Nat.min_eq_left hk]
  exact hw

theorem extfsMount_some (hsb : (readBytes p.firstLba 1024 1024).run m.read = some (some sb))
    (h : (extfsMount p).run m.read = some (some v)) :
    v.partition = p ∧ v.blockSize = 1024 * 2 ^ (le32 sb 24 % 32) % 2 ^ 32 := by
  simp only [extfsMount, Query.run_bind, hsb, Option.bind_some] at h
  split_ifs at h <;> simp only [Query.run_pure, Option.some.injEq, reduceCtorEq] at h
  rw [← h]
  exact ⟨rfl, rfl⟩

/-- The sector of the volume with number `i` of the sectors of block `pb`. -/
theorem mem_blockTransfers {k : ℕ} (hk : v.blockSize = 512 * k) {pb : ℕ} {t : Transfer} :
    t ∈ blockTransfers v pb ↔ ∃ i < k, t = ⟨(v.partition.firstLba + (pb * k + i)) % 2 ^ 64, 1⟩ := by
  have hsec : ∀ i, partBytesToLba v.partition.firstLba (pb * v.blockSize + 512 * i)
      = (v.partition.firstLba + (pb * k + i)) % 2 ^ 64 := fun i => by
    rw [partBytesToLba, hk, Nat.mul_left_comm, ← Nat.mul_add,
      Nat.mul_div_cancel_left _ (by decide)]
  simp only [blockTransfers, sectorTransfers, List.mem_map, List.mem_range, hsec,
    show v.blockSize / 512 = k by omega, eq_comm]

/-- The sectors of a block are in the volume just when its number is below the number of blocks and
its sectors have 64-bit numbers. -/
theorem within_blockTransfers_iff (hfirst : v.partition.firstLba < 2 ^ 64)
    (hdvd : 512 ∣ v.blockSize) (hpos : 0 < v.blockSize) (hbs : v.blockSize ≤ 4096) {pb : ℕ}
    (hpb : pb < 2 ^ 32) (total : ℕ) :
    Within (VolumeSector v.partition total v.blockSize) (blockTransfers v pb) ↔
      pb < total ∧ v.partition.firstLba + (pb + 1) * (v.blockSize / 512) ≤ 2 ^ 64 := by
  obtain ⟨k, hk⟩ := hdvd
  have hpbk : pb * k ≤ 2 ^ 32 * 8 := Nat.mul_le_mul hpb.le (by omega)
  have hend : total * v.blockSize / 512 = total * k := by
    rw [hk, Nat.mul_left_comm, Nat.mul_div_cancel_left _ (by decide)]
  have hblock : (pb + 1) * (v.blockSize / 512) = pb * k + k := by
    rw [show v.blockSize / 512 = k by omega, Nat.succ_mul]
  have hlt : pb < total → pb * k + k ≤ total * k := fun h => by
    rw [← Nat.succ_mul]
    exact Nat.mul_le_mul_right k h
  have hge : ¬ pb < total → total * k ≤ pb * k := fun h => Nat.mul_le_mul_right k (by omega)
  rw [hblock]
  constructor
  · intro h
    have hsec : ∀ i < k, VolumeSector v.partition total v.blockSize
        ((v.partition.firstLba + (pb * k + i)) % 2 ^ 64) := fun i hi =>
      h _ ((mem_blockTransfers hk).2 ⟨i, hi, rfl⟩) _ (mem_sectors.2 ⟨le_rfl, by simp⟩)
    simp only [VolumeSector, hend] at hsec
    have h0 := hsec 0 (by omega)
    have hlast := hsec (k - 1) (by omega)
    by_cases hpt : pb < total
    · have := hlt hpt
      exact ⟨hpt, by omega⟩
    · have := hge hpt
      omega
  · rintro ⟨hpt, hwrap⟩ t ht s hs
    obtain ⟨i, hi, rfl⟩ := (mem_blockTransfers hk).1 ht
    rw [mem_sectors] at hs
    simp only [Nat.mod_eq_of_lt (show v.partition.firstLba + (pb * k + i) < 2 ^ 64 by omega)] at hs
    have := hlt hpt
    rw [VolumeSector, hend]
    omega

theorem superblock_run (hm : m.Good) (p : Partition) :
    ∃ sb, (readBytes p.firstLba 1024 1024).run m.read = some (some sb) ∧
      le32 sb 4 = le32 (fun i => m.byte (byteAt p.firstLba (1024 + i))) 4 :=
  ⟨_, readBytes_run hm (by omega), le32_congr fun _ _ hlt => if_pos (by omega)⟩

end Contained

end Ext

end PeanutKernel
