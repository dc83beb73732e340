import PeanutKernel.Proofs.Extfs

/-!
# Overwriting a file on an ext volume

A file that is read is what the blocks `map_block` gives for it store (`readBlocks_stored`).
`extfs_write_file` overlays the buffer there, whatever its length (`writeBlocks_overlaid`); but it
counts the bytes of each block it has gone through, and not those of the buffer, so its return
value compares the buffer with a number of whole blocks or the whole file.
-/

namespace PeanutKernel

namespace Ext

variable {fuel : ℕ} {v : ExtVolume} {m : Medium} {inode : Buf}

section Map

/-- What a program returns, if it does, has the property. -/
def Returns {α : Type} (P : α → Prop) (p : BlockM α) (m : Medium) : Prop :=
  ∀ a, p.run m.read = some a → P a

theorem returns_pure {α : Type} {P : α → Prop} {a : α} (h : P a) :
    Returns P (pure a : BlockM α) m := by
  intro b hb
  simp only [Query.run_pure, Option.some.injEq] at hb
  exact hb ▸ h

theorem returns_bind {α β : Type} {P : β → Prop} {p : BlockM α} {f : α → BlockM β}
    (h : ∀ a, Returns P (f a) m) : Returns P (p >>= f) m := by
  intro b hb
  rw [Query.run_bind] at hb
  obtain ⟨a, -, ha⟩ := Option.bind_eq_some_iff.1 hb
  exact h a b ha

theorem readU32Block_lt (v : ExtVolume) (block idx : ℕ) :
    Returns (· < 2 ^ 32) (readU32Block v block idx) m := by
  refine returns_bind fun a => ?_
  split
  · exact returns_pure (by decide)
  · exact returns_pure (le32_lt _ _)

theorem mapIndirect_lt (v : ExtVolume) (inode : Buf) (lbn : ℕ) :
    Returns (· < 2 ^ 32) (mapIndirect v inode lbn) m := by
  have hzero : Returns (· < 2 ^ 32) (pure 0 : BlockM ℕ) m := returns_pure (by decide)
  unfold mapIndirect
  simp only
  split_ifs
  · exact returns_pure (le32_lt _ _)
  · exact hzero
  · exact readU32Block_lt _ _ _
  · exact hzero
  · refine returns_bind fun a => ?_
    split_ifs
    · exact hzero
    · exact readU32Block_lt _ _ _
  · exact hzero
  · refine returns_bind fun a => ?_
    split_ifs
    · exact hzero
    · refine returns_bind fun b => ?_
      split_ifs
      · exact hzero
      · exact readU32Block_lt _ _ _

theorem leafBlock_lt (node : Buf) (lbn : ℕ) : leafBlock node lbn < 2 ^ 32 := by
  unfold leafBlock
  rcases h : (List.range (nodeEntries node)).findSome? fun i =>
      extentBlock (nodeEntry node i) lbn with _ | pb
  · simp
  · obtain ⟨i, -, hi⟩ := List.exists_of_findSome?_eq_some h
    unfold extentBlock at hi
    simp only at hi
    split_ifs at hi
    cases hi
    exact Nat.mod_lt _ (by decide)

theorem mapExtentsRecurse_lt (v : ExtVolume) (lbn : ℕ) :
    ∀ (fuel : ℕ) (node : Buf), Returns (· < 2 ^ 32) (mapExtentsRecurse v lbn fuel node) m := by
  have hzero : Returns (· < 2 ^ 32) (pure 0 : BlockM ℕ) m := returns_pure (by decide)
  intro fuel
  induction fuel with
  | zero =>
    intro node
    rw [mapExtentsRecurse]
    split_ifs
    · exact hzero
    · exact returns_pure (leafBlock_lt _ _)
    · exact fun a ha => by simp at ha
  | succ fuel ih =>
    intro node
    rw [mapExtentsRecurse]
    split_ifs
    · exact hzero
    · exact returns_pure (leafBlock_lt _ _)
    · exact hzero
    · refine returns_bind fun a => ?_
      split
      · exact hzero
      · exact ih _

theorem mapBlock_lt (fuel : ℕ) (v : ExtVolume) (inode : Buf) (lbn : ℕ) :
    Returns (· < 2 ^ 32) (mapBlock fuel v inode lbn) m := by
  unfold mapBlock
  split_ifs
  · exact mapExtentsRecurse_lt v lbn fuel _
  · exact mapIndirect_lt v inode lbn

end Map

section Places

/-- The block `map_block` gives on the medium. -/
def mapAt (fuel : ℕ) (v : ExtVolume) (m : Medium) (inode : Buf) (b : ℕ) : ℕ :=
  ((mapBlock fuel v inode b).run m.read).getD 0

/-- `map_block` returns, and not 0. -/
def Mapped (fuel : ℕ) (v : ExtVolume) (m : Medium) (inode : Buf) (b : ℕ) : Prop :=
  (mapBlock fuel v inode b).run m.read = some (mapAt fuel v m inode b) ∧
    mapAt fuel v m inode b ≠ 0

theorem mapAt_lt (fuel : ℕ) (v : ExtVolume) (m : Medium) (inode : Buf) (b : ℕ) :
    mapAt fuel v m inode b < 2 ^ 32 := by
  unfold mapAt
  rcases h : (mapBlock fuel v inode b).run m.read with _ | pb
  · decide
  · exact mapBlock_lt fuel v inode b pb h

/-- The byte `r` of a block. -/
def blockByte (v : ExtVolume) (pb r : ℕ) : ℕ :=
  byteAt v.partition.firstLba (pb * v.blockSize + r)

/-- Where the bytes of a file lie whose blocks are `map`. -/
def filePlace (v : ExtVolume) (map : ℕ → ℕ) : ℕ → ℕ :=
  pieced (fun k => blockByte v (map k)) v.blockSize

/-- The sectors of the blocks that hold the first `n` bytes of such a file. -/
def FileSector (v : ExtVolume) (map : ℕ → ℕ) (n s : ℕ) : Prop :=
  ∃ k r, k * v.blockSize < n ∧ r < v.blockSize ∧ s = blockByte v (map k) r / 512

theorem block_bound {pb r : ℕ} (hbs : v.blockSize ≤ 4096) (hpb : pb < 2 ^ 32)
    (hr : r ≤ v.blockSize) : pb * v.blockSize + r < 2 ^ 64 := by
  have : pb * v.blockSize ≤ 2 ^ 32 * 4096 := Nat.mul_le_mul hpb.le hbs
  omega

theorem blockByte_inj (hbs : v.blockSize ≤ 4096) {pb pb' r r' : ℕ} (hpb : pb < 2 ^ 32)
    (hpb' : pb' < 2 ^ 32) (hr : r < v.blockSize) (hr' : r' < v.blockSize)
    (h : blockByte v pb r = blockByte v pb' r') : pb = pb' ∧ r = r' := by
  have heq := byteAt_inj (block_bound hbs hpb hr.le) (block_bound hbs hpb' hr'.le) h
  have hpos : 0 < v.blockSize := by omega
  have hdiv := congrArg (· / v.blockSize) heq
  simp only [Nat.add_comm _ r, Nat.add_comm _ r', Nat.add_mul_div_right _ _ hpos,
    Nat.div_eq_of_lt hr, Nat.div_eq_of_lt hr', Nat.zero_add] at hdiv
  subst hdiv
  exact ⟨rfl, Nat.add_left_cancel heq⟩

theorem filePlace_inj (hpos : 0 < v.blockSize) (hbs : v.blockSize ≤ 4096) (map : ℕ → ℕ) {n : ℕ}
    (hlt : ∀ k, map k < 2 ^ 32)
    (hnd : ∀ k l, k * v.blockSize < n → l * v.blockSize < n → map k = map l → k = l) :
    ∀ i < n, ∀ j < n, filePlace v map i = filePlace v map j → i = j := by
  refine pieced_inj hpos (fun k _ r hr r' hr' h => ?_) fun k l hk hl hkl r hr r' hr' h => ?_
  · exact (blockByte_inj hbs (hlt k) (hlt k) hr hr' h).2
  · exact hkl (hnd k l hk hl (blockByte_inj hbs (hlt k) (hlt l) hr hr' h).1)

theorem filePlace_sector (hpos : 0 < v.blockSize) (map : ℕ → ℕ) {n i : ℕ} (hi : i < n) :
    FileSector v map n (filePlace v map i / 512) :=
  ⟨i / v.blockSize, i % v.blockSize, (Nat.div_mul_le_self _ _).trans_lt hi, Nat.mod_lt _ hpos, rfl⟩

theorem readBlockFull_run (hm : m.Good) (hbs : v.blockSize ≤ 4096) {pb : ℕ} (hpb : pb < 2 ^ 32) :
    (readBlockFull v pb).run m.read
      = some (some fun i => if i < v.blockSize then m.byte (blockByte v pb i) else 0) :=
  readBytes_run hm (block_bound hbs hpb le_rfl)

end Places

section Read

variable {size : ℕ}

/-- The bytes of a block that belong to the file. -/
theorem take_eq (size copied bs : ℕ) :
    (if size < copied + bs then size - copied else bs) = min (size - copied) bs := by
  split_ifs <;> omega

theorem readBlocks_succ (hm : m.Good) (hbs : v.blockSize ≤ 4096) (n b copied : ℕ) :
    (readBlocks fuel v inode size (n + 1) b copied).run m.read
      = ((mapBlock fuel v inode b).run m.read).bind fun pb =>
        if pb = 0 then some none
        else ((readBlocks fuel v inode size n (b + 1)
            (copied + min (size - copied) v.blockSize)).run m.read).map
          (Option.map (stored m.byte (blockByte v pb) (min (size - copied) v.blockSize) ++ ·)) := by
  rw [readBlocks]
  simp only [Query.run_bind, take_eq]
  rcases h : (mapBlock fuel v inode b).run m.read with _ | pb
  · rfl
  · have hpb := mapBlock_lt fuel v inode b pb h
    have hbytes : bytesOf (fun i => if i < v.blockSize then m.byte (blockByte v pb i) else 0)
        (min (size - copied) v.blockSize)
        = stored m.byte (blockByte v pb) (min (size - copied) v.blockSize) := by
      simp only [bytesOf, stored, List.map_inj_left, List.mem_range]
      intro i hi
      exact if_pos (by omega)
    simp only [Option.bind_some]
    split_ifs
    · rfl
    · simp only [Query.run_bind, readBlockFull_run hm hbs hpb, Option.bind_some, hbytes]
      rcases (readBlocks fuel v inode size n (b + 1)
        (copied + min (size - copied) v.blockSize)).run m.read with _ | _ | D <;> rfl

theorem stored_filePlace (hpos : 0 < v.blockSize) (map : ℕ → ℕ) (n : ℕ) :
    stored m.byte (filePlace v map) n
      = stored m.byte (blockByte v (map 0)) (min n v.blockSize)
        ++ stored m.byte (filePlace v fun k => map (k + 1)) (n - min n v.blockSize) :=
  stored_pieced hpos m.byte n

/-- `n` is the number of blocks of `left` bytes. -/
def Covers (v : ExtVolume) (n left : ℕ) : Prop := ∀ k, k < n ↔ k * v.blockSize < left

theorem Covers.eq_zero {left : ℕ} (h : Covers v 0 left) : left = 0 := by
  have := (h 0).not.1 (Nat.lt_irrefl 0)
  omega

theorem Covers.pos {n left : ℕ} (h : Covers v (n + 1) left) : 0 < left := by
  have := (h 0).1 (Nat.succ_pos n)
  omega

theorem Covers.tail {n left : ℕ} (h : Covers v (n + 1) left) :
    Covers v n (left - min left v.blockSize) := by
  intro k
  have := h (k + 1)
  rw [Nat.succ_mul] at this
  omega

/-- A file that is read is stored in its blocks. -/
theorem readBlocks_stored (hm : m.Good) (hpos : 0 < v.blockSize) (hbs : v.blockSize ≤ 4096)
    (n : ℕ) :
    ∀ (b copied : ℕ) (C : List UInt8), Covers v n (size - copied) →
      (readBlocks fuel v inode size n b copied).run m.read = some (some C) →
      (∀ k, k * v.blockSize < size - copied → Mapped fuel v m inode (b + k)) ∧
        C = stored m.byte (filePlace v fun k => mapAt fuel v m inode (b + k)) (size - copied) := by
  induction n with
  | zero =>
    intro b copied C hn h
    cases h
    rw [hn.eq_zero]
    exact ⟨fun k hk => absurd hk (Nat.not_lt_zero _), rfl⟩
  | succ n ih =>
    intro b copied C hn h
    rw [readBlocks_succ hm hbs, Option.bind_eq_some_iff] at h
    obtain ⟨pb, hpb, h⟩ := h
    have hmap : mapAt fuel v m inode b = pb := by rw [mapAt, hpb, Option.getD_some]
    split_ifs at h with hz
    · cases h
    · obtain ⟨rest, hrest, hrest'⟩ := Option.map_eq_some_iff.1 h
      obtain ⟨D, rfl, hC⟩ := Option.map_eq_some_iff.1 hrest'
      have htail := hn.tail
      rw [Nat.sub_sub] at htail
      obtain ⟨hmapped, hD⟩ := ih (b + 1) _ D htail hrest
      rw [← Nat.sub_sub] at hmapped hD
      refine ⟨fun k hk => ?_, ?_⟩
      · rcases k with _ | k
        · exact ⟨hmap ▸ hpb, hmap ▸ hz⟩
        · have := hmapped k (by rw [Nat.succ_mul] at hk; omega)
          rwa [Nat.add_right_comm] at this
      · rw [stored_filePlace hpos, ← hC, hD, ← hmap]
        simp only [Nat.add_right_comm b 1]
        rfl

/-- A file whose blocks are all mapped is read. -/
theorem readBlocks_of_mapped (hm : m.Good) (hpos : 0 < v.blockSize) (hbs : v.blockSize ≤ 4096)
    (n : ℕ) :
    ∀ b copied : ℕ, Covers v n (size - copied) →
      (∀ k, k * v.blockSize < size - copied → Mapped fuel v m inode (b + k)) →
      (readBlocks fuel v inode size n b copied).run m.read
        = some (some (stored m.byte (filePlace v fun k => mapAt fuel v m inode (b + k))
            (size - copied))) := by
  induction n with
  | zero =>
    intro b copied hn _
    rw [hn.eq_zero]
    rfl
  | succ n ih =>
    intro b copied hn hmapped
    obtain ⟨hrun, hne⟩ := hmapped 0 (by have := hn.pos; omega)
    rw [Nat.add_zero] at hrun hne
    have htail := hn.tail
    rw [Nat.sub_sub] at htail
    have hrest := ih (b + 1) _ htail fun k hk => by
      rw [Nat.add_right_comm]
      exact hmapped (k + 1) (by rw [Nat.succ_mul]; omega)
    rw [readBlocks_succ hm hbs, hrun, Option.bind_some, if_neg hne, hrest,
      stored_filePlace hpos _ (size - copied), ← Nat.sub_sub]
    simp only [Option.map_some, Nat.add_right_comm b 1]
    rfl

end Read

section Write

variable {size : ℕ} {buffer : List UInt8}

/-- When `extfs_write_file` returns 0. -/
def ReturnsZero (v : ExtVolume) (size n : ℕ) : Prop := n = size ∨ 0 < n ∧ v.blockSize ∣ n

/-- The count of bytes after the block in which the buffer ends. -/
theorem written_eq_iff {b n : ℕ} (hpos : 0 < v.blockSize) (hn : n ≤ size)
    (hstart : b = 0 ∨ b * v.blockSize < n) (hsize : b * v.blockSize < size)
    (hend : n ≤ b * v.blockSize + min (size - b * v.blockSize) v.blockSize) :
    b * v.blockSize + min (size - b * v.blockSize) v.blockSize = n ↔ ReturnsZero v size n := by
  constructor
  · intro h
    rcases Nat.le_total (size - b * v.blockSize) v.blockSize with hle | hge
    · left
      omega
    · right
      refine ⟨by omega, b + 1, ?_⟩
      rw [Nat.mul_comm, Nat.succ_mul]
      omega
  · rintro (rfl | ⟨hn0, q, rfl⟩)
    · omega
    · have hq : q = b + 1 := by
        have hle : v.blockSize * q ≤ v.blockSize * (b + 1) := by
          rw [Nat.mul_succ, Nat.mul_comm _ b]
          omega
        have hlt : v.blockSize * b < v.blockSize * q := by
          rw [Nat.mul_comm _ b]
          rcases hstart with rfl | h
          · omega
          · exact h
        have h1 := Nat.le_of_mul_le_mul_left hle hpos
        have h2 := Nat.lt_of_mul_lt_mul_left hlt
        omega
      have hmul : v.blockSize * (b + 1) = b * v.blockSize + v.blockSize := by
        rw [Nat.mul_comm, Nat.succ_mul]
      rw [hq, hmul] at hn hend ⊢
      omega

/-- A block read, patched and written back. -/
theorem writeBlock_overlaid (hm : m.Good) (hbs : v.blockSize ≤ 4096) {pb : ℕ} (hpb : pb < 2 ^ 32)
    (chunk : List UInt8) (hchunk : chunk.length ≤ v.blockSize) (writes : List Transfer) :
    ∃ (m' : Medium) (writes' : List Transfer),
      writeBytes v.partition.firstLba (pb * v.blockSize)
        (bytesOf (patch (fun i => if i < v.blockSize then m.byte (blockByte v pb i) else 0) chunk)
          v.blockSize) m writes = some ⟨0, m', writes'⟩ ∧
      m'.bad = m.bad ∧ Overlaid m.byte m'.byte (blockByte v pb) chunk := by
  set blk : Buf := fun i => if i < v.blockSize then m.byte (blockByte v pb i) else 0 with hblk
  have hlen : (bytesOf (patch blk chunk) v.blockSize).length = v.blockSize := by simp [bytesOf]
  obtain ⟨m', writes', hw, hbad, hov⟩ := writeBytes_overlaid hm (pb * v.blockSize)
    (bytesOf (patch blk chunk) v.blockSize)
    (by rw [hlen]; exact block_bound hbs hpb le_rfl) writes
  refine ⟨m', writes', hw, hbad, ?_⟩
  have htake : (bytesOf (patch blk chunk) v.blockSize).take chunk.length = chunk := by
    apply List.ext_getElem
    · rw [List.length_take, hlen]
      omega
    · intro i h1 h2
      simp [bytesOf, patch, h2]
  rw [← htake]
  refine hov.take chunk.length fun i hi hge => ?_
  rw [hlen] at hi
  simp only [bytesOf, List.getElem_map, List.getElem_range, patch, if_neg (Nat.not_lt.2 hge), hblk,
    if_pos hi]
  rfl

/-- The write loop overlays the rest of the buffer along blocks that neither repeat nor are mapped
by sectors of their own. -/
theorem writeBlocks_overlaid (hpos : 0 < v.blockSize) (hbs : v.blockSize ≤ 4096) {m₀ : Medium}
    {map : ℕ → ℕ} (hmap : ∀ k, k * v.blockSize < size →
      (mapBlock fuel v inode k).run m₀.read = some (map k) ∧ map k ≠ 0 ∧
        Clear (FileSector v map size) ((mapBlock fuel v inode k).trace m₀.read))
    (hlt : ∀ k, map k < 2 ^ 32)
    (hnd : ∀ k l, k * v.blockSize < size → l * v.blockSize < size → map k = map l → k = l)
    (hbuf : buffer.length ≤ size) (n : ℕ) :
    ∀ (b : ℕ) (m : Medium) (writes : List Transfer), m.Good →
      AgreeOff (FileSector v map size) m₀ m → Covers v n (size - b * v.blockSize) → 0 < n →
      b = 0 ∨ b * v.blockSize < buffer.length →
      ∃ (ret : ℤ) (m' : Medium) (writes' : List Transfer),
        writeBlocks fuel v inode size buffer n b (b * v.blockSize) m writes
          = some ⟨ret, m', writes'⟩ ∧
        (ret = 0 ↔ ReturnsZero v size buffer.length) ∧ m'.bad = m.bad ∧
        Overlaid m.byte m'.byte (filePlace v fun k => map (b + k))
          (buffer.drop (b * v.blockSize)) := by
  induction n with
  | zero => exact fun _ _ _ _ _ _ h => absurd h (Nat.lt_irrefl 0)
  | succ n ih =>
    intro b m writes hm hag hcov _ hstart
    have hleft := hcov.pos
    have hb : b * v.blockSize < size := by omega
    obtain ⟨hrun, hne, hclear⟩ := hmap b hb
    set data := buffer.drop (b * v.blockSize) with hdata
    have hlen : data.length = buffer.length - b * v.blockSize := List.length_drop
    set take := min (size - b * v.blockSize) v.blockSize with htake
    have hchunk : data.take take = data.take v.blockSize := by
      rcases Nat.le_total (size - b * v.blockSize) v.blockSize with h | h
      · rw [List.take_of_length_le (by omega), List.take_of_length_le (by omega)]
      · rw [htake, Nat.min_eq_right h]
    obtain ⟨m₁, writes₁, hw, hbad, hov⟩ := writeBlock_overlaid hm hbs (hlt b)
      (data.take v.blockSize) (by rw [List.length_take]; omega) writes
    have hstep : writeBlocks fuel v inode size buffer (n + 1) b (b * v.blockSize) m writes
        = if buffer.length ≤ b * v.blockSize + take then
            some ⟨if b * v.blockSize + take = buffer.length then 0 else -1, m₁, writes₁⟩
          else writeBlocks fuel v inode size buffer n (b + 1) (b * v.blockSize + take) m₁
            writes₁ := by
      rw [writeBlocks]
      simp only [hag.run _ hclear, hrun, if_neg hne, readBlockFull_run hm hbs (hlt b), take_eq,
        ← hdata, ← htake, hchunk, hw]
      rfl
    have hag₁ : AgreeOff (FileSector v map size) m₀ m₁ := by
      refine hag.trans ⟨hbad, fun a ha => hov.frame a fun i hi heq => ha ?_⟩
      rw [List.length_take] at hi
      exact ⟨b, i, hb, by omega, by rw [heq]⟩
    rw [hstep]
    by_cases hend : buffer.length ≤ b * v.blockSize + take
    · rw [if_pos hend]
      refine ⟨_, m₁, writes₁, rfl, ?_, hbad, ?_⟩
      · rw [← written_eq_iff hpos hbuf hstart hb hend]
        split_ifs with h
        · exact iff_of_true rfl h
        · exact iff_of_false (by decide) h
      · have hall : data.take v.blockSize = data := List.take_of_length_le (by omega)
        rw [hall] at hov
        constructor
        · intro i hi
          rw [filePlace, pieced_of_lt (by omega)]
          exact hov.written i hi
        · intro a ha
          refine hov.frame a fun i hi => ?_
          have := ha i hi
          rwa [filePlace, pieced_of_lt (by omega)] at this
    · rw [if_neg hend]
      have hfull : take = v.blockSize := by omega
      have hb1 : b * v.blockSize + take = (b + 1) * v.blockSize := by rw [Nat.succ_mul, hfull]
      have hcov' : Covers v n (size - (b + 1) * v.blockSize) := by
        have := hcov.tail
        rwa [← htake, Nat.sub_sub, hb1] at this
      have hn : 0 < n := (hcov' 0).2 (by omega)
      obtain ⟨ret, m', writes', hw', hret, hbad', hov'⟩ := ih (b + 1) m₁ writes₁
        (fun s => by rw [hbad]; exact hm s) hag₁ hcov' hn (Or.inr (by omega))
      refine ⟨ret, m', writes', by rw [hb1]; exact hw', hret, hbad'.trans hbad, ?_⟩
      have hdrop : data.drop v.blockSize = buffer.drop ((b + 1) * v.blockSize) := by
        rw [hdata, List.drop_drop, Nat.succ_mul]
      have hmaps : (fun k => map (b + 1 + k)) = fun k => map (b + (k + 1)) := by
        funext k
        rw [Nat.add_right_comm]
        rfl
      rw [← hdrop, hmaps] at hov'
      refine Overlaid.pieces hpos hov hov' ?_
      have hinj := filePlace_inj hpos hbs (fun k => map (b + k))
        (n := size - b * v.blockSize) (fun k => hlt _) fun k l hk hl heq => by
          have hk' : (b + k) * v.blockSize < size := by rw [Nat.add_mul]; omega
          have hl' : (b + l) * v.blockSize < size := by rw [Nat.add_mul]; omega
          have := hnd _ _ hk' hl' heq
          omega
      exact fun i hi j hj => hinj i (by omega) j (by omega)

end Write

section File

theorem extfsMount_blockSize {p : Partition}
    (h : (extfsMount p).run m.read = some (some v)) : 1024 ≤ v.blockSize ∧ v.blockSize ≤ 4096 := by
  simp only [extfsMount, Query.run_bind, Option.bind_eq_some_iff] at h
  obtain ⟨sb, -, h⟩ := h
  split at h
  · simp at h
  · split_ifs at h with _ hbs <;>
      simp only [Query.run_pure, Option.some.injEq, reduceCtorEq] at h
    rw [← h]
    simp only
    omega

theorem covers_blockCount (hpos : 0 < v.blockSize) (hbs : v.blockSize ≤ 4096) {size : ℕ}
    (hsize : size < 2 ^ 32) : Covers v (blockCount v size) size := by
  intro k
  have hle : (size + v.blockSize - 1) / v.blockSize ≤ size := by
    rw [Nat.div_le_iff_le_mul_add_pred hpos]
    have : size ≤ v.blockSize * size := Nat.le_mul_of_pos_left _ hpos
    omega
  unfold blockCount
  rw [Nat.mod_eq_of_lt (show size + v.blockSize - 1 < 2 ^ 64 by omega),
    Nat.mod_eq_of_lt (by omega), ← Nat.succ_le_iff, Nat.le_div_iff_mul_le hpos, Nat.succ_mul]
  omega

theorem extfsReadFile_some {bufferSize : ℕ} {path C : List UInt8}
    (h : (extfsReadFile fuel v path bufferSize).run m.read = some (some C)) :
    ∃ inode, (openRegular fuel v path).run m.read = some (some inode) ∧
      inodeSizeBytes inode ≤ bufferSize ∧ v.blockSize ≤ 4096 ∧
      (readBlocks fuel v inode (inodeSizeBytes inode) (blockCount v (inodeSizeBytes inode)) 0
        0).run m.read = some (some C) := by
  simp only [extfsReadFile, Query.run_bind, Option.bind_eq_some_iff] at h
  obtain ⟨o, ho, h⟩ := h
  rcases o with _ | inode
  · simp at h
  · refine ⟨inode, ho, ?_⟩
    simp only at h
    split_ifs at h with h1 h2
    · simp at h
    · simp at h
    · exact ⟨by omega, by omega, h⟩

/-- What `extfs_stat` finds of a file that can be read. -/
theorem extfsStat_run {ans : Transfer → Option Buf} {path : List UInt8}
    (h : (openRegular fuel v path).run ans = some (some inode)) :
    (extfsStat fuel v path).run ans
      = some (some (inodeSizeBytes inode, decide (inodeMode inode &&& modeDir ≠ 0))) := by
  simp only [openRegular, Query.run_bind, Option.bind_eq_some_iff] at h
  obtain ⟨_ | ino, hino, h⟩ := h
  · simp at h
  simp only [Query.run_bind, Option.bind_eq_some_iff] at h
  obtain ⟨_ | raw, hraw, h⟩ := h
  · simp at h
  simp only [Query.run_pure, Option.some.injEq] at h
  split_ifs at h
  obtain rfl := Option.some.inj h
  simp [extfsStat, Query.run_bind, hino, hraw]

/-- The file's blocks are all different, and neither finding its inode nor mapping them reads a
sector of them. -/
structure ApartFromMetadata (fuel : ℕ) (v : ExtVolume) (m : Medium) (path : List UInt8)
    (inode : Buf) (n : ℕ) : Prop where
  nodup : ∀ k l, k * v.blockSize < n → l * v.blockSize < n →
    mapAt fuel v m inode k = mapAt fuel v m inode l → k = l
  map : ∀ k, k * v.blockSize < n → Clear (FileSector v (mapAt fuel v m inode) n)
    ((mapBlock fuel v inode k).trace m.read)
  lookup : Clear (FileSector v (mapAt fuel v m inode) n) ((openRegular fuel v path).trace m.read)

/-- What `extfs_write_file` does to a file that reads as `C`. -/
theorem extfsWriteFile_overlaid (hm : m.Good) (hpos : 0 < v.blockSize) (hbs : v.blockSize ≤ 4096)
    {bufferSize : ℕ} (hsize : bufferSize < 2 ^ 32) {path C : List UInt8}
    (hread : (extfsReadFile fuel v path bufferSize).run m.read = some (some C))
    (hopen : (openRegular fuel v path).run m.read = some (some inode))
    (hapart : ApartFromMetadata fuel v m path inode C.length)
    (B : List UInt8) (hB : B.length ≤ C.length) :
    ∃ w : Written, extfsWriteFile fuel v path B m = some w ∧
      (w.ret = 0 ↔ ReturnsZero v C.length B.length) ∧
      (openRegular fuel v path).run w.medium.read = some (some inode) ∧
      (extfsReadFile fuel v path bufferSize).run w.medium.read
        = some (some (B ++ C.drop B.length)) ∧
      Overlaid m.byte w.medium.byte (filePlace v (mapAt fuel v m inode)) B := by
  obtain ⟨inode', hopen', hfits, -, hblocks⟩ := extfsReadFile_some hread
  rw [hopen] at hopen'
  cases hopen'
  have hcov := covers_blockCount hpos hbs (hfits.trans_lt hsize)
  obtain ⟨hmapped, hC⟩ := readBlocks_stored hm hpos hbs _ 0 0 C
    (by rw [Nat.sub_zero]; exact hcov) hblocks
  simp only [Nat.zero_add, Nat.sub_zero] at hmapped hC
  have hlen : C.length = inodeSizeBytes inode := by rw [hC, length_stored]
  rw [← hlen] at hmapped hC hfits hcov
  set map := mapAt fuel v m inode with hmapdef
  have hinj := filePlace_inj hpos hbs map (mapAt_lt fuel v m inode) hapart.nodup
  -- both the empty file and the loop leave the buffer stored along the blocks
  obtain ⟨ret, m', writes, hwrite, hret, hbad, hov⟩ : ∃ (ret : ℤ) (m' : Medium)
      (writes : List Transfer), extfsWriteFile fuel v path B m = some ⟨ret, m', writes⟩ ∧
        (ret = 0 ↔ ReturnsZero v C.length B.length) ∧ m'.bad = m.bad ∧
        Overlaid m.byte m'.byte (filePlace v map) B := by
    simp only [extfsWriteFile, hopen]
    rw [← hlen, if_neg (by omega)]
    by_cases hz : C.length = 0
    · have hBz : B = [] := List.length_eq_zero_iff.1 (by omega)
      subst hBz
      rw [if_pos hz]
      exact ⟨0, m, [], rfl, iff_of_true rfl (Or.inl hz.symm), rfl, overlaid_nil _ _⟩
    · rw [if_neg hz, if_neg (by omega)]
      have h := writeBlocks_overlaid hpos hbs (fun k hk => ⟨(hmapped k hk).1, (hmapped k hk).2,
        hapart.map k hk⟩) (mapAt_lt fuel v m inode) hapart.nodup hB (blockCount v C.length) 0 m []
        hm (AgreeOff.refl _ _) (by simpa using hcov) ((hcov 0).2 (by omega)) (Or.inl rfl)
      simpa only [Nat.zero_mul, Nat.zero_add, List.drop_zero] using h
  have hag : AgreeOff (FileSector v map C.length) m m' := by
    refine ⟨hbad, fun a ha => hov.frame a fun i hi heq => ha ?_⟩
    rw [heq]
    exact filePlace_sector hpos map (hi.trans_le hB)
  have hopen₁ : (openRegular fuel v path).run m'.read = some (some inode) :=
    (hag.run _ hapart.lookup).trans hopen
  refine ⟨⟨ret, m', writes⟩, hwrite, hret, hopen₁, ?_, hov⟩
  -- the inode is found and its blocks are mapped as before
  have hmap' : ∀ k, k * v.blockSize < C.length → mapAt fuel v m' inode k = map k := fun k hk => by
    rw [mapAt, hag.run _ (hapart.map k hk)]
    rfl
  have hmapped' : ∀ k, k * v.blockSize < C.length - 0 → Mapped fuel v m' inode (0 + k) := by
    intro k hk
    rw [Nat.sub_zero] at hk
    rw [Nat.zero_add, Mapped, hmap' k hk, hag.run _ (hapart.map k hk)]
    exact hmapped k hk
  have hplace : stored m'.byte (filePlace v fun k => mapAt fuel v m' inode (0 + k)) C.length
      = stored m'.byte (filePlace v map) C.length :=
    stored_congr fun i hi => by
      simp only [Nat.zero_add]
      rw [filePlace, filePlace, pieced_congr (fun k hk => by rw [hmap' k hk]) hi]
  have hback := readBlocks_of_mapped (hag.good hm) hpos hbs (blockCount v C.length) 0 0
    (by simpa using hcov) hmapped'
  rw [Nat.sub_zero, hplace, hov.stored hB hinj, ← hC] at hback
  simp only [extfsReadFile, Query.run_bind, hopen₁, Option.bind_some]
  rw [← hlen, if_neg (by omega), if_neg (by omega), hback]

/-- Overwriting the start of a file always stores the new bytes, and nothing else; but the call
returns 0 only for a whole file or a positive number of whole blocks. -/
theorem extfs_overwrite_roundtrip_iff {p : Partition} (hm : m.Good)
    (hmount : (extfsMount p).run m.read = some (some v)) {bufferSize : ℕ}
    (hsize : bufferSize < 2 ^ 32) {path C : List UInt8}
    (hread : (extfsReadFile fuel v path bufferSize).run m.read = some (some C))
    (hopen : (openRegular fuel v path).run m.read = some (some inode))
    (hapart : ApartFromMetadata fuel v m path inode C.length)
    (B : List UInt8) (hB : B.length ≤ C.length) :
    ∃ w : Written, extfsWriteFile fuel v path B m = some w ∧
      (w.ret = 0 ↔ B.length = C.length ∨ 0 < B.length ∧ v.blockSize ∣ B.length) ∧
      (extfsReadFile fuel v path bufferSize).run w.medium.read
        = some (some (B ++ C.drop B.length)) ∧
      ∀ a, (∀ i < B.length, a ≠ filePlace v (mapAt fuel v m inode) i) →
        w.medium.byte a = m.byte a := by
  obtain ⟨hge, hbs⟩ := extfsMount_blockSize hmount
  obtain ⟨w, hw, hret, -, hback, hov⟩ := extfsWriteFile_overlaid hm (by omega) hbs hsize hread hopen
    hapart B hB
  exact ⟨w, hw, hret, hback, fun a ha => hov.frame a ha⟩

/-- A volume of 1024-byte blocks with one file `A` of 3 bytes, inode 3, in block 5. -/
def sampleMedium : Medium := sparseMedium
  [(1024 + 4, 8), (1024 + 20, 1), (1024 + 32, 8), (1024 + 40, 8), (1024 + 56, 0x53),
    (1024 + 57, 0xEF), (1024 + 88, 128), (2048 + 8, 3),
    (3072 + 128 + 1, 0x40), (3072 + 128 + 5, 4), (3072 + 128 + 40, 4),
    (3072 + 256 + 1, 0x80), (3072 + 256 + 4, 3), (3072 + 256 + 40, 5),
    (4096, 3), (4096 + 4, 12), (4096 + 6, 1), (4096 + 8, 65),
    (5120, 97), (5121, 98), (5122, 99)]

def samplePartition : Partition := ⟨0x83, 0, 16⟩

def sampleVolume : ExtVolume where
  partition := samplePartition
  blockSize := 1024
  blocksPerGroup := 8
  inodesPerGroup := 8
  inodeSize := 128
  firstDataBlock := 1
  groupDescLba := 4
  groupDescOff := 0
  groups := 1

def sampleInode : Buf :=
  (((openRegular 0 sampleVolume [65]).run sampleMedium.read).getD none).getD fun _ => 0

theorem sample_open :
    (openRegular 0 sampleVolume [65]).run sampleMedium.read = some (some sampleInode) := by
  have hsome : (((openRegular 0 sampleVolume [65]).run sampleMedium.read).getD none).isSome := by
    decide +kernel
  unfold sampleInode
  generalize (openRegular 0 sampleVolume [65]).run sampleMedium.read = o at hsome ⊢
  rcases o with _ | _ | inode
  · cases hsome
  · cases hsome
  · rfl

theorem sample_apart : ApartFromMetadata 0 sampleVolume sampleMedium [65] sampleInode 3 := by
  have hk : ∀ k, k * sampleVolume.blockSize < 3 → k = 0 := by
    intro k hk
    rw [show sampleVolume.blockSize = 1024 from rfl] at hk
    omega
  have h0 : mapAt 0 sampleVolume sampleMedium sampleInode 0 = 5 := by decide +kernel
  have hclear : ∀ ts : List Transfer, (∀ t ∈ ts, ∀ s ∈ t.sectors, ¬ (s = 10 ∨ s = 11)) →
      Clear (FileSector sampleVolume (mapAt 0 sampleVolume sampleMedium sampleInode) 3) ts := by
    rintro ts h t ht s hs ⟨k, r, hk', hr, rfl⟩
    obtain rfl := hk k hk'
    refine h t ht _ hs ?_
    rw [h0, blockByte, byteAt_sector, partBytesToLba]
    simp only [sampleVolume, samplePartition] at hr ⊢
    omega
  refine ⟨fun k l hk' hl' _ => by rw [hk k hk', hk l hl'], fun k hk' => ?_, ?_⟩
  · obtain rfl := hk k hk'
    apply hclear
    decide +kernel
  · apply hclear
    decide +kernel

theorem extfs_overwrite_roundtrip_iff_sample :
    ∃ w : Written, extfsWriteFile 0 sampleVolume [65] [1, 2, 3] sampleMedium = some w ∧
      w.ret = 0 ∧ (extfsReadFile 0 sampleVolume [65] 100).run w.medium.read
        = some (some [1, 2, 3]) := by
  have hmount : (extfsMount samplePartition).run sampleMedium.read = some (some sampleVolume) := by
    decide +kernel
  have hread : (extfsReadFile 0 sampleVolume [65] 100).run sampleMedium.read
      = some (some [97, 98, 99]) := by
    decide +kernel
  obtain ⟨w, hw, hret, hback, -⟩ := extfs_overwrite_roundtrip_iff (sparseMedium_good _) hmount
    (by decide) hread sample_open sample_apart [1, 2, 3] (by decide)
  exact ⟨w, hw, hret.2 (Or.inl rfl), hback⟩

/-- Overwriting the first of three bytes: the byte is stored and the call fails. -/
theorem partialWrite_fails :
    (extfsMount samplePartition).run sampleMedium.read = some (some sampleVolume) ∧
    (extfsReadFile 0 sampleVolume [65] 100).run sampleMedium.read = some (some [97, 98, 99]) ∧
    ApartFromMetadata 0 sampleVolume sampleMedium [65] sampleInode 3 ∧
    (extfsWriteFile 0 sampleVolume [65] [1] sampleMedium).map (fun w =>
        (w.ret, (extfsReadFile 0 sampleVolume [65] 100).run w.medium.read))
      = some (-1, some (some [1, 98, 99])) :=
  ⟨by decide +kernel, by decide +kernel, sample_apart, by decide +kernel⟩

end File

end Ext

end PeanutKernel
