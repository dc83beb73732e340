import PeanutKernel.Proofs.Extfs

/-!
# Which ranges are read and written as they lie on the disk

Byte `i` of a range is looked for at `placeAt`, with the offset in the partition and the sector
number taken modulo `2 ^ 64`. For a range that ends at offset `2 ^ 64` at the latest and on the disk
of `2 ^ 64` sectors this is byte `512 * firstLba + off + i` of the disk, and the range is read and
written in place. The last byte of any other range is looked for elsewhere.
-/

namespace PeanutKernel

namespace Ext

variable {m : Medium} {firstLba off len i : ℕ}

/-- The range ends inside the offsets and inside the disk. -/
def Fits (firstLba off len : ℕ) : Prop :=
  len = 0 ∨ off + len ≤ 2 ^ 64 ∧ 512 * firstLba + off + len ≤ 2 ^ 73

/-- On a disk that transfers every sector, `read_bytes` returns the bytes of the range, and
`write_bytes` changes these and no others, so that the range reads back as it was written and what
lies before it or after it as it was. -/
structure InPlace (firstLba off len : ℕ) : Prop where
  read : ∀ m : Medium, m.Good → ∃ buf, (readBytes firstLba off len).run m.read = some (some buf) ∧
    ∀ i < len, buf i = m.byte (512 * firstLba + off + i)
  write : ∀ (m : Medium) (data : List UInt8) (writes : List Transfer), m.Good → data.length = len →
    ∃ (m' : Medium) (writes' : List Transfer),
      writeBytes firstLba off data m writes = some ⟨0, m', writes'⟩ ∧ m'.bad = m.bad ∧
      Overlaid m.byte m'.byte (512 * firstLba + off + ·) data ∧
      (∃ buf, (readBytes firstLba off len).run m'.read = some (some buf) ∧
        bytesOf buf len = data) ∧
      ∀ off' n, off' < 2 ^ 64 → Fits firstLba off' n → off' + n ≤ off ∨ off + len ≤ off' →
        (readBytes firstLba off' n).run m'.read = (readBytes firstLba off' n).run m.read

theorem placeAt_of_fits (hfirst : firstLba < 2 ^ 64) (h : Fits firstLba off len) (hi : i < len) :
    placeAt firstLba off i = 512 * firstLba + off + i := by
  unfold Fits at h
  unfold placeAt byteAt partBytesToLba
  omega

/-- The last byte of a range that does not fit is looked for elsewhere. -/
theorem placeAt_last_ne (hoff : off < 2 ^ 64) (hlen : len < 2 ^ 32) (h : ¬ Fits firstLba off len) :
    placeAt firstLba off (len - 1) ≠ 512 * firstLba + off + (len - 1) := by
  unfold Fits at h
  unfold placeAt byteAt partBytesToLba
  omega

theorem readBytes_inPlace (hm : m.Good) (hfirst : firstLba < 2 ^ 64) (hoff : off < 2 ^ 64)
    (h : Fits firstLba off len) :
    (readBytes firstLba off len).run m.read
      = some (some fun i => if i < len then m.byte (512 * firstLba + off + i) else 0) := by
  rw [readBytes_placed hm hoff]
  congr 2
  funext i
  split_ifs with hi
  · rw [placeAt_of_fits hfirst h hi]
  · rfl

theorem writeBytes_inPlace (hm : m.Good) (hfirst : firstLba < 2 ^ 64) (hoff : off < 2 ^ 64)
    (data : List UInt8) (hlen : data.length < 2 ^ 32) (h : Fits firstLba off data.length)
    (writes : List Transfer) :
    ∃ (m' : Medium) (writes' : List Transfer),
      writeBytes firstLba off data m writes = some ⟨0, m', writes'⟩ ∧ m'.bad = m.bad ∧
      Overlaid m.byte m'.byte (512 * firstLba + off + ·) data := by
  obtain ⟨m', writes', hw, hbad, hov⟩ :=
    writeBytes_placed firstLba hm hoff data (hlen.le.trans (by decide)) writes
  exact ⟨m', writes', hw, hbad, hov.congr fun i hi => (placeAt_of_fits hfirst h hi).symm⟩

theorem inPlace_of_fits (hfirst : firstLba < 2 ^ 64) (hoff : off < 2 ^ 64) (hlen : len < 2 ^ 32)
    (h : Fits firstLba off len) : InPlace firstLba off len := by
  constructor
  · intro m hm
    exact ⟨_, readBytes_inPlace hm hfirst hoff h, fun i hi => if_pos hi⟩
  · rintro m data writes hm rfl
    obtain ⟨m', writes', hw, hbad, hov⟩ := writeBytes_inPlace hm hfirst hoff data hlen h writes
    have hm' : m'.Good := fun s => by
      rw [hbad]
      exact hm s
    refine ⟨m', writes', hw, hbad, hov, ⟨_, readBytes_inPlace hm' hfirst hoff h, ?_⟩, ?_⟩
    · refine List.ext_getElem (by simp [bytesOf]) fun i hi hi' => ?_
      simp only [bytesOf, List.getElem_map, List.getElem_range, if_pos hi']
      exact hov.written i hi'
    · intro off' n hoff' hfits hapart
      rw [readBytes_inPlace hm' hfirst hoff' hfits, readBytes_inPlace hm hfirst hoff' hfits]
      congr 2
      funext i
      split_ifs with hi
      · exact hov.frame _ fun j hj => by omega
      · rfl

theorem fits_of_inPlace (hoff : off < 2 ^ 64) (hlen : len < 2 ^ 32) (h : InPlace firstLba off len) :
    Fits firstLba off len := by
  by_contra hfits
  have hpos : 0 < len := Nat.pos_of_ne_zero fun h0 => hfits (Or.inl h0)
  -- a disk with one byte other than zero, the one that is read last
  let m : Medium :=
    ⟨fun a => if a = placeAt firstLba off (len - 1) then 1 else 0, fun _ => false⟩
  have hm : m.Good := fun _ => rfl
  obtain ⟨buf, hrun, hbuf⟩ := h.read m hm
  rw [readBytes_placed hm hoff, Option.some_inj, Option.some_inj] at hrun
  have hone : buf (len - 1) = 1 := by
    rw [← hrun]
    exact (if_pos (by omega)).trans (if_pos rfl)
  have hzero : buf (len - 1) = 0 := by
    rw [hbuf (len - 1) (by omega)]
    exact if_neg (placeAt_last_ne hoff hlen hfits).symm
  rw [hone] at hzero
  exact absurd hzero (by decide)

/-- A range is read and written in place exactly if it fits. -/
theorem inPlace_iff_fits (firstLba off len : ℕ) (hfirst : firstLba < 2 ^ 64) (hoff : off < 2 ^ 64)
    (hlen : len < 2 ^ 32) : InPlace firstLba off len ↔ Fits firstLba off len :=
  ⟨fits_of_inPlace hoff hlen, inPlace_of_fits hfirst hoff hlen⟩

/-- A range in three sectors. -/
theorem inPlace_three_sectors : InPlace 2048 1000 1100 :=
  (inPlace_iff_fits 2048 1000 1100 (by decide) (by decide) (by decide)).2
    (Or.inr ⟨by decide, by decide⟩)

/-- The sector after the last one is the first. -/
theorem not_inPlace_last_sector : ¬ InPlace (2 ^ 64 - 1) 512 1 := by
  intro h
  rcases fits_of_inPlace (by decide) (by decide) h with hzero | ⟨-, hdisk⟩
  · exact absurd hzero (by decide)
  · exact absurd hdisk (by decide)

end Ext

end PeanutKernel
