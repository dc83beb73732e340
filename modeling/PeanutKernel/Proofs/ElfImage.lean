import PeanutKernel.Proofs.ElfBounds

/-!
# What the ELF loader leaves in memory

Of a file that is right, a statically linked one whose headers and segments lie in the file and are
for addresses apart from `elf_buffer`, the loader leaves every segment in memory, zeroes behind it,
and nothing else. Where segments overlap the last one counts.
-/

namespace PeanutKernel

namespace Elf

namespace Buffered

open MemM

section Placed

variable (b : Buffered)

/-- The bytes a segment takes up. -/
def spanOf (i : ℕ) : ℕ := max (b.fileszOf i) (b.memszOf i)

/-- Byte `j` of a segment. -/
def segmentByte (i j : ℕ) : UInt8 := if j < b.fileszOf i then b.bytes (b.offsetOf i + j) else 0

/-- The address belongs to segment `i`. -/
def Covers (i a : ℕ) : Prop :=
  i < b.phnum ∧ b.typeOf i = ptLoad ∧ b.vaddrOf i ≤ a ∧ a < b.vaddrOf i + b.spanOf i

/-- Memory with the first `n` segments in place. -/
def placed (mem : Buf) : ℕ → Buf
  | 0 => mem
  | n + 1 =>
    if b.typeOf n = ptLoad then
      overlay (b.vaddrOf n) (b.spanOf n) (b.segmentByte n) (placed mem n)
    else placed mem n

/-- A file the loader is right for. -/
structure Executable : Prop where
  magic : magicBytes <+: b.file
  header : 58 ≤ b.file.length
  static : b.interpIndex = none
  fields : ∀ i < b.phnum, b.phdrIndex i + 48 ≤ b.file.length
  source : ∀ i < b.phnum, b.typeOf i = ptLoad → b.offsetOf i + b.fileszOf i ≤ b.file.length
  dest : ∀ i < b.phnum, b.typeOf i = ptLoad → b.vaddrOf i + b.spanOf i ≤ 2 ^ 64
  apart : ∀ i < b.phnum, b.typeOf i = ptLoad →
    b.vaddrOf i + b.spanOf i ≤ b.elfBuffer ∨ b.elfBuffer + b.file.length ≤ b.vaddrOf i

variable {b} {mem : Buf}

theorem placed_of_not_covers {a : ℕ} :
    ∀ {n : ℕ}, n ≤ b.phnum → (∀ i < n, ¬ b.Covers i a) → b.placed mem n a = mem a
  | 0, _, _ => rfl
  | n + 1, hn, h => by
    have ih := placed_of_not_covers (Nat.le_of_succ_le hn) fun i hi => h i (Nat.lt_succ_of_lt hi)
    rw [placed]
    split_ifs with hload
    · rw [overlay, if_neg fun ha => h n (Nat.lt_succ_self n) ⟨hn, hload, ha⟩, ih]
    · exact ih

theorem placed_of_last {i j : ℕ} (hi : b.Covers i (b.vaddrOf i + j)) :
    ∀ {n : ℕ}, i < n → n ≤ b.phnum → (∀ k, i < k → k < n → ¬ b.Covers k (b.vaddrOf i + j)) →
      b.placed mem n (b.vaddrOf i + j) = b.segmentByte i j
  | n + 1, hin, hn, h => by
    rw [placed]
    rcases Nat.lt_succ_iff_lt_or_eq.1 hin with hlt | rfl
    · have ih := placed_of_last hi hlt (Nat.le_of_succ_le hn) fun k hk hkn =>
        h k hk (Nat.lt_succ_of_lt hkn)
      split_ifs with hloadn
      · rw [overlay, if_neg fun ha => h n hlt (Nat.lt_succ_self n) ⟨hn, hloadn, ha⟩, ih]
      · exact ih
    · rw [if_pos hi.2.1, overlay, if_pos hi.2.2, Nat.add_sub_cancel_left]

end Placed

section Load

variable {b : Buffered} {i : ℕ} {mem : Buf} (h : b.Executable)
include h

section Segment

variable (hi : i < b.phnum) (hload : b.typeOf i = ptLoad)
include hi hload

theorem Executable.loadable : b.Loadable i where
  count := hi
  load := hload
  fields := h.fields i hi
  apart := by
    intro k hk hloadk j hj x hx _
    have hdest := h.dest k hk hloadk
    have hapart := h.apart k hk hloadk
    have hspan : j < b.spanOf k := hj
    omega

variable (hmem : b.InBuffer mem)
include hmem

theorem Executable.kept {n : ℕ} (hn : n ≤ b.spanOf i) (f : Buf) :
    b.InBuffer (overlay (b.vaddrOf i) n f mem) := by
  have hapart := h.apart i hi hload
  intro x hx
  rw [overlay_of_not_mem (by omega), hmem x hx]

theorem Executable.after_copyBytes :
    (copyBytes b.phdr i (b.vaddrOf i) (b.elfBuffer + b.offsetOf i)).after mem
      = overlay (b.vaddrOf i) (b.fileszOf i) (b.segmentByte i) mem := by
  have hend := b.fits
  have hdest := h.dest i hi hload
  have hsource := h.source i hi hload
  have hspan : b.fileszOf i ≤ b.spanOf i := le_max_left _ _
  have hkept := fun j (hj : j ≤ b.fileszOf i) =>
    h.kept hi hload hmem (hj.trans hspan) (b.segmentByte i)
  rw [copyBytes]
  refine (countUp_countsTo (b := b.fileszOf i)
    (I := fun j mem' => j ≤ b.fileszOf i ∧
      mem' = overlay (b.vaddrOf i) j (b.segmentByte i) mem)
    ?_ ?_ (2 ^ 64) 0 mem (Nat.zero_le _) (le64_lt _ _).le
    ⟨Nat.zero_le _, overlay_zero.symm⟩).leaves.2
  · rintro j mem' ⟨hj, rfl⟩
    exact ⟨((h.loadable hi hload).values (hkept j hj).keeps).2.2.1, after_readLe _ _ _⟩
  · rintro j mem' hj ⟨-, rfl⟩
    have hread : (b.elfBuffer + b.offsetOf i + j) % 2 ^ 64 = b.elfBuffer + (b.offsetOf i + j) := by
      omega
    have hbyte : b.segmentByte i j = b.bytes (b.offsetOf i + j) := if_pos hj
    refine ⟨hj, ?_⟩
    rw [copyByte, after_bind, value_load, after_load, after_store, hread,
      hkept j hj.le _ (by omega), ← hbyte, Nat.mod_eq_of_lt (by omega), update_overlay]

/-- The rest of a segment behind its bytes in the file. -/
theorem Executable.after_zeroBytes (hle : b.fileszOf i ≤ b.memszOf i) :
    (zeroBytes b.phdr i (b.vaddrOf i) (b.fileszOf i)).after
        (overlay (b.vaddrOf i) (b.fileszOf i) (b.segmentByte i) mem)
      = overlay (b.vaddrOf i) (b.memszOf i) (b.segmentByte i) mem := by
  have hdest := h.dest i hi hload
  have hspan : b.memszOf i ≤ b.spanOf i := le_max_right _ _
  have hlt : b.memszOf i < 2 ^ 64 := le64_lt _ _
  rw [zeroBytes]
  refine (countUp_countsTo (b := b.memszOf i)
    (I := fun j mem' => b.fileszOf i ≤ j ∧ j ≤ b.memszOf i ∧
      mem' = overlay (b.vaddrOf i) j (b.segmentByte i) mem)
    ?_ ?_ (2 ^ 64) (b.fileszOf i) _ hle (by omega) ⟨le_rfl, hle, rfl⟩).leaves.2.2
  · rintro j mem' ⟨-, hj, rfl⟩
    have hkept := h.kept hi hload hmem (hj.trans hspan) (b.segmentByte i)
    exact ⟨((h.loadable hi hload).values hkept.keeps).2.2.2, after_readLe _ _ _⟩
  · rintro j mem' hj ⟨hge, -, rfl⟩
    have hbyte : b.segmentByte i j = 0 := if_neg (Nat.not_lt.2 hge)
    refine ⟨by omega, hj, ?_⟩
    rw [zeroByte, after_store, ← hbyte, Nat.mod_eq_of_lt (by omega), update_overlay]

theorem Executable.after_loadSegment :
    (loadSegment b.elfBuffer b.phdr i).after mem
      = overlay (b.vaddrOf i) (b.spanOf i) (b.segmentByte i) mem := by
  have hkept := h.kept hi hload hmem (le_max_left _ _) (b.segmentByte i)
  rw [(h.loadable hi hload).after_loadSegment hmem.keeps (h.after_copyBytes hi hload hmem)
    hkept.keeps]
  split_ifs with hlt
  · rw [h.after_zeroBytes hi hload hmem hlt.le, spanOf, max_eq_right hlt.le]
  · rw [spanOf, max_eq_left (Nat.not_lt.1 hlt)]

end Segment

/-- A round of the loop places the next segment, if it is one. -/
theorem Executable.after_loadHeader (hi : i < b.phnum) (hmem : b.InBuffer (b.placed mem i)) :
    (loadHeader b.elfBuffer b.phdr i).after (b.placed mem i) = b.placed mem (i + 1) ∧
      b.InBuffer (b.placed mem (i + 1)) := by
  have hfields := h.fields i hi
  rw [loadHeader, after_bind, value_pType hmem.keeps hi (by omega), pType, after_readLe, placed]
  split_ifs with hload
  · exact ⟨h.after_loadSegment hi hload hmem, h.kept hi hload hmem le_rfl _⟩
  · exact ⟨rfl, hmem⟩

theorem Executable.after_loadSegments (hmem : b.InBuffer mem) :
    (loadSegments b.elfBuffer b.phdr).after mem = b.placed mem b.phnum ∧
      b.InBuffer (b.placed mem b.phnum) :=
  (countUp_countsTo (b := b.phnum)
    (I := fun i mem' => mem' = b.placed mem i ∧ b.InBuffer (b.placed mem i))
    (fun _ mem' hI => ⟨value_ePhnum h.header (hI.1 ▸ hI.2.keeps), after_readLe mem' _ _⟩)
    (fun _ _ hi hI => hI.1 ▸ h.after_loadHeader hi hI.2) (2 ^ 16) 0 mem (Nat.zero_le _)
    b.phnum_lt.le ⟨rfl, hmem⟩).leaves

/-- The loader behind the header: there is no interpreter, and the segments are loaded. -/
theorem Executable.loadImage_started (hmem : b.InBuffer mem) :
    (loadImage b.elfBuffer).value mem = .started (le64 b.bytes 24) ∧
      (loadImage b.elfBuffer).after mem = b.placed mem b.phnum := by
  have hheader := h.header
  have hinside : b.InterpInside 0 := by
    rw [interpInside_zero_iff, h.static]
    refine ⟨fun _ i hi => ?_, fun i hi => by cases hi⟩
    have := h.fields i hi
    omega
  have hinterp : (findInterp b.elfBuffer b.phdr (2 ^ 16) 0).value mem = 0 := by
    rw [(@findInterp_spec b 0 mem hheader hmem.keeps (2 ^ 16) 0 b.phnum_lt.le (Or.inl rfl)).2
      hinside, interpFrom_zero, h.static]
  obtain ⟨hafter, hin⟩ := h.after_loadSegments hmem
  have hentry : (eEntry b.elfBuffer).value (b.placed mem b.phnum) = le64 b.bytes 24 :=
    (hin.value (by omega)).trans (leBytes_eight _ _)
  have hrest : loadRest b.elfBuffer b.phdr 0 = (do
      loadSegments b.elfBuffer b.phdr
      let entryPoint ← eEntry b.elfBuffer
      pure (.started entryPoint)) := if_neg (not_not.2 rfl)
  constructor
  · rw [loadImage, value_bind, hmem.magic h.magic, after_readLe, if_neg (not_not.2 rfl), value_bind,
      hmem.ePhoff hheader, ePhoff, after_readLe, ← phdr, value_bind, hinterp, after_findInterp,
      hrest, value_bind, hafter, value_bind, hentry, value_pure]
  · rw [loadImage, after_bind, hmem.magic h.magic, after_readLe, if_neg (not_not.2 rfl), after_bind,
      hmem.ePhoff hheader, ePhoff, after_readLe, ← phdr, after_bind, hinterp, after_findInterp,
      hrest, after_bind, hafter, after_bind, eEntry, after_readLe, after_pure]

omit h in
/-- On a file that is right the loops of the loader end with its entry point, and leave in memory
each segment of it: the bytes of the file and zeroes behind them, where no later segment is. They
change no other byte; what `kfree` and the jump to ring 3 store after them is not in the model. -/
theorem loadImage_places (h : b.Executable) (mem : Buf) :
    (loadImage b.elfBuffer).value (b.stored mem) = .started (le64 b.bytes 24) ∧
      (∀ i j, b.Covers i (b.vaddrOf i + j) → (∀ k, i < k → ¬ b.Covers k (b.vaddrOf i + j)) →
        (loadImage b.elfBuffer).after (b.stored mem) (b.vaddrOf i + j) = b.segmentByte i j) ∧
      ∀ a, (∀ i, ¬ b.Covers i a) →
        (loadImage b.elfBuffer).after (b.stored mem) a = b.stored mem a := by
  obtain ⟨hvalue, hafter⟩ := h.loadImage_started (b.inBuffer_stored mem)
  rw [hafter]
  refine ⟨hvalue, fun i j hi hlast => ?_, fun a ha => ?_⟩
  · exact placed_of_last hi hi.1 le_rfl fun k hk _ => hlast k hk
  · exact placed_of_not_covers le_rfl fun i _ => ha i

end Load

end Buffered

section Sample

theorem executable_oneSegment : (oneSegmentAt 0x40).Executable := by
  have hcount : (oneSegmentAt 0x40).phnum = 1 := by decide +kernel
  have hspan : (oneSegmentAt 0x40).spanOf 0 = 2 := by decide +kernel
  have hvaddr : (oneSegmentAt 0x40).vaddrOf 0 = 0x400000 := by decide +kernel
  have honly : ∀ i < (oneSegmentAt 0x40).phnum, i = 0 := fun i hi => by omega
  refine ⟨by decide +kernel, by decide +kernel, by decide +kernel, fun i hi => ?_, fun i hi _ => ?_,
    fun i hi _ => ?_, fun i hi _ => ?_⟩
  · rw [honly i hi]
    decide +kernel
  · rw [honly i hi]
    decide +kernel
  · rw [honly i hi, hvaddr, hspan]
    decide
  · rw [honly i hi, hvaddr, hspan]
    exact Or.inl (by decide)

theorem loadImage_places_oneSegment :
    let b := oneSegmentAt 0x40
    let mem := b.stored fun _ => 0
    (loadImage b.elfBuffer).value mem = .started (le64 b.bytes 24) ∧
      (∀ i j, b.Covers i (b.vaddrOf i + j) → (∀ k, i < k → ¬ b.Covers k (b.vaddrOf i + j)) →
        (loadImage b.elfBuffer).after mem (b.vaddrOf i + j) = b.segmentByte i j) ∧
      ∀ a, (∀ i, ¬ b.Covers i a) → (loadImage b.elfBuffer).after mem a = mem a :=
  Buffered.loadImage_places executable_oneSegment fun _ => 0

end Sample

end Elf

end PeanutKernel
