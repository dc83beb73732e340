import PeanutKernel.ElfLoad
import PeanutKernel.Proofs.Block
import Mathlib.Tactic.Ring

/-!
# Where the ELF loader reads and writes

The loader takes every offset, address and size in an ELF file as it is: it rejects no file that
starts with the ELF magic. So its reads stay in the file and its writes out of the kernel image just
when the numbers in the file happen to be right (`elf_load_inside_iff`). A segment may be copied
over the headers in `elf_buffer`, which are read again after each byte; the numbers then are those
that stand there when the loop comes to them.
-/

namespace PeanutKernel

namespace Elf

open MemM

section Fields

variable {P : Access ℕ → Prop} {mem f : Buf}

/-- The value of `n` bytes from `a` on. -/
def leBytes (f : Buf) : ℕ → ℕ → ℕ
  | 0, _ => 0
  | n + 1, a => (f a).toNat + 2 ^ 8 * leBytes f n (a + 1)

theorem leBytes_two (f : Buf) (a : ℕ) : leBytes f 2 a = le16 f a := by
  simp only [leBytes, le16]
  omega

theorem leBytes_four (f : Buf) (a : ℕ) : leBytes f 4 a = le32 f a := by
  simp only [leBytes, le32, Nat.add_assoc a, Nat.reduceAdd]
  omega

theorem leBytes_eight (f : Buf) (a : ℕ) : leBytes f 8 a = le64 f a := by
  simp only [leBytes, le64, le32, Nat.add_assoc a, Nat.reduceAdd]
  omega

theorem after_readLe (mem : Buf) : ∀ n a, (readLe n a).after mem = mem
  | 0, _ => rfl
  | n + 1, a => by
    rw [readLe]
    simp only [after_bind, after_load, after_pure, after_readLe mem n]

theorem within_readLe : ∀ n a,
    MemM.Within P (readLe n a) mem ↔ ∀ k < n, P (.read ((a + k) % 2 ^ 64))
  | 0, _ => by simp [readLe]
  | n + 1, a => by
    rw [readLe]
    simp only [within_bind, within_load, within_pure, after_load, and_true,
      within_readLe n (a + 1)]
    constructor
    · rintro ⟨h0, h⟩ k hk
      rcases k with _ | k
      · exact h0
      · have := h k (by omega)
        rwa [Nat.add_right_comm] at this
    · intro h
      refine ⟨h 0 (Nat.succ_pos n), fun k hk => ?_⟩
      have := h (k + 1) (by omega)
      rwa [Nat.add_right_comm]

theorem value_readLe : ∀ {n a : ℕ} {x : ℕ},
    (∀ k < n, mem ((a + k) % 2 ^ 64) = f (x + k)) → (readLe n a).value mem = leBytes f n x
  | 0, _, _, _ => rfl
  | n + 1, a, x, h => by
    have h0 := h 0 (Nat.succ_pos n)
    have hrest : (readLe n (a + 1)).value mem = leBytes f n (x + 1) := by
      refine value_readLe fun k hk => ?_
      have := h (k + 1) (by omega)
      rwa [Nat.add_right_comm, Nat.add_right_comm x]
    rw [readLe, leBytes]
    simp only [value_bind, value_load, value_pure, after_load, hrest]
    rw [Nat.add_zero, Nat.add_zero] at h0
    rw [h0]

theorem le64_lt (f : Buf) (a : ℕ) : le64 f a < 2 ^ 64 := by
  have h1 := le32_lt f a
  have h2 := le32_lt f (a + 4)
  unfold le64
  omega

theorem value_readLe_lt (a : ℕ) (mem : Buf) :
    (readLe 8 a).value mem < 2 ^ 64 ∧ (readLe 2 a).value mem < 2 ^ 16 := by
  have h : ∀ n, (readLe n a).value mem = leBytes (fun x => mem (x % 2 ^ 64)) n a :=
    fun n => value_readLe fun _ _ => rfl
  rw [h, h, leBytes_eight, leBytes_two]
  exact ⟨le64_lt _ _, le16_lt _ _⟩

end Fields

/-- The bytes a file that is loaded as an ELF image starts with. -/
def magicBytes : List UInt8 := [0x7F, 0x45, 0x4C, 0x46]

/-- A file in `elf_buffer`. -/
structure Buffered where
  file : List UInt8
  elfBuffer : ℕ
  size : file.length ≤ maxFileSize
  fits : elfBuffer + file.length ≤ 2 ^ 64

namespace Buffered

section Static

variable (b : Buffered) (i : ℕ)

/-- The bytes of the file, by their index. -/
def bytes : Buf := fun i => b.file.getD i 0

def phnum : ℕ := le16 b.bytes 56

/-- The index of program header `i`. -/
def phdrIndex : ℕ := le64 b.bytes 32 + 56 * i

def typeOf : ℕ := le32 b.bytes (b.phdrIndex i)

def offsetOf : ℕ := le64 b.bytes (b.phdrIndex i + 8)

def vaddrOf : ℕ := le64 b.bytes (b.phdrIndex i + 16)

def fileszOf : ℕ := le64 b.bytes (b.phdrIndex i + 32)

def memszOf : ℕ := le64 b.bytes (b.phdrIndex i + 40)

/-- The first `PT_INTERP` header. -/
def interpIndex : Option ℕ := (List.range b.phnum).find? fun i => b.typeOf i = ptInterp

/-- The address the loader takes for that of the interpreter's path. -/
def interpAddress : ℕ :=
  match b.interpIndex with
  | none => 0
  | some i => (b.elfBuffer + b.offsetOf i) % 2 ^ 64

/-- The string at index `x` ends in the file, or 255 bytes of it are there. -/
def StringInside (x : ℕ) : Prop :=
  (∃ k < 255, x + k < b.file.length ∧ b.bytes (x + k) = 0) ∨ x + 255 ≤ b.file.length

/-- The address, taken modulo `2 ^ 64`, is outside the kernel image. -/
def Free (kernelEnd a : ℕ) : Prop := ¬ (2 ^ 20 ≤ a % 2 ^ 64 ∧ a % 2 ^ 64 < kernelEnd)

/-- The source of a segment lies in the file, its destination outside the kernel image. -/
structure SegmentInside (kernelEnd : ℕ) : Prop where
  fields : b.phdrIndex i + 48 ≤ b.file.length
  source : b.fileszOf i ≠ 0 → b.offsetOf i + b.fileszOf i ≤ b.file.length
  dest : ∀ j < max (b.fileszOf i) (b.memszOf i), Free kernelEnd (b.vaddrOf i + j)

/-- The segments of the file lie in it and go outside the kernel image. -/
def SegmentsInside (kernelEnd : ℕ) : Prop :=
  ∀ i < b.phnum, b.phdrIndex i + 4 ≤ b.file.length ∧
    (b.typeOf i = ptLoad → b.SegmentInside i kernelEnd)

/-- The numbers in the file keep the loader inside, if the loading of the segments does. -/
structure Contained (segmentsInside : Prop) : Prop where
  header : 58 ≤ b.file.length
  types : b.interpIndex = none → ∀ i < b.phnum, b.phdrIndex i + 4 ≤ b.file.length
  interp : ∀ i, b.interpIndex = some i → b.phdrIndex i + 16 ≤ b.file.length
  string : b.interpAddress ≠ 0 → ∀ i, b.interpIndex = some i →
    b.StringInside (b.offsetOf i)
  segments : b.interpAddress = 0 → segmentsInside

/-- The bytes of the headers that are read again while segments are copied. -/
def ReadAgain (x : ℕ) : Prop :=
  x = 56 ∨ x = 57 ∨ ∃ i < b.phnum, b.phdrIndex i ≤ x ∧ x < b.phdrIndex i + 48

/-- No segment is copied over them. -/
def Apart : Prop :=
  ∀ i < b.phnum, b.typeOf i = ptLoad → ∀ j < max (b.fileszOf i) (b.memszOf i),
    ∀ x < b.file.length, b.ReadAgain x → (b.vaddrOf i + j) % 2 ^ 64 ≠ b.elfBuffer + x

/-- The pointer to the program headers. -/
def phdr : ℕ := (b.elfBuffer + le64 b.bytes 32) % 2 ^ 64

/-- The file is in memory. -/
def InBuffer (mem : Buf) : Prop := ∀ x < b.file.length, mem (b.elfBuffer + x) = b.bytes x

/-- It is, at least where the loader reads it again. -/
def Keeps (mem : Buf) : Prop :=
  ∀ x < b.file.length, b.ReadAgain x → mem (b.elfBuffer + x) = b.bytes x

/-- Memory with the file in the buffer. -/
def stored (mem : Buf) : Buf := storeBytes mem b.elfBuffer b.file

/-- A read of the file in `elf_buffer`, or a write outside the kernel image. -/
def Allowed (kernelEnd : ℕ) : Access ℕ → Prop
  | .read a => b.elfBuffer ≤ a ∧ a < b.elfBuffer + b.file.length
  | .write a => ¬ (2 ^ 20 ≤ a ∧ a < kernelEnd)

/-- Loading the file, all reads are of the file and all writes outside the kernel image. -/
def StaysInside (kernelEnd : ℕ) (mem : Buf) : Prop :=
  MemM.Within (b.Allowed kernelEnd) (loadImage b.elfBuffer) (b.stored mem)

end Static

section Reads

variable {b : Buffered} {kernelEnd : ℕ} {mem : Buf} {i : ℕ}

theorem phdr_address (b : Buffered) (i off : ℕ) :
    (b.phdr + 56 * i + off) % 2 ^ 64 = (b.elfBuffer + (b.phdrIndex i + off)) % 2 ^ 64 := by
  unfold phdr phdrIndex
  omega

theorem phnum_lt (b : Buffered) : b.phnum < 2 ^ 16 := le16_lt _ _

theorem phdrIndex_zero_lt (b : Buffered) : b.phdrIndex 0 < 2 ^ 64 := le64_lt _ _

/-- The headers from the second on are not looked at unless the first lies in the file. -/
theorem phdrIndex_lt (hfirst : i = 0 ∨ b.phdrIndex 0 < b.file.length) (hi : i < 2 ^ 16) :
    b.phdrIndex i < 2 ^ 64 := by
  rcases hfirst with rfl | h
  · exact b.phdrIndex_zero_lt
  · have hsize : b.file.length ≤ 16 * 2 ^ 20 := b.size
    unfold phdrIndex at h ⊢
    omega

theorem allowed_read_iff (x : ℕ) :
    b.Allowed kernelEnd (.read ((b.elfBuffer + x) % 2 ^ 64)) ↔ x % 2 ^ 64 < b.file.length := by
  have hend := b.fits
  unfold Allowed
  omega

theorem value_field {a x n : ℕ} (hin : x + n ≤ b.file.length)
    (ha : a % 2 ^ 64 = (b.elfBuffer + x) % 2 ^ 64)
    (hmem : ∀ k < n, mem (b.elfBuffer + (x + k)) = b.bytes (x + k)) :
    (readLe n a).value mem = leBytes b.bytes n x := by
  have hend := b.fits
  refine value_readLe fun k hk => ?_
  rw [show (a + k) % 2 ^ 64 = b.elfBuffer + (x + k) by omega]
  exact hmem k hk

theorem value_ePhnum (hhead : 58 ≤ b.file.length) (hmem : b.Keeps mem) :
    (ePhnum b.elfBuffer).value mem = b.phnum := by
  rw [ePhnum, value_field (x := 56) (by omega) rfl, leBytes_two]
  · rfl
  · intro k hk
    refine hmem _ (by omega) ?_
    rcases k with _ | _ | k
    · exact Or.inl rfl
    · exact Or.inr (Or.inl rfl)
    · omega

theorem value_phdrField (hmem : b.Keeps mem) (hi : i < b.phnum) {off n : ℕ}
    (hoff : off + n ≤ 48) (hin : b.phdrIndex i + off + n ≤ b.file.length) :
    (readLe n (b.phdr + 56 * i + off)).value mem = leBytes b.bytes n (b.phdrIndex i + off) := by
  refine value_field hin (b.phdr_address i off) fun k hk => ?_
  exact hmem _ (by omega) (Or.inr (Or.inr ⟨i, hi, by omega, by omega⟩))

theorem value_pType (hmem : b.Keeps mem) (hi : i < b.phnum)
    (hin : b.phdrIndex i + 4 ≤ b.file.length) :
    (pType b.phdr i).value mem = b.typeOf i := by
  rw [pType, typeOf, ← leBytes_four]
  exact value_phdrField hmem hi (by decide : 0 + 4 ≤ 48) hin

/-- A field at index `x`, its address being taken modulo `2 ^ 64`. -/
theorem within_field_iff {a x n : ℕ} (hx : x < 2 ^ 64) (hn : 0 < n) (hn' : n ≤ 8)
    (ha : a % 2 ^ 64 = (b.elfBuffer + x) % 2 ^ 64) :
    MemM.Within (b.Allowed kernelEnd) (readLe n a) mem ↔ x + n ≤ b.file.length := by
  have haddr : ∀ k, (a + k) % 2 ^ 64 = (b.elfBuffer + (x + k)) % 2 ^ 64 := fun k => by omega
  have hsize : b.file.length ≤ 16 * 2 ^ 20 := b.size
  simp only [within_readLe, haddr, allowed_read_iff]
  constructor
  · intro h
    have h0 := h 0 hn
    have hlast := h (n - 1) (by omega)
    omega
  · intro h k hk
    omega

theorem within_pType_iff (hfirst : i = 0 ∨ b.phdrIndex 0 < b.file.length) (hi : i < 2 ^ 16) :
    MemM.Within (b.Allowed kernelEnd) (pType b.phdr i) mem ↔ b.phdrIndex i + 4 ≤ b.file.length :=
  within_field_iff (phdrIndex_lt hfirst hi) (by decide) (by decide) (b.phdr_address i 0)

/-- The other fields of a header whose type lies in the file. -/
theorem within_phdrField_iff (htype : b.phdrIndex i + 4 ≤ b.file.length) {off : ℕ}
    (hoff : off ≤ 40) :
    MemM.Within (b.Allowed kernelEnd) (readLe 8 (b.phdr + 56 * i + off)) mem
      ↔ b.phdrIndex i + off + 8 ≤ b.file.length := by
  refine within_field_iff ?_ (by decide) le_rfl (b.phdr_address i off)
  have hsize : b.file.length ≤ 16 * 2 ^ 20 := b.size
  omega

theorem within_ePhnum :
    MemM.Within (b.Allowed kernelEnd) (ePhnum b.elfBuffer) mem ↔ 58 ≤ b.file.length :=
  within_field_iff (by decide : 56 < 2 ^ 64) (by decide) (by decide) rfl

end Reads

section Interp

variable {b : Buffered} {kernelEnd : ℕ} {mem : Buf} {i : ℕ}

/-- The first `PT_INTERP` header from header `i` on. -/
def interpFrom (b : Buffered) (i : ℕ) : Option ℕ :=
  (List.range' i (b.phnum - i)).find? fun i => b.typeOf i = ptInterp

theorem interpFrom_zero (b : Buffered) : b.interpFrom 0 = b.interpIndex := by
  rw [interpFrom, interpIndex, List.range_eq_range', Nat.sub_zero]

theorem interpFrom_end (h : b.phnum ≤ i) : b.interpFrom i = none := by
  rw [interpFrom, Nat.sub_eq_zero_of_le h]
  rfl

theorem interpFrom_cons (h : i < b.phnum) :
    b.interpFrom i = if b.typeOf i = ptInterp then some i else b.interpFrom (i + 1) := by
  rw [interpFrom, show b.phnum - i = b.phnum - (i + 1) + 1 by omega, List.range'_succ,
    List.find?_cons]
  by_cases htype : b.typeOf i = ptInterp
  · simp [htype]
  · simp [htype, interpFrom]

theorem interpFrom_le {k : ℕ} (h : b.interpFrom i = some k) : i ≤ k ∧ k < b.phnum := by
  have := List.mem_of_find?_eq_some h
  rw [List.mem_range'_1] at this
  omega

/-- What the search for an interpreter from header `i` on reads lies in the file. -/
def InterpInside (b : Buffered) (i : ℕ) : Prop :=
  match b.interpFrom i with
  | none => ∀ k, i ≤ k → k < b.phnum → b.phdrIndex k + 4 ≤ b.file.length
  | some k => b.phdrIndex k + 16 ≤ b.file.length

theorem interpInside_end (h : b.phnum ≤ i) : b.InterpInside i := by
  rw [InterpInside, interpFrom_end h]
  intro k hik hk
  omega

theorem interpInside_hit (hi : i < b.phnum) (htype : b.typeOf i = ptInterp) :
    b.InterpInside i ↔ b.phdrIndex i + 16 ≤ b.file.length := by
  rw [InterpInside, interpFrom_cons hi, if_pos htype]

theorem interpInside_miss (hi : i < b.phnum) (htype : b.typeOf i ≠ ptInterp) :
    b.InterpInside i
      ↔ b.phdrIndex i + 4 ≤ b.file.length ∧ b.InterpInside (i + 1) := by
  rw [InterpInside, InterpInside, interpFrom_cons hi, if_neg htype]
  rcases hnext : b.interpFrom (i + 1) with _ | k
  · constructor
    · intro h
      exact ⟨h i le_rfl hi, fun k hk hk' => h k (by omega) hk'⟩
    · rintro ⟨h, hrest⟩ k hik hk
      rcases hik.eq_or_lt with rfl | hlt
      · exact h
      · exact hrest k hlt hk
  · have hle := (interpFrom_le hnext).1
    have hidx : b.phdrIndex i + 56 ≤ b.phdrIndex k := by
      unfold phdrIndex
      omega
    constructor
    · intro h
      exact ⟨by omega, h⟩
    · exact fun h => h.2

theorem after_findInterp (elfBuffer phdr : ℕ) (mem : Buf) :
    ∀ n i, (findInterp elfBuffer phdr n i).after mem = mem
  | 0, _ => rfl
  | n + 1, i => by
    rw [findInterp, after_bind, ePhnum, after_readLe]
    split_ifs
    · rw [after_bind, pType, after_readLe]
      split_ifs
      · rw [after_bind, pOffset, after_readLe]
        rfl
      · exact after_findInterp elfBuffer phdr mem n (i + 1)
    · rfl

theorem InterpInside.type (hi : i < b.phnum) (h : b.InterpInside i) :
    b.phdrIndex i + 4 ≤ b.file.length := by
  by_cases htype : b.typeOf i = ptInterp
  · have := (interpInside_hit hi htype).1 h
    omega
  · exact ((interpInside_miss hi htype).1 h).1

theorem findInterp_spec (hhead : 58 ≤ b.file.length) (hmem : b.Keeps mem) (n : ℕ) :
    ∀ i, b.phnum ≤ n + i → (i = 0 ∨ b.phdrIndex 0 < b.file.length) →
      (MemM.Within (b.Allowed kernelEnd) (findInterp b.elfBuffer b.phdr n i) mem
        ↔ b.InterpInside i) ∧
      (b.InterpInside i → (findInterp b.elfBuffer b.phdr n i).value mem
        = match b.interpFrom i with
          | none => 0
          | some k => (b.elfBuffer + b.offsetOf k) % 2 ^ 64) := by
  induction n with
  | zero =>
    intro i hle _
    rw [Nat.zero_add] at hle
    rw [findInterp, interpFrom_end hle]
    exact ⟨by simp [interpInside_end hle], fun _ => rfl⟩
  | succ n ih =>
    intro i hle hfirst
    have hnum := value_ePhnum hhead hmem
    have hafter : (ePhnum b.elfBuffer).after mem = mem := after_readLe mem _ _
    have hafter' : (pType b.phdr i).after mem = mem := after_readLe mem _ _
    rw [findInterp, within_bind, value_bind, hnum, hafter, within_ePhnum, iff_true_intro hhead,
      true_and]
    by_cases hi : i < b.phnum
    · rw [if_pos hi, within_bind, value_bind, hafter',
        within_pType_iff hfirst (hi.trans b.phnum_lt)]
      by_cases hin : b.phdrIndex i + 4 ≤ b.file.length
      · rw [value_pType hmem hi hin, iff_true_intro hin, true_and, interpFrom_cons hi]
        by_cases htype : b.typeOf i = ptInterp
        · rw [if_pos htype, if_pos htype, interpInside_hit hi htype, within_bind, value_bind]
          refine ⟨?_, fun h => ?_⟩
          · rw [within_pure, and_true]
            exact within_phdrField_iff hin (by decide)
          · rw [pOffset, value_phdrField hmem hi (by decide) h, leBytes_eight]
            rfl
        · rw [if_neg htype, if_neg htype, interpInside_miss hi htype, iff_true_intro hin, true_and]
          refine ih (i + 1) (by omega) (Or.inr ?_)
          unfold phdrIndex at hin ⊢
          omega
      · have hno : ¬ b.InterpInside i := fun h => hin (h.type hi)
        exact ⟨⟨fun h => absurd h.1 hin, fun h => absurd h hno⟩, fun h => absurd h hno⟩
    · have hge := Nat.not_lt.1 hi
      rw [if_neg hi, interpFrom_end hge]
      exact ⟨by simp [interpInside_end hge], fun _ => rfl⟩

end Interp

section Path

variable {b : Buffered} {kernelEnd : ℕ} {mem : Buf}

theorem readString_succ_iff (hmem : b.InBuffer mem) {a x : ℕ} (n : ℕ) (hx : x < 2 ^ 64)
    (ha : a % 2 ^ 64 = (b.elfBuffer + x) % 2 ^ 64) :
    MemM.Within (b.Allowed kernelEnd) (readString (n + 1) a) mem
      ↔ x < b.file.length ∧ (b.bytes x ≠ 0 →
        MemM.Within (b.Allowed kernelEnd) (readString n (a + 1)) mem) := by
  have hend := b.fits
  rw [readString, within_bind, within_load, ha, allowed_read_iff, Nat.mod_eq_of_lt hx]
  refine and_congr_right fun hlt => ?_
  rw [value_load, after_load, show (b.elfBuffer + x) % 2 ^ 64 = b.elfBuffer + x by omega,
    hmem x hlt]
  by_cases hzero : b.bytes x = 0
  · simp [hzero]
  · rw [if_neg hzero, within_bind, within_pure, and_true]
    exact ⟨fun h _ => h, fun h => h hzero⟩

theorem readString_within_iff (hmem : b.InBuffer mem) (n : ℕ) :
    ∀ {a x : ℕ}, x < 2 ^ 64 → a % 2 ^ 64 = (b.elfBuffer + x) % 2 ^ 64 →
      (MemM.Within (b.Allowed kernelEnd) (readString (n + 1) a) mem
        ↔ (∃ k < n + 1, x + k < b.file.length ∧ b.bytes (x + k) = 0) ∨
          x + (n + 1) ≤ b.file.length) := by
  have hsize : b.file.length ≤ 16 * 2 ^ 20 := b.size
  induction n with
  | zero =>
    intro a x hx ha
    rw [readString_succ_iff hmem 0 hx ha]
    constructor
    · exact fun h => Or.inr h.1
    · rintro (⟨k, hk, hlt, -⟩ | h)
      · exact ⟨by omega, fun _ => by simp [readString]⟩
      · exact ⟨h, fun _ => by simp [readString]⟩
  | succ n ih =>
    intro a x hx ha
    rw [readString_succ_iff hmem (n + 1) hx ha]
    constructor
    · rintro ⟨hlt, h⟩
      by_cases hzero : b.bytes x = 0
      · exact Or.inl ⟨0, by omega, hlt, hzero⟩
      · rcases (ih (a := a + 1) (x := x + 1) (by omega) (by omega)).1 (h hzero) with
          ⟨k, hk, hlt', hz⟩ | hend'
        · rw [Nat.add_assoc, Nat.add_comm 1] at hlt' hz
          exact Or.inl ⟨k + 1, by omega, hlt', hz⟩
        · exact Or.inr (by omega)
    · intro h
      have hlt : x < b.file.length := by
        rcases h with ⟨k, -, hlt, -⟩ | h <;> omega
      refine ⟨hlt, fun hne => (ih (by omega) (by omega : (a + 1) % 2 ^ 64
        = (b.elfBuffer + (x + 1)) % 2 ^ 64)).2 ?_⟩
      rcases h with ⟨k, hk, hlt', hz⟩ | h
      · rcases k with _ | k
        · exact absurd hz hne
        · rw [← Nat.add_assoc, Nat.add_right_comm] at hlt' hz
          exact Or.inl ⟨k, by omega, hlt', hz⟩
      · exact Or.inr (by omega)

end Path

section Segments

variable {b : Buffered} {kernelEnd : ℕ} {mem : Buf} {i : ℕ}

/-- A byte stored outside the headers leaves them. -/
theorem Keeps.store {a : ℕ} (h : b.Keeps mem)
    (ha : ∀ x < b.file.length, b.ReadAgain x → a ≠ b.elfBuffer + x) (v : UInt8) :
    b.Keeps (Function.update mem a v) := by
  intro x hx hread
  rw [Function.update_of_ne (ha x hx hread).symm]
  exact h x hx hread

/-- Segment `i` is to be loaded, and its header lies in the file. -/
structure Loadable (b : Buffered) (i : ℕ) : Prop where
  count : i < b.phnum
  load : b.typeOf i = ptLoad
  fields : b.phdrIndex i + 48 ≤ b.file.length
  apart : b.Apart

/-- The fields of the header in memory. -/
theorem Loadable.values (h : b.Loadable i) (hmem : b.Keeps mem) :
    (pVaddr b.phdr i).value mem = b.vaddrOf i ∧ (pOffset b.phdr i).value mem = b.offsetOf i ∧
      (pFilesz b.phdr i).value mem = b.fileszOf i ∧ (pMemsz b.phdr i).value mem = b.memszOf i := by
  have hvalue : ∀ {off : ℕ}, off ≤ 40 → (readLe 8 (b.phdr + 56 * i + off)).value mem
      = le64 b.bytes (b.phdrIndex i + off) := by
    intro off hoff
    have hfields := h.fields
    rw [value_phdrField hmem h.count (by omega) (by omega), leBytes_eight]
  exact ⟨hvalue (by decide), hvalue (by decide), hvalue (by decide), hvalue le_rfl⟩

theorem Loadable.store (h : b.Loadable i) (hmem : b.Keeps mem) {j : ℕ}
    (hj : j < max (b.fileszOf i) (b.memszOf i)) (v : UInt8) :
    b.Keeps (Function.update mem ((b.vaddrOf i + j) % 2 ^ 64) v) :=
  hmem.store (h.apart i h.count h.load j hj) v

theorem after_field (b : Buffered) (i off : ℕ) (mem : Buf) :
    (readLe 8 (b.phdr + 56 * i + off)).after mem = mem := after_readLe mem _ _

theorem Loadable.after_loadSegment (h : b.Loadable i) (hmem : b.Keeps mem) {copied : Buf}
    (hcopied : (copyBytes b.phdr i (b.vaddrOf i) (b.elfBuffer + b.offsetOf i)).after mem = copied)
    (hkept : b.Keeps copied) :
    (loadSegment b.elfBuffer b.phdr i).after mem = if b.fileszOf i < b.memszOf i then
      (zeroBytes b.phdr i (b.vaddrOf i) (b.fileszOf i)).after copied else copied := by
  obtain ⟨hvaddr, hoffset, -⟩ := h.values hmem
  obtain ⟨-, -, hfilesz, hmemsz⟩ := h.values hkept
  simp only [pVaddr, pOffset, pFilesz, pMemsz] at hvaddr hoffset hfilesz hmemsz
  simp only [loadSegment, after_bind, pVaddr, pOffset, pMemsz, pFilesz, after_field, hvaddr,
    hoffset, hcopied, hfilesz, hmemsz]
  split_ifs
  · rw [after_bind, after_field, hfilesz]
  · rfl

end Segments

section AsLoaded

variable {b : Buffered} {kernelEnd : ℕ} {mem : Buf} {i : ℕ}

/-- With header `i` as it stands in memory, which the copying may change, and its segment copied
from `offset` to `dest`, the loading of the segment stays inside. -/
structure SegmentStays (b : Buffered) (kernelEnd i dest offset : ℕ) (mem : Buf) : Prop where
  fields : b.phdrIndex i + 48 ≤ b.file.length
  copied : ∀ k mem', Comes (pFilesz b.phdr i) (copyByte dest (b.elfBuffer + offset)) 0 mem k mem' →
    k < (pFilesz b.phdr i).value mem' →
    (offset + k) % 2 ^ 64 < b.file.length ∧ Free kernelEnd (dest + k)
  zeroed : let phdr := b.phdr
    let copy := (copyBytes phdr i dest (b.elfBuffer + offset)).after mem
    (pFilesz phdr i).value copy < (pMemsz phdr i).value copy →
      ∀ k mem', Comes (pMemsz phdr i) (zeroByte dest) ((pFilesz phdr i).value copy) copy k mem' →
        k < (pMemsz phdr i).value mem' → Free kernelEnd (dest + k)

/-- The headers as they stand in memory when the loop comes to them keep it inside. -/
def SegmentsStay (b : Buffered) (kernelEnd : ℕ) (mem : Buf) : Prop :=
  let phdr := b.phdr
  ∀ i mem', Comes (ePhnum b.elfBuffer) (loadHeader b.elfBuffer phdr) 0 mem i mem' →
    i < (ePhnum b.elfBuffer).value mem' →
    b.phdrIndex i + 4 ≤ b.file.length ∧ ((pType phdr i).value mem' = ptLoad →
      b.SegmentStays kernelEnd i ((pVaddr phdr i).value mem')
        ((pOffset phdr i).value mem') mem')

theorem loadSegment_within_iff (htype : b.phdrIndex i + 4 ≤ b.file.length) :
    MemM.Within (b.Allowed kernelEnd) (loadSegment b.elfBuffer b.phdr i) mem
      ↔ b.SegmentStays kernelEnd i ((pVaddr b.phdr i).value mem)
        ((pOffset b.phdr i).value mem) mem := by
  set phdr := b.phdr with hphdr
  have hfield : ∀ {off : ℕ} {mem : Buf}, off ≤ 40 →
      (MemM.Within (b.Allowed kernelEnd) (readLe 8 (phdr + 56 * i + off)) mem
        ↔ b.phdrIndex i + off + 8 ≤ b.file.length) := fun hoff =>
    within_phdrField_iff htype hoff
  have hsz : ∀ {mem : Buf}, MemM.Within (b.Allowed kernelEnd)
      (pFilesz phdr i) mem ↔ b.phdrIndex i + 40 ≤ b.file.length := hfield (by decide)
  have hafter : ∀ off mem, (readLe 8 (phdr + 56 * i + off)).after mem = mem :=
    fun _ mem => after_readLe mem _ _
  have hszafter : ∀ mem, (pFilesz phdr i).after mem = mem := hafter 32
  have hszlt : ∀ mem, (pFilesz phdr i).value mem < 2 ^ 64 := fun mem => (value_readLe_lt _ mem).1
  have hcopy : ∀ dest offset, MemM.Within (b.Allowed kernelEnd)
      (copyBytes phdr i dest (b.elfBuffer + offset)) mem ↔ ∀ k mem',
        Comes (pFilesz phdr i) (copyByte dest (b.elfBuffer + offset)) 0 mem k mem' →
        b.phdrIndex i + 40 ≤ b.file.length ∧ (k < (pFilesz phdr i).value mem' →
          (offset + k) % 2 ^ 64 < b.file.length ∧ Free kernelEnd (dest + k)) := by
    intro dest offset
    rw [copyBytes, within_countUp_iff hszlt (2 ^ 64) 0 mem (by decide) (by omega)]
    simp only [hsz, hszafter, copyByte, within_bind, within_load, within_store, Nat.add_assoc,
      allowed_read_iff]
    rfl
  have hzero : ∀ dest mem, MemM.Within (b.Allowed kernelEnd)
      (zeroBytes phdr i dest ((pFilesz phdr i).value mem)) mem ↔ ∀ k mem',
        Comes (pMemsz phdr i) (zeroByte dest) ((pFilesz phdr i).value mem) mem k mem' →
        b.phdrIndex i + 48 ≤ b.file.length ∧
          (k < (pMemsz phdr i).value mem' → Free kernelEnd (dest + k)) := by
    intro dest mem
    have hlt : ∀ mem, (pMemsz phdr i).value mem < 2 ^ 64 := fun mem => (value_readLe_lt _ mem).1
    rw [zeroBytes, within_countUp_iff hlt (2 ^ 64) _ mem (hszlt mem) (by omega)]
    simp only [pMemsz, hfield le_rfl, zeroByte, within_store]
    rfl
  rw [loadSegment]
  simp only [within_bind, pVaddr, pOffset, pMemsz, hafter, hszafter, hsz, hcopy,
    hfield (show 16 ≤ 40 by decide), hfield (show 8 ≤ 40 by decide), hfield (le_refl 40)]
  constructor
  · rintro ⟨-, -, hall, hin, -, hrest⟩
    refine ⟨hin, fun k mem' hc => (hall k mem' hc).2, fun hlt k mem' hc => ?_⟩
    split_ifs at hrest with hlt'
    · rw [within_bind, hszafter, hzero] at hrest
      exact (hrest.2 k mem' hc).2
    · exact absurd hlt hlt'
  · rintro ⟨hin, hcopied, hzeroed⟩
    refine ⟨by omega, by omega, fun k mem' hc => ⟨by omega, hcopied k mem' hc⟩, by omega, by omega,
      ?_⟩
    split_ifs with hlt
    · rw [within_bind, hszafter, hsz, hzero]
      exact ⟨by omega, fun k mem' hc => ⟨hin, hzeroed hlt k mem' hc⟩⟩
    · exact (within_pure _).2 trivial

theorem loadHeader_within_iff (hfirst : i = 0 ∨ b.phdrIndex 0 < b.file.length) (hi : i < 2 ^ 16) :
    MemM.Within (b.Allowed kernelEnd) (loadHeader b.elfBuffer b.phdr i) mem
      ↔ b.phdrIndex i + 4 ≤ b.file.length ∧ ((pType b.phdr i).value mem = ptLoad →
        b.SegmentStays kernelEnd i ((pVaddr b.phdr i).value mem)
          ((pOffset b.phdr i).value mem) mem) := by
  have hafter : (pType b.phdr i).after mem = mem := after_readLe mem _ _
  rw [loadHeader, within_bind, hafter, within_pType_iff hfirst hi]
  refine and_congr_right fun hin => ?_
  split_ifs with hload
  · rw [loadSegment_within_iff hin]
    exact ⟨fun h _ => h, fun h => h hload⟩
  · exact iff_of_true ((within_pure _).2 trivial) fun h => absurd h hload

theorem loadSegments_within_iff (hhead : 58 ≤ b.file.length) :
    MemM.Within (b.Allowed kernelEnd) (loadSegments b.elfBuffer b.phdr) mem
      ↔ b.SegmentsStay kernelEnd mem := by
  have hlt : ∀ mem, (ePhnum b.elfBuffer).value mem < 2 ^ 16 := fun mem => (value_readLe_lt _ mem).2
  have hafter : ∀ mem, (ePhnum b.elfBuffer).after mem = mem := fun mem => after_readLe mem _ _
  rw [loadSegments, within_countUp_iff hlt (2 ^ 16) 0 mem (by decide) (by omega)]
  simp only [within_ePhnum.2 hhead, hafter, true_and]
  have hiff := fun {i mem} hfirst hi => @loadHeader_within_iff b kernelEnd mem i hfirst hi
  constructor
  · rintro h i mem' hc hi
    refine (hiff ?_ (hi.trans (hlt _))).1 (h i mem' hc hi)
    -- a header behind the first is looked at only after the first
    obtain _ | ⟨hlt0, -⟩ := hc
    · exact Or.inl rfl
    · have := ((hiff (Or.inl rfl) (by decide)).1 (h 0 mem .here hlt0)).1
      exact Or.inr (by omega)
  · rintro h i mem' hc hi
    refine (hiff ?_ (hi.trans (hlt _))).2 (h i mem' hc hi)
    obtain _ | ⟨hlt0, -⟩ := hc
    · exact Or.inl rfl
    · have := (h 0 mem .here hlt0).1
      exact Or.inr (by omega)

end AsLoaded

section AsStored

variable {b : Buffered} {kernelEnd : ℕ} {mem : Buf} {i : ℕ}

section

variable (h : b.Loadable i)

include h

/-- Copying the segment comes to each of its bytes and leaves the headers. -/
theorem Loadable.copy (hmem : b.Keeps mem) :
    CountsTo (pFilesz b.phdr i) (copyByte (b.vaddrOf i) (b.elfBuffer + b.offsetOf i))
      (fun _ => b.Keeps) (2 ^ 64) 0 (b.fileszOf i) mem := by
  refine countUp_countsTo (fun _ mem hmem => ⟨(h.values hmem).2.2.1, ?_⟩)
    (fun k mem hk hmem => ?_) (2 ^ 64) 0 mem (Nat.zero_le _) (le64_lt _ _).le hmem
  · exact after_readLe mem _ _
  · exact h.store hmem (lt_max_of_lt_left hk) _

theorem Loadable.zero (hle : b.fileszOf i ≤ b.memszOf i) (hmem : b.Keeps mem) :
    CountsTo (pMemsz b.phdr i) (zeroByte (b.vaddrOf i)) (fun _ => b.Keeps) (2 ^ 64)
      (b.fileszOf i) (b.memszOf i) mem := by
  refine countUp_countsTo (fun _ mem hmem => ⟨(h.values hmem).2.2.2, ?_⟩)
    (fun k mem hk hmem => ?_) (2 ^ 64) _ mem hle (Nat.le_add_right_of_le (le64_lt _ _).le) hmem
  · exact after_readLe mem _ _
  · exact h.store hmem (lt_max_of_lt_right hk) _

theorem Loadable.stays_iff (hmem : b.Keeps mem) :
    b.SegmentStays kernelEnd i (b.vaddrOf i) (b.offsetOf i) mem
      ↔ b.SegmentInside i kernelEnd := by
  have hcopy := h.copy hmem
  have hkept := hcopy.leaves
  have hfilesz := fun {mem} (hmem : b.Keeps mem) => (h.values hmem).2.2.1
  have hmemsz := fun {mem} (hmem : b.Keeps mem) => (h.values hmem).2.2.2
  have hoffset : b.offsetOf i < 2 ^ 64 := le64_lt _ _
  have hsize : b.file.length ≤ 16 * 2 ^ 20 := b.size
  obtain ⟨-, -, hcopied⟩ := h.values hkept
  change (pFilesz b.phdr i).value ((copyBytes _ _ _ _).after mem) = _ ∧
    (pMemsz b.phdr i).value ((copyBytes _ _ _ _).after mem) = _ at hcopied
  constructor
  · rintro ⟨hin, hcop, hzer⟩
    have hsrc : ∀ k < b.fileszOf i, (b.offsetOf i + k) % 2 ^ 64 < b.file.length ∧
        Free kernelEnd (b.vaddrOf i + k) := by
      intro k hk
      obtain ⟨mem', hc⟩ := hcopy.each k (Nat.zero_le k) hk.le
      exact hcop k mem' hc (by rwa [hfilesz (hcopy.only k mem' hc).1])
    refine ⟨hin, fun hne => ?_, fun k hk => ?_⟩
    · have h0 := (hsrc 0 (by omega)).1
      by_contra hout
      have hlast := (hsrc (b.file.length - b.offsetOf i) (by omega)).1
      omega
    · rcases Nat.lt_or_ge k (b.fileszOf i) with hlt | hge
      · exact (hsrc k hlt).2
      · have hlt : k < b.memszOf i := by omega
        have hzero := h.zero (by omega) hkept
        obtain ⟨mem', hc⟩ := hzero.each k hge hlt.le
        refine hzer (by rw [hcopied.1, hcopied.2]; omega) k mem' ?_
          (by rwa [hmemsz (hzero.only k mem' hc).1])
        rw [hcopied.1]
        exact hc
  · rintro ⟨hin, hsource, hdest⟩
    refine ⟨hin, fun k mem' hc hk => ?_, fun hlt k mem' hc hk => ?_⟩
    · rw [hfilesz (hcopy.only k mem' hc).1] at hk
      have := hsource (by omega)
      exact ⟨by omega, hdest k (lt_max_of_lt_left hk)⟩
    · rw [hcopied.1, hcopied.2] at hlt
      rw [hcopied.1] at hc
      rw [hmemsz ((h.zero hlt.le hkept).only k mem' hc).1] at hk
      exact hdest k (lt_max_of_lt_right hk)

/-- The loading of a segment leaves the headers. -/
theorem Loadable.keeps (hmem : b.Keeps mem) :
    b.Keeps ((loadSegment b.elfBuffer b.phdr i).after mem) := by
  have hkept := (h.copy hmem).leaves
  rw [h.after_loadSegment hmem rfl hkept]
  split_ifs with hlt
  · exact (h.zero hlt.le hkept).leaves
  · exact hkept

end

theorem loadHeader_keeps (hapart : b.Apart) (hi : i < b.phnum)
    (hin : b.phdrIndex i + 4 ≤ b.file.length)
    (hfields : b.typeOf i = ptLoad → b.phdrIndex i + 48 ≤ b.file.length) (hmem : b.Keeps mem) :
    b.Keeps ((loadHeader b.elfBuffer b.phdr i).after mem) := by
  rw [loadHeader, after_bind, value_pType hmem hi hin, pType, after_readLe]
  split_ifs with hload
  · exact Loadable.keeps ⟨hi, hload, hfields hload, hapart⟩ hmem
  · exact hmem

/-- If no segment is copied over them, the headers in memory are those in the file. -/
theorem segmentsStay_iff (hhead : 58 ≤ b.file.length) (hapart : b.Apart) (hmem : b.Keeps mem) :
    b.SegmentsStay kernelEnd mem ↔ b.SegmentsInside kernelEnd := by
  have hnum : ∀ {mem}, b.Keeps mem → (ePhnum b.elfBuffer).value mem = b.phnum :=
    value_ePhnum hhead
  have hafter : ∀ mem, (ePhnum b.elfBuffer).after mem = mem := fun mem => after_readLe mem _ _
  have hheader : ∀ {i mem}, i < b.phnum → b.Keeps mem → b.phdrIndex i + 4 ≤ b.file.length →
      (((pType b.phdr i).value mem = ptLoad → b.SegmentStays kernelEnd i
          ((pVaddr b.phdr i).value mem) ((pOffset b.phdr i).value mem) mem) ↔
        (b.typeOf i = ptLoad → b.SegmentInside i kernelEnd)) := by
    intro i mem hi hmem hin
    rw [value_pType hmem hi hin]
    refine forall_congr' fun hload => ?_
    by_cases hfields : b.phdrIndex i + 48 ≤ b.file.length
    · have h : b.Loadable i := ⟨hi, hload, hfields, hapart⟩
      rw [← h.stays_iff hmem, (h.values hmem).1, (h.values hmem).2.1]
    · exact iff_of_false (fun h => hfields h.fields) fun h => hfields h.fields
  constructor
  · intro h
    -- the loop comes to each header, with the headers before it in place
    have hreach : ∀ i ≤ b.phnum, (∃ mem', Comes (ePhnum b.elfBuffer)
          (loadHeader b.elfBuffer b.phdr) 0 mem i mem' ∧ b.Keeps mem') ∧
        ∀ k < i, b.phdrIndex k + 4 ≤ b.file.length ∧
          (b.typeOf k = ptLoad → b.SegmentInside k kernelEnd) := by
      intro i hi
      induction i with
      | zero => exact ⟨⟨mem, .here, hmem⟩, fun k hk => absurd hk (Nat.not_lt_zero k)⟩
      | succ i ih =>
        obtain ⟨⟨mem', hc, hkeep⟩, hbefore⟩ := ih (Nat.le_of_lt hi)
        have hlt : i < (ePhnum b.elfBuffer).value mem' := by rwa [hnum hkeep]
        obtain ⟨hin, hstay⟩ := h i mem' hc hlt
        have hinside := (hheader hi hkeep hin).1 hstay
        have hnext := hc.snoc hlt
        rw [hafter] at hnext
        refine ⟨⟨_, hnext, loadHeader_keeps hapart hi hin
          (fun hload => (hinside hload).fields) hkeep⟩, fun k hk => ?_⟩
        rcases Nat.lt_succ_iff_lt_or_eq.1 hk with hk | rfl
        · exact hbefore k hk
        · exact ⟨hin, hinside⟩
    exact fun i hi => (hreach (i + 1) hi).2 i (Nat.lt_succ_self i)
  · intro h i mem' hc hi
    obtain ⟨hkeep, -⟩ := (countUp_countsTo (I := fun _ => b.Keeps)
      (fun _ mem hmem => ⟨hnum hmem, hafter mem⟩) (fun i _ hi hmem => loadHeader_keeps hapart
        hi (h i hi).1 (fun hload => ((h i hi).2 hload).fields) hmem) (2 ^ 16) 0 mem
      (Nat.zero_le _) b.phnum_lt.le hmem).only i mem' hc
    rw [hnum hkeep] at hi
    exact ⟨(h i hi).1, (hheader hi hkeep (h i hi).1).2 (h i hi).2⟩

end AsStored

section Image

variable {b : Buffered} {kernelEnd : ℕ} {mem : Buf}

theorem inBuffer_stored (b : Buffered) (mem : Buf) : b.InBuffer (b.stored mem) :=
  fun _ hx => storeBytes_of_mem mem b.elfBuffer hx

theorem InBuffer.keeps (h : b.InBuffer mem) : b.Keeps mem := fun x hx _ => h x hx

theorem InBuffer.value (h : b.InBuffer mem) {x n : ℕ} (hin : x + n ≤ b.file.length) :
    (readLe n (b.elfBuffer + x)).value mem = leBytes b.bytes n x :=
  value_field hin rfl fun _ _ => h _ (by omega)

theorem length_of_magic (hmagic : magicBytes <+: b.file) : 4 ≤ b.file.length := hmagic.length_le

theorem InBuffer.magic (h : b.InBuffer mem) (hmagic : magicBytes <+: b.file) :
    (readLe 4 b.elfBuffer).value mem = elfMagic := by
  have hlen := length_of_magic hmagic
  refine (h.value (x := 0) (by omega)).trans ?_
  obtain ⟨rest, hfile⟩ := hmagic
  simp [leBytes_four, le32, bytes, ← hfile, magicBytes, elfMagic]

theorem InBuffer.ePhoff (h : b.InBuffer mem) (hhead : 58 ≤ b.file.length) :
    (ePhoff b.elfBuffer).value mem = le64 b.bytes 32 :=
  (h.value (by omega)).trans (leBytes_eight _ _)

theorem interpInside_zero_iff : b.InterpInside 0
    ↔ (b.interpIndex = none → ∀ i < b.phnum, b.phdrIndex i + 4 ≤ b.file.length) ∧
      ∀ i, b.interpIndex = some i → b.phdrIndex i + 16 ≤ b.file.length := by
  rw [InterpInside, interpFrom_zero]
  rcases b.interpIndex with _ | i
  · simp
  · simp

theorem contained_iff {segmentsInside : Prop} : b.Contained segmentsInside
    ↔ 58 ≤ b.file.length ∧ b.InterpInside 0 ∧
      (b.interpAddress ≠ 0 → ∀ i, b.interpIndex = some i → b.StringInside (b.offsetOf i)) ∧
      (b.interpAddress = 0 → segmentsInside) := by
  rw [interpInside_zero_iff]
  constructor
  · rintro ⟨h1, h2, h3, h4, h5⟩
    exact ⟨h1, ⟨h2, h3⟩, h4, h5⟩
  · rintro ⟨h1, ⟨h2, h3⟩, h4, h5⟩
    exact ⟨h1, h2, h3, h4, h5⟩

theorem Contained.congr {p q : Prop} (h : 58 ≤ b.file.length → (p ↔ q)) :
    b.Contained p ↔ b.Contained q := by
  rw [contained_iff, contained_iff]
  exact and_congr_right fun hhead => by rw [h hhead]

/-- The loader behind the search for an interpreter, which has found `interpAddress`. -/
theorem loadRest_within_iff (hhead : 58 ≤ b.file.length) (hmem : b.InBuffer mem) :
    MemM.Within (b.Allowed kernelEnd) (loadRest b.elfBuffer b.phdr b.interpAddress) mem
      ↔ (b.interpAddress ≠ 0 → ∀ i, b.interpIndex = some i → b.StringInside (b.offsetOf i)) ∧
        (b.interpAddress = 0 →
          MemM.Within (b.Allowed kernelEnd) (loadSegments b.elfBuffer b.phdr) mem) := by
  rw [loadRest]
  by_cases hnull : b.interpAddress = 0
  · have hentry : ∀ mem, MemM.Within (b.Allowed kernelEnd) (eEntry b.elfBuffer) mem :=
      fun _ => (within_field_iff (by decide : 24 < 2 ^ 64) (by decide) le_rfl rfl).2 (by omega)
    rw [if_neg (not_not.2 hnull), within_bind, within_bind, within_pure]
    simp [hnull, hentry]
  · rw [if_pos hnull, within_bind, within_pure, and_true]
    simp only [hnull, ne_eq, not_false_eq_true, true_implies, false_implies, and_true]
    unfold interpAddress at hnull ⊢
    rcases hindex : b.interpIndex with _ | i
    · rw [hindex] at hnull
      exact absurd rfl hnull
    · simp only [Option.some_inj, forall_eq']
      exact readString_within_iff hmem 254 (le64_lt _ _) (Nat.mod_mod _ _)

theorem staysInside_iff (hmagic : magicBytes <+: b.file) (kernelEnd : ℕ) (mem : Buf) :
    (b.StaysInside kernelEnd mem ↔ b.Contained
      (MemM.Within (b.Allowed kernelEnd) (loadSegments b.elfBuffer b.phdr) (b.stored mem))) ∧
    (loadImage b.elfBuffer).value (b.stored mem) ≠ .rejected := by
  have hmem := b.inBuffer_stored mem
  have hvalue := hmem.magic hmagic
  have hwithin : MemM.Within (b.Allowed kernelEnd) (readLe 4 b.elfBuffer) (b.stored mem) :=
    (within_field_iff (by decide : 0 < 2 ^ 64) (by decide) (by decide) rfl).2
      (length_of_magic hmagic)
  have hphoff : MemM.Within (b.Allowed kernelEnd) (ePhoff b.elfBuffer) (b.stored mem)
      ↔ 32 + 8 ≤ b.file.length :=
    within_field_iff (by decide : 32 < 2 ^ 64) (by decide) le_rfl rfl
  have hafter : (ePhoff b.elfBuffer).after (b.stored mem) = b.stored mem := after_readLe _ _ _
  constructor
  · rw [StaysInside, contained_iff, loadImage, within_bind, hvalue, after_readLe,
      if_neg (not_not.2 rfl), within_bind, hafter, hphoff, iff_true_intro hwithin, true_and]
    by_cases hhead : 58 ≤ b.file.length
    · obtain ⟨hiff, hinterp⟩ := findInterp_spec hhead hmem.keeps (2 ^ 16) 0 b.phnum_lt.le
        (Or.inl rfl)
      rw [hmem.ePhoff hhead, within_bind, after_findInterp, ← phdr, hiff]
      simp only [hhead, show 32 + 8 ≤ b.file.length by omega, true_and]
      refine and_congr_right fun hin => ?_
      rw [hinterp hin, interpFrom_zero]
      exact loadRest_within_iff hhead hmem
    · refine ⟨fun h => ?_, fun h => absurd h.1 hhead⟩
      have hnum := (within_bind.1 h.2).1
      rw [show 2 ^ 16 = 65535 + 1 from rfl, findInterp] at hnum
      exact absurd (within_ePhnum.1 (within_bind.1 hnum).1) hhead
  · rw [loadImage, value_bind, hvalue, if_neg (not_not.2 rfl), value_bind, value_bind, loadRest]
    split_ifs
    · rw [value_bind]
      exact Image.noConfusion
    · rw [value_bind, value_bind]
      exact Image.noConfusion

/-- A file that starts with the ELF magic is never rejected. The loader stays inside just when the
numbers in the file make it, those of the program headers as they stand in memory when it comes to
them. Unless a segment is copied over the headers these are the numbers in the file. -/
theorem elf_load_inside_iff (b : Buffered) (hmagic : magicBytes <+: b.file) (kernelEnd : ℕ)
    (mem : Buf) :
    (b.StaysInside kernelEnd mem
      ↔ b.Contained (b.SegmentsStay kernelEnd (b.stored mem))) ∧
    (b.Apart → (b.StaysInside kernelEnd mem ↔ b.Contained (b.SegmentsInside kernelEnd))) ∧
    (loadImage b.elfBuffer).value (b.stored mem) ≠ .rejected := by
  obtain ⟨hiff, hnot⟩ := staysInside_iff hmagic kernelEnd mem
  refine ⟨hiff.trans (Contained.congr fun hhead => loadSegments_within_iff hhead),
    fun hapart => hiff.trans (Contained.congr fun hhead => ?_), hnot⟩
  rw [loadSegments_within_iff hhead]
  exact segmentsStay_iff hhead hapart (b.inBuffer_stored mem).keeps

end Image

end Buffered

section Sample

/-- An ELF file of one program header: a segment of one byte of the file and one zero byte, for
address `page * 2 ^ 16`. -/
def oneSegment (page : UInt8) : List UInt8 := (List.range 120).map fun i =>
  (List.lookup i [(0, 0x7F), (1, 0x45), (2, 0x4C), (3, 0x46), (32, 64), (56, 1), (64, 1),
    (64 + 18, page), (64 + 32, 1), (64 + 40, 2)]).getD 0

/-- It is in a buffer at 8 MiB. -/
def oneSegmentAt (page : UInt8) : Buffered :=
  ⟨oneSegment page, 0x800000, by simp [oneSegment, maxFileSize], by simp [oneSegment]⟩

theorem elf_load_inside_iff_oneSegment :
    (oneSegmentAt 0x40).StaysInside 0x200000 fun _ => 0 := by
  have hcount : (oneSegmentAt 0x40).phnum = 1 := by decide +kernel
  have hfilesz : (oneSegmentAt 0x40).fileszOf 0 = 1 := by decide +kernel
  have hmemsz : (oneSegmentAt 0x40).memszOf 0 = 2 := by decide +kernel
  have hvaddr : (oneSegmentAt 0x40).vaddrOf 0 = 0x400000 := by decide +kernel
  have hnone : (oneSegmentAt 0x40).interpIndex = none := by decide +kernel
  have hlength : (oneSegmentAt 0x40).file.length = 120 := by decide +kernel
  have hindex : (oneSegmentAt 0x40).phdrIndex 0 = 64 := by decide +kernel
  have hoffset : (oneSegmentAt 0x40).offsetOf 0 = 0 := by decide +kernel
  have hapart : (oneSegmentAt 0x40).Apart := by
    intro i hi _ j hj x _ _
    obtain rfl : i = 0 := by omega
    rw [hfilesz, hmemsz] at hj
    rw [hvaddr, show (oneSegmentAt 0x40).elfBuffer = 0x800000 from rfl]
    omega
  refine ((Buffered.elf_load_inside_iff _ (by decide +kernel) 0x200000 fun _ => 0).2.1 hapart).2
    ⟨by omega, fun _ i hi => ?_, fun i hi => ?_, fun _ i hi => ?_, fun _ i hi => ?_⟩
  · obtain rfl : i = 0 := by omega
    omega
  · rw [hnone] at hi
    cases hi
  · rw [hnone] at hi
    cases hi
  · obtain rfl : i = 0 := by omega
    refine ⟨by omega, fun _ => ⟨by omega, fun _ => by omega, fun j hj => ?_⟩⟩
    rw [hfilesz, hmemsz] at hj
    rw [hvaddr, Buffered.Free]
    omega

def magicOnly : Buffered := ⟨magicBytes, 0x800000, by decide, by decide⟩

/-- A file that is only the magic has its headers read behind it; a segment for address 1 MiB is
copied over the kernel. -/
theorem elf_load_leaves :
    .read (0x800000 + 32) ∈ (loadImage 0x800000).log (magicOnly.stored fun _ => 0) ∧
      ¬ magicOnly.StaysInside 0x200000 (fun _ => 0) ∧
      .write 0x100000 ∈ (loadImage 0x800000).log ((oneSegmentAt 0x10).stored fun _ => 0) ∧
      ¬ (oneSegmentAt 0x10).StaysInside 0x200000 (fun _ => 0) := by
  have hread : .read (0x800000 + 32) ∈ (loadImage 0x800000).log
      (magicOnly.stored fun _ => 0) := by
    decide +kernel
  have hwrite : .write 0x100000 ∈ (loadImage 0x800000).log
      ((oneSegmentAt 0x10).stored fun _ => 0) := by
    decide +kernel
  refine ⟨hread, fun h => ?_, hwrite, fun h => ?_⟩
  · exact absurd (h _ hread).2 (by decide)
  · exact h _ hwrite (by decide)

end Sample

end Elf

end PeanutKernel
