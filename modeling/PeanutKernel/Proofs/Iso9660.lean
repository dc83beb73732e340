import PeanutKernel.Iso9660
import PeanutKernel.Proofs.Block

/-!
# When a lookup on an ISO 9660 disc ends in bounds

`iso_find_in_dir` goes from record to record by the lengths on the disc, at positions kept in 32
bits, and takes a record's word for the length of its name. A directory is walked to an end if no
record or padding of it ends at `2 ^ 32`, and the reads stay in the sector if no name on the way
goes on behind it (`settles_scanDir`). A lookup does so in the directory it starts from and in every
one it descends to.
-/

namespace PeanutKernel

namespace Iso

open Query StateTransition

section Names

/-- The length of a name without the blanks at its end. -/
def blankless (name : Buf) : ℕ → ℕ
  | 0 => 0
  | n + 1 => if name n = 32 then blankless name n else n + 1

def versionless (name : Buf) (n : ℕ) : ℕ :=
  if 2 < n ∧ name (n - 2) = 59 ∧ name (n - 1) = 49 then n - 2 else n

def dotless (name : Buf) (n : ℕ) : ℕ := if 0 < n ∧ name (n - 1) = 46 then n - 1 else n

/-- What stands before the blanks, the version and the dot at the end of a name. -/
def fileName (name : Buf) (n : ℕ) : List UInt8 :=
  bytesOf name (dotless name (versionless name (blankless name n)))

/-- The component is the name of the file, without regard to case. -/
def IsNamed (component : List UInt8) (name : Buf) (n : ℕ) : Prop :=
  component.map isoUpper = (fileName name n).map isoUpper

instance (component : List UInt8) (name : Buf) (n : ℕ) : Decidable (IsNamed component name n) :=
  inferInstanceAs (Decidable (_ = _))

theorem blankless_le (name : Buf) (n : ℕ) : blankless name n ≤ n := by
  induction n with
  | zero => exact le_rfl
  | succ n ih =>
    rw [blankless]
    split_ifs <;> omega

theorem versionless_le (name : Buf) (n : ℕ) : versionless name n ≤ n := by
  rw [versionless]
  split_ifs <;> omega

theorem dotless_le (name : Buf) (n : ℕ) : dotless name n ≤ n := by
  rw [dotless]
  split_ifs <;> omega

end Names

section Reads

/-- A byte of the buffer is in the sector. -/
def InSector : Ask → Prop
  | .cdromRead _ => True
  | .byte _ i => i < 2048

/-- What the buffer holds once the sector is loaded. -/
def loaded (disc : Disc) (lba : ℕ) : Buf := (disc lba).getD fun _ => 0

variable {disc : Disc} {lba : ℕ} {sector : Buf} {α : Type}

theorem asksOnly_readByte (i : ℕ) : AsksOnly disc.answer InSector (readByte lba i) ↔ i < 2048 := by
  simp [AsksOnly, readByte, InSector]

variable (hsector : loaded disc lba = sector)
include hsector

theorem run_readByte (i : ℕ) : (readByte lba i).run disc.answer = some (sector i) := by
  rw [← hsector, loaded]
  rcases h : disc lba <;> simp [readByte, Disc.answer, h]

theorem asksOnly_readByte_bind (i : ℕ) (g : UInt8 → IsoM α) :
    AsksOnly disc.answer InSector (readByte lba i >>= g)
      ↔ i < 2048 ∧ AsksOnly disc.answer InSector (g (sector i)) := by
  rw [asksOnly_bind (run_readByte hsector i), asksOnly_readByte]

theorem run_readByte_bind (i : ℕ) (g : UInt8 → IsoM α) :
    (readByte lba i >>= g).run disc.answer = (g (sector i)).run disc.answer := by
  rw [run_bind_some disc.answer (run_readByte hsector i)]

theorem run_isoLe32 (i : ℕ) : (isoLe32 lba i).run disc.answer = some (le32 sector i) := by
  simp only [isoLe32, run_readByte_bind hsector, run_pure, le32]

theorem asksOnly_isoLe32 (i : ℕ) :
    AsksOnly disc.answer InSector (isoLe32 lba i) ↔ i + 3 < 2048 := by
  simp only [isoLe32, asksOnly_readByte_bind hsector, asksOnly_pure, and_true]
  omega

theorem run_trimBlanks (name n : ℕ) :
    (trimBlanks lba name n).run disc.answer = some (blankless (fun i => sector (name + i)) n) := by
  induction n with
  | zero => rfl
  | succ n ih =>
    rw [trimBlanks, run_readByte_bind hsector, blankless]
    split_ifs
    · exact ih
    · rfl

/-- The first byte looked at is the last one of the name. -/
theorem asksOnly_trimBlanks (name n : ℕ) :
    AsksOnly disc.answer InSector (trimBlanks lba name n) ↔ n = 0 ∨ name + n ≤ 2048 := by
  induction n with
  | zero => simp [trimBlanks, asksOnly_pure]
  | succ n ih =>
    rw [trimBlanks, asksOnly_readByte_bind hsector]
    split_ifs
    · rw [ih, false_or]
      omega
    · rw [asksOnly_pure, and_true, false_or]
      omega

theorem run_trimVersion (name n : ℕ) :
    (trimVersion lba name n).run disc.answer
      = some (versionless (fun i => sector (name + i)) n) := by
  rw [trimVersion, versionless]
  split_ifs with hn h h
  · simp only [run_readByte_bind hsector, if_pos h.2.1, if_pos h.2.2, run_pure]
  · rw [run_readByte_bind hsector]
    split_ifs with hc
    · rw [run_readByte_bind hsector, if_neg fun hd => h ⟨hn, hc, hd⟩, run_pure]
    · rfl
  · exact absurd h.1 hn
  · rfl

theorem asksOnly_trimVersion {name n : ℕ} (h : n = 0 ∨ name + n ≤ 2048) :
    AsksOnly disc.answer InSector (trimVersion lba name n) := by
  rw [trimVersion]
  split_ifs
  · rw [asksOnly_readByte_bind hsector]
    refine ⟨by omega, ?_⟩
    split_ifs
    · rw [asksOnly_readByte_bind hsector, asksOnly_pure]
      exact ⟨by omega, trivial⟩
    · exact (asksOnly_pure n).2 trivial
  · exact (asksOnly_pure n).2 trivial

theorem run_trimDot (name n : ℕ) :
    (trimDot lba name n).run disc.answer = some (dotless (fun i => sector (name + i)) n) := by
  rw [trimDot, dotless]
  split_ifs with hn h h
  · rw [run_readByte_bind hsector, if_pos h.2, run_pure]
  · rw [run_readByte_bind hsector, if_neg fun hc => h ⟨hn, hc⟩, run_pure]
  · exact absurd h.1 hn
  · rfl

theorem asksOnly_trimDot {name n : ℕ} (h : n = 0 ∨ name + n ≤ 2048) :
    AsksOnly disc.answer InSector (trimDot lba name n) := by
  rw [trimDot]
  split_ifs
  · rw [asksOnly_readByte_bind hsector, asksOnly_pure]
    exact ⟨by omega, trivial⟩
  · exact (asksOnly_pure n).2 trivial

omit hsector in
theorem bytesOf_from (sector : Buf) (i n : ℕ) :
    bytesOf (fun j => sector (i + j)) (n + 1)
      = sector i :: bytesOf (fun j => sector (i + 1 + j)) n := by
  simp [bytesOf, List.range_succ_eq_map, Function.comp_def, Nat.add_assoc, Nat.add_comm 1]

theorem run_compareFrom (path : List UInt8) (i : ℕ) :
    (compareFrom lba path i).run disc.answer = some (decide (path.map isoUpper
      = (bytesOf (fun j => sector (i + j)) path.length).map isoUpper)) := by
  induction path generalizing i with
  | nil => simp [compareFrom, bytesOf]
  | cons c path ih =>
    rw [compareFrom, run_readByte_bind hsector, List.length_cons, bytesOf_from, List.map_cons,
      List.map_cons]
    split_ifs with hne
    · simp [hne]
    · simp [ih, not_not.1 hne]

theorem asksOnly_compareFrom {path : List UInt8} {i : ℕ} (h : path = [] ∨ i + path.length ≤ 2048) :
    AsksOnly disc.answer InSector (compareFrom lba path i) := by
  induction path generalizing i with
  | nil => exact (asksOnly_pure true).2 trivial
  | cons c path ih =>
    have hlen : i + (path.length + 1) ≤ 2048 := h.resolve_left (List.cons_ne_nil c path)
    rw [compareFrom, asksOnly_readByte_bind hsector]
    refine ⟨by omega, ?_⟩
    split_ifs
    · exact (asksOnly_pure false).2 trivial
    · exact ih (.inr (by omega))

theorem run_isoComponentEqual (path : List UInt8) (name n : ℕ) :
    (isoComponentEqual lba name path n).run disc.answer
      = some (decide (IsNamed path (fun i => sector (name + i)) n)) := by
  simp only [isoComponentEqual, run_bind, run_trimBlanks hsector, run_trimVersion hsector,
    run_trimDot hsector, Option.bind_some]
  split_ifs with hlen
  · rw [run_pure, eq_comm, Option.some_inj, decide_eq_false_iff_not]
    intro heq
    have := congrArg List.length heq
    simp only [List.length_map, fileName, bytesOf, List.length_range] at this
    exact hlen this
  · rw [run_compareFrom hsector, Option.some_inj, decide_eq_decide, IsNamed, fileName,
      ← not_not.1 hlen]

theorem asksOnly_isoComponentEqual (path : List UInt8) (name n : ℕ) :
    AsksOnly disc.answer InSector (isoComponentEqual lba name path n)
      ↔ n = 0 ∨ name + n ≤ 2048 := by
  rw [isoComponentEqual, asksOnly_bind (run_trimBlanks hsector name n),
    asksOnly_trimBlanks hsector]
  refine and_iff_left_of_imp fun h => ?_
  have hblank := blankless_le (fun i => sector (name + i)) n
  have hversion := versionless_le (fun i => sector (name + i))
    (blankless (fun i => sector (name + i)) n)
  have hdot := dotless_le (fun i => sector (name + i))
    (versionless (fun i => sector (name + i)) (blankless (fun i => sector (name + i)) n))
  rw [asksOnly_bind (run_trimVersion hsector name _), asksOnly_bind (run_trimDot hsector name _)]
  refine ⟨asksOnly_trimVersion hsector (by omega), asksOnly_trimDot hsector (by omega), ?_⟩
  split_ifs with hlen
  · exact (asksOnly_pure false).2 trivial
  · refine asksOnly_compareFrom hsector ?_
    rcases path with _ | ⟨c, path⟩
    · exact .inl rfl
    · rw [List.length_cons] at hlen ⊢
      exact .inr (by omega)

end Reads

section Records

variable (sector : Buf) (off : ℕ)

/-- The record at `off` has room for its fields and ends in the sector. -/
def IsRecord : Prop := 34 ≤ (sector off).toNat ∧ off + (sector off).toNat ≤ 2048

instance : Decidable (IsRecord sector off) := inferInstanceAs (Decidable (_ ∧ _))

def nameLen : ℕ := (sector (off + 32)).toNat

/-- The record is not that of the directory or its parent, and has the name. -/
def Matches (component : List UInt8) : Prop :=
  (1 < nameLen sector off ∨ sector (off + 33) ≠ 0 ∧ sector (off + 33) ≠ 1)
    ∧ IsNamed component (fun i => sector (off + 33 + i)) (nameLen sector off)

instance (component : List UInt8) : Decidable (Matches sector off component) :=
  inferInstanceAs (Decidable (_ ∧ _))

def entryAt : IsoEntry where
  lba := le32 sector (off + 2)
  size := le32 sector (off + 10)
  isDir := sector (off + 25) &&& 0x02 ≠ 0

variable {sector off} {disc : Disc} {lba : ℕ}
  (hsector : loaded disc lba = sector)
include hsector

variable (component : List UInt8)

include component

theorem run_isoNameEqual :
    (isoNameEqual component lba off (nameLen sector off)).run disc.answer
      = some (decide (Matches sector off component)) := by
  unfold isoNameEqual Matches
  split_ifs with hlen
  · simp [run_isoComponentEqual hsector, hlen]
  · rw [run_readByte_bind hsector]
    split_ifs with hfirst
    · simp [run_isoComponentEqual hsector, hlen, hfirst]
    · simp only [hlen, hfirst, or_self, false_and, decide_false, run_pure]

theorem asksOnly_isoNameEqual (hrecord : IsRecord sector off) :
    AsksOnly disc.answer InSector (isoNameEqual component lba off (nameLen sector off))
      ↔ off + 33 + nameLen sector off ≤ 2048 := by
  obtain ⟨hlen, hend⟩ := hrecord
  rw [isoNameEqual]
  split_ifs
  · rw [asksOnly_isoComponentEqual hsector]
    omega
  · rw [asksOnly_readByte_bind hsector]
    split_ifs
    · rw [asksOnly_isoComponentEqual hsector]
      omega
    · rw [asksOnly_pure, and_true]
      omega

theorem run_isoRecord :
    (isoRecord component lba off).run disc.answer
      = some (if Matches sector off component then some (entryAt sector off) else none) := by
  simp only [isoRecord, run_readByte_bind hsector, run_bind, run_isoLe32 hsector, Option.bind_some]
  rw [← nameLen, run_isoNameEqual hsector, Option.bind_some, run_pure]
  simp only [decide_eq_true_eq]
  rfl

theorem asksOnly_isoRecord (hrecord : IsRecord sector off) :
    AsksOnly disc.answer InSector (isoRecord component lba off)
      ↔ off + 33 + nameLen sector off ≤ 2048 := by
  have hend : off + 34 ≤ 2048 := (Nat.add_le_add_left hrecord.1 off).trans hrecord.2
  rw [isoRecord, asksOnly_readByte_bind hsector, asksOnly_bind (run_isoLe32 hsector _),
    asksOnly_bind (run_isoLe32 hsector _), asksOnly_readByte_bind hsector, ← nameLen,
    asksOnly_bind (run_isoNameEqual hsector component), asksOnly_isoNameEqual hsector _ hrecord,
    asksOnly_isoLe32 hsector, asksOnly_isoLe32 hsector, asksOnly_pure, and_true]
  omega

end Records

section Walk

variable (disc : Disc) (component : List UInt8) (dirLba dirSize : ℕ)

/-- The sector of the directory a position is in. -/
def sectorOf (pos : ℕ) : Option Buf := disc ((dirLba + pos / 2048) % 2 ^ 32)

/-- What stands at a position of the directory: the end of the search, or something to pass by,
with the position after it. -/
def scanAt (pos : ℕ) : ℕ ⊕ Option IsoEntry :=
  if pos < dirSize then
    match sectorOf disc dirLba pos with
    | none => .inr none
    | some sector =>
      let off := pos % 2048
      if sector off = 0 then .inl ((pos / 2048 + 1) * 2048)
      else if IsRecord sector off then
        if Matches sector off component then .inr (some (entryAt sector off))
        else .inl (pos + (sector off).toNat)
      else .inr none
  else .inr none

def nextRecord (pos : ℕ) : Option ℕ := (scanAt disc component dirLba dirSize pos).getLeft?

/-- The name of the record at a position, if there is one, does not go on behind the sector. -/
def NameFits (pos : ℕ) : Prop :=
  pos < dirSize → ∀ sector, sectorOf disc dirLba pos = some sector → IsRecord sector (pos % 2048) →
    pos % 2048 + 33 + nameLen sector (pos % 2048) ≤ 2048

/-- The records of a directory up to the one looked for: none of them, and no padding, ends at
`2 ^ 32`, and their names end in their sectors. -/
structure DirSound : Prop where
  ends : ¬ Reaches (nextRecord disc component dirLba dirSize) 0 (2 ^ 32)
  fits : ∀ pos, Reaches (nextRecord disc component dirLba dirSize) 0 pos →
    NameFits disc dirLba dirSize pos

variable {disc component dirLba dirSize} {pos : ℕ}

theorem nextRecord_eq_some {next : ℕ} :
    nextRecord disc component dirLba dirSize pos = some next
      ↔ scanAt disc component dirLba dirSize pos = .inl next := by
  rw [nextRecord, Sum.getLeft?_eq_some_iff]

theorem nextRecord_eq_none :
    nextRecord disc component dirLba dirSize pos = none
      ↔ ∃ a, scanAt disc component dirLba dirSize pos = .inr a := by
  rw [nextRecord]
  rcases scanAt disc component dirLba dirSize pos with next | a <;> simp

theorem scanAt_of_sector {sector : Buf} (hpos : pos < dirSize)
    (hsector : sectorOf disc dirLba pos = some sector) :
    scanAt disc component dirLba dirSize pos
      = if sector (pos % 2048) = 0 then .inl ((pos / 2048 + 1) * 2048)
        else if IsRecord sector (pos % 2048) then
          if Matches sector (pos % 2048) component then .inr (some (entryAt sector (pos % 2048)))
          else .inl (pos + (sector (pos % 2048)).toNat)
        else .inr none := by
  rw [scanAt, if_pos hpos, hsector]

theorem scanAt_of_not (h : ¬ (pos < dirSize ∧ (sectorOf disc dirLba pos).isSome)) :
    scanAt disc component dirLba dirSize pos = .inr none := by
  rw [scanAt]
  split_ifs with hpos
  · rw [Option.not_isSome_iff_eq_none.1 fun hsome => h ⟨hpos, hsome⟩]
  · rfl

theorem nextRecord_up (hsize : dirSize < 2 ^ 32) (pos next : ℕ)
    (h : nextRecord disc component dirLba dirSize pos = some next) :
    pos < next ∧ next ≤ 2 ^ 32 := by
  rw [nextRecord_eq_some] at h
  by_cases hpos : pos < dirSize
  · rcases hsector : sectorOf disc dirLba pos with _ | sector
    · rw [scanAt, if_pos hpos, hsector] at h
      cases h
    · rw [scanAt_of_sector hpos hsector] at h
      split_ifs at h with hzero hrecord hmatch
      · rw [Sum.inl.injEq] at h
        omega
      · obtain ⟨hlen, hend⟩ := hrecord
        rw [Sum.inl.injEq] at h
        omega
  · rw [scanAt, if_neg hpos] at h
    cases h

end Walk

section Rounds

variable {disc : Disc} {component : List UInt8} {dirLba dirSize : ℕ}

theorem loaded_of_sectorOf {sector : Buf} {pos : ℕ}
    (h : sectorOf disc dirLba pos = some sector) :
    loaded disc ((dirLba + pos / 2048) % 2 ^ 32) = sector := by
  unfold sectorOf at h
  rw [loaded, h, Option.getD_some]

theorem run_enter (pos : ℕ) :
    (scanRound component dirLba dirSize (.enter pos)).run disc.answer
      = some (if pos < dirSize ∧ (sectorOf disc dirLba pos).isSome then
          .inl (.record (pos / 2048) (pos % 2048) pos) else .inr none) := by
  have hread : (cdromRead ((dirLba + pos / 2048) % 2 ^ 32)).run disc.answer
      = some (sectorOf disc dirLba pos).isSome := by
    simp [cdromRead, Disc.answer, sectorOf]
  rw [scanRound]
  by_cases hpos : pos < dirSize
  · rw [if_pos hpos, run_bind, hread, Option.bind_some]
    by_cases hsector : (sectorOf disc dirLba pos).isSome
    · rw [if_pos hsector, if_pos ⟨hpos, hsector⟩, run_pure]
    · rw [if_neg hsector, if_neg fun h => hsector h.2, run_pure]
  · rw [if_neg hpos, if_neg fun h => hpos h.1, run_pure]

theorem asksOnly_enter (pos : ℕ) :
    AsksOnly disc.answer InSector (scanRound component dirLba dirSize (.enter pos)) := by
  rw [scanRound]
  split_ifs with hpos
  · rw [asksOnly_bind (by rfl)]
    refine ⟨by simp [AsksOnly, cdromRead, InSector], ?_⟩
    split_ifs <;> exact (asksOnly_pure _).2 trivial
  · exact (asksOnly_pure _).2 trivial

theorem scanRound_leave {sectorIndex sectorOff pos : ℕ}
    (h : ¬ (sectorOff < 2048 ∧ pos < dirSize)) :
    scanRound component dirLba dirSize (.record sectorIndex sectorOff pos)
      = pure (.inl (.enter pos)) := by
  rw [scanRound, if_neg h]

theorem not_isRecord_iff {sector : Buf} {off : ℕ} :
    (2048 < off + (sector off).toNat ∨ sector off < 34) ↔ ¬ IsRecord sector off := by
  rw [IsRecord, UInt8.lt_iff_toNat_lt, show (34 : UInt8).toNat = 34 from rfl]
  omega

section Record

variable {sector : Buf} {sectorIndex sectorOff pos : ℕ} (hin : sectorOff < 2048 ∧ pos < dirSize)
  (hsector : loaded disc ((dirLba + sectorIndex) % 2 ^ 32) = sector)
include hin hsector

theorem run_record :
    (scanRound component dirLba dirSize (.record sectorIndex sectorOff pos)).run disc.answer
      = some (if sector sectorOff = 0 then .inl (.enter ((sectorIndex + 1) * 2048 % 2 ^ 32))
        else if IsRecord sector sectorOff then
          if Matches sector sectorOff component then .inr (some (entryAt sector sectorOff))
          else .inl (.record sectorIndex (sectorOff + (sector sectorOff).toNat)
            ((pos + (sector sectorOff).toNat) % 2 ^ 32))
        else .inr none) := by
  rw [scanRound, if_pos hin, run_readByte_bind hsector]
  by_cases hzero : sector sectorOff = 0
  · rw [if_pos hzero, if_pos hzero, run_pure]
  rw [if_neg hzero, if_neg hzero]
  by_cases hrecord : IsRecord sector sectorOff
  · rw [if_neg (mt not_isRecord_iff.1 (not_not.2 hrecord)), if_pos hrecord, run_bind,
      run_isoRecord hsector, Option.bind_some]
    by_cases hmatch : Matches sector sectorOff component
    · rw [if_pos hmatch, if_pos hmatch, run_pure]
    · rw [if_neg hmatch, if_neg hmatch, run_pure]
  · rw [if_pos (not_isRecord_iff.2 hrecord), if_neg hrecord, run_pure]

theorem asksOnly_record :
    AsksOnly disc.answer InSector
        (scanRound component dirLba dirSize (.record sectorIndex sectorOff pos))
      ↔ (IsRecord sector sectorOff → sectorOff + 33 + nameLen sector sectorOff ≤ 2048) := by
  rw [scanRound, if_pos hin, asksOnly_readByte_bind hsector]
  by_cases hrecord : IsRecord sector sectorOff
  · have hzero : sector sectorOff ≠ 0 := by
      intro hzero
      have hlen := hrecord.1
      rw [hzero] at hlen
      exact absurd hlen (by decide)
    rw [if_neg hzero, if_neg (mt not_isRecord_iff.1 (not_not.2 hrecord)),
      asksOnly_bind (run_isoRecord hsector _), asksOnly_isoRecord hsector _ hrecord]
    refine ⟨fun h _ => h.2.1, fun h => ⟨hin.1, h hrecord, ?_⟩⟩
    split <;> exact (asksOnly_pure _).2 trivial
  · refine ⟨fun _ h => absurd h hrecord, fun _ => ⟨hin.1, ?_⟩⟩
    rw [if_pos (not_isRecord_iff.2 hrecord)]
    split_ifs <;> exact (asksOnly_pure _).2 trivial

end Record

theorem isSome_run_scanRound (s : Scan) :
    ((scanRound component dirLba dirSize s).run disc.answer).isSome := by
  rcases s with pos | ⟨sectorIndex, sectorOff, pos⟩
  · rw [run_enter]
    rfl
  · by_cases hin : sectorOff < 2048 ∧ pos < dirSize
    · rw [run_record hin rfl]
      rfl
    · rw [scanRound_leave hin]
      rfl

end Rounds

section Simulation

variable {disc : Disc} {component : List UInt8} {dirLba dirSize : ℕ}

/-- The loops are at a position: at the outer test, or at the inner one with the sector loaded that
the position is in, or about to leave the inner loop. -/
def At (disc : Disc) (dirLba dirSize pos : ℕ) : Scan → Prop
  | .enter p => p = pos
  | .record sectorIndex sectorOff p =>
    p = pos ∧ (sectorOff < 2048 ∧ pos < dirSize →
      sectorIndex = pos / 2048 ∧ sectorOff = pos % 2048 ∧ (sectorOf disc dirLba pos).isSome)

variable (hsize : dirSize < 2 ^ 32)
include hsize

variable {pos : ℕ}

theorem record_at (hpos : pos < dirSize) (hsome : (sectorOf disc dirLba pos).isSome)
    {r : Scan ⊕ Option IsoEntry}
    (hrun : (scanRound component dirLba dirSize
      (.record (pos / 2048) (pos % 2048) pos)).run disc.answer = some r) :
    (∃ next s', scanAt disc component dirLba dirSize pos = .inl next ∧ r = .inl s'
        ∧ At disc dirLba dirSize (next % 2 ^ 32) s')
      ∨ ∃ a, scanAt disc component dirLba dirSize pos = .inr a ∧ r = .inr a := by
  obtain ⟨sector, hsector⟩ := Option.isSome_iff_exists.1 hsome
  have hoff : pos % 2048 < 2048 := Nat.mod_lt _ (by decide)
  rw [run_record ⟨hoff, hpos⟩ (loaded_of_sectorOf hsector), Option.some_inj] at hrun
  rw [scanAt_of_sector hpos hsector]
  split_ifs at hrun ⊢ with hzero hrecord hmatch
  · exact .inl ⟨_, _, rfl, hrun.symm, rfl⟩
  · exact .inr ⟨_, rfl, hrun.symm⟩
  · refine .inl ⟨_, _, rfl, hrun.symm, rfl, fun hnext => ?_⟩
    -- inside the sector the position does not wrap
    have hwrap : (pos + (sector (pos % 2048)).toNat) % 2 ^ 32 = pos + (sector (pos % 2048)).toNat :=
      Nat.mod_eq_of_lt (by omega)
    have hdiv : (pos + (sector (pos % 2048)).toNat) / 2048 = pos / 2048 := by omega
    rw [hwrap, sectorOf, hdiv]
    exact ⟨rfl, by omega, hsome⟩
  · exact .inr ⟨_, rfl, hrun.symm⟩

/-- A round at a position does not leave it, goes to the next or ends as the walk does there. -/
theorem scanRound_at {s : Scan} (hat : At disc dirLba dirSize pos s) {r : Scan ⊕ Option IsoEntry}
    (hrun : (scanRound component dirLba dirSize s).run disc.answer = some r) :
    (∃ s', r = .inl s' ∧ At disc dirLba dirSize pos s')
      ∨ (∃ next s', scanAt disc component dirLba dirSize pos = .inl next ∧ r = .inl s'
          ∧ At disc dirLba dirSize (next % 2 ^ 32) s')
      ∨ ∃ a, scanAt disc component dirLba dirSize pos = .inr a ∧ r = .inr a := by
  rcases s with p | ⟨sectorIndex, sectorOff, p⟩
  · obtain rfl : p = pos := hat
    rw [run_enter, Option.some_inj] at hrun
    split_ifs at hrun with h
    · exact .inl ⟨_, hrun.symm, rfl, fun _ => ⟨rfl, rfl, h.2⟩⟩
    · exact .inr (.inr ⟨none, scanAt_of_not h, hrun.symm⟩)
  · obtain ⟨rfl, hin⟩ := hat
    by_cases hrange : sectorOff < 2048 ∧ p < dirSize
    · obtain ⟨rfl, rfl, hsome⟩ := hin hrange
      exact .inr (record_at hsize hrange.2 hsome hrun)
    · rw [scanRound_leave hrange, run_pure, Option.some_inj] at hrun
      exact .inl ⟨_, hrun.symm, rfl⟩

theorem dom_wrapped_of_dom {s : Scan}
    (h : (eval (goesOn disc.answer (scanRound component dirLba dirSize)) s).Dom) :
    ∀ pos, At disc dirLba dirSize pos s →
      (eval (wrapped (nextRecord disc component dirLba dirSize) (2 ^ 32)) pos).Dom := by
  refine dom_induction (P := fun s => ∀ pos, At disc dirLba dirSize pos s →
    (eval (wrapped (nextRecord disc component dirLba dirSize) (2 ^ 32)) pos).Dom) h ?_ ?_
  · intro s hstop pos hat
    obtain ⟨a, hrun⟩ := (goesOn_eq_none (isSome_run_scanRound s)).1 hstop
    rcases scanRound_at hsize hat hrun with ⟨_, hr, _⟩ | ⟨_, _, _, hr, _⟩ | ⟨b, hscan, _⟩
    · cases hr
    · cases hr
    · exact dom_of_eq_none (by rw [wrapped, nextRecord_eq_none.2 ⟨b, hscan⟩, Option.map_none])
  · intro s s' hstep ih pos hat
    rcases scanRound_at hsize hat (goesOn_eq_some.1 hstep) with
      ⟨_, hr, hat'⟩ | ⟨next, _, hscan, hr, hat'⟩ | ⟨_, _, hr⟩
    · obtain rfl := Sum.inl_injective hr
      exact ih pos hat'
    · obtain rfl := Sum.inl_injective hr
      have hnext : wrapped (nextRecord disc component dirLba dirSize) (2 ^ 32) pos
          = some (next % 2 ^ 32) := by
        rw [wrapped, nextRecord_eq_some.2 hscan, Option.map_some]
      exact (dom_iff_of_eq_some hnext).2 (ih _ hat')
    · cases hr

variable {a : Option IsoEntry}

omit hsize in
theorem settles_enter_iff_record (hpos : pos < dirSize)
    (hsome : (sectorOf disc dirLba pos).isSome) :
    Settles disc.answer InSector (rounds (scanRound component dirLba dirSize) · (.enter pos)) a
      ↔ Settles disc.answer InSector (rounds (scanRound component dirLba dirSize) ·
          (.record (pos / 2048) (pos % 2048) pos)) a := by
  have hrun : (scanRound component dirLba dirSize (.enter pos)).run disc.answer
      = some (.inl (.record (pos / 2048) (pos % 2048) pos)) := by
    rw [run_enter, if_pos ⟨hpos, hsome⟩]
  rw [settles_rounds_inl hrun]
  exact and_iff_right (asksOnly_enter pos)

omit hsize in
theorem settles_at {s : Scan} (hat : At disc dirLba dirSize pos s) :
    Settles disc.answer InSector (rounds (scanRound component dirLba dirSize) · s) a
      ↔ Settles disc.answer InSector (rounds (scanRound component dirLba dirSize) ·
          (.enter pos)) a := by
  rcases s with p | ⟨sectorIndex, sectorOff, p⟩
  · obtain rfl : p = pos := hat
    rfl
  · obtain ⟨rfl, hin⟩ := hat
    by_cases hrange : sectorOff < 2048 ∧ p < dirSize
    · obtain ⟨rfl, rfl, hsome⟩ := hin hrange
      exact (settles_enter_iff_record hrange.2 hsome).symm
    · have hrun : (scanRound component dirLba dirSize (.record sectorIndex sectorOff p)).run
          disc.answer = some (.inl (.enter p)) := by
        rw [scanRound_leave hrange, run_pure]
      rw [settles_rounds_inl hrun, scanRound_leave hrange, asksOnly_pure, true_and]

omit hsize in
theorem asksOnly_record_at (hpos : pos < dirSize) (hsome : (sectorOf disc dirLba pos).isSome) :
    AsksOnly disc.answer InSector
        (scanRound component dirLba dirSize (.record (pos / 2048) (pos % 2048) pos))
      ↔ NameFits disc dirLba dirSize pos := by
  obtain ⟨sector, hsector⟩ := Option.isSome_iff_exists.1 hsome
  have hoff : pos % 2048 < 2048 := Nat.mod_lt _ (by decide)
  rw [asksOnly_record ⟨hoff, hpos⟩ (loaded_of_sectorOf hsector)]
  simp [NameFits, hpos, hsector]

theorem settles_enter :
    Settles disc.answer InSector (rounds (scanRound component dirLba dirSize) · (.enter pos)) a
      ↔ NameFits disc dirLba dirSize pos
        ∧ ((∃ next, scanAt disc component dirLba dirSize pos = .inl next
            ∧ Settles disc.answer InSector (rounds (scanRound component dirLba dirSize) ·
              (.enter (next % 2 ^ 32))) a)
          ∨ scanAt disc component dirLba dirSize pos = .inr a) := by
  by_cases h : pos < dirSize ∧ (sectorOf disc dirLba pos).isSome
  · obtain ⟨hpos, hsome⟩ := h
    have hret : ((scanRound component dirLba dirSize
        (.record (pos / 2048) (pos % 2048) pos)).run disc.answer).isSome := isSome_run_scanRound _
    obtain ⟨r, hrun⟩ := Option.isSome_iff_exists.1 hret
    have hfits : AsksOnly disc.answer InSector (scanRound component dirLba dirSize
        (.record (pos / 2048) (pos % 2048) pos)) ↔ NameFits disc dirLba dirSize pos :=
      asksOnly_record_at hpos hsome
    rw [settles_enter_iff_record hpos hsome]
    rcases record_at hsize hpos hsome hrun with ⟨next, s', hscan, rfl, hat⟩ | ⟨b, hscan, rfl⟩
    · rw [settles_rounds_inl hrun, settles_at hat, hscan, hfits]
      simp
    · rw [settles_rounds_inr hrun, hscan, hfits]
      simp [eq_comm]
  · have hrun : (scanRound component dirLba dirSize (.enter pos)).run disc.answer
        = some (.inr none) := by
      rw [run_enter, if_neg h]
    have hfits : NameFits disc dirLba dirSize pos :=
      fun hpos sector hsector => absurd ⟨hpos, hsector ▸ rfl⟩ h
    rw [settles_rounds_inr hrun, scanAt_of_not h]
    simp [asksOnly_enter, hfits, eq_comm]

theorem settles_reaches (h : Settles disc.answer InSector (scanDir · component dirLba dirSize) a)
    (hreach : Reaches (wrapped (nextRecord disc component dirLba dirSize) (2 ^ 32)) 0 pos) :
    Settles disc.answer InSector
      (rounds (scanRound component dirLba dirSize) · (.enter pos)) a := by
  induction hreach with
  | refl => exact h
  | tail _ hstep ih =>
    obtain ⟨next, hnext, rfl⟩ := Option.map_eq_some_iff.1 hstep
    rw [nextRecord_eq_some] at hnext
    rcases ((settles_enter hsize).1 ih).2 with ⟨next', hscan, hsettles⟩ | hscan
    · rw [hnext] at hscan
      obtain rfl := Sum.inl_injective hscan
      exact hsettles
    · rw [hnext] at hscan
      cases hscan

theorem exists_stop : ∃ a pos, Reaches (nextRecord disc component dirLba dirSize) 0 pos
    ∧ scanAt disc component dirLba dirSize pos = .inr a := by
  obtain ⟨pos, hpos, hstop⟩ := dom_eval_iff.1 (dom_of_goes_up (nextRecord_up hsize) 0)
  obtain ⟨a, hscan⟩ := nextRecord_eq_none.1 hstop
  exact ⟨a, pos, hpos, hscan⟩

/-- The loops end in bounds if the directory is sound, and with what stands where the walk over it
stops. -/
theorem settles_scanDir :
    Settles disc.answer InSector (scanDir · component dirLba dirSize) a
      ↔ DirSound disc component dirLba dirSize
        ∧ ∃ pos, Reaches (nextRecord disc component dirLba dirSize) 0 pos
          ∧ scanAt disc component dirLba dirSize pos = .inr a := by
  have hup : ∀ pos next, nextRecord disc component dirLba dirSize pos = some next →
      pos < next ∧ next ≤ 2 ^ 32 := nextRecord_up hsize
  constructor
  · intro h
    have hdom := (finishes_rounds isSome_run_scanRound).1 ⟨a, h.yields⟩
    have hends := (dom_wrapped_iff hup (by decide)).1 (dom_wrapped_of_dom hsize hdom 0 rfl)
    have hsettles : ∀ pos, Reaches (nextRecord disc component dirLba dirSize) 0 pos →
        Settles disc.answer InSector
          (rounds (scanRound component dirLba dirSize) · (.enter pos)) a := fun pos hpos =>
      settles_reaches hsize h
        (reaches_wrapped hup hpos (lt_of_reaches hup (by decide) hends hpos))
    refine ⟨⟨hends, fun pos hpos => ((settles_enter hsize).1 (hsettles pos hpos)).1⟩, ?_⟩
    obtain ⟨b, pos, hpos, hscan⟩ := exists_stop hsize
    rcases ((settles_enter hsize).1 (hsettles pos hpos)).2 with ⟨next, hscan', _⟩ | hscan'
    · rw [hscan] at hscan'
      cases hscan'
    · exact ⟨pos, hpos, hscan'⟩
  · rintro ⟨hsound, stop, hstop, hscan⟩
    -- from the stop back to the start, at positions the walk comes to
    have hback : ∀ pos, Reaches (nextRecord disc component dirLba dirSize) pos stop →
        Reaches (nextRecord disc component dirLba dirSize) 0 pos →
        Settles disc.answer InSector
          (rounds (scanRound component dirLba dirSize) · (.enter pos)) a := by
      intro pos hreach
      induction hreach using Relation.ReflTransGen.head_induction_on with
      | refl => exact fun hpos => (settles_enter hsize).2 ⟨hsound.fits stop hpos, .inr hscan⟩
      | @head pos next hstep _ ih =>
        intro hpos
        have hnext := hpos.tail hstep
        have hlt := lt_of_reaches hup (by decide) hsound.ends hnext
        refine (settles_enter hsize).2 ⟨hsound.fits pos hpos, .inl ⟨next, ?_, ?_⟩⟩
        · exact nextRecord_eq_some.1 hstep
        · rw [Nat.mod_eq_of_lt hlt]
          exact ih hnext
    exact hback 0 hstop .refl

theorem not_finishes_scanDir
    (h : Reaches (nextRecord disc component dirLba dirSize) 0 (2 ^ 32)) :
    ¬ Finishes disc.answer (scanDir · component dirLba dirSize) := by
  intro hfin
  have hdom := (finishes_rounds isSome_run_scanRound).1 hfin
  have hwrapped := dom_wrapped_of_dom hsize hdom 0 rfl
  exact (dom_wrapped_iff (nextRecord_up hsize) (by decide)).1 hwrapped h

theorem exists_settles_scanDir :
    (∃ a, Settles disc.answer InSector (scanDir · component dirLba dirSize) a)
      ↔ DirSound disc component dirLba dirSize := by
  simp only [settles_scanDir hsize, exists_and_left, and_iff_left_iff_imp]
  intro _
  exact exists_stop hsize

end Simulation

section Levels

/-- A directory in which a component of the path is looked for. -/
structure Level where
  path : List UInt8
  lba : ℕ
  size : ℕ

variable (disc : Disc)

/-- The entry the records of a directory hold for a component. -/
def Finds (component : List UInt8) (dirLba dirSize : ℕ) (entry : IsoEntry) : Prop :=
  ∃ pos, Reaches (nextRecord disc component dirLba dirSize) 0 pos
    ∧ scanAt disc component dirLba dirSize pos = .inr (some entry)

/-- The next level is the directory the records of the first hold for its component. -/
def Descends (l l' : Level) : Prop :=
  (isoNextComponent l.path).1 ≠ [] ∧ l'.path = pathRest l.path ∧ l'.path ≠ []
    ∧ Finds disc (isoNextComponent l.path).1 l.lba l.size ⟨l'.lba, l'.size, true⟩

/-- Every directory the lookup comes to is sound, as far as it is searched. -/
def LookupSound (l : Level) : Prop :=
  ∀ l', Relation.ReflTransGen (Descends disc) l l' → (isoNextComponent l'.path).1 ≠ [] →
    DirSound disc (isoNextComponent l'.path).1 l'.lba l'.size

variable {disc}

theorem lookupSound_iff (l : Level) :
    LookupSound disc l
      ↔ ((isoNextComponent l.path).1 ≠ [] → DirSound disc (isoNextComponent l.path).1 l.lba l.size)
        ∧ ∀ l', Descends disc l l' → LookupSound disc l' := by
  constructor
  · intro h
    exact ⟨h l .refl, fun l' hl l'' hl' => h l'' (.head hl hl')⟩
  · rintro ⟨hself, hnext⟩ l' hl
    rcases Relation.ReflTransGen.cases_head hl with rfl | ⟨l'', hstep, hrest⟩
    · exact hself
    · exact hnext l'' hstep l' hrest

/-- What `iso_find_in_dir` does with the entry of a component. -/
def follow (fuel : ℕ) (path : List UInt8) (entry : IsoEntry) : IsoM (Option IsoEntry) :=
  if pathRest path = [] then pure (some entry)
  else if entry.isDir = false then pure none
  else isoFindInDir fuel (pathRest path) entry.lba entry.size

variable {path : List UInt8}

theorem isoFindInDir_eq (hpath : (isoNextComponent path).1 ≠ []) (fuel dirLba dirSize : ℕ) :
    isoFindInDir fuel path dirLba dirSize
      = (scanDir fuel (isoNextComponent path).1 dirLba dirSize).andThen (follow fuel path) := by
  rw [isoFindInDir, dif_neg hpath]
  exact bind_eq_andThen rfl fun entry => rfl

theorem isoFindInDir_nil (hpath : (isoNextComponent path).1 = []) (fuel dirLba dirSize : ℕ) :
    isoFindInDir fuel path dirLba dirSize = pure (some ⟨dirLba, dirSize, true⟩) := by
  rw [isoFindInDir, dif_pos hpath]

theorem follow_dir {entry : IsoEntry} (hrest : pathRest path ≠ []) (hdir : entry.isDir) (fuel : ℕ) :
    follow fuel path entry = isoFindInDir fuel (pathRest path) entry.lba entry.size := by
  rw [follow, if_neg hrest, if_neg (by simp [hdir])]

theorem follow_cases (path : List UInt8) (entry : IsoEntry) :
    (∃ a, ∀ fuel, follow fuel path entry = pure a) ∨ pathRest path ≠ [] ∧ entry.isDir := by
  by_cases hrest : pathRest path = []
  · exact .inl ⟨some entry, fun fuel => by rw [follow, if_pos hrest]⟩
  · rcases hdir : entry.isDir
    · exact .inl ⟨none, fun fuel => by rw [follow, if_neg hrest, if_pos hdir]⟩
    · exact .inr ⟨hrest, rfl⟩

theorem steady_isoFindInDir (path : List UInt8) (dirLba dirSize : ℕ) :
    Steady disc.answer (isoFindInDir · path dirLba dirSize) := by
  induction hn : path.length using Nat.strong_induction_on generalizing path dirLba dirSize with
  | _ n ih =>
    by_cases hpath : (isoNextComponent path).1 = []
    · simp only [isoFindInDir_nil hpath]
      exact steady_const _
    · simp only [isoFindInDir_eq hpath]
      refine steady_andThen (steady_rounds isSome_run_scanRound) fun entry => ?_
      rcases follow_cases path entry with ⟨a, ha⟩ | ⟨hrest, hdir⟩
      · simp only [ha]
        exact steady_const _
      · simp only [follow_dir hrest hdir]
        exact ih _ (hn ▸ pathRest_length hpath) _ _ _ rfl

theorem steady_follow (path : List UInt8) (entry : IsoEntry) :
    Steady disc.answer (follow · path entry) := by
  rcases follow_cases path entry with ⟨a, ha⟩ | ⟨hrest, hdir⟩
  · simp only [ha]
    exact steady_const _
  · simp only [follow_dir hrest hdir]
    exact steady_isoFindInDir _ _ _

/-- One level of the lookup. -/
theorem exists_settles_isoFindInDir {dirLba dirSize : ℕ} (hsize : dirSize < 2 ^ 32)
    (hpath : (isoNextComponent path).1 ≠ []) :
    (∃ a, Settles disc.answer InSector (isoFindInDir · path dirLba dirSize) a)
      ↔ DirSound disc (isoNextComponent path).1 dirLba dirSize
        ∧ ∀ entry, Finds disc (isoNextComponent path).1 dirLba dirSize entry →
          entry.isDir → pathRest path ≠ [] →
          ∃ a, Settles disc.answer InSector
            (isoFindInDir · (pathRest path) entry.lba entry.size) a := by
  have hsteady : Steady disc.answer (scanDir · (isoNextComponent path).1 dirLba dirSize) :=
    steady_rounds isSome_run_scanRound
  simp only [isoFindInDir_eq hpath, settles_andThen hsteady (steady_follow path)]
  constructor
  · intro h
    have hsound : DirSound disc (isoNextComponent path).1 dirLba dirSize := by
      obtain ⟨a, ⟨hnone, _⟩ | ⟨entry, hentry, _⟩⟩ := h
      · exact ((settles_scanDir hsize).1 hnone).1
      · exact ((settles_scanDir hsize).1 hentry).1
    refine ⟨hsound, fun entry hfinds hdir hrest => ?_⟩
    have hscan := (settles_scanDir hsize).2 ⟨hsound, hfinds⟩
    obtain ⟨a, ⟨hnone, _⟩ | ⟨entry', hentry, hfollow⟩⟩ := h
    · cases hscan.unique hsteady hnone
    · obtain rfl := Option.some_inj.1 (hscan.unique hsteady hentry)
      simp only [follow_dir hrest hdir] at hfollow
      exact ⟨a, hfollow⟩
  · rintro ⟨hsound, hnext⟩
    obtain ⟨_ | entry, hscan⟩ := (exists_settles_scanDir hsize).2 hsound
    · exact ⟨none, .inl ⟨hscan, rfl⟩⟩
    · rcases follow_cases path entry with ⟨b, hb⟩ | ⟨hrest, hdir⟩
      · refine ⟨b, .inr ⟨entry, hscan, ?_⟩⟩
        simp only [hb]
        exact settles_pure.2 rfl
      · obtain ⟨b, hb⟩ := hnext entry ((settles_scanDir hsize).1 hscan).2 hdir hrest
        refine ⟨b, .inr ⟨entry, hscan, ?_⟩⟩
        simp only [follow_dir hrest hdir]
        exact hb

theorem Finds.size_lt {component : List UInt8} {dirLba dirSize : ℕ} {entry : IsoEntry}
    (h : Finds disc component dirLba dirSize entry) : entry.size < 2 ^ 32 := by
  obtain ⟨pos, _, hscan⟩ := h
  by_cases hin : pos < dirSize ∧ (sectorOf disc dirLba pos).isSome
  · obtain ⟨sector, hsector⟩ := Option.isSome_iff_exists.1 hin.2
    rw [scanAt_of_sector hin.1 hsector] at hscan
    split_ifs at hscan
    · rw [Sum.inr.injEq, Option.some_inj] at hscan
      rw [← hscan]
      exact le32_lt _ _
    · cases hscan
  · rw [scanAt_of_not hin] at hscan
    cases hscan

theorem exists_settles_iff_lookupSound (path : List UInt8) {dirLba dirSize : ℕ}
    (hsize : dirSize < 2 ^ 32) :
    (∃ a, Settles disc.answer InSector (isoFindInDir · path dirLba dirSize) a)
      ↔ LookupSound disc ⟨path, dirLba, dirSize⟩ := by
  induction hn : path.length using Nat.strong_induction_on generalizing path dirLba dirSize with
  | _ n ih =>
    rw [lookupSound_iff]
    by_cases hpath : (isoNextComponent path).1 = []
    · simp only [isoFindInDir_nil hpath]
      refine iff_of_true ⟨_, settles_pure.2 rfl⟩ ⟨fun h => absurd hpath h, fun l hl => ?_⟩
      exact absurd hpath hl.1
    · rw [exists_settles_isoFindInDir hsize hpath]
      have hlt := hn ▸ pathRest_length hpath
      refine and_congr (by simp [hpath]) ⟨fun h l hl => ?_, fun h entry hfinds hdir hrest => ?_⟩
      · obtain ⟨path', lba, size⟩ := l
        obtain ⟨_, rfl, hrest, hfinds⟩ := hl
        exact (ih _ hlt _ hfinds.size_lt rfl).1 (h _ hfinds rfl hrest)
      · obtain ⟨lba, size, isDir⟩ := entry
        obtain rfl : isDir = true := hdir
        exact (ih _ hlt _ hfinds.size_lt rfl).2 (h ⟨pathRest path, lba, size⟩
          ⟨hpath, rfl, hrest, hfinds⟩)

end Levels

/-- A lookup ends, and all it reads of the buffer is in the sector, just if the directories it comes
to are sound. -/
theorem isoFindInDir_total_iff (disc : Disc) (path : List UInt8) (dirLba dirSize : UInt32) :
    (∃ found, Settles disc.answer InSector
        (isoFindInDir · path dirLba.toNat dirSize.toNat) found)
      ↔ LookupSound disc ⟨path, dirLba.toNat, dirSize.toNat⟩ :=
  exists_settles_iff_lookupSound path dirSize.toNat_lt

theorem reaches_padding {component : List UInt8} {dirLba dirSize n : ℕ}
    (hn : n * 2048 < dirSize + 2048) :
    Reaches (nextRecord (fun _ => some fun _ => 0) component dirLba dirSize) 0 (n * 2048) := by
  induction n with
  | zero => exact .refl
  | succ n ih =>
    rw [Nat.succ_mul] at hn
    have hpos : n * 2048 < dirSize := Nat.lt_of_add_lt_add_right hn
    have hsector : sectorOf (fun _ => some fun _ => 0) dirLba (n * 2048) = some fun _ => 0 := rfl
    have hnext : nextRecord (fun _ => some fun _ => 0) component dirLba dirSize (n * 2048)
        = some ((n + 1) * 2048) := by
      rw [nextRecord_eq_some, scanAt_of_sector hpos hsector, if_pos rfl,
        Nat.mul_div_cancel n (by decide)]
    exact (ih (Nat.lt_add_right 2048 hpos)).tail hnext

/-- A sector of bytes 64 is a row of records, the last of which has a name that goes on behind the
sector. A directory of padding with a size of `2 ^ 32 - 1` is never left. -/
theorem isoFindInDir_not_total :
    (¬ ∃ found, Settles (Disc.answer fun _ => some fun _ => 64) InSector
        (isoFindInDir · (ascii "X") 20 2048) found)
      ∧ ¬ Finishes (Disc.answer fun _ => some fun _ => 0)
        (isoFindInDir · (ascii "X") 20 (2 ^ 32 - 1)) := by
  have hpath : (isoNextComponent (ascii "X")).1 ≠ [] := by decide
  constructor
  · rintro ⟨found, h⟩
    have hrun : (isoFindInDir 100 (ascii "X") 20 2048).run
        (Disc.answer fun _ => some fun _ => 64) = some none := by
      rw [isoFindInDir_eq hpath]
      decide +kernel
    have hmem : .byte 20 2080 ∈ (isoFindInDir 100 (ascii "X") 20 2048).trace
        (Disc.answer fun _ => some fun _ => 64) := by
      rw [isoFindInDir_eq hpath]
      decide +kernel
    exact (steady_isoFindInDir _ _ _).not_settles hrun hmem (by simp [InSector]) h
  · intro h
    simp only [isoFindInDir_eq hpath] at h
    rw [finishes_andThen (q := fun fuel => scanDir fuel _ _ _)
      (steady_rounds isSome_run_scanRound).fuelMono
      fun entry => (steady_follow (ascii "X") entry).fuelMono] at h
    exact not_finishes_scanDir (by decide) (reaches_padding (n := 2 ^ 21) (by decide)) h.1

end Iso

end PeanutKernel
