import PeanutKernel.Initramfs
import Mathlib.Tactic.SplitIfs

/-!
# The initramfs and the newc format

`Archive` is the newc format: headers with magic `070701`, the size of the data at offset 54 and the
size of the name at offset 94, header and name padded together, a trailer at the end. The code takes
the field at 54 for the size of the name and pads the name alone. The two paddings differ by 2
(`header_of_dataAt`), and no header starts two bytes behind another (`not_magic_two`).
-/

namespace PeanutKernel

namespace Initramfs

section Format

def digit (c : UInt8) : ℕ := (hexDigit c).getD 0

/-- The value of `n` digits from `p` on, after digits of value `v`. -/
def hexFrom (mem : Buf) : ℕ → ℕ → ℕ → ℕ
  | 0, _, v => v
  | n + 1, p, v => hexFrom mem n (p + 1) (16 * v + digit (mem p))

/-- A header field. -/
def field (mem : Buf) (p : ℕ) : ℕ := hexFrom mem 8 p 0

def align4 (n : ℕ) : ℕ := (n + 3) / 4 * 4

/-- A header at `off` and the name after it. -/
structure EntryAt (mem : Buf) (off : ℕ) (name : List UInt8) (size : ℕ) : Prop where
  magic : ∀ i (h : i < magic.length), mem (off + i) = magic[i]
  hex : ∀ i, 6 ≤ i → i < 110 → (hexDigit (mem (off + i))).isSome
  filesize : field mem (off + 54) = size
  namesize : field mem (off + 94) = name.length + 1
  spelled : ∀ i (h : i < name.length), mem (off + 110 + i) = name[i]
  terminated : mem (off + 110 + name.length) = 0
  text : ∀ c ∈ name, c ≠ 0

structure Member where
  name : List UInt8
  size : ℕ
  deriving DecidableEq, Repr

/-- Where the data of a member lies whose header is at `off`. -/
def Member.dataAt (m : Member) (off : ℕ) : ℕ := off + align4 (110 + (m.name.length + 1))

/-- Where the next header is. -/
def Member.next (m : Member) (off : ℕ) : ℕ := m.dataAt off + align4 m.size

/-- The members from `off` on, and the trailer after them. -/
def Archive (mem : Buf) (total : ℕ) : ℕ → List Member → Prop
  | off, [] => EntryAt mem off trailer 0 ∧ off + align4 (110 + (trailer.length + 1)) ≤ total
  | off, m :: ms => (EntryAt mem off m.name m.size ∧ m.name ≠ trailer ∧ m.next off ≤ total) ∧
      Archive mem total (m.next off) ms

def foldCase (name : List UInt8) : List UInt8 := name.map upperAscii

/-- A newc archive of `total` bytes with these members. -/
structure WellFormed (mem : Buf) (total : ℕ) (members : List Member) : Prop where
  archive : Archive mem total 0 members
  distinct : (members.map fun m => foldCase m.name).Nodup
  small : total < 2 ^ 32

/-- The offset and the size of the data stored for a path. -/
def storedAt (path : List UInt8) : ℕ → List Member → Option (ℕ × ℕ)
  | _, [] => none
  | off, m :: ms =>
    if foldCase m.name = foldCase (stripSlash path) then some (m.dataAt off, m.size)
    else storedAt path (m.next off) ms

/-- `initramfs_find` returns what the archive stores for a path. -/
def Reads (mem : Buf) (total : ℕ) (members : List Member) (path : List UInt8) : Prop :=
  ∃ fuel, (initramfsFind fuel total path).run mem = some (storedAt path 0 members)

end Format

section Scan

variable {mem : Buf}

theorem matchBytes_run (mem : Buf) : ∀ (bs : List UInt8) (off : ℕ),
    ∃ b, (matchBytes bs off).run mem = some b ∧
      (b = true ↔ ∀ i (h : i < bs.length), mem (off + i) = bs[i])
  | [], _ => ⟨true, rfl, by simp⟩
  | b :: bs, off => by
    obtain ⟨r, hrun, hr⟩ := matchBytes_run mem bs (off + 1)
    have hread : (readByte off).run mem = some (mem off) := rfl
    by_cases hb : mem off = b
    · refine ⟨r, ?_, ?_⟩
      · simp only [matchBytes, Query.run_bind, hread, Option.bind_some, if_pos hb, hrun]
      · rw [hr]
        constructor
        · intro h i hi
          obtain _ | i := i
          · exact hb
          · have := h i (by simpa using hi)
            rwa [Nat.add_right_comm] at this
        · intro h i hi
          have := h (i + 1) (by simpa using hi)
          rwa [Nat.add_right_comm]
    · refine ⟨false, ?_, ?_⟩
      · simp only [matchBytes, Query.run_bind, hread, Option.bind_some, if_neg hb]
        rfl
      · simp only [Bool.false_eq_true, false_iff]
        intro h
        exact hb (h 0 (by simp))

theorem cpioIsNewc_true {p remain : ℕ} (h : (cpioIsNewc p remain).run mem = some true) :
    ∀ i (h : i < magic.length), mem (p + i) = magic[i] := by
  unfold cpioIsNewc at h
  split_ifs at h
  · simp at h
  · obtain ⟨b, hrun, hb⟩ := matchBytes_run mem magic p
    rw [hrun, Option.some_inj] at h
    exact hb.1 h

theorem nameMatches_length {want : List UInt8} {cpioName namesz : ℕ}
    (h : (nameMatchesExecPath want cpioName namesz).run mem = some true) :
    namesz = (stripSlash want).length + 1 := by
  have hread : ∀ p, (readByte p).run mem = some (mem p) := fun _ => rfl
  by_cases hlen : (stripSlash want).length = namesz - 1 ∧ 2 ≤ namesz
  · omega
  · exfalso
    simp only [nameMatchesExecPath] at h
    split_ifs at h
    · simp at h
    · simp only [Query.run_bind, hread, Option.bind_some] at h
      split_ifs at h <;> simp at h
    · omega

end Scan

section Stored

variable {mem : Buf} {total : ℕ} {path : List UInt8} {start size : ℕ}

/-- What is stored for a path is the data of a member with a name as long as the path. -/
theorem Archive.stored : ∀ {off : ℕ} {members : List Member}, Archive mem total off members →
    storedAt path off members = some (start, size) →
    ∃ (m : Member) (off' : ℕ), EntryAt mem off' m.name m.size ∧ m.next off' ≤ total ∧
      m.name.length = (stripSlash path).length ∧ start = m.dataAt off'
  | _, [], _, h => by cases h
  | off, m :: ms, harchive, h => by
    obtain ⟨⟨hentry, -, hnext⟩, hrest⟩ := harchive
    rw [storedAt] at h
    split_ifs at h with hname
    · obtain ⟨rfl, -⟩ := Prod.mk.inj (Option.some_inj.1 h)
      have hlen := congrArg List.length hname
      rw [foldCase, foldCase, List.length_map, List.length_map] at hlen
      exact ⟨m, off, hentry, hnext, hlen, rfl⟩
    · exact hrest.stored h

/-- The name alone and the name with its header are never padded to the same place, unless one
header starts two bytes behind the other. -/
theorem header_of_dataAt {off off' s : ℕ} (hs : 110 + s < 2 ^ 32)
    (h : off + align4 (110 + s) = off' + 110 + pad4 s) : off' = off + 2 ∨ off = off' + 2 := by
  unfold align4 pad4 at h
  rw [Nat.mod_eq_of_lt (by omega)] at h
  omega

/-- The fourth byte of the second header would be the last one of the first one's magic. -/
theorem not_magic_two {off : ℕ} (h : ∀ i (h : i < magic.length), mem (off + i) = magic[i])
    (h' : ∀ i (h : i < magic.length), mem (off + 2 + i) = magic[i]) : False := by
  have h1 := h 5 (by decide)
  have h7 := h' 3 (by decide)
  rw [Nat.add_assoc, h1] at h7
  exact absurd h7 (by decide)

theorem WellFormed.total_ne_zero {members : List Member} (hwf : WellFormed mem total members) :
    total ≠ 0 := by
  rintro rfl
  rcases members with _ | ⟨m, ms⟩
  · exact absurd hwf.archive.2 (by decide)
  · have hnext := hwf.archive.1.2.2
    unfold Member.next Member.dataAt align4 at hnext
    omega

end Stored

section Sample

def hex8 (n : ℕ) : List UInt8 :=
  (List.range 8).map fun i =>
    let d := n / 16 ^ (7 - i) % 16
    UInt8.ofNat (if d < 10 then 48 + d else 55 + d)

/-- The bytes of a member as `cpio` writes them, the fields that do not matter here zero. -/
def record (name data : List UInt8) : List UInt8 :=
  let pad := fun n => List.replicate (align4 n - n) (0 : UInt8)
  magic ++ (List.replicate 6 (hex8 0)).flatten ++ hex8 data.length
    ++ (List.replicate 4 (hex8 0)).flatten ++ hex8 (name.length + 1) ++ hex8 0
    ++ name ++ [0] ++ pad (110 + (name.length + 1)) ++ data ++ pad data.length

def initName : List UInt8 := [105, 110, 105, 116]

def initArchive : Buf := fun i => (record initName [1, 2] ++ record trailer []).getD i 0

theorem initArchive_wellFormed : WellFormed initArchive 244 [⟨initName, 2⟩] := by
  refine ⟨⟨⟨⟨by decide +kernel, fun i h h' => ?_, by decide +kernel, by decide +kernel,
    by decide +kernel, by decide +kernel, by decide +kernel⟩, by decide +kernel,
    by decide +kernel⟩, ⟨by decide +kernel, fun i h h' => ?_, by decide +kernel,
    by decide +kernel, by decide +kernel, by decide +kernel, by decide +kernel⟩,
    by decide +kernel⟩, by simp, by decide⟩
  · exact (by decide +kernel :
      ∀ i < 110, 6 ≤ i → (hexDigit (initArchive (0 + i))).isSome) i h' h
  · exact (by decide +kernel :
      ∀ i < 110, 6 ≤ i → (hexDigit (initArchive (120 + i))).isSome) i h' h

end Sample

end Initramfs

end PeanutKernel
