import PeanutKernel.Path
import PeanutKernel.Lib.Rounds

/-!
# The ISO 9660 driver

`fs/iso9660.c` over a disc: what `cdrom_read` leaves in a buffer for a sector, or nothing where it
fails; the ATAPI transport in `drivers/block/cdrom.c` is a stub. Code that reads is a `Query` whose
questions are the sectors it has loaded and the bytes it takes from the buffer of the sector loaded
last; a byte from 2048 on is what stands behind the buffer in memory.

The loops over a directory take fuel for the number of their rounds. `uint32_t` values are taken
modulo `2 ^ 32`.
-/

namespace PeanutKernel

namespace Iso

inductive Ask
  | cdromRead (lba : ℕ)
  | byte (lba i : ℕ)
  deriving DecidableEq, Repr

abbrev Disc := ℕ → Option Buf

def Disc.answer (disc : Disc) : Ask → Option UInt8
  | .cdromRead lba => (disc lba).map fun _ => 0
  | .byte lba i => (disc lba).map (· i)

abbrev IsoM := Query Ask (Option UInt8)

/-- Whether the sector could be read. -/
def cdromRead (lba : ℕ) : IsoM Bool := .ask (.cdromRead lba) fun r => pure r.isSome

def readByte (lba i : ℕ) : IsoM UInt8 := .ask (.byte lba i) fun r => pure (r.getD 0)

def isoLe32 (lba i : ℕ) : IsoM ℕ := do
  let b0 ← readByte lba i
  let b1 ← readByte lba (i + 1)
  let b2 ← readByte lba (i + 2)
  let b3 ← readByte lba (i + 3)
  pure (b0.toNat + 2 ^ 8 * b1.toNat + 2 ^ 16 * b2.toNat + 2 ^ 24 * b3.toNat)

def isoUpper (c : UInt8) : UInt8 := upperAscii c

section Names

variable (lba name : ℕ)

/-- `while (effective_len > 0 && name[effective_len - 1u] == ' ') effective_len--;` -/
def trimBlanks : ℕ → IsoM ℕ
  | 0 => pure 0
  | n + 1 => do
    let c ← readByte lba (name + n)
    if c = 32 then trimBlanks n else pure (n + 1)

/-- Without a `;1` at the end. -/
def trimVersion (n : ℕ) : IsoM ℕ :=
  if 2 < n then do
    let c ← readByte lba (name + (n - 2))
    if c = 59 then
      let d ← readByte lba (name + (n - 1))
      pure (if d = 49 then n - 2 else n)
    else pure n
  else pure n

/-- Without a dot at the end. -/
def trimDot (n : ℕ) : IsoM ℕ :=
  if 0 < n then do
    let c ← readByte lba (name + (n - 1))
    pure (if c = 46 then n - 1 else n)
  else pure n

/-- The loop over the characters, with the offset of the next one of the name. -/
def compareFrom : List UInt8 → ℕ → IsoM Bool
  | [], _ => pure true
  | c :: path, i => do
    let d ← readByte lba i
    if isoUpper c ≠ isoUpper d then pure false else compareFrom path (i + 1)

/-- `name` is the offset of the name in the buffer. -/
def isoComponentEqual (path : List UInt8) (nameLen : ℕ) : IsoM Bool := do
  let n ← trimBlanks lba name nameLen
  let n ← trimVersion lba name n
  let n ← trimDot lba name n
  if path.length ≠ n then pure false else compareFrom lba path name

/-- The next component of a path, and what follows it. -/
def isoNextComponent (path : List UInt8) : List UInt8 × List UInt8 :=
  let p := path.dropWhile (· = 47)
  (p.takeWhile (· ≠ 47), p.dropWhile (· ≠ 47))

end Names

section Lookup

structure IsoEntry where
  lba : ℕ
  size : ℕ
  isDir : Bool
  deriving DecidableEq, Repr

/-- At the test of the outer loop, or of the inner one. -/
inductive Scan
  | enter (pos : ℕ)
  | record (sectorIndex sectorOff pos : ℕ)
  deriving DecidableEq, Repr

/-- Whether the name of the record at `sectorOff` is that of a file and equals the component. -/
def isoNameEqual (component : List UInt8) (lba sectorOff nameLen : ℕ) : IsoM Bool := do
  if 1 < nameLen then isoComponentEqual lba (sectorOff + 33) component nameLen
  else
    let first ← readByte lba (sectorOff + 33)
    if first ≠ 0 ∧ first ≠ 1 then isoComponentEqual lba (sectorOff + 33) component nameLen
    else pure false

/-- The fields of the record at `sectorOff`, if it has the name. -/
def isoRecord (component : List UInt8) (lba sectorOff : ℕ) : IsoM (Option IsoEntry) := do
  let nameLen ← readByte lba (sectorOff + 32)
  let extentLba ← isoLe32 lba (sectorOff + 2)
  let extentSize ← isoLe32 lba (sectorOff + 10)
  let flags ← readByte lba (sectorOff + 25)
  let equal ← isoNameEqual component lba sectorOff nameLen.toNat
  pure (if equal then some ⟨extentLba, extentSize, flags &&& 0x02 ≠ 0⟩ else none)

/-- A round of the loops of `iso_find_in_dir`. -/
def scanRound (component : List UInt8) (dirLba dirSize : ℕ) :
    Scan → IsoM (Scan ⊕ Option IsoEntry)
  | .enter pos =>
    if pos < dirSize then do
      let sectorIndex := pos / 2048
      let read ← cdromRead ((dirLba + sectorIndex) % 2 ^ 32)
      if read then pure (.inl (.record sectorIndex (pos % 2048) pos)) else pure (.inr none)
    else pure (.inr none)
  | .record sectorIndex sectorOff pos =>
    if sectorOff < 2048 ∧ pos < dirSize then do
      let lba := (dirLba + sectorIndex) % 2 ^ 32
      let len ← readByte lba sectorOff
      if len = 0 then pure (.inl (.enter ((sectorIndex + 1) * 2048 % 2 ^ 32)))
      else if 2048 < sectorOff + len.toNat ∨ len < 34 then pure (.inr none)
      else
        let found ← isoRecord component lba sectorOff
        match found with
        | some entry => pure (.inr (some entry))
        | none =>
          pure (.inl (.record sectorIndex (sectorOff + len.toNat) ((pos + len.toNat) % 2 ^ 32)))
    else pure (.inl (.enter pos))

def scanDir (fuel : ℕ) (component : List UInt8) (dirLba dirSize : ℕ) : IsoM (Option IsoEntry) :=
  Query.rounds (scanRound component dirLba dirSize) fuel (.enter 0)

/-- What is left of a path once a component is found. -/
def pathRest (path : List UInt8) : List UInt8 := (isoNextComponent path).2.dropWhile (· = 47)

theorem pathRest_length {path : List UInt8} (h : (isoNextComponent path).1 ≠ []) :
    (pathRest path).length < path.length := by
  have hdrop : (pathRest path).length ≤ (isoNextComponent path).2.length :=
    (List.dropWhile_sublist _).length_le
  have hsplit : (isoNextComponent path).1.length + (isoNextComponent path).2.length
      = (path.dropWhile (· = 47)).length := by
    rw [← List.length_append]
    exact congrArg List.length List.takeWhile_append_dropWhile
  have hle : (path.dropWhile (· = 47)).length ≤ path.length :=
    (List.dropWhile_sublist _).length_le
  have hpos := List.length_pos_iff.2 h
  omega

/-- `none` is the error return. -/
def isoFindInDir (fuel : ℕ) (path : List UInt8) (dirLba dirSize : ℕ) : IsoM (Option IsoEntry) :=
  if h : (isoNextComponent path).1 = [] then pure (some ⟨dirLba, dirSize, true⟩)
  else do
    let found ← scanDir fuel (isoNextComponent path).1 dirLba dirSize
    match found with
    | none => pure none
    | some entry =>
      if pathRest path = [] then pure (some entry)
      else if entry.isDir = false then pure none
      else
        have := pathRest_length h
        isoFindInDir fuel (pathRest path) entry.lba entry.size
termination_by path.length

end Lookup

end Iso

end PeanutKernel
