import PeanutKernel.Exfat
import PeanutKernel.ExtfsReads

/-!
# The reads of the exFAT driver from a directory cluster

`parse_entry_set`, loop by loop, as a program that asks for the bytes of the cluster by their index.
Its checks against `bytes` are sums of a `uint32_t`, and the number of an entry of the set is a
`uint8_t`: in a set of 255 secondary entries it comes round to the first one, so that the loop over
the entries takes `fuel` and `diverge`s without it. The name is all that is stored before the
terminator.
-/

namespace PeanutKernel

namespace Exfat

open Ext (askBytes bufOf)

def askByte (i : ℕ) : Query ℕ UInt8 UInt8 := .ask i pure

/-- A field of `n` bytes at index `i`. -/
def askField (field : Buf → ℕ → ℕ) (n i : ℕ) : Query ℕ UInt8 ℕ := do
  let bytes ← askBytes i n
  pure (field (bufOf bytes) 0)

/-- The loop over the units of the name entry at `e`, from unit `k` on with `n` of the 15 rounds
to go. -/
def askUnits (e nameLen : ℕ) : ℕ → ℕ → List ℕ → Query ℕ UInt8 (List ℕ)
  | 0, _, nameU => pure nameU
  | n + 1, k, nameU =>
    if nameU.length < nameLen ∧ nameU.length < maxName - 1 then
      if 32 < 2 + (k + 1) * 2 then pure nameU
      else do
        let c ← askField le16 2 (e + 2 + k * 2)
        askUnits e nameLen n (k + 1) (nameU ++ [c])
    else pure nameU

/-- The loop over the entries of the set, from entry `si` on. -/
def askNameEntries (bytes off secondary nameLen : ℕ) :
    ℕ → ℕ → List ℕ → Query ℕ UInt8 (List ℕ)
  | 0, _, _ => .diverge
  | fuel + 1, si, nameU =>
    if si ≤ secondary ∧ nameU.length < nameLen ∧ nameU.length < maxName then
      let e := off + 32 * si
      if bytes < e + 32 then pure nameU
      else do
        if (← askByte e) ≠ entryFilename then
          askNameEntries bytes off secondary nameLen fuel ((si + 1) % 2 ^ 8) nameU
        else do
          let nameU ← askUnits e nameLen 15 0 nameU
          askNameEntries bytes off secondary nameLen fuel ((si + 1) % 2 ^ 8) nameU
    else pure nameU

/-- The part after the checks of the file entry. -/
def askSet (fuel bytes off secondary : ℕ) : Query ℕ UInt8 (Option ExfatDirEntry) := do
  let attrs ← askField le16 2 (off + 4)
  if (← askByte (off + 32)) ≠ entryStream then pure none
  else do
    let nameLen ← askByte (off + 32 + 3)
    let firstCluster ← askField le32 4 (off + 32 + 20)
    let dataLength ← askField le64 8 (off + 32 + 24)
    let nameU ← askNameEntries bytes off secondary nameLen.toNat fuel 2 []
    pure (some {
      name := (nameU.take (maxName - 1)).map nameByte
      attributes := UInt8.ofNat attrs
      firstCluster := firstCluster
      size := dataLength })

/-- `parse_entry_set`. -/
def askEntrySet (fuel bytes off : ℕ) : Query ℕ UInt8 (Option ExfatDirEntry) :=
  if bytes < (off + 32) % 2 ^ 32 then pure none
  else do
    if (← askByte off) ≠ entryFile then pure none
    else do
      let secondary ← askByte ((off + 1) % 2 ^ 32)
      if secondary.toNat < 1 ∨ bytes < (off + (secondary.toNat + 1) * 32) % 2 ^ 32 then pure none
      else askSet fuel bytes off secondary.toNat

end Exfat

end PeanutKernel
