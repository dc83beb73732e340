import PeanutKernel.ElfLoad

/-!
# The first line of a script

`parse_shebang_line` (`programs/elf.c`), loop by loop, by its accesses to the file in the ELF buffer
and to the two arrays it fills. The index into the file goes through all four loops; it stays below
`len`, so that no `uint32_t` of it wraps.
-/

namespace PeanutKernel.Elf.Shebang

inductive Cell
  | data (i : ℕ)
  | interp (i : ℕ)
  | arg (i : ℕ)
  deriving DecidableEq

/-- `while (i < len && (data[i] == ' ' || data[i] == '\t')) i++`. -/
def skipBlanks (len i : ℕ) : MemM Cell UInt8 ℕ :=
  if i < len then do
    let c ← MemM.load (.data i)
    if isBlank c then skipBlanks len (i + 1) else pure i
  else pure i
termination_by len - i

/-- Where a copying loop was left: because its array is full or not, at which byte of the file, and
with how many bytes in the array. -/
structure Copied where
  full : Bool
  i : ℕ
  n : ℕ

/-- A loop that copies bytes of the file to an array of `sz` bytes, up to one where it stops. -/
def copyUntil (stop : UInt8 → Bool) (out : ℕ → Cell) (len sz i n : ℕ) : MemM Cell UInt8 Copied :=
  if i < len then do
    let c ← MemM.load (.data i)
    if stop c then pure ⟨false, i, n⟩
    else if sz ≤ n + 1 then pure ⟨true, i, n⟩
    else do
      MemM.store (out n) c
      copyUntil stop out len sz (i + 1) (n + 1)
  else pure ⟨false, i, n⟩
termination_by len - i

def copyInterp (len interpSz i : ℕ) : MemM Cell UInt8 Copied :=
  copyUntil (fun c => isLineEnd c || isBlank c) .interp len interpSz i 0

def copyArg (len argSz i : ℕ) : MemM Cell UInt8 Copied :=
  copyUntil isLineEnd .arg len argSz i 0

/-- The part after the mark, up to the interpreter's end. A token that does not fit is refused,
before the array is terminated. -/
def parseInterp (len interpSz : ℕ) : MemM Cell UInt8 (Option ℕ) := do
  let i ← skipBlanks len 2
  let interp ← copyInterp len interpSz i
  if interp.full then pure none
  else do
    MemM.store (.interp interp.n) 0
    if interp.n = 0 then pure none else pure (some interp.i)

/-- The part after the interpreter. An argument that does not fit is cut off. -/
def parseArg (len argSz i : ℕ) : MemM Cell UInt8 ℤ := do
  let i ← skipBlanks len i
  let arg ← copyArg len argSz i
  MemM.store (.arg arg.n) 0
  pure 0

def parseShebangLine (len interpSz argSz : ℕ) : MemM Cell UInt8 ℤ :=
  if len < 2 then pure (-1)
  else do
    if (← MemM.load (.data 0)) ≠ 35 then pure (-1)
    else if (← MemM.load (.data 1)) ≠ 33 then pure (-1)
    else do
      match ← parseInterp len interpSz with
      | none => pure (-1)
      | some i => parseArg len argSz i

end PeanutKernel.Elf.Shebang
