import PeanutKernel.Lib.Access
import PeanutKernel.Syscall
import PeanutKernel.UserStack

/-!
# The ELF loader

`elf_load_and_run_inner` of `programs/elf.c`. Once a file is in `elf_buffer` the loader is a program
over memory: a byte of the file at index `i` is read at address `elf_buffer + i` modulo `2 ^ 64`,
and the fields of the headers are read anew wherever the source names them, since a segment may be
copied over them. Strings are the bytes before their terminator.

A load finds memory and an allocator around it, its `Surroundings`. The function calls itself
without a bound, and a lookup on a corrupt volume may not end, so it takes `fuel` and `diverge`s
without it.
-/

namespace PeanutKernel

namespace Elf

section Image

abbrev ByteMemM := MemM ℕ UInt8

def elfMagic : ℕ := 0x464C457F

def ptLoad : ℕ := 1

def ptInterp : ℕ := 3

/-- An unsigned field of `n` bytes. -/
def readLe : ℕ → ℕ → ByteMemM ℕ
  | 0, _ => pure 0
  | n + 1, a => do
    let b ← MemM.load (a % 2 ^ 64)
    let rest ← readLe n (a + 1)
    pure (b.toNat + 2 ^ 8 * rest)

section Fields

variable (elfBuffer phdr i : ℕ)

def eEntry : ByteMemM ℕ := readLe 8 (elfBuffer + 24)

def ePhoff : ByteMemM ℕ := readLe 8 (elfBuffer + 32)

def ePhnum : ByteMemM ℕ := readLe 2 (elfBuffer + 56)

def pType : ByteMemM ℕ := readLe 4 (phdr + 56 * i)

def pOffset : ByteMemM ℕ := readLe 8 (phdr + 56 * i + 8)

def pVaddr : ByteMemM ℕ := readLe 8 (phdr + 56 * i + 16)

def pFilesz : ByteMemM ℕ := readLe 8 (phdr + 56 * i + 32)

def pMemsz : ByteMemM ℕ := readLe 8 (phdr + 56 * i + 40)

end Fields

/-- The loop for `PT_INTERP` from header `i` on, with at most `n` rounds; `interp_path` at its
end. -/
def findInterp (elfBuffer phdr : ℕ) : ℕ → ℕ → ByteMemM ℕ
  | 0, _ => pure 0
  | n + 1, i => do
    if i < (← ePhnum elfBuffer) then do
      if (← pType phdr i) = ptInterp then do
        let offset ← pOffset phdr i
        pure ((elfBuffer + offset) % 2 ^ 64)
      else findInterp elfBuffer phdr n (i + 1)
    else pure 0

/-- What `kstrlcpy` copies from address `s` into `n + 1` bytes. -/
def readString : ℕ → ℕ → ByteMemM (List UInt8)
  | 0, _ => pure []
  | n + 1, s => do
    let c ← MemM.load (s % 2 ^ 64)
    if c = 0 then pure []
    else do
      let rest ← readString n (s + 1)
      pure (c :: rest)

def copyByte (dest src j : ℕ) : ByteMemM Unit := do
  let b ← MemM.load ((src + j) % 2 ^ 64)
  MemM.store ((dest + j) % 2 ^ 64) b

def zeroByte (dest j : ℕ) : ByteMemM Unit := MemM.store ((dest + j) % 2 ^ 64) 0

/-- The loop that copies a segment. Its bound is below `2 ^ 64`, which limits its rounds. -/
def copyBytes (phdr i dest src : ℕ) : ByteMemM Unit :=
  MemM.countUp (pFilesz phdr i) (copyByte dest src) (2 ^ 64) 0

/-- The loop that zeroes the rest of a segment. -/
def zeroBytes (phdr i dest start : ℕ) : ByteMemM Unit :=
  MemM.countUp (pMemsz phdr i) (zeroByte dest) (2 ^ 64) start

def loadSegment (elfBuffer phdr i : ℕ) : ByteMemM Unit := do
  let dest ← pVaddr phdr i
  let offset ← pOffset phdr i
  copyBytes phdr i dest (elfBuffer + offset)
  let memsz ← pMemsz phdr i
  let filesz ← pFilesz phdr i
  if filesz < memsz then do
    let start ← pFilesz phdr i
    zeroBytes phdr i dest start
  else pure ()

/-- A round of the loop over the program headers. -/
def loadHeader (elfBuffer phdr i : ℕ) : ByteMemM Unit := do
  if (← pType phdr i) = ptLoad then loadSegment elfBuffer phdr i else pure ()

def loadSegments (elfBuffer phdr : ℕ) : ByteMemM Unit :=
  MemM.countUp (ePhnum elfBuffer) (loadHeader elfBuffer phdr) (2 ^ 16) 0

/-- What the ELF part of the function comes to: `-1`, a call for the interpreter, or a jump. -/
inductive Image
  | rejected
  | interpreter (path : List UInt8)
  | started (entryPoint : ℕ)
  deriving DecidableEq, Repr

/-- The function behind the search for `PT_INTERP`. -/
def loadRest (elfBuffer phdr interpPath : ℕ) : ByteMemM Image :=
  if interpPath ≠ 0 then do
    let path ← readString 255 interpPath
    pure (.interpreter path)
  else do
    loadSegments elfBuffer phdr
    let entryPoint ← eEntry elfBuffer
    pure (.started entryPoint)

/-- The function from the cast of `elf_buffer` to `Elf64Header` on. -/
def loadImage (elfBuffer : ℕ) : ByteMemM Image := do
  if (← readLe 4 elfBuffer) ≠ elfMagic then pure .rejected
  else do
    let phoff ← ePhoff elfBuffer
    let phdr := (elfBuffer + phoff) % 2 ^ 64
    let interpPath ← findInterp elfBuffer phdr (2 ^ 16) 0
    loadRest elfBuffer phdr interpPath

end Image

section Paths

/-- The string stored in `out`. -/
def fatPathFromFs (fsPath : List UInt8) (outSz : ℕ) : List UInt8 :=
  ((if fsPath.head? = some 47 then fsPath.tail else fsPath).take (outSz - 1)).map upperAscii

def isBlank (c : UInt8) : Bool := c = 32 || c = 9

def isLineEnd (c : UInt8) : Bool := c = 10 || c = 13

/-- The interpreter and its argument, as strings. -/
def parseShebangLine (data : List UInt8) (interpSz argSz : ℕ) :
    Option (List UInt8 × List UInt8) :=
  match data with
  | 35 :: 33 :: rest =>
    let rest := rest.dropWhile isBlank
    let interp := rest.takeWhile fun c => !(isLineEnd c || isBlank c)
    if interpSz ≤ interp.length then none
    else if interp = [] then none
    else
      let rest := (rest.drop interp.length).dropWhile isBlank
      let arg := (rest.takeWhile fun c => !isLineEnd c).take (argSz - 1)
      some (cstr interp, cstr arg)
  | _ => none

end Paths

section Load

/-- The name a path is looked up under. -/
def loadName (path : List UInt8) : PeanutVolume → List UInt8
  | .ext _ => if path.head? ≠ some 47 then 47 :: path.take 158 else path.take 159
  | _ => if path.head? = some 47 then fatPathFromFs path 160 else path

/-- A path as it is passed on: in the form of the volume, in 144 bytes. -/
def passedOn (path : List UInt8) : PeanutVolume → List UInt8
  | .ext _ => path
  | _ => fatPathFromFs path 144

/-- `file_size`, if the name is that of a regular file. -/
def loadSize (fuel : ℕ) (name : List UInt8) : PeanutVolume → BlockM (Option ℕ)
  | .fat32 v => do
    match ← Fat.fat32FindRoot fuel v name with
    | none => pure none
    | some e => pure (if e.attributes &&& Fat.attrDirectory ≠ 0 then none else some e.size)
  | .exfat v => do
    match ← Exfat.exfatFindRoot fuel v name with
    | none => pure none
    | some e => pure (if e.attributes &&& Exfat.attrDirectory ≠ 0 then none else some e.size)
  | .ext v => do
    match ← Ext.extfsStat fuel v name with
    | none => pure none
    | some (size, isDir) => pure (if isDir then none else some size)

/-- What a load finds around it: the address `kalloc` returns, and the memory. -/
structure Surroundings where
  elfBuffer : Option ℕ
  mem : Buf

/-- What a load comes to: `-1`, a call for an interpreter with the path of the program as second
argument, or a jump. -/
inductive Loaded
  | fails
  | interpreter (path argv1 : List UInt8)
  | starts (entryPoint : ℕ)
  deriving DecidableEq, Repr

/-- The function once the file is in `elf_buffer`. -/
def afterRead (vol : PeanutVolume) (mem : Buf) (elfBuffer : ℕ) (path file : List UInt8) : Loaded :=
  if file.take 2 = [35, 33] then
    match parseShebangLine file 128 128 with
    | none => .fails
    | some (interp, _) => .interpreter (passedOn interp vol) (passedOn path vol)
  else
    match (loadImage elfBuffer).value (storeBytes mem elfBuffer file) with
    | .rejected => .fails
    | .interpreter interp => .interpreter (passedOn interp vol) path
    | .started entryPoint => .starts entryPoint

def maxFileSize : ℕ := 1024 * 1024 * 16

/-- One activation of the function, up to the call of itself. -/
def loadFile (vol : PeanutVolume) (around : Surroundings) (path : List UInt8) (fuel : ℕ) :
    BlockM Loaded := do
  match ← loadSize fuel (loadName path vol) vol with
  | none => pure .fails
  | some fileSize =>
    if fileSize = 0 ∨ maxFileSize < fileSize then pure .fails
    else match around.elfBuffer with
      | none => pure .fails
      | some elfBuffer => do
        match ← vol.readFile fuel (loadName path vol) fileSize with
        | none => pure .fails
        | some file =>
          if file.length ≠ fileSize then pure .fails
          else pure (afterRead vol around.mem elfBuffer path file)

/-- The arguments of `jump_to_ring3`. -/
structure Start where
  entryPoint : ℕ
  argv0 : List UInt8
  argv1Opt : Option (List UInt8)
  deriving DecidableEq, Repr

/-- The start it comes to, `none` if it returns `-1`; `env` is what the activations find around
them, one after the other. -/
def elfLoadAndRunInner (vol : PeanutVolume) :
    ℕ → (ℕ → Surroundings) → List UInt8 → List UInt8 → Option (List UInt8) →
      BlockM (Option Start)
  | 0, _, _, _, _ => .diverge
  | fuel + 1, env, path, argv0, argv1Opt => do
    match ← loadFile vol (env 0) path fuel with
    | .fails => pure none
    | .interpreter interp argv1 =>
      elfLoadAndRunInner vol fuel (fun k => env (k + 1)) interp interp (some argv1)
    | .starts entryPoint => pure (some ⟨entryPoint, argv0, argv1Opt⟩)

end Load

end Elf

end PeanutKernel
