import PeanutKernel.Alloc
import PeanutKernel.Syscall
import Mathlib.Logic.Equiv.Defs

/-!
# Reads into memory

`SYS_READ` stores where its second argument points, and nothing keeps a process from pointing into
the kernel. Here the descriptor table and the buffers lie in the memory it stores into: the bytes of
`fds`, laid out by the x86-64 ABI, and those of the blocks stand where a `Placement` puts them. The
stores are made one after the other, and a field of the descriptor is read where the source reads
it. Of what has been stored over, the bytes count when the call is over.

The rest of the kernel's own data is not in this memory, and no other call stores where a process
points.
-/

namespace PeanutKernel

/-- The size of an `Fd`. -/
def fdBytes : ℕ := 208

/-- Where `fds` and the blocks of the heap lie. Every number is the address of a block, few of which
are ever handed out. -/
structure Placement where
  fds : ℕ
  block : ℕ ≃ ℕ

namespace Placement

variable (P : Placement)

def slot (i : Fin fdMax) : ℕ := P.fds + fdBytes * i

def InTable (a : ℕ) : Prop := P.fds ≤ a ∧ a < P.fds + fdBytes * fdMax

instance (a : ℕ) : Decidable (P.InTable a) := inferInstanceAs (Decidable (_ ∧ _))

/-- The address of a block, or a null pointer. -/
def pointer (data : Option ℕ) : ℕ := data.elim 0 P.block

end Placement

section Layout

variable (P : Placement)

/-- Offset, size and value of the fields that are numbers. -/
def Fd.numbers (f : Fd) : List (ℕ × ℕ × ℕ) :=
  [(0, 4, f.used.toNat), (8, 8, P.pointer f.data), (16, 4, f.size), (20, 4, f.off),
    (184, 4, f.isPseudo.toNat), (188, 4, f.dirty.toNat), (192, 4, f.isSocket.toNat),
    (196, 4, (f.socketDomain % 2 ^ 32).toNat), (200, 4, (f.socketType % 2 ^ 32).toNat),
    (204, 4, (f.socketProtocol % 2 ^ 32).toNat)]

/-- Memory with the descriptor at `a`. The padding and the end of `path` stay as they were. -/
def storeFd (f : Fd) (mem : Buf) (a : ℕ) : Buf :=
  (f.numbers P).foldl (fun mem x => Alloc.storeLe x.2.1 mem (a + x.1) x.2.2)
    (storeBytes mem (a + 24) (f.path ++ [0]))

/-- The descriptor whose bytes stand at `a`. -/
def loadFd (mem : Buf) (a : ℕ) : Fd where
  used := le32 mem a ≠ 0
  data := if le64 mem (a + 8) = 0 then none else some (P.block.symm (le64 mem (a + 8)))
  size := le32 mem (a + 16)
  off := le32 mem (a + 20)
  -- a path without a zero runs on
  path := cstr (bytesOf (fun j => mem (a + 24 + j)) (P.fds + fdBytes * fdMax - (a + 24)))
  isPseudo := le32 mem (a + 184) ≠ 0
  dirty := le32 mem (a + 188) ≠ 0
  isSocket := le32 mem (a + 192) ≠ 0
  socketDomain := Int.bmod (le32 mem (a + 196)) (2 ^ 32)
  socketType := Int.bmod (le32 mem (a + 200)) (2 ^ 32)
  socketProtocol := Int.bmod (le32 mem (a + 204)) (2 ^ 32)

variable {N : ℕ} (k : Kernel N)

/-- Memory with the descriptor table and the blocks in it. -/
def Kernel.image (mem : Buf) : Buf := fun a =>
  if h : P.fds ≤ a ∧ (a - P.fds) / fdBytes < fdMax then
    storeFd P (k.fds ⟨_, h.2⟩) mem (P.slot ⟨_, h.2⟩) a
  else
    match (List.range k.heap.next).find? fun p =>
      P.block p ≤ a ∧ a < P.block p + (k.heap.bytes p).length with
    | some p => (k.heap.bytes p).getD (a - P.block p) 0
    | none => mem a

/-- The kernel when memory has changed from `mem` to `mem'`. -/
def Kernel.changed (mem mem' : Buf) : Kernel N :=
  { k with
    fds := fun i =>
      if ∀ j < fdBytes, mem' (P.slot i + j) = mem (P.slot i + j) then k.fds i
      else loadFd P mem' (P.slot i)
    heap := { k.heap with
      block := fun p => (k.heap.block p).map fun data =>
        if ∀ j < data.length, mem' (P.block p + j) = mem (P.block p + j) then data
        else bytesOf (fun j => mem' (P.block p + j)) data.length } }

end Layout

section Read

variable {N : ℕ} (fuel : ℕ) (P : Placement)

/-- The loop `for (i = 0; i < n; i++) dst[i] = ...`. -/
def storeLoop (dst n : ℕ) (byte : Buf → Buf) (mem : Buf) : Buf :=
  (List.range n).foldl (fun mem j => Function.update mem ((dst + j) % 2 ^ 64) (byte mem j)) mem

/-- The kernel when the loop is done. -/
def Kernel.stored (k : Kernel N) (mem : Buf) (dst n : ℕ) (byte : Buf → Buf) : Kernel N :=
  k.changed P (k.image P mem) (storeLoop dst n byte (k.image P mem))

/-- `f->data[f->off + j]`, for the descriptor at `f`. -/
def dataAt (f : ℕ) (mem : Buf) (j : ℕ) : UInt8 :=
  mem ((le64 mem (f + 8) + (le32 mem (f + 20) + j) % 2 ^ 32) % 2 ^ 64)

/-- `f->off += n; return n;` -/
def advance (k : Kernel N) (i : Fin fdMax) (n : ℕ) : SysResult × Kernel N :=
  done (setFd k i { k.fds i with off := ((k.fds i).off + n) % 2 ^ 32 }) (UInt64.ofNat (n % 2 ^ 32))

/-- `SYS_READ` with its stores made. -/
def sysReadAt (env : CallEnv) (k : Kernel N) (arg1 arg2 arg3 : UInt64) : SysResult × Kernel N :=
  match usedFd k arg1 with
  | none => fail k 2
  | some i =>
    let f := k.fds i
    let stored := k.stored P env.mem arg2.toNat
    if f.isPseudo then
      match vfsPseudoPread k.devMounted k.hdmiStatus.text env.dev (cptr f.path) f.off (env.ptr arg2)
        (arg3.toNat % 2 ^ 32) with
      | none => fail k 1
      | some bytes => advance (stored bytes.length fun _ j => bytes.getD j 0) i bytes.length
    else if f.size ≤ f.off then done k 0
    else advance (stored (takeOf f arg3) (dataAt (P.slot i))) i (takeOf f arg3)

/-- The kernel after an event, with the stores of `SYS_READ` made. -/
def Kernel.stepAt (k : Kernel N) : KernelEvent → Option (Kernel N)
  | .call env c =>
    if c.num = 0 then some (sysReadAt P env { k with lastErrno := 0 } c.arg1 c.arg2 c.arg3).2
    else k.step fuel (.call env c)
  | .device m => k.step fuel (.device m)

def Kernel.afterAt (k : Kernel N) (events : List KernelEvent) : Option (Kernel N) :=
  events.foldlM (Kernel.stepAt fuel P) k

/-- What a call of `SYS_READ` stores misses the descriptor table. -/
def Kernel.MissesTable (k : Kernel N) : KernelEvent → Prop
  | .call env c => c.num = 0 →
      ∀ j < (sysRead env { k with lastErrno := 0 } c.arg1 c.arg2 c.arg3).1.stored.length,
        ¬ P.InTable ((c.arg2.toNat + j) % 2 ^ 64)
  | .device _ => True

/-- Each read of the run does, in the kernel it finds. -/
def Kernel.ReadsApart : Kernel N → List KernelEvent → Prop
  | _, [] => True
  | k, e :: events =>
    k.MissesTable P e ∧ ∀ k', k.stepAt fuel P e = some k' → Kernel.ReadsApart k' events

end Read

end PeanutKernel
