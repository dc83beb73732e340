import PeanutKernel.Exfat
import PeanutKernel.Extfs
import PeanutKernel.Fat32
import PeanutKernel.Sched
import PeanutKernel.Vfs

/-!
# System calls

`syscall_handler` of `cpu/syscall.c`, with every case the configuration `.config` compiles in: the
network calls, and write support for exFAT and ext. The kernel state is the descriptor table, the
error number, the process table and the end of the user heap; the descriptors' buffers are blocks
of a `Heap`.

What a call finds around it is its `CallEnv`: the memory its pointers go into, whether `kalloc` has
room and what a new block holds, the bytes of a path buffer nobody has written, the input of the
device files, whether a network device can send, and what the ELF loader makes of a path. A pointer
is the address in the argument, and a null pointer is followed to address 0 where the source does
so: low memory is mapped. What a read stores is only noted here; in `SyscallMemory` it is stored.

A lookup on a corrupt volume may not end, and neither may printing a string that has no end, so the
handler takes `fuel` and is `none` when that runs out.
-/

namespace PeanutKernel

/-- `storage_get_root_volume`, by its `fs_kind`. -/
inductive PeanutVolume
  | fat32 (v : Fat.Fat32Volume)
  | exfat (v : Exfat.ExfatVolume)
  | ext (v : Ext.ExtVolume)

structure CallEnv where
  mem : ℕ → UInt8
  kallocFails : Bool
  fresh : Buf
  garbage : List UInt8
  dev : DevInput
  canSend : Bool
  /-- The entry point and stack of the image the loader starts, given path, `argv[0]` and
  `argv[1]`; `none` if it returns. -/
  loader : List UInt8 → List UInt8 → Option (List UInt8) → Option (UInt64 × UInt64)

/-- The pointer an argument is. -/
def CallEnv.ptr (env : CallEnv) (p : UInt64) : CPtr :=
  ⟨p = 0, fun i => env.mem ((p.toNat + i) % 2 ^ 64)⟩

section Heap

/-- The blocks `kalloc` has handed out and `kfree` has not got back, and what was passed to
`kfree`, in order. -/
structure Heap where
  next : ℕ
  block : ℕ → Option (List UInt8)
  freed : List ℕ

namespace Heap

def kalloc (h : Heap) (contents : List UInt8) : ℕ × Heap :=
  (h.next, { h with
    next := h.next + 1
    block := Function.update h.block h.next (some contents) })

def kfree (h : Heap) (p : ℕ) : Heap :=
  { h with block := Function.update h.block p none, freed := h.freed ++ [p] }

def store (h : Heap) (p : ℕ) (contents : List UInt8) : Heap :=
  { h with block := Function.update h.block p (some contents) }

/-- The bytes of a block. -/
def bytes (h : Heap) (p : ℕ) : List UInt8 := (h.block p).getD []

end Heap

end Heap

section Descriptors

def fdMax : ℕ := 16

structure Fd where
  used : Bool
  data : Option ℕ
  size : ℕ
  off : ℕ
  path : List UInt8
  isPseudo : Bool
  dirty : Bool
  isSocket : Bool
  socketDomain : ℤ
  socketType : ℤ
  socketProtocol : ℤ

abbrev FdTable := Fin fdMax → Fd

/-- A slot of the table as the kernel image holds it. -/
def zeroFd : Fd := ⟨false, none, 0, 0, [], false, false, false, 0, 0, 0⟩

/-- The slot taken, with the fields `alloc_fd` sets; `dirty` and the socket's parameters stay what
they were. -/
def allocFd (fds : FdTable) : Option (Fin fdMax × FdTable) :=
  (Fin.find? fun i => (fds i).used = false).map fun i =>
    (i, Function.update fds i { fds i with
      used := true
      data := none
      size := 0
      off := 0
      isPseudo := false
      isSocket := false
      path := [] })

end Descriptors

section Strings

/-- The bytes from a pointer on are a string and its zero. -/
def IsString (s : Buf) (text : List UInt8) : Prop :=
  0 ∉ text ∧ ∀ i, i ≤ text.length → s i = text.getD i 0

instance (s : Buf) (text : List UInt8) : Decidable (IsString s text) :=
  decidable_of_iff (0 ∉ text ∧ ∀ i < text.length + 1, s i = text.getD i 0)
    (by simp only [IsString, Nat.lt_succ_iff])

/-- The string copied, without its zero. -/
def kstrcpy (s : Buf) (cap : ℕ) : List UInt8 := cstr (bytesOf s (cap - 1))

/-- The string stored, `none` if nothing is. -/
def fsPathToFatName (path : CPtr) (cap : ℕ) : Option (List UInt8) :=
  if path.null || cap = 0 then none
  else
    let start := if path.bytes 0 = 47 then 1 else 0
    some ((cstr (bytesOf (fun i => path.bytes (start + i)) (cap - 1))).map upperAscii)

/-- The path with a slash in front, in a buffer of 160 bytes. -/
def absolutePath (path : Buf) : List UInt8 :=
  if path 0 ≠ 47 then 47 :: kstrcpy path 159 else kstrcpy path 160

def copyUserCstr (p : CPtr) (cap : ℕ) : List UInt8 :=
  if p.null then [] else cstr (bytesOf p.bytes (cap - 1))

end Strings

section Console

/-- The characters up to the zero. -/
def kprint : ℕ → Buf → Option (List UInt8)
  | fuel, str =>
    if str 0 = 0 then some []
    else match fuel with
      | 0 => none
      | fuel + 1 => (kprint fuel fun i => str (i + 1)).map (str 0 :: ·)

/-- The digits of a positive number; 19 rounds are enough for an `int64_t`. -/
def kprintDigits : ℕ → ℕ → List UInt8
  | 0, _ => []
  | rounds + 1, n =>
    if 0 < n then kprintDigits rounds (n / 10) ++ [UInt8.ofNat (n % 10 + 48)] else []

def kprintInt (n : UInt64) : List UInt8 :=
  if n = 0 then [48]
  else if 2 ^ 63 ≤ n.toNat then
    -- the most negative number is its own negation
    45 :: if n.toNat = 2 ^ 63 then [] else kprintDigits 19 (2 ^ 64 - n.toNat)
  else kprintDigits 19 n.toNat

def kpanic (message : List UInt8) : List UInt8 :=
  ascii "\nKERNEL PANIC: " ++ message ++ ascii "\n"

end Console

section Volumes

namespace PeanutVolume

/-- The path `read_file_into_mem` looks up. -/
def openName (vol : PeanutVolume) (env : CallEnv) (path : CPtr) : List UInt8 :=
  match vol with
  | .fat32 _ => (fsPathToFatName path 160).getD env.garbage
  | .exfat _ => (fsPathToFatName path 160).getD env.garbage
  | .ext _ => absolutePath path.bytes

/-- The size of the regular file with a name, the first half of each branch of
`read_file_into_mem`. -/
def fileSize (fuel : ℕ) (name : List UInt8) : PeanutVolume → BlockM (Option ℕ)
  | .fat32 v => do
    match ← Fat.fat32FindRoot fuel v name with
    | none => pure none
    | some e => pure (if e.attributes &&& Fat.attrDirectory ≠ 0 then none else some e.size)
  | .exfat v => do
    match ← Exfat.exfatFindRoot fuel v name with
    | none => pure none
    | some e =>
      pure (if e.attributes &&& Exfat.attrDirectory ≠ 0 then none
        else if 0xFFFFFFFF < e.size then none else some e.size)
  | .ext v => do
    match ← Ext.extfsStat fuel v name with
    | none => pure none
    | some (size, isDir) =>
      pure (if isDir then none else if 0xFFFFFFFF < size then none else some size)

def readFile (fuel : ℕ) (name : List UInt8) (size : ℕ) :
    PeanutVolume → BlockM (Option (List UInt8))
  | .fat32 v => Fat.fat32ReadFile fuel v name size
  | .exfat v => Exfat.exfatReadFile fuel v name size
  | .ext v => Ext.extfsReadFile fuel v name size

/-- The path `SYS_CLOSE` writes to, of the one stored in the descriptor; `none` on a FAT volume, for
which it has no branch. -/
def writeName (path : List UInt8) : PeanutVolume → Option (List UInt8)
  | .fat32 _ => none
  | .exfat _ => fsPathToFatName (cptr path) 160
  | .ext _ => some (absolutePath (cptr path).bytes)

def isExfat : PeanutVolume → Bool
  | .exfat _ => true
  | _ => false

/-- What `SYS_CLOSE` does with a dirty buffer. -/
def writeBack (fuel : ℕ) (path data : List UInt8) (m : Medium) (vol : PeanutVolume) :
    Option Written :=
  match vol, vol.writeName path with
  | .exfat v, some name => Exfat.exfatWriteFile fuel v name data m
  | .ext v, some name => Ext.extfsWriteFile fuel v name data m
  | _, _ => some ⟨-1, m, []⟩

end PeanutVolume

end Volumes

/-- What `hdmi_status` returns, a string in an array of 128 bytes. -/
structure HdmiStatus where
  text : List UInt8
  short : text.length < 128

structure Kernel (N : ℕ) where
  fds : FdTable
  lastErrno : ℕ
  userBrkEnd : ℕ
  heap : Heap
  sched : Sched N
  medium : Medium
  root : Option PeanutVolume
  devMounted : Bool
  hdmiStatus : HdmiStatus
  /-- The address of `user_brk_arena`. -/
  userBrkArena : ℕ

/-- How a call ends: with a value, with the processor in a new image, or in `kpanic`. -/
inductive Ret
  | value (v : UInt64)
  | enters
  | panics
  deriving DecidableEq, Repr

/-- What a call does beside changing the kernel: how it ends, the bytes it stores from `arg2` on and
the characters it prints. -/
structure SysResult where
  ret : Ret
  stored : List UInt8
  printed : List UInt8
  deriving DecidableEq, Repr

variable {N : ℕ}

section Calls

variable (fuel : ℕ) (env : CallEnv) (k : Kernel N)

def done (v : UInt64) : SysResult × Kernel N := (⟨.value v, [], []⟩, k)

/-- `last_errno = errno; return (uint64_t)-1;` -/
def fail (errno : ℕ) : SysResult × Kernel N :=
  (⟨.value (-1), [], []⟩, { k with lastErrno := errno })

/-- The descriptor an argument names as a `uint64_t`, if it is in use. -/
def usedFd (arg : UInt64) : Option (Fin fdMax) :=
  if h : arg.toNat < fdMax then if (k.fds ⟨arg.toNat, h⟩).used then some ⟨arg.toNat, h⟩ else none
  else none

/-- The descriptor an argument names as an `int`, if it is a socket. -/
def socketFd (arg : UInt64) : Option (Fin fdMax) :=
  if h : arg.toNat % 2 ^ 32 < fdMax then
    if (k.fds ⟨_, h⟩).used ∧ (k.fds ⟨_, h⟩).isSocket then some ⟨_, h⟩ else none
  else none

def setFd (i : Fin fdMax) (f : Fd) : Kernel N := { k with fds := Function.update k.fds i f }

/-- The cast of an argument to `int`. -/
def toInt (arg : UInt64) : ℤ := Int.bmod arg.toNat (2 ^ 32)

/-- The bytes a transfer of up to `count` at the offset of a descriptor moves. -/
def takeOf (f : Fd) (count : UInt64) : ℕ :=
  if count.toNat % 2 ^ 32 < f.size - f.off then count.toNat % 2 ^ 32 else f.size - f.off

/-- The byte at an index of a descriptor's buffer. -/
def dataByte (f : Fd) (i : ℕ) : UInt8 :=
  match f.data with
  | none => (env.ptr 0).bytes i
  | some p => (k.heap.bytes p).getD i 0

def sysRead (arg1 arg2 arg3 : UInt64) : SysResult × Kernel N :=
  match usedFd k arg1 with
  | none => fail k 2
  | some i =>
    let f := k.fds i
    if f.isPseudo then
      match vfsPseudoPread k.devMounted k.hdmiStatus.text env.dev (cptr f.path) f.off (env.ptr arg2)
        (arg3.toNat % 2 ^ 32) with
      | none => fail k 1
      | some bytes =>
        (⟨.value (UInt64.ofNat (bytes.length % 2 ^ 32)), bytes, []⟩,
          setFd k i { f with off := (f.off + bytes.length) % 2 ^ 32 })
    else if f.size ≤ f.off then done k 0
    else
      let take := takeOf f arg3
      (⟨.value (UInt64.ofNat take), bytesOf (fun j => dataByte env k f (f.off + j)) take, []⟩,
        setFd k i { f with off := f.off + take })

/-- The bytes `data` stored into `l` from index `off` on. -/
def overwrite (l : List UInt8) (off : ℕ) (data : List UInt8) : List UInt8 :=
  l.take off ++ data ++ l.drop (off + data.length)

def sysWrite (arg1 arg2 arg3 : UInt64) : Option (SysResult × Kernel N) :=
  match usedFd k arg1 with
  | some i =>
    let f := k.fds i
    if f.isPseudo then some (fail k 8)
    else match f.data with
      | none => some (fail k 9)
      | some p =>
        if f.size ≤ f.off then some (done k 0)
        else
          let take := takeOf f arg3
          let data := overwrite (k.heap.bytes p) f.off (bytesOf (env.ptr arg2).bytes take)
          let k := { k with heap := k.heap.store p data }
          some (⟨.value (UInt64.ofNat take), [], []⟩,
            setFd k i { f with off := f.off + take, dirty := true })
  | none =>
    if arg1 = 1 ∨ arg1 = 2 then
      (kprint fuel (env.ptr arg2).bytes).map fun text => (⟨.value 0, [], text⟩, k)
    else some (fail k 10)

def sysFork (userRip userRsp userFlags : UInt64) : SysResult × Kernel N :=
  let r := schedForkCurrent k.sched userRip userRsp userFlags
  if r.1 < 0 then fail { k with sched := r.2 } 12
  else done { k with sched := r.2 } (UInt64.ofNat r.1.toNat)

def userBrkArenaBytes : ℕ := 256 * 1024

/-- `SYS_BRK` is `handle_brk`, which leaves the error number alone. -/
def handleBrk (addr : UInt64) : SysResult × Kernel N :=
  if addr = 0 then done k (UInt64.ofNat k.userBrkEnd)
  else if addr.toNat < k.userBrkArena ∨ k.userBrkArena + userBrkArenaBytes < addr.toNat then
    done k (-1)
  else done { k with userBrkEnd := addr.toNat } addr

/-- The heap, and the block with the file in it and its size. -/
def readFileIntoMem (path : CPtr) : Option (Heap × Option (ℕ × ℕ)) :=
  match k.root with
  | none => some (k.heap, none)
  | some vol =>
    if vfsIsPseudoPath path then some (k.heap, none)
    else
      let name := vol.openName env path
      match (vol.fileSize fuel name).run k.medium.read with
      | none => none
      | some none => some (k.heap, none)
      | some (some size) =>
        if env.kallocFails then some (k.heap, none)
        else
          let (buf, heap) := k.heap.kalloc (bytesOf env.fresh size)
          match (vol.readFile fuel name size).run k.medium.read with
          | none => none
          | some none => some (heap.kfree buf, none)
          | some (some data) =>
            if data.length ≠ size then some (heap.kfree buf, none)
            else some (heap.store buf data, some (buf, size))

def sysOpen (arg1 : UInt64) : Option (SysResult × Kernel N) :=
  match allocFd k.fds with
  | none => some (fail k 3)
  | some (fd, fds) =>
    let path := env.ptr arg1
    if vfsIsPseudoPath path then
      some (done (setFd { k with fds := fds } fd
        { fds fd with isPseudo := true, dirty := false, path := kstrcpy path.bytes 160 })
        (UInt64.ofNat fd.val))
    else
      let f := { fds fd with isPseudo := false, dirty := false, path := kstrcpy path.bytes 160 }
      match readFileIntoMem fuel env k path with
      | none => none
      | some (heap, none) =>
        some (fail (setFd { k with fds := fds, heap := heap } fd { f with used := false }) 4)
      | some (heap, some (mem, sz)) =>
        some (done (setFd { k with fds := fds, heap := heap } fd
          { f with data := some mem, size := sz, off := 0 }) (UInt64.ofNat fd.val))

/-- The flush of a dirty descriptor with its buffer at `p`. -/
def flush (f : Fd) (p : ℕ) : Option (Kernel N) :=
  if f.dirty ∧ f.path ≠ [] then
    match k.root with
    | none => some k
    | some vol =>
      (vol.writeBack fuel f.path ((k.heap.bytes p).take f.size) k.medium).map fun w =>
        { k with medium := w.medium, lastErrno := if w.ret ≠ (0 : ℤ) then 11 else k.lastErrno }
  else some k

def sysClose (arg1 : UInt64) : Option (SysResult × Kernel N) :=
  match usedFd k arg1 with
  | none => some (fail k 5)
  | some i =>
    let f := k.fds i
    match f.isPseudo, f.data with
    | false, some p =>
      (flush fuel k f p).map fun k =>
        done (setFd { k with heap := k.heap.kfree p } i { f with used := false }) 0
    | _, _ => some (done (setFd k i { f with used := false }) 0)

/-- A successful exec does not come back: `jump_to_ring3` enters the image, or panics on a full
process table. -/
def sysExec (arg1 arg2 arg3 : UInt64) : SysResult × Kernel N :=
  if k.root.isNone then fail k 6
  else if arg1 = 0 then fail k 7
  else
    let pathBuf := copyUserCstr (env.ptr arg1) 160
    let argv0Buf := copyUserCstr (env.ptr arg2) 160
    let argv1Buf := copyUserCstr (env.ptr arg3) 160
    match env.loader pathBuf (if argv0Buf ≠ [] then argv0Buf else pathBuf)
      (if argv1Buf ≠ [] then some argv1Buf else none) with
    | none => done k (-1)
    | some (entry, rsp) =>
      match jumpToRing3 k.sched entry rsp with
      | none =>
        (⟨.panics, [], kpanic (ascii "[Peanut kernel - panic - could not create init process]")⟩, k)
      | some sched => (⟨.enters, [], []⟩, { k with sched := sched })

def sysKill (arg1 arg2 : UInt64) : SysResult × Kernel N :=
  let r := schedKill k.sched (toInt arg1) (toInt arg2)
  if r.1 ≠ 0 then fail { k with sched := r.2 } 13 else done { k with sched := r.2 } 0

def sysExit (arg1 : UInt64) : SysResult × Kernel N :=
  (⟨.panics, [], ascii "\n[Process exited with code: " ++ kprintInt arg1 ++ ascii "]\n"
    ++ kpanic (ascii "[Peanut kernel - panic - Attempted to kill init!]")⟩, k)

/-- The slot `SYS_SOCKET` and `SYS_ACCEPT` fill: a socket with a buffer of 4096 bytes. -/
def openSocket (fd : Fin fdMax) (fds : FdTable) (domain type protocol : ℤ) :
    SysResult × Kernel N :=
  let (buf, heap) := k.heap.kalloc (bytesOf env.fresh 4096)
  let f := { fds fd with
    isSocket := true
    socketDomain := domain
    socketType := type
    socketProtocol := protocol
    size := 4096 }
  if env.kallocFails then
    done (setFd { k with fds := fds } fd { f with data := none }) (UInt64.ofNat fd.val)
  else
    done (setFd { k with fds := fds, heap := heap } fd { f with data := some buf })
      (UInt64.ofNat fd.val)

def sysSocket (arg1 arg2 arg3 : UInt64) : SysResult × Kernel N :=
  match allocFd k.fds with
  | none => fail k 20
  | some (fd, fds) => openSocket env k fd fds (toInt arg1) (toInt arg2) (toInt arg3)

def sysAccept (arg1 : UInt64) : SysResult × Kernel N :=
  match socketFd k arg1 with
  | none => fail k 23
  | some sockfd =>
    match allocFd k.fds with
    | none => fail k 20
    | some (newfd, fds) =>
      openSocket env k newfd fds (fds sockfd).socketDomain (fds sockfd).socketType
        (fds sockfd).socketProtocol

/-- `SYS_BIND`, `SYS_LISTEN`, `SYS_CONNECT` and `SYS_RECV`, which only look at the descriptor. -/
def onSocket (errno : ℕ) (arg1 : UInt64) : SysResult × Kernel N :=
  match socketFd k arg1 with
  | none => fail k errno
  | some _ => done k 0

def sysSend (arg1 arg3 : UInt64) : SysResult × Kernel N :=
  match socketFd k arg1 with
  | none => fail k 25
  | some _ => if env.canSend then done k arg3 else done k (-1)

def unknownSyscall (num : UInt64) : SysResult × Kernel N :=
  (⟨.value (-1), [], ascii "Unknown syscall: " ++ kprintInt num ++ ascii "\n"⟩, k)

end Calls

/-- The registers of a system call. -/
structure Call where
  num : UInt64
  arg1 : UInt64
  arg2 : UInt64
  arg3 : UInt64
  userRip : UInt64
  userRsp : UInt64
  userFlags : UInt64

def sysErrno : UInt64 := 4

def syscallHandler (fuel : ℕ) (env : CallEnv) (k : Kernel N) (c : Call) :
    Option (SysResult × Kernel N) :=
  let k := { k with lastErrno := 0 }
  match c.num.toNat with
  | 0 => some (sysRead env k c.arg1 c.arg2 c.arg3)
  | 1 => sysWrite fuel env k c.arg1 c.arg2 c.arg3
  | 2 => sysOpen fuel env k c.arg1
  | 3 => sysClose fuel k c.arg1
  | 4 => some (done k (UInt64.ofNat k.lastErrno))
  | 12 => some (handleBrk k c.arg1)
  | 24 => some (done k 0)
  | 41 => some (sysSocket env k c.arg1 c.arg2 c.arg3)
  | 42 => some (onSocket k 24 c.arg1)
  | 43 => some (sysAccept env k c.arg1)
  | 44 => some (sysSend env k c.arg1 c.arg3)
  | 45 => some (onSocket k 26 c.arg1)
  | 49 => some (onSocket k 21 c.arg1)
  | 50 => some (onSocket k 22 c.arg1)
  | 56 => some (fail k 27)
  | 57 => some (sysFork k c.userRip c.userRsp c.userFlags)
  | 59 => some (sysExec env k c.arg1 c.arg2 c.arg3)
  | 60 => some (sysExit k c.arg1)
  | 62 => some (sysKill k c.arg1 c.arg2)
  | _ => some (unknownSyscall k c.num)

/-- `SYS_WRITE` on a descriptor prints whatever string it is given, returns 0 and changes neither a
descriptor nor a buffer. -/
def IsConsole (k : Kernel N) (fd : UInt64) : Prop :=
  ∀ (env : CallEnv) (c : Call) (text : List UInt8) (fuel : ℕ), c.num = 1 → c.arg1 = fd →
    IsString (env.ptr c.arg2).bytes text → text.length ≤ fuel →
    ∃ k', syscallHandler fuel env k c = some (⟨.value 0, [], text⟩, k') ∧
      k'.fds = k.fds ∧ k'.heap = k.heap

section Runs

/-- What happens to the kernel from outside: a call, or a change of the disk or of what it can
transfer. -/
inductive KernelEvent
  | call (env : CallEnv) (c : Call)
  | device (m : Medium)

/-- The kernel after an event, `none` once it has panicked or a call does not end. -/
def Kernel.step (fuel : ℕ) (k : Kernel N) : KernelEvent → Option (Kernel N)
  | .call env c =>
    match syscallHandler fuel env k c with
    | none => none
    | some (r, k') => if r.ret = .panics then none else some k'
  | .device m => some { k with medium := m }

def Kernel.after (fuel : ℕ) (k : Kernel N) (events : List KernelEvent) : Option (Kernel N) :=
  events.foldlM (Kernel.step fuel) k

/-- A call ended with `r`, having left the error number `left`, and then `SYS_ERRNO` returned
`errno`: an error if the call failed, and 0 if it succeeded and noted none. -/
def ErrnoReports (r : SysResult) (left : ℕ) (errno : UInt64) : Prop :=
  (r.ret = .value (-1) → errno ≠ 0) ∧ (r.ret ≠ .value (-1) ∧ left = 0 → errno = 0)

/-- `kalloc` hands out a fresh block whenever the call asks for one. -/
def KernelEvent.KallocWorks : KernelEvent → Prop
  | .call env _ => env.kallocFails = false
  | .device _ => True

/-- No descriptor is in use and no buffer allocated. -/
def Kernel.Fresh (k : Kernel N) : Prop :=
  k.fds = (fun _ => zeroFd) ∧ k.heap = ⟨0, fun _ => none, []⟩

/-- The kernel as `kmain` enters the first process, with its root volume mounted. -/
def Kernel.boot (sched : Sched N) (medium : Medium) (root : PeanutVolume)
    (hdmiStatus : HdmiStatus) (userBrkArena : ℕ) : Kernel N where
  fds := fun _ => zeroFd
  lastErrno := 0
  userBrkEnd := userBrkArena
  heap := ⟨0, fun _ => none, []⟩
  sched := sched
  medium := medium
  root := some root
  devMounted := true
  hdmiStatus := hdmiStatus
  userBrkArena := userBrkArena

end Runs

end PeanutKernel
