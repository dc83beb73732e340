import PeanutKernel.Lib.Runs
import PeanutKernel.Syscall

/-!
# Open files as cursors

What an open file is for: a byte array of a fixed length, filled when it is opened, and a position
in it. `SYS_READ` and `SYS_WRITE` move as many bytes as asked for and as there are left, at the
position, which moves on by as many. The kernel's descriptors are compared with this; a text pseudo
file is compared with its text.
-/

namespace PeanutKernel

structure Cursor where
  bytes : List UInt8
  off : ℕ
  deriving DecidableEq, Repr

/-- The bytes a call with a count moves. -/
def Cursor.amount (c : Cursor) (count : UInt64) : ℕ :=
  min (count.toNat % 2 ^ 32) (c.bytes.length - c.off)

abbrev Cursors := Fin fdMax → Option Cursor

/-- `SYS_READ` and `SYS_WRITE` on a cursor; `none` for any other call. -/
def Cursors.step (cs : Cursors) (e : CallEnv × Call) : Option (SysResult × Cursors) :=
  if h : e.2.arg1.toNat < fdMax then
    match cs ⟨e.2.arg1.toNat, h⟩ with
    | none => none
    | some c =>
      let t := c.amount e.2.arg3
      if e.2.num = 0 then
        some (⟨.value (UInt64.ofNat t), (c.bytes.drop c.off).take t, []⟩,
          Function.update cs ⟨e.2.arg1.toNat, h⟩ (some { c with off := c.off + t }))
      else if e.2.num = 1 then
        some (⟨.value (UInt64.ofNat t), [], []⟩,
          Function.update cs ⟨e.2.arg1.toNat, h⟩
            (some ⟨overwrite c.bytes c.off (bytesOf (e.1.ptr e.2.arg2).bytes t), c.off + t⟩))
      else none
  else none

variable {N : ℕ}

/-- The cursors the open regular files of a kernel are. -/
def Kernel.cursors (k : Kernel N) : Cursors := fun i =>
  if (k.fds i).used ∧ (k.fds i).isPseudo = false ∧ (k.fds i).isSocket = false then
    (k.fds i).data.map fun p => ⟨k.heap.bytes p, (k.fds i).off⟩
  else none

/-- The kernel's answer to a call. -/
def Kernel.answer (fuel : ℕ) (k : Kernel N) (e : CallEnv × Call) : Option (SysResult × Kernel N) :=
  syscallHandler fuel e.1 k e.2

/-- The text pseudo files and their texts. -/
def textFiles (hdmiStatus : HdmiStatus) : List (List UInt8 × List UInt8) :=
  [(ascii "/proc/version", procVersionText), (ascii "/sys/kernel/name", kernelNameText),
    (ascii "/sys/devices/hdmi", hdmiStatus.text), (ascii "/etc/passwd", passwdText),
    (ascii "/etc/fstab", fstabText), (ascii "/dev", devText), (ascii "/dev/fstab", fstabText)]

/-- The bytes a `SYS_READ` asks for; without a buffer it fails. -/
def wanted (c : Call) : ℕ := if c.arg2 = 0 then 0 else c.arg3.toNat % 2 ^ 32

end PeanutKernel
