import PeanutKernel.Entropy
import PeanutKernel.Vfs

/-!
# The PS/2 controller

The polling functions of `drivers/input/ps2.c` and the two branches of `devtmpfs_pread` that call
them. The controller hands its bytes out one by one from a queue, each with the port it came in by,
which is bit 5 of the status. A byte that is not taken stays at the head of the queue.

`bytes` and `pos` are the static variables of `ps2_poll_mouse_packet`. What is read from a device is
mixed into the entropy pool.
-/

namespace PeanutKernel

namespace Ps2

inductive Port
  | keyboard
  | mouse
  deriving DecidableEq, Repr

structure Controller where
  queue : List (Port × UInt8)
  bytes : Fin 3 → UInt8
  pos : Fin 3

abbrev Packet := UInt8 × UInt8 × UInt8

def scancodeMap : List UInt8 :=
  [0, 0] ++ ascii "1234567890-=" ++ [0, 0]
    ++ ascii "qwertyuiop[]\n" ++ [0]
    ++ ascii "asdfghjkl;'`" ++ [0] ++ ascii "\\"
    ++ ascii "zxcvbnm,./" ++ [0] ++ ascii "*" ++ [0] ++ ascii " "

def scancodeToChar (scancode : UInt8) : UInt8 :=
  if scancode &&& 0x80 ≠ 0 then 0
  else if scancode.toNat < scancodeMap.length then scancodeMap.getD scancode.toNat 0
  else 0

section Polling

variable (s : Controller)

def ps2PollChar : Option UInt8 × Controller :=
  match s.queue with
  | (.keyboard, scancode) :: queue =>
    let c := scancodeToChar scancode
    (if c = 0 then none else some c, { s with queue := queue })
  | _ => (none, s)

def ps2PollMousePacket : Option Packet × Controller :=
  match s.queue with
  | (.mouse, b) :: queue =>
    if s.pos = 0 ∧ b &&& 0x08 = 0 then (none, { s with queue := queue })
    else
      let bytes := Function.update s.bytes s.pos b
      if h : s.pos.val + 1 < 3 then (none, ⟨queue, bytes, ⟨s.pos.val + 1, h⟩⟩)
      else (some (bytes 0, bytes 1, bytes 2), ⟨queue, bytes, 0⟩)
  | _ => (none, s)

theorem ps2PollMousePacket_length {s s' : Controller} {p : Packet}
    (h : ps2PollMousePacket s = (some p, s')) : s'.queue.length < s.queue.length := by
  unfold ps2PollMousePacket at h
  split at h
  · rename_i b queue hqueue
    split_ifs at h <;> simp_all
    simp [← h.2]
  · simp at h

end Polling

section Reading

/-- What a read of the two device files changes. -/
structure Devices where
  ps2 : Controller
  entropy : Entropy.Word

/-- The loop for `/dev/kbd` with `got` characters stored and room for `left` more; what it stores,
and the devices after it. -/
def kbdLoop : ℕ → ℕ → Devices → List UInt8 × Devices
  | 0, _, d => ([], d)
  | left + 1, got, d =>
    match ps2PollChar d.ps2 with
    | (none, ps2) => ([], { d with ps2 := ps2 })
    | (some c, ps2) =>
      let value : Entropy.Word := (BitVec.ofNat 64 c.toNat <<< 32) ^^^ BitVec.ofNat 64 (got + 1)
      let (chars, d) := kbdLoop left (got + 1) ⟨ps2, Entropy.entropyMix d.entropy value⟩
      (c :: chars, d)

/-- The loop for `/dev/mouse` with `got` bytes stored. -/
def mousePacketLoop (len got : ℕ) (d : Devices) : List UInt8 × Devices :=
  if (got + 3) % 2 ^ 32 ≤ len then
    match h : ps2PollMousePacket d.ps2 with
    | (none, ps2) => ([], { d with ps2 := ps2 })
    | (some (a, b, c), ps2) =>
      have := ps2PollMousePacket_length h
      let value : Entropy.Word :=
        (BitVec.ofNat 64 a.toNat <<< 16) ||| (BitVec.ofNat 64 b.toNat <<< 8)
          ||| BitVec.ofNat 64 c.toNat
      let (bytes, d') := mousePacketLoop len (got + 3) ⟨ps2, Entropy.entropyMix d.entropy value⟩
      (a :: b :: c :: bytes, d')
  else ([], d)
termination_by d.ps2.queue.length

/-- `devtmpfs_pread` of `/dev/kbd`. -/
def readKbd (len : ℕ) (d : Devices) : List UInt8 × Devices := kbdLoop len 0 d

/-- `devtmpfs_pread` of `/dev/mouse`. -/
def readMouse (len : ℕ) (d : Devices) : List UInt8 × Devices := mousePacketLoop len 0 d

end Reading

section Runs

/-- A byte comes in, or one of the device files is read. -/
inductive Event
  | arrive (port : Port) (b : UInt8)
  | readKbd (len : ℕ)
  | readMouse (len : ℕ)

/-- The devices, and what has been read from each of the two files. -/
structure Streams where
  devices : Devices
  kbd : List UInt8
  mouse : List UInt8

def Streams.boot (queue : List (Port × UInt8)) (entropy : Entropy.Word) : Streams :=
  ⟨⟨⟨queue, fun _ => 0, 0⟩, entropy⟩, [], []⟩

def Streams.step (s : Streams) : Event → Streams
  | .arrive port b =>
    { s with devices :=
      { s.devices with ps2 :=
        { s.devices.ps2 with queue := s.devices.ps2.queue ++ [(port, b)] } } }
  | .readKbd len =>
    let (chars, devices) := Ps2.readKbd len s.devices
    { s with devices := devices, kbd := s.kbd ++ chars }
  | .readMouse len =>
    let (bytes, devices) := Ps2.readMouse len s.devices
    { s with devices := devices, mouse := s.mouse ++ bytes }

/-- The bytes that come in. -/
def arrivals : List Event → List (Port × UInt8)
  | [] => []
  | .arrive port b :: events => (port, b) :: arrivals events
  | _ :: events => arrivals events

end Runs

section Packets

/-- The bytes of one port, in order. -/
def sentBy (port : Port) (l : List (Port × UInt8)) : List UInt8 :=
  (l.filter fun x => x.1 = port).map Prod.snd

/-- The packets in a sequence of mouse bytes: a byte without bit 3 does not start one. -/
def packets : List UInt8 → List Packet
  | b :: c :: d :: rest =>
    if b &&& 0x08 = 0 then packets (c :: d :: rest) else (b, c, d) :: packets rest
  | _ => []

def Packet.bytes : Packet → List UInt8
  | (a, b, c) => [a, b, c]

/-- The bytes of a packet that wait for the rest of it. -/
def held (s : Controller) : List UInt8 := [s.bytes 0, s.bytes 1, s.bytes 2].take s.pos

/-- A packet that has been started was started by a byte with bit 3. -/
def Aligned (s : Controller) : Prop := s.pos ≠ 0 → s.bytes 0 &&& 0x08 ≠ 0

/-- The character of a keyboard byte, if it has one. -/
def typed (scancode : UInt8) : Option UInt8 :=
  if scancodeToChar scancode = 0 then none else some (scancodeToChar scancode)

end Packets

end Ps2

end PeanutKernel
