import PeanutKernel.Block
import PeanutKernel.Lib.Runs

/-!
# The E1000 driver

`e1000_init`, `e1000_send` and `e1000_recv` of `drivers/net/e1000.c`, once a device was found and
the blocks for descriptors and buffers were allocated. Descriptors are kept apart from the memory
that holds the buffers; their fields `cso`, `css` and `special` are not read.

The receive ring is shared with the card. It may store a frame while `RDH` differs from `RDT`, and
it does so between any two accesses of the driver: `e1000_recv` is a program counter, and one step
of it is one access to a register or a descriptor, or the call of the callback.
-/

namespace PeanutKernel

namespace E1000

def rxDescCount : ℕ := 128

def txDescCount : ℕ := 128

def bufferBytes : ℕ := 2048

structure Desc where
  addr : ℕ
  length : ℕ
  cmd : UInt8
  status : UInt8
  deriving Repr

/-- `status & 0x01` -/
def Desc.done (desc : Desc) : Bool := desc.status.toNat % 2 = 1

/-- What the card sets in a descriptor it is done with. -/
def doneBit : UInt8 := 0x01

/-- The loop that copies a byte at a time. -/
def copyBytes (dst : ℕ) (data : Buf) (n : ℕ) (mem : Buf) : Buf :=
  (List.range n).foldl (fun mem i => Function.update mem (dst + i) (data i)) mem

section Transmit

structure Tx where
  mem : Buf
  descs : ℕ → Desc
  txIndex : ℕ
  tdt : ℕ

/-- The transmit part of `e1000_init`. `old` is what the block of descriptors held. -/
def Tx.init (txBuffers : ℕ) (old : ℕ → Desc) (mem : Buf) : Tx where
  mem := mem
  descs i := { old i with addr := txBuffers + i * bufferBytes, status := 1 }
  txIndex := 0
  tdt := 0

/-- A descriptor and its buffer when `TDT` moves past it. -/
structure Handed where
  length : ℕ
  buffer : Buf

/-- The call returns once the card has set the done bit. -/
def e1000Send (s : Tx) (data : Buf) (len : ℕ) : Handed × Tx :=
  let desc := s.descs s.txIndex
  let mem := copyBytes desc.addr data (min len 1518) s.mem
  let desc := { desc with length := len % 2 ^ 16, cmd := 0x0B, status := 0 }
  let txIndex := (s.txIndex + 1) % txDescCount
  (⟨desc.length, fun i => mem (desc.addr + i)⟩,
    { mem := mem
      descs := Function.update s.descs s.txIndex { desc with status := desc.status ||| doneBit }
      txIndex := txIndex
      tdt := txIndex })

/-- A call: the caller's bytes and `len`. -/
abbrev Send := Buf × ℕ

def Tx.step (s : Tx) (call : Send) : Tx := (e1000Send s call.1 call.2).2

/-- Only bytes of the caller are sent: those in the buffer are the first of the call's data. -/
def OwnBytes (h : Handed) (call : Send) : Prop :=
  h.length ≤ call.2 ∧ h.length ≤ bufferBytes ∧ ∀ i < h.length, h.buffer i = call.1 i

end Transmit

section Receive

/-- A frame as it comes from the wire; one that fits the buffers. -/
structure Frame where
  bytes : List UInt8
  fits : bytes.length ≤ bufferBytes

/-- Where `e1000_recv` is, with its variable `rdt`. -/
inductive Pc
  | idle
  | readRdh (rdt : ℕ)
  | testStatus (rdt : ℕ)
  | callback (rdt : ℕ)
  | resetStatus (rdt : ℕ)
  | writeRdt (rdt : ℕ)
  deriving DecidableEq, Repr

/-- The ring, the registers and the driver, with the frames the card has stored and those the
callback was given so far. -/
structure Rx where
  mem : Buf
  descs : ℕ → Desc
  rdh : ℕ
  rdt : ℕ
  pc : Pc
  stored : List (List UInt8)
  passed : List (List UInt8)

/-- The receive part of `e1000_init`. `old` is what the block of descriptors held. -/
def Rx.init (rxBuffers : ℕ) (old : ℕ → Desc) (mem : Buf) : Rx where
  mem := mem
  descs i := { old i with addr := rxBuffers + i * bufferBytes, status := 0 }
  rdh := 0
  rdt := rxDescCount - 1
  pc := .idle
  stored := []
  passed := []

/-- The card stores a frame in the descriptor `RDH`; it drops it if it owns none. -/
def Rx.store (s : Rx) (f : Frame) : Rx :=
  if s.rdh = s.rdt then s
  else
    let desc := s.descs s.rdh
    { s with
      mem := copyBytes desc.addr (f.bytes.getD · 0) f.bytes.length s.mem
      descs := Function.update s.descs s.rdh
        { desc with length := f.bytes.length, status := desc.status ||| doneBit }
      rdh := (s.rdh + 1) % rxDescCount
      stored := s.stored ++ [f.bytes] }

/-- What the callback is given for a descriptor. -/
def frameIn (mem : Buf) (desc : Desc) : List UInt8 :=
  (List.range desc.length).map fun i => mem (desc.addr + i)

/-- The next access of `e1000_recv`; the driver that is `idle` calls it. -/
def Rx.recv (s : Rx) : Rx :=
  match s.pc with
  | .idle => { s with pc := .readRdh s.rdt }
  | .readRdh rdt => { s with pc := if rdt ≠ s.rdh then .testStatus rdt else .idle }
  | .testStatus rdt =>
    { s with pc := if (s.descs rdt).done then .callback rdt else .writeRdt rdt }
  | .callback rdt =>
    { s with passed := s.passed ++ [frameIn s.mem (s.descs rdt)], pc := .resetStatus rdt }
  | .resetStatus rdt =>
    { s with
      descs := Function.update s.descs rdt { s.descs rdt with status := 0 }
      pc := .writeRdt rdt }
  | .writeRdt rdt =>
    { s with rdt := (rdt + 1) % rxDescCount, pc := .readRdh ((rdt + 1) % rxDescCount) }

inductive Event
  | store (f : Frame)
  | recv

def Rx.step (s : Rx) : Event → Rx
  | .store f => s.store f
  | .recv => s.recv

/-- With this step `e1000_recv` returns. -/
def Returns (s : Rx) : Event → Prop
  | .store _ => False
  | .recv => s.pc = .readRdh s.rdh

/-- What a step keeps if the ring loses nothing: the callback is given the frames in the order of
their arrival, each once, and when `e1000_recv` returns it has been given all of them and the card
owns a free descriptor. -/
def LosesNothing (s : Rx) (e : Event) : Prop :=
  (s.step e).passed <+: (s.step e).stored ∧
    (Returns s e → (s.step e).passed = (s.step e).stored ∧ (s.step e).rdh ≠ (s.step e).rdt)

end Receive

end E1000

end PeanutKernel
