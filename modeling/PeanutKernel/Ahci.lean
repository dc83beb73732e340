import Mathlib.Algebra.Ring.Nat
import PeanutKernel.Alloc
import PeanutKernel.Lib.Serve

/-!
# The AHCI driver

`ahci_transfer` of `drivers/block/ahci.c` and the part of `ahci_init` that sets a port up, over the
port of a host bus adapter with a disk behind it. The driver stores to memory and to the registers
of the port; a command is taken from memory when a poll of `ci` finds it has been in progress long
enough. How long that is, and what the port answers to a read of `tfd`, may be anything.

An `AhciPortData` is at `pd`: the command list at offset 1024, the received FIS at 2048, and the
command table at 2304.
-/

namespace PeanutKernel

namespace Ahci

open Alloc (storeLe)

inductive PortReg
  | clb
  | clbu
  | fb
  | fbu
  | is
  | cmd
  | tfd
  | serr
  | ci
  deriving DecidableEq, Repr

/-- An access of the driver: a store of so many bytes, an assignment to the bits of a byte that are
set in `mask`, and reads and writes of the registers. -/
inductive Access
  | store (bytes a value : ℕ)
  | setBits (a : ℕ) (mask value : UInt8)
  | readReg (r : PortReg)
  | writeReg (r : PortReg) (value : BitVec 32)
  deriving DecidableEq, Repr

abbrev AhciM := Query Access (BitVec 32)

section Driver

def commandListOff : ℕ := 1024

def fisAreaOff : ℕ := 2048

def commandTableOff : ℕ := 2304

def portDataBytes : ℕ := 3072

def commandTableBytes : ℕ := 144

def memzero (ptr len : ℕ) : List Access := (List.range len).map fun i => .store 1 (ptr + i) 0

def readReg (r : PortReg) : AhciM (BitVec 32) := .ask (.readReg r) pure

def fisTypeRegH2D : ℕ := 0x27

def ataCmdReadDmaExt : ℕ := 0x25

def ataCmdWriteDmaExt : ℕ := 0x35

/-- The fields of the command header. -/
def buildHeader (pd : ℕ) (write : Bool) : List Access :=
  let header := pd + commandListOff
  [.setBits header 0x1F 5,
    .setBits header 0x40 (if write then 0x40 else 0),
    .store 2 (header + 2) 1,
    .store 4 (header + 8) (pd + commandTableOff),
    .store 4 (header + 12) 0]

/-- The one entry of the table of regions. -/
def buildPrdt (pd count buffer : ℕ) : List Access :=
  let entry := pd + commandTableOff + 128
  [.store 4 entry buffer, .store 4 (entry + 4) 0, .store 4 (entry + 12) (count * 512 - 1)]

/-- The command itself. Each field takes the low byte of its value. -/
def buildFis (pd lba count : ℕ) (write : Bool) : List Access :=
  let fis := pd + commandTableOff
  [.store 1 fis fisTypeRegH2D,
    .setBits (fis + 1) 0x80 0x80,
    .store 1 (fis + 2) (if write then ataCmdWriteDmaExt else ataCmdReadDmaExt),
    .store 1 (fis + 7) (1 <<< 6),
    .store 1 (fis + 4) lba,
    .store 1 (fis + 5) (lba >>> 8),
    .store 1 (fis + 6) (lba >>> 16),
    .store 1 (fis + 8) (lba >>> 24),
    .store 1 (fis + 9) (lba >>> 32),
    .store 1 (fis + 10) (lba >>> 40),
    .store 1 (fis + 12) count,
    .store 1 (fis + 13) (count >>> 8)]

/-- The wait for the drive, with so many tries left. -/
def waitIdle : ℕ → AhciM Bool
  | 0 => pure false
  | n + 1 => do
    let tfd ← readReg .tfd
    if tfd &&& 0x88#32 = 0 then pure true else waitIdle n

/-- The endless loop, `fuel` rounds of it. -/
def waitDone : ℕ → AhciM Bool
  | 0 => .diverge
  | fuel + 1 => do
    let ci ← readReg .ci
    let is ← readReg .is
    if ci &&& 1#32 = 0 then pure (is &&& 1#32 <<< 30 = 0)
    else if is &&& 1#32 <<< 30 ≠ 0 then pure false
    else waitDone fuel

/-- The stores that build a command. -/
def buildCommand (pd lba count buffer : ℕ) (write : Bool) : List Access :=
  memzero (pd + commandTableOff) commandTableBytes ++ buildHeader pd write
    ++ buildPrdt pd count buffer ++ buildFis pd lba count write

/-- `true` is the return value 0. -/
def ahciTransfer (fuel pd lba count buffer : ℕ) (write : Bool) : AhciM Bool :=
  if count = 0 ∨ 128 < count then pure false
  else do
    Query.askAll (.writeReg .is 0xFFFFFFFF :: buildCommand pd lba count buffer write)
    if ← waitIdle 100000 then do
      Query.askAll [.writeReg .ci 1]
      waitDone fuel
    else pure false

def ahciRead (fuel pd lba count buffer : ℕ) : AhciM Bool :=
  ahciTransfer fuel pd lba count buffer false

def ahciWrite (fuel pd lba count buffer : ℕ) : AhciM Bool :=
  ahciTransfer fuel pd lba count buffer true

/-- The wait of `stop_port`. -/
def waitStopped : ℕ → AhciM Unit
  | 0 => pure ()
  | n + 1 => do
    let cmd ← readReg .cmd
    if cmd &&& 0xC000#32 = 0 then pure () else waitStopped n

/-- `port->cmd &= ~mask`, or `|= bits`. -/
def updateCmd (mask bits : BitVec 32) : AhciM Unit := do
  let cmd ← readReg .cmd
  Query.askAll [.writeReg .cmd (cmd &&& ~~~mask ||| bits)]

def stopPort : AhciM Unit := do
  updateCmd 0x0001 0
  updateCmd 0x0010 0
  waitStopped 100000

/-- The loop of `start_port`, `fuel` rounds of it. -/
def waitStartable : ℕ → AhciM Unit
  | 0 => .diverge
  | fuel + 1 => do
    let cmd ← readReg .cmd
    if cmd &&& 0x8000#32 = 0 then pure () else waitStartable fuel

def startPort (fuel : ℕ) : AhciM Unit := do
  waitStartable fuel
  updateCmd 0 0x0010
  updateCmd 0 0x0001

/-- The port's data as the driver clears it and fills in its first fields. -/
def clearing (pd abar index : ℕ) : List Access :=
  memzero pd portDataBytes
    ++ [.store 8 pd abar, .store 8 (pd + 8) (abar + 256 + 128 * index), .store 1 (pd + 16) index]
    ++ memzero (pd + commandListOff) 1024 ++ memzero (pd + fisAreaOff) 256

/-- The registers and fields `ahci_init` sets before it starts the port. -/
def configuring (pd : ℕ) : List Access :=
  [.writeReg .clb (BitVec.ofNat 32 (pd + commandListOff)),
    .writeReg .clbu 0,
    .writeReg .fb (BitVec.ofNat 32 (pd + fisAreaOff)),
    .writeReg .fbu 0,
    .store 4 (pd + commandListOff + 8) (pd + commandTableOff),
    .store 4 (pd + commandListOff + 12) 0,
    .writeReg .serr 0xFFFFFFFF,
    .writeReg .is 0xFFFFFFFF]

/-- What `ahci_init` does to the port of the given index once it has found a disk there. -/
def initPort (fuel pd abar index : ℕ) : AhciM Unit := do
  stopPort
  Query.askAll (clearing pd abar index)
  Query.askAll (configuring pd)
  startPort fuel

end Driver

section Adapter

/-- A command as the adapter takes it from memory: its transfer, and the address of each byte. -/
structure Command where
  write : Bool
  transfer : Transfer
  place : ℕ → ℕ

/-- The address of byte `k` of a row of regions. -/
def placeOf : List (ℕ × ℕ) → ℕ → ℕ
  | [], k => k
  | (a, n) :: regions, k => if k < n then a + k else placeOf regions (k - n)

/-- The logical block address in a command FIS. -/
def fisLba (mem : Buf) (fis : ℕ) : ℕ :=
  (mem (fis + 4)).toNat + 2 ^ 8 * (mem (fis + 5)).toNat + 2 ^ 16 * (mem (fis + 6)).toNat
    + 2 ^ 24 * (mem (fis + 8)).toNat + 2 ^ 32 * (mem (fis + 9)).toNat
    + 2 ^ 40 * (mem (fis + 10)).toNat

/-- Bit `i` of a byte. -/
def bit (b : UInt8) (i : ℕ) : Bool := b.toNat / 2 ^ i % 2 = 1

/-- The command whose header is at `header`: a FIS of five words, not for a packet device, that is a
48 bit read or write in the direction of the header, and regions that hold it. -/
def decodeCommand (mem : Buf) (header : ℕ) : Option Command :=
  let table := le64 mem (header + 8)
  let write := bit (mem header) 6
  let count := if le16 mem (table + 12) = 0 then 65536 else le16 mem (table + 12)
  let regions := (List.range (le16 mem (header + 2))).map fun i =>
    (le64 mem (table + 128 + 16 * i), le32 mem (table + 128 + 16 * i + 12) % 2 ^ 22 + 1)
  if (mem header).toNat % 32 = 5 ∧ bit (mem header) 5 = false ∧
      (mem table).toNat = fisTypeRegH2D ∧ bit (mem (table + 1)) 7 = true ∧
      (mem (table + 2)).toNat = (if write then ataCmdWriteDmaExt else ataCmdReadDmaExt) ∧
      bit (mem (table + 7)) 6 = true ∧ 512 * count ≤ (regions.map Prod.snd).sum then
    some ⟨write, ⟨fisLba mem table, count⟩, placeOf regions⟩
  else none

structure Port where
  mem : Buf
  medium : Medium
  regs : PortReg → BitVec 32
  tfd : ℕ → BitVec 32
  polls : ℕ
  delay : ℕ → ℕ
  commands : ℕ
  wait : ℕ

def Port.setReg (p : Port) (r : PortReg) (value : BitVec 32) : Port :=
  { p with regs := Function.update p.regs r value }

/-- Bytes stored where they belong, one after the other. -/
def scatter (place : ℕ → ℕ) (data : Buf) (n : ℕ) (mem : Buf) : Buf :=
  (List.range n).foldl (fun mem k => Function.update mem (place k) (data k)) mem

/-- The data of a command moved, or nothing if the disk cannot. -/
def Port.move (p : Port) (c : Command) : Option Port :=
  if c.write then
    (blockWrite p.medium c.transfer.lba c.transfer.count fun k => p.mem (c.place k)).map
      fun medium => { p with medium := medium }
  else
    (p.medium.read c.transfer).map fun data =>
      { p with mem := scatter c.place data (512 * c.transfer.count) p.mem }

/-- Once done a command is taken off `ci`. After an error it stays, bit 30 of `is` is set and the
port runs no further commands. -/
def Port.finish (p : Port) : Option Port → Port
  | some p' => (p'.setReg .ci (p'.regs .ci &&& ~~~1#32)).setReg .is (p'.regs .is ||| 1#32)
  | none => (p.setReg .is (p.regs .is ||| 1#32 <<< 30)).setReg .cmd (p.regs .cmd &&& ~~~0x8000#32)

def Port.execute (p : Port) : Port :=
  p.finish ((decodeCommand p.mem
    ((p.regs .clb).toNat + 2 ^ 32 * (p.regs .clbu).toNat)).bind p.move)

/-- What has happened by the next poll of `ci`. -/
def Port.tick (p : Port) : Port :=
  if p.regs .ci &&& 1#32 = 0 ∨ p.regs .cmd &&& 0x8000#32 = 0 then p
  else match p.wait with
    | 0 => p.execute
    | wait + 1 => { p with wait := wait }

/-- `cmd` with the bits that tell what runs following those that ask for it. -/
def followed (value : BitVec 32) : BitVec 32 :=
  value &&& ~~~0xC000#32 ||| (value &&& 0x0001#32) <<< 15 ||| (value &&& 0x0010#32) <<< 10

def Port.write (p : Port) (r : PortReg) (value : BitVec 32) : Port :=
  match r with
  | .is => p.setReg .is (p.regs .is &&& ~~~value)
  | .serr => p.setReg .serr (p.regs .serr &&& ~~~value)
  | .cmd => (p.setReg .cmd (followed value)).setReg .ci
      (if value &&& 0x0001#32 = 0 then 0 else p.regs .ci)
  | .ci => { p.setReg .ci (p.regs .ci ||| value) with
      wait := p.delay p.commands
      commands := p.commands + 1 }
  | .tfd => p
  | r => p.setReg r value

def Port.read (p : Port) (r : PortReg) : BitVec 32 × Port :=
  match r with
  | .tfd => (p.tfd p.polls, { p with polls := p.polls + 1 })
  | .ci => (p.tick.regs .ci, p.tick)
  | r => (p.regs r, p)

def Port.serve (p : Port) : Access → BitVec 32 × Port
  | .store bytes a value => (0, { p with mem := storeLe bytes p.mem a value })
  | .setBits a mask value =>
    (0, { p with mem := Function.update p.mem a (p.mem a &&& ~~~mask ||| value) })
  | .readReg r => p.read r
  | .writeReg r value => (0, p.write r value)

end Adapter

end Ahci

end PeanutKernel
