import PeanutKernel.Block
import Mathlib.Logic.Function.Basic

/-!
# The IDE driver

`ide_wait`, `ide_read` and `ide_write` of `drivers/block/ide.c` over a drive with `2 ^ 28` sectors.
The driver reaches it through the registers at `io_base`; a sector is addressed by the bits in
`LBA0` to `LBA2` and the low four of `HDDEVSEL` when a command is written, and one `insw` or `outsw`
of 256 words moves the next sector of that command. The drive may answer anything to a read of its
status. It keeps a log of the sectors it has moved.
-/

namespace PeanutKernel

namespace Ide

def sectorBytes : ℕ := 512

abbrev Sector := Fin sectorBytes → UInt8

inductive Register
  | secCount0
  | lba0
  | lba1
  | lba2
  | hdDevSel
  | command
  deriving DecidableEq, Repr

def cmdReadSectors : UInt8 := 0x20

def cmdWriteSectors : UInt8 := 0x30

def cmdCacheFlush : UInt8 := 0xE7

/-- A sector moved from the drive or to it. -/
inductive Access
  | read (sector : ℕ) (data : Sector)
  | write (sector : ℕ) (data : Sector)

/-- The command in progress: what it was, and the next sector. -/
structure Transfer where
  command : UInt8
  next : ℕ
  left : ℕ

structure Drive where
  sectors : ℕ → Sector
  registers : Register → UInt8
  transfer : Transfer
  status : ℕ → UInt8
  polls : ℕ
  log : List Access

/-- The sector the registers address. -/
def Drive.addressed (d : Drive) : ℕ :=
  (d.registers .lba0).toNat + 2 ^ 8 * (d.registers .lba1).toNat +
    2 ^ 16 * (d.registers .lba2).toNat + 2 ^ 24 * ((d.registers .hdDevSel).toNat % 2 ^ 4)

/-- A sector count of zero stands for 256. -/
def Drive.start (d : Drive) (command : UInt8) : Transfer where
  command := command
  next := d.addressed
  left := if (d.registers .secCount0).toNat = 0 then 256 else (d.registers .secCount0).toNat

def Drive.outb (d : Drive) (r : Register) (v : UInt8) : Drive :=
  let d := { d with registers := Function.update d.registers r v }
  if r = .command then { d with transfer := d.start v } else d

/-- The next sector of a command is done. -/
def Transfer.advance (t : Transfer) : Transfer := { t with next := t.next + 1, left := t.left - 1 }

/-- `outsw` of 256 words: the next sector of a write command. -/
def Drive.outsw (d : Drive) (data : Sector) : Drive :=
  if d.transfer.command = cmdWriteSectors ∧ 0 < d.transfer.left then
    { d with
      sectors := Function.update d.sectors d.transfer.next data
      transfer := d.transfer.advance
      log := d.log ++ [.write d.transfer.next data] }
  else d

/-- `insw` of 256 words: the next sector of a read command, or nothing of any sector. -/
def Drive.insw (d : Drive) : Option Sector × Drive :=
  if d.transfer.command = cmdReadSectors ∧ 0 < d.transfer.left then
    (some (d.sectors d.transfer.next),
      { d with
        transfer := d.transfer.advance
        log := d.log ++ [.read d.transfer.next (d.sectors d.transfer.next)] })
  else (none, d)

/-- `ATA_SR_ERR` -/
def errBit (status : UInt8) : Bool := status.toNat % 2 = 1

/-- `ATA_SR_DRQ` -/
def drqBit (status : UInt8) : Bool := status.toNat / 2 ^ 3 % 2 = 1

/-- `ATA_SR_BSY` -/
def bsyBit (status : UInt8) : Bool := status.toNat / 2 ^ 7 % 2 = 1

/-- The loop of `ide_wait` with so many tries left; `false` stands for the return value `-1`. -/
def waitLoop (wantDrq : Bool) : ℕ → Drive → Bool × Drive
  | 0, d => (false, d)
  | n + 1, d =>
    let status := d.status d.polls
    let d := { d with polls := d.polls + 1 }
    if errBit status then (false, d)
    else if !bsyBit status && (!wantDrq || drqBit status) then (true, d)
    else waitLoop wantDrq n d

def ideWait (wantDrq : Bool) (d : Drive) : Bool × Drive := waitLoop wantDrq 100000 d

/-- The registers of a command for one sector. -/
def issue (slave : UInt8) (currentLba : ℕ) (command : UInt8) (d : Drive) : Drive :=
  let d := d.outb .hdDevSel
    ((0xE0 : UInt8) ||| slave <<< 4 ||| .ofNat (currentLba / 2 ^ 24 % 2 ^ 4))
  let d := d.outb .secCount0 1
  let d := d.outb .lba0 (.ofNat currentLba)
  let d := d.outb .lba1 (.ofNat (currentLba / 2 ^ 8))
  let d := d.outb .lba2 (.ofNat (currentLba / 2 ^ 16))
  d.outb .command command

/-- A command for one sector up to the point where its data is moved. -/
def prepare (slave : UInt8) (currentLba : ℕ) (command : UInt8) (d : Drive) : Bool × Drive :=
  match ideWait false d with
  | (false, d) => (false, d)
  | (true, d) => ideWait true (issue slave currentLba command d)

/-- The `sector`-th piece of a buffer. -/
def piece (buf : Buf) (sector : ℕ) : Sector := fun i => buf (sector * sectorBytes + i)

/-- A buffer with its `sector`-th piece overwritten. -/
def fill (buf : Buf) (sector : ℕ) (data : Sector) : Buf := fun a =>
  if h : a - sector * sectorBytes < sectorBytes ∧ sector * sectorBytes ≤ a then
    data ⟨a - sector * sectorBytes, h.1⟩
  else buf a

section Calls

variable (slave : UInt8) (lba : ℕ)

def readLoop : ℕ → ℕ → Buf → Drive → Bool × Buf × Drive
  | 0, _, out, d => (true, out, d)
  | n + 1, sector, out, d =>
    match prepare slave ((lba + sector) % 2 ^ 32) cmdReadSectors d with
    | (false, d) => (false, out, d)
    | (true, d) =>
      match d.insw with
      | (none, d) => readLoop n (sector + 1) out d
      | (some data, d) => readLoop n (sector + 1) (fill out sector data) d

/-- `false` stands for the return value `-1`. -/
def ideRead (count : ℕ) (out : Buf) (d : Drive) : Bool × Buf × Drive :=
  if lba > 0x0FFFFFFF ∨ count > 255 then (false, out, d) else readLoop slave lba count 0 out d

def writeLoop (input : Buf) : ℕ → ℕ → Drive → Bool × Drive
  | 0, _, d => (true, d)
  | n + 1, sector, d =>
    match prepare slave ((lba + sector) % 2 ^ 32) cmdWriteSectors d with
    | (false, d) => (false, d)
    | (true, d) => writeLoop input n (sector + 1) (d.outsw (piece input sector))

/-- `false` stands for the return value `-1`. -/
def ideWrite (count : ℕ) (input : Buf) (d : Drive) : Bool × Drive :=
  if lba > 0x0FFFFFFF ∨ count > 255 then (false, d)
  else
    match writeLoop slave lba input count 0 d with
    | (false, d) => (false, d)
    | (true, d) => ideWait false (d.outb .command cmdCacheFlush)

end Calls

/-- A read has moved exactly the sectors asked for, in order, into the pieces of the buffer. -/
structure ReadsExactly (lba count : ℕ) (d : Drive) (out : Buf) (d' : Drive) : Prop where
  log : d'.log = d.log ++ (List.range count).map fun i => .read (lba + i) (d.sectors (lba + i))
  sectors : d'.sectors = d.sectors
  pieces : ∀ i < count, piece out i = d.sectors (lba + i)

/-- A write has moved exactly the pieces of the buffer, in order, into the sectors asked for. -/
structure WritesExactly (lba count : ℕ) (d : Drive) (input : Buf) (d' : Drive) : Prop where
  log : d'.log = d.log ++ (List.range count).map fun i => .write (lba + i) (piece input i)
  pieces : ∀ i < count, d'.sectors (lba + i) = piece input i
  others : ∀ s, s < lba ∨ lba + count ≤ s → d'.sectors s = d.sectors s

end Ide

end PeanutKernel
