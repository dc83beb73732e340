import PeanutKernel.Lib.Serve
import Mathlib.Algebra.Group.Nat.Defs
import Mathlib.Data.UInt

/-!
# PCI configuration space

`drivers/bus/pci.c`. At the bottom stand the two ports of the host bridge: a value written to
`0xCF8` names a register of a function on the bus, and `0xCFC` is that register. Above them a
program asks for reads and writes of registers (`PciM`), and the scans of the bus are such programs.
What a function keeps of a value written to one of its registers is up to the function.
-/

namespace PeanutKernel

namespace Pci

structure PciAddress where
  bus : BitVec 8
  slot : BitVec 8
  function : BitVec 8
  deriving DecidableEq, Repr

section Ports

inductive PortAccess
  | outl (port : ℕ) (value : BitVec 32)
  | inl (port : ℕ)
  deriving DecidableEq, Repr

abbrev PortM := Query PortAccess (BitVec 32)

def pciConfigAddress : ℕ := 0xCF8

def pciConfigData : ℕ := 0xCFC

def pciAddress (addr : PciAddress) (offset : BitVec 8) : BitVec 32 :=
  0x80000000#32 ||| addr.bus.setWidth 32 <<< 16 ||| addr.slot.setWidth 32 <<< 11
    ||| addr.function.setWidth 32 <<< 8 ||| (offset &&& 0xFC#8).setWidth 32

def pciRead32 (addr : PciAddress) (offset : BitVec 8) : PortM (BitVec 32) :=
  .ask (.outl pciConfigAddress (pciAddress addr offset)) fun _ =>
    .ask (.inl pciConfigData) pure

def pciWrite32 (addr : PciAddress) (offset : BitVec 8) (value : BitVec 32) : PortM (BitVec 32) :=
  .ask (.outl pciConfigAddress (pciAddress addr offset)) fun _ =>
    .ask (.outl pciConfigData value) pure

end Ports

section Bridge

/-- A register of a function. -/
structure Register where
  bus : BitVec 8
  slot : BitVec 5
  function : BitVec 3
  dword : BitVec 6
  deriving DecidableEq, Repr

abbrev Config := Register → BitVec 32

/-- The register a value of the address port names. -/
def decode (address : BitVec 32) : Register where
  bus := address.extractLsb' 16 8
  slot := address.extractLsb' 11 5
  function := address.extractLsb' 8 3
  dword := address.extractLsb' 2 6

structure Bridge where
  address : BitVec 32
  config : Config

/-- What a register holds once a value is written to it, of what it held before. -/
abbrev Keeps := Register → BitVec 32 → BitVec 32 → BitVec 32

def Config.write (keeps : Keeps) (config : Config) (r : Register) (value : BitVec 32) : Config :=
  Function.update config r (keeps r (config r) value)

/-- Nothing answers while the top bit of the address is clear. -/
def Bridge.serve (keeps : Keeps) (b : Bridge) : PortAccess → BitVec 32 × Bridge
  | .outl port value =>
    if port = pciConfigAddress then (0, { b with address := value })
    else if port = pciConfigData ∧ b.address.getLsbD 31 then
      (0, { b with config := b.config.write keeps (decode b.address) value })
    else (0, b)
  | .inl port =>
    if port = pciConfigData ∧ b.address.getLsbD 31 then (b.config (decode b.address), b)
    else (BitVec.allOnes 32, b)

end Bridge

section Registers

inductive ConfigAccess
  | read (addr : PciAddress) (offset : BitVec 8)
  | write (addr : PciAddress) (offset : BitVec 8) (value : BitVec 32)
  deriving DecidableEq, Repr

abbrev PciM := Query ConfigAccess (BitVec 32)

def ConfigAccess.addr : ConfigAccess → PciAddress
  | .read addr _ => addr
  | .write addr _ _ => addr

/-- The access through the ports. -/
def ConfigAccess.ports : ConfigAccess → PortM (BitVec 32)
  | .read addr offset => pciRead32 addr offset
  | .write addr offset value => pciWrite32 addr offset value

/-- The result and the registers after a program that goes through the ports. -/
def throughPorts {α : Type} (keeps : Keeps) (b : Bridge) (p : PciM α) : Option (α × Config) :=
  ((p.translate ConfigAccess.ports).exec (Bridge.serve keeps) b).map fun x => (x.1, x.2.config)

/-- The slot and the function are ones the bus has. -/
def PciAddress.Valid (addr : PciAddress) : Prop :=
  addr.slot.toNat < 32 ∧ addr.function.toNat < 8

instance (addr : PciAddress) : Decidable addr.Valid := inferInstanceAs (Decidable (_ ∧ _))

def registerOf (addr : PciAddress) (offset : BitVec 8) : Register where
  bus := addr.bus
  slot := addr.slot.setWidth 5
  function := addr.function.setWidth 3
  dword := offset.extractLsb' 2 6

/-- The registers themselves, without ports. -/
def Config.serve (keeps : Keeps) (config : Config) : ConfigAccess → BitVec 32 × Config
  | .read addr offset => (config (registerOf addr offset), config)
  | .write addr offset value => (0, config.write keeps (registerOf addr offset) value)

/-- What reads find as long as nothing is written. -/
def Config.answer (config : Config) : ConfigAccess → BitVec 32
  | .read addr offset => config (registerOf addr offset)
  | .write _ _ _ => 0

def readReg (addr : PciAddress) (offset : BitVec 8) : PciM (BitVec 32) :=
  .ask (.read addr offset) pure

def writeReg (addr : PciAddress) (offset : BitVec 8) (value : BitVec 32) : PciM Unit :=
  .ask (.write addr offset value) fun _ => pure ()

end Registers

section Scan

/-- How a scan goes on from a function it has looked at. -/
inductive Probe
  | found
  | nextFunction
  | nextSlot
  deriving DecidableEq, Repr

/-- The body of the innermost loop. The three scans differ in `isWanted`, which is told the register
with vendor and device. -/
def pciProbe (isWanted : PciAddress → BitVec 32 → PciM Bool) (addr : PciAddress) :
    PciM Probe := do
  let vendorDevice ← readReg addr 0x00
  if vendorDevice &&& 0xFFFF#32 = 0xFFFF#32 then
    pure (if addr.function = 0 then .nextSlot else .nextFunction)
  else if ← isWanted addr vendorDevice then pure .found
  else if addr.function = 0 then do
    let header ← readReg addr 0x0C
    pure (if header >>> 16 &&& 0x80#32 = 0 then .nextSlot else .nextFunction)
  else pure .nextFunction

/-- The address of a function by the counters of the loops. -/
def addressOf (bus slot function : ℕ) : PciAddress := ⟨bus, slot, function⟩

/-- The loop over the functions of a slot, with so many left from `function` on. -/
def functionLoop (isWanted : PciAddress → BitVec 32 → PciM Bool) (bus slot : ℕ) :
    ℕ → ℕ → PciM (Option PciAddress)
  | 0, _ => pure none
  | n + 1, function => do
    match ← pciProbe isWanted (addressOf bus slot function) with
    | .found => pure (some (addressOf bus slot function))
    | .nextFunction => functionLoop isWanted bus slot n (function + 1)
    | .nextSlot => pure none

/-- The three loops. `none` is the error return. -/
def pciFind (isWanted : PciAddress → BitVec 32 → PciM Bool) : PciM (Option PciAddress) :=
  Query.firstSome (fun bus =>
    Query.firstSome (fun slot => functionLoop isWanted bus slot 8 0) (List.range 32))
    (List.range 256)

def pciFindClass (classCode subclass progIf : BitVec 8) : PciM (Option PciAddress) :=
  pciFind fun addr _ => do
    let classReg ← readReg addr 0x08
    pure (classReg.extractLsb' 24 8 = classCode ∧ classReg.extractLsb' 16 8 = subclass ∧
      classReg.extractLsb' 8 8 = progIf)

def pciFindClassAnyProgIf (classCode subclass : BitVec 8) : PciM (Option PciAddress) :=
  pciFind fun addr _ => do
    let classReg ← readReg addr 0x08
    pure (classReg.extractLsb' 24 8 = classCode ∧ classReg.extractLsb' 16 8 = subclass)

def pciFindDevice (vendorId deviceId : BitVec 16) : PciM (Option PciAddress) :=
  pciFind fun _ vendorDevice =>
    pure (vendorDevice.extractLsb' 0 16 = vendorId ∧ vendorDevice.extractLsb' 16 16 = deviceId)

def pciBar (addr : PciAddress) (barIndex : BitVec 8) : PciM (BitVec 64) :=
  if 6 ≤ barIndex.toNat then pure 0
  else do
    let off := 0x10 + barIndex * 4
    let lo ← readReg addr off
    if lo &&& 1#32 ≠ 0 then pure ((lo &&& ~~~3#32).setWidth 64)
    else
      let bar := lo.setWidth 64 &&& ~~~0xF#64
      if lo &&& 6#32 = 4#32 ∧ barIndex.toNat < 5 then do
        let hi ← readReg addr (off + 4)
        pure (bar ||| hi.setWidth 64 <<< 32)
      else pure bar

end Scan

end Pci

end PeanutKernel
