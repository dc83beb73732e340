import PeanutKernel.Block
import PeanutKernel.Pci

/-!
# Bringing up the network

What `kmain` does under `CONFIG_NET_TCP_IP`: `net_init` of `drivers/net/net.c`, then `e1000_init`,
`rtl8139_init`, `rtl8169_init` and `virtio_net_init` of the files of those names. A driver is a
program that asks for accesses, to configuration space, to ports, to `kalloc`, to the console and to
the list of devices; what an access returns is up to the machine. `e1000_init`, whose rings are in
`E1000`, may be any program here.

The fields of a device that nobody reads, its address and its name among them, are left out; the
name is printed when the device is registered.
-/

namespace PeanutKernel

namespace NetDrivers

open Pci

inductive NetDevice
  | e1000
  | rtl8139
  deriving DecidableEq, Repr

def NetDevice.name : NetDevice → List UInt8
  | .e1000 => ascii "e1000"
  | .rtl8139 => ascii "rtl8139"

inductive Access
  | config (q : ConfigAccess)
  | inb (port : BitVec 16)
  | outb (port : BitVec 16) (value : BitVec 8)
  | outw (port : BitVec 16) (value : BitVec 16)
  | outl (port : BitVec 16) (value : BitVec 32)
  | kalloc (size : ℕ)
  | kprint (text : List UInt8)
  | register (dev : NetDevice)
  deriving DecidableEq, Repr

abbrev NetM := Query Access (BitVec 64)

/-- A program over configuration space. -/
def onBus {α : Type} (p : PciM α) : NetM α :=
  p.translate fun q => .ask (.config q) fun r => pure (r.setWidth 32)

def kalloc (size : ℕ) : NetM (BitVec 64) := .ask (.kalloc size) pure

def print (text : String) : NetM Unit := Query.askAll [.kprint (ascii text)]

/-- `dev->next = net_devices; net_devices = dev;` -/
def netRegisterDevice (dev : NetDevice) : NetM Unit :=
  Query.askAll [.register dev, .kprint (ascii "Registered network device: "), .kprint dev.name,
    .kprint (ascii "\n")]

def netInit : NetM Unit := print "Network stack initialized\n"

/-- `pci_write32(addr, 0x04, pci_read32(addr, 0x04) | bits)` -/
def enable (addr : PciAddress) (bits : BitVec 32) : NetM Unit := do
  let cmdsts ← onBus (readReg addr 0x04)
  onBus (writeReg addr 0x04 (cmdsts ||| bits))

section Rtl8139

def rtlRxBufSize : ℕ := 8192 + 16 + 1500

/-- The wait for the end of the reset, with so many tries left. -/
def waitReset (rtlIo : BitVec 16) : ℕ → NetM Unit
  | 0 => pure ()
  | n + 1 => .ask (.inb (rtlIo + 0x37)) fun r =>
      if r &&& 0x10#64 = 0 then pure () else waitReset rtlIo n

/-- The function up to `net_register_device`; whether it gets there. -/
def rtl8139Setup : NetM Bool := do
  match ← onBus (pciFindDevice 0x10EC 0x8139) with
  | none =>
    print "RTL8139: no PCI device found\n"
    pure false
  | some addr =>
    let bar ← onBus (pciBar addr 0)
    if bar &&& 1#64 = 0 then
      print "RTL8139: MMIO BAR detected; PIO path unavailable\n"
      pure false
    else
      let rtlIo := (bar &&& 0xFFFFFFFC#64).setWidth 16
      enable addr (1#32 <<< 0 ||| 1#32 <<< 2)
      let rtlRxBuf ← kalloc rtlRxBufSize
      let txBuf0 ← kalloc 2048
      let txBuf1 ← kalloc 2048
      let txBuf2 ← kalloc 2048
      let txBuf3 ← kalloc 2048
      if rtlRxBuf = 0 ∨ txBuf0 = 0 ∨ txBuf1 = 0 ∨ txBuf2 = 0 ∨ txBuf3 = 0 then
        print "RTL8139: allocation failed\n"
        pure false
      else
        Query.askAll [.outb (rtlIo + 0x52) 0, .outb (rtlIo + 0x37) 0x10]
        waitReset rtlIo 100000
        -- the card's address, then its registers
        Query.askAll ((List.range 6).map fun i => .inb (rtlIo + BitVec.ofNat 16 i))
        Query.askAll [.outl (rtlIo + 0x30) (rtlRxBuf.setWidth 32),
          .outw (rtlIo + 0x3C) 0,
          .outl (rtlIo + 0x44) (0x00000F#32 ||| 1#32 <<< 7),
          .outl (rtlIo + 0x40) 0x03000000,
          .outb (rtlIo + 0x37) 0x0C]
        pure true

def rtl8139Init : NetM Unit := do
  if ← rtl8139Setup then do
    netRegisterDevice .rtl8139
    print "RTL8139 driver initialized\n"
  else pure ()

end Rtl8139

section Detected

/-- `pci_find_device` for one device after the other, as long as it fails. -/
def findAny (vendorId : BitVec 16) (ids : List (BitVec 16)) : PciM (Option PciAddress) :=
  Query.firstSome (fun id => pciFindDevice vendorId id) ids

def rtl8169Init : NetM Unit := do
  match ← onBus (findAny 0x10EC [0x8168, 0x8169, 0x8125]) with
  | some _ =>
    print "RTL8169/RTL8168/RTL8125: device detected; packet I/O unavailable in this build\n"
  | none => print "RTL8169: no PCI device found\n"

def virtioNetInit : NetM Unit := do
  match ← onBus (findAny 0x1AF4 [0x1000, 0x1041]) with
  | some _ => print "virtio-net: device detected; packet I/O unavailable in this build\n"
  | none => print "virtio-net: no PCI device found\n"

end Detected

/-- The network part of `kmain` up to `e1000_init`. -/
def networkStart (e1000Init : NetM Unit) : NetM Unit := do
  print "Network stack enabled\n"
  netInit
  e1000Init

/-- The drivers behind it. -/
def otherDrivers : NetM Unit := do
  rtl8139Init
  rtl8169Init
  virtioNetInit

/-- `e1000Init` stands for `e1000_init`. `NetM` has no memory-mapped accesses: those `e1000_init`
makes are left out, and what it does by their outcome is up to the program. -/
def networkUp (e1000Init : NetM Unit) : NetM Unit := do
  networkStart e1000Init
  otherDrivers

/-- `net_devices`, as the accesses leave it: the device registered last comes first. -/
def netDevices : List Access → List NetDevice
  | [] => []
  | .register dev :: accesses => netDevices accesses ++ [dev]
  | _ :: accesses => netDevices accesses

end NetDrivers

end PeanutKernel
