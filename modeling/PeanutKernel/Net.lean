import PeanutKernel.Block

/-!
# Received frames

`net_handle_packet` of `drivers/net/net.c`, over the header structures of `net.h`. A frame is read
byte by byte: the function is a `Query` whose questions are offsets from `data`, so its trace is
what it has read. Its effect is what it prints.

The fields of the packed structures are read as an x86 processor does, low byte first.
-/

namespace PeanutKernel

namespace Net

def ethHdrLen : ℕ := 14

def tcpHdrLen : ℕ := 20

def udpHdrLen : ℕ := 8

def ethPIp : ℕ := 0x0800

def ethPArp : ℕ := 0x0806

abbrev FrameM := Query ℕ UInt8

def readU16 (off : ℕ) : FrameM ℕ := do
  let low ← readU8 off
  let high ← readU8 (off + 1)
  pure (low + 2 ^ 8 * high)

/-- A call of `kprint` or `kprint_hex`. -/
inductive Print
  | str (s : String)
  | hex (n : ℕ)
  deriving DecidableEq, Repr

def tcpLine (source dest : ℕ) : List Print :=
  [.str "TCP packet: src_port=", .hex source, .str " dst_port=", .hex dest, .str "\n"]

def udpLine (source dest : ℕ) : List Print :=
  [.str "UDP packet: src_port=", .hex source, .str " dst_port=", .hex dest, .str "\n"]

def icmpLine : List Print := [.str "ICMP packet received\n"]

def arpLine : List Print := [.str "ARP packet received\n"]

/-- A transport header of `hdrLen` bytes from `off` on, `source` and `dest` its first fields. -/
def transport (line : ℕ → ℕ → List Print) (hdrLen len off : ℕ) : FrameM (List Print) :=
  if off + hdrLen ≤ len then do
    let source ← readU16 off
    let dest ← readU16 (off + 2)
    pure (line source dest)
  else pure []

/-- The branch of `net_handle_packet` for `ETH_P_IP`. -/
def handleIp (len : ℕ) : FrameM (List Print) := do
  let ipHdrLen := (← readU8 ethHdrLen) % 2 ^ 4 * 4
  if len < ethHdrLen + ipHdrLen then pure []
  else
    let protocol ← readU8 (ethHdrLen + 9)
    if protocol = 6 then transport tcpLine tcpHdrLen len (ethHdrLen + ipHdrLen)
    else if protocol = 17 then transport udpLine udpHdrLen len (ethHdrLen + ipHdrLen)
    else if protocol = 1 then pure icmpLine
    else pure []

def netHandlePacket (len : ℕ) : FrameM (List Print) :=
  if len < ethHdrLen then pure []
  else do
    if (← readU16 12) = ethPIp then handleIp len
    else if (← readU16 12) = ethPArp then pure arpLine
    else pure []

section Wire

variable (data : ℕ → UInt8)

/-- A 16 bit field as it is sent: high byte first. -/
def be16 (off : ℕ) : ℕ := 2 ^ 8 * (data off).toNat + (data (off + 1)).toNat

/-- The header length field of an IPv4 frame, in words of four bytes. -/
def ihl : ℕ := (data ethHdrLen).toNat % 2 ^ 4

/-- An Ethernet frame of `len` bytes that is IPv4 with the given protocol and has room for its
header and `hdrLen` bytes after it. -/
structure Carries (protocol hdrLen len : ℕ) : Prop where
  type : data 12 = 0x08 ∧ data 13 = 0x00
  header : 5 ≤ ihl data
  long : ethHdrLen + 4 * ihl data + hdrLen ≤ len
  protocol : (data (ethHdrLen + 9)).toNat = protocol

/-- `p` and `q` are the two ports after the IPv4 header. -/
def Ports (p q : ℕ) : Prop :=
  p = be16 data (ethHdrLen + 4 * ihl data) ∧ q = be16 data (ethHdrLen + 4 * ihl data + 2)

def WireTcp (len p q : ℕ) : Prop := Carries data 6 tcpHdrLen len ∧ Ports data p q

def WireUdp (len p q : ℕ) : Prop := Carries data 17 udpHdrLen len ∧ Ports data p q

/-- The frame of `len` bytes is read inside its bounds, and reported as TCP or UDP with two ports
exactly when it is that on the wire. -/
structure DecodedAsSent (len : ℕ) : Prop where
  bounds : ∀ off ∈ (netHandlePacket len).trace data, off < len
  tcp : ∀ p q, (netHandlePacket len).run data = some (tcpLine p q) ↔ WireTcp data len p q
  udp : ∀ p q, (netHandlePacket len).run data = some (udpLine p q) ↔ WireUdp data len p q

/-- The condition for it: nothing is sent that `net_handle_packet` should report, and a frame whose
type bytes are in the order it looks for ends before it misreads it. -/
structure Unmistaken (len : ℕ) : Prop where
  sent : ¬ Carries data 6 tcpHdrLen len ∧ ¬ Carries data 17 udpHdrLen len
  swapped : data 12 = 0x00 → data 13 = 0x08 → ethHdrLen ≤ len →
    ethHdrLen + 1 ≤ len ∧ (ethHdrLen + 4 * ihl data ≤ len →
      ethHdrLen + 10 ≤ len ∧
        ((data (ethHdrLen + 9)).toNat = 6 → len < ethHdrLen + 4 * ihl data + tcpHdrLen) ∧
        ((data (ethHdrLen + 9)).toNat = 17 → len < ethHdrLen + 4 * ihl data + udpHdrLen))

end Wire

end Net

end PeanutKernel
