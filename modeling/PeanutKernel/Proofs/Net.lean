import PeanutKernel.Net
import PeanutKernel.Proofs.Block

/-!
# Which frames are decoded as they were sent

`net_handle_packet` takes the type and the ports low byte first, so it looks at the IPv4 header of
exactly the frames whose type bytes are `00 08`, which is no IPv4 frame on the wire. A frame is
decoded as it was sent when it is not TCP or UDP over IPv4 and, if its type bytes are these, ends
before a port or a byte outside it is read.
-/

namespace PeanutKernel

namespace Net

variable {data : Buf} {len off hdrLen : ℕ}

@[simp] theorem run_readU16 :
    (readU16 off).run data = some ((data off).toNat + 2 ^ 8 * (data (off + 1)).toNat) := rfl

@[simp] theorem trace_readU16 : (readU16 off).trace data = [off, off + 1] := rfl

/-- A report that names no ports. -/
def Portless (r : List Print) : Prop := r = [] ∨ r = arpLine ∨ r = icmpLine

theorem Portless.ne_line {r : List Print} (h : Portless r) (p q : ℕ) :
    r ≠ tcpLine p q ∧ r ≠ udpLine p q := by
  rcases h with rfl | rfl | rfl <;> simp [tcpLine, udpLine, arpLine, icmpLine]

/-- A 16 bit field as `net_handle_packet` reads it: low byte first. -/
def le16At (data : Buf) (off : ℕ) : ℕ := (data off).toNat + 2 ^ 8 * (data (off + 1)).toNat

/-- What is printed for a transport header from `off` on. -/
def transportReport (line : ℕ → ℕ → List Print) (hdrLen : ℕ) (data : Buf) (len off : ℕ) :
    List Print :=
  if off + hdrLen ≤ len then line (le16At data off) (le16At data (off + 2)) else []

section Transport

variable {line : ℕ → ℕ → List Print}

theorem run_transport : (transport line hdrLen len off).run data =
    some (transportReport line hdrLen data len off) := by
  unfold transport transportReport
  split_ifs
  · simp [le16At]
  · rfl

theorem trace_transport : (transport line hdrLen len off).trace data =
    if off + hdrLen ≤ len then [off, off + 1, off + 2, off + 3] else [] := by
  unfold transport
  split_ifs
  · simp [Query.trace_bind]
  · rfl

end Transport

/-- What is printed for an IPv4 header from byte 14 on. -/
def ipReport (data : Buf) (len : ℕ) : List Print :=
  if len < ethHdrLen + ihl data * 4 then []
  else if (data (ethHdrLen + 9)).toNat = 6 then
    transportReport tcpLine tcpHdrLen data len (ethHdrLen + ihl data * 4)
  else if (data (ethHdrLen + 9)).toNat = 17 then
    transportReport udpLine udpHdrLen data len (ethHdrLen + ihl data * 4)
  else if (data (ethHdrLen + 9)).toNat = 1 then icmpLine
  else []

theorem run_handleIp : (handleIp len).run data = some (ipReport data len) := by
  unfold handleIp ipReport ihl
  simp only [Query.run_bind, run_readU8, Option.bind_some]
  split_ifs <;> simp_all only [run_transport, Query.run_pure, Query.run_bind, run_readU8,
    Option.bind_some, if_true, if_false]

theorem handleIp_inside_iff : (∀ off ∈ (handleIp len).trace data, off < len) ↔
    ethHdrLen + 1 ≤ len ∧ (ethHdrLen + 4 * ihl data ≤ len → ethHdrLen + 10 ≤ len) := by
  have hports : ∀ line hdrLen, 4 ≤ hdrLen → ∀ off ∈
      (transport line hdrLen len (ethHdrLen + ihl data * 4)).trace data, off < len := by
    intro line hdrLen hlong off hoff
    rw [trace_transport] at hoff
    split_ifs at hoff with hfits
    · simp only [List.mem_cons, List.not_mem_nil, or_false] at hoff
      omega
    · simp at hoff
  unfold handleIp
  rw [Query.trace_bind_some _ run_readU8, trace_readU8, List.singleton_append,
    List.forall_mem_cons]
  refine and_congr Iff.rfl ?_
  simp only [← ihl.eq_1]
  split_ifs with hshort
  · simp only [Query.trace_pure, List.not_mem_nil, false_imp_iff, implies_true, true_iff]
    omega
  · rw [Query.trace_bind_some _ run_readU8, trace_readU8, List.singleton_append,
      List.forall_mem_cons]
    have hrest : ∀ off ∈ Query.trace data
        (if (data (ethHdrLen + 9)).toNat = 6 then
          transport tcpLine tcpHdrLen len (ethHdrLen + ihl data * 4)
        else if (data (ethHdrLen + 9)).toNat = 17 then
          transport udpLine udpHdrLen len (ethHdrLen + ihl data * 4)
        else if (data (ethHdrLen + 9)).toNat = 1 then pure icmpLine else pure []), off < len := by
      split_ifs
      · exact hports _ _ (by decide)
      · exact hports _ _ (by decide)
      · simp
      · simp
    constructor
    · intro h _
      exact h.1
    · intro h
      exact ⟨h (by omega), hrest⟩

theorem run_netHandlePacket (hlong : ethHdrLen ≤ len) (htype : le16At data 12 = ethPIp) :
    (netHandlePacket len).run data = some (ipReport data len) := by
  unfold netHandlePacket
  rw [if_neg (Nat.not_lt.2 hlong), Query.run_bind, run_readU16, Option.bind_some, ← le16At,
    if_pos htype, run_handleIp]

theorem run_netHandlePacket_other (hother : len < ethHdrLen ∨ le16At data 12 ≠ ethPIp) :
    ∃ r, (netHandlePacket len).run data = some r ∧ Portless r := by
  unfold netHandlePacket
  split_ifs with hshort
  · exact ⟨[], rfl, .inl rfl⟩
  · have htype := hother.resolve_left hshort
    rw [Query.run_bind, run_readU16, Option.bind_some, ← le16At, if_neg htype, Query.run_bind,
      run_readU16, Option.bind_some, ← le16At]
    split_ifs
    · exact ⟨arpLine, rfl, .inr (.inl rfl)⟩
    · exact ⟨[], rfl, .inl rfl⟩

theorem netHandlePacket_inside (hother : len < ethHdrLen ∨ le16At data 12 ≠ ethPIp) :
    ∀ off ∈ (netHandlePacket len).trace data, off < len := by
  unfold netHandlePacket
  split_ifs with hshort
  · simp
  · have htype := hother.resolve_left hshort
    have hlen : 14 ≤ len := Nat.not_lt.1 hshort
    rw [Query.trace_bind_some _ run_readU16, trace_readU16, ← le16At, if_neg htype,
      Query.trace_bind_some _ run_readU16, trace_readU16, ← le16At]
    intro off hoff
    split_ifs at hoff <;>
    · simp only [Query.trace_pure, List.append_nil, List.mem_append, List.mem_cons,
        List.not_mem_nil, or_false] at hoff
      omega

theorem netHandlePacket_inside_iff (hlong : ethHdrLen ≤ len) (htype : le16At data 12 = ethPIp) :
    (∀ off ∈ (netHandlePacket len).trace data, off < len) ↔
      ethHdrLen + 1 ≤ len ∧ (ethHdrLen + 4 * ihl data ≤ len → ethHdrLen + 10 ≤ len) := by
  unfold netHandlePacket
  rw [if_neg (Nat.not_lt.2 hlong), Query.trace_bind_some _ run_readU16, trace_readU16, ← le16At,
    if_pos htype, List.forall_mem_append, handleIp_inside_iff]
  refine and_iff_right ?_
  unfold ethHdrLen at hlong
  intro off hoff
  simp only [List.mem_cons, List.not_mem_nil, or_false] at hoff
  omega

theorem le16At_eq_ethPIp_iff : le16At data 12 = ethPIp ↔ data 12 = 0x00 ∧ data 13 = 0x08 := by
  have hlow := (data 12).toNat_lt
  have hhigh := (data 13).toNat_lt
  rw [← UInt8.toNat_inj, ← UInt8.toNat_inj]
  unfold le16At ethPIp
  simp only [UInt8.reduceToNat, Nat.reduceAdd]
  omega

theorem ipReport_portless_iff : Portless (ipReport data len) ↔
    (ethHdrLen + 4 * ihl data ≤ len →
      ((data (ethHdrLen + 9)).toNat = 6 → len < ethHdrLen + 4 * ihl data + tcpHdrLen) ∧
      ((data (ethHdrLen + 9)).toNat = 17 → len < ethHdrLen + 4 * ihl data + udpHdrLen)) := by
  have hline : ∀ p q, ¬ Portless (tcpLine p q) ∧ ¬ Portless (udpLine p q) :=
    fun p q => ⟨fun h => (h.ne_line p q).1 rfl, fun h => (h.ne_line p q).2 rfl⟩
  unfold ipReport transportReport
  split_ifs with hshort htcp hroom hudp hroom hicmp
  · exact iff_of_true (.inl rfl) fun h => by omega
  · exact iff_of_false (hline _ _).1 fun h => by omega
  · exact iff_of_true (.inl rfl) fun h => by omega
  · exact iff_of_false (hline _ _).2 fun h => by omega
  · exact iff_of_true (.inl rfl) fun h => by omega
  · exact iff_of_true (.inr (.inr rfl)) fun h => by omega
  · exact iff_of_true (.inl rfl) fun h => by omega

theorem ipReport_line (h : ¬ Portless (ipReport data len)) :
    ∃ p q, ipReport data len = tcpLine p q ∨ ipReport data len = udpLine p q := by
  unfold ipReport transportReport at h ⊢
  split_ifs at h ⊢ with hshort htcp hroom hudp hroom hicmp
  · exact absurd (.inl rfl) h
  · exact ⟨_, _, .inl rfl⟩
  · exact absurd (.inl rfl) h
  · exact ⟨_, _, .inr rfl⟩
  · exact absurd (.inl rfl) h
  · exact absurd (.inr (.inr rfl)) h
  · exact absurd (.inl rfl) h

/-- A frame that is neither TCP nor UDP on the wire is decoded as sent if nothing else is
reported for it. -/
theorem decodedAsSent_of_portless {r : List Print}
    (hsent : ¬ Carries data 6 tcpHdrLen len ∧ ¬ Carries data 17 udpHdrLen len)
    (hbounds : ∀ off ∈ (netHandlePacket len).trace data, off < len)
    (hrun : (netHandlePacket len).run data = some r) (hr : Portless r) :
    DecodedAsSent data len where
  bounds := hbounds
  tcp p q := by
    rw [hrun, Option.some.injEq]
    exact iff_of_false (hr.ne_line p q).1 fun h => hsent.1 h.1
  udp p q := by
    rw [hrun, Option.some.injEq]
    exact iff_of_false (hr.ne_line p q).2 fun h => hsent.2 h.1

theorem DecodedAsSent.not_sent {r : List Print} (h : DecodedAsSent data len)
    (hrun : (netHandlePacket len).run data = some r) (hr : Portless r) :
    ¬ Carries data 6 tcpHdrLen len ∧ ¬ Carries data 17 udpHdrLen len := by
  constructor <;> intro hsent
  · have hline := (h.tcp _ _).2 ⟨hsent, rfl, rfl⟩
    rw [hrun] at hline
    exact (hr.ne_line _ _).1 (Option.some.inj hline)
  · have hline := (h.udp _ _).2 ⟨hsent, rfl, rfl⟩
    rw [hrun] at hline
    exact (hr.ne_line _ _).2 (Option.some.inj hline)

theorem not_carries_of_swapped (h12 : data 12 = 0x00) (protocol hdrLen len : ℕ) :
    ¬ Carries data protocol hdrLen len := by
  intro h
  have := h.type.1
  rw [h12] at this
  exact absurd this (by decide)

theorem frames_decoded_iff (data : Buf) (len : ℕ) :
    DecodedAsSent data len ↔ Unmistaken data len := by
  by_cases hip : ethHdrLen ≤ len ∧ le16At data 12 = ethPIp
  · obtain ⟨hlong, htype⟩ := hip
    obtain ⟨h12, h13⟩ := le16At_eq_ethPIp_iff.1 htype
    have hrun := run_netHandlePacket hlong htype
    have hnot := not_carries_of_swapped h12
    constructor
    · intro h
      obtain ⟨hip, hprotocol⟩ := (netHandlePacket_inside_iff hlong htype).1 h.bounds
      refine ⟨⟨hnot _ _ _, hnot _ _ _⟩, fun _ _ _ => ⟨hip, fun hfits => ⟨hprotocol hfits, ?_⟩⟩⟩
      refine ipReport_portless_iff.1 ?_ hfits
      by_contra hports
      obtain ⟨p, q, hline | hline⟩ := ipReport_line hports
      · exact hnot _ _ _ ((h.tcp p q).1 (hrun.trans (congrArg some hline))).1
      · exact hnot _ _ _ ((h.udp p q).1 (hrun.trans (congrArg some hline))).1
    · intro h
      obtain ⟨hip, hrest⟩ := h.swapped h12 h13 hlong
      refine decodedAsSent_of_portless h.sent ?_ hrun ?_
      · exact (netHandlePacket_inside_iff hlong htype).2 ⟨hip, fun hfits => (hrest hfits).1⟩
      · exact ipReport_portless_iff.2 fun hfits => (hrest hfits).2
  · have hother : len < ethHdrLen ∨ le16At data 12 ≠ ethPIp := by
      rwa [not_and_or, Nat.not_le] at hip
    obtain ⟨r, hrun, hr⟩ := run_netHandlePacket_other hother
    constructor
    · intro h
      refine ⟨h.not_sent hrun hr, fun h12 h13 hlong => ?_⟩
      exact absurd (le16At_eq_ethPIp_iff.2 ⟨h12, h13⟩) (hother.resolve_left (Nat.not_lt.2 hlong))
    · intro h
      exact decodedAsSent_of_portless h.sent (netHandlePacket_inside hother) hrun hr

/-- A TCP frame of 54 bytes from port 443 to port 8080, with zeros where it does not matter. -/
def tcpFrame : List UInt8 :=
  List.replicate 12 0 ++ [0x08, 0x00, 0x45] ++ List.replicate 8 0 ++ [6] ++ List.replicate 10 0 ++
    [0x01, 0xBB, 0x1F, 0x90] ++ List.replicate 16 0

/-- It is TCP on the wire, and nothing is reported. -/
theorem tcpFrame_not_reported : WireTcp (tcpFrame.getD · 0) 54 443 8080 ∧
    (netHandlePacket 54).run (tcpFrame.getD · 0) = some [] ∧
    ¬ DecodedAsSent (tcpFrame.getD · 0) 54 := by
  have hwire : WireTcp (tcpFrame.getD · 0) 54 443 8080 := by
    refine ⟨⟨?_, ?_, ?_, ?_⟩, ?_, ?_⟩ <;> decide
  have hrun : (netHandlePacket 54).run (tcpFrame.getD · 0) = some [] := by decide
  refine ⟨hwire, hrun, fun h => ?_⟩
  have hline := (h.tcp _ _).2 hwire
  rw [hrun] at hline
  exact absurd hline (by decide)

end Net

end PeanutKernel
