import PeanutKernel.Ps2
import PeanutKernel.Lib.Runs

/-!
# Keyboard and mouse streams

A read takes bytes of its own port from the head of the queue and stops at the first of the other.
What is left of a packet at the end of a read waits in the static variables: whatever mouse bytes
come next, the packets of all of them are the packets handed out and then those of the waiting bytes
and the next ones (`Hands`). Read after read this gives the packets of all the bytes taken.
-/

namespace PeanutKernel

namespace Ps2

variable {s s' : Controller} {d d' : Devices}

section Packets

@[simp] theorem sentBy_append (port : Port) (l l' : List (Port × UInt8)) :
    sentBy port (l ++ l') = sentBy port l ++ sentBy port l' := by
  simp [sentBy]

theorem sentBy_map (port : Port) (bs : List UInt8) :
    sentBy port (bs.map fun b => (port, b)) = bs := by
  simp [sentBy, List.filter_map, Function.comp_def]

theorem sentBy_map_ne {port port' : Port} (h : port ≠ port') (bs : List UInt8) :
    sentBy port' (bs.map fun b => (port, b)) = [] := by
  simp [sentBy, List.filter_map, Function.comp_def, h]

theorem packets_skip {b : UInt8} (h : b &&& 0x08 = 0) (l : List UInt8) :
    packets (b :: l) = packets l := by
  rcases l with _ | ⟨c, _ | ⟨d, l⟩⟩
  · simp [packets]
  · simp [packets]
  · simp [packets, h]

theorem packets_take {b : UInt8} (h : b &&& 0x08 ≠ 0) (c d : UInt8) (l : List UInt8) :
    packets (b :: c :: d :: l) = (b, c, d) :: packets l := by
  simp [packets, h]

theorem packets_held (s : Controller) : packets (held s) = [] := by
  have hlen : (held s).length < 3 := by
    rw [held, List.length_take]
    omega
  match held s, hlen with
  | [], _ => rfl
  | [_], _ => rfl
  | [_, _], _ => rfl

end Packets

section Polling

/-- A poll of the keyboard takes a byte of the keyboard at the head of the queue, and returns its
character. -/
theorem ps2PollChar_cases (s : Controller) :
    ps2PollChar s = (none, s) ∨ ∃ b queue, s.queue = (.keyboard, b) :: queue ∧
      ps2PollChar s = (typed b, { s with queue := queue }) := by
  unfold ps2PollChar
  split
  · rename_i b queue hqueue
    exact Or.inr ⟨b, queue, hqueue, rfl⟩
  · exact Or.inl rfl

/-- Between `s` and `s'` the mouse bytes `bs` were taken and the packets `ps` handed out. -/
structure Hands (s s' : Controller) (bs : List UInt8) (ps : List Packet) : Prop where
  queue : s.queue = (bs.map fun b => (Port.mouse, b)) ++ s'.queue
  aligned : Aligned s → Aligned s'
  packets : Aligned s → ∀ l, packets (held s ++ bs ++ l) = ps ++ packets (held s' ++ l)

theorem Hands.refl (s : Controller) : Hands s s [] [] := ⟨rfl, id, fun _ l => by simp⟩

theorem Hands.trans {s'' : Controller} {bs bs' : List UInt8} {ps ps' : List Packet}
    (h : Hands s s' bs ps) (h' : Hands s' s'' bs' ps') : Hands s s'' (bs ++ bs') (ps ++ ps') := by
  refine ⟨?_, fun ha => h'.aligned (h.aligned ha), fun ha l => ?_⟩
  · rw [h.queue, h'.queue]
    simp
  · have hl := h.packets ha (bs' ++ l)
    have hl' := h'.packets (h.aligned ha) l
    simp only [List.append_assoc] at hl hl' ⊢
    rw [hl, hl']

variable {queue : List (Port × UInt8)}

section

variable {b : UInt8} (hqueue : s.queue = (.mouse, b) :: queue)

include hqueue

/-- A byte that starts no packet is dropped. -/
theorem hands_skip (hpos : s.pos = 0) (hb : b &&& 0x08 = 0) :
    Hands s { s with queue := queue } [b] [] := by
  have hheld : held s = [] := by simp [held, hpos]
  refine ⟨by simpa using hqueue, id, fun _ l => ?_⟩
  show packets (held s ++ [b] ++ l) = [] ++ packets (held s ++ l)
  simp [hheld, packets_skip hb]

/-- A byte that goes on with a packet waits. -/
theorem hands_wait (hstart : ¬ (s.pos = 0 ∧ b &&& 0x08 = 0)) (h : s.pos.val + 1 < 3) :
    Hands s ⟨queue, Function.update s.bytes s.pos b, ⟨s.pos.val + 1, h⟩⟩ [b] [] := by
  obtain ⟨q, bytes, pos⟩ := s
  have hcases : pos = 0 ∨ pos = 1 := by
    simp only at h
    omega
  refine ⟨by simpa using hqueue, fun ha => ?_, fun _ l => ?_⟩
  · rcases hcases with rfl | rfl
    · intro _
      simpa using fun hb => hstart ⟨rfl, hb⟩
    · intro _
      simpa using ha (show (1 : Fin 3) ≠ 0 by decide)
  · rcases hcases with rfl | rfl <;> simp [held]

/-- The third byte of a packet completes it. -/
theorem hands_packet (h : ¬ s.pos.val + 1 < 3) :
    Hands s ⟨queue, Function.update s.bytes s.pos b, 0⟩ [b]
      [(Function.update s.bytes s.pos b 0, Function.update s.bytes s.pos b 1,
        Function.update s.bytes s.pos b 2)] := by
  obtain ⟨q, bytes, pos⟩ := s
  obtain rfl : pos = 2 := by
    simp only at h
    omega
  refine ⟨by simpa using hqueue, fun _ h0 => absurd rfl h0, fun ha l => ?_⟩
  have hfirst : bytes 0 &&& 0x08 ≠ 0 := ha (show (2 : Fin 3) ≠ 0 by decide)
  simp [held, packets_take hfirst]

end

/-- A poll of the mouse takes one of its bytes at the head of the queue at most. -/
theorem ps2PollMousePacket_hands (s : Controller) :
    ∃ bs, Hands s (ps2PollMousePacket s).2 bs (ps2PollMousePacket s).1.toList := by
  unfold ps2PollMousePacket
  split
  · rename_i b queue hqueue
    refine ⟨[b], ?_⟩
    split_ifs with hskip hpos
    · exact hands_skip hqueue hskip.1 hskip.2
    · exact hands_wait hqueue hskip hpos
    · exact hands_packet hqueue hpos
  · exact ⟨[], Hands.refl s⟩

end Polling

section Reading

/-- A read of the keyboard takes keyboard bytes, and stores their characters. -/
theorem kbdLoop_spec (left : ℕ) : ∀ (got : ℕ) (d : Devices), ∃ bs : List UInt8,
    d.ps2.queue = (bs.map fun b => (Port.keyboard, b)) ++ (kbdLoop left got d).2.ps2.queue ∧
      (kbdLoop left got d).1 = bs.filterMap typed ∧
      (kbdLoop left got d).2.ps2.bytes = d.ps2.bytes ∧
      (kbdLoop left got d).2.ps2.pos = d.ps2.pos := by
  induction left with
  | zero => exact fun got d => ⟨[], rfl, rfl, rfl, rfl⟩
  | succ left ih =>
    intro got d
    rcases ps2PollChar_cases d.ps2 with hpoll | ⟨b, queue, hqueue, hpoll⟩
    · refine ⟨[], ?_⟩
      simp [kbdLoop, hpoll]
    · rcases hc : typed b with _ | c
      · refine ⟨[b], ?_⟩
        simp [kbdLoop, hpoll, hqueue, hc]
      · simp only [kbdLoop, hpoll, hc]
        obtain ⟨bs, hq, hout, hbytes, hpos⟩ := ih (got + 1) ⟨{ d.ps2 with queue := queue },
          Entropy.entropyMix d.entropy
            ((BitVec.ofNat 64 c.toNat <<< 32) ^^^ BitVec.ofNat 64 (got + 1))⟩
        refine ⟨b :: bs, ?_, ?_, hbytes, hpos⟩
        · rw [hqueue, List.map_cons, List.cons_append, ← hq]
        · rw [List.filterMap_cons_some hc, hout]

theorem mousePacketLoop_none {len got : ℕ} (hlen : (got + 3) % 2 ^ 32 ≤ len)
    (h : (ps2PollMousePacket d.ps2).1 = none) :
    mousePacketLoop len got d = ([], { d with ps2 := (ps2PollMousePacket d.ps2).2 }) := by
  rw [mousePacketLoop, if_pos hlen]
  split <;> simp_all

/-- What is mixed in for a packet. -/
def packetValue (p : Packet) : Entropy.Word :=
  (BitVec.ofNat 64 p.1.toNat <<< 16) ||| (BitVec.ofNat 64 p.2.1.toNat <<< 8)
    ||| BitVec.ofNat 64 p.2.2.toNat

theorem mousePacketLoop_some {len got : ℕ} {p : Packet} (hlen : (got + 3) % 2 ^ 32 ≤ len)
    (h : (ps2PollMousePacket d.ps2).1 = some p) :
    mousePacketLoop len got d =
      (p.bytes ++ (mousePacketLoop len (got + 3) ⟨(ps2PollMousePacket d.ps2).2,
          Entropy.entropyMix d.entropy (packetValue p)⟩).1,
        (mousePacketLoop len (got + 3) ⟨(ps2PollMousePacket d.ps2).2,
          Entropy.entropyMix d.entropy (packetValue p)⟩).2) := by
  obtain ⟨a, b, c⟩ := p
  rw [mousePacketLoop, if_pos hlen]
  split
  · simp_all
  · rename_i a' b' c' ps2 heq
    rw [heq] at h
    simp only [Option.some.injEq, Prod.mk.injEq] at h
    obtain ⟨rfl, rfl, rfl⟩ := h
    have hps2 : (ps2PollMousePacket d.ps2).2 = ps2 := congrArg Prod.snd heq
    rw [hps2]
    rfl

/-- A read of the mouse takes mouse bytes, and stores the packets they complete. -/
theorem mousePacketLoop_spec (len : ℕ) (n : ℕ) : ∀ (got : ℕ) (d : Devices),
    d.ps2.queue.length ≤ n → ∃ bs ps, Hands d.ps2 (mousePacketLoop len got d).2.ps2 bs ps ∧
      (mousePacketLoop len got d).1 = ps.flatMap Packet.bytes := by
  induction n using Nat.strong_induction_on with
  | _ n ih =>
    intro got d hn
    by_cases hlen : (got + 3) % 2 ^ 32 ≤ len
    · obtain ⟨bs, hpoll⟩ := ps2PollMousePacket_hands d.ps2
      rcases hp : (ps2PollMousePacket d.ps2).1 with _ | p
      · rw [hp] at hpoll
        rw [mousePacketLoop_none hlen hp]
        exact ⟨bs, [], hpoll, rfl⟩
      · rw [hp] at hpoll
        have hshort : (ps2PollMousePacket d.ps2).2.queue.length < d.ps2.queue.length :=
          ps2PollMousePacket_length (Prod.ext hp rfl)
        obtain ⟨bs', ps, hrest, hout⟩ := ih (n - 1) (by omega) (got + 3)
          ⟨(ps2PollMousePacket d.ps2).2, Entropy.entropyMix d.entropy (packetValue p)⟩
          (by simp only; omega)
        rw [mousePacketLoop_some hlen hp]
        refine ⟨bs ++ bs', p :: ps, hpoll.trans hrest, ?_⟩
        simp only [hout, List.flatMap_cons]
    · rw [mousePacketLoop, if_neg hlen]
      exact ⟨[], [], Hands.refl d.ps2, rfl⟩

end Reading

section Files

/-- The characters of up to `n` polls of the keyboard, before one comes back empty. -/
def polledChars : ℕ → Controller → List UInt8
  | 0, _ => []
  | n + 1, s =>
    match ps2PollChar s with
    | (none, _) => []
    | (some c, s) => c :: polledChars n s

/-- The packets of up to `n` polls of the mouse, before one comes back empty. -/
def polledPackets : ℕ → Controller → List Packet
  | 0, _ => []
  | n + 1, s =>
    match ps2PollMousePacket s with
    | (none, _) => []
    | (some p, s) => p :: polledPackets n s

/-- What the pseudo files find in the devices. -/
def devInput (random : Buf) (d : Devices) : DevInput :=
  ⟨random, polledChars d.ps2.queue.length d.ps2, polledPackets d.ps2.queue.length d.ps2⟩

theorem kbdLoop_polled (left : ℕ) : ∀ (got n : ℕ) (d : Devices), d.ps2.queue.length ≤ n →
    (kbdLoop left got d).1 = (polledChars n d.ps2).take left := by
  induction left with
  | zero => exact fun got n d _ => rfl
  | succ left ih =>
    intro got n d hn
    rcases ps2PollChar_cases d.ps2 with hpoll | ⟨b, queue, hqueue, hpoll⟩
    · cases n <;> simp [kbdLoop, polledChars, hpoll]
    · obtain ⟨n, rfl⟩ : ∃ k, n = k + 1 := ⟨n - 1, by rw [hqueue, List.length_cons] at hn; omega⟩
      rw [hqueue, List.length_cons] at hn
      rcases hc : typed b with _ | c
      · simp [kbdLoop, polledChars, hpoll, hc]
      · simp only [kbdLoop, polledChars, hpoll, hc, List.take_succ_cons]
        rw [ih (got + 1) n _ (by simp only; omega)]

theorem polledPackets_none {n : ℕ} (h : (ps2PollMousePacket s).1 = none) :
    polledPackets n s = [] := by
  cases n with
  | zero => rfl
  | succ n =>
    rw [polledPackets]
    split <;> simp_all

theorem polledPackets_some {n : ℕ} {p : Packet} (h : (ps2PollMousePacket s).1 = some p) :
    polledPackets (n + 1) s = p :: polledPackets n (ps2PollMousePacket s).2 := by
  rw [polledPackets]
  split <;> simp_all

theorem mouseLoop_full {len got : ℕ} (h : ¬ (got + 3) % 2 ^ 32 ≤ len) (ps : List Packet) :
    mouseLoop len got ps = [] := by
  rcases ps with _ | ⟨p, ps⟩
  · rfl
  · rw [mouseLoop, if_neg h]

theorem mousePacketLoop_polled (len n : ℕ) : ∀ (got : ℕ) (d : Devices), d.ps2.queue.length ≤ n →
    (mousePacketLoop len got d).1 = mouseLoop len got (polledPackets n d.ps2) := by
  induction n with
  | zero =>
    intro got d hn
    have hqueue : d.ps2.queue = [] := List.length_eq_zero_iff.1 (by omega)
    have hpoll : (ps2PollMousePacket d.ps2).1 = none := by
      rw [ps2PollMousePacket, hqueue]
    by_cases hlen : (got + 3) % 2 ^ 32 ≤ len
    · rw [mousePacketLoop_none hlen hpoll]
      rfl
    · rw [mousePacketLoop, if_neg hlen]
      rfl
  | succ n ih =>
    intro got d hn
    by_cases hlen : (got + 3) % 2 ^ 32 ≤ len
    · rcases hp : (ps2PollMousePacket d.ps2).1 with _ | p
      · rw [mousePacketLoop_none hlen hp, polledPackets_none hp]
        rfl
      · have hshort : (ps2PollMousePacket d.ps2).2.queue.length < d.ps2.queue.length :=
          ps2PollMousePacket_length (Prod.ext hp rfl)
        rw [mousePacketLoop_some hlen hp, polledPackets_some hp, mouseLoop, if_pos hlen,
          ih (got + 3) _ (by simp only; omega)]
        rfl
    · rw [mousePacketLoop, if_neg hlen, mouseLoop_full hlen]

/-- The device files of the pseudo file system hand out what the loops read from the controller. -/
theorem devtmpfsPread_devices (random : Buf) (d : Devices) (off len : ℕ) {buf : CPtr}
    (hbuf : buf.null = false) :
    devtmpfsPread true (devInput random d) (cptr (ascii "/dev/kbd")) off buf len
        = some (readKbd len d).1 ∧
      devtmpfsPread true (devInput random d) (cptr (ascii "/dev/mouse")) off buf len
        = some (readMouse len d).1 := by
  have htests : [ascii "/dev/kbd", ascii "/dev/mouse"].map (fun path =>
      [ascii "/dev", ascii "/dev/zero", ascii "/dev/random", ascii "/dev/urandom", ascii "/dev/kbd",
        ascii "/dev/mouse"].map (streq (cptr path).bytes))
      = [[false, false, false, false, true, false], [false, false, false, false, false, true]] := by
    decide +kernel
  have hnull : ∀ l, (cptr l).null = false := fun _ => rfl
  simp only [List.map_cons, List.map_nil, List.cons.injEq, and_true] at htests
  refine ⟨?_, ?_⟩
  · rw [readKbd, kbdLoop_polled len 0 _ d le_rfl]
    simp [devtmpfsPread, devInput, hbuf, hnull, htests]
  · rw [readMouse, mousePacketLoop_polled len _ 0 d le_rfl]
    simp [devtmpfsPread, devInput, hbuf, hnull, htests]

end Files

section Runs

/-- What has come in is what was taken and then the queue; what was taken has been read, but for
the bytes that wait. -/
structure Kept (arrived : List (Port × UInt8)) (s : Streams) : Prop where
  aligned : Aligned s.devices.ps2
  taken : ∃ consumed, arrived = consumed ++ s.devices.ps2.queue ∧
    s.kbd = (sentBy .keyboard consumed).filterMap typed ∧
    ∃ ps, s.mouse = ps.flatMap Packet.bytes ∧
      ∀ l, packets (sentBy .mouse consumed ++ l) = ps ++ packets (held s.devices.ps2 ++ l)

theorem kept_boot (queue : List (Port × UInt8)) (entropy : Entropy.Word) :
    Kept queue (Streams.boot queue entropy) := by
  refine ⟨fun h => absurd rfl h, [], rfl, rfl, [], rfl, fun l => ?_⟩
  simp [sentBy, held, Streams.boot]

variable {arrived : List (Port × UInt8)}

section

variable {s : Streams} (h : Kept arrived s)

include h

theorem Kept.arrive (port : Port) (b : UInt8) :
    Kept (arrived ++ [(port, b)]) (s.step (.arrive port b)) := by
  obtain ⟨consumed, harrived, hkbd, hmouse⟩ := h.taken
  exact ⟨h.aligned, consumed, by simp [harrived, Streams.step], hkbd, hmouse⟩

theorem Kept.readKbd (len : ℕ) : Kept arrived (s.step (.readKbd len)) := by
  obtain ⟨bs, hqueue, hout, hbytes, hpos⟩ := kbdLoop_spec len 0 s.devices
  obtain ⟨consumed, harrived, hkbd, ps, hmouse, hpackets⟩ := h.taken
  have hheld : held (s.step (.readKbd len)).devices.ps2 = held s.devices.ps2 := by
    simp only [held, Streams.step, Ps2.readKbd, hbytes, hpos]
  refine ⟨?_, consumed ++ bs.map fun b => (Port.keyboard, b), ?_, ?_, ps, hmouse, fun l => ?_⟩
  · simp only [Aligned, Streams.step, Ps2.readKbd, hbytes, hpos]
    exact h.aligned
  · rw [harrived, hqueue, List.append_assoc]
    rfl
  · rw [sentBy_append, sentBy_map, List.filterMap_append, ← hkbd, ← hout]
    rfl
  · rw [sentBy_append, sentBy_map_ne (by decide), List.append_nil, hheld]
    exact hpackets l

theorem Kept.readMouse (len : ℕ) : Kept arrived (s.step (.readMouse len)) := by
  obtain ⟨bs, ps', hhands, hout⟩ := mousePacketLoop_spec len _ 0 s.devices le_rfl
  obtain ⟨consumed, harrived, hkbd, ps, hmouse, hpackets⟩ := h.taken
  refine ⟨hhands.aligned h.aligned, consumed ++ bs.map fun b => (Port.mouse, b), ?_, ?_, ps ++ ps',
    ?_, fun l => ?_⟩
  · rw [harrived, hhands.queue, List.append_assoc]
    rfl
  · rw [sentBy_append, sentBy_map_ne (by decide), List.append_nil]
    exact hkbd
  · rw [List.flatMap_append, ← hmouse, ← hout]
    rfl
  · have hnext := hhands.packets h.aligned l
    rw [List.append_assoc] at hnext
    rw [sentBy_append, sentBy_map, List.append_assoc, hpackets, hnext, List.append_assoc]
    rfl

end

theorem kept_run (events : List Event) : ∀ {arrived : List (Port × UInt8)} {s : Streams},
    Kept arrived s → Kept (arrived ++ arrivals events) (events.foldl Streams.step s) := by
  induction events with
  | nil =>
    intro arrived s h
    simpa [arrivals] using h
  | cons e events ih =>
    intro arrived s h
    cases e with
    | arrive port b =>
      have := ih (h.arrive port b)
      rw [List.append_assoc] at this
      exact this
    | readKbd len => exact ih (h.readKbd len)
    | readMouse len => exact ih (h.readMouse len)

/-- A read takes bytes of its own port only. -/
def OwnBytes (s : Streams) (e : Event) : Prop :=
  match e with
  | .arrive _ _ => True
  | .readKbd len => ∃ bs : List UInt8, s.devices.ps2.queue =
      (bs.map fun b => (Port.keyboard, b)) ++ (s.step (.readKbd len)).devices.ps2.queue
  | .readMouse len => ∃ bs : List UInt8, s.devices.ps2.queue =
      (bs.map fun b => (Port.mouse, b)) ++ (s.step (.readMouse len)).devices.ps2.queue

theorem ownBytes_step (s : Streams) (e : Event) : OwnBytes s e := by
  cases e with
  | arrive port b => trivial
  | readKbd len =>
    obtain ⟨bs, hqueue, -⟩ := kbdLoop_spec len 0 s.devices
    exact ⟨bs, hqueue⟩
  | readMouse len =>
    obtain ⟨bs, ps, hhands, -⟩ := mousePacketLoop_spec len _ 0 s.devices le_rfl
    exact ⟨bs, hhands.queue⟩

/-- Whatever comes in and whatever is read in between: each read takes bytes of its own port, what
has been read from the mouse is the packets of its bytes taken so far, and what has been read from
the keyboard the characters of its bytes. -/
theorem streams_neither_mixed_nor_lost (queue : List (Port × UInt8)) (entropy : Entropy.Word)
    (events : List Event) :
    Runs.Along Streams.step OwnBytes (Streams.boot queue entropy) events ∧
      ∃ consumed, queue ++ arrivals events =
          consumed ++ (events.foldl Streams.step (Streams.boot queue entropy)).devices.ps2.queue ∧
        (events.foldl Streams.step (Streams.boot queue entropy)).mouse
          = (packets (sentBy .mouse consumed)).flatMap Packet.bytes ∧
        (events.foldl Streams.step (Streams.boot queue entropy)).kbd
          = (sentBy .keyboard consumed).filterMap typed := by
  have hkept := kept_run events (kept_boot queue entropy)
  obtain ⟨consumed, harrived, hkbd, ps, hmouse, hpackets⟩ := hkept.taken
  have hall := hpackets []
  rw [List.append_nil, List.append_nil, packets_held, List.append_nil] at hall
  exact ⟨Runs.along_of_forall ownBytes_step events _, consumed, harrived, by rw [hmouse, hall],
    hkbd⟩

end Runs

end Ps2

end PeanutKernel
