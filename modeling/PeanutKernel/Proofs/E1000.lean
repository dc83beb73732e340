import PeanutKernel.E1000
import Mathlib.Data.List.Basic

/-!
# What the E1000 driver sends and receives

`e1000_send` copies at most 1518 bytes and hands the card the low 16 bits of `len` as the length.
So the bytes of a transmit buffer from 1518 on keep what the memory held at `e1000_init`, and a
call sends only its own bytes when that length does not reach them, or they happen to be its own.

`e1000_recv` goes round the ring until `RDT` is `RDH`. When it returns the card therefore owns no
descriptor.
-/

namespace PeanutKernel

namespace E1000

section Copy

variable {dst n a : ℕ} {data mem : Buf}

theorem copyBytes_eq : copyBytes dst data n mem = overlay dst n data mem :=
  foldl_update_eq_overlay dst data mem n

theorem copyBytes_inside {i : ℕ} (hi : i < n) : copyBytes dst data n mem (dst + i) = data i := by
  rw [copyBytes_eq, overlay_of_mem hi]

theorem copyBytes_outside (ha : a < dst ∨ dst + n ≤ a) : copyBytes dst data n mem a = mem a := by
  rw [copyBytes_eq, overlay_of_not_mem (by omega)]

end Copy

section Transmit

variable {txBuffers k : ℕ} {mem₀ : Buf} {s : Tx}

/-- Byte `i` of the buffer that call number `k` uses. -/
def txByte (txBuffers k i : ℕ) : ℕ := txBuffers + k % txDescCount * bufferBytes + i

/-- The driver after `k` calls: the bytes that no call writes are those of the start. -/
structure Sent (txBuffers : ℕ) (mem₀ : Buf) (k : ℕ) (s : Tx) : Prop where
  index : s.txIndex = k % txDescCount
  addr : ∀ i, (s.descs i).addr = txBuffers + i * bufferBytes
  mem : ∀ j i, 1518 ≤ i → i < bufferBytes →
    s.mem (txByte txBuffers j i) = mem₀ (txByte txBuffers j i)

theorem sent_init (old : ℕ → Desc) : Sent txBuffers mem₀ 0 (Tx.init txBuffers old mem₀) where
  index := rfl
  addr _ := rfl
  mem _ _ _ _ := rfl

theorem Sent.step (h : Sent txBuffers mem₀ k s) (call : Send) :
    Sent txBuffers mem₀ (k + 1) (s.step call) where
  index := by
    simp only [Tx.step, e1000Send, h.index, Nat.mod_add_mod]
  addr i := by
    simp only [Tx.step, e1000Send]
    by_cases hi : i = s.txIndex
    · subst hi
      rw [Function.update_self]
      exact h.addr _
    · rw [Function.update_of_ne hi]
      exact h.addr i
  mem j i hge hlt := by
    simp only [Tx.step, e1000Send]
    rw [copyBytes_outside, h.mem j i hge hlt]
    rw [h.addr, h.index]
    unfold txByte txDescCount
    unfold bufferBytes at hlt ⊢
    omega

/-- A call sends only its own bytes: what the card is told to send ends before the bytes no call
writes, or these happen to be the caller's. -/
def Short (txBuffers : ℕ) (mem₀ : Buf) (k : ℕ) (call : Send) : Prop :=
  call.2 % 2 ^ 16 ≤ 1518 ∨ call.2 % 2 ^ 16 ≤ bufferBytes ∧
    ∀ i, 1518 ≤ i → i < call.2 % 2 ^ 16 → mem₀ (txByte txBuffers k i) = call.1 i

theorem Sent.ownBytes_iff (h : Sent txBuffers mem₀ k s) (call : Send) :
    OwnBytes (e1000Send s call.1 call.2).1 call ↔ Short txBuffers mem₀ k call := by
  obtain ⟨data, len⟩ := call
  have hlen : len % 2 ^ 16 ≤ len := Nat.mod_le _ _
  have haddr : (s.descs s.txIndex).addr = txBuffers + k % txDescCount * bufferBytes := by
    rw [h.addr, h.index]
  have hcopied : ∀ i < min len 1518,
      (e1000Send s data len).1.buffer i = data i := fun i hi => copyBytes_inside hi
  have hkept : ∀ i, 1518 ≤ i → i < bufferBytes →
      (e1000Send s data len).1.buffer i = mem₀ (txByte txBuffers k i) := by
    intro i hge hlt
    simp only [e1000Send]
    rw [copyBytes_outside (by omega), haddr]
    exact h.mem k i hge hlt
  unfold OwnBytes Short
  simp only [show (e1000Send s data len).1.length = len % 2 ^ 16 from rfl]
  constructor
  · rintro ⟨-, hfits, hbytes⟩
    refine .inr ⟨hfits, fun i hge hlt => ?_⟩
    rw [← hkept i hge (by omega)]
    exact hbytes i hlt
  · rintro (hshort | ⟨hfits, hbytes⟩)
    · exact ⟨hlen, Nat.le_trans hshort (by decide), fun i hi => hcopied i (by omega)⟩
    · refine ⟨hlen, hfits, fun i hi => ?_⟩
      by_cases hge : 1518 ≤ i
      · rw [hkept i hge (by omega), hbytes i hge hi]
      · exact hcopied i (by omega)

theorem Sent.along_iff : ∀ (calls : List Send) {k : ℕ} {s : Tx}, Sent txBuffers mem₀ k s →
    (Runs.Along Tx.step (fun s call => OwnBytes (e1000Send s call.1 call.2).1 call) s calls ↔
      ∀ j call, calls[j]? = some call → Short txBuffers mem₀ (k + j) call)
  | [], k, s, _ => by simp [Runs.Along]
  | call :: calls, k, s, h => by
    rw [Runs.Along, h.ownBytes_iff call, Sent.along_iff calls (h.step call)]
    constructor
    · rintro ⟨hfirst, hrest⟩ (_ | j) call' hcall
      · rw [List.getElem?_cons_zero, Option.some.injEq] at hcall
        exact hcall ▸ hfirst
      · rw [List.getElem?_cons_succ] at hcall
        rw [Nat.add_comm j, ← Nat.add_assoc]
        exact hrest j call' hcall
    · intro hall
      refine ⟨hall 0 call rfl, fun j call' hcall => ?_⟩
      rw [Nat.add_assoc, Nat.add_comm 1]
      exact hall (j + 1) call' hcall

/-- Which sequences of calls send only the callers' bytes. -/
theorem send_own_bytes_iff (txBuffers : ℕ) (old : ℕ → Desc) (mem : Buf) (calls : List Send) :
    Runs.Along Tx.step (fun s call => OwnBytes (e1000Send s call.1 call.2).1 call)
        (Tx.init txBuffers old mem) calls ↔
      ∀ k call, calls[k]? = some call → Short txBuffers mem k call := by
  rw [(sent_init old).along_iff calls]
  simp only [Nat.zero_add]

/-- A call with 1519 bytes, all ones, over a memory of zeros. -/
theorem long_send_leaks : ¬ Runs.Along Tx.step
    (fun s call => OwnBytes (e1000Send s call.1 call.2).1 call)
    (Tx.init 0x200000 (fun _ => ⟨0, 0, 0, 0⟩) fun _ => 0) [(fun _ => 1, 1519)] := by
  rw [(sent_init _).along_iff]
  intro h
  rcases h 0 _ rfl with hshort | ⟨-, hbytes⟩
  · exact absurd hshort (by decide)
  · exact absurd (hbytes 1518 (by decide) (by decide)) (by decide)

end Transmit

section Receive

variable {rxBuffers d : ℕ} {s : Rx}

/-- How many frames the callback has been given, in the `d`-th round of `e1000_recv`. -/
def Pc.given (d : ℕ) : Pc → ℕ
  | .resetStatus _ => d
  | .writeRdt _ => d
  | _ => d - 1

/-- What the driver knows of the ring at each point: it looks at the descriptor `RDT`, and past
the test on `RDH` the frame of this round, if it is not the first, has been stored. -/
def Pc.Fits (d n : ℕ) : Pc → Prop
  | .idle => True
  | .readRdh rdt => rdt = (127 + d) % 128
  | .testStatus rdt => rdt = (127 + d) % 128 ∧ d ≤ n
  | .callback rdt => rdt = (127 + d) % 128 ∧ d ≤ n ∧ 0 < d
  | .resetStatus rdt => rdt = (127 + d) % 128 ∧ d ≤ n
  | .writeRdt rdt => rdt = (127 + d) % 128 ∧ d ≤ n

/-- A descriptor with a stored frame in its buffer. -/
structure Shows (mem : Buf) (desc : Desc) (bytes : List UInt8) : Prop where
  done : desc.done = true
  short : desc.length ≤ bufferBytes
  frame : frameIn mem desc = bytes

/-- The ring after `d` rounds of `e1000_recv`. Frame number `n` is stored in descriptor `n` modulo
128, and the driver looks for it in round `n + 1`. -/
structure Ring (rxBuffers d : ℕ) (s : Rx) : Prop where
  rdt : s.rdt = (127 + d) % 128
  rdh : s.rdh = s.stored.length % 128
  behind : d ≤ s.stored.length + 1
  ahead : s.stored.length ≤ 127 + d
  addr : ∀ i, (s.descs i).addr = rxBuffers + i * bufferBytes
  first : d = 0 → (s.descs 127).done = false
  pc : s.pc.Fits d s.stored.length
  passed : s.passed = s.stored.take (s.pc.given d)
  pending : ∀ k bytes, s.pc.given d ≤ k → s.stored[k]? = some bytes →
    Shows s.mem (s.descs (k % 128)) bytes

theorem ring_init (old : ℕ → Desc) (mem : Buf) : Ring rxBuffers 0 (Rx.init rxBuffers old mem) where
  rdt := rfl
  rdh := rfl
  behind := Nat.zero_le _
  ahead := Nat.zero_le _
  addr _ := rfl
  first _ := rfl
  pc := trivial
  passed := rfl
  pending _ _ _ h := by simp [Rx.init] at h

theorem Ring.given_le (h : Ring rxBuffers d s) : s.pc.given d ≤ s.stored.length := by
  have hpc := h.pc
  have hbehind := h.behind
  cases hp : s.pc <;> simp only [hp, Pc.given, Pc.Fits] at hpc ⊢ <;> omega

theorem Pc.le_given (pc : Pc) (d : ℕ) : d - 1 ≤ pc.given d := by
  cases pc <;> simp only [Pc.given] <;> omega

theorem Pc.Fits.mono {pc : Pc} {n m : ℕ} (h : pc.Fits d n) (hle : n ≤ m) : pc.Fits d m := by
  cases pc <;> simp only [Pc.Fits] at h ⊢ <;> omega

theorem done_or_doneBit (desc : Desc) (n : ℕ) :
    Desc.done { desc with length := n, status := desc.status ||| doneBit } = true := by
  simp only [Desc.done, doneBit, decide_eq_true_eq, UInt8.toNat_or, UInt8.reduceToNat]
  rw [Nat.or_mod_two_eq_one]
  exact .inr rfl

theorem frameIn_congr {mem mem' : Buf} {desc : Desc}
    (h : ∀ i < desc.length, mem' (desc.addr + i) = mem (desc.addr + i)) :
    frameIn mem' desc = frameIn mem desc :=
  List.map_congr_left fun i hi => h i (List.mem_range.1 hi)

theorem copyBytes_frame (dst : ℕ) (bytes : List UInt8) (mem : Buf) :
    ((List.range bytes.length).map fun i =>
      copyBytes dst (bytes.getD · 0) bytes.length mem (dst + i)) = bytes := by
  refine List.ext_getElem (by simp) fun i _ hi => ?_
  rw [List.getElem_map, List.getElem_range, copyBytes_inside hi]
  simp [hi]

theorem Ring.store (h : Ring rxBuffers d s) (f : Frame) : Ring rxBuffers d (s.store f) := by
  unfold Rx.store
  split_ifs with hfull
  · exact h
  have hahead := h.ahead
  have hbehind := h.behind
  have hgiven := h.given_le
  have hlow := s.pc.le_given d
  have hroom : s.stored.length < 127 + d := by
    rw [h.rdh, h.rdt] at hfull
    omega
  have hbefore : ∀ k, s.pc.given d ≤ k → k < s.stored.length → k % 128 ≠ s.rdh := by
    intro k hge hlt
    rw [h.rdh]
    omega
  refine ⟨h.rdt, ?_, ?_, ?_, ?_, ?_, ?_, ?_, ?_⟩
  · simp only [h.rdh, List.length_append, List.length_singleton, rxDescCount, Nat.mod_add_mod]
  · simp only [List.length_append, List.length_singleton]
    omega
  · simp only [List.length_append, List.length_singleton]
    omega
  · intro i
    by_cases hi : i = s.rdh
    · subst hi
      simp only [Function.update_self]
      exact h.addr _
    · simp only [Function.update_of_ne hi]
      exact h.addr i
  · intro hd
    simp only
    rw [Function.update_of_ne (by rw [h.rdh]; omega)]
    exact h.first hd
  · exact h.pc.mono (by simp)
  · simp only
    rw [List.take_append_of_le_length hgiven]
    exact h.passed
  · intro k bytes hge hk
    simp only at hge hk ⊢
    by_cases hlt : k < s.stored.length
    · rw [List.getElem?_append_left hlt] at hk
      have hne := hbefore k hge hlt
      obtain ⟨hdone, hshort, hframe⟩ := h.pending k bytes hge hk
      rw [Function.update_of_ne hne]
      refine ⟨hdone, hshort, (frameIn_congr fun i hi => copyBytes_outside ?_).trans hframe⟩
      rw [h.addr, h.addr]
      have hfits := f.fits
      unfold bufferBytes at hfits hshort ⊢
      omega
    · have hnew : k = s.stored.length := by
        have := (List.getElem?_eq_some_iff.1 hk).1
        rw [List.length_append, List.length_singleton] at this
        omega
      subst hnew
      rw [List.getElem?_concat_length, Option.some.injEq] at hk
      rw [← h.rdh, Function.update_self]
      refine ⟨done_or_doneBit _ _, f.fits, ?_⟩
      rw [← hk]
      exact copyBytes_frame _ _ _

theorem step_returns {e : Event} (hret : Returns s e) : s.step e = { s with pc := .idle } := by
  cases e with
  | store f => exact hret.elim
  | recv =>
    have hpc : s.pc = .readRdh s.rdh := hret
    simp only [Rx.step, Rx.recv, hpc, ne_eq, not_true_eq_false, if_false]

section

variable (h : Ring rxBuffers d s)

include h

/-- Past the test on `RDH` the frame of this round is in the descriptor the driver looks at. -/
theorem Ring.current (hpos : 0 < d) (hd : d ≤ s.stored.length)
    (hgiven : s.pc.given d = d - 1) :
    ∃ bytes, s.stored[d - 1]? = some bytes ∧ Shows s.mem (s.descs ((127 + d) % 128)) bytes := by
  have hlt : d - 1 < s.stored.length := by omega
  have hslot : (127 + d) % 128 = (d - 1) % 128 := by omega
  refine ⟨_, List.getElem?_eq_getElem hlt, ?_⟩
  rw [hslot]
  exact h.pending _ _ (by omega) (List.getElem?_eq_getElem hlt)

variable {rdt : ℕ}

theorem Ring.readRdh (hpc : s.pc = .readRdh rdt) : ∃ d', Ring rxBuffers d' s.recv := by
  obtain ⟨hrdt, hrdh, hbehind, hahead, haddr, hfirst, hfits, hpassed, hpending⟩ := h
  rw [hpc] at hfits hpassed hpending
  simp only [Rx.recv, hpc]
  split_ifs with hne
  · refine ⟨d, hrdt, hrdh, hbehind, hahead, haddr, hfirst, ⟨hfits, ?_⟩, hpassed, hpending⟩
    rw [hfits, hrdh] at hne
    show d ≤ s.stored.length
    omega
  · exact ⟨d, hrdt, hrdh, hbehind, hahead, haddr, hfirst, trivial, hpassed, hpending⟩

/-- Only the first round finds a descriptor without a frame. -/
theorem Ring.testStatus (hpc : s.pc = .testStatus rdt) : ∃ d', Ring rxBuffers d' s.recv := by
  have hcurrent : 0 < d → d ≤ s.stored.length → (s.descs ((127 + d) % 128)).done = true := by
    intro hpos hd
    obtain ⟨bytes, -, hshows⟩ := h.current hpos hd (by rw [hpc]; rfl)
    exact hshows.done
  obtain ⟨hrdt, hrdh, hbehind, hahead, haddr, hfirst, hfits, hpassed, hpending⟩ := h
  rw [hpc] at hfits hpassed hpending
  obtain ⟨rfl, hd⟩ := hfits
  simp only [Rx.recv, hpc]
  rcases Nat.eq_zero_or_pos d with rfl | hpos
  · have hdone : (s.descs ((127 + 0) % 128)).done = false := hfirst rfl
    rw [hdone]
    exact ⟨0, hrdt, hrdh, hbehind, hahead, haddr, hfirst, ⟨rfl, hd⟩, hpassed, hpending⟩
  · rw [hcurrent hpos hd]
    exact ⟨d, hrdt, hrdh, hbehind, hahead, haddr, hfirst, ⟨rfl, hd, hpos⟩, hpassed, hpending⟩

theorem Ring.callback (hpc : s.pc = .callback rdt) : ∃ d', Ring rxBuffers d' s.recv := by
  have hcurrent := h.current
  obtain ⟨hrdt, hrdh, hbehind, hahead, haddr, hfirst, hfits, hpassed, hpending⟩ := h
  rw [hpc] at hfits hpassed hpending
  obtain ⟨rfl, hd, hpos⟩ := hfits
  obtain ⟨bytes, hbytes, hshows⟩ := hcurrent hpos hd (by rw [hpc]; rfl)
  have htake : s.stored.take d = s.stored.take (d - 1) ++ [bytes] := by
    rw [← Nat.sub_add_cancel hpos, List.take_add_one, Nat.add_sub_cancel, hbytes]
    rfl
  simp only [Rx.recv, hpc]
  refine ⟨d, hrdt, hrdh, hbehind, hahead, haddr, hfirst, ⟨rfl, hd⟩, ?_, fun k bytes hge hk => ?_⟩
  · show s.passed ++ [frameIn s.mem (s.descs ((127 + d) % 128))] = s.stored.take d
    rw [hshows.frame, htake, hpassed]
    rfl
  · exact hpending k bytes (Nat.le_trans (Nat.sub_le _ _) hge) hk

theorem Ring.resetStatus (hpc : s.pc = .resetStatus rdt) : ∃ d', Ring rxBuffers d' s.recv := by
  obtain ⟨hrdt, hrdh, hbehind, hahead, haddr, hfirst, hfits, hpassed, hpending⟩ := h
  rw [hpc] at hfits hpassed hpending
  obtain ⟨rfl, hd⟩ := hfits
  simp only [Rx.recv, hpc]
  refine ⟨d, hrdt, hrdh, hbehind, hahead, fun i => ?_, fun hzero => ?_, ⟨rfl, hd⟩, hpassed,
    fun k bytes hge hk => ?_⟩
  · by_cases hi : i = (127 + d) % 128
    · subst hi
      simp only [Function.update_self]
      exact haddr _
    · simp only [Function.update_of_ne hi]
      exact haddr i
  · subst hzero
    simp only [Nat.add_zero, Nat.reduceMod, Function.update_self]
    rfl
  · have hlt : k < s.stored.length := (List.getElem?_eq_some_iff.1 hk).1
    have hge : d ≤ k := hge
    have hne : k % 128 ≠ (127 + d) % 128 := by omega
    simp only [Function.update_of_ne hne]
    exact hpending k bytes hge hk

theorem Ring.writeRdt (hpc : s.pc = .writeRdt rdt) : ∃ d', Ring rxBuffers d' s.recv := by
  obtain ⟨hrdt, hrdh, hbehind, hahead, haddr, hfirst, hfits, hpassed, hpending⟩ := h
  rw [hpc] at hfits hpassed hpending
  obtain ⟨rfl, hd⟩ := hfits
  have hnext : ((127 + d) % 128 + 1) % rxDescCount = (127 + (d + 1)) % 128 := Nat.mod_add_mod ..
  simp only [Rx.recv, hpc]
  exact ⟨d + 1, hnext, hrdh, Nat.succ_le_succ hd, Nat.le_succ_of_le hahead, haddr,
    fun hzero => absurd hzero (Nat.succ_ne_zero d), hnext, hpassed, hpending⟩

theorem Ring.recv : ∃ d', Ring rxBuffers d' s.recv := by
  rcases hpc : s.pc with _ | rdt | rdt | rdt | rdt | rdt
  · obtain ⟨hrdt, hrdh, hbehind, hahead, haddr, hfirst, hfits, hpassed, hpending⟩ := h
    rw [hpc] at hpassed hpending
    simp only [Rx.recv, hpc]
    exact ⟨d, hrdt, hrdh, hbehind, hahead, haddr, hfirst, hrdt, hpassed, hpending⟩
  · exact h.readRdh hpc
  · exact h.testStatus hpc
  · exact h.callback hpc
  · exact h.resetStatus hpc
  · exact h.writeRdt hpc

theorem Ring.step (e : Event) : ∃ d', Ring rxBuffers d' (s.step e) := by
  cases e with
  | store f => exact ⟨d, h.store f⟩
  | recv => exact h.recv

theorem Ring.of_returns {e : Event} (hret : Returns s e) :
    s.pc = .readRdh s.rdh ∧ s.rdh = (127 + d) % 128 := by
  cases e with
  | store f => exact hret.elim
  | recv =>
    have hpc : s.pc = .readRdh s.rdh := hret
    have hfits := h.pc
    rw [hpc] at hfits
    exact ⟨hpc, hfits⟩

/-- When `e1000_recv` returns the card owns no descriptor. -/
theorem Ring.returns_full {e : Event} (hret : Returns s e) : (s.step e).rdh = (s.step e).rdt := by
  rw [step_returns hret]
  exact (h.of_returns hret).2.trans h.rdt.symm

theorem Ring.losesNothing_iff (e : Event) : LosesNothing s e ↔ ¬ Returns s e := by
  constructor
  · intro hkeeps hret
    exact (hkeeps.2 hret).2 (h.returns_full hret)
  · intro hret
    obtain ⟨d', h'⟩ := h.step e
    refine ⟨?_, fun hret' => absurd hret' hret⟩
    rw [h'.passed]
    exact List.take_prefix _ _

end

/-- The receive ring loses nothing exactly as long as `e1000_recv` has not returned. -/
theorem receive_ring_iff (rxBuffers : ℕ) (old : ℕ → Desc) (mem : Buf) (es : List Event) :
    Runs.Along Rx.step LosesNothing (Rx.init rxBuffers old mem) es ↔
      Runs.Along Rx.step (fun s e => ¬ Returns s e) (Rx.init rxBuffers old mem) es := by
  have hinit : ∃ d, Ring rxBuffers d (Rx.init rxBuffers old mem) := ⟨0, ring_init old mem⟩
  constructor
  · refine Runs.along_of_inv (I := fun s => ∃ d, Ring rxBuffers d s) ?_ ?_ es hinit
    · rintro s e ⟨d, h⟩ -
      exact h.step e
    · rintro s e ⟨d, h⟩ hkeeps
      exact (h.losesNothing_iff e).1 hkeeps
  · refine Runs.along_of_inv (I := fun s => ∃ d, Ring rxBuffers d s) ?_ ?_ es hinit
    · rintro s e ⟨d, h⟩ -
      exact h.step e
    · rintro s e ⟨d, h⟩ hret
      exact (h.losesNothing_iff e).2 hret

/-- A call with nothing received leaves the card without a descriptor. -/
theorem empty_recv_starves : ¬ Runs.Along Rx.step LosesNothing
    (Rx.init 0x200000 (fun _ => ⟨0, 0, 0, 0⟩) fun _ => 0) (List.replicate 5 .recv) := by
  rintro ⟨-, -, -, -, hreturn, -⟩
  exact (hreturn.2 rfl).2 rfl

end Receive

end E1000

end PeanutKernel
