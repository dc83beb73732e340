import PeanutKernel.Lib.CycleRing
import PeanutKernel.Xhci

/-!
# Runs of the command ring

The driver is in lap `L` of the ring, the number of times it has written the Link TRB, and the
controller in lap `L'`, the number of times it has followed it. A TRB has the cycle bit of the lap
it was last written in, so the controller executes the commands in order as long as the driver is
at most one lap ahead (`Tracks`). At a call that is so, but the driver may finish the next lap, and
write the Link TRB again, while the controller has yet to follow it. It then waits for ever.
-/

namespace PeanutKernel

namespace Xhci

open CycleRing

/-- A TRB without its cycle bit. -/
def Trb.content (t : Trb) : Trb := { t with control := t.control - t.control % 2 }

theorem trbType_content (t : Trb) : trbType t.content.control = trbType t.control := by
  simp only [Trb.content, trbType]
  omega

section Words

theorem or_cycleBit (c : Command) (cycle : Bool) :
    c.trb.control ||| cycleBit cycle = c.trb.control + cycleBit cycle := by
  have heven : c.trb.control = 2 ^ 1 * (c.trb.control / 2) := by
    have := c.noCycle
    omega
  have hbit : cycleBit cycle < 2 ^ 1 := by cases cycle <;> decide
  rw [heven]
  exact (Nat.two_pow_add_eq_or_of_lt hbit _).symm

theorem cycle_or (c : Command) (cycle : Bool) :
    decide ((c.trb.control ||| cycleBit cycle) % 2 = 1) = cycle := by
  have heven := c.noCycle
  rw [or_cycleBit]
  cases cycle
  · exact decide_eq_false (by unfold cycleBit; simp; omega)
  · exact decide_eq_true (by unfold cycleBit; simp; omega)

theorem content_or (c : Command) (cycle : Bool) {t : Trb}
    (hparameter : t.parameter = c.trb.parameter) (hstatus : t.status = c.trb.status)
    (hcontrol : t.control = c.trb.control ||| cycleBit cycle) :
    t.content = c.trb := by
  have heven := c.noCycle
  have hbit : cycleBit cycle ≤ 1 := by cases cycle <;> decide
  have hword : t.control - t.control % 2 = c.trb.control := by
    rw [hcontrol, or_cycleBit]
    omega
  rw [Trb.content, hparameter, hstatus, hword]

theorem linkWord_cycle (cycle : Bool) : decide (linkWord cycle % 2 = 1) = cycle := by
  cases cycle <;> decide

theorem linkWord_type (cycle : Bool) : trbType (linkWord cycle) = trbTypeLink := by
  cases cycle <;> decide

theorem linkWord_toggle (cycle : Bool) : decide (linkWord cycle / 2 % 2 = 1) = true := by
  cases cycle <;> decide

end Words

/-- What `xhci_cmd` has done so far in the call it is in. -/
def Pc.Fits (s : Ring) : Pc → Prop
  | .idle => s.cmdIndex < 255
  | .status c => s.cmdIndex < 255 ∧ s.submitted.length ≤ s.executed.length + 254 ∧
      (s.trbs s.cmdIndex).parameter = c.trb.parameter
  | .control c => s.cmdIndex < 255 ∧ s.submitted.length ≤ s.executed.length + 254 ∧
      (s.trbs s.cmdIndex).parameter = c.trb.parameter ∧
      (s.trbs s.cmdIndex).status = c.trb.status
  | _ => s.cmdIndex = 255

structure Tracks (L L' : ℕ) (s : Ring) : Prop where
  submitted : s.submitted.length = 255 * L + s.cmdIndex
  executed : s.executed.length = 255 * L' + s.dequeue
  index_le : s.cmdIndex ≤ 255
  dequeue_le : s.dequeue ≤ 255
  behind : s.executed <+: s.submitted
  room : s.submitted.length ≤ s.executed.length + 255
  lap_le : L' ≤ L
  le_lap : L ≤ L' + 1
  cmdCycle : s.cmdCycle = lapBit L
  cycleState : s.cycleState = lapBit L'
  bits : ∀ i < 255, (s.trbs i).cycle = slotBit L s.cmdIndex i
  link : (s.trbs 255).control = if L = 0 then 0 else linkWord (!lapBit L)
  pending : ∀ k t, s.executed.length ≤ k → s.submitted[k]? = some t →
    (s.trbs (k % 255)).content = t
  commands : ∀ t ∈ s.submitted, trbType t.control ≠ trbTypeLink
  pc : s.pc.Fits s

theorem tracks_init (cmdRing : ℕ) : Tracks 0 0 (Ring.init cmdRing) where
  submitted := rfl
  executed := rfl
  index_le := Nat.zero_le _
  dequeue_le := Nat.zero_le _
  behind := List.prefix_rfl
  room := Nat.zero_le _
  lap_le := le_rfl
  le_lap := Nat.zero_le _
  cmdCycle := rfl
  cycleState := rfl
  bits _ _ := rfl
  link := rfl
  pending k t _ h := by simp [Ring.init] at h
  commands t h := by simp [Ring.init] at h
  pc := Nat.zero_lt_succ _

section Driver

variable {L L' : ℕ} {s : Ring} (h : Tracks L L' s)

include h

/-- The TRB the driver writes holds no command that is still to be executed. -/
theorem Tracks.slot_free (hfree : s.cmdIndex = 255 ∨ s.submitted.length ≤ s.executed.length + 254)
    {k : ℕ} {t : Trb} (hge : s.executed.length ≤ k) (hk : s.submitted[k]? = some t) :
    k % 255 ≠ s.cmdIndex := by
  have hlt := (List.getElem?_eq_some_iff.1 hk).1
  have hsubmitted := h.submitted
  rcases hfree with hfree | hfree <;> omega

/-- A store to it that leaves the control word as it is. -/
theorem Tracks.setTrb (hfree : s.cmdIndex = 255 ∨ s.submitted.length ≤ s.executed.length + 254)
    {f : Trb → Trb} (hf : ∀ t, (f t).control = t.control) {pc : Pc}
    (hpc : pc.Fits { s with trbs := s.setTrb s.cmdIndex f, pc := pc }) :
    Tracks L L' { s with trbs := s.setTrb s.cmdIndex f, pc := pc } := by
  have hcontrol : ∀ i, (s.setTrb s.cmdIndex f i).control = (s.trbs i).control := by
    intro i
    unfold Ring.setTrb
    by_cases hi : i = s.cmdIndex
    · rw [hi, Function.update_self, hf]
    · rw [Function.update_of_ne hi]
  refine { h with bits := fun i hi => ?_, link := ?_, pending := fun k t hge hk => ?_, pc := hpc }
  · rw [← h.bits i hi]
    simp only [Trb.cycle, hcontrol]
  · rw [← h.link]
    exact hcontrol 255
  · have hne := h.slot_free hfree hge hk
    simp only [Ring.setTrb, Function.update_of_ne hne]
    exact h.pending k t hge hk

theorem Tracks.call (c : Command)
    (hfew : s.submitted.length ≤ s.executed.length + 254) : Tracks L L' (s.call c) := by
  have hpc := h.pc
  unfold Ring.call
  split
  · rename_i hidle
    rw [hidle] at hpc
    refine h.setTrb (.inr hfew) ?_ ?_
    · exact fun _ => rfl
    · refine ⟨hpc, hfew, ?_⟩
      simp [Ring.setTrb]
  · exact h

/-- The store that hands a command over. -/
theorem Tracks.control {c : Command} (hpc : s.pc = .control c)
    (hc : trbType c.trb.control ≠ trbTypeLink) : Tracks L L' s.drive := by
  have hfits := h.pc
  rw [hpc] at hfits
  obtain ⟨hindex, hfew, hparameter, hstatus⟩ := hfits
  have hsubmitted := h.submitted
  simp only [Ring.drive, hpc]
  refine { h with
    submitted := ?_
    index_le := hindex
    behind := h.behind.trans (List.prefix_append _ _)
    room := ?_
    bits := fun i hi => ?_
    link := ?_
    pending := fun k t hge hk => ?_
    commands := fun t ht => ?_
    pc := ?_ }
  · simp only [List.length_append, List.length_singleton]
    omega
  · simp only [List.length_append, List.length_singleton]
    omega
  · rw [slotBit_succ]
    simp only [Ring.setTrb]
    by_cases hi' : i = s.cmdIndex
    · rw [if_pos hi', hi', Function.update_self, ← h.cmdCycle]
      exact cycle_or c _
    · rw [if_neg hi', Function.update_of_ne hi']
      exact h.bits i hi
  · simp only [Ring.setTrb]
    rw [Function.update_of_ne (by omega)]
    exact h.link
  · simp only [Ring.setTrb]
    by_cases hlt : k < s.submitted.length
    · have hk : s.submitted[k]? = some t := by
        rwa [List.getElem?_append_left hlt] at hk
      rw [Function.update_of_ne (h.slot_free (.inr hfew) hge hk)]
      exact h.pending k t hge hk
    · have hnew : k = s.submitted.length := by
        have := (List.getElem?_eq_some_iff.1 hk).1
        rw [List.length_append, List.length_singleton] at this
        omega
      have hslot : k % 255 = s.cmdIndex := by omega
      subst hnew
      rw [List.getElem?_concat_length, Option.some.injEq] at hk
      rw [hslot, Function.update_self, ← hk]
      exact content_or c _ hparameter hstatus rfl
  · rcases List.mem_append.1 ht with ht | ht
    · exact h.commands t ht
    · rw [List.mem_singleton.1 ht]
      exact hc
  · unfold cmdRingTrbs
    split_ifs with hend
    · exact hend
    · show s.cmdIndex + 1 < 255
      omega

/-- The store that ends a lap. -/
theorem Tracks.linkControl (hpc : s.pc = .linkControl)
    (hlink : ¬ (s.dequeue = 255 ∧ s.cycleState ≠ s.cmdCycle)) : Tracks (L + 1) L' s.drive := by
  have hfits : s.cmdIndex = 255 := by
    have := h.pc
    rwa [hpc] at this
  have hsubmitted := h.submitted
  have hlap : L = L' := by
    have hroom := h.room
    have hexecuted := h.executed
    have hdequeue := h.dequeue_le
    have hlow := h.lap_le
    have hhigh := h.le_lap
    by_cases hwaits : s.dequeue = 255
    · have hsame : s.cycleState = s.cmdCycle := not_not.1 fun hne => hlink ⟨hwaits, hne⟩
      rw [h.cycleState, h.cmdCycle] at hsame
      exact (lapBit_eq_iff hlow hhigh).1 hsame.symm
    · omega
  simp only [Ring.drive, hpc]
  refine { h with
    submitted := ?_
    index_le := Nat.zero_le _
    lap_le := Nat.le_succ_of_le h.lap_le
    le_lap := hlap ▸ le_rfl
    cmdCycle := ?_
    bits := fun i hi => ?_
    link := ?_
    pending := fun k t hge hk => ?_
    pc := Nat.zero_lt_succ _ }
  · show s.submitted.length = 255 * (L + 1) + 0
    omega
  · rw [h.cmdCycle, lapBit_succ]
  · rw [slotBit_wrap hi]
    simp only [Ring.setTrb]
    rw [Function.update_of_ne (by omega), h.bits i hi, hfits]
  · simp only [Ring.setTrb]
    rw [hfits, Function.update_self, if_neg (Nat.succ_ne_zero L), lapBit_succ, Bool.not_not,
      h.cmdCycle]
  · simp only [Ring.setTrb]
    rw [Function.update_of_ne (h.slot_free (.inl hfits) hge hk)]
    exact h.pending k t hge hk

theorem Tracks.drive (hsafe : ¬ Derails s .drive) : ∃ L, Tracks L L' s.drive := by
  have hfits := h.pc
  rcases hpc : s.pc with _ | c | c | _ | _ | _
  · refine ⟨L, ?_⟩
    simp only [Ring.drive, hpc]
    exact h
  · rw [hpc] at hfits
    obtain ⟨hindex, hfew, hparameter⟩ := hfits
    refine ⟨L, ?_⟩
    simp only [Ring.drive, hpc]
    refine h.setTrb (.inr hfew) ?_ ?_
    · exact fun _ => rfl
    · refine ⟨hindex, hfew, ?_, ?_⟩
      · simpa [Ring.setTrb] using hparameter
      · simp [Ring.setTrb]
  · refine ⟨L, h.control hpc ?_⟩
    simpa only [Derails, hpc] using hsafe
  · rw [hpc] at hfits
    refine ⟨L, ?_⟩
    simp only [Ring.drive, hpc]
    refine h.setTrb (.inl hfits) ?_ hfits
    exact fun _ => rfl
  · rw [hpc] at hfits
    refine ⟨L, ?_⟩
    simp only [Ring.drive, hpc]
    refine h.setTrb (.inl hfits) ?_ hfits
    exact fun _ => rfl
  · refine ⟨L + 1, h.linkControl hpc fun hwaits => hsafe ?_⟩
    simp only [Derails, hpc]
    exact hwaits

end Driver

section Controller

variable {L L' : ℕ} {s : Ring}

theorem Pc.Fits.consumed {pc : Pc} (h : pc.Fits s) {dequeue : ℕ} {cycleState : Bool}
    {executed : List Trb} (hle : s.executed.length ≤ executed.length) :
    pc.Fits { s with dequeue := dequeue, cycleState := cycleState, executed := executed } := by
  cases pc with
  | idle => exact h
  | status c => exact ⟨h.1, Nat.le_trans h.2.1 (Nat.add_le_add_right hle _), h.2.2⟩
  | control c => exact ⟨h.1, Nat.le_trans h.2.1 (Nat.add_le_add_right hle _), h.2.2⟩
  | linkParameter => exact h
  | linkStatus => exact h
  | linkControl => exact h

theorem concat_prefix {α : Type*} {xs ys : List α} (h : xs <+: ys) (hlt : xs.length < ys.length) :
    xs ++ [ys[xs.length]] <+: ys := by
  obtain ⟨rest, rfl⟩ := h
  cases rest with
  | nil => simp at hlt
  | cons y rest =>
    refine ⟨rest, ?_⟩
    simp

theorem consume_submitted (s : Ring) : s.consume.submitted = s.submitted := by
  simp only [Ring.consume]
  split_ifs <;> rfl

theorem consume_pc (s : Ring) : s.consume.pc = s.pc := by
  simp only [Ring.consume]
  split_ifs <;> rfl

theorem iterate_submitted (s : Ring) : ∀ k, (Ring.consume^[k] s).submitted = s.submitted
  | 0 => rfl
  | k + 1 => by
    rw [Function.iterate_succ_apply', consume_submitted, iterate_submitted s k]

variable (h : Tracks L L' s)

include h

/-- The next command, if it was handed over, is executed. -/
theorem Tracks.execute (hlt : s.executed.length < s.submitted.length)
    (hdequeue : s.dequeue < 255) :
    Tracks L L' s.consume ∧ s.consume.executed.length = s.executed.length + 1 ∧
      s.consume.dequeue = s.dequeue + 1 := by
  have hroom := h.room
  have hsubmitted := h.submitted
  have hexecuted := h.executed
  have hget := List.getElem?_eq_getElem hlt
  have hslot : s.executed.length % 255 = s.dequeue := by omega
  have hcontent := h.pending _ _ le_rfl hget
  rw [hslot] at hcontent
  have hcycle : (s.trbs s.dequeue).cycle = s.cycleState := by
    rw [h.bits _ hdequeue, h.cycleState,
      slotBit_eq_lapBit_iff h.lap_le h.le_lap hdequeue (by omega)]
    omega
  have htype : trbType (s.trbs s.dequeue).control ≠ trbTypeLink := by
    rw [← trbType_content, hcontent]
    exact h.commands _ (List.getElem_mem hlt)
  have hstep : s.consume = { s with
      dequeue := s.dequeue + 1
      executed := s.executed ++ [(s.trbs s.dequeue).content] } := by
    simp only [Ring.consume]
    rw [if_pos hcycle, if_neg htype]
    rfl
  rw [hstep]
  refine ⟨{ h with
    executed := ?_
    dequeue_le := hdequeue
    behind := ?_
    room := ?_
    pending := fun k t hge hk => ?_
    pc := ?_ }, ?_, rfl⟩
  · simp only [List.length_append, List.length_singleton]
    omega
  · rw [hcontent]
    exact concat_prefix h.behind hlt
  · simp only [List.length_append, List.length_singleton]
    omega
  · simp only [List.length_append, List.length_singleton] at hge
    exact h.pending k t (by omega) hk
  · exact h.pc.consumed (by simp)
  · simp only [List.length_append, List.length_singleton]

/-- At the Link TRB the controller goes back to the first, once the driver has come that far. -/
theorem Tracks.follow (hdequeue : s.dequeue = 255) (hlap : L = L' + 1) :
    s.consume = { s with dequeue := 0, cycleState := !s.cycleState } ∧
      Tracks L (L' + 1) s.consume := by
  have hlink := h.link
  rw [if_neg (by omega)] at hlink
  have hcycle : (s.trbs s.dequeue).cycle = s.cycleState := by
    rw [hdequeue, h.cycleState, Trb.cycle, hlink, linkWord_cycle,
      not_lapBit_eq_iff h.lap_le h.le_lap]
    exact hlap
  have htype : trbType (s.trbs s.dequeue).control = trbTypeLink := by
    rw [hdequeue, hlink, linkWord_type]
  have htoggle : (s.trbs s.dequeue).toggle = true := by
    rw [hdequeue, Trb.toggle, hlink, linkWord_toggle]
  have hstep : s.consume = { s with dequeue := 0, cycleState := !s.cycleState } := by
    simp only [Ring.consume]
    rw [if_pos hcycle, if_pos htype, if_pos htoggle]
  refine ⟨hstep, ?_⟩
  have hexecuted := h.executed
  rw [hstep]
  refine { h with
    executed := ?_
    dequeue_le := Nat.zero_le _
    lap_le := Nat.le_of_eq hlap.symm
    le_lap := Nat.le_succ_of_le h.le_lap
    cycleState := ?_
    pc := h.pc.consumed le_rfl }
  · show s.executed.length = 255 * (L' + 1) + 0
    omega
  · rw [h.cycleState, lapBit_succ]

/-- Nothing to execute, or the Link TRB not yet written: the controller waits. -/
theorem Tracks.wait (hwait : s.dequeue < 255 ∧ s.executed.length = s.submitted.length ∨
      s.dequeue = 255 ∧ L = L') : s.consume = s := by
  have hcycle : (s.trbs s.dequeue).cycle ≠ s.cycleState := by
    rw [h.cycleState]
    rcases hwait with ⟨hdequeue, hall⟩ | ⟨hdequeue, rfl⟩
    · have hsubmitted := h.submitted
      have hexecuted := h.executed
      rw [h.bits _ hdequeue, Ne,
        slotBit_eq_lapBit_iff h.lap_le h.le_lap hdequeue (by omega)]
      omega
    · rw [hdequeue, Trb.cycle, h.link]
      split_ifs with hzero
      · subst hzero
        decide
      · rw [linkWord_cycle, Ne, not_lapBit_eq_iff le_rfl (Nat.le_succ _)]
        exact (Nat.succ_ne_self _).symm
  simp only [Ring.consume]
  rw [if_neg hcycle]

theorem Tracks.consume : ∃ L', Tracks L L' s.consume := by
  have hsubmitted := h.submitted
  have hexecuted := h.executed
  have hle := h.behind.length_le
  rcases Nat.lt_or_ge s.dequeue 255 with hdequeue | hdequeue
  · rcases Nat.eq_or_lt_of_le hle with hall | hlt
    · rw [h.wait (.inl ⟨hdequeue, hall⟩)]
      exact ⟨L', h⟩
    · exact ⟨L', (h.execute hlt hdequeue).1⟩
  · have hdequeue : s.dequeue = 255 := Nat.le_antisymm h.dequeue_le hdequeue
    rcases Nat.eq_or_lt_of_le h.lap_le with hlap | hlap
    · rw [h.wait (.inr ⟨hdequeue, hlap.symm⟩)]
      exact ⟨L', h⟩
    · exact ⟨L' + 1, (h.follow hdequeue (Nat.le_antisymm h.le_lap hlap)).2⟩

/-- Two steps of the controller are enough for the next command. -/
theorem Tracks.progress (hlt : s.executed.length < s.submitted.length) :
    ∃ k L', Tracks L L' (Ring.consume^[k] s) ∧
      (Ring.consume^[k] s).executed.length = s.executed.length + 1 := by
  have hsubmitted := h.submitted
  have hexecuted := h.executed
  have hindex := h.index_le
  have hhigh := h.le_lap
  rcases Nat.lt_or_ge s.dequeue 255 with hdequeue | hdequeue
  · obtain ⟨hnext, hlength, -⟩ := h.execute hlt hdequeue
    exact ⟨1, L', hnext, hlength⟩
  · have hdequeue : s.dequeue = 255 := Nat.le_antisymm h.dequeue_le hdequeue
    obtain ⟨hstep, hnext⟩ := h.follow hdequeue (by omega)
    have hback : s.consume.dequeue < 255 := by
      rw [hstep]
      exact Nat.zero_lt_succ _
    have hsame : s.consume.executed = s.executed := by rw [hstep]
    obtain ⟨hnext, hlength, -⟩ := hnext.execute (by rwa [hsame, consume_submitted]) hback
    exact ⟨2, L' + 1, hnext, by rw [← hsame]; exact hlength⟩

theorem Tracks.executesAll : ExecutesAll s := by
  refine ⟨h.behind, ?_⟩
  -- by induction on how many commands are outstanding
  induction hleft : s.submitted.length - s.executed.length generalizing s L' with
  | zero =>
    refine ⟨0, h.behind.eq_of_length ?_⟩
    have := h.behind.length_le
    omega
  | succ left ih =>
    obtain ⟨k, L₁, hnext, hlength⟩ := h.progress (by omega)
    have hsame := iterate_submitted s k
    obtain ⟨n, hn⟩ := ih hnext (by rw [hsame, hlength]; omega)
    refine ⟨n + k, ?_⟩
    rw [Function.iterate_add_apply, hn, hsame]

end Controller

section Derailed

variable {s : Ring}

/-- The driver is idle, and the controller waits at a Link TRB of the wrong lap for all 255
commands of a lap. -/
structure Stalled (s : Ring) : Prop where
  pc : s.pc = .idle
  cycle : (s.trbs s.dequeue).cycle ≠ s.cycleState
  full : s.submitted.length = s.executed.length + 255

theorem Stalled.consume (h : Stalled s) : s.consume = s := by
  simp only [Ring.consume]
  rw [if_neg h.cycle]

theorem Stalled.step {e : Event} (h : Stalled s) (hfew : FewOutstanding s e) : s.step e = s := by
  have hfull := h.full
  cases e with
  | call c =>
    have hfew : s.submitted.length ≤ s.executed.length + 254 := hfew
    omega
  | drive => simp only [Ring.step, Ring.drive, h.pc]
  | consume => exact h.consume

theorem Stalled.foldl : ∀ (es : List Event) {s : Ring}, Stalled s →
    Runs.Along Ring.step FewOutstanding s es → es.foldl Ring.step s = s
  | [], _, _, _ => rfl
  | e :: es, s, h, hfew => by
    have hstep := h.step hfew.1
    rw [List.foldl_cons, hstep]
    exact h.foldl es (hstep ▸ hfew.2)

theorem Stalled.not_executesAll (h : Stalled s) : ¬ ExecutesAll s := by
  rintro ⟨-, n, hn⟩
  rw [Function.iterate_fixed h.consume] at hn
  have hfull := h.full
  rw [hn] at hfull
  omega

/-- The store that derails the controller at the Link TRB. -/
theorem Tracks.stalled {L L' : ℕ} (h : Tracks L L' s) (hpc : s.pc = .linkControl)
    (hdequeue : s.dequeue = 255) (hne : s.cycleState ≠ s.cmdCycle) : Stalled s.drive := by
  have hindex : s.cmdIndex = 255 := by
    have := h.pc
    rwa [hpc] at this
  have hlap : L = L' + 1 := by
    rw [h.cycleState, h.cmdCycle] at hne
    have hlow := h.lap_le
    have hhigh := h.le_lap
    have hother : L ≠ L' := fun hsame => hne (congrArg lapBit hsame.symm)
    omega
  have hsubmitted := h.submitted
  have hexecuted := h.executed
  simp only [Ring.drive, hpc]
  refine ⟨rfl, ?_, ?_⟩
  · simp only [Ring.setTrb, hdequeue, hindex, Function.update_self, Trb.cycle]
    rw [linkWord_cycle]
    exact hne.symm
  · show s.submitted.length = s.executed.length + 255
    omega

/-- No Link TRB is executed as a command. -/
def NoLinks (s : Ring) : Prop := ∀ t ∈ s.executed, trbType t.control ≠ trbTypeLink

theorem NoLinks.consume (h : NoLinks s) : NoLinks s.consume := by
  unfold NoLinks
  simp only [Ring.consume]
  split_ifs with hcycle htype htoggle
  · exact h
  · exact h
  · intro t ht
    rcases List.mem_append.1 ht with ht | ht
    · exact h t ht
    · rw [List.mem_singleton.1 ht]
      exact (trbType_content _).trans_ne htype
  · exact h

theorem NoLinks.iterate (h : NoLinks s) : ∀ k, NoLinks (Ring.consume^[k] s)
  | 0 => h
  | k + 1 => by
    rw [Function.iterate_succ_apply']
    exact (h.iterate k).consume

theorem executed_call (s : Ring) (c : Command) :
    (s.call c).executed = s.executed ∧ (s.call c).submitted = s.submitted := by
  unfold Ring.call
  split <;> exact ⟨rfl, rfl⟩

theorem executed_drive (s : Ring) :
    s.drive.executed = s.executed ∧ s.submitted <+: s.drive.submitted := by
  unfold Ring.drive
  split
  · exact ⟨rfl, List.prefix_rfl⟩
  · exact ⟨rfl, List.prefix_rfl⟩
  · exact ⟨rfl, List.prefix_append _ _⟩
  · exact ⟨rfl, List.prefix_rfl⟩
  · exact ⟨rfl, List.prefix_rfl⟩
  · exact ⟨rfl, List.prefix_rfl⟩

theorem NoLinks.step (h : NoLinks s) (e : Event) : NoLinks (s.step e) := by
  cases e with
  | call c =>
    unfold NoLinks
    rw [Ring.step, (executed_call s c).1]
    exact h
  | drive =>
    unfold NoLinks
    rw [Ring.step, (executed_drive s).1]
    exact h
  | consume => exact h.consume

theorem step_submitted (s : Ring) (e : Event) : s.submitted <+: (s.step e).submitted := by
  cases e with
  | call c => exact (executed_call s c).2 ▸ List.prefix_rfl
  | drive => exact (executed_drive s).2
  | consume => exact (consume_submitted s) ▸ List.prefix_rfl

theorem foldl_submitted : ∀ (es : List Event) (s : Ring),
    s.submitted <+: (es.foldl Ring.step s).submitted
  | [], _ => List.prefix_rfl
  | e :: es, s => (step_submitted s e).trans (foldl_submitted es (s.step e))

theorem NoLinks.foldl : ∀ (es : List Event) {s : Ring}, NoLinks s → NoLinks (es.foldl Ring.step s)
  | [], _, h => h
  | e :: es, _, h => (h.step e).foldl es

/-- A Link TRB that was handed over as a command is never executed. -/
theorem NoLinks.not_executesAll {t : Trb} (h : NoLinks s) (ht : t ∈ s.submitted)
    (hlink : trbType t.control = trbTypeLink) : ¬ ExecutesAll s := by
  rintro ⟨-, n, hn⟩
  exact h.iterate n t (hn ▸ ht) hlink

end Derailed

section Run

variable {L L' : ℕ} {s : Ring}

theorem Tracks.step {e : Event} (h : Tracks L L' s) (hfew : FewOutstanding s e)
    (hsafe : ¬ Derails s e) : ∃ L L', Tracks L L' (s.step e) := by
  cases e with
  | call c => exact ⟨L, L', h.call c hfew⟩
  | drive =>
    obtain ⟨L₁, h₁⟩ := h.drive hsafe
    exact ⟨L₁, L', h₁⟩
  | consume =>
    obtain ⟨L₁, h₁⟩ := h.consume
    exact ⟨L, L₁, h₁⟩

theorem Tracks.foldl : ∀ (es : List Event) {L L' : ℕ} {s : Ring}, Tracks L L' s →
    Runs.Along Ring.step FewOutstanding s es →
    Runs.Along Ring.step (fun s e => ¬ Derails s e) s es →
    ∃ L L', Tracks L L' (es.foldl Ring.step s)
  | [], L, L', _, h, _, _ => ⟨L, L', h⟩
  | e :: es, _, _, _, h, hfew, hsafe => by
    obtain ⟨L₁, L₁', h₁⟩ := h.step hfew.1 hsafe.1
    exact h₁.foldl es hfew.2 hsafe.2

/-- A driver between two calls has not finished the lap after the one whose end the controller has
come to. -/
theorem Tracks.lt_lap (h : Tracks L L' s) (hpc : s.pc = .idle) (hdequeue : s.dequeue = 255) :
    s.submitted.length < s.executed.length + 255 := by
  have hindex := h.pc
  rw [hpc] at hindex
  have hindex : s.cmdIndex < 255 := hindex
  have hsubmitted := h.submitted
  have hexecuted := h.executed
  have hhigh := h.le_lap
  omega

theorem Tracks.noLinks (h : Tracks L L' s) : NoLinks s :=
  fun t ht => h.commands t (h.behind.subset ht)

/-- A run does not come to execute everything once a step has derailed it. -/
theorem Tracks.derails {e : Event} {es : List Event} (h : Tracks L L' s) (hderails : Derails s e)
    (hfew : Runs.Along Ring.step FewOutstanding (s.step e) es) :
    ¬ ExecutesAll (es.foldl Ring.step (s.step e)) := by
  cases e with
  | call c => exact hderails.elim
  | consume => exact hderails.elim
  | drive =>
    simp only [Derails] at hderails
    split at hderails
    · rename_i c hpc
      have hmem : c.trb ∈ (s.step .drive).submitted := by
        simp [Ring.step, Ring.drive, hpc]
      exact ((h.noLinks.step .drive).foldl es).not_executesAll
        ((foldl_submitted es _).subset hmem) hderails
    · rename_i hpc
      have hstalled : Stalled (s.step .drive) := h.stalled hpc hderails.1 hderails.2
      rw [hstalled.foldl es hfew]
      exact hstalled.not_executesAll
    · exact hderails.elim

theorem Tracks.executesAll_iff : ∀ (es : List Event) {L L' : ℕ} {s : Ring}, Tracks L L' s →
    Runs.Along Ring.step FewOutstanding s es →
    (ExecutesAll (es.foldl Ring.step s) ↔
      Runs.Along Ring.step (fun s e => ¬ Derails s e) s es)
  | [], _, _, _, h, _ => iff_of_true h.executesAll trivial
  | e :: es, _, _, s, h, hfew => by
    rw [List.foldl_cons, Runs.Along]
    by_cases hderails : Derails s e
    · exact iff_of_false (h.derails hderails hfew.2) fun hsafe => hsafe.1 hderails
    · obtain ⟨L₁, L₁', h₁⟩ := h.step hfew.1 hderails
      rw [h₁.executesAll_iff es hfew.2]
      exact (and_iff_right hderails).symm

/-- With at most 254 commands outstanding at each call the controller executes all commands in
their order, unless a step derails it. -/
theorem commands_executed_iff (cmdRing : ℕ) (es : List Event)
    (hfew : Runs.Along Ring.step FewOutstanding (Ring.init cmdRing) es) :
    ExecutesAll (es.foldl Ring.step (Ring.init cmdRing)) ↔
      Runs.Along Ring.step (fun s e => ¬ Derails s e) (Ring.init cmdRing) es :=
  (tracks_init cmdRing).executesAll_iff es hfew

end Run

section Sample

/-- An Enable Slot command. -/
def enableSlot : Command := ⟨⟨0, 0, 9 * 2 ^ 10⟩, rfl⟩

theorem enableSlot_not_link : trbType enableSlot.trb.control ≠ trbTypeLink := by decide

/-- A call of `xhci_cmd` with all its stores. -/
def callEvents : List Event := .call enableSlot :: List.replicate 5 .drive

/-- So many calls, one after the other. -/
def calls (k : ℕ) : List Event := (List.replicate k callEvents).flatten

theorem calls_succ (k : ℕ) : calls (k + 1) = callEvents ++ calls k := by
  rw [calls, List.replicate_succ, List.flatten_cons, calls]

theorem foldl_callEvents {s : Ring} (hpc : s.pc = .idle) :
    (callEvents.foldl Ring.step s).pc = .idle ∧
      (callEvents.foldl Ring.step s).submitted.length = s.submitted.length + 1 ∧
      (callEvents.foldl Ring.step s).executed = s.executed ∧
      (callEvents.foldl Ring.step s).dequeue = s.dequeue := by
  by_cases hend : s.cmdIndex + 1 = cmdRingTrbs - 1
  · simp [callEvents, Ring.step, Ring.call, Ring.drive, hpc, hend]
  · simp [callEvents, Ring.step, Ring.call, Ring.drive, hpc, hend]

theorem along_callEvents {s : Ring} (hfew : s.submitted.length ≤ s.executed.length + 254) :
    Runs.Along Ring.step FewOutstanding s callEvents :=
  ⟨hfew, trivial, trivial, trivial, trivial, trivial, trivial⟩

/-- Calls alone put commands on the ring and leave the controller where it is. -/
theorem foldl_calls : ∀ (k : ℕ) {s : Ring}, s.pc = .idle →
    s.submitted.length + k ≤ s.executed.length + 255 →
    Runs.Along Ring.step FewOutstanding s (calls k) ∧
      ((calls k).foldl Ring.step s).pc = .idle ∧
      ((calls k).foldl Ring.step s).submitted.length = s.submitted.length + k ∧
      ((calls k).foldl Ring.step s).executed = s.executed ∧
      ((calls k).foldl Ring.step s).dequeue = s.dequeue
  | 0, s, hpc, _ => ⟨trivial, hpc, rfl, rfl, rfl⟩
  | k + 1, s, hpc, hfew => by
    obtain ⟨hpc₁, hsubmitted₁, hexecuted₁, hdequeue₁⟩ := foldl_callEvents hpc
    obtain ⟨halong, hpc', hsubmitted, hexecuted, hdequeue⟩ := foldl_calls k hpc₁
      (by rw [hsubmitted₁, hexecuted₁]; omega)
    rw [calls_succ, Runs.along_append, List.foldl_append]
    refine ⟨⟨along_callEvents (by omega), halong⟩, hpc', ?_, hexecuted.trans hexecuted₁,
      hdequeue.trans hdequeue₁⟩
    rw [hsubmitted, hsubmitted₁]
    omega

/-- No call derails a controller that is not at the Link TRB. -/
theorem safe_callEvents {s : Ring} (hpc : s.pc = .idle) (hdequeue : s.dequeue ≠ 255) :
    Runs.Along Ring.step (fun s e => ¬ Derails s e) s callEvents := by
  have hlink := enableSlot_not_link
  by_cases hend : s.cmdIndex + 1 = cmdRingTrbs - 1
  · simp [callEvents, Runs.Along, Derails, Ring.step, Ring.call, Ring.drive, hpc, hend, hlink,
      cmdRingTrbs, hdequeue]
  · simp [callEvents, Runs.Along, Derails, Ring.step, Ring.call, Ring.drive, hpc, hend, hlink]

theorem safe_calls : ∀ (k : ℕ) {s : Ring}, s.pc = .idle → s.dequeue ≠ 255 →
    Runs.Along Ring.step (fun s e => ¬ Derails s e) s (calls k)
  | 0, _, _, _ => trivial
  | k + 1, s, hpc, hdequeue => by
    obtain ⟨hpc₁, -, -, hdequeue₁⟩ := foldl_callEvents hpc
    rw [calls_succ, Runs.along_append]
    exact ⟨safe_callEvents hpc hdequeue, safe_calls k hpc₁ (hdequeue₁ ▸ hdequeue)⟩

theorem along_consumes {P : Ring → Event → Prop} (hP : ∀ s, P s .consume) :
    ∀ (k : ℕ) (s : Ring), Runs.Along Ring.step P s (List.replicate k .consume)
  | 0, _ => trivial
  | k + 1, s => ⟨hP s, along_consumes hP k (s.step .consume)⟩

/-- A lap: 255 commands are submitted, executed, and the Link TRB behind them is followed. -/
theorem commands_executed_iff_lap :
    ExecutesAll ((calls 255 ++ List.replicate 256 Event.consume).foldl Ring.step
      (Ring.init 0x1000)) := by
  refine (commands_executed_iff 0x1000 _ ?_).2 ?_
  · rw [Runs.along_append]
    exact ⟨(foldl_calls 255 rfl le_rfl).1, along_consumes (fun _ => trivial) 256 _⟩
  · rw [Runs.along_append]
    exact ⟨safe_calls 255 rfl (by decide), along_consumes (fun _ => id) 256 _⟩

theorem Tracks.consumes {L L' : ℕ} : ∀ (k : ℕ) {s : Ring}, Tracks L L' s →
    s.executed.length + k ≤ s.submitted.length → s.dequeue + k ≤ 255 →
    ((List.replicate k Event.consume).foldl Ring.step s).pc = s.pc ∧
      ((List.replicate k Event.consume).foldl Ring.step s).submitted = s.submitted ∧
      ((List.replicate k Event.consume).foldl Ring.step s).executed.length =
        s.executed.length + k ∧
      ((List.replicate k Event.consume).foldl Ring.step s).dequeue = s.dequeue + k
  | 0, _, _, _, _ => ⟨rfl, rfl, rfl, rfl⟩
  | k + 1, s, h, hleft, hdequeue => by
    obtain ⟨h₁, hexecuted₁, hdequeue₁⟩ := h.execute (by omega) (by omega)
    have hsubmitted₁ := consume_submitted s
    obtain ⟨hpc, hsubmitted, hexecuted, hdequeue'⟩ :=
      h₁.consumes k (by rw [hsubmitted₁]; omega) (by omega)
    rw [List.replicate_succ, List.foldl_cons]
    exact ⟨hpc.trans (consume_pc s), hsubmitted.trans hsubmitted₁, hexecuted.trans (by omega),
      hdequeue'.trans (by omega)⟩

/-- 255 calls, all executed, but the Link TRB not followed before 255 more. -/
def stallRun : List Event := calls 255 ++ (List.replicate 255 .consume ++ calls 255)

/-- The last call of the second lap marks the Link TRB for that lap, and the controller waits there
for the one before. -/
theorem stallRun_stalls :
    Runs.Along Ring.step FewOutstanding (Ring.init 0x1000) stallRun ∧
      ¬ ExecutesAll (stallRun.foldl Ring.step (Ring.init 0x1000)) := by
  have hstart := tracks_init 0x1000
  obtain ⟨halong₁, hpc₁, hsubmitted₁, hexecuted₁, hdequeue₁⟩ :=
    foldl_calls 255 (s := Ring.init 0x1000) rfl le_rfl
  obtain ⟨L, L', h₁⟩ := hstart.foldl _ halong₁ (safe_calls 255 rfl (by decide))
  have hnone : ((calls 255).foldl Ring.step (Ring.init 0x1000)).executed.length = 0 := by
    rw [hexecuted₁]
    rfl
  have hstart₁ : ((calls 255).foldl Ring.step (Ring.init 0x1000)).dequeue = 0 := hdequeue₁
  have hlap : ((calls 255).foldl Ring.step (Ring.init 0x1000)).submitted.length = 255 :=
    hsubmitted₁
  obtain ⟨hpc₂, hsubmitted₂, hexecuted₂, hdequeue₂⟩ := h₁.consumes 255 (by omega) (by omega)
  obtain ⟨halong₃, hpc₃, hsubmitted₃, hexecuted₃, hdequeue₃⟩ := foldl_calls 255
    (hpc₂.trans hpc₁) (by rw [hsubmitted₂]; omega)
  have halong : Runs.Along Ring.step FewOutstanding (Ring.init 0x1000) stallRun := by
    rw [stallRun, Runs.along_append, Runs.along_append]
    exact ⟨halong₁, along_consumes (fun _ => trivial) 255 _, halong₃⟩
  refine ⟨halong, fun hall => ?_⟩
  obtain ⟨L₂, L₂', h⟩ := hstart.foldl _ halong ((hstart.executesAll_iff _ halong).1 hall)
  rw [stallRun, List.foldl_append, List.foldl_append] at h
  have hroom := h.lt_lap hpc₃ (by omega)
  rw [hexecuted₃] at hroom
  rw [hsubmitted₂] at hsubmitted₃
  omega

end Sample

end Xhci

end PeanutKernel
