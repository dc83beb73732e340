import PeanutKernel.SchedRun
import PeanutKernel.Proofs.Sched

/-!
# What exec leaves in the process table

`jump_to_ring3` creates a process for the image it enters, for an exec just as at boot, but a
current process stays current. So an exec always adds a runnable process (`jumpToRing3_count`),
and the slot it filled keeps its creation frame until round-robin reaches it, which starts the
image a second time (`entryStarts_pos`).
-/

namespace PeanutKernel

variable {N : ℕ} {s s' : Sched N} {entry userRsp : UInt64}

theorem jumpToRing3_some (h : jumpToRing3 s entry userRsp = some s') {c : Fin N}
    (hc : s.currentProc = some c) :
    ∃ slot, allocProc s = some slot ∧ s' = { s with
      userPreemptArmed := true
      procs := Function.update s.procs slot
        ⟨.runnable, s.nextPid, 0, 0, userFrame entry 0x202 userRsp⟩
      nextPid := s.nextPid + 1 } := by
  unfold jumpToRing3 schedCreateUser at h
  rcases ha : allocProc s with _ | slot
  · simp [ha] at h
  · simp only [ha] at h
    split_ifs at h
    simp only [Option.some.injEq] at h
    refine ⟨slot, rfl, ?_⟩
    rw [← h]
    simp [schedArmUserPreempt, hc]

section Count

theorem runnable_update {slot : Fin N} {p : Process} (hu : (s.procs slot).state = .unused)
    (hp : p.state = .runnable) :
    (Finset.univ.filter fun i => (Function.update s.procs slot p i).state = .runnable)
      = insert slot (Finset.univ.filter fun i => (s.procs i).state = .runnable) := by
  ext i
  by_cases hi : i = slot
  · subst hi
    simp [hp]
  · simp [hi]

theorem jumpToRing3_count (h : jumpToRing3 s entry userRsp = some s') {c : Fin N}
    (hc : s.currentProc = some c) :
    schedRunnableCount s' = schedRunnableCount s + 1 := by
  obtain ⟨slot, hslot, rfl⟩ := jumpToRing3_some h hc
  have hu := allocProc_unused hslot
  simp only [schedRunnableCount]
  rw [runnable_update hu rfl, Finset.card_insert_of_notMem]
  simp [hu]

theorem jumpToRing3_currentPid (h : jumpToRing3 s entry userRsp = some s') {c : Fin N}
    (hc : s.currentProc = some c) (hr : (s.procs c).state = .runnable) :
    schedCurrentPid s' = schedCurrentPid s := by
  obtain ⟨slot, hslot, rfl⟩ := jumpToRing3_some h hc
  have hne : c ≠ slot := by
    rintro rfl
    rw [allocProc_unused hslot] at hr
    cases hr
  simp [schedCurrentPid, hc, hne]

end Count

section RoundRobin

theorem fromUser_userFrame (rip flags rsp : UInt64) : fromUser (userFrame rip flags rsp) := by
  show (0x23 : UInt64) &&& 3 = 3
  decide

/-- A runnable slot that is not current is resumed with the frame it holds, within one more tick
than its distance from where round-robin starts looking. -/
theorem entryStarts_pos (entry userRsp : UInt64) {sp : Frame} (hu : fromUser sp) (target : Fin N) :
    ∀ (d : ℕ) (s : Sched N) (k : ℕ), s.userPreemptArmed = true → s.currentProc ≠ some target →
      (s.procs target).state = .runnable →
      (s.procs target).frame = userFrame entry 0x202 userRsp →
      d < N → target.val = (rrStart s + d) % N → d < k →
      1 ≤ entryStarts .rr target entry userRsp s (List.replicate k sp) := by
  intro d
  induction d using Nat.strong_induction_on with
  | _ d ih =>
    intro s k harm hcur hr hf hd ht hk
    obtain ⟨k, rfl⟩ : ∃ j, k = j + 1 := ⟨k - 1, by omega⟩
    set t := saveCurrent (countJiffy s) sp with hdef
    have hsave : t.procs target = s.procs target :=
      saveCurrent_of_ne (by simpa [countJiffy] using hcur)
    have hstart : rrStart t = rrStart s := by simp [hdef, rrStart, countJiffy]
    have htt : target.val = (rrStart t + d) % N := by rw [hstart]; exact ht
    have hrt : (t.procs target).state = .runnable := by rw [hsave]; exact hr
    obtain ⟨n, hnd, hn⟩ := chooseRr_of_runnable hd htt hrt
    have hdisp := irqTimerDispatch_user .rr harm hu
    simp only [chooseNext, ← hdef, hn] at hdisp
    rw [List.replicate_succ, entryStarts, hdisp]
    by_cases htgt : rrIndex t n = target
    · rw [htgt, if_pos ⟨rfl, by simp only [resumedFrame, hsave, hf]⟩]
      omega
    · have hlt : n.val < d := by
        rcases Nat.lt_or_eq_of_le hnd with h | h
        · exact h
        · exact absurd (rrIndex_eq htt h) htgt
      have hnext : target.val = ((rrIndex t n).val + 1 + (d - n.val - 1)) % N := by
        have hv : (rrIndex t n).val = (rrStart t + n.val) % N := rfl
        rw [hv, htt, Nat.add_assoc, Nat.mod_add_mod]
        congr 1
        omega
      have harm' : t.userPreemptArmed = true := by simpa [hdef, countJiffy] using harm
      have hrest := ih (d - n.val - 1) (by omega) { t with currentProc := some (rrIndex t n) } k
        harm' (by simpa using htgt) hrt (by rw [hsave]; exact hf) (by omega) hnext (by omega)
      exact hrest.trans (Nat.le_add_left _ _)

end RoundRobin

/-- No successful exec with a runnable current process replaces its caller: it leaves one more
process runnable, and under round-robin some continuation starts the image again. -/
theorem exec_never_replaces_caller (pol : SchedPolicy) {c : Fin N} (hc : s.currentProc = some c)
    (hr : (s.procs c).state = .runnable) (h : jumpToRing3 s entry userRsp = some s') :
    ¬ ExecReplacesCaller pol s s' entry userRsp ∧
      schedRunnableCount s' = schedRunnableCount s + 1 ∧
      schedCurrentPid s' = schedCurrentPid s ∧
      ∃ (slot : Fin N) (sps : List Frame), allocProc s = some slot ∧
        (∀ sp ∈ sps, fromUser sp ∧ sp ≠ userFrame entry 0x202 userRsp) ∧
        2 ≤ 1 + entryStarts .rr slot entry userRsp s' sps := by
  have hcount := jumpToRing3_count h hc
  refine ⟨?_, hcount, jumpToRing3_currentPid h hc hr, ?_⟩
  · rintro ⟨hsame, -⟩
    omega
  · obtain ⟨slot, hslot, rfl⟩ := jumpToRing3_some h hc
    have hne : c ≠ slot := by
      rintro rfl
      rw [allocProc_unused hslot] at hr
      cases hr
    have hcN := c.isLt
    have hsN := slot.isLt
    have hu := fromUser_userFrame (entry + 1) 0x202 userRsp
    refine ⟨slot, List.replicate N (userFrame (entry + 1) 0x202 userRsp), hslot, ?_, ?_⟩
    · intro sp hsp
      rw [List.eq_of_mem_replicate hsp]
      refine ⟨hu, fun heq => ?_⟩
      have := congrFun heq 15
      simp [userFrame] at this
    · have hdist : slot.val = (c.val + 1 + (slot.val + N - (c.val + 1)) % N) % N := by
        rw [Nat.add_mod_mod, show c.val + 1 + (slot.val + N - (c.val + 1)) = slot.val + N by omega,
          Nat.add_mod_right, Nat.mod_eq_of_lt hsN]
      have hlt : (slot.val + N - (c.val + 1)) % N < N := Nat.mod_lt _ (by omega)
      have hpos := entryStarts_pos entry userRsp hu slot _ { s with
          userPreemptArmed := true
          procs := Function.update s.procs slot
            ⟨.runnable, s.nextPid, 0, 0, userFrame entry 0x202 userRsp⟩
          nextPid := s.nextPid + 1 } N rfl (by simpa [hc] using hne) (by simp)
        (by simp) hlt (by simpa [rrStart, hc] using hdist) hlt
      omega

/-- The table of the default configuration with the first process running. -/
def initRunning : Sched 2000 := (Cpu.boot (by decide) 0 0x400000 0x7000).sched

/-- `initRunning` after an exec of an image with entry point `0x500000`. -/
def initExec : Sched 2000 := (jumpToRing3 initRunning 0x500000 0x6ff0).get (by decide +kernel)

theorem initExec_eq : jumpToRing3 initRunning 0x500000 0x6ff0 = some initExec :=
  (Option.some_get _).symm

theorem exec_never_replaces_caller_init :
    schedRunnableCount initExec = schedRunnableCount initRunning + 1 ∧
      ∃ (slot : Fin 2000) (sps : List Frame), allocProc initRunning = some slot ∧
        2 ≤ 1 + entryStarts .rr slot 0x500000 0x6ff0 initExec sps := by
  obtain ⟨-, hcount, -, slot, sps, hslot, -, hstarts⟩ :=
    exec_never_replaces_caller .rr (c := 0) (by decide +kernel) (by decide +kernel) initExec_eq
  exact ⟨hcount, slot, sps, hslot, hstarts⟩

/-- The first exec of the first process already leaves its caller in the table. -/
theorem initExec_keeps_caller :
    initRunning.currentProc = some 0 ∧ (initRunning.procs 0).state = .runnable ∧
      jumpToRing3 initRunning 0x500000 0x6ff0 = some initExec ∧
      ¬ ExecReplacesCaller .rr initRunning initExec 0x500000 0x6ff0 := by
  have hcur : initRunning.currentProc = some 0 := by decide +kernel
  refine ⟨hcur, by decide +kernel, initExec_eq, ?_⟩
  rintro ⟨hsame, -⟩
  rw [jumpToRing3_count initExec_eq hcur] at hsame
  omega

end PeanutKernel
