import PeanutKernel.SchedRun
import PeanutKernel.Proofs.Sched

/-!
# No context is lost or replayed

As long as the running process is runnable it is the current one, so a tick saves the interrupted
frame where the process will be resumed from, and every other runnable slot still holds the frame
its process was interrupted with (`ContextInv`). A `sched_kill` breaks this in one way only: it
clears `current_proc` for any signal, so a signal that is not fatal leaves the running process
runnable with no slot to save it into.
-/

namespace PeanutKernel

variable {N : ℕ} {pol : SchedPolicy} {c : Cpu N}

/-- What the table keeps of the processor, in runs with no `NonFatalSelfKill`. -/
structure ContextInv (c : Cpu N) : Prop where
  armed : c.sched.userPreemptArmed = true
  used : (c.sched.procs c.running).state ≠ .unused
  current : ∀ i, c.sched.currentProc = some i → i = c.running
  runs : (c.sched.procs c.running).state = .runnable → c.sched.currentProc = some c.running
  saved : ∀ i, i ≠ c.running → (c.sched.procs i).state = .runnable →
    (c.sched.procs i).frame = c.context i

theorem contextInv_boot (hN : 0 < N) (jiffies : ℕ) (entry userRsp : UInt64) :
    ContextInv (Cpu.boot hN jiffies entry userRsp) := by
  have halloc : allocProc (schedInit jiffies : Sched N) = some ⟨0, hN⟩ := by
    refine Fin.find?_eq_some_iff.2 ⟨by simp [schedInit], fun j hj => ?_⟩
    exact absurd (Fin.lt_def.1 hj) (Nat.not_lt_zero _)
  have hcreate : (schedCreateUser (schedInit jiffies : Sched N) entry userRsp).2
      = { (schedInit jiffies : Sched N) with
          procs := Function.update (schedInit jiffies : Sched N).procs ⟨0, hN⟩
            ⟨.runnable, 1, 0, 0, userFrame entry 0x202 userRsp⟩
          nextPid := 2
          currentProc := some ⟨0, hN⟩ } := by
    simp only [schedCreateUser, halloc]
    rfl
  constructor
  · rfl
  · simp [Cpu.boot, hcreate, schedArmUserPreempt]
  · intro i hi
    simp only [Cpu.boot, hcreate, schedArmUserPreempt, Option.some.injEq] at hi
    exact hi.symm
  · intro _
    simp [Cpu.boot, hcreate, schedArmUserPreempt]
  · intro i hi hr
    have hi : i ≠ ⟨0, hN⟩ := hi
    simp only [Cpu.boot, hcreate, schedArmUserPreempt, Function.update_of_ne hi] at hr
    simp [schedInit] at hr

theorem contextInv_fork (h : ContextInv c) (rip rsp flags : UInt64) :
    ContextInv (c.step pol (.fork rip rsp flags)) := by
  rcases schedForkCurrent_eq (s := c.sched) rip rsp flags with hs | ⟨slot, p, hu, hp, hs⟩
  · have hstep : c.step pol (.fork rip rsp flags) = c := by
      have hctx : createdContext c.sched c.sched c.context = c.context := by
        funext i
        simp only [createdContext]
        split_ifs with hc
        · exact absurd hc.1 hc.2
        · rfl
      simp only [Cpu.step, hs, hctx]
    rw [hstep]
    exact h
  · have hrun : c.running ≠ slot := by
      rintro rfl
      exact h.used hu
    simp only [Cpu.step, hs]
    constructor
    · exact h.armed
    · simpa [hrun] using h.used
    · exact h.current
    · intro hr
      apply h.runs
      simpa [hrun] using hr
    · intro i hi hr
      by_cases his : i = slot
      · subst his
        simp [createdContext, hu, hp]
      · simp only [Function.update_of_ne his] at hr ⊢
        simp only [createdContext, Function.update_of_ne his, hr]
        simpa using h.saved i hi hr

theorem contextInv_kill (h : ContextInv c) {pid signal : ℤ}
    (hself : ¬ NonFatalSelfKill c (.kill pid signal)) :
    ContextInv (c.step pol (.kill pid signal)) := by
  rcases schedKill_eq (s := c.sched) pid signal with hs | ⟨i, hr, hp, hs⟩
  · have hstep : c.step pol (.kill pid signal) = c := by simp only [Cpu.step, hs]
    rw [hstep]
    exact h
  · simp only [Cpu.step, hs]
    by_cases hi : i = c.running
    · subst hi
      have hf : Fatal signal := by
        by_contra hf
        exact hself ⟨hf, hr, hp⟩
      have hcur := h.runs hr
      constructor
      · exact h.armed
      · simp [hf]
      · simp [hcur]
      · simp [hf]
      · intro j hj hrj
        simp only [Function.update_of_ne hj] at hrj ⊢
        exact h.saved j hj hrj
    · have hcur : c.sched.currentProc ≠ some i := fun hc => hi (h.current i hc)
      have hne : c.running ≠ i := Ne.symm hi
      constructor
      · exact h.armed
      · simpa [hne] using h.used
      · simpa [hcur] using h.current
      · intro hrr
        rw [if_neg hcur]
        apply h.runs
        simpa [hne] using hrr
      · intro j hj hrj
        by_cases hji : j = i
        · subst hji
          simpa using h.saved j hj hr
        · simp only [Function.update_of_ne hji] at hrj ⊢
          exact h.saved j hj hrj

/-- After the save, each runnable slot holds its process's context, the running one included. -/
theorem saveCurrent_context (h : ContextInv c) (sp : Frame) {i : Fin N}
    (hr : ((saveCurrent (countJiffy c.sched) sp).procs i).state = .runnable) :
    ((saveCurrent (countJiffy c.sched) sp).procs i).frame
      = Function.update c.context c.running sp i := by
  rw [saveCurrent_state] at hr
  have hr : (c.sched.procs i).state = .runnable := hr
  rcases saveCurrent_eq (s := countJiffy c.sched) sp with ⟨hs, hn⟩ | ⟨d, hd, hdr, hs⟩
  · have hi : i ≠ c.running := by
      rintro rfl
      exact hn c.running (h.runs hr) hr
    rw [hs, Function.update_of_ne hi]
    exact h.saved i hi hr
  · have hd : d = c.running := h.current d hd
    subst hd
    rw [hs]
    by_cases hi : i = c.running
    · subst hi
      simp
    · simp only [Function.update_of_ne hi]
      exact h.saved i hi hr

theorem contextInv_tick (h : ContextInv c) {sp : Frame} (hu : fromUser sp) :
    ContextInv (c.step pol (.tick sp)) ∧ ResumesContext pol c (.tick sp) := by
  have hdisp := irqTimerDispatch_user pol h.armed hu
  have harm : (saveCurrent (countJiffy c.sched) sp).userPreemptArmed = true := by
    rw [saveCurrent_armed]
    exact h.armed
  have hctx := fun i => saveCurrent_context h sp (i := i)
  simp only [ResumesContext, Cpu.step, hdisp]
  rcases hn : chooseNext pol (saveCurrent (countJiffy c.sched) sp) with _ | next
  · refine ⟨⟨harm, ?_, ?_, ?_, ?_⟩, ?_⟩
    · rw [Option.getD_none, saveCurrent_state]
      exact h.used
    · intro i hi
      exact h.current i (by simpa [countJiffy] using hi)
    · intro hr
      rw [Option.getD_none, saveCurrent_state] at hr
      simpa [countJiffy] using h.runs hr
    · intro i _ hr
      exact hctx i hr
    · simp [resumedFrame]
  · have hrun := chooseNext_some hn
    refine ⟨⟨harm, ?_, ?_, ?_, ?_⟩, ?_⟩
    · simp [hrun]
    · intro i hi
      simpa using hi.symm
    · intro _
      rfl
    · intro i _ hr
      exact hctx i hr
    · exact hctx next hrun

/-- The step a run may take and keep every context: a tick from user mode, a fork, or a kill other
than a `NonFatalSelfKill`. -/
def KeepsContext (c : Cpu N) (e : SchedEvent) : Prop := UserTick e ∧ ¬ NonFatalSelfKill c e

instance (c : Cpu N) (e : SchedEvent) : Decidable (KeepsContext c e) :=
  inferInstanceAs (Decidable (_ ∧ _))

theorem contextInv_step (h : ContextInv c) {e : SchedEvent} (he : KeepsContext c e) :
    ContextInv (c.step pol e) ∧ ResumesContext pol c e := by
  cases e with
  | fork rip rsp flags => exact ⟨contextInv_fork h rip rsp flags, trivial⟩
  | kill pid signal => exact ⟨contextInv_kill h he.2, trivial⟩
  | tick sp => exact contextInv_tick h he.1

/-- In a run with no `NonFatalSelfKill`, every tick resumes a process with the frame it was last
interrupted with. -/
theorem ticks_resume_context (pol : SchedPolicy) (hN : 0 < N) (jiffies : ℕ)
    (entry userRsp : UInt64) (es : List SchedEvent)
    (hes : Runs.Along (Cpu.step pol) KeepsContext (Cpu.boot hN jiffies entry userRsp) es) :
    Runs.Along (Cpu.step pol) (ResumesContext pol) (Cpu.boot hN jiffies entry userRsp) es :=
  Runs.along_of_inv (I := ContextInv) (fun _ _ h he => (contextInv_step h he).1)
    (fun _ _ h he => (contextInv_step h he).2) es (contextInv_boot hN jiffies entry userRsp) hes

/-- The frame of a program at `0x400000` interrupted a few instructions in. -/
def frameInside : Frame := userFrame 0x400010 0x246 0x6ff0

/-- A run with a fork, a signal to the other process, a fatal one to it, and ticks between. -/
theorem ticks_resume_context_fork_kill :
    Runs.Along (Cpu.step .rr) (ResumesContext .rr)
      (Cpu.boot (by decide : 0 < 2000) 0 0x400000 0x7000)
      [.fork 0x400008 0x7000 0x202, .tick frameInside, .tick (userFrame 0x400020 0x202 0x7000),
        .kill 2 15, .kill 2 9, .tick frameInside] :=
  ticks_resume_context .rr _ 0 _ _ _ (by decide +kernel)

/-- After signal 15 to itself the first process is resumed at its entry point, not where the tick
interrupted it. -/
theorem nonFatalSelfKill_replays :
    ¬ ∀ es : List SchedEvent,
      Runs.Along (Cpu.step .rr) (fun _ e => UserTick e)
        (Cpu.boot (by decide : 0 < 2000) 0 0x400000 0x7000) es →
      Runs.Along (Cpu.step .rr) (ResumesContext .rr)
        (Cpu.boot (by decide : 0 < 2000) 0 0x400000 0x7000) es := by
  intro h
  have hes := h [.kill 1 15, .tick frameInside] (by decide +kernel)
  have hrip := congrFun hes.2.1 15
  revert hrip
  decide +kernel

end PeanutKernel
