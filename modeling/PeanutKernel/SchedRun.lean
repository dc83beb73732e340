import PeanutKernel.Lib.Runs
import PeanutKernel.Sched

/-!
# The scheduler with the processor it drives

The table does not record which process really runs, so the machine here keeps it beside the
table: `running` is the slot whose frame was last dispatched, and `context` gives for each slot the
frame its process was last interrupted with, the one it was created with before that. Both only
observe; every operation on the table is the one of `cpu/sched.c`.
-/

namespace PeanutKernel

variable {N : ℕ}

structure Cpu (N : ℕ) where
  sched : Sched N
  running : Fin N
  context : Fin N → Frame

inductive SchedEvent
  | fork (rip rsp flags : UInt64)
  | kill (pid signal : ℤ)
  | tick (sp : Frame)

/-- The contexts after an operation that may fill an unused slot. -/
def createdContext (s s' : Sched N) (context : Fin N → Frame) : Fin N → Frame := fun i =>
  if (s.procs i).state = .unused ∧ (s'.procs i).state ≠ .unused then (s'.procs i).frame
  else context i

def Cpu.step (pol : SchedPolicy) (c : Cpu N) : SchedEvent → Cpu N
  | .fork rip rsp flags =>
    let s' := (schedForkCurrent c.sched rip rsp flags).2
    { c with sched := s', context := createdContext c.sched s' c.context }
  | .kill pid signal => { c with sched := (schedKill c.sched pid signal).2 }
  | .tick sp =>
    let r := irqTimerDispatch pol c.sched sp
    { sched := r.1
      running := r.2.getD c.running
      context := Function.update c.context c.running sp }

/-- The machine once `jump_to_ring3` has created the first process and entered it. -/
def Cpu.boot (hN : 0 < N) (jiffies : ℕ) (entry userRsp : UInt64) : Cpu N where
  sched := schedArmUserPreempt (schedCreateUser (schedInit jiffies) entry userRsp).2
  running := ⟨0, hN⟩
  context := fun _ => userFrame entry 0x202 userRsp

/-- The timer interrupts user mode. -/
def UserTick : SchedEvent → Prop
  | .tick sp => fromUser sp
  | _ => True

/-- A tick hands back the frame with which the process it resumes was last interrupted. -/
def ResumesContext (pol : SchedPolicy) (c : Cpu N) : SchedEvent → Prop
  | .tick sp =>
    resumedFrame sp (irqTimerDispatch pol c.sched sp)
      = (c.step pol (.tick sp)).context (c.step pol (.tick sp)).running
  | _ => True

/-- A `sched_kill` of the running process by its own pid while it is runnable, with a signal that
is not fatal. -/
def NonFatalSelfKill (c : Cpu N) : SchedEvent → Prop
  | .kill pid signal => ¬ Fatal signal ∧ (c.sched.procs c.running).state = .runnable ∧
      (c.sched.procs c.running).pid = pid
  | _ => False

instance : DecidablePred UserTick
  | .fork .. => inferInstanceAs (Decidable True)
  | .kill .. => inferInstanceAs (Decidable True)
  | .tick sp => inferInstanceAs (Decidable (fromUser sp))

instance (c : Cpu N) : DecidablePred (NonFatalSelfKill c)
  | .fork .. => inferInstanceAs (Decidable False)
  | .kill .. => inferInstanceAs (Decidable (_ ∧ _))
  | .tick _ => inferInstanceAs (Decidable False)

/-- How often the ticks interrupting `sps` resume slot `slot` at its entry point, with the frame
`sched_create_user` stored there. -/
def entryStarts (pol : SchedPolicy) (slot : Fin N) (entry userRsp : UInt64) :
    Sched N → List Frame → ℕ
  | _, [] => 0
  | s, sp :: sps =>
    let r := irqTimerDispatch pol s sp
    (if r.2 = some slot ∧ resumedFrame sp r = userFrame entry 0x202 userRsp then 1 else 0)
      + entryStarts pol slot entry userRsp r.1 sps

/-- A successful exec took the table from `s` to `s'` and replaced its caller: as many processes
are runnable, the current pid is the same, and the ticks that follow, none of which interrupts
the image still at its entry point, never start it again (`jump_to_ring3` has started it). -/
def ExecReplacesCaller (pol : SchedPolicy) (s s' : Sched N) (entry userRsp : UInt64) : Prop :=
  schedRunnableCount s' = schedRunnableCount s ∧ schedCurrentPid s' = schedCurrentPid s ∧
    ∀ (slot : Fin N) (sps : List Frame), allocProc s = some slot →
      (∀ sp ∈ sps, fromUser sp ∧ sp ≠ userFrame entry 0x202 userRsp) →
      1 + entryStarts pol slot entry userRsp s' sps = 1

end PeanutKernel
