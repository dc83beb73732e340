import PeanutKernel.Lib.Runs
import PeanutKernel.Sched

/-!
# Runs of the scheduler

The operations on the process table in any order, whoever calls them: `jump_to_ring3` creates and
arms, the syscalls fork and kill, and the timer ticks in user mode and in the kernel. `getpid` is
`sched_current_pid`, which only looks.
-/

namespace PeanutKernel

variable {N : ℕ}

inductive SchedOp
  | create (entry userRsp : UInt64)
  | fork (rip rsp flags : UInt64)
  | kill (pid signal : ℤ)
  | tick (sp : Frame)
  | arm
  | disarm
  | getpid

def Sched.apply (pol : SchedPolicy) (s : Sched N) : SchedOp → Sched N
  | .create entry userRsp => (schedCreateUser s entry userRsp).2
  | .fork rip rsp flags => (schedForkCurrent s rip rsp flags).2
  | .kill pid signal => (schedKill s pid signal).2
  | .tick sp => (irqTimerDispatch pol s sp).1
  | .arm => schedArmUserPreempt s
  | .disarm => schedDisarmUserPreempt s
  | .getpid => s

/-- The table after a run from `sched_init`. -/
def Sched.after (pol : SchedPolicy) (jiffies : ℕ) (ops : List SchedOp) : Sched N :=
  ops.foldl (Sched.apply pol) (schedInit jiffies)

/-- The pid an operation reports to its caller, `-1` for none. -/
def Sched.reported (s : Sched N) : SchedOp → ℤ
  | .create entry userRsp => (schedCreateUser s entry userRsp).1
  | .fork rip rsp flags => (schedForkCurrent s rip rsp flags).1
  | .getpid => schedCurrentPid s
  | _ => -1

/-- The slot whose frame an operation hands back to the processor: a tick's, `none` for the
interrupted frame. -/
def Sched.resumed (pol : SchedPolicy) (s : Sched N) : SchedOp → Option (Fin N)
  | .tick sp => (irqTimerDispatch pol s sp).2
  | _ => none

/-- The tick leaves the processor to a runnable process. -/
def ResumesRunnable (pol : SchedPolicy) (s : Sched N) (sp : Frame) : Prop :=
  ∃ i, (irqTimerDispatch pol s sp).2 = some i ∧
    ((irqTimerDispatch pol s sp).1.procs i).state = .runnable

/-- The fork made a runnable process with a pid that no process has had. -/
def ForkSucceeds (s : Sched N) (rip rsp flags : UInt64) : Prop :=
  (∀ i, (s.procs i).state ≠ .unused → (s.procs i).pid ≠ (schedForkCurrent s rip rsp flags).1) ∧
    ∃ i, (s.procs i).state = .unused ∧
      ((schedForkCurrent s rip rsp flags).2.procs i).state = .runnable ∧
      ((schedForkCurrent s rip rsp flags).2.procs i).pid = (schedForkCurrent s rip rsp flags).1

instance (pol : SchedPolicy) (s : Sched N) (sp : Frame) : Decidable (ResumesRunnable pol s sp) :=
  inferInstanceAs (Decidable (∃ _, _))

instance (s : Sched N) (rip rsp flags : UInt64) : Decidable (ForkSucceeds s rip rsp flags) :=
  inferInstanceAs (Decidable ((∀ _, _ → _) ∧ ∃ _, _))

/-- A tick that finds preemption armed and the processor in user mode. -/
def ArmedUserTick (s : Sched N) : SchedOp → Prop
  | .tick sp => s.userPreemptArmed = true ∧ fromUser sp
  | _ => False

instance (s : Sched N) : DecidablePred (ArmedUserTick s)
  | .tick sp => inferInstanceAs (Decidable (_ ∧ fromUser sp))
  | .create .. => inferInstanceAs (Decidable False)
  | .fork .. => inferInstanceAs (Decidable False)
  | .kill .. => inferInstanceAs (Decidable False)
  | .arm => inferInstanceAs (Decidable False)
  | .disarm => inferInstanceAs (Decidable False)
  | .getpid => inferInstanceAs (Decidable False)

/-- How many ticks of a run find preemption armed and the processor in user mode. -/
def Sched.armedTicks (pol : SchedPolicy) : Sched N → List SchedOp → ℕ
  | _, [] => 0
  | s, op :: ops =>
    (if ArmedUserTick s op then 1 else 0) + Sched.armedTicks pol (s.apply pol op) ops

/-- The slots a run dispatches, in order. -/
def Sched.dispatched (pol : SchedPolicy) : Sched N → List SchedOp → List (Fin N)
  | _, [] => []
  | s, op :: ops => (s.resumed pol op).toList ++ Sched.dispatched pol (s.apply pol op) ops

/-- Not a kill of the current process. -/
def SparesCurrent (s : Sched N) : SchedOp → Prop
  | .kill pid _ => ∀ c, s.currentProc = some c → (s.procs c).pid ≠ pid
  | _ => True

instance (s : Sched N) : DecidablePred (SparesCurrent s)
  | .kill .. => inferInstanceAs (Decidable (∀ _, _ → _))
  | .create .. => inferInstanceAs (Decidable True)
  | .fork .. => inferInstanceAs (Decidable True)
  | .tick _ => inferInstanceAs (Decidable True)
  | .arm => inferInstanceAs (Decidable True)
  | .disarm => inferInstanceAs (Decidable True)
  | .getpid => inferInstanceAs (Decidable True)

/-- The operation neither creates a process nor makes one a zombie. -/
def KeepsStates (pol : SchedPolicy) (s : Sched N) (op : SchedOp) : Prop :=
  ∀ i, ((s.apply pol op).procs i).state = (s.procs i).state

instance (pol : SchedPolicy) (s : Sched N) : DecidablePred (KeepsStates pol s) := fun _ =>
  inferInstanceAs (Decidable (∀ _, _))

def SchedOp.isCreate : SchedOp → Bool
  | .create .. => true
  | _ => false

end PeanutKernel
