import Mathlib.Data.Fintype.Card
import Mathlib.Data.UInt

/-!
# The process table and the timer tick

`cpu/sched.c`: a table of `CONFIG_SCHED_MAX_PROCS` slots (`N` here, the configuration allows any
value from 2), the slot ticks save into (`currentProc`, `none` for `-1`), and the operations on
them. A frame is the 20 quadwords `irq_timer` pushes: fifteen registers, then `RIP`, `CS`,
`RFLAGS`, `RSP` and `SS`.

`irqTimerDispatch` returns a frame pointer: `none` is the interrupted frame it was given, `some i`
is the frame stored in slot `i`.
-/

namespace PeanutKernel

inductive ProcState
  | unused
  | runnable
  | zombie
  deriving DecidableEq, Repr

abbrev Frame := Fin 20 → UInt64

structure Process where
  state : ProcState
  pid : ℤ
  signal : ℤ
  vruntime : ℕ
  frame : Frame

/-- The policy `CONFIG_SCHED_RR` or `CONFIG_SCHED_CFS` selects. -/
inductive SchedPolicy
  | rr
  | cfs
  deriving DecidableEq, Repr

structure Sched (N : ℕ) where
  userPreemptArmed : Bool
  procs : Fin N → Process
  currentProc : Option (Fin N)
  nextPid : ℤ
  jiffies : ℕ

def sigint : ℤ := 2

def sigkill : ℤ := 9

def sigsegv : ℤ := 11

/-- The signals `sched_kill` makes a process a zombie for. -/
def Fatal (signal : ℤ) : Prop := signal = sigkill ∨ signal = sigsegv ∨ signal = sigint

instance (signal : ℤ) : Decidable (Fatal signal) := inferInstanceAs (Decidable (_ ∨ _ ∨ _))

/-- The frame `sched_create_user` and `sched_fork_current` fill in: all registers zero, user
segments, and the given instruction pointer, flags and stack pointer. -/
def userFrame (rip flags rsp : UInt64) : Frame := fun j =>
  if j = 15 then rip
  else if j = 16 then 0x23
  else if j = 17 then flags
  else if j = 18 then rsp
  else if j = 19 then 0x1B
  else 0

variable {N : ℕ}

/-- The table after `sched_init`; `sched_jiffies` is not touched by it. -/
def schedInit (jiffies : ℕ) : Sched N where
  userPreemptArmed := false
  procs := fun _ => ⟨.unused, 0, 0, 0, fun _ => 0⟩
  currentProc := none
  nextPid := 1
  jiffies := jiffies

def schedArmUserPreempt (s : Sched N) : Sched N := { s with userPreemptArmed := true }

def schedDisarmUserPreempt (s : Sched N) : Sched N := { s with userPreemptArmed := false }

def allocProc (s : Sched N) : Option (Fin N) :=
  Fin.find? fun i => decide ((s.procs i).state = .unused)

/-- The pid, or `-1` when the table is full. -/
def schedCreateUser (s : Sched N) (entry userRsp : UInt64) : ℤ × Sched N :=
  match allocProc s with
  | none => (-1, s)
  | some slot =>
    (s.nextPid,
      { s with
        procs := Function.update s.procs slot ⟨.runnable, s.nextPid, 0, 0,
          userFrame entry 0x202 userRsp⟩
        nextPid := s.nextPid + 1
        currentProc := match s.currentProc with
          | none => some slot
          | some c => some c })

def schedForkCurrent (s : Sched N) (userRip userRsp userFlags : UInt64) : ℤ × Sched N :=
  match s.currentProc with
  | none => (-1, s)
  | some c =>
    if (s.procs c).state ≠ .runnable then (-1, s)
    else
      match allocProc s with
      | none => (-1, s)
      | some slot =>
        (s.nextPid,
          { s with
            procs := Function.update s.procs slot ⟨.runnable, s.nextPid, 0, (s.procs c).vruntime,
              userFrame userRip (if userFlags = 0 then 0x202 else userFlags) userRsp⟩
            nextPid := s.nextPid + 1 })

/-- The slot `sched_kill` acts on: the first runnable one with the pid. -/
def killTarget (s : Sched N) (pid : ℤ) : Option (Fin N) :=
  Fin.find? fun i => decide ((s.procs i).state = .runnable ∧ (s.procs i).pid = pid)

def schedKill (s : Sched N) (pid signal : ℤ) : ℤ × Sched N :=
  match killTarget s pid with
  | none => (-1, s)
  | some i =>
    (0,
      { s with
        procs := Function.update s.procs i
          { s.procs i with
            signal := signal
            state := if Fatal signal then .zombie else (s.procs i).state }
        -- outside the test for a fatal signal, as in the source
        currentProc := if s.currentProc = some i then none else s.currentProc })

def schedCurrentPid (s : Sched N) : ℤ :=
  match s.currentProc with
  | none => -1
  | some c => if (s.procs c).state ≠ .runnable then -1 else (s.procs c).pid

def schedRunnableCount (s : Sched N) : ℕ :=
  (Finset.univ.filter fun i => (s.procs i).state = .runnable).card

def rrStart (s : Sched N) : ℕ :=
  match s.currentProc with
  | none => 0
  | some c => c.val + 1

/-- The slot `choose_rr` looks at in round `n`. -/
def rrIndex (s : Sched N) (n : Fin N) : Fin N :=
  ⟨(rrStart s + n.val) % N, Nat.mod_lt _ n.pos⟩

def chooseRr (s : Sched N) : Option (Fin N) :=
  (Fin.find? fun n => decide ((s.procs (rrIndex s n)).state = .runnable)).map (rrIndex s)

/-- One round of the loop of `choose_cfs`. -/
def cfsBest (s : Sched N) (best : Option (Fin N)) (i : Fin N) : Option (Fin N) :=
  if (s.procs i).state ≠ .runnable then best
  else match best with
    | none => some i
    | some b => if (s.procs i).vruntime < (s.procs b).vruntime then some i else some b

def chooseCfs (s : Sched N) : Option (Fin N) := (List.finRange N).foldl (cfsBest s) none

def chooseNext (pol : SchedPolicy) (s : Sched N) : Option (Fin N) :=
  match pol with
  | .rr => chooseRr s
  | .cfs => chooseCfs s

/-- The tick's save of the interrupted frame into the current slot. -/
def saveCurrent (s : Sched N) (sp : Frame) : Sched N :=
  match s.currentProc with
  | none => s
  | some c =>
    if (s.procs c).state = .runnable then
      { s with
        procs := Function.update s.procs c
          { s.procs c with frame := sp, vruntime := ((s.procs c).vruntime + 1) % 2 ^ 64 } }
    else s

/-- The interrupted code was in ring 3. -/
def fromUser (sp : Frame) : Prop := sp 16 &&& 3 = 3

instance (sp : Frame) : Decidable (fromUser sp) := inferInstanceAs (Decidable (_ = _))

/-- `sched_jiffies++`. -/
def countJiffy (s : Sched N) : Sched N := { s with jiffies := (s.jiffies + 1) % 2 ^ 64 }

def irqTimerDispatch (pol : SchedPolicy) (s : Sched N) (sp : Frame) :
    Sched N × Option (Fin N) :=
  let s := countJiffy s
  if s.userPreemptArmed = false then (s, none)
  else if ¬ fromUser sp then (s, none)
  else
    let s := saveCurrent s sp
    match chooseNext pol s with
    | none => (s, none)
    | some next => ({ s with currentProc := some next }, some next)

/-- What `jump_to_ring3` does to the table, at boot and for `SYS_EXEC`: the process it creates is
entered right after. `none` is its panic on a full table. -/
def jumpToRing3 (s : Sched N) (entry userRsp : UInt64) : Option (Sched N) :=
  let r := schedCreateUser s entry userRsp
  if r.1 < 0 then none else some (schedArmUserPreempt r.2)

/-- The frame behind the pointer `irq_timer_dispatch` returned. -/
def resumedFrame (sp : Frame) (r : Sched N × Option (Fin N)) : Frame :=
  match r.2 with
  | none => sp
  | some i => (r.1.procs i).frame

end PeanutKernel
