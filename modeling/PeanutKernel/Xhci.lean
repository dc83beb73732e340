import PeanutKernel.Lib.Runs
import Mathlib.Algebra.Group.Nat.Defs
import Mathlib.Data.Int.Notation
import Mathlib.Logic.Function.Iterate

/-!
# The xHCI rings

The command ring and the event ring of `drivers/usb/xhci.c`. `xhci_cmd` puts a command on the ring
and waits in `xhci_wait_cmd` for its completion, which may time out, so commands can be outstanding
when it is called again.

The command ring is shared with the controller: a step of the driver is one store of `xhci_cmd` to
the ring, a step of the controller looks at one TRB. It starts at TRB 0 with cycle state 1, takes a
TRB when the cycle bit is its own, and at a Link TRB goes back to TRB 0, changing its state if the
toggle bit is set.
-/

namespace PeanutKernel

namespace Xhci

def cmdRingTrbs : ℕ := 256

def eventRingTrbs : ℕ := 256

def trbBytes : ℕ := 16

def trbTypeLink : ℕ := 6

def trbTypeCmdCompletion : ℕ := 33

structure Trb where
  parameter : ℕ
  status : ℕ
  control : ℕ
  deriving DecidableEq, Repr

def trbType (control : ℕ) : ℕ := control / 2 ^ 10 % 2 ^ 6

/-- `control & XHCI_TRB_CYCLE` -/
def Trb.cycle (t : Trb) : Bool := t.control % 2 = 1

def Trb.toggle (t : Trb) : Bool := t.control / 2 % 2 = 1

def cycleBit (cycle : Bool) : ℕ := if cycle then 1 else 0

section CommandRing

/-- The arguments of `xhci_cmd`, the control word without the cycle bit. -/
structure Command where
  trb : Trb
  noCycle : trb.control % 2 = 0

/-- Where `xhci_cmd` is: what it stores next. -/
inductive Pc
  | idle
  | status (c : Command)
  | control (c : Command)
  | linkParameter
  | linkStatus
  | linkControl

/-- The ring, the driver's variables and the controller's, with the commands handed over and those
executed so far. -/
structure Ring where
  cmdRing : ℕ
  trbs : ℕ → Trb
  cmdIndex : ℕ
  cmdCycle : Bool
  expected : ℕ
  pc : Pc
  dequeue : ℕ
  cycleState : Bool
  submitted : List Trb
  executed : List Trb

/-- After `xhci_init_rings`, with the ring at the address `cmdRing`. -/
def Ring.init (cmdRing : ℕ) : Ring where
  cmdRing := cmdRing
  trbs _ := ⟨0, 0, 0⟩
  cmdIndex := 0
  cmdCycle := true
  expected := 0
  pc := .idle
  dequeue := 0
  cycleState := true
  submitted := []
  executed := []

def Ring.setTrb (s : Ring) (i : ℕ) (f : Trb → Trb) : ℕ → Trb :=
  Function.update s.trbs i (f (s.trbs i))

/-- `xhci_cmd` is called; it stores the parameter. -/
def Ring.call (s : Ring) (c : Command) : Ring :=
  match s.pc with
  | .idle =>
    { s with
      trbs := s.setTrb s.cmdIndex fun t => { t with parameter := c.trb.parameter }
      pc := .status c }
  | _ => s

/-- The control word of the Link TRB. -/
def linkWord (cycle : Bool) : ℕ := trbTypeLink * 2 ^ 10 ||| 2 ||| cycleBit cycle

/-- The next store of `xhci_cmd`. The store of the control word hands the command over. -/
def Ring.drive (s : Ring) : Ring :=
  match s.pc with
  | .idle => s
  | .status c =>
    { s with
      trbs := s.setTrb s.cmdIndex fun t => { t with status := c.trb.status }
      pc := .control c }
  | .control c =>
    { s with
      trbs := s.setTrb s.cmdIndex
        fun t => { t with control := c.trb.control ||| cycleBit s.cmdCycle }
      expected := s.cmdRing + trbBytes * s.cmdIndex
      cmdIndex := s.cmdIndex + 1
      pc := if s.cmdIndex + 1 = cmdRingTrbs - 1 then .linkParameter else .idle
      submitted := s.submitted ++ [c.trb] }
  | .linkParameter =>
    { s with
      trbs := s.setTrb s.cmdIndex fun t => { t with parameter := s.cmdRing }
      pc := .linkStatus }
  | .linkStatus =>
    { s with
      trbs := s.setTrb s.cmdIndex fun t => { t with status := 0 }
      pc := .linkControl }
  | .linkControl =>
    { s with
      trbs := s.setTrb s.cmdIndex fun t => { t with control := linkWord s.cmdCycle }
      cmdIndex := 0
      cmdCycle := !s.cmdCycle
      pc := .idle }

/-- The controller looks at the next TRB. -/
def Ring.consume (s : Ring) : Ring :=
  let t := s.trbs s.dequeue
  if t.cycle = s.cycleState then
    if trbType t.control = trbTypeLink then
      { s with
        dequeue := 0
        cycleState := if t.toggle then !s.cycleState else s.cycleState }
    else
      { s with
        dequeue := s.dequeue + 1
        executed := s.executed ++ [{ t with control := t.control - t.control % 2 }] }
  else s

inductive Event
  | call (c : Command)
  | drive
  | consume

def Ring.step (s : Ring) : Event → Ring
  | .call c => s.call c
  | .drive => s.drive
  | .consume => s.consume

/-- At a call at most 254 commands are outstanding. -/
def FewOutstanding (s : Ring) : Event → Prop
  | .call _ => s.submitted.length ≤ s.executed.length + 254
  | _ => True

instance (s : Ring) : (e : Event) → Decidable (FewOutstanding s e)
  | .call _ => inferInstanceAs (Decidable (_ ≤ _))
  | .drive => inferInstanceAs (Decidable True)
  | .consume => inferInstanceAs (Decidable True)

/-- What the controller has executed is a part of what was submitted, in its order, and it comes to
execute all of it. -/
def ExecutesAll (s : Ring) : Prop :=
  s.executed <+: s.submitted ∧ ∃ n, (Ring.consume^[n] s).executed = s.submitted

/-- The steps after which it does not: a command that is a Link TRB is handed over, or the Link TRB
is marked for the next lap while the controller still waits to follow it in the one before. -/
def Derails (s : Ring) : Event → Prop
  | .drive =>
    match s.pc with
    | .control c => trbType c.trb.control = trbTypeLink
    | .linkControl => s.dequeue = cmdRingTrbs - 1 ∧ s.cycleState ≠ s.cmdCycle
    | _ => False
  | _ => False

end CommandRing

section EventRing

/-- `event_index` and `event_cycle`. -/
structure Cursor where
  index : ℕ
  cycle : Bool
  deriving DecidableEq, Repr

/-- The place after one; `event_cycle` changes at the end of the ring. -/
def Cursor.next (e : Cursor) : Cursor :=
  if e.index + 1 = eventRingTrbs then ⟨0, !e.cycle⟩ else ⟨e.index + 1, e.cycle⟩

/-- What `xhci_wait_cmd` returns, the slot id it stores, where it leaves the event ring, and the
address it writes to the dequeue pointer of the interrupter. -/
structure Waited where
  ret : ℤ
  slotId : ℕ
  cursor : Cursor
  erdp : Option ℕ
  deriving DecidableEq, Repr

/-- `~0xFu` is a 32 bit mask. -/
def maskTrb (a : ℕ) : ℕ := a % 2 ^ 32 / 2 ^ 4 * 2 ^ 4

/-- What `xhci_wait_cmd` looks for at the cursor. -/
def IsCompletion (e : Cursor) (ev : Trb) : Prop :=
  ev.cycle = e.cycle ∧ trbType ev.control = trbTypeCmdCompletion

instance (e : Cursor) (ev : Trb) : Decidable (IsCompletion e ev) :=
  inferInstanceAs (Decidable (_ ∧ _))

variable (eventRing : ℕ) (ring : ℕ → ℕ → Trb) (expected : ℕ) (e : Cursor)

/-- The end of `xhci_wait_cmd` once it has found the event `ev`. -/
def takeCompletion (ev : Trb) : Waited :=
  let command := maskTrb ev.parameter
  let code := ev.status / 2 ^ 24 % 2 ^ 8
  { ret := if command = maskTrb expected ∧ code = 1 then 0 else -1
    slotId := ev.control / 2 ^ 24 % 2 ^ 8
    cursor := e.next
    erdp := some (eventRing + trbBytes * e.next.index) }

/-- The loop of `xhci_wait_cmd` with the given number of spins left. `ring spin` is what the event
ring holds by then. -/
def waitLoop : ℕ → ℕ → Waited
  | 0, _ => ⟨-1, 0, e, none⟩
  | n + 1, spin =>
    if IsCompletion e (ring spin e.index) then
      takeCompletion eventRing expected e (ring spin e.index)
    else waitLoop n (spin + 1)

def waitSpins : ℕ := 4000000

def xhciWaitCmd : Waited := waitLoop eventRing ring expected e waitSpins 0

/-- The controller as the producer of events: the ring and where it writes next. -/
structure Producer where
  ring : ℕ → Trb
  cursor : Cursor

/-- It stores an event with the cycle bit of its lap. -/
def Producer.produce (p : Producer) (ev : Trb) : Producer where
  ring := Function.update p.ring p.cursor.index
    { ev with control := ev.control / 2 * 2 + cycleBit p.cursor.cycle }
  cursor := p.cursor.next

def Producer.produceAll (p : Producer) (evs : List Trb) : Producer := evs.foldl Producer.produce p

/-- A successful completion of the command at the address `expected`. -/
structure Completes (expected : ℕ) (ev : Trb) : Prop where
  type : trbType ev.control = trbTypeCmdCompletion
  command : ev.parameter = expected
  code : ev.status / 2 ^ 24 % 2 ^ 8 = 1

/-- What the event ring holds by each spin, if the producer starts where the driver looks next and
has produced `arrived spin` of the events by then. -/
def ringAt (old : ℕ → Trb) (e : Cursor) (evs : List Trb) (arrived : ℕ → ℕ) (spin : ℕ) : ℕ → Trb :=
  (Producer.produceAll ⟨old, e⟩ (evs.take (arrived spin))).ring

/-- `xhci_wait_cmd` finds the completion behind `pending` events: it returns 0 with its slot id and
leaves the cursor after it. -/
def Finds (pending : List Trb) (ev : Trb) : Prop :=
  let w := xhciWaitCmd eventRing ring expected e
  w.ret = 0 ∧ w.slotId = ev.control / 2 ^ 24 % 2 ^ 8 ∧
    w.cursor = Cursor.next^[pending.length + 1] e

end EventRing

end Xhci

end PeanutKernel
