import PeanutKernel.Alloc

/-!
# The initial user stack

The part of `jump_to_ring3` in `programs/elf.c` that builds the stack, up to the value of `rsp` for
`sched_create_user`. Strings are the bytes before their terminator. At the end stands what the ABI
says about such a stack.
-/

namespace PeanutKernel

namespace Elf

open Alloc

section Build

/-- `kstrlcpy` to address `d`. -/
def kstrlcpy (mem : Buf) (d : ℕ) (s : List UInt8) (cap : ℕ) : Buf :=
  storeBytes mem d (s.take (cap - 1) ++ [0])

/-- `sp--; *sp = w` -/
def push (st : Buf × ℕ) (w : ℕ) : Buf × ℕ := (storeLe 8 st.1 (st.2 - 8) w, st.2 - 8)

/-- The aligned end of `test_user_stack`, which starts at address `stack`. -/
def stackTop (stack : ℕ) : ℕ := (stack + 4096) / 16 * 16

/-- The argument after `argv0`, if there is one and it is not empty. -/
def secondArg (argv1Opt : Option (List UInt8)) : Option (List UInt8) := argv1Opt.filter (· ≠ [])

/-- The memory and `rsp`. -/
def userStack (stack : ℕ) (mem : Buf) (argv0 : List UInt8) (argv1Opt : Option (List UInt8)) :
    Buf × ℕ :=
  let top := stackTop stack
  let p0 := top - 512
  let p1 := p0 + 256
  let mem := kstrlcpy mem p0 argv0 256
  let mem := match secondArg argv1Opt with
    | none => mem
    | some s => kstrlcpy mem p1 s 256
  let words := match secondArg argv1Opt with
    | none => [0, 0, 0, p0, 1]
    | some _ => [0, 0, 0, p1, p0, 2]
  let (mem, sp) := words.foldl push (mem, top)
  (mem, sp / 16 * 16)

end Build

section Abi

/-- The arguments of the new process. -/
def args (argv0 : List UInt8) (argv1Opt : Option (List UInt8)) : List (List UInt8) :=
  argv0 :: (secondArg argv1Opt).toList

/-- A copy of the string with its terminator stands at address `p`. -/
def HoldsString (mem : Buf) (p : ℕ) (s : List UInt8) : Prop :=
  bytesOf (fun i => mem (p + i)) (s.length + 1) = s ++ [0]

/-- The pointer to argument `i`. -/
def argPtr (mem : Buf) (rsp i : ℕ) : ℕ := le64 mem (rsp + 8 + 8 * i)

/-- The stack at `rsp` by the ABI, wherever the strings stand, as long as they do not overlap `argc`
and the pointers. -/
structure AbiWords (mem : Buf) (rsp : ℕ) (args : List (List UInt8)) : Prop where
  aligned : rsp % 16 = 0
  argc : le64 mem rsp = args.length
  argv : ∀ i s, args[i]? = some s → HoldsString mem (argPtr mem rsp i) s
  null : argPtr mem rsp args.length = 0
  apart : ∀ i s, args[i]? = some s → ∀ j ≤ s.length,
    ¬ (rsp ≤ argPtr mem rsp i + j ∧ argPtr mem rsp i + j < rsp + 8 * (args.length + 2))

/-- No byte of a string lies below `rsp`, where the process pushes. -/
def StringsAbove (mem : Buf) (rsp : ℕ) (args : List (List UInt8)) : Prop :=
  ∀ i s, args[i]? = some s → ∀ j < s.length, rsp ≤ argPtr mem rsp i + j

end Abi

end Elf

end PeanutKernel
