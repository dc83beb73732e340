import PeanutKernel.Vm

/-!
# Calls of `mm/vm.c`, and identity maps as one operation

From `vm_init` on the kernel takes pages, maps pages and maps ranges to themselves. A call of
`vm_map_identity_2m` is to map all of its range or to change nothing (`AllOrNothing`). Its loop ends
at a sum of 64 bits, and it stores by bits 21 to 38 of an address alone: `Settled` says when nothing
comes of either.
-/

namespace PeanutKernel

namespace Vm

open Alloc

section Calls

inductive VmCall
  | vmAllocPage
  | vmMapPage (virt phys flags : ℕ)
  | vmMapIdentity2m (start bytes flags : ℕ)
  deriving DecidableEq

/-- The arguments are of 64 bits. -/
def VmCall.Fits : VmCall → Prop
  | .vmAllocPage => True
  | .vmMapPage virt phys flags => virt < 2 ^ 64 ∧ phys < 2 ^ 64 ∧ flags < 2 ^ 64
  | .vmMapIdentity2m start bytes flags => start < 2 ^ 64 ∧ bytes < 2 ^ 64 ∧ flags < 2 ^ 64

/-- What `C` says of a call of `vm_map_identity_2m`. -/
def VmCall.OfIdentity (C : ℕ → ℕ → ℕ → Prop) : VmCall → Prop
  | .vmMapIdentity2m start bytes flags => C start bytes flags
  | _ => True

def vmCall (img : KernelImage) (s : Allocators) : VmCall → Allocators
  | .vmAllocPage => (vmAllocPage s).2
  | .vmMapPage virt phys flags => (vmMapPage img virt phys flags s).2
  | .vmMapIdentity2m start bytes flags => (vmMapIdentity2m img start bytes flags s).2

end Calls

section Identity

/-- The range consists of whole pages of 2 MiB, and the flags are of 12 bits, `PRESENT` among
them. -/
structure Proper (start bytes flags : ℕ) : Prop where
  start_lt : start < 2 ^ 64
  bytes_lt : bytes < 2 ^ 64
  start_aligned : start % 0x200000 = 0
  bytes_aligned : bytes % 0x200000 = 0
  flags_lt : flags < 2 ^ 12
  present : flags &&& vmFlagPresent ≠ 0

variable (img : KernelImage) (start bytes : ℕ)

/-- A call that returns 0 maps each address of the range to itself and no other anew, and one that
returns -1 changes no translation. -/
def AllOrNothing (flags : ℕ) (s : Allocators) : Prop :=
  let r := vmMapIdentity2m img start bytes flags s
  (r.1 = 0 → ∀ a < 2 ^ 64, vmVirtToPhys img a r.2
    = if start ≤ a ∧ a < start + bytes then a else vmVirtToPhys img a s) ∧
  (r.1 = -1 → ∀ a < 2 ^ 64, vmVirtToPhys img a r.2 = vmVirtToPhys img a s)

/-- The rounds of the loop: none if the sum wraps. -/
def rounds : ℕ := ((start + bytes) % 2 ^ 64 - start) / 0x200000

/-- The rounds that store an entry: those before the first address that is past 4 GiB in its
512 GiB, where the loop returns -1. -/
def stores : ℕ := min (rounds start bytes) ((vmBootMapBytes - start % 2 ^ 39) / 0x200000)

/-- What the loop stores is there already, and if it comes to its end the range is mapped to itself
already. -/
structure Settled (s : Allocators) : Prop where
  stored : ∀ x < 0x200000 * stores start bytes,
    vmVirtToPhys img ((start + x) % 2 ^ 39) s = start + x
  mapped : stores start bytes = rounds start bytes →
    ∀ a < 2 ^ 64, start ≤ a → a < start + bytes → vmVirtToPhys img a s = a

/-- `Settled` for a boot map as `vm_init` makes it. Where the sum does not wrap, a range that is not
empty must not start in the first 4 GiB of a later 512 GiB. -/
def Plain (s : Allocators) : Prop :=
  if start + bytes < 2 ^ 64 then bytes = 0 ∨ start < 2 ^ 39 ∨ vmBootMapBytes ≤ start % 2 ^ 39
  else ∀ a < 2 ^ 64, start ≤ a → vmVirtToPhys img a s = a

end Identity

end Vm

end PeanutKernel
