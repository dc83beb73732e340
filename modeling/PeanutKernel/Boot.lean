import PeanutKernel.Vm

/-!
# The page tables of the boot code

`setup_page_tables` of `boot/switch.asm`, in 32-bit registers. Its tables `pml4`, `pdpt` and `pd0`,
with `pd1` to `pd3` behind it, are objects of their own, not those of `vm.c`: a `KernelImage` with
their addresses stands for them. `.bss` is zero.
-/

namespace PeanutKernel

namespace Boot

open Alloc Vm

/-- Registers and memory at `.map_pd`. -/
structure MapPd where
  eax : ℕ
  ebx : ℕ
  ecx : ℕ
  mem : Buf

/-- Up to `.same_pd`. -/
def MapPd.round (r : MapPd) : MapPd :=
  let edx := r.ecx &&& 511
  let mem := storeLe 4 r.mem ((r.ebx + edx * 8) % 2 ^ 32) r.eax
  let mem := storeLe 4 mem ((r.ebx + edx * 8 + 4) % 2 ^ 32) 0
  let ecx := (r.ecx + 1) % 2 ^ 32
  { eax := (r.eax + 0x200000) % 2 ^ 32
    ebx := if ecx &&& 511 ≠ 0 then r.ebx else (r.ebx + 4096) % 2 ^ 32
    ecx := ecx
    mem := mem }

/-- The loop, in so many rounds at most. -/
def mapPd : ℕ → MapPd → Option Buf
  | 0, _ => none
  | fuel + 1, r => if r.round.ecx = 2048 then some r.round.mem else mapPd fuel r.round

/-- The stores before the loop. -/
def links (boot : KernelImage) (mem : Buf) : Buf :=
  let mem := storeLe 4 mem boot.kernelPml4 (boot.kernelPdpt ||| 0b111)
  let mem := storeLe 4 mem boot.kernelPdpt (boot.kernelPd ||| 0b111)
  let mem := storeLe 4 mem (boot.kernelPdpt + 8) ((boot.kernelPd + 4096) ||| 0b111)
  let mem := storeLe 4 mem (boot.kernelPdpt + 16) ((boot.kernelPd + 8192) ||| 0b111)
  storeLe 4 mem (boot.kernelPdpt + 24) ((boot.kernelPd + 12288) ||| 0b111)

def setupPageTables (fuel : ℕ) (boot : KernelImage) (mem : Buf) : Option Buf :=
  mapPd fuel ⟨0b10000111, boot.kernelPd, 0, links boot mem⟩

end Boot

end PeanutKernel
