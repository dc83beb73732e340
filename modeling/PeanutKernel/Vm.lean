import PeanutKernel.Alloc

/-!
# Page tables

`mm/vm.c`, over the memory of the allocators: a table is 4096 bytes of 512 little-endian entries,
and every pointer the code follows is an address of that memory. Loading `cr3` is left out. At the
end stands the abstract page map, which the tables are to represent.
-/

namespace PeanutKernel

namespace Vm

open Alloc

abbrev vmEntries : ℕ := 512

def vmBootMapBytes : ℕ := 4 * 1024 * 1024 * 1024

def vmFlagPresent : ℕ := 0x001

def vmFlagWrite : ℕ := 0x002

def vmFlagUser : ℕ := 0x004

def vmFlagHuge : ℕ := 0x080

/-- The flags of an entry that names a table. -/
def tableFlags : ℕ := vmFlagPresent ||| vmFlagWrite ||| vmFlagUser

/-- Where the linker has put the static tables and `_kernel_end`: `kernel_pd` is four tables in a
row, and the image lies in the low 4 GiB. -/
structure KernelImage where
  kernelPml4 : ℕ
  kernelPdpt : ℕ
  kernelPd : ℕ
  kernelEnd : ℕ
  aligned : vmPageSize ∣ kernelPml4 ∧ vmPageSize ∣ kernelPdpt ∧ vmPageSize ∣ kernelPd
  apart : (kernelPml4 + vmPageSize ≤ kernelPdpt ∨ kernelPdpt + vmPageSize ≤ kernelPml4) ∧
    (kernelPml4 + vmPageSize ≤ kernelPd ∨ kernelPd + 4 * vmPageSize ≤ kernelPml4) ∧
    (kernelPdpt + vmPageSize ≤ kernelPd ∨ kernelPd + 4 * vmPageSize ≤ kernelPdpt)
  below : kernelPml4 + vmPageSize ≤ kernelEnd ∧ kernelPdpt + vmPageSize ≤ kernelEnd ∧
    kernelPd + 4 * vmPageSize ≤ kernelEnd
  low : kernelEnd ≤ 2 ^ 32

/-- The static tables are zero, as they are before `vm_init`. -/
def KernelImage.Clear (img : KernelImage) (mem : Buf) : Prop :=
  ∀ a, (img.kernelPml4 ≤ a ∧ a < img.kernelPml4 + vmPageSize) ∨
    (img.kernelPdpt ≤ a ∧ a < img.kernelPdpt + vmPageSize) ∨
    (img.kernelPd ≤ a ∧ a < img.kernelPd + 4 * vmPageSize) → mem a = 0

section Tables

/-- `(virt >> shift) & 0x1ff` -/
def index (shift virt : ℕ) : Fin vmEntries :=
  ⟨(virt >>> shift) &&& 0x1ff, Nat.lt_succ_of_le Nat.and_le_right⟩

/-- `v & ~(2^bits - 1)` -/
def clearLow (bits v : ℕ) : ℕ := v / 2 ^ bits * 2 ^ bits

def entry (s : Allocators) (table : ℕ) (i : Fin vmEntries) : ℕ := le64 s.mem (table + 8 * i)

def setEntry (s : Allocators) (table : ℕ) (i : Fin vmEntries) (e : ℕ) : Allocators :=
  { s with mem := storeLe 8 s.mem (table + 8 * i) e }

/-- The table that an entry of `vm_map_page` names, made of a new page if it names none. -/
def descend (table : ℕ) (i : Fin vmEntries) (s : Allocators) : ℕ × Allocators :=
  if entry s table i &&& vmFlagPresent = 0 then
    let (page, s) := vmAllocPage s
    (page, setEntry s table i (page ||| tableFlags))
  else (clearLow 12 (entry s table i), s)

end Tables

section Calls

variable (img : KernelImage)

/-- A round of the first loop of `vm_map_identity_2m`. -/
def pdptRound (s : Allocators) (i : Fin 4) : Allocators :=
  setEntry s img.kernelPdpt (i.castLE (by decide)) ((img.kernelPd + vmPageSize * i) ||| tableFlags)

/-- The second loop of `vm_map_identity_2m`, for the `n` addresses from `addr` on. -/
def identityLoop (flags : ℕ) : ℕ → ℕ → Allocators → ℤ × Allocators
  | 0, _, s => (0, s)
  | n + 1, addr, s =>
    let pdptI := index 30 addr
    if 4 ≤ pdptI.val then (-1, s)
    else identityLoop flags n (addr + 0x200000)
      (setEntry s (img.kernelPd + vmPageSize * pdptI) (index 21 addr)
        (addr ||| flags ||| vmFlagHuge))

/-- The end is a multiple of 2 MiB as the start is, so the loop runs once for each 2 MiB between
them, and not at all if the sum has wrapped. -/
def vmMapIdentity2m (start bytes flags : ℕ) (s : Allocators) : ℤ × Allocators :=
  if start &&& 0x1FFFFF ≠ 0 ∨ bytes &&& 0x1FFFFF ≠ 0 then (-1, s)
  else
    let s := setEntry s img.kernelPml4 0 (img.kernelPdpt ||| tableFlags)
    let s := (List.finRange 4).foldl (pdptRound img) s
    identityLoop img flags (((start + bytes) % 2 ^ 64 - start) / 0x200000) start s

def vmInit (s : Allocators) : Allocators :=
  (vmMapIdentity2m img 0 vmBootMapBytes (vmFlagPresent ||| vmFlagWrite ||| vmFlagUser)
    { s with pageBump := firstPage img.kernelEnd }).2

def vmMapPage (virt phys flags : ℕ) (s : Allocators) : ℤ × Allocators :=
  if virt &&& (vmPageSize - 1) ≠ 0 ∨ phys &&& (vmPageSize - 1) ≠ 0 then (-1, s)
  else
    let (pdpt, s) := descend img.kernelPml4 (index 39 virt) s
    let (pd, s) := descend pdpt (index 30 virt) s
    if entry s pd (index 21 virt) &&& vmFlagHuge ≠ 0 then (-1, s)
    else
      let (pt, s) := descend pd (index 21 virt) s
      (0, setEntry s pt (index 12 virt) (phys ||| flags ||| vmFlagPresent))

def vmVirtToPhys (virt : ℕ) (s : Allocators) : ℕ :=
  let pml4e := entry s img.kernelPml4 (index 39 virt)
  if pml4e &&& vmFlagPresent = 0 then 0
  else
    let pdpte := entry s (clearLow 12 pml4e) (index 30 virt)
    if pdpte &&& vmFlagPresent = 0 then 0
    else
      let pde := entry s (clearLow 12 pdpte) (index 21 virt)
      if pde &&& vmFlagPresent = 0 then 0
      else if pde &&& vmFlagHuge ≠ 0 then clearLow 21 pde ||| (virt &&& 0x1fffff)
      else
        let pte := entry s (clearLow 12 pde) (index 12 virt)
        if pte &&& vmFlagPresent = 0 then 0
        else clearLow 12 pte ||| (virt &&& 0xfff)

end Calls

section Abstract

/-- The base of each mapped page, by the number of the page. -/
abbrev PageMap : Type := ℕ → Option ℕ

/-- The page of an address, of which the low 48 bits count. -/
def pageOf (a : ℕ) : ℕ := a % 2 ^ 48 / vmPageSize

/-- The identity on the boot map. -/
def PageMap.boot : PageMap := fun k =>
  if k * vmPageSize < vmBootMapBytes then some (k * vmPageSize) else none

def PageMap.map (M : PageMap) (virt phys : ℕ) : PageMap :=
  Function.update M (pageOf virt) (some phys)

def PageMap.translate (M : PageMap) (a : ℕ) : ℕ :=
  match M (pageOf a) with
  | none => 0
  | some base => base + a % vmPageSize

/-- The arguments of a call of `vm_map_page`, with flags of 12 bits. -/
structure MapCall where
  virt : ℕ
  phys : ℕ
  flags : ℕ
  virt_lt : virt < 2 ^ 64
  phys_lt : phys < 2 ^ 64
  flags_lt : flags < 2 ^ 12

/-- The arguments are misaligned, or the address is in the boot map. -/
def MapCall.Refused (c : MapCall) : Prop :=
  c.virt % vmPageSize ≠ 0 ∨ c.phys % vmPageSize ≠ 0 ∨ c.virt % 2 ^ 48 < vmBootMapBytes

instance (c : MapCall) : Decidable c.Refused := inferInstanceAs (Decidable (_ ∨ _ ∨ _))

/-- A call beside the page map, which each call that returns 0 updates. -/
def mapBoth (img : KernelImage) (sM : Allocators × PageMap) (c : MapCall) : Allocators × PageMap :=
  let (ret, s) := vmMapPage img c.virt c.phys c.flags sM.1
  (s, if ret = 0 then sM.2.map c.virt c.phys else sM.2)

end Abstract

end Vm

end PeanutKernel
