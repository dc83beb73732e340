import Mathlib.Data.Fin.VecNotation
import PeanutKernel.Block
import PeanutKernel.Lib.Runs

/-!
# The allocators

`freelib/kalloc.c`, `freelib/slab.c` and the page allocator of `mm/vm.c`, over one byte-addressed
memory. Pointers are `uint64_t` values, so their arithmetic is taken modulo `2 ^ 64`; null is 0.
`kernelEnd` is the address of `_kernel_end`. A `BlockHeader` has its `size` at offset 0, `is_free`
at 8 and `next` at 16, 24 bytes in all; a `SlabHeader` is 8 bytes. An access to the last bytes of
the address space runs past its end rather than back to its start.

The walk along the large heap has no bound in the source, so `kalloc` takes `fuel`.
-/

namespace PeanutKernel

namespace Alloc

def vmPageSize : ℕ := 4096

def slabClasses : ℕ := 6

def slabMagic : ℕ := 0x534C4142

def classSizes : Fin slabClasses → ℕ := ![32, 64, 128, 256, 512, 1024]

/-- `sizeof(SlabHeader)` -/
def slabHeaderBytes : ℕ := 8

/-- `sizeof(BlockHeader)` -/
def blockHeaderBytes : ℕ := 24

/-- The variables of the allocators. The source does not have the last four: what callers hold, as
pointers and sizes they asked for, the pages handed out to them, where headers have been written
and how long they are, and the end of the large heap's last block. -/
structure Allocators where
  mem : Buf
  pageBump : ℕ
  heapStart : ℕ
  freeLists : Fin slabClasses → ℕ
  live : List (ℕ × ℕ)
  pages : List ℕ
  headers : List (ℕ × ℕ)
  heapEnd : ℕ

/-- A store of `n` bytes, the lowest first. -/
def storeLe (n : ℕ) (mem : Buf) (a v : ℕ) : Buf := fun x =>
  if a ≤ x ∧ x < a + n then UInt8.ofNat (v / 256 ^ (x - a)) else mem x

section Pages

def alignUp (v a : ℕ) : ℕ := (v + a - 1) % 2 ^ 64 / a * a

/-- Where `vm_init` starts handing out pages. -/
def firstPage (kernelEnd : ℕ) : ℕ := alignUp kernelEnd vmPageSize

def vmAllocPage (s : Allocators) : ℕ × Allocators :=
  (s.pageBump, { s with
    pageBump := (s.pageBump + vmPageSize) % 2 ^ 64
    mem := fun a => if s.pageBump ≤ a ∧ a < s.pageBump + vmPageSize then 0 else s.mem a })

end Pages

section Slabs

def classFor (size : ℕ) : Option (Fin slabClasses) :=
  (List.finRange slabClasses).find? fun i => (size + slabHeaderBytes) % 2 ^ 64 ≤ classSizes i

/-- A round of the loop of `refill`. -/
def refillSlot (ci : Fin slabClasses) (page : ℕ) (s : Allocators) (off : ℕ) : Allocators :=
  let h := (page + off) % 2 ^ 64
  let n := (h + slabHeaderBytes) % 2 ^ 64
  { s with
    mem := storeLe 8 (storeLe 4 (storeLe 4 s.mem h slabMagic) (h + 4) ci.val) n (s.freeLists ci)
    freeLists := Function.update s.freeLists ci n
    headers := (h, slabHeaderBytes) :: s.headers }

/-- Whether there was a page. -/
def refill (ci : Fin slabClasses) (s : Allocators) : Bool × Allocators :=
  let (page, s) := vmAllocPage s
  if page = 0 then (false, s)
  else
    let slot := classSizes ci
    (true, ((List.range (vmPageSize / slot)).map (· * slot)).foldl (refillSlot ci page) s)

def slabAlloc (size : ℕ) (s : Allocators) : ℕ × Allocators :=
  match classFor size with
  | none => (0, s)
  | some ci =>
    let (filled, s) := if s.freeLists ci = 0 then refill ci s else (true, s)
    if filled then
      let n := s.freeLists ci
      (n, { s with freeLists := Function.update s.freeLists ci (le64 s.mem n) })
    else (0, s)

/-- `none` if the pointer is not one of a slab. -/
def slabFree (ptr : ℕ) (s : Allocators) : Option Allocators :=
  if ptr = 0 then none
  else
    let h := (ptr + 2 ^ 64 - slabHeaderBytes) % 2 ^ 64
    if le32 s.mem h ≠ slabMagic then none
    else if hci : le32 s.mem (h + 4) < slabClasses then
      let ci : Fin slabClasses := ⟨le32 s.mem (h + 4), hci⟩
      some { s with
        mem := storeLe 8 s.mem ptr (s.freeLists ci)
        freeLists := Function.update s.freeLists ci ptr }
    else none

end Slabs

section Heap

def writeHeader (mem : Buf) (a size isFree next : ℕ) : Buf :=
  storeLe 8 (storeLe 4 (storeLe 8 mem a size) (a + 8) isFree) (a + 16) next

def kallocInit (kernelEnd : ℕ) (s : Allocators) : Allocators :=
  if s.heapStart ≠ 0 then s
  else
    let heapAddr := (kernelEnd + 15) % 2 ^ 64 / 16 * 16
    { s with
      heapStart := heapAddr
      mem := writeHeader s.mem heapAddr 0 1 0
      headers := (heapAddr, blockHeaderBytes) :: s.headers
      heapEnd := heapAddr }

/-- The loop of `kalloc`: the block it stops at, and whether that one is taken. -/
def kallocWalk (mem : Buf) (size : ℕ) : ℕ → ℕ → Option (ℕ × Bool)
  | fuel, current =>
    if le64 mem current = 0 then some (current, false)
    else if le32 mem (current + 8) ≠ 0 ∧ size ≤ le64 mem current then some (current, true)
    else if le64 mem (current + 16) = 0 then some (current, false)
    else match fuel with
      | 0 => none
      | fuel + 1 => kallocWalk mem size fuel (le64 mem (current + 16))

/-- `(size + 15) & ~15` -/
def roundUp (size : ℕ) : ℕ := (size + 15) % 2 ^ 64 / 16 * 16

/-- What `kalloc` does when no slab has the block. -/
def kallocLarge (fuel size : ℕ) (s : Allocators) : Option (ℕ × Allocators) :=
  let size := roundUp size
  match kallocWalk s.mem size fuel s.heapStart with
  | none => none
  | some (current, true) =>
    some ((current + blockHeaderBytes) % 2 ^ 64, { s with mem := storeLe 4 s.mem (current + 8) 0 })
  | some (current, false) =>
    let newBlock :=
      if le64 s.mem current = 0 then s.heapStart
      else (current + blockHeaderBytes + le64 s.mem current) % 2 ^ 64
    let mem := writeHeader s.mem newBlock size 0 0
    some ((newBlock + blockHeaderBytes) % 2 ^ 64, { s with
      mem := if current ≠ newBlock then storeLe 8 mem (current + 16) newBlock else mem
      headers := if current ≠ newBlock then (newBlock, blockHeaderBytes) :: s.headers else s.headers
      heapEnd := newBlock + blockHeaderBytes + size })

def kalloc (kernelEnd fuel size : ℕ) (s : Allocators) : Option (ℕ × Allocators) :=
  let s := kallocInit kernelEnd s
  let (small, s) := if size ≤ 1024 then slabAlloc size s else (0, s)
  if small ≠ 0 then some (small, s) else kallocLarge fuel size s

def kfreeLarge (ptr : ℕ) (s : Allocators) : Allocators :=
  if ptr = 0 then s
  else
    let header := (ptr + 2 ^ 64 - blockHeaderBytes) % 2 ^ 64
    { s with mem := storeLe 4 s.mem (header + 8) 1 }

def kfree (ptr : ℕ) (s : Allocators) : Allocators :=
  if ptr = 0 then s
  else match slabFree ptr s with
    | some s => s
    | none => kfreeLarge ptr s

end Heap

section Runs

/-- After `vm_init`, `slab_init` and `kalloc_init`. -/
def boot (kernelEnd : ℕ) (mem : Buf) : Allocators :=
  kallocInit kernelEnd {
    mem := mem
    pageBump := firstPage kernelEnd
    heapStart := 0
    freeLists := fun _ => 0
    live := []
    pages := []
    headers := []
    heapEnd := 0 }

/-- A call, or a store of a byte by whoever holds the block or page it is in. -/
inductive Event
  | kalloc (size : ℕ)
  | kfree (ptr : ℕ)
  | vmAllocPage
  | store (a : ℕ) (b : UInt8)

def step (kernelEnd fuel : ℕ) (s : Allocators) : Event → Option Allocators
  | .kalloc size => (kalloc kernelEnd fuel size s).map fun (ptr, s) =>
      if ptr = 0 then s else { s with live := (ptr, size) :: s.live }
  | .kfree ptr => some { kfree ptr s with live := s.live.eraseP fun r => r.1 = ptr }
  | .vmAllocPage =>
    let (page, s) := vmAllocPage s
    some { s with pages := page :: s.pages }
  | .store a b => some { s with mem := Function.update s.mem a b }

/-- The address is one of the `r.2` bytes from `r.1` on. -/
def InRange (r : ℕ × ℕ) (a : ℕ) : Prop := ∃ i < r.2, a = (r.1 + i) % 2 ^ 64

/-- The live blocks, the pages handed out and the headers. -/
def ranges (s : Allocators) : List (ℕ × ℕ) :=
  s.live ++ s.pages.map (fun p => (p, vmPageSize)) ++ s.headers

def PairwiseDisjoint (s : Allocators) : Prop :=
  (ranges s).Pairwise fun r r' => ∀ a, InRange r a → ¬ InRange r' a

/-- Sizes up to `2 ^ 32`; only what is live is freed, and only what is held is stored to. -/
def Proper (s : Allocators) : Event → Prop
  | .kalloc size => size ≤ 2 ^ 32
  | .kfree ptr => ptr ∈ s.live.map Prod.fst
  | .vmAllocPage => True
  | .store a _ => (∃ r ∈ s.live, InRange r a) ∨ ∃ p ∈ s.pages, InRange (p, vmPageSize) a

instance instDecidableInRange (r : ℕ × ℕ) (a : ℕ) : Decidable (InRange r a) :=
  inferInstanceAs (Decidable (∃ i < r.2, a = (r.1 + i) % 2 ^ 64))

instance instDecidableProper (s : Allocators) : ∀ e, Decidable (Proper s e)
  | .kalloc size => inferInstanceAs (Decidable (size ≤ 2 ^ 32))
  | .kfree ptr => inferInstanceAs (Decidable (ptr ∈ s.live.map Prod.fst))
  | .vmAllocPage => inferInstanceAs (Decidable True)
  | .store a _ => inferInstanceAs
      (Decidable ((∃ r ∈ s.live, InRange r a) ∨ ∃ p ∈ s.pages, InRange (p, vmPageSize) a))

/-- The event needs a new page. -/
def TakesPage (s : Allocators) : Event → Prop
  | .kalloc size => ∃ ci, classFor size = some ci ∧ s.freeLists ci = 0
  | .vmAllocPage => True
  | _ => False

instance instDecidableTakesPage (s : Allocators) : ∀ e, Decidable (TakesPage s e)
  | .kalloc size => inferInstanceAs
      (Decidable (∃ ci, classFor size = some ci ∧ s.freeLists ci = 0))
  | .kfree _ | .store _ _ => inferInstanceAs (Decidable False)
  | .vmAllocPage => inferInstanceAs (Decidable True)

/-- The size of the block the event adds to the large heap. -/
def newBlock (fuel : ℕ) (s : Allocators) : Event → Option ℕ
  | .kalloc size =>
    if (classFor size).isSome then none
    else match kallocWalk s.mem (roundUp size) fuel s.heapStart with
      | some (_, false) => some (roundUp size)
      | _ => none
  | _ => none

/-- The end of the large heap, its first header included. -/
def heapTop (s : Allocators) : ℕ := max (s.heapStart + blockHeaderBytes) s.heapEnd

/-- How far the large heap may go: to the first page, once that has been taken. -/
def heapLimit (kernelEnd : ℕ) (s : Allocators) : ℕ :=
  if s.pageBump = firstPage kernelEnd then 2 ^ 64 - 1 else firstPage kernelEnd

/-- The large heap ends before the first page when a page is taken, and stays so; and neither comes
to the end of the address space. -/
def Fits (kernelEnd fuel : ℕ) (s : Allocators) (e : Event) : Prop :=
  (TakesPage s e → heapTop s ≤ firstPage kernelEnd ∧ s.pageBump + vmPageSize < 2 ^ 64) ∧
    ∀ size ∈ newBlock fuel s e, s.heapEnd + blockHeaderBytes + size ≤ heapLimit kernelEnd s

instance instDecidableFits (kernelEnd fuel : ℕ) (s : Allocators) (e : Event) :
    Decidable (Fits kernelEnd fuel s e) :=
  inferInstanceAs (Decidable (_ ∧ _))

end Runs

end Alloc

end PeanutKernel
