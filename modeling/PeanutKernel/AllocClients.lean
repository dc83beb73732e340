import PeanutKernel.Alloc
import PeanutKernel.Lib.Links

/-!
# Clients of the allocators

Calls of `slab_alloc` and `slab_free`, of `kalloc` and `kfree_large`, and of `kalloc` and `kfree`,
by clients that store to the blocks they hold. What `vm_alloc_page` returns is left open here: a
call comes with the page it would get.
-/

namespace PeanutKernel

namespace Alloc

/-- The allocators, with what the source does not keep: the pages that `refill` has cut into slots,
with their class, and where a pointer came from, the class of its slot or, from the large heap,
`none`. -/
structure Clients extends Allocators where
  cut : List (ℕ × Fin slabClasses)
  origin : ℕ → Option (Fin slabClasses)

/-- A call, with the page `vm_alloc_page` would return where it may be called, or a store of a byte
by a client. -/
inductive Call
  | slabAlloc (size page : ℕ)
  | slabFree (ptr : ℕ)
  | kalloc (size page : ℕ)
  | kfree (ptr : ℕ)
  | kfreeLarge (ptr : ℕ)
  | store (a : ℕ) (b : UInt8)

/-- What `kalloc` does first: it asks the slabs. -/
def slabTry (kernelEnd size : ℕ) (s : Allocators) : ℕ × Allocators :=
  let s := kallocInit kernelEnd s
  if size ≤ 1024 then slabAlloc size s else (0, s)

namespace Clients

variable (t : Clients)

def withPage (page : ℕ) : Allocators := { t.toAllocators with pageBump := page }

/-- The page that `slab_alloc` cuts into slots. -/
def refilled (size page : ℕ) : List (ℕ × Fin slabClasses) :=
  match classFor size with
  | some ci => if t.freeLists ci = 0 ∧ page ≠ 0 then [(page, ci)] else []
  | none => []

/-- The client gets the pointer, unless it is null. -/
def given (s : Allocators) (ptr size : ℕ) (source : Option (Fin slabClasses))
    (cut : List (ℕ × Fin slabClasses)) : Clients where
  toAllocators := if ptr = 0 then s else { s with live := (ptr, size) :: s.live }
  cut := cut
  origin := if ptr = 0 then t.origin else Function.update t.origin ptr source

/-- The client has given the pointer back. -/
def freed (s : Allocators) (ptr : ℕ) : Clients :=
  { t with toAllocators := { s with live := t.live.eraseP fun r => r.1 = ptr } }

/-- What a client may store to: the rest of the slot or block, behind its header. -/
def payload (ptr : ℕ) : ℕ × ℕ :=
  (ptr, match t.origin ptr with
    | some ci => classSizes ci - slabHeaderBytes
    | none => le64 t.mem (ptr - blockHeaderBytes))

end Clients

section Runs

def call (kernelEnd fuel : ℕ) (t : Clients) : Call → Option Clients
  | .slabAlloc size page =>
    let (ptr, s) := slabAlloc size (t.withPage page)
    some (t.given s ptr size (classFor size) (t.refilled size page ++ t.cut))
  | .slabFree ptr => some (t.freed ((slabFree ptr t.toAllocators).getD t.toAllocators) ptr)
  | .kalloc size page =>
    (kalloc kernelEnd fuel size (t.withPage page)).map fun (ptr, s) =>
      if (slabTry kernelEnd size (t.withPage page)).1 ≠ 0 then
        t.given s ptr size (classFor size) (t.refilled size page ++ t.cut)
      else t.given s ptr size none t.cut
  | .kfree ptr => some (t.freed (kfree ptr t.toAllocators) ptr)
  | .kfreeLarge ptr => some (t.freed (kfreeLarge ptr t.toAllocators) ptr)
  | .store a b => some { t with mem := Function.update t.mem a b }

/-- After `slab_init`, before there is a large heap. -/
def slabBoot (mem : Buf) : Clients where
  mem := mem
  pageBump := 0
  heapStart := 0
  freeLists := fun _ => 0
  live := []
  pages := []
  headers := []
  heapEnd := 0
  cut := []
  origin := fun _ => none

/-- After `slab_init` and `kalloc_init`. -/
def heapBoot (kernelEnd : ℕ) (mem : Buf) : Clients where
  toAllocators := boot kernelEnd mem
  cut := []
  origin := fun _ => none

/-- A page that `vm_alloc_page` has not returned before, or null. -/
def NewPage (t : Clients) (page : ℕ) : Prop :=
  page % vmPageSize = 0 ∧ page < 2 ^ 64 ∧ page ∉ t.cut.map Prod.fst

/-- The walk of `kalloc` ends without a block that is free and long enough. -/
def Grows (fuel size : ℕ) (s : Allocators) : Prop :=
  ∃ w ∈ kallocWalk s.mem (roundUp size) fuel s.heapStart, w.2 = false

/-- Calls of `slab_alloc` and `slab_free`. -/
def SlabProper (t : Clients) : Call → Prop
  | .slabAlloc size page =>
    size ≤ 1016 ∧ (TakesPage t.toAllocators (.kalloc size) → NewPage t page)
  | .slabFree ptr => ptr ∈ t.live.map Prod.fst
  | .store a _ => ∃ r ∈ t.live, InRange (t.payload r.1) a
  | _ => False

/-- Calls of `kalloc` for more than the slabs have, and of `kfree_large`; the large heap stays
within the address space. -/
def HeapProper (fuel : ℕ) (t : Clients) : Call → Prop
  | .kalloc size _ => (1024 < size ∧ size ≤ 2 ^ 32) ∧
      (Grows fuel size t.toAllocators → t.heapEnd + blockHeaderBytes + roundUp size ≤ 2 ^ 64)
  | .kfreeLarge ptr => ptr ∈ t.live.map Prod.fst
  | .store a _ => ∃ r ∈ t.live, InRange (t.payload r.1) a
  | _ => False

/-- Calls of `kalloc` and `kfree`; a page for slabs is apart from the large heap, and a new block of
the large heap from the pages of slabs. -/
def KfreeProper (kernelEnd fuel : ℕ) (t : Clients) : Call → Prop
  | .kalloc size page => size ≤ 2 ^ 32 ∧
      (TakesPage t.toAllocators (.kalloc size) → NewPage t page ∧ (page = 0 → 0 < size) ∧
        (page + vmPageSize ≤ t.heapStart ∨ heapTop t.toAllocators ≤ page)) ∧
      ((slabTry kernelEnd size (t.withPage page)).1 = 0 →
        Grows fuel size (slabTry kernelEnd size (t.withPage page)).2 →
          t.heapEnd + blockHeaderBytes + roundUp size ≤ 2 ^ 64 ∧
          ∀ p ∈ t.cut, p.1 + vmPageSize ≤ t.heapEnd ∨
            t.heapEnd + blockHeaderBytes + roundUp size ≤ p.1)
  | .kfree ptr => ptr ∈ t.live.map Prod.fst
  | .store a _ => ∃ r ∈ t.live, InRange (t.payload r.1) a
  | _ => False

instance instDecidableNewPage (t : Clients) (page : ℕ) : Decidable (NewPage t page) :=
  inferInstanceAs (Decidable (_ ∧ _))

instance instDecidableGrows (fuel size : ℕ) (s : Allocators) : Decidable (Grows fuel size s) :=
  inferInstanceAs (Decidable (∃ w ∈ kallocWalk s.mem (roundUp size) fuel s.heapStart, w.2 = false))

instance instDecidableSlabProper (t : Clients) : ∀ e, Decidable (SlabProper t e)
  | .slabAlloc _ _ => inferInstanceAs (Decidable (_ ∧ _))
  | .slabFree ptr => inferInstanceAs (Decidable (ptr ∈ t.live.map Prod.fst))
  | .store a _ => inferInstanceAs (Decidable (∃ r ∈ t.live, InRange (t.payload r.1) a))
  | .kalloc _ _ | .kfree _ | .kfreeLarge _ => inferInstanceAs (Decidable False)

instance instDecidableHeapProper (fuel : ℕ) (t : Clients) : ∀ e, Decidable (HeapProper fuel t e)
  | .kalloc _ _ => inferInstanceAs (Decidable (_ ∧ _))
  | .kfreeLarge ptr => inferInstanceAs (Decidable (ptr ∈ t.live.map Prod.fst))
  | .store a _ => inferInstanceAs (Decidable (∃ r ∈ t.live, InRange (t.payload r.1) a))
  | .slabAlloc _ _ | .slabFree _ | .kfree _ => inferInstanceAs (Decidable False)

instance instDecidableKfreeProper (kernelEnd fuel : ℕ) (t : Clients) :
    ∀ e, Decidable (KfreeProper kernelEnd fuel t e)
  | .kalloc _ _ => inferInstanceAs (Decidable (_ ∧ _ ∧ _))
  | .kfree ptr => inferInstanceAs (Decidable (ptr ∈ t.live.map Prod.fst))
  | .store a _ => inferInstanceAs (Decidable (∃ r ∈ t.live, InRange (t.payload r.1) a))
  | .slabAlloc _ _ | .slabFree _ | .kfreeLarge _ => inferInstanceAs (Decidable False)

end Runs

section Sound

/-- The pointer is to a slot of the class. -/
def IsSlot (t : Clients) (ci : Fin slabClasses) (ptr : ℕ) : Prop :=
  (∃ page, (page, ci) ∈ t.cut ∧
    ∃ k < vmPageSize / classSizes ci, ptr = page + k * classSizes ci + slabHeaderBytes) ∧
  le32 t.mem (ptr - 8) = slabMagic ∧ le32 t.mem (ptr - 4) = ci.val

/-- The free lists end and have no slot twice, only slots of their class and none that is live;
what clients have are slots long enough, apart from one another and from the headers. -/
structure SlabSound (t : Clients) : Prop where
  free : ∀ ci, ∃ nodes, Links.Linked 0 (le64 t.mem) (t.freeLists ci) nodes ∧ nodes.Nodup ∧
    ∀ p ∈ nodes, IsSlot t ci p ∧ p ∉ t.live.map Prod.fst
  live : ∀ r ∈ t.live, ∃ ci, t.origin r.1 = some ci ∧ IsSlot t ci r.1 ∧ r.2 ≤ (t.payload r.1).2
  apart : (t.live.map (fun r => t.payload r.1) ++ t.headers).Pairwise
    fun r r' => ∀ a, InRange r a → ¬ InRange r' a

/-- The headers that `heap_start` leads to, each block at the end of the one before; what clients
have are blocks long enough, apart from one another and from the headers. -/
structure HeapSound (t : Clients) (headers : List ℕ) : Prop where
  chain : Links.Linked 0 (fun a => le64 t.mem (a + 16)) t.heapStart headers
  increasing : headers.Pairwise (· < ·)
  adjacent : headers.IsChain fun a b => b = a + blockHeaderBytes + le64 t.mem a
  live : ∀ r ∈ t.live, ∃ a ∈ headers, r.1 = a + blockHeaderBytes ∧
    t.payload r.1 = (r.1, le64 t.mem a) ∧ r.2 ≤ le64 t.mem a
  apart : (t.live.map (fun r => t.payload r.1)
      ++ headers.map fun a => (a, blockHeaderBytes)).Pairwise
    fun r r' => ∀ a, InRange r a → ¬ InRange r' a

/-- A call of `kalloc` returns what no client has, and a block that is already there only if it is
free. -/
def ReusesFree (kernelEnd fuel : ℕ) (t : Clients) (headers : List ℕ) : Call → Prop
  | .kalloc size page => ∀ ptr s, kalloc kernelEnd fuel size (t.withPage page) = some (ptr, s) →
      ptr ∉ t.live.map Prod.fst ∧
        ∀ a ∈ headers, le64 t.mem a ≠ 0 → ptr = a + blockHeaderBytes → le32 t.mem (a + 8) ≠ 0
  | _ => True

/-- The slot is put on the free list of its class. -/
def slabPush (ci : Fin slabClasses) (ptr : ℕ) (s : Allocators) : Allocators :=
  { s with
    mem := storeLe 8 s.mem ptr (s.freeLists ci)
    freeLists := Function.update s.freeLists ci ptr }

/-- `slab_free` takes the pointer for its own class if it came from a slab, and not if it came from
the large heap; and `kfree` goes by that. -/
def GoesBack (t : Clients) (ptr : ℕ) : Prop :=
  match t.origin ptr with
  | some ci => slabFree ptr t.toAllocators = some (slabPush ci ptr t.toAllocators) ∧
      kfree ptr t.toAllocators = slabPush ci ptr t.toAllocators
  | none => slabFree ptr t.toAllocators = none ∧
      kfree ptr t.toAllocators = kfreeLarge ptr t.toAllocators

end Sound

end Alloc

end PeanutKernel
