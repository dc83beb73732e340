import Mathlib.Algebra.Ring.Nat
import PeanutKernel.Alloc
import PeanutKernel.Lib.Regions
import PeanutKernel.Proofs.Block

/-!
# What the allocators keep in memory

The memory from `_kernel_end` on as regions: block headers and blocks of the large heap, slab
headers and slots, and pages. The large heap is a row of blocks from its start on, each header with
the address of the next (`blockCells`); the free slots of a class are a list through their first
words (`nodeCells`). `Held` ties the variables of the allocators to such a layout, and the calls on
slabs leave them so tied, whatever page `vm_alloc_page` returns, as long as it is apart from every
region.
-/

namespace PeanutKernel

namespace Alloc

open Regions

section Memory

variable {m m' : Buf} {a v : ℕ}

theorem storeLe_outside {n x : ℕ} (h : x < a ∨ a + n ≤ x) : storeLe n m a v x = m x := by
  unfold storeLe
  rw [if_neg (by omega)]

theorem storeLe_inside {n i : ℕ} (h : i < n) :
    storeLe n m a v (a + i) = UInt8.ofNat (v / 256 ^ i) := by
  unfold storeLe
  rw [if_pos (by omega), Nat.add_sub_cancel_left]

theorem le32_bytes (h0 : m a = UInt8.ofNat v) (h1 : m (a + 1) = UInt8.ofNat (v / 256))
    (h2 : m (a + 2) = UInt8.ofNat (v / 256 ^ 2)) (h3 : m (a + 3) = UInt8.ofNat (v / 256 ^ 3)) :
    le32 m a = v % 2 ^ 32 := by
  simp only [le32, h0, h1, h2, h3, UInt8.toNat_ofNat']
  omega

theorem le32_storeLe (hv : v < 2 ^ 32) : le32 (storeLe 4 m a v) a = v := by
  rw [le32_bytes (v := v) (by simpa using storeLe_inside (i := 0) (by omega))
    (by simpa using storeLe_inside (i := 1) (by omega)) (storeLe_inside (by omega))
    (storeLe_inside (by omega)), Nat.mod_eq_of_lt hv]

theorem le64_storeLe (hv : v < 2 ^ 64) : le64 (storeLe 8 m a v) a = v := by
  have hlow : le32 (storeLe 8 m a v) a = v % 2 ^ 32 :=
    le32_bytes (by simpa using storeLe_inside (i := 0) (by omega))
      (by simpa using storeLe_inside (i := 1) (by omega)) (storeLe_inside (by omega))
      (storeLe_inside (by omega))
  have hhigh : le32 (storeLe 8 m a v) (a + 4) = v / 2 ^ 32 % 2 ^ 32 := by
    have hpow : ∀ i, v / 2 ^ 32 / 256 ^ i = v / 256 ^ (4 + i) := fun i => by
      rw [Nat.div_div_eq_div_mul, Nat.pow_add, show (256 : ℕ) ^ 4 = 2 ^ 32 from rfl]
    refine le32_bytes ?_ ?_ ?_ ?_
    · rw [storeLe_inside (by omega), show (256 : ℕ) ^ 4 = 2 ^ 32 from rfl]
    · rw [Nat.add_assoc, storeLe_inside (by omega), ← hpow 1, Nat.pow_one]
    · rw [Nat.add_assoc, storeLe_inside (by omega), ← hpow 2]
    · rw [Nat.add_assoc, storeLe_inside (by omega), ← hpow 3]
  rw [le64, hlow, hhigh]
  omega

end Memory

section Cells

/-- A region: the large heap's first header while it has no block, a block with its header, a slot
of a slab with its header, free or used, and a page. What is used comes with the size asked for. -/
inductive Cell
  | start (addr : ℕ)
  | block (addr size : ℕ) (req : Option ℕ) (next : ℕ)
  | free (addr : ℕ) (ci : Fin slabClasses) (next : ℕ)
  | used (addr : ℕ) (ci : Fin slabClasses) (req : ℕ)
  | page (addr : ℕ)

namespace Cell

def addr : Cell → ℕ
  | .start a | .block a _ _ _ | .free a _ _ | .used a _ _ | .page a => a

def len : Cell → ℕ
  | .start _ => blockHeaderBytes
  | .block _ size _ _ => blockHeaderBytes + size
  | .free _ ci _ | .used _ ci _ => classSizes ci
  | .page _ => vmPageSize

/-- What the headers of a region say. -/
def Ok : Cell → Buf → Prop
  | .start a, m => le64 m a = 0
  | .block a size req next, m => le64 m a = size ∧ (le32 m (a + 8) ≠ 0 ↔ req = none) ∧
      le64 m (a + 16) = next ∧ next % 8 = 0 ∧ ∀ r ∈ req, r ≤ size
  | .free a ci next, m =>
      le32 m a = slabMagic ∧ le32 m (a + 4) = ci.val ∧ le64 m (a + 8) = next
  | .used a ci req, m => le32 m a = slabMagic ∧ le32 m (a + 4) = ci.val ∧
      req + slabHeaderBytes ≤ classSizes ci
  | .page _, _ => True

def live : Cell → Option (ℕ × ℕ)
  | .block a _ (some req) _ => some (a + blockHeaderBytes, req)
  | .used a _ req => some (a + slabHeaderBytes, req)
  | _ => none

def pageAt : Cell → Option ℕ
  | .page a => some a
  | _ => none

def header : Cell → Option (ℕ × ℕ)
  | .start a | .block a _ _ _ => some (a, blockHeaderBytes)
  | .free a _ _ | .used a _ _ => some (a, slabHeaderBytes)
  | .page _ => none

/-- Whether the region is a page or in one. -/
def InPages : Cell → Prop
  | .start _ | .block _ _ _ _ => False
  | .free _ _ _ | .used _ _ _ | .page _ => True

end Cell

/-- Where a region lies, and what for: the large heap, a slot of a class, or a page. -/
inductive Place
  | heap (addr len : ℕ)
  | slot (addr : ℕ) (ci : Fin slabClasses)
  | page (addr : ℕ)

def Cell.place : Cell → Place
  | .start a => .heap a blockHeaderBytes
  | .block a size _ _ => .heap a (blockHeaderBytes + size)
  | .free a ci _ | .used a ci _ => .slot a ci
  | .page a => .page a

theorem Cell.place_congr {c c' : Cell} (h : c'.place = c.place) :
    c'.addr = c.addr ∧ c'.len = c.len ∧ c'.pageAt = c.pageAt ∧ c'.header = c.header := by
  cases c <;> cases c' <;> simp_all [place, addr, len, pageAt, header]

theorem classSizes_spec (ci : Fin slabClasses) :
    32 ≤ classSizes ci ∧ classSizes ci ≤ 1024 ∧ vmPageSize % classSizes ci = 0 := by
  revert ci
  decide

theorem slot_end_le {ci : Fin slabClasses} {k : ℕ} (hk : k < vmPageSize / classSizes ci) :
    k * classSizes ci + classSizes ci ≤ vmPageSize := by
  rw [← Nat.succ_mul]
  exact (Nat.mul_le_mul_right _ hk).trans (Nat.div_mul_le_self _ _)

theorem Cell.InPages.len_pos : ∀ {c : Cell}, c.InPages → 0 < c.len
  | .free _ ci _, _ | .used _ ci _, _ => Nat.lt_of_lt_of_le (by decide) (classSizes_spec ci).1
  | .page _, _ => Nat.succ_pos _

def kind : Kind Cell UInt8 where
  addr := Cell.addr
  len := Cell.len
  Ok := Cell.Ok
  congr := by
    intro c m m' h hok
    cases c with
    | start a =>
      simp only [Cell.Ok, Cell.addr, Cell.len, blockHeaderBytes] at h hok ⊢
      rwa [le64_congr fun x hge hlt => h x hge (by omega)]
    | block a size req next =>
      simp only [Cell.Ok, Cell.addr, Cell.len, blockHeaderBytes] at h hok ⊢
      rwa [le64_congr fun x hge hlt => h x hge (by omega),
        le32_congr fun x hge hlt => h x (by omega) (by omega),
        le64_congr fun x hge hlt => h x (by omega) (by omega)]
    | free a ci next =>
      have := (classSizes_spec ci).1
      simp only [Cell.Ok, Cell.addr, Cell.len] at h hok ⊢
      rwa [le32_congr fun x hge hlt => h x hge (by omega),
        le32_congr fun x hge hlt => h x (by omega) (by omega),
        le64_congr fun x hge hlt => h x (by omega) (by omega)]
    | used a ci req =>
      have := (classSizes_spec ci).1
      simp only [Cell.Ok, Cell.addr, Cell.len] at h hok ⊢
      rwa [le32_congr fun x hge hlt => h x hge (by omega),
        le32_congr fun x hge hlt => h x (by omega) (by omega)]
    | page a => trivial

/-- A store into a region is not seen outside of it. -/
theorem storeLe_of_not_inside {m : Buf} {c : Cell} {a n v x : ℕ} (hge : c.addr ≤ a)
    (hle : a + n ≤ c.addr + c.len) (hx : ¬ kind.Inside c x) : storeLe n m a v x = m x := by
  refine storeLe_outside ?_
  by_contra hin
  refine hx ⟨?_, ?_⟩
  · change c.addr ≤ x
    omega
  · change x < c.addr + c.len
    omega

end Cells

section Layout

/-- The blocks of the large heap with their sizes and what was asked for of the used ones; the free
slots of each class by the addresses of their headers; and the other regions. -/
structure Layout where
  blocks : List (ℕ × Option ℕ)
  free : Fin slabClasses → List ℕ
  others : List Cell

def extent (bs : List (ℕ × Option ℕ)) : ℕ := (bs.map fun b => blockHeaderBytes + b.1).sum

/-- The blocks from an address on, each header pointing to the next. -/
def blockCells : ℕ → List (ℕ × Option ℕ) → List Cell
  | _, [] => []
  | a, (size, req) :: bs =>
    .block a size req (if bs = [] then 0 else a + blockHeaderBytes + size)
      :: blockCells (a + blockHeaderBytes + size) bs

def heapCells (start : ℕ) (bs : List (ℕ × Option ℕ)) : List Cell :=
  if bs = [] then [.start start] else blockCells start bs

/-- The pointer to the first of a list of slots. -/
def ptrOf : List ℕ → ℕ
  | [] => 0
  | a :: _ => a + slabHeaderBytes

def nodeCells (ci : Fin slabClasses) : List ℕ → List Cell
  | [] => []
  | a :: as => .free a ci (ptrOf as) :: nodeCells ci as

def freeCells (free : Fin slabClasses → List ℕ) : List Cell :=
  (List.finRange slabClasses).flatMap fun ci => nodeCells ci (free ci)

def Layout.cells (L : Layout) (start : ℕ) : List Cell :=
  heapCells start L.blocks ++ (freeCells L.free ++ L.others)

/-- The free slots of a class can be looked at apart. -/
theorem freeCells_perm (free : Fin slabClasses → List ℕ) (ci : Fin slabClasses) :
    ∃ rest, ∀ as, (freeCells (Function.update free ci as)).Perm (nodeCells ci as ++ rest) := by
  obtain ⟨l, r, hlr⟩ := List.append_of_mem (List.mem_finRange ci)
  have hnodup : (l ++ ci :: r).Nodup := hlr ▸ List.nodup_finRange slabClasses
  have hl : ci ∉ l := fun hmem =>
    (List.nodup_append.1 hnodup).2.2 ci hmem ci (List.mem_cons_self ..) rfl
  have hr : ci ∉ r := (List.nodup_cons.1 (List.nodup_append.1 hnodup).2.1).1
  have hsame : ∀ (as : List ℕ) (t : List (Fin slabClasses)), ci ∉ t →
      (t.flatMap fun cj => nodeCells cj (Function.update free ci as cj))
        = t.flatMap fun cj => nodeCells cj (free cj) := by
    intro as t ht
    refine List.flatMap_congr fun cj hcj => ?_
    have hne : cj ≠ ci := by
      rintro rfl
      exact ht hcj
    rw [Function.update_of_ne hne]
  refine ⟨(l.flatMap fun cj => nodeCells cj (free cj))
    ++ r.flatMap fun cj => nodeCells cj (free cj), fun as => ?_⟩
  rw [freeCells, hlr, List.flatMap_append, List.flatMap_cons, hsame as l hl, hsame as r hr,
    Function.update_self, ← List.append_assoc, ← List.append_assoc]
  exact List.perm_append_comm.append_right _
/-- The regions in pages. -/
def Layout.paged (L : Layout) : List Cell := freeCells L.free ++ L.others

/-- The free slots of a class apart from the rest of the pages. -/
theorem paged_free (L : Layout) (ci : Fin slabClasses) :
    ∃ rest, ∀ as others,
      (Layout.paged { L with free := Function.update L.free ci as, others := others }).Perm
        (nodeCells ci as ++ (rest ++ others)) := by
  obtain ⟨rest, hrest⟩ := freeCells_perm L.free ci
  refine ⟨rest, fun as others => ((hrest as).append_right others).trans ?_⟩
  rw [List.append_assoc]

/-- A slot put on the free list of its class. -/
theorem paged_cons (L : Layout) (ci : Fin slabClasses) (a : ℕ) (others : List Cell) :
    (Layout.paged
      { L with free := Function.update L.free ci (a :: L.free ci), others := others }).Perm
        (.free a ci (ptrOf (L.free ci)) :: Layout.paged { L with others := others }) := by
  obtain ⟨rest, hrest⟩ := paged_free L ci
  have hold := hrest (L.free ci) others
  rw [Function.update_eq_self] at hold
  exact (hrest _ _).trans (hold.symm.cons _)

theorem mem_freeCells {free : Fin slabClasses → List ℕ} {c : Cell} :
    c ∈ freeCells free ↔ ∃ ci, c ∈ nodeCells ci (free ci) := by
  simp [freeCells]

theorem mem_paged_head {L : Layout} {ci : Fin slabClasses} {a : ℕ} {as : List ℕ}
    (hfree : L.free ci = a :: as) : .free a ci (ptrOf as) ∈ L.paged :=
  List.mem_append_left _ (mem_freeCells.2 ⟨ci, hfree ▸ List.mem_cons_self ..⟩)

end Layout

section Invariant

variable {P Q : Place → Prop} {s s' : Allocators} {H H' : List Cell} {L L' : Layout} {c c' : Cell}
  {rest : List Cell} {ci : Fin slabClasses} {a req size : ℕ} {as : List ℕ}

/-- The allocators have regions `H` of the large heap, and in pages those of `L`, at places that
are `P`. -/
structure Held (P : Place → Prop) (s : Allocators) (H : List Cell) (L : Layout) : Prop where
  hold : kind.Hold s.mem (H ++ L.paged)
  area : ∀ c ∈ L.paged, P c.place
  lists : ∀ ci, s.freeLists ci = ptrOf (L.free ci)
  live : s.live.Perm ((H ++ L.paged).filterMap Cell.live)
  pages : s.pages.Perm ((H ++ L.paged).filterMap Cell.pageAt)
  headers : s.headers.Perm ((H ++ L.paged).filterMap Cell.header)
  bound : ∀ c ∈ H ++ L.paged, c.addr + c.len ≤ 2 ^ 64

variable (h : Held P s H L)

include h

theorem Held.mono (hP : ∀ p, P p → Q p) : Held Q s H L :=
  ⟨h.hold, fun c hc => hP _ (h.area c hc), h.lists, h.live, h.pages, h.headers, h.bound⟩

/-- A region gives way to one in its place. -/
theorem Held.change (hp : (H ++ L.paged).Perm (c :: rest))
    (hp' : (H' ++ L'.paged).Perm (c' :: rest)) (hplace : c'.place = c.place)
    (hmem : ∀ x, ¬ kind.Inside c x → s'.mem x = s.mem x) (hok : c'.Ok s'.mem)
    (hsame : s'.pages = s.pages ∧ s'.headers = s.headers)
    (hlive : s'.live.Perm ((c' :: rest).filterMap Cell.live)) (harea : ∀ d ∈ L'.paged, P d.place)
    (hlists : ∀ ci, s'.freeLists ci = ptrOf (L'.free ci)) : Held P s' H' L' := by
  obtain ⟨haddr, hlen, hpage, hheader⟩ := Cell.place_congr hplace
  refine ⟨h.hold.change hp hp' haddr hlen hmem hok, harea, hlists,
    hlive.trans (hp'.filterMap _).symm, ?_, ?_, ?_⟩
  · rw [hsame.1]
    refine (h.pages.trans (hp.filterMap _)).trans (List.Perm.trans ?_ (hp'.filterMap _).symm)
    rw [List.filterMap_cons, List.filterMap_cons, hpage]
  · rw [hsame.2]
    refine (h.headers.trans (hp.filterMap _)).trans (List.Perm.trans ?_ (hp'.filterMap _).symm)
    rw [List.filterMap_cons, List.filterMap_cons, hheader]
  · intro d hd
    rcases List.mem_cons.1 (hp'.mem_iff.1 hd) with rfl | hd
    · rw [haddr, hlen]
      exact h.bound c (hp.mem_iff.2 (List.mem_cons_self ..))
    · exact h.bound d (hp.mem_iff.2 (List.mem_cons_of_mem _ hd))

/-- The same for a region in a page. -/
theorem Held.swap (hp : L.paged.Perm (c :: rest)) (hp' : L'.paged.Perm (c' :: rest))
    (hplace : c'.place = c.place) (hmem : ∀ x, ¬ kind.Inside c x → s'.mem x = s.mem x)
    (hok : c'.Ok s'.mem) (hsame : s'.pages = s.pages ∧ s'.headers = s.headers)
    (hlive : s.live.Perm ((c :: (H ++ rest)).filterMap Cell.live) →
      s'.live.Perm ((c' :: (H ++ rest)).filterMap Cell.live))
    (hlists : ∀ ci, s'.freeLists ci = ptrOf (L'.free ci)) : Held P s' H L' := by
  have hcells : (H ++ L.paged).Perm (c :: (H ++ rest)) :=
    (hp.append_left H).trans List.perm_middle
  have hcells' : (H ++ L'.paged).Perm (c' :: (H ++ rest)) :=
    (hp'.append_left H).trans List.perm_middle
  refine h.change hcells hcells' hplace hmem hok hsame
    (hlive (h.live.trans (hcells.filterMap _))) ?_ hlists
  intro d hd
  rcases List.mem_cons.1 (hp'.mem_iff.1 hd) with rfl | hd
  · rw [hplace]
    exact h.area c (hp.mem_iff.2 (List.mem_cons_self ..))
  · exact h.area d (hp.mem_iff.2 (List.mem_cons_of_mem _ hd))

/-- New regions in pages. Nothing changes in those there are. -/
theorem Held.add (new : List Cell) (hp' : L'.paged.Perm (new ++ L.paged))
    (hnew : kind.Hold s'.mem new) (hapart : ∀ c ∈ new, ∀ d ∈ H ++ L.paged, kind.Apart c d)
    (hmem : ∀ d ∈ H ++ L.paged, ∀ x, kind.Inside d x → s'.mem x = s.mem x)
    (hplace : ∀ c ∈ new, P c.place ∧ c.addr + c.len ≤ 2 ^ 64)
    (hlive : s'.live = s.live ∧ new.filterMap Cell.live = [])
    (hpages : s'.pages = new.filterMap Cell.pageAt ++ s.pages)
    (hheaders : s'.headers = new.filterMap Cell.header ++ s.headers)
    (hlists : ∀ ci, s'.freeLists ci = ptrOf (L'.free ci)) : Held P s' H L' := by
  have hcells : (H ++ L'.paged).Perm (new ++ (H ++ L.paged)) := by
    refine (hp'.append_left H).trans ?_
    rw [← List.append_assoc, ← List.append_assoc]
    exact List.perm_append_comm.append_right _
  refine ⟨(h.hold.add hmem hnew hapart).perm hcells.symm, ?_, hlists, ?_, ?_, ?_, ?_⟩
  · intro c hc
    rcases List.mem_append.1 (hp'.mem_iff.1 hc) with hc | hc
    · exact (hplace c hc).1
    · exact h.area c hc
  · rw [hlive.1]
    refine h.live.trans (List.Perm.trans ?_ (hcells.filterMap _).symm)
    rw [List.filterMap_append (l := new), hlive.2, List.nil_append]
  · rw [hpages]
    refine List.Perm.trans ?_ (hcells.filterMap _).symm
    rw [List.filterMap_append (l := new)]
    exact h.pages.append_left _
  · rw [hheaders]
    refine List.Perm.trans ?_ (hcells.filterMap _).symm
    rw [List.filterMap_append (l := new)]
    exact h.headers.append_left _
  · intro c hc
    rcases List.mem_append.1 (hcells.mem_iff.1 hc) with hc | hc
    · exact (hplace c hc).2
    · exact h.bound c hc

theorem Held.freeLists_lt (ci : Fin slabClasses) : s.freeLists ci < 2 ^ 64 := by
  rw [h.lists ci]
  rcases hfree : L.free ci with _ | ⟨a, as⟩
  · simp [ptrOf]
  · have hbound := h.bound _ (List.mem_append_right _ (mem_paged_head hfree))
    have hlow := (classSizes_spec ci).1
    simp only [Cell.addr, Cell.len] at hbound
    simp only [ptrOf, slabHeaderBytes]
    omega

theorem Held.lists_update (ha : a = ptrOf as) (cj : Fin slabClasses) :
    Function.update s.freeLists ci a cj = ptrOf (Function.update L.free ci as cj) := by
  by_cases hcj : cj = ci
  · subst hcj
    rw [Function.update_self, Function.update_self, ha]
  · rw [Function.update_of_ne hcj, Function.update_of_ne hcj, h.lists cj]

end Invariant

section Slabs

variable {P : Place → Prop} {s : Allocators} {H : List Cell} {L : Layout} {c : Cell}
  {ci : Fin slabClasses} {a req size page off lo hi x : ℕ} {as : List ℕ} {cs : List Cell}

/-- The regions have no bytes from `lo` up to `hi`. -/
def Clear (lo hi : ℕ) (cs : List Cell) : Prop :=
  ∀ c ∈ cs, c.addr + c.len ≤ lo ∨ hi ≤ c.addr

theorem Clear.outside (h : Clear lo hi cs) (hc : c ∈ cs) (hx : kind.Inside c x) :
    x < lo ∨ hi ≤ x := by
  obtain ⟨hge, hlt⟩ := hx
  simp only [kind] at hge hlt
  rcases h c hc with h | h <;> omega

/-- A page that no region has a byte of is cleared. -/
theorem Held.cleared (h : Held P s H L)
    (hclear : Clear s.pageBump (s.pageBump + vmPageSize) (H ++ L.paged)) :
    Held P (vmAllocPage s).2 H L := by
  refine h.add [] (List.Perm.refl _) ⟨by simp, List.Pairwise.nil⟩ (by simp) ?_ (by simp) ⟨rfl, rfl⟩
    rfl rfl h.lists
  intro d hd x hx
  have := hclear.outside hd hx
  simp only [vmAllocPage]
  rw [if_neg (by omega)]

/-- A page for a caller. -/
theorem Held.addPage (h : Held P s H L) (hend : s.pageBump + vmPageSize ≤ 2 ^ 64)
    (hclear : Clear s.pageBump (s.pageBump + vmPageSize) (H ++ L.paged))
    (hP : P (.page s.pageBump)) :
    Held P { (vmAllocPage s).2 with pages := s.pageBump :: s.pages } H
      { L with others := .page s.pageBump :: L.others } := by
  refine (h.cleared hclear).add [.page s.pageBump] List.perm_middle
    ⟨?_, List.pairwise_singleton _ _⟩ ?_ (fun _ _ _ _ => rfl) ?_ ⟨rfl, rfl⟩ rfl rfl h.lists
  · intro c hc
    rw [List.mem_singleton.1 hc]
    trivial
  · intro c hc d hd
    rw [List.mem_singleton.1 hc]
    exact (hclear d hd).symm
  · intro c hc
    rw [List.mem_singleton.1 hc]
    exact ⟨hP, hend⟩

/-- A slot of a fresh page, put on the free list of its class. -/
theorem Held.slot (h : Held P s H L) (hend : page + off + classSizes ci ≤ 2 ^ 64)
    (hclear : Clear (page + off) (page + off + classSizes ci) (H ++ L.paged))
    (hP : P (.slot (page + off) ci)) :
    Held P (refillSlot ci page s off) H
      { L with free := Function.update L.free ci ((page + off) :: L.free ci) } := by
  obtain ⟨hlow, -⟩ := classSizes_spec ci
  have hh : (page + off) % 2 ^ 64 = page + off := Nat.mod_eq_of_lt (by omega)
  have hn : (page + off + slabHeaderBytes) % 2 ^ 64 = page + off + slabHeaderBytes :=
    Nat.mod_eq_of_lt (by unfold slabHeaderBytes; omega)
  have hmem : (refillSlot ci page s off).mem = storeLe 8 (storeLe 4
      (storeLe 4 s.mem (page + off) slabMagic) (page + off + 4) ci.val) (page + off + 8)
      (s.freeLists ci) := by
    simp only [refillSlot, hh, hn]
    rfl
  have hclass : ci.val < 6 := ci.isLt
  refine h.add [.free (page + off) ci (ptrOf (L.free ci))] (paged_cons L ci _ _)
    ⟨?_, List.pairwise_singleton _ _⟩ ?_ ?_ ?_ ⟨rfl, rfl⟩ rfl ?_ ?_
  · intro c hc
    rw [List.mem_singleton.1 hc]
    simp only [kind, Cell.Ok, hmem]
    refine ⟨?_, ?_, ?_⟩
    · rw [le32_congr fun x hge hlt => storeLe_outside (by omega),
        le32_congr fun x hge hlt => storeLe_outside (by omega)]
      exact le32_storeLe (by decide)
    · rw [le32_congr fun x hge hlt => storeLe_outside (by omega)]
      exact le32_storeLe (by omega)
    · rw [le64_storeLe (h.freeLists_lt ci), h.lists ci]
  · intro c hc d hd
    rw [List.mem_singleton.1 hc]
    exact (hclear d hd).symm
  · intro d hd x hx
    have := hclear.outside hd hx
    rw [hmem, storeLe_outside (by omega), storeLe_outside (by omega), storeLe_outside (by omega)]
  · intro c hc
    rw [List.mem_singleton.1 hc]
    exact ⟨hP, hend⟩
  · simp only [refillSlot, hh]
    rfl
  · intro cj
    simp only [refillSlot, hh, hn]
    refine h.lists_update ?_ cj
    rfl

/-- The slots `refill` makes of a page. -/
theorem Held.slots (h : Held P s H L) (hend : page + vmPageSize ≤ 2 ^ 64)
    (hclear : Clear page (page + vmPageSize) (H ++ L.paged))
    (hP : ∀ k < vmPageSize / classSizes ci, P (.slot (page + k * classSizes ci) ci)) :
    ∀ k ≤ vmPageSize / classSizes ci, ∃ s' L',
      ((List.range k).map (· * classSizes ci)).foldl (refillSlot ci page) s = s' ∧
        Held P s' H L' ∧ k ≤ (L'.free ci).length ∧ L'.blocks = L.blocks ∧
        Clear (page + k * classSizes ci) (page + vmPageSize) (H ++ L'.paged)
  | 0, _ => ⟨s, L, rfl, h, Nat.zero_le _, rfl, by simpa using hclear⟩
  | k + 1, hk => by
    have hsucc : page + (k + 1) * classSizes ci = page + k * classSizes ci + classSizes ci := by
      rw [Nat.succ_mul]
      omega
    have hle := slot_end_le hk
    obtain ⟨s', L', hs', h', hlen, hblocks, hclear'⟩ := h.slots hend hclear hP k (by omega)
    have hslot := h'.slot (by omega) (fun c hc => (hclear' c hc).imp_right (by omega)) (hP k hk)
    refine ⟨_, _, ?_, hslot, ?_, hblocks, ?_⟩
    · rw [List.range_succ, List.map_append, List.foldl_append, hs']
      rfl
    · simp only [Function.update_self, List.length_cons]
      omega
    · intro c hc
      rw [hsucc]
      rcases List.mem_append.1 hc with hc | hc
      · exact (hclear' c (List.mem_append_left _ hc)).imp_left (by omega)
      · rcases List.mem_cons.1 ((paged_cons L' ci _ _).mem_iff.1 hc) with rfl | hc
        · exact .inl le_rfl
        · exact (hclear' c (List.mem_append_right _ hc)).imp_left (by omega)

theorem refill_null (hpage : s.pageBump = 0) : refill ci s = (false, (vmAllocPage s).2) :=
  if_pos hpage

/-- What `refill` leaves as it is, and where the next page is. -/
theorem refill_frame (ci : Fin slabClasses) (s : Allocators) :
    (refill ci s).2.heapStart = s.heapStart ∧ (refill ci s).2.heapEnd = s.heapEnd ∧
      (refill ci s).2.live = s.live ∧
      (refill ci s).2.pageBump = (s.pageBump + vmPageSize) % 2 ^ 64 := by
  have hslots : ∀ (offs : List ℕ) (s : Allocators) (page : ℕ),
      (offs.foldl (refillSlot ci page) s).heapStart = s.heapStart ∧
        (offs.foldl (refillSlot ci page) s).heapEnd = s.heapEnd ∧
        (offs.foldl (refillSlot ci page) s).live = s.live ∧
        (offs.foldl (refillSlot ci page) s).pageBump = s.pageBump := by
    intro offs
    induction offs with
    | nil => exact fun s page => ⟨rfl, rfl, rfl, rfl⟩
    | cons off offs ih => exact fun s page => ih (refillSlot ci page s off) page
  by_cases hpage : s.pageBump = 0
  · rw [refill_null hpage]
    exact ⟨rfl, rfl, rfl, rfl⟩
  · have hrefill : refill ci s = (true, _) := if_neg hpage
    rw [hrefill]
    exact hslots _ (vmAllocPage s).2 _

theorem slabAlloc_frame (size : ℕ) (s : Allocators) :
    (slabAlloc size s).2.heapStart = s.heapStart ∧ (slabAlloc size s).2.heapEnd = s.heapEnd ∧
      (slabAlloc size s).2.live = s.live ∧
      (slabAlloc size s).2.pageBump =
        if TakesPage s (.kalloc size) then (s.pageBump + vmPageSize) % 2 ^ 64 else s.pageBump := by
  cases hclass : classFor size with
  | none => simp [slabAlloc, TakesPage, hclass]
  | some ci =>
    by_cases hempty : s.freeLists ci = 0
    · have hframe := refill_frame ci s
      simp only [slabAlloc, TakesPage, hclass, hempty, if_true, Option.some.injEq, exists_eq_left']
      split_ifs
      · exact hframe
      · exact hframe
    · simp [slabAlloc, TakesPage, hclass, hempty]

theorem Held.refill (h : Held P s H L) (hpage : s.pageBump ≠ 0)
    (hend : s.pageBump + vmPageSize ≤ 2 ^ 64)
    (hclear : Clear s.pageBump (s.pageBump + vmPageSize) (H ++ L.paged))
    (hP : ∀ k < vmPageSize / classSizes ci, P (.slot (s.pageBump + k * classSizes ci) ci)) :
    ∃ s' L', refill ci s = (true, s') ∧ Held P s' H L' ∧ L'.free ci ≠ [] ∧
      L'.blocks = L.blocks := by
  have hmany : 0 < vmPageSize / classSizes ci := by
    obtain ⟨hlow, hhigh, -⟩ := classSizes_spec ci
    exact Nat.div_pos (by unfold vmPageSize; omega) (by omega)
  obtain ⟨s', L', hs', h', hlen, hblocks, -⟩ :=
    (h.cleared hclear).slots hend hclear hP (vmPageSize / classSizes ci) le_rfl
  refine ⟨s', L', ?_, h', List.ne_nil_of_length_pos (by omega), hblocks⟩
  unfold Alloc.refill
  rw [← hs']
  exact if_neg hpage

/-- The first free slot of a class is taken. -/
theorem Held.pop (h : Held P s H L) (hfree : L.free ci = a :: as)
    (hreq : req + slabHeaderBytes ≤ classSizes ci) :
    Held P
      { s with
        freeLists := Function.update s.freeLists ci (le64 s.mem (a + slabHeaderBytes))
        live := (a + slabHeaderBytes, req) :: s.live }
      H { L with free := Function.update L.free ci as, others := .used a ci req :: L.others } := by
  obtain ⟨rest, hrest⟩ := paged_free L ci
  have hold := hrest (L.free ci) L.others
  rw [Function.update_eq_self, hfree] at hold
  have hok := h.hold.ok _ (List.mem_append_right _ (mem_paged_head hfree))
  have hnew : List.Perm _ (Cell.used a ci req :: (nodeCells ci as ++ (rest ++ L.others))) :=
    (hrest as (.used a ci req :: L.others)).trans
      ((List.perm_middle.append_left _).trans List.perm_middle)
  exact h.swap hold hnew rfl (fun _ _ => rfl) ⟨hok.1, hok.2.1, hreq⟩ ⟨rfl, rfl⟩
    (fun hlive => hlive.cons _) (h.lists_update hok.2.2)

theorem classFor_some (hsize : size ≤ 2 ^ 32) (h : classFor size = some ci) :
    size + slabHeaderBytes ≤ classSizes ci := by
  have hfound := List.find?_some h
  rw [Nat.mod_eq_of_lt (by unfold slabHeaderBytes; omega)] at hfound
  exact of_decide_eq_true hfound

/-- A block from a slab, with a new page if the class has no free slot. -/
theorem Held.slabAlloc (h : Held P s H L) (hsize : size ≤ 2 ^ 32) (hclass : classFor size = some ci)
    (hpage : s.freeLists ci = 0 → s.pageBump ≠ 0 ∧ s.pageBump + vmPageSize ≤ 2 ^ 64 ∧
      Clear s.pageBump (s.pageBump + vmPageSize) (H ++ L.paged) ∧
      ∀ k < vmPageSize / classSizes ci, P (.slot (s.pageBump + k * classSizes ci) ci)) :
    ∃ a s' L', slabAlloc size s = (a + slabHeaderBytes, s') ∧ P (.slot a ci) ∧
      L'.blocks = L.blocks ∧
      Held P { s' with live := (a + slabHeaderBytes, size) :: s'.live } H L' := by
  obtain ⟨s₁, L₁, hs₁, h₁, hne, hblocks⟩ : ∃ s₁ L₁,
      (if s.freeLists ci = 0 then Alloc.refill ci s else (true, s)) = (true, s₁) ∧
        Held P s₁ H L₁ ∧ L₁.free ci ≠ [] ∧ L₁.blocks = L.blocks := by
    by_cases hempty : s.freeLists ci = 0
    · obtain ⟨hnull, hend, hclear, hP⟩ := hpage hempty
      rw [if_pos hempty]
      exact h.refill hnull hend hclear hP
    · rw [if_neg hempty]
      refine ⟨s, L, rfl, h, fun hnil => hempty ?_, rfl⟩
      rw [h.lists ci, hnil]
      rfl
  obtain ⟨a, as, hfree⟩ := List.exists_cons_of_ne_nil hne
  have hptr : s₁.freeLists ci = a + slabHeaderBytes := by
    rw [h₁.lists ci, hfree]
    rfl
  refine ⟨a,
    { s₁ with freeLists := Function.update s₁.freeLists ci (le64 s₁.mem (a + slabHeaderBytes)) },
    _, ?_, h₁.area _ (mem_paged_head hfree), ?_, h₁.pop hfree (classFor_some hsize hclass)⟩
  · unfold Alloc.slabAlloc
    rw [hclass]
    simp only [hs₁, if_true, hptr]
  · exact hblocks

theorem slabFree_slot (hok : (Cell.used a ci req).Ok s.mem) (ha : a + slabHeaderBytes < 2 ^ 64) :
    slabFree (a + slabHeaderBytes) s = some { s with
      mem := storeLe 8 s.mem (a + slabHeaderBytes) (s.freeLists ci)
      freeLists := Function.update s.freeLists ci (a + slabHeaderBytes) } := by
  obtain ⟨hmagic, hclass, -⟩ := hok
  have hne : a + slabHeaderBytes ≠ 0 := by simp [slabHeaderBytes]
  have hh : (a + slabHeaderBytes + 2 ^ 64 - slabHeaderBytes) % 2 ^ 64 = a := by omega
  have hci : le32 s.mem (a + 4) < slabClasses := hclass ▸ ci.isLt
  have hfin : (⟨le32 s.mem (a + 4), hci⟩ : Fin slabClasses) = ci := Fin.ext hclass
  unfold slabFree
  rw [if_neg hne]
  simp only [hh]
  rw [if_neg (not_not.2 hmagic), dif_pos hci, hfin]

/-- A used slot goes back to its class. -/
theorem Held.push {live : List (ℕ × ℕ)} (h : Held P s H L) (hmem : .used a ci req ∈ L.others)
    (hlive : s.live.Perm ((a + slabHeaderBytes, req) :: live)) :
    ∃ s' L', slabFree (a + slabHeaderBytes) s = some s' ∧ Held P { s' with live := live } H L' ∧
      L'.blocks = L.blocks ∧ s'.heapStart = s.heapStart ∧ s'.heapEnd = s.heapEnd := by
  have hcell : .used a ci req ∈ H ++ L.paged :=
    List.mem_append_right _ (List.mem_append_right _ hmem)
  have hok := h.hold.ok _ hcell
  have hend : a + classSizes ci ≤ 2 ^ 64 := h.bound _ hcell
  have hlow := (classSizes_spec ci).1
  obtain ⟨l, r, hlr⟩ := List.append_of_mem hmem
  have hused : L.paged.Perm (.used a ci req :: Layout.paged { L with others := l ++ r }) := by
    simp only [Layout.paged, hlr]
    refine (List.perm_middle.append_left _).trans List.perm_middle
  refine ⟨_, { L with free := Function.update L.free ci (a :: L.free ci), others := l ++ r },
    slabFree_slot hok (by unfold slabHeaderBytes; omega), ?_, rfl, rfl, rfl⟩
  refine h.swap hused (paged_cons L ci a (l ++ r)) rfl ?_ ?_ ⟨rfl, rfl⟩
    (fun hcells => (hlive.symm.trans hcells).cons_inv) (h.lists_update rfl)
  · intro x hx
    refine storeLe_of_not_inside ?_ ?_ hx <;> simp only [Cell.addr, Cell.len, slabHeaderBytes]
      <;> omega
  · refine ⟨?_, ?_, ?_⟩
    · rw [le32_congr fun x hge hlt => storeLe_outside (by unfold slabHeaderBytes; omega)]
      exact hok.1
    · rw [le32_congr fun x hge hlt => storeLe_outside (by unfold slabHeaderBytes; omega)]
      exact hok.2.1
    · exact (le64_storeLe (h.freeLists_lt ci)).trans (h.lists ci)

end Slabs

end Alloc

end PeanutKernel
