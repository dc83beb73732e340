import PeanutKernel.Proofs.AllocHeap

/-!
# Runs of the allocators

Pages come one after another from the first page behind `_kernel_end` on. With the large heap and
the slabs every event keeps the layout (`Rep`), as long as the large heap and the pages, which start
at the same place, do not run into each other.
-/

namespace PeanutKernel

namespace Alloc

open Regions

section Layout

variable {kernelEnd top : ℕ} {s : Allocators} {L : Layout} {c : Cell}

/-- The allocators have laid out their memory as `L`, in the page area up to `top`. -/
structure Rep (kernelEnd : ℕ) (s : Allocators) (L : Layout) (top : ℕ) : Prop where
  hold : kind.Hold s.mem (L.cells s.heapStart)
  pageArea : ∀ c ∈ freeCells L.free ++ L.others,
    firstPage kernelEnd ≤ c.addr ∧ c.InPages ∧ c.addr + c.len ≤ top
  lists : ∀ ci, s.freeLists ci = ptrOf (L.free ci)
  live : s.live.Perm ((L.cells s.heapStart).filterMap Cell.live)
  pages : s.pages.Perm ((L.cells s.heapStart).filterMap Cell.pageAt)
  headers : s.headers.Perm ((L.cells s.heapStart).filterMap Cell.header)
  sizes : ∀ b ∈ L.blocks, 0 < b.1 ∧ b.1 % 16 = 0
  heapEnd : s.heapEnd = s.heapStart + extent L.blocks
  start : 0 < s.heapStart ∧ s.heapStart % 16 = 0 ∧ heapTop s < 2 ^ 64
  bump : 0 < firstPage kernelEnd ∧ firstPage kernelEnd ≤ top ∧ top ≤ s.pageBump ∧
    s.pageBump < 2 ^ 64
  apart : top = firstPage kernelEnd ∨ heapTop s ≤ firstPage kernelEnd

/-- The places in pages handed out so far. -/
def InArea (kernelEnd top : ℕ) : Place → Prop
  | .heap _ _ => False
  | .slot a ci => firstPage kernelEnd ≤ a ∧ a + classSizes ci ≤ top
  | .page a => firstPage kernelEnd ≤ a ∧ a + vmPageSize ≤ top

theorem inArea_place :
    InArea kernelEnd top c.place ↔
      firstPage kernelEnd ≤ c.addr ∧ c.InPages ∧ c.addr + c.len ≤ top := by
  cases c <;> simp [InArea, Cell.place, Cell.addr, Cell.len, Cell.InPages]

theorem InArea.mono {top' : ℕ} (htop : top ≤ top') :
    ∀ p, InArea kernelEnd top p → InArea kernelEnd top' p
  | .slot _ _, h | .page _, h => ⟨h.1, h.2.trans htop⟩

theorem Rep.placed (h : Rep kernelEnd s L top) : Placed (InArea kernelEnd top) s L := by
  have harea : ∀ c ∈ L.paged, InArea kernelEnd top c.place := fun c hc =>
    inArea_place.2 (h.pageArea c hc)
  refine ⟨⟨h.hold, harea, h.lists, h.live, h.pages, h.headers, ?_⟩, fun a n hP => hP, h.sizes,
    h.heapEnd, h.start.1, h.start.2.1⟩
  intro c hc
  rcases List.mem_append.1 hc with hc | hc
  · unfold heapCells at hc
    split_ifs at hc with hnil
    · rw [List.mem_singleton.1 hc]
      exact (le_max_left _ _).trans h.start.2.2.le
    · refine (blockCells_within _ _ c hc).2.trans ?_
      rw [← h.heapEnd]
      exact (le_max_right _ _).trans h.start.2.2.le
  · have := (h.pageArea c hc).2.2
    have := h.bump
    omega

theorem Placed.rep (h : Placed (InArea kernelEnd top) s L) (htop : heapTop s < 2 ^ 64)
    (hbump : 0 < firstPage kernelEnd ∧ firstPage kernelEnd ≤ top ∧ top ≤ s.pageBump ∧
      s.pageBump < 2 ^ 64)
    (hapart : top = firstPage kernelEnd ∨ heapTop s ≤ firstPage kernelEnd) :
    Rep kernelEnd s L top :=
  ⟨h.held.hold, fun c hc => inArea_place.1 (h.held.area c hc), h.held.lists, h.held.live,
    h.held.pages, h.held.headers, h.sizes, h.heapEnd, ⟨h.start.1, h.start.2, htop⟩, hbump, hapart⟩

theorem heapTop_congr {s' : Allocators} (hstart : s'.heapStart = s.heapStart)
    (hend : s'.heapEnd = s.heapEnd) : heapTop s' = heapTop s := by
  rw [heapTop, heapTop, hstart, hend]

section

variable (h : Rep kernelEnd s L s.pageBump)

include h

/-- What calls that leave the large heap as long as it is keep, when a page they take is not in
it. -/
theorem Rep.of_placed {s' : Allocators} {L' : Layout}
    (h' : Placed (InArea kernelEnd s'.pageBump) s' L') (htop : heapTop s' = heapTop s)
    (hbump : s.pageBump ≤ s'.pageBump ∧ s'.pageBump < 2 ^ 64)
    (hpage : s'.pageBump = s.pageBump ∨ heapTop s ≤ firstPage kernelEnd) :
    Rep kernelEnd s' L' s'.pageBump := by
  have hold := h.bump
  refine h'.rep (htop ▸ h.start.2.2) (by omega) ?_
  rcases hpage with hsame | hheap
  · rw [hsame, htop]
    exact h.apart
  · exact .inr (htop ▸ hheap)

/-- The next page is behind all there is. -/
theorem Rep.clear (hheap : heapTop s ≤ firstPage kernelEnd) :
    Clear s.pageBump (s.pageBump + vmPageSize) (heapCells s.heapStart L.blocks ++ L.paged) := by
  intro c hc
  refine .inl ?_
  rcases List.mem_append.1 hc with hc | hc
  · have := (h.placed.within c hc).2
    have := h.bump.2.1
    omega
  · exact (h.pageArea c hc).2.2

/-- A page for a caller. -/
theorem Rep.page (hheap : heapTop s ≤ firstPage kernelEnd)
    (hroom : s.pageBump + vmPageSize < 2 ^ 64) :
    Rep kernelEnd { (vmAllocPage s).2 with pages := s.pageBump :: s.pages }
      { L with others := .page s.pageBump :: L.others } (s.pageBump + vmPageSize) := by
  have hbump := h.bump
  have hnext : (vmAllocPage s).2.pageBump = s.pageBump + vmPageSize := Nat.mod_eq_of_lt hroom
  have hmono := h.placed.held.mono (InArea.mono (Nat.le_add_right s.pageBump vmPageSize))
  have hheld := hmono.addPage hroom.le (h.clear hheap) ⟨hbump.2.1, le_rfl⟩
  rw [← hnext] at hheld ⊢
  refine h.of_placed (h.placed.of_held hheld (fun a n hP => hP) rfl rfl rfl) rfl ?_ (.inr hheap)
  simp only [hnext]
  omega

/-- A block from a slab, with a new page if the class has no free slot. -/
theorem Rep.slabAlloc {size : ℕ} {ci : Fin slabClasses} (hsize : size ≤ 2 ^ 32)
    (hclass : classFor size = some ci) (hfits : TakesPage s (.kalloc size) →
      heapTop s ≤ firstPage kernelEnd ∧ s.pageBump + vmPageSize < 2 ^ 64) :
    ∃ ptr s' L', slabAlloc size s = (ptr, s') ∧ ptr ≠ 0 ∧ L'.blocks = L.blocks ∧
      Rep kernelEnd { s' with live := (ptr, size) :: s'.live } L' s'.pageBump := by
  have hbump := h.bump
  obtain ⟨hstart, hend, -, hnext⟩ := slabAlloc_frame size s
  have hpage : s.pageBump ≤ (Alloc.slabAlloc size s).2.pageBump ∧
      (Alloc.slabAlloc size s).2.pageBump < 2 ^ 64 ∧
      (TakesPage s (.kalloc size) →
        (Alloc.slabAlloc size s).2.pageBump = s.pageBump + vmPageSize) ∧
      (¬ TakesPage s (.kalloc size) → (Alloc.slabAlloc size s).2.pageBump = s.pageBump) := by
    rw [hnext]
    split_ifs with htakes
    · rw [Nat.mod_eq_of_lt (hfits htakes).2]
      exact ⟨Nat.le_add_right _ _, (hfits htakes).2, fun _ => rfl, fun hno => absurd htakes hno⟩
    · exact ⟨le_rfl, hbump.2.2.2, fun hyes => absurd hyes htakes, fun _ => rfl⟩
  obtain ⟨a, s', L', halloc, -, hblocks, h'⟩ :=
    (h.placed.held.mono (InArea.mono hpage.1)).slabAlloc hsize hclass fun hempty => by
      obtain ⟨hheap, hroom⟩ := hfits ⟨ci, hclass, hempty⟩
      refine ⟨by omega, hroom.le, h.clear hheap, fun k hk => ?_⟩
      have hle := slot_end_le hk
      rw [hpage.2.2.1 ⟨ci, hclass, hempty⟩]
      simp only [InArea]
      omega
  rw [halloc] at hstart hend hpage h'
  refine ⟨_, s', L', halloc, by simp [slabHeaderBytes], hblocks, ?_⟩
  refine h.of_placed (h.placed.of_held h' (fun a n hP => hP) hblocks hstart hend)
    (heapTop_congr hstart hend) ⟨hpage.1, hpage.2.1⟩ ?_
  by_cases htakes : TakesPage s (.kalloc size)
  · exact .inr (hfits htakes).1
  · exact .inl (hpage.2.2.2 htakes)

end

theorem Rep.limit_lt (h : Rep kernelEnd s L top) : heapLimit kernelEnd s < 2 ^ 64 := by
  have := h.bump
  unfold heapLimit
  split_ifs <;> omega

variable (h : Rep kernelEnd s L s.pageBump)

include h

theorem Rep.limit_le (hc : c ∈ L.paged) : heapLimit kernelEnd s ≤ c.addr := by
  obtain ⟨hge, hin, hle⟩ := h.pageArea c hc
  have hpos := hin.len_pos
  unfold heapLimit
  split_ifs with hbump
  · omega
  · exact hge

theorem Rep.heapTop_le : heapTop s ≤ heapLimit kernelEnd s := by
  have hstart := h.start.2.2
  unfold heapLimit
  split_ifs with hbump
  · omega
  · exact h.apart.resolve_left hbump

/-- A large block, taken from the heap or put behind it. -/
theorem Rep.kallocLarge {fuel size : ℕ} (hsize : 0 < size ∧ size ≤ 2 ^ 32)
    (hfuel : L.blocks.length ≤ fuel) (hfits : ∀ current,
      kallocWalk s.mem (roundUp size) fuel s.heapStart = some (current, false) →
      s.heapEnd + blockHeaderBytes + roundUp size ≤ heapLimit kernelEnd s) :
    ∃ ptr s' L', kallocLarge fuel size s = some (ptr, s') ∧ ptr ≠ 0 ∧
      L'.blocks.length ≤ L.blocks.length + 1 ∧
      Rep kernelEnd { s' with live := (ptr, size) :: s'.live } L' s'.pageBump := by
  have hlimit := h.limit_lt
  obtain ⟨a, s', L', halloc, h', ⟨hblocks, -⟩, htaken, hstart, hbump, -⟩ :=
    h.placed.kallocLarge hsize hfuel fun current hwalk =>
      ⟨(hfits current hwalk).trans hlimit.le, fun c hc =>
        .inr ((hfits current hwalk).trans (h.limit_le hc))⟩
  have htop : max (s'.heapStart + blockHeaderBytes) s'.heapEnd ≤ heapLimit kernelEnd s := by
    rw [hstart]
    refine max_le ((le_max_left _ _).trans h.heapTop_le) ?_
    rcases htaken with ⟨xs, n, ys, -, -, hsame⟩ | ⟨⟨current, hwalk⟩, -, hgrown⟩
    · rw [hsame]
      exact (le_max_right _ _).trans h.heapTop_le
    · rw [hgrown]
      exact hfits current hwalk
  refine ⟨_, s', L', halloc, by simp [blockHeaderBytes], hblocks, ?_⟩
  rw [← hbump] at h'
  refine h'.rep (htop.trans_lt hlimit) ?_ ?_
  · simp only [hbump]
    exact h.bump
  · rw [hbump]
    by_cases hfirst : s.pageBump = firstPage kernelEnd
    · exact .inl hfirst
    · rw [heapLimit, if_neg hfirst] at htop
      exact .inr htop

end Layout

section Runs

variable {kernelEnd fuel size ptr x : ℕ} {s : Allocators} {L : Layout} {c : Cell} {r : ℕ × ℕ}
  {b : UInt8} {mem : Buf}

theorem classFor_none (h : classFor size = none) : 1016 < size := by
  have hlast := List.find?_eq_none.1 h ⟨5, by decide⟩ (List.mem_finRange _)
  have hsize : classSizes ⟨5, by decide⟩ = 1024 := rfl
  rw [hsize, decide_eq_true_eq] at hlast
  have hle : (size + slabHeaderBytes) % 2 ^ 64 ≤ size + slabHeaderBytes := Nat.mod_le _ _
  unfold slabHeaderBytes at hlast hle
  omega

theorem Rep.kalloc (h : Rep kernelEnd s L s.pageBump) (hsize : size ≤ 2 ^ 32)
    (hfuel : L.blocks.length ≤ fuel) (hfits : Fits kernelEnd fuel s (.kalloc size)) :
    ∃ s' L', step kernelEnd fuel s (.kalloc size) = some s' ∧ Rep kernelEnd s' L' s'.pageBump ∧
      L'.blocks.length ≤ L.blocks.length + 1 := by
  have hstart := h.start.1
  have hinit : kallocInit kernelEnd s = s := if_pos (by omega)
  cases hclass : classFor size with
  | some ci =>
    have hsmall : size ≤ 1024 := by
      have := classFor_some hsize hclass
      have := (classSizes_spec ci).2.1
      omega
    obtain ⟨ptr, s', L', halloc, hptr, hblocks, h'⟩ :=
      h.slabAlloc hsize hclass hfits.1
    have hkalloc : Alloc.kalloc kernelEnd fuel size s = some (ptr, s') := by
      simp only [Alloc.kalloc, hinit, if_pos hsmall, halloc, if_pos hptr]
    refine ⟨_, L', ?_, h', by rw [hblocks]; omega⟩
    simp only [step, hkalloc, Option.map_some, if_neg hptr]
  | none =>
    have hlarge := classFor_none hclass
    obtain ⟨ptr, s', L', halloc, hptr, hblocks, h'⟩ :=
      h.kallocLarge ⟨by omega, hsize⟩ hfuel fun current hwalk =>
        hfits.2 _ (by simp [newBlock, hclass, hwalk])
    have hslab : Alloc.slabAlloc size s = (0, s) := by simp only [Alloc.slabAlloc, hclass]
    have hkalloc : Alloc.kalloc kernelEnd fuel size s = some (ptr, s') := by
      simp only [Alloc.kalloc, hinit, hslab, ite_self, ne_eq, not_true_eq_false, if_false, halloc]
    refine ⟨_, L', ?_, h', hblocks⟩
    simp only [step, hkalloc, Option.map_some, if_neg hptr]

/-- The blocks left when a live one is freed. -/
theorem live_perm_eraseP {live : List (ℕ × ℕ)} (hptr : ptr ∈ live.map Prod.fst) :
    ∃ r, r.1 = ptr ∧ live.Perm (r :: live.eraseP fun r => r.1 = ptr) := by
  obtain ⟨r₀, hr₀, rfl⟩ := List.mem_map.1 hptr
  obtain ⟨r, l, l', -, hr, hsplit, herase⟩ :=
    List.exists_of_eraseP (p := fun r => decide (r.1 = r₀.1)) hr₀ (by simp)
  refine ⟨r, of_decide_eq_true hr, ?_⟩
  rw [herase, hsplit]
  exact List.perm_middle

theorem Rep.kfree (h : Rep kernelEnd s L s.pageBump) (hptr : ptr ∈ s.live.map Prod.fst) :
    ∃ s' L', step kernelEnd fuel s (.kfree ptr) = some s' ∧ Rep kernelEnd s' L' s'.pageBump ∧
      L'.blocks.length ≤ L.blocks.length := by
  obtain ⟨r, rfl, hperm⟩ := live_perm_eraseP hptr
  obtain ⟨c, hc, hcell⟩ :=
    List.mem_filterMap.1 (h.live.mem_iff.1 (hperm.mem_iff.2 (List.mem_cons_self ..)))
  obtain ⟨L', h', hblocks⟩ := h.placed.freed hc hcell hperm
  obtain ⟨hbump, hstart, hend⟩ := kfree_frame r.1 s
  rw [← hbump] at h'
  refine ⟨_, L', rfl, h.of_placed h' (heapTop_congr hstart hend) ?_ (.inl hbump), hblocks.le⟩
  simp only [hbump]
  exact ⟨le_rfl, h.bump.2.2.2⟩

/-- A store by whoever holds the byte. -/
theorem Rep.store (h : Rep kernelEnd s L s.pageBump) (hstore : Proper s (.store x b)) :
    Rep kernelEnd { s with mem := Function.update s.mem x b } L s.pageBump := by
  have hheld : Held (InArea kernelEnd s.pageBump) { s with mem := Function.update s.mem x b }
      (heapCells s.heapStart L.blocks) L := by
    rcases hstore with ⟨r, hr, hx⟩ | ⟨p, hp, hx⟩
    · obtain ⟨c, hc, hcell⟩ := List.mem_filterMap.1 (h.live.mem_iff.1 hr)
      exact h.placed.held.store hc (.inl (Option.isSome_iff_exists.2 ⟨r, hcell⟩))
        (Cell.body_of_live (h.hold.ok c hc) hcell) hx
    · obtain ⟨c, hc, hcell⟩ := List.mem_filterMap.1 (h.pages.mem_iff.1 hp)
      exact h.placed.held.store hc (.inr (Option.isSome_iff_exists.2 ⟨p, hcell⟩))
        (Cell.body_of_pageAt hcell) hx
  exact (h.placed.of_held hheld h.placed.paged rfl rfl rfl).rep h.start.2.2 h.bump h.apart

theorem rep_boot (hpos : 0 < kernelEnd) (hend : kernelEnd + 4095 < 2 ^ 64) :
    Rep kernelEnd (boot kernelEnd mem) ⟨[], fun _ => [], []⟩ (boot kernelEnd mem).pageBump := by
  have hstart : (kernelEnd + 15) % 2 ^ 64 / 16 * 16 ≤ kernelEnd + 15 := by omega
  have hpage : 0 < firstPage kernelEnd ∧ firstPage kernelEnd < 2 ^ 64 := by
    unfold firstPage alignUp vmPageSize
    omega
  refine (placed_boot (fun _ _ => id) hpos (by omega)).rep ?_ ⟨hpage.1, le_rfl, le_rfl, hpage.2⟩
    (.inl rfl)
  refine max_lt (Nat.lt_of_le_of_lt (Nat.add_le_add_right hstart _) ?_)
    (hstart.trans_lt (by omega))
  unfold blockHeaderBytes
  omega

/-- The allocators have laid out their memory, with at most `n` blocks in the large heap. -/
def Laid (kernelEnd n : ℕ) (s : Allocators) : Prop :=
  ∃ L, Rep kernelEnd s L s.pageBump ∧ L.blocks.length ≤ n

/-- Each event that meets the conditions goes through and keeps a layout. -/
theorem Laid.step {n : ℕ} {e : Event} (h : Laid kernelEnd n s) (hfuel : n ≤ fuel)
    (hproper : Proper s e) (hfits : Fits kernelEnd fuel s e) :
    ∃ s', step kernelEnd fuel s e = some s' ∧ Laid kernelEnd (n + 1) s' := by
  obtain ⟨L, h, hn⟩ := h
  cases e with
  | kalloc size =>
    obtain ⟨s', L', hs', h', hblocks⟩ := h.kalloc hproper (hn.trans hfuel) hfits
    exact ⟨s', hs', L', h', by omega⟩
  | kfree ptr =>
    obtain ⟨s', L', hs', h', hblocks⟩ := h.kfree hproper
    exact ⟨s', hs', L', h', by omega⟩
  | vmAllocPage =>
    obtain ⟨hheap, hroom⟩ := hfits.1 trivial
    have h' := h.page hheap hroom
    rw [← Nat.mod_eq_of_lt hroom] at h'
    exact ⟨_, rfl, _, h', Nat.le_succ_of_le hn⟩
  | store x b => exact ⟨_, rfl, L, h.store hproper, Nat.le_succ_of_le hn⟩

/-- From boot on, as long as the large heap ends before the first page whenever a page is taken and
does not grow into it later, live blocks, pages and headers are disjoint. -/
theorem allocations_disjoint (kernelEnd : ℕ) (hpos : 0 < kernelEnd)
    (hend : kernelEnd + 4095 < 2 ^ 64) (mem : Buf) (fuel : ℕ) (events : List Event)
    (hfuel : events.length ≤ fuel)
    (hrun : Runs.Meets (step kernelEnd fuel)
      (fun s e => Proper s e ∧ Fits kernelEnd fuel s e) (boot kernelEnd mem) events) :
    ∃ s, events.foldlM (step kernelEnd fuel) (boot kernelEnd mem) = some s ∧
      PairwiseDisjoint s := by
  have hboot : Laid kernelEnd 0 (boot kernelEnd mem) := ⟨_, rep_boot hpos hend, le_rfl⟩
  have hstep : ∀ n s e, n < fuel → Laid kernelEnd n s → Proper s e ∧ Fits kernelEnd fuel s e →
      ∃ s', step kernelEnd fuel s e = some s' ∧ Laid kernelEnd (n + 1) s' :=
    fun n s e hn h hC => h.step hn.le hC.1 hC.2
  obtain ⟨s, hs, L, h, -⟩ := Runs.run_of_meets hstep events (by omega) hboot hrun
  exact ⟨s, hs, h.placed.held.pairwiseDisjoint⟩

theorem allocations_disjoint_sample :
    ∃ s, [.kalloc 2000, .kalloc 500, .store 0x101E10 1, .vmAllocPage, .kfree 0x100028,
        .kalloc 1500].foldlM (step 0x100010 6) (boot 0x100010 fun _ => 0) = some s ∧
      PairwiseDisjoint s :=
  allocations_disjoint 0x100010 (by decide) (by decide) _ 6 _ (by decide) (by decide +kernel)

/-- With `_kernel_end` at the start of a page, the page handed out after a block of the large heap
is the one that block is in. -/
theorem page_over_block :
    ∃ s, [.kalloc 2000, .vmAllocPage].foldlM (step 0x100000 2) (boot 0x100000 fun _ => 0) = some s ∧
      s.live = [(0x100018, 2000)] ∧ s.pages = [0x100000] ∧ s.headers = [(0x100000, 24)] ∧
      ¬ PairwiseDisjoint s := by
  refine ⟨_, rfl, rfl, rfl, rfl, fun h => ?_⟩
  have hlive : ∀ r ∈ [(0x100000, vmPageSize), (0x100000, 24)], ∀ a,
      InRange (0x100018, 2000) a → ¬ InRange r a := (List.pairwise_cons.1 h).1
  exact hlive _ (List.mem_cons_self ..) 0x100018 ⟨0, by decide, rfl⟩ ⟨24, by decide, rfl⟩

end Runs

end Alloc

end PeanutKernel
