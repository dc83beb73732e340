import PeanutKernel.Proofs.AllocClients

/-!
# Runs with a large heap

`kalloc` with `kfree`, or with `kfree_large` where no request is small. The large heap is a chain of
blocks each of which starts where the one before ends. What comes before a block of it is a `next`,
which is never the magic word of a slab, so `kfree` tells the two kinds of blocks apart.
-/

namespace PeanutKernel

namespace Alloc

open Regions

section Kept

variable {t : Clients} {s : Allocators} {L : Layout} {c : Cell} {r : ℕ × ℕ}
  {ptr size page x fuel kernelEnd : ℕ} {b : UInt8} {mem : Buf}

/-- The large heap and the slabs are laid out, and clients hold blocks and slots of them. -/
structure Kept (t : Clients) (L : Layout) : Prop where
  placed : Placed (InCut t.cut) t.toAllocators L
  tracked : Tracked t

theorem inCut_heap (cut : List (ℕ × Fin slabClasses)) (a n : ℕ) : ¬ InCut cut (.heap a n) := id

section

variable (h : Kept t L) (hc : c ∈ heapCells t.heapStart L.blocks ++ L.paged)
  (hcell : c.live = some r)

include h hc hcell

/-- What a client holds is a block of the large heap or a slot. -/
theorem Kept.cases :
    (∃ a n q next, c = .block a n (some q) next ∧ r = (a + blockHeaderBytes, q) ∧
      t.origin r.1 = none ∧ t.payload r.1 = (r.1, n)) ∨
    ∃ a ci q, c = .used a ci q ∧ r = (a + slabHeaderBytes, q) ∧ t.origin r.1 = some ci ∧
      t.payload r.1 = (r.1, classSizes ci - slabHeaderBytes) := by
  have hr : r ∈ t.live := h.placed.held.live.mem_iff.2 (List.mem_filterMap.2 ⟨c, hc, hcell⟩)
  rcases Cell.live_cases hcell with ⟨a, n, q, next, rfl, rfl⟩ | ⟨a, ci, q, rfl, rfl⟩
  · obtain ⟨xs, ys, hbs, ha⟩ := h.placed.block_of_mem hc
    have hbounds := h.placed.block_bounds hbs
    have horigin : t.origin (a + blockHeaderBytes) = none :=
      h.tracked.origin_block (by omega) (by omega) hr
    refine .inl ⟨a, n, q, next, rfl, rfl, horigin, ?_⟩
    simp only [Clients.payload, horigin, Nat.add_sub_cancel]
    rw [(h.placed.held.hold.ok _ hc).1]
  · have hothers := Placed.used_of_mem hc
    have hP : InCut t.cut (.slot a ci) := h.placed.held.area _ (List.mem_append_right _ hothers)
    exact .inr ⟨a, ci, q, rfl, rfl, h.tracked.origin_slot hP hr, payload_slot h.tracked hP hr⟩

theorem Kept.body : c.Body (t.payload r.1) := by
  rcases h.cases hc hcell with ⟨a, n, q, next, rfl, rfl, -, hpayload⟩ |
    ⟨a, ci, q, rfl, rfl, -, hpayload⟩
  · rw [hpayload]
    exact Cell.body_block ⟨rfl, le_rfl⟩
  · have hlow := (classSizes_spec ci).1
    rw [hpayload]
    exact Cell.body_used ⟨rfl, by unfold slabHeaderBytes; omega⟩

theorem Kept.inside : kind.Inside c r.1 := by
  rcases Cell.live_cases hcell with ⟨a, n, q, next, rfl, rfl⟩ | ⟨a, ci, q, rfl, rfl⟩
  · obtain ⟨xs, ys, hbs, -⟩ := h.placed.block_of_mem hc
    have hpos := (h.placed.block_bounds hbs).1
    refine ⟨?_, ?_⟩ <;> simp only [kind, Cell.addr, Cell.len] <;> omega
  · have hlow := (classSizes_spec ci).1
    refine ⟨?_, ?_⟩ <;> simp only [kind, Cell.addr, Cell.len, slabHeaderBytes] <;> omega

end

theorem Kept.store (h : Kept t L) (hstore : ∃ r ∈ t.live, InRange (t.payload r.1) x) :
    Kept { t with mem := Function.update t.mem x b } L := by
  obtain ⟨r, hr, hx⟩ := hstore
  obtain ⟨c, hc, hcell⟩ := List.mem_filterMap.1 (h.placed.held.live.mem_iff.1 hr)
  have hheld := h.placed.held.store (b := b) hc (.inl (Option.isSome_iff_exists.2 ⟨r, hcell⟩))
    (h.body hc hcell) hx
  exact ⟨h.placed.of_held hheld h.placed.paged rfl rfl rfl,
    h.tracked.of_same rfl rfl rfl rfl fun r hr => hr⟩

/-- A large block, from a state that has all that the clients have. -/
theorem Kept.kallocLarge (h : Kept t L) (hs : Placed (InCut t.cut) s L) (hlive : s.live = t.live)
    (hstart : s.heapStart = t.heapStart) (hend : s.heapEnd = t.heapEnd)
    (hsize : 0 < size ∧ size ≤ 2 ^ 32) (hfuel : L.blocks.length ≤ fuel)
    (hroom : Grows fuel size s → t.heapEnd + blockHeaderBytes + roundUp size ≤ 2 ^ 64 ∧
      ∀ p ∈ t.cut, p.1 + vmPageSize ≤ t.heapEnd ∨
        t.heapEnd + blockHeaderBytes + roundUp size ≤ p.1) :
    ∃ a s' L', kallocLarge fuel size s = some (a + blockHeaderBytes, s') ∧
      Kept (t.given s' (a + blockHeaderBytes) size none t.cut) L' ∧ s'.live = t.live ∧
      (L'.blocks.length ≤ L.blocks.length + 1 ∧ L'.blocks ≠ []) ∧
      Taken fuel size s L a s'.heapEnd := by
  obtain ⟨a, s', L', halloc, h', hblocks, htaken, hstart', -, hlive'⟩ :=
    hs.kallocLarge hsize hfuel fun current hwalk => by
      obtain ⟨hfit, hpages⟩ := hroom ⟨(current, false), hwalk, rfl⟩
      rw [hend]
      exact ⟨hfit, hs.held.clear hpages⟩
  obtain ⟨hge, hlt, hgrown⟩ := hs.taken_bounds hsize htaken
  have hptr : a + blockHeaderBytes ≠ 0 := by simp [blockHeaderBytes]
  refine ⟨a, s', L', halloc, ⟨?_, ?_⟩, hlive'.trans hlive, hblocks, htaken⟩
  · rw [given_toAllocators hptr]
    exact h'
  · refine h.tracked.given (hlive'.trans hlive) (hstart'.trans hstart) (hend ▸ hgrown)
      (fun p hp => hp) h.tracked.aligned ?_ h.tracked.nodup hptr ⟨?_, hlt⟩
    · intro p hp
      obtain ⟨hne, hapart⟩ := h.tracked.pages p hp
      refine ⟨hne, ?_⟩
      rw [hstart', hstart]
      refine hapart.imp_right fun hle => ?_
      simp only [heapTop, hstart', hstart] at hle ⊢
      rcases htaken with ⟨xs, n, ys, -, -, hsame⟩ | ⟨⟨current, hwalk⟩, -, hnew⟩
      · rw [hsame, hend]
        exact hle
      · have hpage := (hroom ⟨(current, false), hwalk, rfl⟩).2 p hp
        have hpos : 0 < vmPageSize := by decide
        omega
    · omega

theorem kalloc_eq (kernelEnd fuel size : ℕ) (s : Allocators) :
    kalloc kernelEnd fuel size s =
      if (slabTry kernelEnd size s).1 ≠ 0 then some (slabTry kernelEnd size s)
      else kallocLarge fuel size (slabTry kernelEnd size s).2 :=
  rfl

section

variable (h : Kept t L) (hfuel : L.blocks.length ≤ fuel)
  (hproper : KfreeProper kernelEnd fuel t (.kalloc size page))
include h hfuel hproper

/-- The slabs have nothing for `kalloc`, and it turns to the large heap. -/
theorem Kept.kalloc_large (hs : Placed (InCut t.cut) s L) (hlive : s.live = t.live)
    (hstart : s.heapStart = t.heapStart) (hend : s.heapEnd = t.heapEnd)
    (htry : slabTry kernelEnd size (t.withPage page) = (0, s)) (hsize : 0 < size ∧ size ≤ 2 ^ 32) :
    ∃ t' L', call kernelEnd fuel t (.kalloc size page) = some t' ∧ Kept t' L' ∧
      L'.blocks.length ≤ L.blocks.length + 1 := by
  have hroom := hproper.2.2
  rw [htry] at hroom
  obtain ⟨a, s', L', halloc, h', -, ⟨hblocks, -⟩, -⟩ :=
    h.kallocLarge hs hlive hstart hend hsize hfuel (hroom rfl)
  refine ⟨_, L', ?_, h', hblocks⟩
  simp only [call, kalloc_eq, htry, ne_eq, not_true_eq_false, if_false, halloc, Option.map_some]

theorem Kept.kalloc :
    ∃ t' L', call kernelEnd fuel t (.kalloc size page) = some t' ∧ Kept t' L' ∧
      L'.blocks.length ≤ L.blocks.length + 1 := by
  have hsize := hproper.1
  have hpage := hproper.2.1
  have hpos := h.placed.start.1
  have hinit : kallocInit kernelEnd (t.withPage page) = t.withPage page :=
    if_pos (Nat.pos_iff_ne_zero.1 hpos)
  cases hclass : classFor size with
  | none =>
    have htry : slabTry kernelEnd size (t.withPage page) = (0, t.withPage page) := by
      simp only [slabTry, hinit, slabAlloc, hclass, ite_self]
    have hlarge := classFor_none hclass
    have hs := h.placed.of_held (h.placed.held.withPage page) h.placed.paged rfl rfl rfl
    exact h.kalloc_large hfuel hproper hs rfl rfl rfl htry ⟨by omega, hsize⟩
  | some ci =>
    have hsmall : size ≤ 1024 := by
      have := classFor_some hsize hclass
      have := (classSizes_spec ci).2.1
      omega
    have htry : slabTry kernelEnd size (t.withPage page) = slabAlloc size (t.withPage page) := by
      simp only [slabTry, hinit, if_pos hsmall]
    have hclear : TakesPage t.toAllocators (.kalloc size) →
        Clear page (page + vmPageSize) (heapCells t.heapStart L.blocks) := by
      intro htakes c hc
      have := h.placed.within c hc
      have := (hpage htakes).2.2
      omega
    by_cases hnull : TakesPage t.toAllocators (.kalloc size) ∧ page = 0
    · obtain ⟨htakes, rfl⟩ := hnull
      obtain ⟨hnew, hpositive, -⟩ := hpage htakes
      obtain ⟨halloc, hheld⟩ := slabAlloc_null h.placed.held htakes fun c hc => by
        rw [← Nat.zero_add vmPageSize]
        rcases List.mem_append.1 hc with hc | hc
        · exact hclear htakes c hc
        · exact h.tracked.clear h.placed.held hnew c hc
      have hs := h.placed.of_held hheld h.placed.paged rfl rfl rfl
      exact h.kalloc_large hfuel hproper hs rfl rfl rfl (htry.trans halloc) ⟨hpositive rfl, hsize⟩
    · obtain ⟨ptr, s, L', halloc, hptr, hblocks, hstart, hend, hheld, htracked⟩ :=
        h.tracked.slabAlloc h.placed.held hsize hclass fun htakes =>
          ⟨(hpage htakes).1, fun hzero => hnull ⟨htakes, hzero⟩, hclear htakes,
            (hpage htakes).2.2⟩
      refine ⟨_, L', ?_, ⟨?_, htracked⟩, by rw [hblocks]; exact Nat.le_succ _⟩
      · simp only [call, kalloc_eq, htry, halloc, if_pos hptr, Option.map_some, hclass]
      · rw [given_toAllocators hptr] at hheld ⊢
        exact h.placed.of_held hheld (inCut_heap _) hblocks hstart hend

end

theorem Kept.kfree (h : Kept t L) (hptr : ptr ∈ t.live.map Prod.fst) :
    ∃ L', Kept (t.freed (kfree ptr t.toAllocators) ptr) L' ∧
      L'.blocks.length = L.blocks.length := by
  obtain ⟨r, rfl, hperm⟩ := live_perm_eraseP hptr
  obtain ⟨c, hc, hcell⟩ :=
    List.mem_filterMap.1 (h.placed.held.live.mem_iff.1 (hperm.mem_iff.2 (List.mem_cons_self ..)))
  obtain ⟨L', h', hblocks⟩ := h.placed.freed hc hcell hperm
  obtain ⟨-, hstart, hend⟩ := kfree_frame r.1 t.toAllocators
  exact ⟨L', ⟨h', h.tracked.of_same rfl rfl hstart hend fun r hr => List.mem_of_mem_eraseP hr⟩,
    hblocks⟩

theorem kept_boot (hpos : 0 < kernelEnd) (hend : kernelEnd + 32 ≤ 2 ^ 64) :
    Kept (heapBoot kernelEnd mem) ⟨[], fun _ => [], []⟩ := by
  refine ⟨placed_boot (inCut_heap _) hpos hend, by simp [heapBoot], by simp [heapBoot],
    List.nodup_nil, fun r hr => ?_⟩
  exact absurd hr (by simp [heapBoot, boot, kallocInit])

/-- A pointer goes back to where it came from. -/
theorem Kept.goesBack (h : Kept t L) (hr : r ∈ t.live) : GoesBack t r.1 := by
  obtain ⟨c, hc, hcell⟩ := List.mem_filterMap.1 (h.placed.held.live.mem_iff.1 hr)
  have hok := h.placed.held.hold.ok c hc
  have hend := h.placed.held.bound c hc
  rcases h.cases hc hcell with ⟨a, n, q, next, rfl, rfl, horigin, -⟩ |
    ⟨a, ci, q, rfl, rfl, horigin, -⟩
  · simp only [Cell.addr, Cell.len] at hend
    have hfree := slabFree_block hok (by omega)
    simp only [GoesBack, horigin]
    exact ⟨hfree, kfree_none hfree⟩
  · have hlow := (classSizes_spec ci).1
    simp only [Cell.addr, Cell.len] at hend
    have hfree := slabFree_slot hok (by unfold slabHeaderBytes; omega)
    simp only [GoesBack, horigin]
    exact ⟨hfree, kfree_some (by simp [slabHeaderBytes]) hfree⟩

end Kept

section Kfree

/-- After any calls of `kalloc` and `kfree`, as long as pages of slabs and blocks of the large heap
do not overlap and clients store to what they hold only, `kfree` gives each live pointer back to the
allocator it came from. -/
theorem kfree_goes_back (kernelEnd : ℕ) (hpos : 0 < kernelEnd) (hend : kernelEnd + 32 ≤ 2 ^ 64)
    (mem : Buf) (fuel : ℕ) (calls : List Call) (hfuel : calls.length ≤ fuel)
    (hrun : Runs.Meets (call kernelEnd fuel) (KfreeProper kernelEnd fuel) (heapBoot kernelEnd mem)
      calls) :
    ∃ t, calls.foldlM (call kernelEnd fuel) (heapBoot kernelEnd mem) = some t ∧
      ∀ r ∈ t.live, GoesBack t r.1 := by
  have hstep : ∀ n t e, n < fuel → (∃ L, Kept t L ∧ L.blocks.length ≤ n) →
      KfreeProper kernelEnd fuel t e →
      ∃ t', call kernelEnd fuel t e = some t' ∧ ∃ L, Kept t' L ∧ L.blocks.length ≤ n + 1 := by
    rintro n t e hn ⟨L, h, hlen⟩ hproper
    cases e with
    | kalloc size page =>
      obtain ⟨t', L', hcall, h', hblocks⟩ := h.kalloc (hlen.trans hn.le) hproper
      exact ⟨t', hcall, L', h', by omega⟩
    | kfree ptr =>
      obtain ⟨L', h', hblocks⟩ := h.kfree hproper
      exact ⟨_, rfl, L', h', by omega⟩
    | store x b => exact ⟨_, rfl, L, h.store hproper, by omega⟩
    | slabAlloc _ _ | slabFree _ | kfreeLarge _ => exact hproper.elim
  obtain ⟨t, ht, L, h, -⟩ := Runs.run_of_meets (I := fun n t => ∃ L, Kept t L ∧ L.blocks.length ≤ n)
    hstep calls (n := 0) (by omega) ⟨_, kept_boot hpos hend, le_rfl⟩ hrun
  exact ⟨t, ht, fun r hr => h.goesBack hr⟩

theorem kfree_goes_back_sample :
    ∃ t, [.kalloc 2000 0, .kalloc 500 0x102000, .kalloc 1020 0, .store 0x102E08 1, .kfree 0x102E08,
        .kfree 0x100028, .kalloc 1500 0].foldlM (call 0x100010 7)
          (heapBoot 0x100010 fun _ => 0) = some t ∧
      ∀ r ∈ t.live, GoesBack t r.1 :=
  kfree_goes_back 0x100010 (by decide) (by decide) _ 7 _ (by decide) (by decide +kernel)

end Kfree

section Chain

variable {t : Clients} {s : Allocators} {L : Layout} {m : Buf} {ptr size page fuel kernelEnd : ℕ}
  {e : Call} {mem : Buf}

/-- Each header leads to the next, which is where the block ends. -/
theorem linked_blocks :
    ∀ {a : ℕ} {bs : List (ℕ × Option ℕ)}, (∀ c ∈ blockCells a bs, c.Ok m) → bs ≠ [] → a ≠ 0 →
      Links.Linked 0 (fun a => le64 m (a + 16)) a ((blockCells a bs).map Cell.addr)
  | a, (n, r) :: bs, hok, _, ha => by
    obtain ⟨-, -, hnext, -, -⟩ := hok _ (List.mem_cons_self ..)
    refine ⟨rfl, ha, ?_⟩
    simp only [Cell.addr]
    rw [hnext]
    by_cases hbs : bs = []
    · subst hbs
      rfl
    · rw [if_neg hbs]
      exact linked_blocks (fun c hc => hok c (List.mem_cons_of_mem _ hc)) hbs
        (by simp [blockHeaderBytes])

theorem increasing_blocks :
    ∀ (a : ℕ) (bs : List (ℕ × Option ℕ)), ((blockCells a bs).map Cell.addr).Pairwise (· < ·)
  | _, [] => List.Pairwise.nil
  | a, (n, r) :: bs => by
    refine List.pairwise_cons.2 ⟨fun b hb => ?_, increasing_blocks _ bs⟩
    obtain ⟨c, hc, rfl⟩ := List.mem_map.1 hb
    have hge := (blockCells_within _ _ c hc).1
    simp only [Cell.addr, blockHeaderBytes] at hge ⊢
    omega

theorem adjacent_blocks :
    ∀ {a : ℕ} {bs : List (ℕ × Option ℕ)}, (∀ c ∈ blockCells a bs, c.Ok m) →
      ((blockCells a bs).map Cell.addr).IsChain fun a b => b = a + blockHeaderBytes + le64 m a
  | _, [], _ => List.IsChain.nil
  | a, [(n, r)], _ => List.IsChain.singleton _
  | a, (n, r) :: b :: bs, hok => by
    refine List.IsChain.cons_cons ?_ (adjacent_blocks fun c hc => hok c (List.mem_cons_of_mem _ hc))
    simp only [Cell.addr]
    rw [(hok _ (List.mem_cons_self ..)).1]

theorem headers_heapCells (start : ℕ) (bs : List (ℕ × Option ℕ)) :
    (heapCells start bs).filterMap Cell.header
      = ((heapCells start bs).map Cell.addr).map fun a => (a, blockHeaderBytes) := by
  rw [List.map_map, ← List.filterMap_eq_map]
  refine List.filterMap_congr fun c hc => ?_
  rcases mem_heapCells hc with rfl | ⟨xs, n, r, ys, -, rfl⟩ <;> rfl

/-- There is a large heap and no slab; the first header is whole until there is a block. -/
structure HeapKept (t : Clients) (L : Layout) : Prop where
  kept : Kept t L
  cut : t.cut = []
  empty : L.blocks = [] → t.live = [] ∧ le64 t.mem (t.heapStart + 16) = 0

section

variable (h : HeapKept t L)

include h

theorem HeapKept.paged : L.paged = [] := by
  refine List.eq_nil_iff_forall_not_mem.2 fun c hc => ?_
  have hplace := h.kept.placed.held.area c hc
  rw [h.cut] at hplace
  cases hp : c.place <;> rw [hp] at hplace
  case slot a ci =>
    obtain ⟨page, hpage, -⟩ := hplace
    simp at hpage
  all_goals exact hplace

/-- All that is live is a block. -/
theorem HeapKept.block {r : ℕ × ℕ} (hr : r ∈ t.live) :
    ∃ a n q next, .block a n (some q) next ∈ heapCells t.heapStart L.blocks ∧
      r = (a + blockHeaderBytes, q) ∧ t.payload r.1 = (r.1, n) := by
  obtain ⟨c, hc, hcell⟩ := List.mem_filterMap.1 (h.kept.placed.held.live.mem_iff.1 hr)
  rcases h.kept.cases hc hcell with ⟨a, n, q, next, rfl, hrest⟩ | ⟨a, ci, q, rfl, -⟩
  · rw [h.paged, List.append_nil] at hc
    exact ⟨a, n, q, next, hc, hrest.1, hrest.2.2⟩
  · have hothers := List.mem_append_right (freeCells L.free) (Placed.used_of_mem hc)
    have hnone : Cell.used a ci q ∈ L.paged := hothers
    simp [h.paged] at hnone

theorem HeapKept.sound : HeapSound t ((heapCells t.heapStart L.blocks).map Cell.addr) := by
  have hheld := h.kept.placed.held
  have hpos := h.kept.placed.start.1
  have hok : ∀ c ∈ heapCells t.heapStart L.blocks, c.Ok t.mem := fun c hc =>
    hheld.hold.ok c (List.mem_append_left _ hc)
  refine ⟨?_, ?_, ?_, fun r hr => ?_, ?_⟩
  · by_cases hbs : L.blocks = []
    · rw [heapCells, if_pos hbs]
      exact ⟨rfl, Nat.pos_iff_ne_zero.1 hpos, (h.empty hbs).2⟩
    · rw [heapCells, if_neg hbs] at hok ⊢
      exact linked_blocks hok hbs (Nat.pos_iff_ne_zero.1 hpos)
  · unfold heapCells
    split_ifs
    · exact List.pairwise_singleton _ _
    · exact increasing_blocks _ _
  · by_cases hbs : L.blocks = []
    · rw [heapCells, if_pos hbs]
      exact List.IsChain.singleton _
    · rw [heapCells, if_neg hbs] at hok ⊢
      exact adjacent_blocks hok
  · obtain ⟨a, n, q, next, hc, rfl, hpayload⟩ := h.block hr
    obtain ⟨hsize, -, -, -, hlong⟩ := hok _ hc
    refine ⟨a, List.mem_map.2 ⟨_, hc, rfl⟩, rfl, ?_, ?_⟩
    · rw [hpayload, hsize]
    · rw [hsize]
      exact hlong q rfl
  · have hpairwise := hheld.pairwise_live (fun r => t.payload r.1) fun c hc r => h.kept.body hc
    have hheaders := hheld.headers
    rw [h.paged, List.append_nil, headers_heapCells] at hheaders
    exact ((hheaders.append_left _).pairwise_iff apart_symm).1 hpairwise

theorem HeapKept.kalloc (kernelEnd : ℕ) (hfuel : L.blocks.length ≤ fuel)
    (hproper : HeapProper fuel t (.kalloc size page)) :
    ∃ a s L', kalloc kernelEnd fuel size (t.withPage page) = some (a + blockHeaderBytes, s) ∧
      call kernelEnd fuel t (.kalloc size page)
        = some (t.given s (a + blockHeaderBytes) size none t.cut) ∧
      HeapKept (t.given s (a + blockHeaderBytes) size none t.cut) L' ∧
      (t.given s (a + blockHeaderBytes) size none t.cut).live
        = (a + blockHeaderBytes, size) :: t.live ∧
      L'.blocks.length ≤ L.blocks.length + 1 ∧ Taken fuel size (t.withPage page) L a s.heapEnd := by
  obtain ⟨⟨hlarge, hsize⟩, hroom⟩ := hproper
  have hplaced := h.kept.placed
  have hinit : kallocInit kernelEnd (t.withPage page) = t.withPage page :=
    if_pos (Nat.pos_iff_ne_zero.1 hplaced.start.1)
  have htry : slabTry kernelEnd size (t.withPage page) = (0, t.withPage page) := by
    simp only [slabTry, hinit, if_neg (Nat.not_le.2 hlarge)]
  obtain ⟨a, s, L', halloc, h', hlive, ⟨hblocks, hne⟩, htaken⟩ :=
    h.kept.kallocLarge (hplaced.of_held (hplaced.held.withPage page) hplaced.paged rfl rfl rfl)
      rfl rfl rfl ⟨by omega, hsize⟩ hfuel fun hgrows => ⟨hroom hgrows, by simp [h.cut]⟩
  have hkalloc : Alloc.kalloc kernelEnd fuel size (t.withPage page)
      = some (a + blockHeaderBytes, s) := by
    rw [kalloc_eq, htry]
    exact halloc
  refine ⟨a, s, L', hkalloc, ?_, ⟨h', h.cut, fun hnil => absurd hnil hne⟩, ?_, hblocks, htaken⟩
  · simp only [call, hkalloc, htry, ne_eq, not_true_eq_false, if_false, Option.map_some]
  · rw [given_toAllocators (by simp [blockHeaderBytes]), hlive]

theorem HeapKept.kfreeLarge (hptr : ptr ∈ t.live.map Prod.fst) :
    ∃ L', HeapKept (t.freed (kfreeLarge ptr t.toAllocators) ptr) L' ∧
      L'.blocks.length = L.blocks.length := by
  obtain ⟨r, rfl, hperm⟩ := live_perm_eraseP hptr
  have hr : r ∈ t.live := hperm.mem_iff.2 (List.mem_cons_self ..)
  obtain ⟨a, n, q, next, hc, heq, -⟩ := h.block hr
  have hptr : a + blockHeaderBytes = r.1 := by rw [heq]
  have hlive : t.live.Perm ((a + blockHeaderBytes, q) :: t.live.eraseP fun r' => r'.1 = r.1) :=
    heq ▸ hperm
  obtain ⟨L', h', hblocks⟩ := h.kept.placed.freeLarge (List.mem_append_left _ hc) hlive
  rw [hptr] at h'
  have hframe : (Alloc.kfreeLarge r.1 t.toAllocators).heapStart = t.heapStart ∧
      (Alloc.kfreeLarge r.1 t.toAllocators).heapEnd = t.heapEnd := by
    unfold Alloc.kfreeLarge
    split_ifs <;> exact ⟨rfl, rfl⟩
  refine ⟨L', ⟨⟨h', ?_⟩, h.cut, fun hnil => ?_⟩, hblocks⟩
  · exact h.kept.tracked.of_same rfl rfl hframe.1 hframe.2 fun r hr => List.mem_of_mem_eraseP hr
  · rw [hnil] at hblocks
    rw [(h.empty (List.length_eq_zero_iff.1 hblocks.symm)).1] at hr
    simp at hr

theorem HeapKept.store {x : ℕ} {b : UInt8} (hstore : ∃ r ∈ t.live, InRange (t.payload r.1) x) :
    HeapKept { t with mem := Function.update t.mem x b } L := by
  refine ⟨h.kept.store hstore, h.cut, fun hnil => ?_⟩
  obtain ⟨r, hr, -⟩ := hstore
  rw [(h.empty hnil).1] at hr
  simp at hr

/-- A call of `kalloc` reuses free blocks only. -/
theorem HeapKept.reusesFree (hfuel : L.blocks.length ≤ fuel) (hproper : HeapProper fuel t e) :
    ReusesFree kernelEnd fuel t ((heapCells t.heapStart L.blocks).map Cell.addr) e := by
  cases e with
  | kalloc size page =>
    intro ptr s hkalloc
    obtain ⟨a, s', L', hkalloc', -, h', hlive, -, htaken⟩ :=
      h.kalloc kernelEnd hfuel hproper
    obtain ⟨rfl, rfl⟩ := Prod.mk.inj (Option.some.inj (hkalloc.symm.trans hkalloc'))
    refine ⟨?_, fun a' ha' hsize heq => ?_⟩
    · have hnodup := h'.kept.placed.held.live_nodup fun c hc r hcell => h'.kept.inside hc hcell
      rw [hlive, List.map_cons] at hnodup
      exact (List.nodup_cons.1 hnodup).1
    · obtain rfl := Nat.add_right_cancel heq
      obtain ⟨c, hc, rfl⟩ := List.mem_map.1 ha'
      have hok := h.kept.placed.held.hold.ok c (List.mem_append_left _ hc)
      rcases htaken with ⟨xs, n, ys, hbs, ha, -⟩ | ⟨-, ha, -⟩
      · have hblock := h.kept.placed.held.hold.ok _
          (List.mem_append_left _ (mem_heapCells_block t.heapStart hbs))
        rw [ha]
        exact hblock.2.1.2 rfl
      · rcases mem_heapCells hc with rfl | ⟨xs, n, r, ys, hbs, rfl⟩
        · exact absurd hok hsize
        · have hbounds := h.kept.placed.block_bounds hbs
          simp only [Cell.addr, Clients.withPage] at ha
          omega
  | _ => trivial

end

/-- After any calls of `kalloc` for more than the slabs have and of `kfree_large`, as long as the
large heap stays within the address space, the headers form a chain of adjacent blocks, clients have
blocks of it, and the next call takes a block that is already there only if it is free. -/
theorem heap_runs_sound (kernelEnd : ℕ) (hpos : 0 < kernelEnd) (hend : kernelEnd + 32 ≤ 2 ^ 64)
    (mem : Buf) (fuel : ℕ) (calls : List Call) (hfuel : calls.length ≤ fuel)
    (hrun : Runs.Meets (call kernelEnd fuel) (HeapProper fuel) (heapBoot kernelEnd mem) calls) :
    ∃ t headers, calls.foldlM (call kernelEnd fuel) (heapBoot kernelEnd mem) = some t ∧
      HeapSound t headers ∧ ∀ e, HeapProper fuel t e → ReusesFree kernelEnd fuel t headers e := by
  have hstep : ∀ n t e, n < fuel → (∃ L, HeapKept t L ∧ L.blocks.length ≤ n) →
      HeapProper fuel t e →
      ∃ t', call kernelEnd fuel t e = some t' ∧ ∃ L, HeapKept t' L ∧ L.blocks.length ≤ n + 1 := by
    rintro n t e hn ⟨L, h, hlen⟩ hproper
    cases e with
    | kalloc size page =>
      obtain ⟨a, s, L', -, hcall, h', -, hblocks, -⟩ :=
        h.kalloc kernelEnd (hlen.trans hn.le) hproper
      exact ⟨_, hcall, L', h', by omega⟩
    | kfreeLarge ptr =>
      obtain ⟨L', h', hblocks⟩ := h.kfreeLarge hproper
      exact ⟨_, rfl, L', h', by omega⟩
    | store x b => exact ⟨_, rfl, L, h.store hproper, by omega⟩
    | slabAlloc _ _ | slabFree _ | kfree _ => exact hproper.elim
  have hboot : HeapKept (heapBoot kernelEnd mem) ⟨[], fun _ => [], []⟩ :=
    ⟨kept_boot hpos hend, rfl, fun _ => ⟨rfl, le64_storeLe (by decide)⟩⟩
  obtain ⟨t, ht, L, h, hlen⟩ :=
    Runs.run_of_meets (I := fun n t => ∃ L, HeapKept t L ∧ L.blocks.length ≤ n) hstep calls (n := 0)
      (by omega) ⟨_, hboot, le_rfl⟩ hrun
  exact ⟨t, _, ht, h.sound, fun e hproper => h.reusesFree (by omega) hproper⟩

theorem heap_runs_sound_sample :
    ∃ t headers, [.kalloc 2000 0, .kalloc 3000 0, .kfreeLarge 0x100028, .kalloc 1500 0].foldlM
        (call 0x100010 4) (heapBoot 0x100010 fun _ => 0) = some t ∧
      HeapSound t headers ∧ ∀ e, HeapProper 4 t e → ReusesFree 0x100010 4 t headers e :=
  heap_runs_sound 0x100010 (by decide) (by decide) _ 4 _ (by decide) (by decide +kernel)

end Chain

end Alloc

end PeanutKernel
