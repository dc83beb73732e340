import PeanutKernel.Proofs.AllocClients

/-!
# Runs of the slabs

`slab_alloc` and `slab_free` by themselves, on whatever pages `vm_alloc_page` returns. The free list
of a class runs through free slots of the class only, and clients have slots that no list has.
-/

namespace PeanutKernel

namespace Alloc

open Regions

section Kept

variable {t : Clients} {L : Layout} {c : Cell} {r : ℕ × ℕ} {fuel kernelEnd : ℕ}

/-- The slabs by themselves are laid out, and their clients hold slots. -/
structure SlabKept (t : Clients) (L : Layout) : Prop where
  held : Held (InCut t.cut) t.toAllocators [] L
  tracked : Tracked t
  noHeap : t.heapStart = 0 ∧ t.heapEnd = 0

theorem SlabKept.slot (h : SlabKept t L) (hc : c ∈ [] ++ L.paged) (hcell : c.live = some r) :
    ∃ a ci q, c = .used a ci q ∧ .used a ci q ∈ L.others ∧ r = (a + slabHeaderBytes, q) ∧
      InCut t.cut (.slot a ci) ∧ t.origin r.1 = some ci ∧
      t.payload r.1 = (r.1, classSizes ci - slabHeaderBytes) := by
  rcases Cell.live_cases hcell with ⟨a, n, req, next, rfl, rfl⟩ | ⟨a, ci, req, rfl, rfl⟩
  · exact absurd (h.held.area _ hc) id
  · have hP : InCut t.cut (.slot a ci) := h.held.area _ hc
    have hr : (a + slabHeaderBytes, req) ∈ t.live :=
      h.held.live.mem_iff.2 (List.mem_filterMap.2 ⟨_, hc, rfl⟩)
    exact ⟨a, ci, req, rfl, mem_others_of_used hc, rfl, hP, h.tracked.origin_slot hP hr,
      payload_slot h.tracked hP hr⟩

theorem SlabKept.body (h : SlabKept t L) (hc : c ∈ [] ++ L.paged) (hcell : c.live = some r) :
    c.Body (t.payload r.1) := by
  obtain ⟨a, ci, q, rfl, -, rfl, -, -, hpayload⟩ := h.slot hc hcell
  have hlow := (classSizes_spec ci).1
  rw [hpayload]
  exact Cell.body_used ⟨rfl, by unfold slabHeaderBytes; omega⟩

theorem SlabKept.call {e : Call} (h : SlabKept t L) (hproper : SlabProper t e) :
    ∃ t' L', call kernelEnd fuel t e = some t' ∧ SlabKept t' L' := by
  obtain ⟨hstart, hend⟩ := h.noHeap
  cases e with
  | slabAlloc size page =>
    obtain ⟨hsize, hpage⟩ := hproper
    cases hclass : classFor size with
    | none =>
      have := classFor_none hclass
      omega
    | some ci =>
      by_cases hnull : TakesPage t.toAllocators (.kalloc size) ∧ page = 0
      · obtain ⟨htakes, rfl⟩ := hnull
        have hclear := h.tracked.clear h.held (hpage htakes)
        rw [Nat.zero_add] at hclear
        obtain ⟨halloc, hheld⟩ := slabAlloc_null h.held htakes hclear
        have hcut : t.refilled size 0 = [] := by simp [Clients.refilled, hclass]
        refine ⟨t.given (vmAllocPage (t.withPage 0)).2 0 size (classFor size) t.cut, L, ?_, hheld,
          h.tracked.of_same rfl rfl rfl rfl fun r hr => hr, h.noHeap⟩
        simp only [Alloc.call, halloc, hcut, List.nil_append]
      · have hready : TakesPage t.toAllocators (.kalloc size) → NewPage t page ∧ page ≠ 0 ∧
            Clear page (page + vmPageSize) [] ∧
            (page + vmPageSize ≤ t.heapStart ∨ heapTop t.toAllocators ≤ page) := by
          intro htakes
          have hne : page ≠ 0 := fun hzero => hnull ⟨htakes, hzero⟩
          have haligned := (hpage htakes).1
          refine ⟨hpage htakes, hne, by simp [Clear], .inr ?_⟩
          simp only [heapTop, hstart, hend, blockHeaderBytes]
          unfold vmPageSize at haligned
          omega
        obtain ⟨ptr, s, L', halloc, hptr, -, hs, hs', hheld, htracked⟩ :=
          h.tracked.slabAlloc h.held (by omega) hclass hready
        refine ⟨_, L', by simp only [Alloc.call, halloc, hclass], hheld, htracked, ?_⟩
        rw [given_toAllocators hptr]
        exact ⟨hs.trans hstart, hs'.trans hend⟩
  | slabFree ptr =>
    obtain ⟨r, rfl, hperm⟩ := live_perm_eraseP hproper
    obtain ⟨c, hc, hcell⟩ :=
      List.mem_filterMap.1 (h.held.live.mem_iff.1 (hperm.mem_iff.2 (List.mem_cons_self ..)))
    obtain ⟨a, ci, q, -, hothers, rfl, -⟩ := h.slot hc hcell
    obtain ⟨s, L', hfree, hheld, -, hs, hs'⟩ := h.held.push hothers hperm
    refine ⟨t.freed s (a + slabHeaderBytes), L', ?_, hheld, ?_, hs.trans hstart, hs'.trans hend⟩
    · simp only [Alloc.call, hfree, Option.getD_some]
    · exact h.tracked.of_same rfl rfl hs hs' fun r hr => List.mem_of_mem_eraseP hr
  | store x b =>
    obtain ⟨r, hr, hx⟩ := hproper
    obtain ⟨c, hc, hcell⟩ := List.mem_filterMap.1 (h.held.live.mem_iff.1 hr)
    refine ⟨_, L, rfl, ?_, h.tracked.of_same rfl rfl rfl rfl fun r hr => hr, h.noHeap⟩
    exact h.held.store hc (.inl (Option.isSome_iff_exists.2 ⟨r, hcell⟩)) (h.body hc hcell) hx
  | kalloc _ _ | kfree _ | kfreeLarge _ => exact hproper.elim

theorem slabKept_boot (mem : Buf) : SlabKept (slabBoot mem) ⟨[], fun _ => [], []⟩ := by
  have hpaged : Layout.paged ⟨[], fun _ => [], []⟩ = [] := by
    simp [Layout.paged, freeCells, nodeCells]
  refine ⟨⟨?_, ?_, fun _ => rfl, ?_, ?_, ?_, ?_⟩, ⟨?_, ?_, List.nodup_nil, ?_⟩, rfl, rfl⟩
  · rw [hpaged]
    exact ⟨by simp, List.Pairwise.nil⟩
  all_goals simp [hpaged, slabBoot]

end Kept

section Sound

variable {t : Clients} {L : Layout} {ci : Fin slabClasses} {a : ℕ} {as : List ℕ} {m : Buf}

/-- The free list of a class is linked through the first words of its slots. -/
theorem linked_nodes :
    ∀ {as : List ℕ}, (∀ c ∈ nodeCells ci as, c.Ok m) →
      Links.Linked 0 (le64 m) (ptrOf as) (as.map (· + slabHeaderBytes))
  | [], _ => rfl
  | a :: as, h => by
    obtain ⟨-, -, hnext⟩ := h _ (List.mem_cons_self ..)
    refine ⟨rfl, by simp [slabHeaderBytes], ?_⟩
    have hrest : Links.Linked 0 (le64 m) (ptrOf as) (as.map (· + slabHeaderBytes)) :=
      linked_nodes fun c hc => h c (List.mem_cons_of_mem _ hc)
    rwa [← hnext] at hrest

theorem mem_nodeCells_of_mem :
    ∀ {as : List ℕ}, a ∈ as → ∃ next, .free a ci next ∈ nodeCells ci as
  | b :: as, ha => by
    rcases List.mem_cons.1 ha with rfl | ha
    · exact ⟨ptrOf as, List.mem_cons_self ..⟩
    · obtain ⟨next, hmem⟩ := mem_nodeCells_of_mem ha
      exact ⟨next, List.mem_cons_of_mem _ hmem⟩

theorem isSlot_of_inCut (hP : InCut t.cut (.slot a ci)) (hmagic : le32 t.mem a = slabMagic)
    (hclass : le32 t.mem (a + 4) = ci.val) : IsSlot t ci (a + slabHeaderBytes) := by
  obtain ⟨page, hpage, k, hk, rfl⟩ := hP
  refine ⟨⟨page, hpage, k, hk, rfl⟩, hmagic, ?_⟩
  rw [← hclass]
  rfl

theorem SlabKept.sound (h : SlabKept t L) : SlabSound t := by
  refine ⟨fun ci => ?_, fun r hr => ?_, h.held.pairwise_live _ fun c hc r hcell => h.body hc hcell⟩
  · have hfree : ∀ c ∈ nodeCells ci (L.free ci), c ∈ L.paged := fun c hc =>
      List.mem_append_left _ (mem_freeCells.2 ⟨ci, hc⟩)
    have hlinked := linked_nodes fun c hc => h.held.hold.ok c (hfree c hc)
    rw [← h.held.lists ci] at hlinked
    refine ⟨_, hlinked, hlinked.nodup, fun p hp => ?_⟩
    obtain ⟨a, ha, rfl⟩ := List.mem_map.1 hp
    obtain ⟨next, hnode⟩ := mem_nodeCells_of_mem ha
    have hcell := hfree _ hnode
    obtain ⟨hmagic, hclass, -⟩ := h.held.hold.ok _ hcell
    refine ⟨isSlot_of_inCut (h.held.area _ hcell) hmagic hclass, fun hlive => ?_⟩
    -- The slot would be both a free region and one in use, which lie apart.
    obtain ⟨r, hr, heq⟩ := List.mem_map.1 hlive
    obtain ⟨c, hc, hc'⟩ := List.mem_filterMap.1 (h.held.live.mem_iff.1 hr)
    obtain ⟨a', cj, q, rfl, -, rfl, -⟩ := h.slot hc hc'
    obtain rfl := Nat.add_right_cancel heq
    have hapart := h.held.hold.apart_of_ne hcell hc (by simp)
    have hlow := (classSizes_spec ci).1
    have hlow' := (classSizes_spec cj).1
    simp only [Kind.Apart, kind, Cell.addr, Cell.len] at hapart
    omega
  · obtain ⟨c, hc, hcell⟩ := List.mem_filterMap.1 (h.held.live.mem_iff.1 hr)
    obtain ⟨a, ci, q, rfl, -, rfl, hP, horigin, hpayload⟩ := h.slot hc hcell
    obtain ⟨hmagic, hclass, hlong⟩ := h.held.hold.ok _ hc
    refine ⟨ci, horigin, isSlot_of_inCut hP hmagic hclass, ?_⟩
    rw [hpayload]
    exact Nat.le_sub_of_add_le hlong

/-- Whatever distinct pages there are for slabs, after any calls of `slab_alloc` and `slab_free`
with stores of the clients between them the free lists and what is live are sound. -/
theorem slab_runs_sound (kernelEnd fuel : ℕ) (mem : Buf) (calls : List Call)
    (hrun : Runs.Meets (call kernelEnd fuel) SlabProper (slabBoot mem) calls) :
    ∃ t, calls.foldlM (call kernelEnd fuel) (slabBoot mem) = some t ∧ SlabSound t := by
  have hstep : ∀ n t e, n < calls.length → (∃ L, SlabKept t L) → SlabProper t e →
      ∃ t', call kernelEnd fuel t e = some t' ∧ ∃ L, SlabKept t' L := by
    rintro n t e - ⟨L, h⟩ hproper
    obtain ⟨t', L', hcall, h'⟩ := h.call hproper
    exact ⟨t', hcall, L', h'⟩
  obtain ⟨t, ht, L, h⟩ := Runs.run_of_meets (I := fun _ t => ∃ L, SlabKept t L) hstep calls
    (n := 0) (by omega) ⟨_, slabKept_boot mem⟩ hrun
  exact ⟨t, ht, h.sound⟩

theorem slab_runs_sound_sample :
    ∃ t, [.slabAlloc 1000 0x5000, .slabAlloc 20 0x3000, .store 0x5C08 1, .slabFree 0x5C08,
        .slabAlloc 900 0, .slabAlloc 60 0].foldlM (call 0 0) (slabBoot fun _ => 0) = some t ∧
      SlabSound t :=
  slab_runs_sound 0 0 _ _ (by decide +kernel)

end Sound

end Alloc

end PeanutKernel
