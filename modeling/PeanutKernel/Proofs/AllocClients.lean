import Mathlib.Data.List.Nodup
import PeanutKernel.AllocClients
import PeanutKernel.Proofs.AllocRun

/-!
# What clients hold

Slots lie in the pages that were cut for their class, and no page was cut twice (`Tracked`). So the
class a pointer came with is the one its slot has, and a pointer into the large heap is in no such
page. Each call keeps this and the layout.
-/

namespace PeanutKernel

namespace Alloc

open Regions

section Cut

variable {cut cut' : List (ℕ × Fin slabClasses)} {a page : ℕ} {ci cj : Fin slabClasses}

/-- The places of slots in the pages cut for their class. -/
def InCut (cut : List (ℕ × Fin slabClasses)) : Place → Prop
  | .slot a ci => ∃ page, (page, ci) ∈ cut ∧
      ∃ k < vmPageSize / classSizes ci, a = page + k * classSizes ci
  | _ => False

theorem InCut.mono (hcut : ∀ p ∈ cut, p ∈ cut') : ∀ p, InCut cut p → InCut cut' p
  | .slot _ _, ⟨page, hpage, hk⟩ => ⟨page, hcut _ hpage, hk⟩

theorem InCut.within (h : InCut cut (.slot a ci)) :
    ∃ page, (page, ci) ∈ cut ∧ page ≤ a ∧ a + classSizes ci ≤ page + vmPageSize := by
  obtain ⟨page, hpage, k, hk, rfl⟩ := h
  have hle := slot_end_le hk
  exact ⟨page, hpage, Nat.le_add_right _ _, by omega⟩

theorem InCut.unique (haligned : ∀ p ∈ cut, p.1 % vmPageSize = 0)
    (hnodup : (cut.map Prod.fst).Nodup) (hi : InCut cut (.slot a ci))
    (hj : InCut cut (.slot a cj)) : ci = cj := by
  obtain ⟨page, hpage, hge, hle⟩ := hi.within
  obtain ⟨page', hpage', hge', hle'⟩ := hj.within
  have halign := haligned _ hpage
  have halign' := haligned _ hpage'
  have hci := (classSizes_spec ci).1
  have hcj := (classSizes_spec cj).1
  have heq : page = page' := by
    unfold vmPageSize at *
    omega
  exact congrArg Prod.snd (List.inj_on_of_nodup_map hnodup hpage hpage' heq)

end Cut

section Tracked

variable {t : Clients} {s : Allocators} {H : List Cell} {L : Layout} {c : Cell} {r : ℕ × ℕ}
  {ci : Fin slabClasses} {a ptr size page q : ℕ} {cut : List (ℕ × Fin slabClasses)}
  {source : Option (Fin slabClasses)}

/-- What a pointer of the given source is like. -/
def CameFrom (s : Allocators) (cut : List (ℕ × Fin slabClasses)) (ptr : ℕ) :
    Option (Fin slabClasses) → Prop
  | some ci => ∃ a, ptr = a + slabHeaderBytes ∧ InCut cut (.slot a ci)
  | none => s.heapStart + blockHeaderBytes ≤ ptr ∧ ptr < s.heapEnd

/-- The pages cut into slots are apart from one another and from the large heap, and live pointers
are where their source has them. -/
structure Tracked (t : Clients) : Prop where
  aligned : ∀ p ∈ t.cut, p.1 % vmPageSize = 0
  pages : ∀ p ∈ t.cut, p.1 ≠ 0 ∧
    (p.1 + vmPageSize ≤ t.heapStart ∨ heapTop t.toAllocators ≤ p.1)
  nodup : (t.cut.map Prod.fst).Nodup
  origin : ∀ r ∈ t.live, CameFrom t.toAllocators t.cut r.1 (t.origin r.1)

theorem Tracked.origin_slot (h : Tracked t) (hP : InCut t.cut (.slot a ci))
    (hr : (a + slabHeaderBytes, q) ∈ t.live) : t.origin (a + slabHeaderBytes) = some ci := by
  have hfrom := h.origin _ hr
  obtain ⟨page, hpage, hge, hle⟩ := hP.within
  have hlow := (classSizes_spec ci).1
  cases horigin : t.origin (a + slabHeaderBytes) with
  | none =>
    rw [horigin] at hfrom
    have hapart := (h.pages _ hpage).2
    simp only [CameFrom, heapTop, slabHeaderBytes, blockHeaderBytes] at hfrom hapart
    omega
  | some cj =>
    rw [horigin] at hfrom
    obtain ⟨a', ha, hj⟩ := hfrom
    obtain rfl := Nat.add_right_cancel ha
    rw [hP.unique h.aligned h.nodup hj]

theorem Tracked.origin_block (h : Tracked t) (ha : t.heapStart ≤ a)
    (hend : a + blockHeaderBytes < t.heapEnd) (hr : (a + blockHeaderBytes, q) ∈ t.live) :
    t.origin (a + blockHeaderBytes) = none := by
  have hfrom := h.origin _ hr
  cases horigin : t.origin (a + blockHeaderBytes) with
  | none => rfl
  | some cj =>
    rw [horigin] at hfrom
    obtain ⟨a', ha', hj⟩ := hfrom
    obtain ⟨page, hpage, hge, hle⟩ := hj.within
    have hapart := (h.pages _ hpage).2
    have hlow := (classSizes_spec cj).1
    simp only [heapTop, slabHeaderBytes, blockHeaderBytes] at *
    omega

/-- What is apart from the pages cut into slots is apart from the slots. -/
theorem Held.clear {lo hi : ℕ} (h : Held (InCut cut) s H L)
    (hpages : ∀ p ∈ cut, p.1 + vmPageSize ≤ lo ∨ hi ≤ p.1) : Clear lo hi L.paged := by
  have hslot : ∀ a ci, InCut cut (.slot a ci) → a + classSizes ci ≤ lo ∨ hi ≤ a := by
    intro a ci hP
    obtain ⟨page, hpage, hge, hle⟩ := hP.within
    rcases hpages _ hpage with h | h
    · exact .inl (hle.trans h)
    · exact .inr (h.trans hge)
  intro c hc
  have hplace := h.area c hc
  cases c with
  | free a ci next => exact hslot a ci hplace
  | used a ci req => exact hslot a ci hplace
  | _ => exact absurd hplace (by simp [Cell.place, InCut])

/-- A new page has no slot in it. -/
theorem Tracked.clear (h : Tracked t) (hheld : Held (InCut t.cut) s H L) (hpage : NewPage t page) :
    Clear page (page + vmPageSize) L.paged := by
  refine hheld.clear fun p hp => ?_
  have haligned := h.aligned p hp
  have hne : p.1 ≠ page := by
    rintro rfl
    exact hpage.2.2 (List.mem_map_of_mem hp)
  have hnew := hpage.1
  unfold vmPageSize at *
  omega

/-- A pointer is handed out. -/
theorem Tracked.given (h : Tracked t) (hlive : s.live = t.live) (hstart : s.heapStart = t.heapStart)
    (hend : t.heapEnd ≤ s.heapEnd) (hcut : ∀ p ∈ t.cut, p ∈ cut)
    (haligned : ∀ p ∈ cut, p.1 % vmPageSize = 0)
    (hpages : ∀ p ∈ cut, p.1 ≠ 0 ∧ (p.1 + vmPageSize ≤ s.heapStart ∨ heapTop s ≤ p.1))
    (hnodup : (cut.map Prod.fst).Nodup) (hptr : ptr ≠ 0) (hfrom : CameFrom s cut ptr source) :
    Tracked (t.given s ptr size source cut) := by
  have hkeep : ∀ p o, CameFrom t.toAllocators t.cut p o → CameFrom s cut p o := by
    rintro p (_ | ci)
    · rintro ⟨hge, hlt⟩
      exact ⟨hstart ▸ hge, hlt.trans_le hend⟩
    · rintro ⟨a, ha, hP⟩
      exact ⟨a, ha, InCut.mono hcut _ hP⟩
  have horigin : ∀ p, (p = ptr ∨ CameFrom s cut p (t.origin p)) →
      CameFrom s cut p (Function.update t.origin ptr source p) := by
    rintro p hp
    by_cases hne : p = ptr
    · rw [hne, Function.update_self]
      exact hfrom
    · rw [Function.update_of_ne hne]
      exact hp.resolve_left hne
  refine ⟨haligned, ?_, hnodup, ?_⟩
  · simp only [Clients.given, if_neg hptr]
    exact hpages
  · simp only [Clients.given, if_neg hptr]
    intro r hr
    refine horigin r.1 ?_
    rcases List.mem_cons.1 hr with rfl | hr
    · exact .inl rfl
    · exact .inr (hkeep _ _ (h.origin r (hlive ▸ hr)))

/-- Nothing is handed out. -/
theorem Tracked.of_same {t' : Clients} (h : Tracked t) (hcut : t'.cut = t.cut)
    (horigin : t'.origin = t.origin) (hstart : t'.heapStart = t.heapStart)
    (hend : t'.heapEnd = t.heapEnd) (hlive : ∀ r ∈ t'.live, r ∈ t.live) : Tracked t' := by
  refine ⟨hcut ▸ h.aligned, ?_, hcut ▸ h.nodup, fun r hr => ?_⟩
  · rw [hcut, hstart, heapTop_congr hstart hend]
    exact h.pages
  · have hfrom := h.origin r (hlive r hr)
    rw [horigin, hcut]
    cases hsource : t.origin r.1 with
    | none =>
      rw [hsource] at hfrom
      simp only [CameFrom, hstart, hend]
      exact hfrom
    | some ci =>
      rw [hsource] at hfrom
      exact hfrom

theorem mem_refilled {p : ℕ × Fin slabClasses} (hp : p ∈ t.refilled size page) :
    p = (page, p.2) ∧ classFor size = some p.2 ∧ t.freeLists p.2 = 0 ∧ page ≠ 0 := by
  unfold Clients.refilled at hp
  split at hp
  · rename_i ci hclass
    split_ifs at hp with hempty
    · obtain rfl := List.mem_singleton.1 hp
      exact ⟨rfl, hclass, hempty⟩
    · simp at hp
  · simp at hp

theorem refilled_self (hclass : classFor size = some ci) (hempty : t.freeLists ci = 0)
    (hpage : page ≠ 0) : t.refilled size page = [(page, ci)] := by
  simp [Clients.refilled, hclass, hempty, hpage]

/-- The page cut for a call is like the others. -/
theorem Tracked.refilled (h : Tracked t)
    (hpage : TakesPage t.toAllocators (.kalloc size) → NewPage t page)
    (hapart : TakesPage t.toAllocators (.kalloc size) → page ≠ 0 →
      page + vmPageSize ≤ t.heapStart ∨ heapTop t.toAllocators ≤ page) :
    (∀ p ∈ t.refilled size page ++ t.cut, p.1 % vmPageSize = 0) ∧
      (∀ p ∈ t.refilled size page ++ t.cut, p.1 ≠ 0 ∧
        (p.1 + vmPageSize ≤ t.heapStart ∨ heapTop t.toAllocators ≤ p.1)) ∧
      ((t.refilled size page ++ t.cut).map Prod.fst).Nodup := by
  have hnew : ∀ p ∈ t.refilled size page, p.1 = page ∧ page ≠ 0 ∧
      TakesPage t.toAllocators (.kalloc size) := by
    intro p hp
    obtain ⟨heq, hclass, hempty, hne⟩ := mem_refilled hp
    exact ⟨congrArg Prod.fst heq, hne, p.2, hclass, hempty⟩
  refine ⟨fun p hp => ?_, fun p hp => ?_, ?_⟩
  · rcases List.mem_append.1 hp with hp | hp
    · obtain ⟨heq, hne, htakes⟩ := hnew p hp
      rw [heq]
      exact (hpage htakes).1
    · exact h.aligned p hp
  · rcases List.mem_append.1 hp with hp | hp
    · obtain ⟨heq, hne, htakes⟩ := hnew p hp
      rw [heq]
      exact ⟨hne, hapart htakes hne⟩
    · exact h.pages p hp
  · rw [List.map_append]
    refine List.nodup_append.2 ⟨?_, h.nodup, ?_⟩
    · unfold Clients.refilled
      split
      · split_ifs <;> simp
      · simp
    · intro p hp p' hp' heq
      obtain ⟨x, hx, rfl⟩ := List.mem_map.1 hp
      obtain ⟨hx, -, htakes⟩ := hnew x hx
      exact (hpage htakes).2.2 (hx ▸ heq ▸ hp')

end Tracked

section Slabs

variable {P : Place → Prop} {t : Clients} {s : Allocators} {H : List Cell} {L : Layout}
  {ci : Fin slabClasses} {a ptr size page q : ℕ}

theorem Held.withPage (h : Held P t.toAllocators H L) (page : ℕ) :
    Held P (t.withPage page) H L :=
  ⟨h.hold, h.area, h.lists, h.live, h.pages, h.headers, h.bound⟩

theorem given_toAllocators {source : Option (Fin slabClasses)}
    {cut : List (ℕ × Fin slabClasses)} (hptr : ptr ≠ 0) :
    (t.given s ptr size source cut).toAllocators = { s with live := (ptr, size) :: s.live } :=
  if_neg hptr

/-- A slot from a page that is there or from a new one. -/
theorem Tracked.slabAlloc (h : Tracked t) (hheld : Held (InCut t.cut) t.toAllocators H L)
    (hsize : size ≤ 2 ^ 32) (hclass : classFor size = some ci)
    (hpage : TakesPage t.toAllocators (.kalloc size) → NewPage t page ∧ page ≠ 0 ∧
      Clear page (page + vmPageSize) H ∧
      (page + vmPageSize ≤ t.heapStart ∨ heapTop t.toAllocators ≤ page)) :
    ∃ ptr s L', slabAlloc size (t.withPage page) = (ptr, s) ∧ ptr ≠ 0 ∧ L'.blocks = L.blocks ∧
      s.heapStart = t.heapStart ∧ s.heapEnd = t.heapEnd ∧
      Held (InCut (t.refilled size page ++ t.cut))
        (t.given s ptr size (some ci) (t.refilled size page ++ t.cut)).toAllocators H L' ∧
      Tracked (t.given s ptr size (some ci) (t.refilled size page ++ t.cut)) := by
  obtain ⟨hstart, hend, hlive, -⟩ := slabAlloc_frame size (t.withPage page)
  obtain ⟨a, s, L', halloc, hP, hblocks, hheld'⟩ :=
    ((hheld.withPage page).mono (InCut.mono fun p hp =>
      List.mem_append_right (t.refilled size page) hp)).slabAlloc hsize hclass fun hempty => by
      obtain ⟨hnew, hne, hclear, -⟩ := hpage ⟨ci, hclass, hempty⟩
      have hroom : page + vmPageSize ≤ 2 ^ 64 := by
        obtain ⟨haligned, hlt, -⟩ := hnew
        unfold vmPageSize at *
        omega
      refine ⟨hne, hroom, fun c hc => ?_, fun k hk => ⟨page, ?_, k, hk, rfl⟩⟩
      · rcases List.mem_append.1 hc with hc | hc
        · exact hclear c hc
        · exact h.clear hheld hnew c hc
      · rw [refilled_self hclass hempty hne]
        exact List.mem_cons_self ..
  rw [halloc] at hstart hend hlive
  have hptr : a + slabHeaderBytes ≠ 0 := by simp [slabHeaderBytes]
  obtain ⟨haligned, hpages, hnodup⟩ :=
    h.refilled (fun htakes => (hpage htakes).1) fun htakes _ => (hpage htakes).2.2.2
  refine ⟨_, s, L', halloc, hptr, hblocks, hstart, hend, ?_, ?_⟩
  · rw [given_toAllocators hptr]
    exact hheld'
  · refine h.given hlive hstart hend.ge (fun p hp => List.mem_append_right _ hp) haligned ?_ hnodup
      hptr ⟨a, rfl, hP⟩
    intro p hp
    have htop : heapTop s = heapTop t.toAllocators := heapTop_congr hstart hend
    rw [htop, hstart]
    exact hpages p hp

/-- There is no page. -/
theorem slabAlloc_null (hheld : Held (InCut t.cut) t.toAllocators H L)
    (htakes : TakesPage t.toAllocators (.kalloc size))
    (hclear : Clear 0 vmPageSize (H ++ L.paged)) :
    slabAlloc size (t.withPage 0) = (0, (vmAllocPage (t.withPage 0)).2) ∧
      Held (InCut t.cut) (vmAllocPage (t.withPage 0)).2 H L := by
  obtain ⟨ci, hclass, hempty⟩ := htakes
  refine ⟨?_, (hheld.withPage 0).cleared (by simpa [Clients.withPage] using hclear)⟩
  have hrefill : refill ci (t.withPage 0) = (false, (vmAllocPage (t.withPage 0)).2) :=
    refill_null rfl
  have hempty' : (t.withPage 0).freeLists ci = 0 := hempty
  simp only [slabAlloc, hclass, hempty', if_true, hrefill, Bool.false_eq_true, if_false]

theorem payload_slot (h : Tracked t) (hP : InCut t.cut (.slot a ci))
    (hr : (a + slabHeaderBytes, q) ∈ t.live) :
    t.payload (a + slabHeaderBytes)
      = (a + slabHeaderBytes, classSizes ci - slabHeaderBytes) := by
  simp only [Clients.payload, h.origin_slot hP hr]

/-- What clients have of the regions that are theirs, and the headers. -/
theorem Held.pairwise_live (h : Held P s H L) (g : ℕ × ℕ → ℕ × ℕ)
    (hg : ∀ c ∈ H ++ L.paged, ∀ r, c.live = some r → c.Body (g r)) :
    (s.live.map g ++ s.headers).Pairwise fun r r' => ∀ a, InRange r a → ¬ InRange r' a := by
  have hperm : (s.live.map g ++ s.headers).Perm
      ((H ++ L.paged).flatMap fun c => (c.live.map g).toList ++ c.header.toList) := by
    have hlive := h.live.map g
    rw [List.map_filterMap] at hlive
    refine (hlive.append h.headers).trans ?_
    simp only [List.filterMap_eq_flatMap_toList]
    exact List.flatMap_append_perm ..
  refine (hperm.pairwise_iff apart_symm).2 (h.pairwise_parts _ (fun c => ?_) fun c hc r hr => ?_)
  · cases c.live <;> simp
  · obtain ⟨r', hr', rfl⟩ := Option.map_eq_some_iff.1 (Option.mem_toList.1 hr)
    exact hg c hc r' hr'

theorem Held.live_nodup (h : Held P s H L)
    (hin : ∀ c ∈ H ++ L.paged, ∀ r, c.live = some r → kind.Inside c r.1) :
    (s.live.map Prod.fst).Nodup := by
  have hperm : (s.live.map Prod.fst).Perm
      ((H ++ L.paged).flatMap fun c => (c.live.map Prod.fst).toList) := by
    have hlive := h.live.map Prod.fst
    rwa [List.map_filterMap, List.filterMap_eq_flatMap_toList] at hlive
  refine hperm.nodup_iff.2 (h.hold.pairwise_flatMap _ (fun c _ => ?_) ?_)
  · cases c.live <;> simp
  · intro c hc d hd hapart p hp p' hp' heq
    obtain ⟨r, hr, rfl⟩ := Option.map_eq_some_iff.1 (Option.mem_toList.1 hp)
    obtain ⟨r', hr', rfl⟩ := Option.map_eq_some_iff.1 (Option.mem_toList.1 hp')
    exact hapart.not_inside (hin d hd r' hr') (heq ▸ hin c hc r hr)

end Slabs

end Alloc

end PeanutKernel
