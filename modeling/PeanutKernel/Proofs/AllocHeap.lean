import PeanutKernel.Proofs.Alloc

/-!
# The large heap

The walk of `kalloc` along the large heap stops at the first free block that is long enough, or at
the last block. So a call takes a free block, or puts a new one behind the last; `kfree` marks one
free. `Placed` is a layout with a large heap, and each of these keeps it, as long as a new block is
apart from what is in pages. What callers hold and the headers are disjoint in every layout.
-/

namespace PeanutKernel

namespace Alloc

open Regions

section Blocks

variable {s : Allocators} {c : Cell} {a n req next : ℕ} {r : Option ℕ} {bs : List (ℕ × Option ℕ)}

/-- A block can be looked at apart: those before it do not depend on it. -/
theorem blockCells_perm :
    ∀ (a : ℕ) (xs : List (ℕ × Option ℕ)), ∃ before, ∀ size req ys,
      (blockCells a (xs ++ (size, req) :: ys)).Perm
        (.block (a + extent xs) size req
            (if ys = [] then 0 else a + extent xs + blockHeaderBytes + size)
          :: (blockCells (a + extent xs + blockHeaderBytes + size) ys ++ before))
  | a, [] => ⟨[], fun size req ys => by simp [blockCells, extent]⟩
  | a, (n, r) :: xs => by
    obtain ⟨before, h⟩ := blockCells_perm (a + blockHeaderBytes + n) xs
    refine ⟨.block a n r (a + blockHeaderBytes + n) :: before, fun size req ys => ?_⟩
    have hext : a + extent ((n, r) :: xs) = a + blockHeaderBytes + n + extent xs := by
      simp [extent]
      omega
    rw [hext, List.cons_append, blockCells, if_neg (by simp)]
    refine ((h size req ys).cons _).trans ((List.Perm.swap ..).trans (List.Perm.cons _ ?_))
    exact List.perm_middle.symm

theorem blockCells_within :
    ∀ (a : ℕ) (bs : List (ℕ × Option ℕ)), ∀ c ∈ blockCells a bs,
      a ≤ c.addr ∧ c.addr + c.len ≤ a + extent bs
  | a, [], c, hc => by simp [blockCells] at hc
  | a, (n, r) :: bs, c, hc => by
    have hext : extent ((n, r) :: bs) = blockHeaderBytes + n + extent bs := by simp [extent]
    rw [hext]
    rcases List.mem_cons.1 hc with rfl | hc
    · simp only [Cell.addr, Cell.len]
      omega
    · have := blockCells_within _ bs c hc
      omega

/-- A block apart from the rest of the large heap. -/
theorem heapCells_perm (start : ℕ) (xs : List (ℕ × Option ℕ)) :
    ∃ before, ∀ n r ys, (heapCells start (xs ++ (n, r) :: ys)).Perm
      (.block (start + extent xs) n r
          (if ys = [] then 0 else start + extent xs + blockHeaderBytes + n)
        :: (blockCells (start + extent xs + blockHeaderBytes + n) ys ++ before)) := by
  obtain ⟨before, hbefore⟩ := blockCells_perm start xs
  refine ⟨before, fun n r ys => ?_⟩
  rw [heapCells, if_neg (by simp)]
  exact hbefore n r ys

theorem mem_blockCells :
    ∀ {a : ℕ} {bs : List (ℕ × Option ℕ)}, c ∈ blockCells a bs → ∃ xs n r ys,
      bs = xs ++ (n, r) :: ys ∧
        c = .block (a + extent xs) n r
          (if ys = [] then 0 else a + extent xs + blockHeaderBytes + n)
  | a, [], hc => by simp [blockCells] at hc
  | a, (n, r) :: bs, hc => by
    rcases List.mem_cons.1 hc with rfl | hc
    · exact ⟨[], n, r, bs, rfl, rfl⟩
    · obtain ⟨xs, n', r', ys, rfl, rfl⟩ := mem_blockCells hc
      refine ⟨(n, r) :: xs, n', r', ys, rfl, ?_⟩
      have hext : a + extent ((n, r) :: xs) = a + blockHeaderBytes + n + extent xs := by
        simp [extent]
        omega
      rw [hext]

theorem mem_heapCells (hc : c ∈ heapCells a bs) :
    c = .start a ∨ ∃ xs n r ys, bs = xs ++ (n, r) :: ys ∧
      c = .block (a + extent xs) n r
        (if ys = [] then 0 else a + extent xs + blockHeaderBytes + n) := by
  unfold heapCells at hc
  split_ifs at hc with hnil
  · exact .inl (List.mem_singleton.1 hc)
  · exact .inr (mem_blockCells hc)

theorem mem_heapCells_block (start : ℕ) {xs ys : List (ℕ × Option ℕ)}
    (hbs : bs = xs ++ (n, r) :: ys) :
    .block (start + extent xs) n r (if ys = [] then 0 else start + extent xs + blockHeaderBytes + n)
      ∈ heapCells start bs := by
  obtain ⟨before, hbefore⟩ := heapCells_perm start xs
  rw [hbs]
  exact (hbefore n r ys).mem_iff.2 (List.mem_cons_self ..)

theorem slabFree_block (hok : (Cell.block a n r next).Ok s.mem)
    (ha : a + blockHeaderBytes ≤ 2 ^ 64) : slabFree (a + blockHeaderBytes) s = none := by
  have hne : a + blockHeaderBytes ≠ 0 := by simp [blockHeaderBytes]
  have hh : (a + blockHeaderBytes + 2 ^ 64 - slabHeaderBytes) % 2 ^ 64 = a + 16 := by
    unfold blockHeaderBytes slabHeaderBytes at *
    omega
  -- The bytes before a large block are its `next`, a multiple of 8; the magic word is none.
  have hmagic : le32 s.mem (a + 16) ≠ slabMagic := by
    obtain ⟨-, -, hnext, halign, -⟩ := hok
    unfold le64 at hnext
    unfold slabMagic
    omega
  unfold slabFree
  rw [if_neg hne]
  simp only [hh]
  rw [if_pos hmagic]

theorem kfreeLarge_block (s : Allocators) (ha : a < 2 ^ 64) :
    kfreeLarge (a + blockHeaderBytes) s = { s with mem := storeLe 4 s.mem (a + 8) 1 } := by
  have hne : a + blockHeaderBytes ≠ 0 := by simp [blockHeaderBytes]
  have hheader : (a + blockHeaderBytes + 2 ^ 64 - blockHeaderBytes) % 2 ^ 64 = a := by omega
  simp only [kfreeLarge, if_neg hne, hheader]

/-- The walk along the large heap. -/
theorem kallocWalk_spec {mem : Buf} (size : ℕ) :
    ∀ {bs : List (ℕ × Option ℕ)} {a fuel : ℕ}, bs ≠ [] → (∀ c ∈ blockCells a bs, c.Ok mem) →
      (∀ b ∈ bs, 0 < b.1) → bs.length ≤ fuel →
      (∃ xs n ys, bs = xs ++ (n, none) :: ys ∧ size ≤ n ∧
        kallocWalk mem size fuel a = some (a + extent xs, true)) ∨
      ∃ xs n r, bs = xs ++ [(n, r)] ∧ kallocWalk mem size fuel a = some (a + extent xs, false)
  | [], _, _, hne, _, _, _ => absurd rfl hne
  | (n, r) :: bs, a, 0, _, _, _, hfuel => by simp at hfuel
  | (n, r) :: bs, a, fuel + 1, _, hok, hpos, hfuel => by
    obtain ⟨hsize, hflag, hnext, -, -⟩ := hok _ (List.mem_cons_self ..)
    have hn : 0 < n := hpos _ (List.mem_cons_self ..)
    by_cases htake : r = none ∧ size ≤ n
    · obtain ⟨rfl, hle⟩ := htake
      refine .inl ⟨[], n, bs, rfl, hle, ?_⟩
      rw [kallocWalk, if_neg (by omega), if_pos ⟨hflag.2 rfl, by omega⟩]
      rfl
    · have htake' : ¬ (le32 mem (a + 8) ≠ 0 ∧ size ≤ le64 mem a) := by
        rwa [hflag, hsize]
      rw [kallocWalk, if_neg (by omega), if_neg htake']
      by_cases hbs : bs = []
      · subst hbs
        refine .inr ⟨[], n, r, rfl, ?_⟩
        rw [if_pos (by simpa using hnext)]
        rfl
      · rw [if_neg hbs] at hnext
        have hrest := kallocWalk_spec size hbs
          (fun c hc => hok c (List.mem_cons_of_mem _ hc))
          (fun b hb => hpos b (List.mem_cons_of_mem _ hb)) (Nat.le_of_succ_le_succ hfuel)
        rw [hnext, if_neg (by unfold blockHeaderBytes; omega)]
        have hext : ∀ xs, a + extent ((n, r) :: xs) = a + blockHeaderBytes + n + extent xs := by
          intro xs
          simp [extent]
          omega
        rcases hrest with ⟨xs, m, ys, rfl, hle, hwalk⟩ | ⟨xs, m, q, rfl, hwalk⟩
        · exact .inl ⟨(n, r) :: xs, m, ys, rfl, hle, by rw [hext]; exact hwalk⟩
        · exact .inr ⟨(n, r) :: xs, m, q, rfl, by rw [hext]; exact hwalk⟩

end Blocks

section Headers

variable {s : Allocators} {a n req size fuel : ℕ}

theorem extent_mod : ∀ {bs : List (ℕ × Option ℕ)}, (∀ b ∈ bs, b.1 % 16 = 0) → extent bs % 8 = 0
  | [], _ => rfl
  | b :: bs, h => by
    have hb := h b (List.mem_cons_self ..)
    have hbs := extent_mod fun b hb => h b (List.mem_cons_of_mem _ hb)
    have hext : extent (b :: bs) = blockHeaderBytes + b.1 + extent bs := by simp [extent]
    unfold blockHeaderBytes at hext
    omega

theorem heapCells_pageAt (start : ℕ) (bs : List (ℕ × Option ℕ)) :
    (heapCells start bs).filterMap Cell.pageAt = [] := by
  rw [List.filterMap_eq_nil_iff]
  intro c hc
  rcases mem_heapCells hc with rfl | ⟨xs, n, r, ys, -, rfl⟩ <;> rfl

theorem le64_writeHeader {m : Buf} {isFree next : ℕ} (hn : n < 2 ^ 64) :
    le64 (writeHeader m a n isFree next) a = n := by
  unfold writeHeader
  rw [le64_congr fun x hge hlt => storeLe_outside (by omega),
    le64_congr fun x hge hlt => storeLe_outside (by omega)]
  exact le64_storeLe hn

theorem writeHeader_ok (m : Buf) (hn : n < 2 ^ 64) (hreq : req ≤ n) :
    (Cell.block a n (some req) 0).Ok (writeHeader m a n 0 0) := by
  refine ⟨le64_writeHeader hn, ?_, le64_storeLe (by decide), rfl, ?_⟩
  · unfold writeHeader
    rw [le32_congr fun x hge hlt => storeLe_outside (by omega), le32_storeLe (by decide)]
    simp
  · intro q hq
    obtain rfl := Option.some.inj hq
    exact hreq

theorem writeHeader_outside {m : Buf} {isFree next x : ℕ} (hx : x < a ∨ a + blockHeaderBytes ≤ x) :
    writeHeader m a n isFree next x = m x := by
  unfold blockHeaderBytes at hx
  unfold writeHeader
  rw [storeLe_outside (by omega), storeLe_outside (by omega), storeLe_outside (by omega)]

theorem kallocLarge_taken
    (hwalk : kallocWalk s.mem (roundUp size) fuel s.heapStart = some (a, true))
    (ha : a + blockHeaderBytes < 2 ^ 64) :
    kallocLarge fuel size s
      = some (a + blockHeaderBytes, { s with mem := storeLe 4 s.mem (a + 8) 0 }) := by
  simp only [kallocLarge, hwalk, Nat.mod_eq_of_lt ha]

theorem kallocLarge_first
    (hwalk : kallocWalk s.mem (roundUp size) fuel s.heapStart = some (s.heapStart, false))
    (hempty : le64 s.mem s.heapStart = 0) (hstart : s.heapStart + blockHeaderBytes < 2 ^ 64) :
    kallocLarge fuel size s = some (s.heapStart + blockHeaderBytes, { s with
      mem := writeHeader s.mem s.heapStart (roundUp size) 0 0
      heapEnd := s.heapStart + blockHeaderBytes + roundUp size }) := by
  simp only [kallocLarge, hwalk, hempty, if_true, Nat.mod_eq_of_lt hstart, ne_eq, not_true_eq_false,
    if_false]

theorem kallocLarge_grown
    (hwalk : kallocWalk s.mem (roundUp size) fuel s.heapStart = some (a, false))
    (hn : le64 s.mem a = n ∧ 0 < n) (hlast : a + blockHeaderBytes + n = s.heapEnd)
    (hend : s.heapEnd + blockHeaderBytes < 2 ^ 64) :
    kallocLarge fuel size s = some (s.heapEnd + blockHeaderBytes, { s with
      mem := storeLe 8 (writeHeader s.mem s.heapEnd (roundUp size) 0 0) (a + 16) s.heapEnd
      headers := (s.heapEnd, blockHeaderBytes) :: s.headers
      heapEnd := s.heapEnd + blockHeaderBytes + roundUp size }) := by
  have hne : a ≠ s.heapEnd := by omega
  have hpos : n ≠ 0 := by omega
  have hnew : s.heapEnd % 2 ^ 64 = s.heapEnd := Nat.mod_eq_of_lt (by omega)
  simp only [kallocLarge, hwalk, hn.1, if_neg hpos, hlast, hnew, if_pos hne, Nat.mod_eq_of_lt hend]

end Headers

section Placed

variable {P : Place → Prop} {s : Allocators} {L : Layout} {c : Cell} {a n req size fuel : ℕ}
  {r r' : Option ℕ} {xs ys bs : List (ℕ × Option ℕ)}

/-- The large heap is a row of blocks, and what is in pages is held beside it. -/
structure Placed (P : Place → Prop) (s : Allocators) (L : Layout) : Prop where
  held : Held P s (heapCells s.heapStart L.blocks) L
  paged : ∀ a n, ¬ P (.heap a n)
  sizes : ∀ b ∈ L.blocks, 0 < b.1 ∧ b.1 % 16 = 0
  heapEnd : s.heapEnd = s.heapStart + extent L.blocks
  start : 0 < s.heapStart ∧ s.heapStart % 16 = 0

theorem Placed.within (h : Placed P s L) :
    ∀ c ∈ heapCells s.heapStart L.blocks, s.heapStart ≤ c.addr ∧ c.addr + c.len ≤ heapTop s := by
  intro c hc
  unfold heapTop
  unfold heapCells at hc
  split_ifs at hc with hnil
  · rw [List.mem_singleton.1 hc]
    simp only [Cell.addr, Cell.len]
    omega
  · have := blockCells_within _ _ c hc
    have := h.heapEnd
    omega

/-- What the calls on slabs leave of a layout. -/
theorem Placed.of_held {Q : Place → Prop} {s' : Allocators} {L' : Layout} (h : Placed P s L)
    (h' : Held Q s' (heapCells s.heapStart L.blocks) L') (hQ : ∀ a n, ¬ Q (.heap a n))
    (hblocks : L'.blocks = L.blocks) (hstart : s'.heapStart = s.heapStart)
    (hend : s'.heapEnd = s.heapEnd) : Placed Q s' L' := by
  refine ⟨?_, hQ, ?_, ?_, ?_⟩
  · rw [hstart, hblocks]
    exact h'
  · rw [hblocks]
    exact h.sizes
  · rw [hstart, hend, hblocks]
    exact h.heapEnd
  · rw [hstart]
    exact h.start

/-- After `kalloc_init` the large heap is one header with no block. -/
theorem placed_boot {kernelEnd : ℕ} {mem : Buf} (hP : ∀ a n, ¬ P (.heap a n)) (hpos : 0 < kernelEnd)
    (hend : kernelEnd + 32 ≤ 2 ^ 64) : Placed P (boot kernelEnd mem) ⟨[], fun _ => [], []⟩ := by
  have hstart : 0 < (kernelEnd + 15) % 2 ^ 64 / 16 * 16 ∧
      (kernelEnd + 15) % 2 ^ 64 / 16 * 16 + 24 ≤ 2 ^ 64 := by omega
  have hpaged : Layout.paged ⟨[], fun _ => [], []⟩ = [] := by
    simp [Layout.paged, freeCells, nodeCells]
  have hcells : heapCells (boot kernelEnd mem).heapStart [] ++ Layout.paged ⟨[], fun _ => [], []⟩
      = [.start (boot kernelEnd mem).heapStart] := by
    rw [hpaged]
    rfl
  refine ⟨⟨?_, ?_, fun _ => rfl, ?_, ?_, ?_, ?_⟩, hP, by simp, rfl, hstart.1, ?_⟩
  · rw [hcells]
    refine ⟨fun c hc => ?_, List.pairwise_singleton _ _⟩
    rw [List.mem_singleton.1 hc]
    exact le64_writeHeader (by decide)
  · simp [hpaged]
  · rw [hcells]
    exact List.Perm.refl _
  · rw [hcells]
    exact List.Perm.refl _
  · rw [hcells]
    exact List.Perm.refl _
  · rw [hcells]
    intro c hc
    rw [List.mem_singleton.1 hc]
    exact hstart.2
  · exact Nat.mul_mod_left _ _

/-- The flag of a block is set to whether it is free. -/
theorem Placed.flag {flag : ℕ} {live : List (ℕ × ℕ)} (h : Placed P s L)
    (hblocks : L.blocks = xs ++ (n, r) :: ys) (hflag : flag < 2 ^ 32) (hfree : flag ≠ 0 ↔ r' = none)
    (hreq : ∀ q ∈ r', q ≤ n)
    (hlive : ∀ next rest,
      s.live.Perm ((.block (s.heapStart + extent xs) n r next :: rest).filterMap Cell.live) →
        live.Perm ((.block (s.heapStart + extent xs) n r' next :: rest).filterMap Cell.live)) :
    Placed P { s with
        mem := storeLe 4 s.mem (s.heapStart + extent xs + 8) flag, live := live }
      { L with blocks := xs ++ (n, r') :: ys } := by
  obtain ⟨before, hbefore⟩ := heapCells_perm s.heapStart xs
  have hold := (hbefore n r ys).append_right L.paged
  have hnew := (hbefore n r' ys).append_right L.paged
  rw [← hblocks] at hold
  obtain ⟨hsize, -, hnext, halign, -⟩ := h.held.hold.ok _ (hold.mem_iff.2 (List.mem_cons_self ..))
  refine ⟨h.held.change hold hnew rfl ?_ ⟨?_, ?_, ?_, halign, hreq⟩ ⟨rfl, rfl⟩
    (hlive _ _ (h.held.live.trans (hold.filterMap _))) h.held.area h.held.lists, h.paged, ?_, ?_,
    h.start⟩
  · intro x hx
    refine storeLe_of_not_inside ?_ ?_ hx <;> simp only [Cell.addr, Cell.len, blockHeaderBytes]
      <;> omega
  · rw [le64_congr fun x hge hlt => storeLe_outside (by omega)]
    exact hsize
  · simp only []
    rw [le32_storeLe hflag]
    exact hfree
  · rw [le64_congr fun x hge hlt => storeLe_outside (by omega)]
    exact hnext
  · intro b hb
    have hsizes := h.sizes
    rw [hblocks] at hsizes
    simp only [List.mem_append, List.mem_cons] at hb hsizes
    rcases hb with hb | rfl | hb
    · exact hsizes b (.inl hb)
    · exact hsizes (n, r) (.inr (.inl rfl))
    · exact hsizes b (.inr (.inr hb))
  · rw [h.heapEnd, hblocks]
    simp [extent]

/-- The blocks of the large heap give way to others. -/
theorem Placed.grow {mem : Buf} {live headers : List (ℕ × ℕ)} (h : Placed P s L) (hne : bs ≠ [])
    (hold : kind.Hold mem (heapCells s.heapStart bs ++ L.paged))
    (hlive : live.Perm ((heapCells s.heapStart bs ++ L.paged).filterMap Cell.live))
    (hheaders : headers.Perm ((heapCells s.heapStart bs ++ L.paged).filterMap Cell.header))
    (hsizes : ∀ b ∈ bs, 0 < b.1 ∧ b.1 % 16 = 0) (hend : s.heapStart + extent bs ≤ 2 ^ 64) :
    Placed P { s with
        mem := mem, live := live, headers := headers, heapEnd := s.heapStart + extent bs }
      { L with blocks := bs } := by
  refine ⟨⟨hold, h.held.area, h.held.lists, hlive, ?_, hheaders, ?_⟩, h.paged, hsizes, rfl, h.start⟩
  · have hpages := h.held.pages
    rw [List.filterMap_append, heapCells_pageAt] at hpages ⊢
    exact hpages
  · intro c hc
    rcases List.mem_append.1 hc with hc | hc
    · rw [heapCells, if_neg hne] at hc
      exact (blockCells_within _ _ c hc).2.trans hend
    · exact h.held.bound c (List.mem_append_right _ hc)

/-- The first block of the large heap. -/
theorem Placed.first (h : Placed P s L) (hblocks : L.blocks = []) (hn : 0 < n ∧ n % 16 = 0)
    (hreq : req ≤ n) (hroom : s.heapEnd + blockHeaderBytes + n ≤ 2 ^ 64)
    (hclear : Clear s.heapEnd (s.heapEnd + blockHeaderBytes + n) L.paged) :
    Placed P { s with
        mem := writeHeader s.mem s.heapStart n 0 0
        live := (s.heapStart + blockHeaderBytes, req) :: s.live
        heapEnd := s.heapStart + blockHeaderBytes + n }
      { L with blocks := [(n, some req)] } := by
  have hend : s.heapEnd = s.heapStart := by
    rw [h.heapEnd, hblocks]
    rfl
  have hext : s.heapStart + extent [(n, some req)] = s.heapStart + blockHeaderBytes + n := by
    simp [extent]
    omega
  have hcells : heapCells s.heapStart L.blocks = [.start s.heapStart] := by
    rw [heapCells, if_pos hblocks]
  have hnew : kind.Hold (writeHeader s.mem s.heapStart n 0 0)
      [.block s.heapStart n (some req) 0] := by
    refine ⟨fun c hc => ?_, List.pairwise_singleton _ _⟩
    rw [List.mem_singleton.1 hc]
    exact writeHeader_ok _ (by unfold blockHeaderBytes at hroom; omega) hreq
  have hlive := h.held.live
  have hheaders := h.held.headers
  have hold := h.held.hold
  rw [hcells] at hlive hheaders hold
  rw [hend] at hclear
  rw [← hext]
  refine h.grow (List.cons_ne_nil _ _) (hold.tail.add ?_ hnew ?_) (hlive.cons _) hheaders ?_
    (by omega)
  · intro c hc x hx
    have := hclear.outside hc hx
    exact writeHeader_outside (by omega)
  · intro c hc d hd
    rw [List.mem_singleton.1 hc]
    refine (hclear d hd).symm.imp_left fun hle => ?_
    simpa [kind, Cell.addr, Cell.len, Nat.add_assoc] using hle
  · intro b hb
    rw [List.mem_singleton.1 hb]
    exact hn

/-- A new block behind the last one. -/
theorem Placed.append (h : Placed P s L) (hblocks : L.blocks = xs ++ [(size, r)])
    (hn : 0 < n ∧ n % 16 = 0) (hreq : req ≤ n)
    (hroom : s.heapEnd + blockHeaderBytes + n ≤ 2 ^ 64)
    (hclear : Clear s.heapEnd (s.heapEnd + blockHeaderBytes + n) L.paged) :
    Placed P { s with
        mem := storeLe 8 (writeHeader s.mem s.heapEnd n 0 0) (s.heapStart + extent xs + 16)
          s.heapEnd
        live := (s.heapEnd + blockHeaderBytes, req) :: s.live
        headers := (s.heapEnd, blockHeaderBytes) :: s.headers
        heapEnd := s.heapEnd + blockHeaderBytes + n }
      { L with blocks := xs ++ [(size, r), (n, some req)] } := by
  obtain ⟨before, hbefore⟩ := heapCells_perm s.heapStart xs
  have hlast : s.heapStart + extent xs + blockHeaderBytes + size = s.heapEnd := by
    rw [h.heapEnd, hblocks]
    simp [extent]
    omega
  have hold := (hbefore size r []).append_right L.paged
  have hnew := (hbefore size r [(n, some req)]).append_right L.paged
  rw [← hblocks] at hold
  rw [hlast] at hold hnew
  simp only [blockCells, if_true, if_neg (List.cons_ne_nil _ _), List.nil_append,
    List.cons_append] at hold hnew
  have hapart : Clear s.heapEnd (s.heapEnd + blockHeaderBytes + n)
      (heapCells s.heapStart L.blocks ++ L.paged) := by
    intro c hc
    rcases List.mem_append.1 hc with hc | hc
    · rw [heapCells, if_neg (by simp [hblocks])] at hc
      exact .inl (h.heapEnd ▸ (blockCells_within _ _ c hc).2)
    · exact hclear c hc
  have hheld : kind.Hold (writeHeader s.mem s.heapEnd n 0 0)
      ([.block s.heapEnd n (some req) 0] ++ (heapCells s.heapStart L.blocks ++ L.paged)) := by
    refine h.held.hold.add ?_ ⟨?_, List.pairwise_singleton _ _⟩ ?_
    · intro c hc x hx
      have := hapart.outside hc hx
      exact writeHeader_outside (by omega)
    · intro c hc
      rw [List.mem_singleton.1 hc]
      exact writeHeader_ok _ (by unfold blockHeaderBytes at hroom; omega) hreq
    · intro c hc d hd
      rw [List.mem_singleton.1 hc]
      refine (hapart d hd).symm.imp_left fun hle => ?_
      simpa [kind, Cell.addr, Cell.len, Nat.add_assoc] using hle
  obtain ⟨hsize, hflag, -, -, hreqs⟩ := hheld.ok _
    (List.mem_append_right _ (hold.mem_iff.2 (List.mem_cons_self ..)))
  have hext : s.heapStart + extent (xs ++ [(size, r), (n, some req)])
      = s.heapEnd + blockHeaderBytes + n := by
    rw [← hlast]
    simp [extent]
    omega
  rw [← hext]
  refine h.grow (by simp) (hheld.change ((hold.cons _).trans (List.Perm.swap ..)) hnew rfl rfl ?_
    ⟨?_, ?_, le64_storeLe (by unfold blockHeaderBytes at hroom; omega), ?_, hreqs⟩) ?_ ?_ ?_
    (by omega)
  · intro x hx
    refine storeLe_of_not_inside ?_ ?_ hx <;> simp only [Cell.addr, Cell.len, blockHeaderBytes]
      <;> omega
  · rw [le64_congr fun x hge hlt => storeLe_outside (by omega)]
    exact hsize
  · rw [le32_congr fun x hge hlt => storeLe_outside (by omega)]
    exact hflag
  · have := extent_mod fun b hb => (h.sizes b hb).2
    have := h.start.2
    rw [h.heapEnd]
    omega
  · have hsame : (Cell.block (s.heapStart + extent xs) size r s.heapEnd).live
        = (Cell.block (s.heapStart + extent xs) size r 0).live := by cases r <;> rfl
    refine List.Perm.trans ?_ (hnew.filterMap _).symm
    rw [List.filterMap_cons, hsame, ← List.filterMap_cons]
    exact List.Perm.trans ((h.held.live.trans (hold.filterMap _)).cons _)
      ((List.Perm.swap _ (Cell.block s.heapEnd n (some req) 0) _).filterMap Cell.live)
  · refine List.Perm.trans ?_ (hnew.filterMap _).symm
    exact List.Perm.trans ((h.held.headers.trans (hold.filterMap _)).cons _) (List.Perm.swap ..)
  · intro b hb
    rcases List.mem_append.1 hb with hb | hb
    · exact h.sizes b (by rw [hblocks]; exact List.mem_append_left _ hb)
    · rcases List.mem_cons.1 hb with rfl | hb
      · exact h.sizes _ (by rw [hblocks]; exact List.mem_append_right _ (List.mem_singleton_self _))
      · rw [List.mem_singleton.1 hb]
        exact hn

/-- A block for `size` bytes at `a`: a free one of the large heap, or a new one at its end. -/
def Taken (fuel size : ℕ) (s : Allocators) (L : Layout) (a heapEnd : ℕ) : Prop :=
  (∃ xs n ys, L.blocks = xs ++ (n, none) :: ys ∧ a = s.heapStart + extent xs ∧
    heapEnd = s.heapEnd) ∨
  (∃ current, kallocWalk s.mem (roundUp size) fuel s.heapStart = some (current, false)) ∧
    a = s.heapEnd ∧ heapEnd = s.heapEnd + blockHeaderBytes + roundUp size

theorem roundUp_spec (hsize : 0 < size ∧ size ≤ 2 ^ 32) :
    size ≤ roundUp size ∧ 0 < roundUp size ∧ roundUp size % 16 = 0 := by
  unfold roundUp
  omega

theorem Placed.block_bounds (h : Placed P s L) (hbs : L.blocks = xs ++ (n, r) :: ys) :
    0 < n ∧ s.heapStart + extent xs + blockHeaderBytes + n ≤ s.heapEnd := by
  have hend := h.heapEnd
  have hext : extent L.blocks = extent xs + (blockHeaderBytes + n + extent ys) := by
    simp [extent, hbs]
  exact ⟨(h.sizes (n, r) (by simp [hbs])).1, by omega⟩

theorem Placed.taken_bounds {heapEnd : ℕ} (h : Placed P s L) (hsize : 0 < size ∧ size ≤ 2 ^ 32)
    (htaken : Taken fuel size s L a heapEnd) :
    s.heapStart ≤ a ∧ a + blockHeaderBytes < heapEnd ∧ s.heapEnd ≤ heapEnd := by
  have hend := h.heapEnd
  have hround := roundUp_spec hsize
  rcases htaken with ⟨xs, n, ys, hbs, rfl, rfl⟩ | ⟨-, rfl, rfl⟩
  · have hbounds := h.block_bounds hbs
    omega
  · omega

/-- A large block, taken from the heap or put behind it. -/
theorem Placed.kallocLarge (h : Placed P s L) (hsize : 0 < size ∧ size ≤ 2 ^ 32)
    (hfuel : L.blocks.length ≤ fuel)
    (hroom : ∀ current, kallocWalk s.mem (roundUp size) fuel s.heapStart = some (current, false) →
      s.heapEnd + blockHeaderBytes + roundUp size ≤ 2 ^ 64 ∧
        Clear s.heapEnd (s.heapEnd + blockHeaderBytes + roundUp size) L.paged) :
    ∃ a s' L', kallocLarge fuel size s = some (a + blockHeaderBytes, s') ∧
      Placed P { s' with live := (a + blockHeaderBytes, size) :: s'.live } L' ∧
      (L'.blocks.length ≤ L.blocks.length + 1 ∧ L'.blocks ≠ []) ∧
      Taken fuel size s L a s'.heapEnd ∧
      s'.heapStart = s.heapStart ∧ s'.pageBump = s.pageBump ∧ s'.live = s.live := by
  obtain ⟨hle, hround⟩ := roundUp_spec hsize
  by_cases hblocks : L.blocks = []
  · have hempty : le64 s.mem s.heapStart = 0 :=
      h.held.hold.ok (.start s.heapStart) (by simp [heapCells, hblocks])
    have hwalk : kallocWalk s.mem (roundUp size) fuel s.heapStart = some (s.heapStart, false) := by
      unfold kallocWalk
      rw [if_pos hempty]
    have hend : s.heapEnd = s.heapStart := by
      rw [h.heapEnd, hblocks]
      rfl
    obtain ⟨hfit, hclear⟩ := hroom _ hwalk
    have hstart : s.heapStart + blockHeaderBytes < 2 ^ 64 := by omega
    exact ⟨_, _, _, kallocLarge_first hwalk hempty hstart, h.first hblocks hround hle hfit hclear,
      by simp [hblocks], .inr ⟨⟨_, hwalk⟩, hend.symm, by rw [hend]⟩, rfl, rfl, rfl⟩
  · have hok : ∀ c ∈ blockCells s.heapStart L.blocks, c.Ok s.mem := by
      intro c hc
      refine h.held.hold.ok c (List.mem_append_left _ ?_)
      rwa [heapCells, if_neg hblocks]
    rcases kallocWalk_spec (roundUp size) hblocks hok (fun b hb => (h.sizes b hb).1) hfuel with
      ⟨xs, n, ys, hbs, hlong, hwalk⟩ | ⟨xs, n, r, hbs, hwalk⟩
    · have hend := h.held.bound _ (List.mem_append_left _ (mem_heapCells_block s.heapStart hbs))
      simp only [Cell.addr, Cell.len] at hend
      refine ⟨_, _, { L with blocks := xs ++ (n, some size) :: ys },
        kallocLarge_taken hwalk (by omega), ?_, by simp [hbs], .inl ⟨xs, n, ys, hbs, rfl, rfl⟩,
        rfl, rfl, rfl⟩
      refine h.flag hbs (by decide) (by simp) ?_ fun next rest hlive => hlive.cons _
      intro q hq
      obtain rfl := Option.some.inj hq
      omega
    · have hlast : s.heapStart + extent xs + blockHeaderBytes + n = s.heapEnd := by
        rw [h.heapEnd, hbs]
        simp [extent]
        omega
      obtain ⟨hfit, hclear⟩ := hroom _ hwalk
      have hn : le64 s.mem (s.heapStart + extent xs) = n ∧ 0 < n :=
        ⟨(h.held.hold.ok _ (List.mem_append_left _ (mem_heapCells_block _ hbs))).1,
          (h.sizes (n, r) (by simp [hbs])).1⟩
      exact ⟨_, _, { L with blocks := xs ++ [(n, r), (roundUp size, some size)] },
        kallocLarge_grown hwalk hn hlast (by omega), h.append hbs hround hle hfit hclear,
        by simp [hbs], .inr ⟨⟨_, hwalk⟩, rfl, rfl⟩, rfl, rfl, rfl⟩

end Placed

section Disjoint

variable {P : Place → Prop} {s : Allocators} {H : List Cell} {L : Layout} {c d : Cell} {x : ℕ}
  {r r' : ℕ × ℕ} {m : Buf} {b : UInt8}

namespace Cell

/-- The range is in the region, behind its header. -/
def Body (c : Cell) (r : ℕ × ℕ) : Prop :=
  (∀ h ∈ c.header, h.1 + h.2 ≤ r.1) ∧ c.addr ≤ r.1 ∧ r.1 + r.2 ≤ c.addr + c.len

theorem live_cases (h : c.live = some r) :
    (∃ a n req next, c = .block a n (some req) next ∧ r = (a + blockHeaderBytes, req)) ∨
      ∃ a ci req, c = .used a ci req ∧ r = (a + slabHeaderBytes, req) := by
  rcases c with a | ⟨a, n, _ | req, next⟩ | ⟨a, ci, next⟩ | ⟨a, ci, req⟩ | a <;>
    simp only [Cell.live, Option.some.injEq, reduceCtorEq] at h
  · exact .inl ⟨a, n, req, next, rfl, h.symm⟩
  · exact .inr ⟨a, ci, req, rfl, h.symm⟩

theorem header_within (h : c.header = some r) : r.1 = c.addr ∧ r.2 ≤ c.len := by
  cases c with
  | start a | block a n req next =>
    obtain rfl := Option.some.inj h
    simp [addr, len]
  | free a ci next | used a ci req =>
    obtain rfl := Option.some.inj h
    have := (classSizes_spec ci).1
    simp only [addr, len, slabHeaderBytes, true_and]
    omega
  | page a => simp [Cell.header] at h

theorem body_block {a n next : ℕ} {req : Option ℕ} (hr : r.1 = a + blockHeaderBytes ∧ r.2 ≤ n) :
    (Cell.block a n req next).Body r := by
  simp only [Body, Cell.header, Option.mem_some_iff, forall_eq', Cell.addr, Cell.len]
  omega

theorem body_used {a req : ℕ} {ci : Fin slabClasses}
    (hr : r.1 = a + slabHeaderBytes ∧ r.2 + slabHeaderBytes ≤ classSizes ci) :
    (Cell.used a ci req).Body r := by
  simp only [Body, Cell.header, Option.mem_some_iff, forall_eq', Cell.addr, Cell.len]
  omega

theorem body_of_live (hok : c.Ok m) (h : c.live = some r) : c.Body r := by
  rcases live_cases h with ⟨a, n, req, next, rfl, rfl⟩ | ⟨a, ci, req, rfl, rfl⟩
  · exact body_block ⟨rfl, hok.2.2.2.2 req rfl⟩
  · exact body_used ⟨rfl, hok.2.2⟩

theorem body_of_pageAt {p : ℕ} (h : c.pageAt = some p) : c.Body (p, vmPageSize) := by
  cases c with
  | page a =>
    obtain rfl := Option.some.inj h
    exact ⟨by simp [Cell.header], le_rfl, le_rfl⟩
  | _ => simp [Cell.pageAt] at h

/-- A store behind the header of a region that someone holds. -/
theorem ok_store (hok : c.Ok m) (hheld : c.live.isSome ∨ c.pageAt.isSome)
    (hx : ∀ h ∈ c.header, h.1 + h.2 ≤ x) : c.Ok (Function.update m x b) := by
  have hbelow : ∀ y < x, Function.update m x b y = m y := fun y hy =>
    Function.update_of_ne hy.ne _ _
  rcases hheld with hlive | hpage
  · obtain ⟨r, hr⟩ := Option.isSome_iff_exists.1 hlive
    rcases live_cases hr with ⟨a, n, req, next, rfl, rfl⟩ | ⟨a, ci, req, rfl, rfl⟩
    · simp only [Cell.header, Option.mem_some_iff, forall_eq', blockHeaderBytes] at hx
      simp only [Cell.Ok] at hok ⊢
      rwa [le64_congr fun y hge hlt => hbelow y (by omega),
        le32_congr fun y hge hlt => hbelow y (by omega),
        le64_congr fun y hge hlt => hbelow y (by omega)]
    · simp only [Cell.header, Option.mem_some_iff, forall_eq', slabHeaderBytes] at hx
      simp only [Cell.Ok] at hok ⊢
      rwa [le32_congr fun y hge hlt => hbelow y (by omega),
        le32_congr fun y hge hlt => hbelow y (by omega)]
  · cases c with
    | page a => trivial
    | _ => simp [Cell.pageAt] at hpage

end Cell

theorem inRange_bounds (hr : r.1 + r.2 ≤ 2 ^ 64) (hx : InRange r x) : r.1 ≤ x ∧ x < r.1 + r.2 := by
  obtain ⟨i, hi, rfl⟩ := hx
  rw [Nat.mod_eq_of_lt (by omega)]
  omega

/-- A range behind the header and the header. -/
theorem Cell.pairwise_parts {f : List (ℕ × ℕ)} (hc : c.addr + c.len ≤ 2 ^ 64)
    (hone : f.length ≤ 1) (hf : ∀ r ∈ f, c.Body r) :
    (f ++ c.header.toList).Pairwise fun r r' => ∀ a, InRange r a → ¬ InRange r' a := by
  rcases f with _ | ⟨r, _ | ⟨r', f⟩⟩
  · cases c.header <;> simp
  · obtain ⟨hheader, hge, hle⟩ := hf r (List.mem_singleton_self _)
    cases hhead : c.header with
    | none => simp
    | some h =>
      have hbefore := hheader h hhead
      refine List.pairwise_pair.2 fun x hx hx' => ?_
      have := inRange_bounds (by omega) hx
      have := inRange_bounds (by omega) hx'
      omega
  · simp at hone

/-- What lies behind the headers of the regions, one range at most of each, and the headers. -/
theorem Held.pairwise_parts (h : Held P s H L) (f : Cell → List (ℕ × ℕ))
    (hone : ∀ c, (f c).length ≤ 1) (hf : ∀ c ∈ H ++ L.paged, ∀ r ∈ f c, c.Body r) :
    ((H ++ L.paged).flatMap fun c => f c ++ c.header.toList).Pairwise
      fun r r' => ∀ a, InRange r a → ¬ InRange r' a := by
  have hinside : ∀ c ∈ H ++ L.paged, ∀ r ∈ f c ++ c.header.toList, ∀ a, InRange r a →
      kind.Inside c a := by
    intro c hc r hr a ha
    have hend := h.bound c hc
    rcases List.mem_append.1 hr with hr | hr
    · obtain ⟨-, hge, hle⟩ := hf c hc r hr
      obtain ⟨hge', hlt⟩ := inRange_bounds (by omega) ha
      exact ⟨hge.trans hge', hlt.trans_le hle⟩
    · obtain ⟨haddr, hle⟩ := Cell.header_within (Option.mem_toList.1 hr)
      obtain ⟨hge', hlt⟩ := inRange_bounds (by omega) ha
      refine ⟨?_, ?_⟩ <;> simp only [kind] <;> omega
  refine h.hold.pairwise_flatMap _ ?_ ?_
  · intro c hc
    exact Cell.pairwise_parts (h.bound c hc) (hone c) (hf c hc)
  · intro c hc d hd hapart r hr r' hr' a ha ha'
    exact hapart.not_inside (hinside d hd r' hr' a ha') (hinside c hc r hr a ha)

theorem apart_symm {r r' : ℕ × ℕ} (h : ∀ a, InRange r a → ¬ InRange r' a) :
    ∀ a, InRange r' a → ¬ InRange r a :=
  fun a hr' hr => h a hr hr'

theorem Held.pairwiseDisjoint (h : Held P s H L) : PairwiseDisjoint s := by
  have hranges : (ranges s).Perm ((H ++ L.paged).flatMap fun c =>
      (c.live.toList ++ (c.pageAt.map fun p => (p, vmPageSize)).toList) ++ c.header.toList) := by
    have hpages := h.pages.map fun p => (p, vmPageSize)
    rw [List.map_filterMap] at hpages
    refine ((h.live.append hpages).append h.headers).trans ?_
    simp only [List.filterMap_eq_flatMap_toList]
    exact ((List.flatMap_append_perm ..).append_right _).trans (List.flatMap_append_perm ..)
  refine (hranges.pairwise_iff apart_symm).2 (h.pairwise_parts _ ?_ ?_)
  · rintro (a | ⟨a, n, _ | req, next⟩ | ⟨a, ci, next⟩ | ⟨a, ci, req⟩ | a) <;>
      simp [Cell.live, Cell.pageAt]
  · intro c hc r hr
    rcases List.mem_append.1 hr with hr | hr
    · exact Cell.body_of_live (h.hold.ok c hc) (Option.mem_toList.1 hr)
    · obtain ⟨p, hp, rfl⟩ := Option.map_eq_some_iff.1 (Option.mem_toList.1 hr)
      exact Cell.body_of_pageAt hp

/-- A store to a region by whoever holds it. -/
theorem Held.store (h : Held P s H L) (hc : c ∈ H ++ L.paged)
    (hheld : c.live.isSome ∨ c.pageAt.isSome) (hbody : c.Body r) (hx : InRange r x) :
    Held P { s with mem := Function.update s.mem x b } H L := by
  obtain ⟨hheader, hge, hle⟩ := hbody
  have hend := h.bound c hc
  obtain ⟨hge', hlt⟩ := inRange_bounds (by omega) hx
  obtain ⟨l, l', hsplit⟩ := List.append_of_mem hc
  have hperm : (H ++ L.paged).Perm (c :: (l ++ l')) := hsplit ▸ List.perm_middle
  refine h.change hperm hperm rfl ?_ (Cell.ok_store (h.hold.ok c hc) hheld fun hd hhd => ?_)
    ⟨rfl, rfl⟩ (h.live.trans (hperm.filterMap _)) h.area h.lists
  · intro y hy
    have hne : y ≠ x := by
      rintro rfl
      exact hy ⟨hge.trans hge', hlt.trans_le hle⟩
    exact Function.update_of_ne hne _ _
  · exact (hheader hd hhd).trans hge'

end Disjoint

section Freed

variable {P : Place → Prop} {s : Allocators} {L : Layout} {c : Cell} {r : ℕ × ℕ} {ptr : ℕ}

theorem mem_nodeCells {ci : Fin slabClasses} :
    ∀ {as : List ℕ}, c ∈ nodeCells ci as → ∃ a next, c = .free a ci next
  | [], hc => by simp [nodeCells] at hc
  | a :: as, hc => by
    rcases List.mem_cons.1 hc with rfl | hc
    · exact ⟨a, ptrOf as, rfl⟩
    · exact mem_nodeCells hc

/-- A slot in use is not among the free ones. -/
theorem mem_others_of_used {a req : ℕ} {ci : Fin slabClasses} (hc : .used a ci req ∈ L.paged) :
    .used a ci req ∈ L.others := by
  refine (List.mem_append.1 hc).resolve_left fun hc => ?_
  obtain ⟨cj, hc⟩ := mem_freeCells.1 hc
  obtain ⟨a', next, heq⟩ := mem_nodeCells hc
  cases heq

theorem kfree_some {s' : Allocators} (hptr : ptr ≠ 0) (h : slabFree ptr s = some s') :
    kfree ptr s = s' := by
  simp only [kfree, if_neg hptr, h]

theorem kfree_none (h : slabFree ptr s = none) : kfree ptr s = kfreeLarge ptr s := by
  unfold kfree
  split_ifs with hptr
  · simp only [kfreeLarge, if_pos hptr]
  · rw [h]

/-- The blocks of the large heap are those with the regions of the large heap. -/
theorem Placed.block_of_mem {a n next : ℕ} {req : Option ℕ} (h : Placed P s L)
    (hc : .block a n req next ∈ heapCells s.heapStart L.blocks ++ L.paged) :
    ∃ xs ys, L.blocks = xs ++ (n, req) :: ys ∧ a = s.heapStart + extent xs := by
  have hheap := (List.mem_append.1 hc).resolve_right fun hc => h.paged _ _ (h.held.area _ hc)
  rcases mem_heapCells hheap with heq | ⟨xs, n', r', ys, hbs, heq⟩
  · cases heq
  · obtain ⟨rfl, rfl, rfl, -⟩ := Cell.block.inj heq
    exact ⟨xs, ys, hbs, rfl⟩

theorem Placed.used_of_mem {a req : ℕ} {ci : Fin slabClasses}
    (hc : .used a ci req ∈ heapCells s.heapStart L.blocks ++ L.paged) :
    .used a ci req ∈ L.others := by
  refine mem_others_of_used ((List.mem_append.1 hc).resolve_left fun hc => ?_)
  rcases mem_heapCells hc with heq | ⟨xs, n, r, ys, -, heq⟩ <;> cases heq

/-- A large block is marked free. -/
theorem Placed.freeLarge {a n req next : ℕ} {live : List (ℕ × ℕ)} (h : Placed P s L)
    (hc : .block a n (some req) next ∈ heapCells s.heapStart L.blocks ++ L.paged)
    (hlive : s.live.Perm ((a + blockHeaderBytes, req) :: live)) :
    ∃ L', Placed P { kfreeLarge (a + blockHeaderBytes) s with live := live } L' ∧
      L'.blocks.length = L.blocks.length := by
  have hend := h.held.bound _ hc
  obtain ⟨xs, ys, hbs, rfl⟩ := h.block_of_mem hc
  simp only [Cell.addr, Cell.len, blockHeaderBytes] at hend
  rw [kfreeLarge_block s (by omega)]
  refine ⟨{ L with blocks := xs ++ (n, none) :: ys }, ?_, by simp [hbs]⟩
  exact h.flag hbs (by decide) (by simp) (by simp) fun next rest hrest =>
    (hlive.symm.trans hrest).cons_inv

/-- What is live of a slab goes back to its class, what is live of the large heap is marked. -/
theorem Placed.freed {live : List (ℕ × ℕ)} (h : Placed P s L)
    (hc : c ∈ heapCells s.heapStart L.blocks ++ L.paged) (hcell : c.live = some r)
    (hlive : s.live.Perm (r :: live)) :
    ∃ L', Placed P { kfree r.1 s with live := live } L' ∧ L'.blocks.length = L.blocks.length := by
  have hend := h.held.bound c hc
  have hok := h.held.hold.ok c hc
  rcases Cell.live_cases hcell with ⟨a, n, req, next, rfl, rfl⟩ | ⟨a, ci, req, rfl, rfl⟩
  · simp only [Cell.addr, Cell.len] at hend
    rw [kfree_none (slabFree_block hok (by omega))]
    exact h.freeLarge hc hlive
  · obtain ⟨s', L', hfree, h', hblocks, hstart, hheap⟩ :=
      h.held.push (Placed.used_of_mem hc) hlive
    rw [kfree_some (by simp [slabHeaderBytes]) hfree]
    exact ⟨L', h.of_held h' h.paged hblocks hstart hheap, by rw [hblocks]⟩

theorem kfree_frame (ptr : ℕ) (s : Allocators) :
    (kfree ptr s).pageBump = s.pageBump ∧ (kfree ptr s).heapStart = s.heapStart ∧
      (kfree ptr s).heapEnd = s.heapEnd := by
  cases hfree : slabFree ptr s with
  | none =>
    rw [kfree_none hfree]
    unfold kfreeLarge
    split_ifs <;> exact ⟨rfl, rfl, rfl⟩
  | some s' =>
    have hptr : ptr ≠ 0 := by
      rintro rfl
      simp [slabFree] at hfree
    rw [kfree_some hptr hfree]
    simp only [slabFree] at hfree
    split_ifs at hfree
    obtain rfl := Option.some.inj hfree
    exact ⟨rfl, rfl, rfl⟩

end Freed

end Alloc

end PeanutKernel
