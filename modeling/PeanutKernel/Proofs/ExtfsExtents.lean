import PeanutKernel.Lib.SplitSearch
import PeanutKernel.Proofs.ExtfsOverwrite

/-!
# The extents of a file

`map_extents_recurse` against the list of extents in the leaves of a well-formed tree. The length
of an extent is stored as it is up to `2 ^ 15`, but the code takes it modulo `2 ^ 15`, so it sees
every extent but one of the maximal length, which it takes to be empty. In an index node without
entries it follows whatever stands in the place of the first one (`map_extents_iff`).
-/

namespace PeanutKernel

namespace Ext

open SplitSearch

variable {v : ExtVolume} {m : Medium} {node : Buf} {d cap lbn : ℕ}

section Extents

/-- The `len` blocks of a file from `block` on are those of the volume from `start` on. -/
structure Extent where
  block : ℕ
  len : ℕ
  start : ℕ
  deriving DecidableEq, Repr

/-- The file block after the last one. -/
def Extent.stop (e : Extent) : ℕ := e.block + e.len

/-- Where a file block in the extent stands. -/
def Extent.place (e : Extent) (lbn : ℕ) : ℕ := e.start + (lbn - e.block)

def Extent.Covers (e : Extent) (lbn : ℕ) : Prop := e.block ≤ lbn ∧ lbn < e.stop

instance (e : Extent) (lbn : ℕ) : Decidable (e.Covers lbn) := inferInstanceAs (Decidable (_ ∧ _))

/-- The extent as the code takes it. -/
def Extent.seen (e : Extent) : Extent := { e with len := e.len % 2 ^ 15 }

/-- The block of the volume by the extent that covers `lbn`, 0 if there is none. -/
def mapping (es : List Extent) (lbn : ℕ) : ℕ :=
  ((es.find? fun e => e.Covers lbn).map (·.place lbn)).getD 0

/-- The fields of an extent are in the range of the format. -/
structure Extent.Valid (e : Extent) : Prop where
  pos : 1 ≤ e.len
  le : e.len ≤ 2 ^ 15
  stop_lt : e.stop < 2 ^ 32
  place_lt : e.start + e.len < 2 ^ 32

instance (e : Extent) : Decidable e.Valid :=
  decidable_of_iff
    (1 ≤ e.len ∧ e.len ≤ 2 ^ 15 ∧ e.stop < 2 ^ 32 ∧ e.start + e.len < 2 ^ 32)
    ⟨fun h => ⟨h.1, h.2.1, h.2.2.1, h.2.2.2⟩, fun h => ⟨h.pos, h.le, h.stop_lt, h.place_lt⟩⟩

theorem Extent.Covers.of_seen {e : Extent} (h : e.seen.Covers lbn) : e.Covers lbn :=
  ⟨h.1, h.2.trans_le (Nat.add_le_add_left (Nat.mod_le _ _) _)⟩

theorem Extent.Valid.seen_covers_iff {e : Extent} (h : e.Valid) :
    e.seen.Covers lbn ↔ e.Covers lbn ∧ e.len ≠ 2 ^ 15 := by
  have := h.le
  simp only [Covers, seen, stop]
  omega

variable {es : List Extent}

theorem mapping_cons_of_covers {e : Extent} (h : e.Covers lbn) :
    mapping (e :: es) lbn = e.place lbn := by
  simp [mapping, h]

theorem mapping_cons_of_not {e : Extent} (h : ¬ e.Covers lbn) :
    mapping (e :: es) lbn = mapping es lbn := by
  simp [mapping, h]

theorem mapping_eq_zero (h : ∀ e ∈ es, ¬ e.Covers lbn) : mapping es lbn = 0 := by
  have hnone : (es.find? fun e => e.Covers lbn) = none := by simpa using h
  simp [mapping, hnone]

/-- In a list of disjoint extents, taking the lengths modulo `2 ^ 15` only loses those of length
`2 ^ 15`. -/
theorem mapping_seen_iff (hvalid : ∀ e ∈ es, e.Valid)
    (hsorted : es.Pairwise fun e f => e.stop ≤ f.block) :
    mapping (es.map Extent.seen) lbn = mapping es lbn ↔
      ¬ ∃ e ∈ es, e.Covers lbn ∧ e.len = 2 ^ 15 ∧ e.place lbn ≠ 0 := by
  induction es with
  | nil => simp [mapping]
  | cons e es ih =>
    obtain ⟨hbefore, hsorted⟩ := List.pairwise_cons.1 hsorted
    obtain ⟨he, hvalid⟩ := List.forall_mem_cons.1 hvalid
    rw [List.map_cons, List.exists_mem_cons_iff]
    by_cases hc : e.Covers lbn
    · have hlater : ∀ f ∈ es, ¬ f.Covers lbn := fun f hf hcf =>
        Nat.not_lt.2 ((hbefore f hf).trans hcf.1) hc.2
      have hno : ¬ ∃ f ∈ es, f.Covers lbn ∧ f.len = 2 ^ 15 ∧ f.place lbn ≠ 0 := by
        rintro ⟨f, hf, hcf, -⟩
        exact hlater f hf hcf
      rw [mapping_cons_of_covers hc]
      by_cases hlen : e.len = 2 ^ 15
      · have hseen : mapping (e.seen :: es.map Extent.seen) lbn = 0 := by
          refine mapping_eq_zero fun f hf => ?_
          rcases List.mem_cons.1 hf with rfl | hf
          · exact fun h => (he.seen_covers_iff.1 h).2 hlen
          · obtain ⟨g, hg, rfl⟩ := List.mem_map.1 hf
            exact fun h => hlater g hg h.of_seen
        rw [hseen]
        exact ⟨fun h => not_or.2 ⟨fun he => he.2.2 h.symm, hno⟩,
          fun h => (not_not.1 fun hne => h (.inl ⟨hc, hlen, fun hz => hne hz.symm⟩))⟩
      · rw [mapping_cons_of_covers (he.seen_covers_iff.2 ⟨hc, hlen⟩)]
        exact iff_of_true rfl (not_or.2 ⟨fun he => hlen he.2.1, hno⟩)
    · rw [mapping_cons_of_not hc, mapping_cons_of_not fun h => hc h.of_seen, ih hvalid hsorted]
      simp [hc]

end Extents

section Tree

/-- A block of the volume. -/
def blockAt (v : ExtVolume) (m : Medium) (pb : ℕ) : Buf := fun i =>
  if i < v.blockSize then m.byte (blockByte v pb i) else 0

/-- The extent an entry of a leaf stores. -/
def extentAt (ex : Buf) : Extent := ⟨le32 ex 0, le16 ex 4, le32 ex 8⟩

/-- The first file block below an entry of an index node. -/
def indexKey (node : Buf) (i : ℕ) : ℕ := le32 (nodeEntry node i) 0

/-- The node below an entry of an index node. -/
def child (v : ExtVolume) (m : Medium) (node : Buf) (i : ℕ) : Buf :=
  blockAt v m (le32 (nodeEntry node i) 4)

/-- The extents in the leaves of a tree of depth `d`, in order. -/
def treeExtents (v : ExtVolume) (m : Medium) : ℕ → Buf → List Extent
  | 0, node => (List.range (nodeEntries node)).map fun i => extentAt (nodeEntry node i)
  | d + 1, node =>
    (List.range (nodeEntries node)).flatMap fun i => treeExtents v m d (child v m node i)

/-- The header of a node of `cap` bytes. -/
structure NodeHeader (d cap : ℕ) (node : Buf) : Prop where
  magic : nodeMagic node = extentMagic
  depth : nodeDepth node = d
  entries : 12 + 12 * nodeEntries node ≤ cap

/-- A well-formed tree of depth `d` whose root has `cap` bytes. -/
def WellFormed (v : ExtVolume) (m : Medium) : ℕ → ℕ → Buf → Prop
  | 0, cap, node => NodeHeader 0 cap node ∧
      (∀ i < nodeEntries node,
        (extentAt (nodeEntry node i)).Valid ∧ le16 (nodeEntry node i) 6 = 0) ∧
      (treeExtents v m 0 node).Pairwise fun e f => e.stop ≤ f.block
  | d + 1, cap, node => NodeHeader (d + 1) cap node ∧
      (∀ i < nodeEntries node, le16 (nodeEntry node i) 8 = 0 ∧
        WellFormed v m d v.blockSize (child v m node i)) ∧
      Split (indexKey node) (fun i => treeExtents v m d (child v m node i)) Extent.block Extent.stop
        (nodeEntries node)

theorem WellFormed.header : ∀ {d : ℕ}, WellFormed v m d cap node → NodeHeader d cap node
  | 0, h => h.1
  | _ + 1, h => h.1

theorem WellFormed.valid :
    ∀ {d cap : ℕ} {node : Buf}, WellFormed v m d cap node → ∀ e ∈ treeExtents v m d node, e.Valid
  | 0, _, node, h => by
    intro e he
    obtain ⟨i, hi, rfl⟩ := List.mem_map.1 he
    exact (h.2.1 i (List.mem_range.1 hi)).1
  | d + 1, _, node, h => by
    intro e he
    obtain ⟨i, hi, he⟩ := List.mem_flatMap.1 he
    exact (h.2.1 i (List.mem_range.1 hi)).2.valid e he

theorem WellFormed.sorted :
    ∀ {d cap : ℕ} {node : Buf}, WellFormed v m d cap node →
      (treeExtents v m d node).Pairwise fun e f => e.stop ≤ f.block
  | 0, _, node, h => h.2.2
  | d + 1, _, node, h => by
    obtain ⟨-, hsub, hsplit⟩ := h
    rw [treeExtents, List.pairwise_flatMap]
    refine ⟨fun i hi => (hsub i (List.mem_range.1 hi)).2.sorted, ?_⟩
    refine List.pairwise_lt_range.imp_of_mem fun {i j} _ hj hij e he f hf => ?_
    rw [List.mem_range] at hj
    exact (hsplit.upper i j hij hj e he).trans (hsplit.lower j hj f hf)

end Tree

section Lookup

theorem extentBlock_eq {ex : Buf} (h : (extentAt ex).Valid) (hhi : le16 ex 6 = 0) (lbn : ℕ) :
    extentBlock ex lbn
      = if (extentAt ex).seen.Covers lbn then some ((extentAt ex).seen.place lbn) else none := by
  have hstop : le32 ex 0 + le16 ex 4 < 2 ^ 32 := h.stop_lt
  have hplace : le32 ex 8 + le16 ex 4 < 2 ^ 32 := h.place_lt
  have hmod : le16 ex 4 % 2 ^ 15 ≤ le16 ex 4 := Nat.mod_le _ _
  have hiff : (extentAt ex).seen.Covers lbn ↔
      le32 ex 0 ≤ lbn ∧ lbn < le32 ex 0 + le16 ex 4 % 2 ^ 15 := Iff.rfl
  simp only [extentBlock, hhi, Nat.zero_mul, Nat.or_zero]
  rw [Nat.mod_eq_of_lt (a := le32 ex 0 + le16 ex 4 % 2 ^ 15) (by omega)]
  by_cases hc : (extentAt ex).seen.Covers lbn
  · rw [if_pos hc]
    rw [hiff] at hc
    rw [if_neg (by omega), Nat.mod_eq_of_lt (by omega)]
    rfl
  · rw [if_neg hc]
    rw [hiff] at hc
    rw [if_pos (by omega)]

theorem findSome?_eq_mapping {g : ℕ → Option ℕ} {e : ℕ → Extent} :
    ∀ l : List ℕ, (∀ i ∈ l, g i = if (e i).Covers lbn then some ((e i).place lbn) else none) →
      (l.findSome? g).getD 0 = mapping (l.map e) lbn
  | [], _ => rfl
  | i :: l, h => by
    obtain ⟨hi, hl⟩ := List.forall_mem_cons.1 h
    rw [List.findSome?_cons, hi, List.map_cons]
    by_cases hc : (e i).Covers lbn
    · rw [mapping_cons_of_covers hc]
      simp [hc]
    · rw [mapping_cons_of_not hc, ← findSome?_eq_mapping l hl]
      simp [hc]

theorem leafBlock_eq (h : WellFormed v m 0 cap node) (lbn : ℕ) :
    leafBlock node lbn = mapping ((treeExtents v m 0 node).map Extent.seen) lbn := by
  rw [treeExtents, List.map_map]
  refine findSome?_eq_mapping _ fun i hi => ?_
  obtain ⟨hvalid, hhi⟩ := h.2.1 i (List.mem_range.1 hi)
  exact extentBlock_eq hvalid hhi lbn

theorem mapExtentsRecurse_leaf (hmagic : nodeMagic node = extentMagic) (hdepth : nodeDepth node = 0)
    (fuel : ℕ) : mapExtentsRecurse v lbn fuel node = pure (leafBlock node lbn) := by
  cases fuel <;> simp [mapExtentsRecurse, hmagic, hdepth]

theorem mapExtentsRecurse_index (hmagic : nodeMagic node = extentMagic)
    (hdepth : nodeDepth node ≠ 0) (hbs : v.blockSize ≤ 4096) (fuel : ℕ) :
    mapExtentsRecurse v lbn (fuel + 1) node = (do
      let ix := nodeEntry node (pickIndex node lbn)
      match ← readBlockFull v (le32 ix 4 ||| le16 ix 8 * 2 ^ 16) with
      | none => pure 0
      | some buf => mapExtentsRecurse v lbn fuel buf) := by
  rw [mapExtentsRecurse, if_neg (not_not.2 hmagic), if_neg hdepth]
  exact (if_neg (Nat.not_lt.2 hbs)).trans rfl

theorem mapping_pick {key : ℕ → ℕ} {part : ℕ → List Extent} {n : ℕ}
    (h : Split key part Extent.block Extent.stop n) (hn : 0 < n) :
    mapping (((List.range n).flatMap part).map Extent.seen) lbn
      = mapping ((part (lastLe key lbn n)).map Extent.seen) lbn := by
  rw [mapping, mapping, List.find?_map, List.find?_map, h.find?_flatMap hn]
  intro e he
  exact (of_decide_eq_true he : e.seen.Covers lbn).of_seen

/-- The block the code goes to from the first index node without entries on its way to `lbn`: the
one named where the first entry would stand. -/
def staleChild (v : ExtVolume) (m : Medium) (lbn : ℕ) : ℕ → Buf → Option Buf
  | 0, _ => none
  | d + 1, node =>
    if nodeEntries node = 0 then
      some (blockAt v m (le32 (nodeEntry node 0) 4 ||| le16 (nodeEntry node 0) 8 * 2 ^ 16))
    else staleChild v m lbn d (child v m node (pickIndex node lbn))

theorem mapExtentsRecurse_succ_run (hm : m.Good) (hbs : v.blockSize ≤ 4096)
    (hhead : NodeHeader (d + 1) cap node) (fuel : ℕ) :
    (mapExtentsRecurse v lbn (fuel + 1) node).run m.read
      = (mapExtentsRecurse v lbn fuel (blockAt v m
          (le32 (nodeEntry node (pickIndex node lbn)) 4
            ||| le16 (nodeEntry node (pickIndex node lbn)) 8 * 2 ^ 16))).run m.read := by
  have hdepth : nodeDepth node ≠ 0 := by rw [hhead.depth]; exact Nat.succ_ne_zero d
  have hhi := le16_lt (nodeEntry node (pickIndex node lbn)) 8
  have hread := readBlockFull_run hm hbs (Nat.or_lt_two_pow
    (le32_lt (nodeEntry node (pickIndex node lbn)) 4)
    (show le16 (nodeEntry node (pickIndex node lbn)) 8 * 2 ^ 16 < 2 ^ 32 by omega))
  rw [mapExtentsRecurse_index hhead.magic hdepth hbs]
  simp only [Query.run_bind, hread, Option.bind_some]
  rfl

theorem mapExtentsRecurse_zero_run (hhead : NodeHeader (d + 1) cap node) :
    (mapExtentsRecurse v lbn 0 node).run m.read = none := by
  rw [mapExtentsRecurse, if_neg (not_not.2 hhead.magic), hhead.depth, if_neg (Nat.succ_ne_zero d)]
  rfl

theorem WellFormed.picked (h : WellFormed v m (d + 1) cap node) (hn : nodeEntries node ≠ 0)
    (lbn : ℕ) :
    WellFormed v m d v.blockSize (child v m node (pickIndex node lbn)) ∧
      blockAt v m (le32 (nodeEntry node (pickIndex node lbn)) 4
        ||| le16 (nodeEntry node (pickIndex node lbn)) 8 * 2 ^ 16)
      = child v m node (pickIndex node lbn) := by
  obtain ⟨hhi, hchild⟩ := h.2.1 (pickIndex node lbn) (lastLe_lt (Nat.pos_iff_ne_zero.2 hn))
  exact ⟨hchild, by rw [hhi, Nat.zero_mul, Nat.or_zero]; rfl⟩

/-- The extents the code sees are those of the tree with their lengths modulo `2 ^ 15`. -/
theorem mapExtentsRecurse_run (hm : m.Good) (hbs : v.blockSize ≤ 4096) (lbn : ℕ) :
    ∀ {d cap fuel : ℕ} {node : Buf}, WellFormed v m d cap node → staleChild v m lbn d node = none →
      d ≤ fuel → (mapExtentsRecurse v lbn fuel node).run m.read
        = some (mapping ((treeExtents v m d node).map Extent.seen) lbn)
  | 0, _, fuel, node, h, _, _ => by
    rw [mapExtentsRecurse_leaf h.header.magic h.header.depth, leafBlock_eq h, Query.run_pure]
  | d + 1, _, fuel, node, h, hstale, hfuel => by
    obtain ⟨fuel, rfl⟩ : ∃ f, fuel = f + 1 := ⟨fuel - 1, by omega⟩
    rw [staleChild] at hstale
    split_ifs at hstale with hn
    obtain ⟨hchild, hblock⟩ := h.picked hn lbn
    rw [mapExtentsRecurse_succ_run hm hbs h.header, hblock, treeExtents,
      mapping_pick h.2.2 (Nat.pos_iff_ne_zero.2 hn)]
    exact mapExtentsRecurse_run hm hbs lbn hchild hstale (by omega)

/-- No extent is below an index node without entries, and the code returns what it finds in the
block it goes to from there. -/
theorem mapExtentsRecurse_stale (hm : m.Good) (hbs : v.blockSize ≤ 4096) (lbn : ℕ) {buf : Buf} :
    ∀ {d cap : ℕ} {node : Buf}, WellFormed v m d cap node →
      staleChild v m lbn d node = some buf →
      (∀ e ∈ treeExtents v m d node, ¬ e.Covers lbn) ∧
        ∀ a, (∃ fuel, (mapExtentsRecurse v lbn fuel node).run m.read = some a)
          ↔ ∃ fuel, (mapExtentsRecurse v lbn fuel buf).run m.read = some a
  | 0, _, _, _, hstale => by cases hstale
  | d + 1, _, node, h, hstale => by
    have hstep : ∀ a, (∃ fuel, (mapExtentsRecurse v lbn fuel node).run m.read = some a)
        ↔ ∃ fuel, (mapExtentsRecurse v lbn fuel (blockAt v m
          (le32 (nodeEntry node (pickIndex node lbn)) 4
            ||| le16 (nodeEntry node (pickIndex node lbn)) 8 * 2 ^ 16))).run m.read = some a := by
      intro a
      constructor
      · rintro ⟨_ | fuel, hrun⟩
        · rw [mapExtentsRecurse_zero_run h.header] at hrun
          cases hrun
        · exact ⟨fuel, by rwa [mapExtentsRecurse_succ_run hm hbs h.header] at hrun⟩
      · rintro ⟨fuel, hrun⟩
        exact ⟨fuel + 1, by rwa [mapExtentsRecurse_succ_run hm hbs h.header]⟩
    rw [staleChild] at hstale
    split_ifs at hstale with hn
    · have hpick : pickIndex node lbn = 0 := by
        rw [pickIndex, hn]
        rfl
      rw [hpick, Option.some_inj.1 hstale] at hstep
      refine ⟨?_, hstep⟩
      rw [treeExtents, hn]
      exact fun e he => by cases he
    · obtain ⟨hchild, hblock⟩ := h.picked hn lbn
      obtain ⟨hnone, hrun⟩ := mapExtentsRecurse_stale hm hbs lbn hchild hstale
      rw [hblock] at hstep
      refine ⟨fun e he hc => ?_, fun a => (hstep a).trans (hrun a)⟩
      obtain ⟨i, hi, he⟩ := List.mem_flatMap.1 he
      by_cases hpick : i = pickIndex node lbn
      · rw [hpick] at he
        exact hnone e he hc
      · exact h.2.2.not_around (List.mem_range.1 hi) hpick he hc

/-- If every index node on the way to `lbn` has an entry, the mapping is that of the tree just when
no extent of the maximal length covers `lbn`. If one has none, the mapping should be 0, and it is
just when the block the code goes to from there gives 0 for `lbn`. -/
theorem map_extents_iff (hm : m.Good) (hbs : v.blockSize ≤ 4096) (h : WellFormed v m d cap node)
    (lbn : ℕ) :
    (staleChild v m lbn d node = none → ∀ fuel, d ≤ fuel →
      ((mapExtentsRecurse v lbn fuel node).run m.read
          = some (mapping (treeExtents v m d node) lbn) ↔
        ¬ ∃ e ∈ treeExtents v m d node, e.Covers lbn ∧ e.len = 2 ^ 15 ∧ e.place lbn ≠ 0)) ∧
    (∀ buf, staleChild v m lbn d node = some buf → mapping (treeExtents v m d node) lbn = 0 ∧
      ((∃ fuel, (mapExtentsRecurse v lbn fuel node).run m.read = some 0) ↔
        ∃ fuel, (mapExtentsRecurse v lbn fuel buf).run m.read = some 0)) := by
  refine ⟨fun hstale fuel hfuel => ?_, fun buf hstale => ?_⟩
  · rw [mapExtentsRecurse_run hm hbs lbn h hstale hfuel, Option.some_inj]
    exact mapping_seen_iff h.valid h.sorted
  · obtain ⟨hnone, hrun⟩ := mapExtentsRecurse_stale hm hbs lbn h hstale
    exact ⟨mapping_eq_zero hnone, hrun 0⟩

/-- Block 5 is a leaf with two extents. -/
def leafMedium : Medium := sparseMedium
  [(5120, 0x0A), (5121, 0xF3), (5122, 2), (5132 + 4, 3), (5132 + 8, 40), (5144, 8), (5144 + 4, 2),
    (5144 + 8, 70)]

/-- The root above it. -/
def indexRoot : Buf := fun i =>
  [0x0A, 0xF3, 1, 0, 4, 0, 1, 0, 0, 0, 0, 0, 0, 0, 0, 0, 5].getD i 0

theorem indexRoot_wellFormed : WellFormed sampleVolume leafMedium 1 60 indexRoot := by
  have hleaf : WellFormed sampleVolume leafMedium 0 1024
      (child sampleVolume leafMedium indexRoot 0) :=
    ⟨⟨by decide +kernel, by decide +kernel, by decide +kernel⟩, by decide +kernel,
      by decide +kernel⟩
  have hone : ∀ i < nodeEntries indexRoot, i = 0 := by decide
  refine ⟨⟨by decide, by decide, by decide⟩, fun i hi => ?_, fun i hi => ?_,
    fun i j hij hj => ?_⟩
  · rw [hone i hi]
    exact ⟨by decide, hleaf⟩
  · rw [hone i hi]
    decide +kernel
  · have := hone j hj
    omega

theorem map_extents_iff_indexRoot :
    (mapExtentsRecurse sampleVolume 9 1 indexRoot).run leafMedium.read
      = some (mapping (treeExtents sampleVolume leafMedium 1 indexRoot) 9) := by
  refine ((map_extents_iff (fun _ => rfl) (by decide) indexRoot_wellFormed 9).1 (by decide) 1
    le_rfl).2 ?_
  decide +kernel

/-- A root with one extent of `2 ^ 15` blocks. -/
def longRoot : Buf := fun i =>
  [0x0A, 0xF3, 1, 0, 4, 0, 0, 0, 0, 0, 0, 0, 0, 0, 0, 0, 0, 0x80, 0, 0, 100].getD i 0

/-- A root that points to the leaf where its first entry would stand. -/
def emptyRoot : Buf := fun i => [0x0A, 0xF3, 0, 0, 4, 0, 1, 0, 0, 0, 0, 0, 0, 0, 0, 0, 5].getD i 0

theorem extents_mismapped :
    (WellFormed sampleVolume leafMedium 0 60 longRoot ∧
      mapping (treeExtents sampleVolume leafMedium 0 longRoot) 5 = 105 ∧
      (mapExtentsRecurse sampleVolume 5 0 longRoot).run leafMedium.read = some 0) ∧
    WellFormed sampleVolume leafMedium 1 60 emptyRoot ∧
      mapping (treeExtents sampleVolume leafMedium 1 emptyRoot) 9 = 0 ∧
      (mapExtentsRecurse sampleVolume 9 1 emptyRoot).run leafMedium.read = some 71 := by
  refine ⟨⟨⟨⟨by decide, by decide, by decide⟩, by decide, by decide⟩, by decide,
    by decide +kernel⟩, ⟨⟨by decide, by decide, by decide⟩, fun i hi => ?_, fun i hi => ?_,
      fun i j hij hj => ?_⟩, by decide, by decide +kernel⟩
  · cases hi
  · cases hi
  · cases hj

end Lookup

end Ext

end PeanutKernel
