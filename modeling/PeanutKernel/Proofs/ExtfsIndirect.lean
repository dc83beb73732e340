import PeanutKernel.Lib.TableTree
import PeanutKernel.Proofs.ExtfsExtents

/-!
# The indirect blocks of a file

An inode without extents is the root of a tree of pointer tables. The blocks of a file are numbered
along the pointers in the inode, then along the trees of one, two and three levels below it, and the
digits of the number in the base of a table's size lead to the pointer. `map_indirect` returns that
pointer, and different blocks have their pointers in different places (`map_indirect_exact`).
-/

namespace PeanutKernel

namespace Ext

open TableTree

variable {v : ExtVolume} {m : Medium} {inode : Buf} {per lbn : ℕ}

section Positions

/-- The `k` digits of `r` in base `per`, the most significant first. -/
def digits (per : ℕ) : ℕ → ℕ → List ℕ
  | 0, _ => []
  | k + 1, r => r / per ^ k :: digits per k (r % per ^ k)

/-- The first file block of the tree with `k + 1` levels. -/
def treeStart (per : ℕ) : ℕ → ℕ
  | 0 => 12
  | k + 1 => treeStart per k + per ^ (k + 1)

/-- The indices that lead from the inode to the pointer of a file block. -/
def position (per lbn : ℕ) : List ℕ :=
  if lbn < 12 then [lbn]
  else if lbn < treeStart per 1 then 12 :: digits per 1 (lbn - treeStart per 0)
  else if lbn < treeStart per 2 then 13 :: digits per 2 (lbn - treeStart per 1)
  else 14 :: digits per 3 (lbn - treeStart per 2)

/-- The number of file blocks. -/
def capacity (per : ℕ) : ℕ := 12 + per + per ^ 2 + per ^ 3

theorem digits_inj (per : ℕ) :
    ∀ {k r r' : ℕ}, digits per (k + 1) r = digits per (k + 1) r' → r = r'
  | 0, r, r', h => by simpa [digits] using h
  | k + 1, r, r', h => by
    obtain ⟨hdiv, hmod⟩ := List.cons.inj h
    rw [← Nat.div_add_mod r (per ^ (k + 1)), ← Nat.div_add_mod r' (per ^ (k + 1)), hdiv,
      digits_inj per hmod]

theorem treeStart_one (per : ℕ) : treeStart per 1 = 12 + per := by
  simp [treeStart]

theorem treeStart_two (per : ℕ) : treeStart per 2 = 12 + (per + per * per) := by
  simp [treeStart, Nat.pow_two, Nat.add_assoc]

theorem position_cases (per lbn : ℕ) :
    lbn < 12 ∧ position per lbn = [lbn] ∨
      ∃ k r, k < 3 ∧ lbn = treeStart per k + r ∧
        (k < 2 ∨ lbn < capacity per → r < per ^ (k + 1)) ∧
        position per lbn = (12 + k) :: digits per (k + 1) r := by
  unfold position
  split_ifs with h0 h1 h2
  · exact .inl ⟨h0, rfl⟩
  · refine .inr ⟨0, lbn - treeStart per 0, by omega, ?_, fun _ => ?_, rfl⟩ <;>
      simp only [treeStart] at h1 ⊢ <;> omega
  · refine .inr ⟨1, lbn - treeStart per 1, by omega, by omega, fun _ => ?_, rfl⟩
    simp only [treeStart] at h1 h2 ⊢
    omega
  · refine .inr ⟨2, lbn - treeStart per 2, by omega, by omega, fun h => ?_, rfl⟩
    rw [treeStart_two] at h2 ⊢
    rw [capacity, Nat.pow_two] at h
    change lbn - (12 + (per + per * per)) < per ^ 3
    omega

theorem position_inj (per : ℕ) {lbn lbn' : ℕ} (h : position per lbn = position per lbn') :
    lbn = lbn' := by
  rcases position_cases per lbn with ⟨hlt, hp⟩ | ⟨k, r, hk, hr, -, hp⟩ <;>
    rcases position_cases per lbn' with ⟨hlt', hp'⟩ | ⟨k', r', hk', hr', -, hp'⟩ <;>
      obtain ⟨hhead, htail⟩ := List.cons.inj (hp.symm.trans (h.trans hp'))
  · exact hhead
  · omega
  · omega
  · obtain rfl : k = k' := by omega
    rw [hr, hr', digits_inj per htail]

end Positions

section Tables

/-- A table of the tree: the inode, or a block with pointers. -/
inductive Table where
  | inode
  | block (pb : ℕ)
  deriving DecidableEq

/-- A pointer in a table. -/
def pointer (v : ExtVolume) (m : Medium) (inode : Buf) : Table → ℕ → ℕ
  | .inode, i => inodeBlockPtr inode i
  | .block pb, i => le32 (blockAt v m pb) (4 * i)

/-- The table a pointer names. -/
def below (ptr : ℕ) : Option Table := if ptr = 0 then none else some (.block ptr)

/-- The table and the index at which the last pointer of a path stands, `none` if a pointer before
it is 0. -/
def slot (cells : Table → ℕ → ℕ) : Table → List ℕ → Option (Table × ℕ)
  | _, [] => none
  | t, [i] => some (t, i)
  | t, i :: j :: p => (below (cells t i)).bind fun t => slot cells t (j :: p)

/-- Where the pointer to a file block stands. -/
def finalSlot (v : ExtVolume) (m : Medium) (inode : Buf) (lbn : ℕ) : Option (Table × ℕ) :=
  slot (pointer v m inode) .inode (position (v.blockSize / 4) lbn)

/-- The pointer to a file block, 0 if a pointer on the way is 0. -/
def pointerTo (v : ExtVolume) (m : Medium) (inode : Buf) (lbn : ℕ) : ℕ :=
  ((finalSlot v m inode lbn).map fun s => pointer v m inode s.1 s.2).getD 0

/-- A path to an indirect block. -/
def IndirectPath (per : ℕ) (p : List ℕ) : Prop :=
  ∃ lbn < capacity per, p ≠ [] ∧ p <+: (position per lbn).dropLast

/-- The indirect blocks of the inode are pairwise distinct. -/
def DistinctBlocks (v : ExtVolume) (m : Medium) (inode : Buf) : Prop :=
  ∀ p q t, IndirectPath (v.blockSize / 4) p → IndirectPath (v.blockSize / 4) q →
    walk below (pointer v m inode) .inode p = some t →
    walk below (pointer v m inode) .inode q = some t → p = q

variable {cells : Table → ℕ → ℕ}

theorem slot_concat (cells : Table → ℕ → ℕ) (i : ℕ) :
    ∀ (t : Table) (p : List ℕ), slot cells t (p ++ [i]) = (walk below cells t p).map (·, i)
  | t, [] => rfl
  | t, [j] => by
    simp only [List.cons_append, List.nil_append, slot, walk, Option.map_bind]
    rfl
  | t, j :: k :: p => by
    have ih := fun t => slot_concat cells i t (k :: p)
    rw [List.cons_append] at ih
    rw [List.cons_append, List.cons_append, slot, walk, Option.map_bind]
    simp only [ih]
    rfl

theorem position_ne_nil (per lbn : ℕ) : position per lbn ≠ [] := by
  rcases position_cases per lbn with ⟨-, h⟩ | ⟨k, r, -, -, -, h⟩ <;> simp [h]

theorem finalSlot_eq_some {t : Table} {i : ℕ} (h : finalSlot v m inode lbn = some (t, i)) :
    walk below (pointer v m inode) .inode (position (v.blockSize / 4) lbn).dropLast = some t ∧
      position (v.blockSize / 4) lbn = (position (v.blockSize / 4) lbn).dropLast ++ [i] := by
  have hne := position_ne_nil (v.blockSize / 4) lbn
  have hsplit := List.dropLast_append_getLast hne
  rw [finalSlot, ← hsplit, slot_concat, Option.map_eq_some_iff] at h
  obtain ⟨u, hu, heq⟩ := h
  obtain ⟨rfl, hi⟩ := Prod.mk.inj heq
  exact ⟨hu, by rw [← hi, hsplit]⟩

theorem below_eq_some {ptr : ℕ} {t : Table} (h : below ptr = some t) : t = .block ptr := by
  unfold below at h
  split_ifs at h
  exact (Option.some_inj.1 h).symm

/-- No path but the empty one leads back to the inode. -/
theorem walk_ne_inode : ∀ (t : Table) (p : List ℕ), p ≠ [] → walk below cells t p ≠ some .inode
  | t, [], h => absurd rfl h
  | t, i :: p, _ => by
    intro hw
    obtain ⟨u, hu, hw⟩ := Option.bind_eq_some_iff.1 hw
    rcases p with _ | ⟨j, p⟩
    · rw [below_eq_some hu] at hw
      cases hw
    · exact walk_ne_inode u (j :: p) (List.cons_ne_nil j p) hw

theorem finalSlot_inj (h : DistinctBlocks v m inode) {lbn lbn' : ℕ}
    (hlt : lbn < capacity (v.blockSize / 4)) (hlt' : lbn' < capacity (v.blockSize / 4))
    {s : Table × ℕ} (hs : finalSlot v m inode lbn = some s)
    (hs' : finalSlot v m inode lbn' = some s) : lbn = lbn' := by
  obtain ⟨hw, hp⟩ := finalSlot_eq_some hs
  obtain ⟨hw', hp'⟩ := finalSlot_eq_some hs'
  have hpath : (position (v.blockSize / 4) lbn).dropLast
      = (position (v.blockSize / 4) lbn').dropLast := by
    by_cases hnil : (position (v.blockSize / 4) lbn).dropLast = []
    · by_cases hnil' : (position (v.blockSize / 4) lbn').dropLast = []
      · rw [hnil, hnil']
      · rw [hnil] at hw
        exact absurd (hw'.trans hw.symm) (walk_ne_inode _ _ hnil')
    · by_cases hnil' : (position (v.blockSize / 4) lbn').dropLast = []
      · rw [hnil'] at hw'
        exact absurd (hw.trans hw'.symm) (walk_ne_inode _ _ hnil)
      · exact h _ _ s.1 ⟨lbn, hlt, hnil, List.prefix_rfl⟩ ⟨lbn', hlt', hnil', List.prefix_rfl⟩
          hw hw'
  refine position_inj (v.blockSize / 4) ?_
  rw [hp, hp', hpath]

end Tables

section Run

theorem readU32Block_run (hm : m.Good) (hbs : v.blockSize ≤ 4096) (hdvd : 512 ∣ v.blockSize)
    (inode : Buf) {pb i : ℕ} (hpb : pb < 2 ^ 32) (hi : i < v.blockSize / 4) :
    (readU32Block v pb i).run m.read = some (pointer v m inode (.block pb) i) := by
  obtain ⟨c, hc⟩ := hdvd
  have hoff : i / 128 * 512 + 512 ≤ v.blockSize := by omega
  have hread : (readBytes v.partition.firstLba (pb * v.blockSize + i / 128 * 512) 512).run m.read
      = _ := readBytes_run hm ((Nat.add_assoc _ _ _).trans_lt (block_bound hbs hpb hoff))
  have hbyte : ∀ j < 4, (if i % 128 * 4 + j < 512 then m.byte (byteAt v.partition.firstLba
      (pb * v.blockSize + i / 128 * 512 + (i % 128 * 4 + j))) else 0)
      = blockAt v m pb (4 * i + j) := by
    intro j hj
    rw [blockAt, if_pos (by omega), if_pos (by omega), blockByte, Nat.add_assoc,
      show i / 128 * 512 + (i % 128 * 4 + j) = 4 * i + j by omega]
  simp only [readU32Block, Query.run_bind, hread, Option.bind_some, Query.run_pure, pointer, le32]
  rw [hbyte 1 (by omega), hbyte 2 (by omega), hbyte 3 (by omega)]
  rw [show i % 128 * 4 = i % 128 * 4 + 0 from rfl, hbyte 0 (by omega)]
  rfl

theorem pointer_lt (t : Table) (i : ℕ) : pointer v m inode t i < 2 ^ 32 := by
  cases t <;> exact le32_lt _ _

/-- The pointer at the end of a path from a table, 0 if a pointer on the way is 0. -/
def follow (cells : Table → ℕ → ℕ) (t : Table) (p : List ℕ) : ℕ :=
  ((slot cells t p).map fun s => cells s.1 s.2).getD 0

variable {cells : Table → ℕ → ℕ}

theorem follow_cons (t : Table) (i j : ℕ) (p : List ℕ) :
    follow cells t (i :: j :: p) = if cells t i = 0 then 0
      else follow cells (.block (cells t i)) (j :: p) := by
  simp only [follow, slot, below]
  split_ifs <;> rfl

theorem digits_one (per r : ℕ) : digits per 1 r = [r] := by
  simp [digits]

theorem digits_two (per r : ℕ) : digits per 2 r = [r / per, r % per] := by
  simp [digits]

theorem digits_three (per r : ℕ) :
    digits per 3 r = [r / (per * per), r / per % per, r % per] := by
  rw [digits, digits_two, Nat.pow_two, Nat.mod_mul_right_div_self, Nat.mod_mul_right_mod]

theorem digits_lt (hpos : 0 < per) :
    ∀ {k r i : ℕ}, r < per ^ k → i ∈ digits per k r → i < per
  | 0, _, _, _, hi => absurd hi List.not_mem_nil
  | k + 1, r, i, hr, hi => by
    rcases List.mem_cons.1 hi with rfl | hi
    · exact Nat.div_lt_of_lt_mul (by rwa [Nat.pow_succ] at hr)
    · exact digits_lt hpos (Nat.mod_lt _ (Nat.pow_pos hpos)) hi

/-- The indices below the inode are those of a table. -/
theorem position_lt (hpos : 0 < per) (hlt : lbn < capacity per) {i : ℕ}
    (hi : i ∈ (position per lbn).tail) : i < per := by
  rcases position_cases per lbn with ⟨-, hp⟩ | ⟨k, r, -, -, hr, hp⟩ <;> rw [hp] at hi
  · exact absurd hi List.not_mem_nil
  · exact digits_lt hpos (hr (.inr hlt)) hi

/-- A pointer that is not 0 is followed. -/
theorem follow_run {t : Table} {i j : ℕ} {p : List ℕ} {prog : BlockM ℕ}
    (h : prog.run m.read = some (follow cells (.block (cells t i)) (j :: p))) :
    (if cells t i = 0 then pure 0 else prog).run m.read
      = some (follow cells t (i :: j :: p)) := by
  rw [follow_cons]
  split_ifs
  · rfl
  · exact h

theorem mapIndirect_single (v : ExtVolume) (inode : Buf) {r : ℕ} (hr : r < v.blockSize / 4) :
    mapIndirect v inode (12 + r) = (if inodeBlockPtr inode 12 = 0 then pure 0
      else readU32Block v (inodeBlockPtr inode 12) r) := by
  rw [mapIndirect, if_neg (by omega), Nat.add_sub_cancel_left, if_pos hr]

theorem mapIndirect_double (v : ExtVolume) (inode : Buf) {r : ℕ}
    (hr : r < v.blockSize / 4 * (v.blockSize / 4)) :
    mapIndirect v inode (12 + (v.blockSize / 4 + r)) = (if inodeBlockPtr inode 13 = 0 then pure 0
      else do
        let a ← readU32Block v (inodeBlockPtr inode 13) (r / (v.blockSize / 4))
        if a = 0 then pure 0 else readU32Block v a (r % (v.blockSize / 4))) := by
  rw [mapIndirect, if_neg (by omega)]
  simp only [Nat.add_sub_cancel_left]
  rw [if_neg (by omega), if_pos hr]

theorem mapIndirect_triple (v : ExtVolume) (inode : Buf) (r : ℕ) :
    mapIndirect v inode (12 + (v.blockSize / 4 + (v.blockSize / 4 * (v.blockSize / 4) + r)))
      = (if inodeBlockPtr inode 14 = 0 then pure 0
        else do
          let a ← readU32Block v (inodeBlockPtr inode 14)
            (r / (v.blockSize / 4 * (v.blockSize / 4)))
          if a = 0 then pure 0
          else do
            let b ← readU32Block v a (r / (v.blockSize / 4) % (v.blockSize / 4))
            if b = 0 then pure 0 else readU32Block v b (r % (v.blockSize / 4))) := by
  rw [mapIndirect, if_neg (by omega)]
  simp only [Nat.add_sub_cancel_left]
  rw [if_neg (by omega), if_neg (by omega)]

/-- `map_indirect` follows the pointers that are read on the way. -/
theorem mapIndirect_follow (cells : Table → ℕ → ℕ)
    (hinode : ∀ i, cells .inode i = inodeBlockPtr inode i)
    (hlt32 : ∀ t i, cells t i < 2 ^ 32)
    (hread : ∀ pb < 2 ^ 32, ∀ i ∈ (position (v.blockSize / 4) lbn).tail,
      (readU32Block v pb i).run m.read = some (cells (.block pb) i)) :
    (mapIndirect v inode lbn).run m.read
      = some (follow cells .inode (position (v.blockSize / 4) lbn)) := by
  have hbind : ∀ pb < 2 ^ 32, ∀ i ∈ (position (v.blockSize / 4) lbn).tail, ∀ f : ℕ → BlockM ℕ,
      (readU32Block v pb i >>= f).run m.read = (f (cells (.block pb) i)).run m.read := by
    intro pb hpb i hi f
    rw [Query.run_bind, hread pb hpb i hi, Option.bind_some]
  rcases position_cases (v.blockSize / 4) lbn with ⟨h12, hp⟩ | ⟨k, r, hk, hr, hrlt, hp⟩
  · rw [hp, mapIndirect, if_pos h12, ← hinode]
    rfl
  · rw [hp] at hread hbind ⊢
    rw [List.tail_cons] at hread hbind
    match k, hk with
    | 0, _ =>
      have hr' := hrlt (.inl (by decide))
      rw [Nat.zero_add, Nat.pow_one] at hr'
      rw [digits_one] at hread ⊢
      rw [hr, treeStart, mapIndirect_single v inode hr', ← hinode]
      exact follow_run (t := .inode) (hread _ (hlt32 _ _) r (by simp))
    | 1, _ =>
      have hr' := hrlt (.inl (by decide))
      rw [Nat.pow_two] at hr'
      rw [digits_two] at hread hbind ⊢
      rw [hr, treeStart_one, Nat.add_assoc, mapIndirect_double v inode hr', ← hinode]
      refine follow_run (t := .inode) ?_
      rw [hbind _ (hlt32 _ _) _ (by simp)]
      exact follow_run (hread _ (hlt32 _ _) _ (by simp))
    | 2, _ =>
      rw [digits_three] at hread hbind ⊢
      rw [hr, treeStart_two, Nat.add_assoc, Nat.add_assoc, mapIndirect_triple, ← hinode]
      refine follow_run (t := .inode) ?_
      rw [hbind _ (hlt32 _ _) _ (by simp)]
      refine follow_run ?_
      rw [hbind _ (hlt32 _ _) _ (by simp)]
      exact follow_run (hread _ (hlt32 _ _) _ (by simp))

theorem mapIndirect_run (hm : m.Good) (hbs : v.blockSize ≤ 4096) (hdvd : 512 ∣ v.blockSize)
    (hpos : 0 < v.blockSize / 4) (hlt : lbn < capacity (v.blockSize / 4)) :
    (mapIndirect v inode lbn).run m.read = some (pointerTo v m inode lbn) :=
  mapIndirect_follow (pointer v m inode) (fun _ => rfl) pointer_lt
    fun _ hpb _ hi => readU32Block_run hm hbs hdvd inode hpb (position_lt hpos hlt hi)

theorem map_indirect_exact (hm : m.Good)
    (hbs : v.blockSize = 1024 ∨ v.blockSize = 2048 ∨ v.blockSize = 4096) (inode : Buf) :
    (∀ lbn < capacity (v.blockSize / 4),
      (mapIndirect v inode lbn).run m.read = some (pointerTo v m inode lbn)) ∧
    (DistinctBlocks v m inode → ∀ lbn < capacity (v.blockSize / 4),
      ∀ lbn' < capacity (v.blockSize / 4), ∀ s, finalSlot v m inode lbn = some s →
        finalSlot v m inode lbn' = some s → lbn = lbn') := by
  refine ⟨fun lbn hlt => ?_, fun h lbn hlt lbn' hlt' s hs hs' => finalSlot_inj h hlt hlt' hs hs'⟩
  exact mapIndirect_run hm (by omega) (by omega) (by omega) hlt

/-- Block 4 is the only indirect block, and its second pointer is 9. -/
def pointerMedium : Medium := sparseMedium [(4096 + 4, 9)]

def pointerInode : Buf := fun i => if i = 40 then 7 else if i = 40 + 4 * 12 then 4 else 0

theorem pointerInode_distinct : DistinctBlocks sampleVolume pointerMedium pointerInode := by
  have honly : ∀ p t, IndirectPath (sampleVolume.blockSize / 4) p →
      walk below (pointer sampleVolume pointerMedium pointerInode) .inode p = some t →
      p = [12] := by
    rintro p t ⟨lbn, -, hne, hpre⟩ hw
    rcases position_cases (sampleVolume.blockSize / 4) lbn with ⟨-, hp⟩ | ⟨k, r, hk, -, -, hp⟩
    · rw [hp] at hpre
      exact absurd (List.prefix_nil.1 hpre) hne
    · obtain ⟨i, p, rfl⟩ := List.exists_cons_of_ne_nil hne
      rw [hp, digits, List.dropLast_cons_cons, List.cons_prefix_cons] at hpre
      obtain ⟨rfl, hpre⟩ := hpre
      obtain ⟨u, hu, -⟩ := Option.bind_eq_some_iff.1 hw
      obtain rfl | rfl | rfl : k = 0 ∨ k = 1 ∨ k = 2 := by omega
      · rw [digits, List.dropLast_singleton, List.prefix_nil] at hpre
        rw [hpre]
      · cases hu
      · cases hu
  intro p q t hp hq hw hw'
  rw [honly p t hp hw, honly q t hq hw']

theorem map_indirect_exact_sample :
    (mapIndirect sampleVolume pointerInode 13).run pointerMedium.read = some 9 ∧
    ∀ lbn < capacity 256, ∀ lbn' < capacity 256, ∀ s,
      finalSlot sampleVolume pointerMedium pointerInode lbn = some s →
      finalSlot sampleVolume pointerMedium pointerInode lbn' = some s → lbn = lbn' := by
  have h := map_indirect_exact (v := sampleVolume) (sparseMedium_good [(4096 + 4, 9)]) (.inl rfl)
    pointerInode
  exact ⟨(h.1 13 (by decide)).trans (by decide +kernel), h.2 pointerInode_distinct⟩

end Run

end Ext

end PeanutKernel
