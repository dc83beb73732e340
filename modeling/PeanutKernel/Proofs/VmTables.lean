import PeanutKernel.Lib.TableTree
import PeanutKernel.Proofs.Alloc
import PeanutKernel.Vm
import Mathlib.Data.Nat.Bitwise
import Mathlib.Order.Interval.Finset.Nat

/-!
# Page tables that represent a page map

The tables below the PML4 are a tree of pages (`Tree`, over `TableTree`): those of the kernel image,
and the pages taken since. `Tables` ties them to a page map. Going down one level keeps the tree and
what it maps (`Tree.descend`, `Keeps`), and the store into the last table is what updates the map
(`Tables.setLeaf`).
-/

namespace PeanutKernel

namespace Vm

open Alloc

variable {s s' : Allocators} {img : KernelImage} {M : PageMap} {given : ℕ}

section Bits

theorem index_val (shift virt : ℕ) : (index shift virt).val = virt / 2 ^ shift % 512 := by
  change (virt >>> shift) &&& (2 ^ 9 - 1) = _
  rw [Nat.and_two_pow_sub_one_eq_mod, Nat.shiftRight_eq_div_pow]

theorem and_present (e : ℕ) : e &&& vmFlagPresent = e % 2 := Nat.and_one_is_mod e

theorem and_huge (e : ℕ) : e &&& vmFlagHuge = 128 * (e / 128 % 2) := by
  change e &&& 2 ^ 7 = _
  rw [Nat.and_two_pow, Nat.testBit_eq_decide_div_mod_eq]
  rcases Nat.mod_two_eq_zero_or_one (e / 128) with h | h
  · simp [h]
  · simp [h]

theorem or_of_lt (bits : ℕ) {low : ℕ} (h : low < 2 ^ bits) (P : ℕ) :
    2 ^ bits * P ||| low = 2 ^ bits * P + low :=
  (Nat.two_pow_add_eq_or_of_lt h P).symm

theorem and_mask (bits v : ℕ) : v &&& (2 ^ bits - 1) = v % 2 ^ bits :=
  Nat.and_two_pow_sub_one_eq_mod v bits

theorem huge_flags (N : ℕ) :
    (2 ^ 21 * N + 0x87) &&& vmFlagPresent ≠ 0 ∧ (2 ^ 21 * N + 0x87) &&& vmFlagHuge ≠ 0 ∧
      clearLow 21 (2 ^ 21 * N + 0x87) = 2 ^ 21 * N := by
  rw [and_present, and_huge, clearLow]
  omega

end Bits

section Cells

/-- The entries of the table on a page. -/
def cells (s : Allocators) (P : ℕ) (i : Fin vmEntries) : ℕ := entry s (4096 * P) i

theorem cells_setEntry (s : Allocators) (P : ℕ) (i : Fin vmEntries) {e : ℕ} (he : e < 2 ^ 64) :
    cells (setEntry s (4096 * P) i e) = TableTree.store (cells s) P i e := by
  funext Q j
  by_cases h : Q = P ∧ j = i
  · obtain ⟨rfl, rfl⟩ := h
    rw [TableTree.store_same]
    exact le64_storeLe he
  · rw [TableTree.store_of_ne fun hQ hj => h ⟨hQ, hj⟩]
    refine le64_congr fun x hge hlt => storeLe_outside ?_
    have hi : i.val < 512 := i.isLt
    have hj : j.val < 512 := j.isLt
    by_cases hQ : Q = P
    · have hne : j.val ≠ i.val := fun hval => h ⟨hQ, Fin.ext hval⟩
      subst hQ
      omega
    · omega

theorem cells_alloc {P : ℕ} (h : s.pageBump = 4096 * P) :
    cells (vmAllocPage s).2 = Function.update (cells s) P fun _ => 0 := by
  funext Q j
  have hj : j.val < 512 := j.isLt
  by_cases hQ : Q = P
  · subst hQ
    rw [Function.update_self]
    have hzero : ∀ x, 4096 * Q ≤ x → x < 4096 * Q + 4096 → (vmAllocPage s).2.mem x = 0 :=
      fun x hge hlt => if_pos ⟨by rw [h]; exact hge, by rw [h]; exact hlt⟩
    have : le64 (vmAllocPage s).2.mem (4096 * Q + 8 * j) = le64 (fun _ => 0) (4096 * Q + 8 * j) :=
      le64_congr fun x hge hlt => hzero x (by omega) (by omega)
    exact this.trans (by simp [le64, le32])
  · rw [Function.update_of_ne hQ]
    refine le64_congr fun x hge hlt => if_neg ?_
    rw [h, vmPageSize]
    omega

end Cells

section Walk

/-- The page of the table that an entry names. -/
def child (e : ℕ) : Option ℕ :=
  if e &&& vmFlagPresent = 0 ∨ e &&& vmFlagHuge ≠ 0 then none else some (e / 4096)

/-- The entry that names the table on a page. -/
def link (P : ℕ) : ℕ := 4096 * P + 7

theorem child_zero : child 0 = none := by decide

theorem child_link (P : ℕ) : child (link P) = some P := by
  have hp : link P &&& vmFlagPresent ≠ 0 := by
    rw [and_present, link]
    omega
  have hh : link P &&& vmFlagHuge = 0 := by
    rw [and_huge, link]
    omega
  rw [child, if_neg (by simp [hp, hh]), link]
  congr 1
  omega

theorem of_child {e P : ℕ} (h : child e = some P) :
    e &&& vmFlagPresent ≠ 0 ∧ e &&& vmFlagHuge = 0 ∧ clearLow 12 e = 4096 * P := by
  unfold child at h
  split_ifs at h with hn
  push Not at hn
  rw [Option.some_inj] at h
  exact ⟨hn.1, hn.2, by rw [clearLow, ← h]; omega⟩

theorem descend_of_child {t P : ℕ} {i : Fin vmEntries} (h : child (cells s t i) = some P) :
    descend (4096 * t) i s = (4096 * P, s) := by
  obtain ⟨hpresent, -, hbase⟩ := of_child h
  exact (if_neg hpresent).trans (by rw [← hbase]; rfl)

/-- The page of the PML4. -/
def root (img : KernelImage) : ℕ := img.kernelPml4 / 4096

theorem mul_root (img : KernelImage) : 4096 * root img = img.kernelPml4 :=
  Nat.mul_div_cancel' img.aligned.1

def walk (img : KernelImage) (s : Allocators) (p : List (Fin vmEntries)) : Option ℕ :=
  TableTree.walk child (cells s) (root img) p

/-- The way to the last table for an address. -/
def path (a : ℕ) : List (Fin vmEntries) := [index 39 a, index 30 a, index 21 a]

/-- The base of the page that an entry of a last table maps. -/
def mapped (e : ℕ) : Option ℕ := if e &&& vmFlagPresent = 0 then none else some (clearLow 12 e)

def look (img : KernelImage) (s : Allocators) (a : ℕ) : Option ℕ :=
  (walk img s (path a)).bind fun t => mapped (cells s t (index 12 a))

/-- The places of the 2 MiB entries. -/
def Huge : List (Fin vmEntries) → Prop
  | [i, j, _] => i.val = 0 ∧ j.val < 4
  | _ => False

theorem huge_path (a : ℕ) : Huge (path a) ↔ a % 2 ^ 48 < vmBootMapBytes := by
  change (index 39 a).val = 0 ∧ (index 30 a).val < 4 ↔ _
  rw [index_val, index_val, vmBootMapBytes]
  omega

/-- Addresses that lead to the same entry are in the same page. -/
theorem pageOf_eq_iff (a b : ℕ) :
    pageOf a = pageOf b ↔ path a = path b ∧ index 12 a = index 12 b := by
  simp only [pageOf, path, vmPageSize, List.cons.injEq, and_true, Fin.ext_iff, index_val]
  omega

end Walk

/-- The tables below the PML4: a tree of pages, the last of which is before the page bump, with the
2 MiB entries of the boot map and the page map `M` for all other addresses. -/
structure Tables (img : KernelImage) (s : Allocators) (M : PageMap) : Prop where
  bump : 4096 * (s.pageBump / 4096) = s.pageBump
  first : firstPage img.kernelEnd ≤ s.pageBump
  distinct : TableTree.Distinct child (cells s) (root img) 3
  below : ∀ {p t}, p.length ≤ 3 → walk img s p = some t → t < s.pageBump / 4096
  owned : ∀ t, firstPage img.kernelEnd / 4096 ≤ t → t < s.pageBump / 4096 →
    ∃ p, p.length ≤ 3 ∧ walk img s p = some t
  huge : ∀ j k : Fin vmEntries, j.val < 4 →
    ∃ t, walk img s [0, j] = some t ∧ cells s t k = 2 ^ 21 * (512 * j + k) + 0x87
  plain : ∀ {p t i}, p.length ≤ 2 → walk img s p = some t → ¬ Huge (p ++ [i]) →
    cells s t i = 0 ∨ ∃ P, cells s t i = link P
  low : ∀ a, Huge (path a) → M (pageOf a) = some (4096 * pageOf a)
  maps : ∀ a, ¬ Huge (path a) → look img s a = M (pageOf a)

/-- The tables below the PML4: a tree of pages, the last of which is before the page bump. All but
`given` pages taken since are among them. The entries of the boot map are 2 MiB entries, and the
others name tables or are zero. -/
structure Tree (img : KernelImage) (s : Allocators) (given : ℕ) : Prop where
  bump : 4096 * (s.pageBump / 4096) = s.pageBump
  first : firstPage img.kernelEnd ≤ s.pageBump
  distinct : TableTree.Distinct child (cells s) (root img) 3
  below : ∀ {p t}, p.length ≤ 3 → walk img s p = some t → t < s.pageBump / 4096
  owned : ∃ others : Finset ℕ, others.card ≤ given ∧
    ∀ t, firstPage img.kernelEnd / 4096 ≤ t → t < s.pageBump / 4096 →
      t ∈ others ∨ ∃ p, p.length ≤ 3 ∧ walk img s p = some t
  huge : ∀ j k : Fin vmEntries, j.val < 4 →
    ∃ t, walk img s [0, j] = some t ∧ cells s t k &&& vmFlagHuge ≠ 0
  plain : ∀ {p t i}, p.length ≤ 2 → walk img s p = some t → ¬ Huge (p ++ [i]) →
    cells s t i = 0 ∨ ∃ P, cells s t i = link P

theorem Tables.tree (h : Tables img s M) : Tree img s 0 := by
  refine ⟨h.bump, h.first, h.distinct, h.below, ⟨∅, Nat.le_refl 0, fun t hge hlt => ?_⟩, ?_,
    h.plain⟩
  · exact .inr (h.owned t hge hlt)
  · intro j k hj
    obtain ⟨t, hwalk, hcell⟩ := h.huge j k hj
    refine ⟨t, hwalk, ?_⟩
    rw [hcell]
    exact (huge_flags _).2.1

theorem Tree.mono (h : Tree img s given) {given' : ℕ} (hle : given ≤ given') :
    Tree img s given' := by
  obtain ⟨others, hothers, howned⟩ := h.owned
  exact ⟨h.bump, h.first, h.distinct, h.below, ⟨others, hothers.trans hle, howned⟩, h.huge, h.plain⟩

theorem Tree.bump_lt (h : Tree img s given) (hgiven : given ≤ 2 ^ 50) :
    s.pageBump + 4096 < 2 ^ 64 := by
  obtain ⟨others, hothers, howned⟩ := h.owned
  have hcard : (Finset.Ico (firstPage img.kernelEnd / 4096) (s.pageBump / 4096) \ others).card
      ≤ ∑ l ∈ Finset.range (3 + 1), Fintype.card (Fin vmEntries) ^ l :=
    TableTree.card_le fun t ht => by
      rw [Finset.mem_sdiff, Finset.mem_Ico] at ht
      exact (howned t ht.1.1 ht.1.2).resolve_left ht.2
  have hsum : ∑ l ∈ Finset.range (3 + 1), Fintype.card (Fin vmEntries) ^ l ≤ 2 ^ 28 := by
    rw [Fintype.card_fin]
    decide
  have hdiff := Finset.le_card_sdiff others
    (Finset.Ico (firstPage img.kernelEnd / 4096) (s.pageBump / 4096))
  rw [Nat.card_Ico] at hdiff
  have hbump := h.bump
  have hlow := img.low
  have hfirst : firstPage img.kernelEnd = (img.kernelEnd + 4096 - 1) % 2 ^ 64 / 4096 * 4096 := rfl
  omega

/-- An entry on the way to a last table names a table or is zero. -/
theorem Tree.next (h : Tree img s given) {p : List (Fin vmEntries)} {t : ℕ} {i : Fin vmEntries}
    (hp : p.length ≤ 2) (hwalk : walk img s p = some t) (hplain : ¬ Huge (p ++ [i])) :
    cells s t i = 0 ∨ ∃ P, cells s t i = link P ∧ walk img s (p ++ [i]) = some P := by
  rcases h.plain hp hwalk hplain with hzero | ⟨P, hlink⟩
  · exact Or.inl hzero
  · refine Or.inr ⟨P, hlink, ?_⟩
    rw [walk, TableTree.walk_concat_of_some hwalk, hlink, child_link]

/-- What `s` has of tables, `s'` has too, and it maps the same. -/
structure Keeps (img : KernelImage) (s s' : Allocators) : Prop where
  walks : ∀ {q u}, q.length ≤ 3 → walk img s q = some u → walk img s' q = some u
  looks : ∀ a, look img s' a = look img s a
  huge : ∀ {j k : Fin vmEntries} {t}, j.val < 4 → walk img s [0, j] = some t →
    cells s' t k = cells s t k

theorem Keeps.refl (img : KernelImage) (s : Allocators) : Keeps img s s :=
  ⟨fun _ hu => hu, fun _ => rfl, fun _ _ => rfl⟩

theorem Keeps.trans {s₁ s₂ s₃ : Allocators} (h : Keeps img s₁ s₂) (h' : Keeps img s₂ s₃) :
    Keeps img s₁ s₃ := by
  refine ⟨fun hq hu => h'.walks hq (h.walks hq hu), fun a => (h'.looks a).trans (h.looks a), ?_⟩
  intro j k t hj ht
  exact (h'.huge hj (h.walks (Nat.le_succ 2) ht)).trans (h.huge hj ht)

theorem Tables.keep (h : Tables img s M) (htree : Tree img s' 0) (hkeeps : Keeps img s s') :
    Tables img s' M := by
  obtain ⟨others, hothers, howned⟩ := htree.owned
  refine ⟨htree.bump, htree.first, htree.distinct, htree.below, fun t hge hlt => ?_, ?_,
    htree.plain, h.low, fun a ha => (hkeeps.looks a).trans (h.maps a ha)⟩
  · refine (howned t hge hlt).resolve_left fun ht => ?_
    rw [Finset.card_eq_zero.1 (Nat.le_zero.1 hothers)] at ht
    simp at ht
  · intro j k hj
    obtain ⟨u, hu, hk⟩ := h.huge j k hj
    exact ⟨u, hkeeps.walks (Nat.le_succ 2) hu, (hkeeps.huge hj hu).trans hk⟩

section Grow

/-- From `s` to `s'` the next page has become a table, named by entry `i` of table `t`, which
named none. -/
structure Grows (img : KernelImage) (s s' : Allocators) (p : List (Fin vmEntries)) (t : ℕ)
    (i : Fin vmEntries) : Prop where
  path : p.length ≤ 2
  walk : walk img s p = some t
  zero : cells s t i = 0
  bump : s'.pageBump = s.pageBump + 4096
  cells : cells s' = TableTree.grow (cells s) t i (link (s.pageBump / 4096)) (s.pageBump / 4096)
    fun _ => 0

variable {p q : List (Fin vmEntries)} {t u : ℕ} {i j : Fin vmEntries}

/-- Where an entry names no table, going down takes the next page for one. -/
theorem Tree.descend_of_zero (h : Tree img s given) (hgiven : given ≤ 2 ^ 50) (hp : p.length ≤ 2)
    (hwalk : walk img s p = some t) (hzero : cells s t i = 0) :
    ∃ s', descend (4096 * t) i s = (4096 * (s.pageBump / 4096), s') ∧ Grows img s s' p t i := by
  have hlt := h.bump_lt hgiven
  have hbump := h.bump
  have hlink : s.pageBump ||| tableFlags = link (s.pageBump / 4096) := by
    rw [← hbump]
    exact (or_of_lt 12 (by decide) _).trans (by rw [hbump]; rfl)
  have hpresent : entry s (4096 * t) i &&& vmFlagPresent = 0 := by
    rw [show entry s (4096 * t) i = 0 from hzero, Nat.zero_and]
  refine ⟨setEntry (vmAllocPage s).2 (4096 * t) i (s.pageBump ||| tableFlags), ?_,
    ⟨hp, hwalk, hzero, Nat.mod_eq_of_lt hlt, ?_⟩⟩
  · rw [descend, if_pos hpresent, hbump]
    rfl
  · rw [hlink, cells_setEntry _ _ _ (by unfold link; omega), cells_alloc hbump.symm]
    rfl

namespace Grows

variable (g : Grows img s s' p t i)

include g

theorem length_le : (p ++ [i]).length ≤ 3 := by
  rw [List.length_append, List.length_singleton]
  exact Nat.succ_le_succ g.path

theorem walk_none : Vm.walk img s (p ++ [i]) = none := by
  rw [Vm.walk, TableTree.walk_concat_of_some g.walk, g.zero, child_zero]

theorem cells_link : Vm.cells s' t i = link (s.pageBump / 4096) := by
  rw [g.cells, TableTree.grow, TableTree.store_same]

variable (h : Tree img s given)

include h

theorem fresh :
    TableTree.Fresh child (Vm.cells s) (root img) 3 p t i (link (s.pageBump / 4096))
      (s.pageBump / 4096) fun _ => 0 where
  path := Nat.lt_succ_of_le g.path
  walk := g.walk
  none := by rw [g.zero, child_zero]
  entry := child_link _
  unused _ hq hq' := absurd (h.below hq hq') (Nat.lt_irrefl _)
  empty _ := child_zero

theorem walk_eq (hq : q.length ≤ 3) :
    Vm.walk img s' q = if q = p ++ [i] then some (s.pageBump / 4096) else Vm.walk img s q := by
  rw [Vm.walk, g.cells]
  exact TableTree.walk_grow h.distinct (g.fresh h) q hq

theorem walk_new : Vm.walk img s' (p ++ [i]) = some (s.pageBump / 4096) := by
  rw [g.walk_eq h g.length_le, if_pos rfl]

/-- The tables that were there are still there. -/
theorem walk_old (hq : q.length ≤ 3)
    (hu : Vm.walk img s q = some u) : Vm.walk img s' q = some u := by
  rw [g.walk_eq h hq, if_neg, hu]
  rintro rfl
  rw [g.walk_none] at hu
  cases hu

theorem cells_new (j : Fin vmEntries) : Vm.cells s' (s.pageBump / 4096) j = 0 := by
  rw [g.cells, TableTree.grow_fresh (h.below (g.path.trans (by decide)) g.walk).ne']

theorem cells_old (hq : q.length ≤ 3)
    (hu : Vm.walk img s q = some u) (hne : q ++ [j] ≠ p ++ [i]) :
    Vm.cells s' u j = Vm.cells s u j := by
  rw [g.cells, TableTree.grow_of_ne (h.below hq hu).ne]
  rintro rfl rfl
  exact hne (by rw [h.distinct q p u hq (g.path.trans (by decide)) hu g.walk])

theorem look_eq (a : ℕ) : look img s' a = look img s a := by
  have hlen : (Vm.path a).length ≤ 3 := le_rfl
  rw [look, look, g.walk_eq h hlen]
  split_ifs with hpath
  · rw [hpath, g.walk_none, Option.bind_some, g.cells_new h]
    rfl
  · rcases hu : Vm.walk img s (Vm.path a) with _ | u
    · rfl
    · rw [Option.bind_some, Option.bind_some, g.cells_old h hlen hu]
      intro heq
      have hle := g.length_le
      rw [← heq] at hle
      simp [Vm.path] at hle

theorem keeps (hplain : ¬ Huge (p ++ [i])) :
    Keeps img s s' := by
  refine ⟨fun hq hu => g.walk_old h hq hu, g.look_eq h, fun {j k t} hj ht => ?_⟩
  refine g.cells_old h (by simp) ht fun heq => ?_
  exact hplain (heq ▸ ⟨rfl, hj⟩)

end Grows

/-- A new table keeps the tree. -/
theorem Tree.grow (h : Tree img s given) (g : Grows img s s' p t i) (hplain : ¬ Huge (p ++ [i])) :
    Tree img s' given := by
  have htop : s'.pageBump / 4096 = s.pageBump / 4096 + 1 := by
    have := g.bump
    omega
  refine ⟨?_, ?_, ?_, ?_, ?_, ?_, ?_⟩
  · have := h.bump
    have := g.bump
    omega
  · exact g.bump ▸ h.first.trans (Nat.le_add_right _ _)
  · rw [g.cells]
    exact h.distinct.grow (g.fresh h)
  · intro q u hq hu
    rw [g.walk_eq h hq] at hu
    split_ifs at hu
    · rw [← Option.some_inj.1 hu, htop]
      exact Nat.lt_succ_self _
    · exact (h.below hq hu).trans (by omega)
  · obtain ⟨others, hothers, howned⟩ := h.owned
    refine ⟨others, hothers, fun u hge hlt => ?_⟩
    rcases Nat.lt_succ_iff_lt_or_eq.1 (htop ▸ hlt) with hlt | rfl
    · exact (howned u hge hlt).imp_right fun ⟨q, hq, hu⟩ => ⟨q, hq, g.walk_old h hq hu⟩
    · exact .inr ⟨p ++ [i], g.length_le, g.walk_new h⟩
  · intro j k hj
    obtain ⟨u, hu, hk⟩ := h.huge j k hj
    refine ⟨u, g.walk_old h (Nat.le_succ 2) hu, ?_⟩
    rwa [(g.keeps h hplain).huge hj hu]
  · intro q u j hq hu hj
    rw [g.walk_eq h (by omega)] at hu
    split_ifs at hu with hqp
    · rw [← Option.some_inj.1 hu, g.cells_new h]
      exact Or.inl rfl
    · by_cases hhere : q ++ [j] = p ++ [i]
      · obtain ⟨rfl, hji⟩ := List.append_inj' hhere rfl
        rw [g.walk, Option.some_inj] at hu
        rw [← hu, List.singleton_inj.1 hji]
        exact Or.inr ⟨_, g.cells_link⟩
      · rw [g.cells_old h (by omega) hu hhere]
        exact h.plain hq hu hj

/-- Going down one level, to a table that was there or to a new one. -/
theorem Tree.descend (h : Tree img s given) (hgiven : given ≤ 2 ^ 50) (hp : p.length ≤ 2)
    (hwalk : walk img s p = some t) (hplain : ¬ Huge (p ++ [i])) :
    ∃ P s', Vm.descend (4096 * t) i s = (4096 * P, s') ∧ Tree img s' given ∧
      walk img s' (p ++ [i]) = some P ∧ Keeps img s s' := by
  rcases h.next hp hwalk hplain with hzero | ⟨P, hlink, hnext⟩
  · obtain ⟨s', hrun, g⟩ := h.descend_of_zero hgiven hp hwalk hzero
    exact ⟨_, s', hrun, h.grow g hplain, g.walk_new h, g.keeps h hplain⟩
  · exact ⟨P, s, descend_of_child (by rw [hlink, child_link]), h, hnext, Keeps.refl img s⟩

end Grow

section Leaf

/-- The entry of a last table that maps a page. -/
theorem mapped_pte {phys flags : ℕ} (hphys : phys % 4096 = 0) (hflags : flags < 2 ^ 12) :
    mapped (phys ||| flags ||| vmFlagPresent) = some phys := by
  have hlow : flags ||| vmFlagPresent < 2 ^ 12 := Nat.or_lt_two_pow hflags (by decide)
  have hodd : (flags ||| vmFlagPresent) % 2 = 1 := Nat.or_mod_two_eq_one.2 (Or.inr rfl)
  have hpage : 2 ^ 12 * (phys / 2 ^ 12) = phys := by omega
  have heq : phys ||| flags ||| vmFlagPresent = phys + (flags ||| vmFlagPresent) := by
    rw [Nat.or_assoc, ← hpage]
    exact or_of_lt 12 hlow _
  rw [mapped, and_present, heq, if_neg (by omega), clearLow]
  congr 1
  omega

variable {p q : List (Fin vmEntries)} {t u a e : ℕ} {i j : Fin vmEntries}

section Change

variable (h : Tree img s given)
  (hwalk : ∀ {q}, q.length ≤ 3 → walk img s' q = walk img s q)
  (hhuge : ∀ {j k : Fin vmEntries} {t}, j.val < 4 → walk img s [0, j] = some t →
    cells s' t k &&& vmFlagHuge ≠ 0)
  (hplain : ∀ {p t i}, p.length ≤ 2 → walk img s p = some t → ¬ Huge (p ++ [i]) →
    cells s' t i = cells s t i)

include h hwalk hhuge hplain

/-- The tree is kept where every table stays, the entries of the boot map stay 2 MiB entries and
the others stay as they are. Other pages may have been taken. -/
theorem Tree.raise {others : Finset ℕ}
    (hbump : 4096 * (s'.pageBump / 4096) = s'.pageBump ∧ s.pageBump ≤ s'.pageBump)
    (howned : ∀ t, firstPage img.kernelEnd / 4096 ≤ t → t < s'.pageBump / 4096 →
      t ∈ others ∨ ∃ p, p.length ≤ 3 ∧ walk img s p = some t) : Tree img s' others.card := by
  refine ⟨hbump.1, h.first.trans hbump.2, ?_, ?_, ⟨others, le_rfl, fun u hge hlt => ?_⟩, ?_, ?_⟩
  · intro q q' u hq hq' hu hu'
    exact h.distinct q q' u hq hq' ((hwalk hq).symm.trans hu) ((hwalk hq').symm.trans hu')
  · intro q u hq hu
    exact (h.below hq ((hwalk hq).symm.trans hu)).trans_le (Nat.div_le_div_right hbump.2)
  · exact (howned u hge hlt).imp_right fun ⟨q, hq, hu⟩ => ⟨q, hq, (hwalk hq).trans hu⟩
  · intro j k hj
    obtain ⟨u, hu, -⟩ := h.huge j k hj
    exact ⟨u, (hwalk (by simp)).trans hu, hhuge hj hu⟩
  · intro q u j hq hu hj
    rw [hwalk (by omega)] at hu
    rw [hplain hq hu hj]
    exact h.plain hq hu hj

theorem Tree.change (hbump : s'.pageBump = s.pageBump) : Tree img s' given := by
  obtain ⟨others, hothers, howned⟩ := h.owned
  refine (h.raise hwalk hhuge hplain ⟨?_, hbump.ge⟩ fun t hge hlt => howned t hge ?_).mono hothers
  · rw [hbump]
    exact h.bump
  · rwa [← hbump]

end Change

section

variable (h : Tree img s given) (hwalk : walk img s (path a) = some t) (he : e < 2 ^ 64)

include h hwalk he

theorem Tree.walk_setEntry (hq : q.length ≤ 3) :
    walk img (setEntry s (4096 * t) i e) q = walk img s q := by
  rw [walk, cells_setEntry _ _ _ he]
  exact TableTree.walk_store h.distinct rfl hwalk q hq

theorem Tree.cells_setEntry (hq : q.length ≤ 3) (hu : walk img s q = some u)
    (hne : q = path a → j ≠ i) : cells (setEntry s (4096 * t) i e) u j = cells s u j := by
  rw [Vm.cells_setEntry _ _ _ he, TableTree.store_of_ne]
  rintro rfl
  exact hne (h.distinct q (path a) u hq le_rfl hu hwalk)

/-- A store into a last table leaves the tables above it alone. -/
theorem Tree.cells_inner (hq : q.length ≤ 2) (hu : walk img s q = some u) :
    cells (setEntry s (4096 * t) i e) u j = cells s u j := by
  refine h.cells_setEntry hwalk he (by omega) hu fun hqa => ?_
  rw [hqa] at hq
  simp [path] at hq

theorem Tree.setLeaf : Tree img (setEntry s (4096 * t) i e) given := by
  refine h.change (h.walk_setEntry hwalk he) ?_ (fun hq hu _ => h.cells_inner hwalk he hq hu) rfl
  intro j k u hj hu
  obtain ⟨u', hu', hk⟩ := h.huge j k hj
  rw [h.cells_inner hwalk he le_rfl hu]
  rwa [Option.some_inj.1 (hu.symm.trans hu')]

end

/-- A store into a last table updates the map. -/
theorem Tables.setLeaf (h : Tables img s M) (ha : ¬ Huge (path a))
    (hwalk : walk img s (path a) = some t) (he : e < 2 ^ 64) {phys : ℕ}
    (hphys : mapped e = some phys) :
    Tables img (setEntry s (4096 * t) (index 12 a) e) (M.map a phys) := by
  have htree := h.tree.setLeaf (i := index 12 a) hwalk he
  refine ⟨htree.bump, htree.first, htree.distinct, htree.below, ?_, ?_, htree.plain, ?_, ?_⟩
  · intro u hge hlt
    obtain ⟨q, hq, hu⟩ := h.owned u hge hlt
    exact ⟨q, hq, (h.tree.walk_setEntry hwalk he hq).trans hu⟩
  · intro j k hj
    obtain ⟨u, hu, hk⟩ := h.huge j k hj
    exact ⟨u, (h.tree.walk_setEntry hwalk he (by simp)).trans hu,
      (h.tree.cells_inner hwalk he le_rfl hu).trans hk⟩
  · intro b hb
    have hne : pageOf b ≠ pageOf a := fun heq => ha (((pageOf_eq_iff b a).1 heq).1 ▸ hb)
    rw [PageMap.map, Function.update_of_ne hne]
    exact h.low b hb
  · intro b hb
    have hlen : (path b).length ≤ 3 := le_rfl
    rw [look, h.tree.walk_setEntry hwalk he hlen, PageMap.map]
    by_cases hab : pageOf b = pageOf a
    · obtain ⟨hpath, hindex⟩ := (pageOf_eq_iff b a).1 hab
      rw [hab, Function.update_self, hpath, hwalk, Option.bind_some, hindex,
        Vm.cells_setEntry _ _ _ he, TableTree.store_same, hphys]
    · rw [Function.update_of_ne hab, ← h.maps b hb, look]
      rcases hu : walk img s (path b) with _ | u
      · rfl
      · rw [Option.bind_some, Option.bind_some, h.tree.cells_setEntry hwalk he hlen hu]
        exact fun hpath hindex => hab ((pageOf_eq_iff b a).2 ⟨hpath, hindex⟩)

end Leaf

section Calls

theorem entry_eq (s : Allocators) (P : ℕ) (i : Fin vmEntries) :
    entry s (4096 * P) i = cells s P i := rfl

/-- The 2 MiB entry that maps an address below 4 GiB. -/
theorem Tree.huge_entry (h : Tree img s given) {a : ℕ} (ha : Huge (path a)) :
    ∃ P₁ P₂, child (cells s (root img) (index 39 a)) = some P₁ ∧
      child (cells s P₁ (index 30 a)) = some P₂ ∧ walk img s [0, index 30 a] = some P₂ ∧
      cells s P₂ (index 21 a) &&& vmFlagHuge ≠ 0 := by
  obtain ⟨h39, h30⟩ : index 39 a = 0 ∧ (index 30 a).val < 4 := ⟨Fin.ext ha.1, ha.2⟩
  obtain ⟨t, hwalk, hcell⟩ := h.huge (index 30 a) (index 21 a) h30
  have hboth := hwalk
  simp only [walk, TableTree.walk, Option.bind_eq_some_iff, Option.some.injEq] at hboth
  obtain ⟨P₁, h₁, P₂, h₂, rfl⟩ := hboth
  exact ⟨P₁, P₂, by rw [h39]; exact h₁, h₂, hwalk, hcell⟩

/-- Below 4 GiB `vm_virt_to_phys` reads a 2 MiB entry. -/
theorem Tree.vmVirtToPhys_huge (h : Tree img s given) {a t : ℕ} (ha : Huge (path a))
    (ht : walk img s [0, index 30 a] = some t) :
    vmVirtToPhys img a s = if cells s t (index 21 a) &&& vmFlagPresent = 0 then 0
      else clearLow 21 (cells s t (index 21 a)) ||| (a &&& 0x1fffff) := by
  obtain ⟨P₁, P₂, h₁, h₂, hwalk, hhuge⟩ := h.huge_entry ha
  obtain rfl := Option.some_inj.1 (ht.symm.trans hwalk)
  obtain ⟨hp₁, -, hb₁⟩ := of_child h₁
  obtain ⟨hp₂, -, hb₂⟩ := of_child h₂
  rw [vmVirtToPhys, ← mul_root]
  simp only [entry_eq, hp₁, if_false, hb₁, hp₂, hb₂, ne_eq, hhuge, not_false_eq_true, if_true]

/-- At the other addresses it reads what the last tables say. -/
theorem Tree.vmVirtToPhys_plain (h : Tree img s given) {a : ℕ} (ha : ¬ Huge (path a)) :
    vmVirtToPhys img a s = match look img s a with
      | none => 0
      | some base => base + a % vmPageSize := by
  rw [vmVirtToPhys, ← mul_root]
  simp only [look, walk, path, TableTree.walk]
  rcases h.next (p := []) (i := index 39 a) (by simp) rfl id with h₁ | ⟨P₁, h₁, hw₁⟩
  · simp only [h₁, child_zero, Option.bind_none, entry_eq, Nat.zero_and, if_true]
  obtain ⟨hp₁, -, hb₁⟩ := of_child (child_link P₁)
  simp only [h₁, child_link, Option.bind_some, entry_eq, hp₁, if_false, hb₁]
  rcases h.next (p := [index 39 a]) (i := index 30 a) (by simp) hw₁ id with h₂ | ⟨P₂, h₂, hw₂⟩
  · simp only [h₂, child_zero, Option.bind_none, Nat.zero_and, if_true]
  obtain ⟨hp₂, -, hb₂⟩ := of_child (child_link P₂)
  simp only [h₂, child_link, Option.bind_some, entry_eq, hp₂, if_false, hb₂]
  rcases h.plain (p := [index 39 a, index 30 a]) (i := index 21 a) (by simp) hw₂ ha
    with h₃ | ⟨P₃, h₃⟩
  · simp only [h₃, child_zero, Option.bind_none, Nat.zero_and, if_true]
  obtain ⟨hp₃, hh₃, hb₃⟩ := of_child (child_link P₃)
  simp only [h₃, child_link, Option.bind_some, entry_eq, hp₃, hh₃, ne_eq, not_true_eq_false,
    if_false, hb₃]
  rw [mapped]
  split_ifs
  · rfl
  · change _ ||| (a &&& (2 ^ 12 - 1)) = _
    rw [and_mask, clearLow, Nat.mul_comm, or_of_lt 12 (Nat.mod_lt _ (by decide))]
    rfl

/-- `vm_virt_to_phys` reads the page map. -/
theorem Tables.vmVirtToPhys (h : Tables img s M) (a : ℕ) :
    vmVirtToPhys img a s = M.translate a := by
  by_cases ha : Huge (path a)
  · obtain ⟨t, hwalk, hcell⟩ := h.huge (index 30 a) (index 21 a) ha.2
    obtain ⟨hp, -, hb⟩ := huge_flags (512 * index 30 a + index 21 a)
    rw [h.tree.vmVirtToPhys_huge ha hwalk, hcell, if_neg hp, hb, PageMap.translate, h.low a ha,
      show 0x1fffff = 2 ^ 21 - 1 from rfl, and_mask, or_of_lt 21 (Nat.mod_lt _ (by decide)),
      index_val, index_val]
    have hlow := (huge_path a).1 ha
    rw [vmBootMapBytes] at hlow
    simp only [pageOf, vmPageSize]
    omega
  · rw [h.tree.vmVirtToPhys_plain ha, h.maps a ha]
    rfl

/-- A call with an address or a page off its boundary, or below 4 GiB, is refused. -/
theorem Tree.vmMapPage_refused (h : Tree img s given) {virt phys : ℕ} (flags : ℕ)
    (hc : virt % 4096 ≠ 0 ∨ phys % 4096 ≠ 0 ∨ Huge (path virt)) :
    vmMapPage img virt phys flags s = (-1, s) := by
  rw [vmMapPage]
  split_ifs with hmask
  · rfl
  · rw [show vmPageSize - 1 = 2 ^ 12 - 1 from rfl, and_mask, and_mask] at hmask
    have ha : Huge (path virt) := by
      rcases hc with hvirt | hphys | hlow
      · exact absurd (Or.inl hvirt) hmask
      · exact absurd (Or.inr hphys) hmask
      · exact hlow
    obtain ⟨P₁, P₂, h₁, h₂, -, h₃⟩ := h.huge_entry ha
    rw [← mul_root, descend_of_child h₁]
    dsimp only
    rw [descend_of_child h₂]
    dsimp only
    rw [entry_eq, if_pos h₃]

theorem Tables.vmMapPage_refused (h : Tables img s M) {c : MapCall} (hc : c.Refused) :
    vmMapPage img c.virt c.phys c.flags s = (-1, s) :=
  h.tree.vmMapPage_refused c.flags (hc.imp_right (Or.imp_right (huge_path c.virt).2))

/-- Every other call goes down to a last table, with new tables where there were none, and
stores the entry there. -/
theorem Tree.vmMapPage_stores (h : Tree img s given) (hgiven : given ≤ 2 ^ 50) {virt phys : ℕ}
    (flags : ℕ) (hvirt : virt % 4096 = 0) (hphys : phys % 4096 = 0) (hplain : ¬ Huge (path virt)) :
    ∃ s' t, vmMapPage img virt phys flags s
        = (0, setEntry s' (4096 * t) (index 12 virt) (phys ||| flags ||| vmFlagPresent)) ∧
      Tree img s' given ∧ walk img s' (path virt) = some t ∧ Keeps img s s' := by
  have hmask : ¬ (virt &&& (vmPageSize - 1) ≠ 0 ∨ phys &&& (vmPageSize - 1) ≠ 0) := by
    rw [show vmPageSize - 1 = 2 ^ 12 - 1 from rfl, and_mask, and_mask]
    exact not_or.2 ⟨not_not.2 hvirt, not_not.2 hphys⟩
  obtain ⟨P₁, s₁, hd₁, h₁, hw₁, hk₁⟩ := h.descend hgiven (p := []) (i := index 39 virt) (by simp)
    rfl id
  obtain ⟨P₂, s₂, hd₂, h₂, hw₂, hk₂⟩ := h₁.descend hgiven (p := [index 39 virt])
    (i := index 30 virt) (by simp) hw₁ id
  obtain ⟨P₃, s₃, hd₃, h₃, hw₃, hk₃⟩ := h₂.descend hgiven (p := [index 39 virt, index 30 virt])
    (i := index 21 virt) (by simp) hw₂ hplain
  have hhuge : entry s₂ (4096 * P₂) (index 21 virt) &&& vmFlagHuge = 0 := by
    rcases h₂.plain (p := [index 39 virt, index 30 virt]) (i := index 21 virt) (by simp) hw₂ hplain
      with hzero | ⟨P, hlink⟩
    · rw [show entry s₂ (4096 * P₂) (index 21 virt) = 0 from hzero, Nat.zero_and]
    · rw [show entry s₂ (4096 * P₂) (index 21 virt) = link P from hlink]
      exact (of_child (child_link P)).2.1
  rw [mul_root] at hd₁
  refine ⟨s₃, P₃, ?_, h₃, hw₃, hk₁.trans (hk₂.trans hk₃)⟩
  rw [vmMapPage, if_neg hmask]
  simp only [hd₁, hd₂, hd₃, hhuge, ne_eq, not_true_eq_false, if_false]

/-- A call that is not refused updates the map. -/
theorem Tables.vmMapPage (h : Tables img s M) {c : MapCall} (hc : ¬ c.Refused) :
    ∃ s', vmMapPage img c.virt c.phys c.flags s = (0, s') ∧
      Tables img s' (M.map c.virt c.phys) := by
  obtain ⟨virt, phys, flags, _, hlt, hflags⟩ := c
  simp only [MapCall.Refused, not_or, not_not, ← huge_path] at hc
  obtain ⟨hvirt, hphys, hplain⟩ := hc
  obtain ⟨s', t, hrun, htree, hwalk, hkeeps⟩ :=
    h.tree.vmMapPage_stores (Nat.zero_le _) flags hvirt hphys hplain
  have he : phys ||| flags ||| vmFlagPresent < 2 ^ 64 :=
    Nat.or_lt_two_pow (Nat.or_lt_two_pow hlt (by omega)) (by decide)
  exact ⟨_, hrun, (h.keep htree hkeeps).setLeaf hplain hwalk he (mapped_pte hphys hflags)⟩

end Calls

end Vm

end PeanutKernel
