import PeanutKernel.Proofs.VmTables

/-!
# The page map from `vm_init` on

`vm_init` makes six tables, which represent the identity below 4 GiB (`tables_vmInit`). Each call of
`vm_map_page` keeps the tables and the page map together, so any number of calls does
(`page_tables_refine`).
-/

namespace PeanutKernel

namespace Vm

open Alloc

variable {s : Allocators} {img : KernelImage} {M : PageMap}

section Boot

variable (img)

def pdptPage : ℕ := img.kernelPdpt / 4096

def pdPage : ℕ := img.kernelPd / 4096

theorem mul_pdptPage : 4096 * pdptPage img = img.kernelPdpt := Nat.mul_div_cancel' img.aligned.2.1

theorem mul_pdPage : 4096 * pdPage img = img.kernelPd := Nat.mul_div_cancel' img.aligned.2.2

theorem huge_value (k : ℕ) :
    2 ^ 21 * k ||| tableFlags ||| vmFlagHuge = 2 ^ 21 * k + 0x87 := by
  rw [Nat.or_assoc]
  exact or_of_lt 21 (by decide) k

/-- The number of a 2 MiB entry in the four tables of `kernel_pd`. -/
def hugeNumber (P : ℕ) (i : Fin vmEntries) : ℕ := 512 * (P - pdPage img) + i

/-- While no address passes the first 4 GiB of its 512 GiB, each round stores an entry. -/
theorem identityLoop_within {flags : ℕ} (hflags : flags < 2 ^ 64) (n : ℕ) :
    ∀ (k : ℕ) (s : Allocators), n ≤ 2048 - k % 2 ^ 18 → k + n ≤ 2 ^ 43 →
      (identityLoop img flags n (2 ^ 21 * k) s).1 = 0 ∧
      (identityLoop img flags n (2 ^ 21 * k) s).2.pageBump = s.pageBump ∧
      ∀ P i, cells (identityLoop img flags n (2 ^ 21 * k) s).2 P i
        = if pdPage img ≤ P ∧ P < pdPage img + 4 ∧ k % 2 ^ 18 ≤ hugeNumber img P i ∧
            hugeNumber img P i < k % 2 ^ 18 + n
          then 2 ^ 21 * (2 ^ 18 * (k / 2 ^ 18) + hugeNumber img P i) ||| flags ||| vmFlagHuge
          else cells s P i := by
  induction n with
  | zero =>
    intro k s _ _
    refine ⟨rfl, rfl, fun P i => ?_⟩
    rw [if_neg (by omega)]
    rfl
  | succ n ih =>
    intro k s hk hlt
    have h30 : (index 30 (2 ^ 21 * k)).val = k % 2 ^ 18 / 512 := by
      rw [index_val]
      omega
    have h21 : (index 21 (2 ^ 21 * k)).val = k % 2 ^ 18 % 512 := by
      rw [index_val]
      omega
    have hpd : img.kernelPd + vmPageSize * (k % 2 ^ 18 / 512)
        = 4096 * (pdPage img + k % 2 ^ 18 / 512) := by
      rw [← mul_pdPage, vmPageSize]
      omega
    have hnext : 2 ^ 21 * k + 0x200000 = 2 ^ 21 * (k + 1) := by omega
    have he : 2 ^ 21 * k ||| flags ||| vmFlagHuge < 2 ^ 64 :=
      Nat.or_lt_two_pow (Nat.or_lt_two_pow (by omega) hflags) (by decide)
    have hdiv : (k + 1) / 2 ^ 18 = k / 2 ^ 18 := by omega
    have hmod : (k + 1) % 2 ^ 18 = k % 2 ^ 18 + 1 := by omega
    rw [identityLoop]
    simp only [h30]
    rw [if_neg (by omega), hnext, hpd]
    obtain ⟨hret, hbump, hcells⟩ := ih (k + 1) (setEntry s (4096 * (pdPage img + k % 2 ^ 18 / 512))
      (index 21 (2 ^ 21 * k)) (2 ^ 21 * k ||| flags ||| vmFlagHuge)) (by omega) (by omega)
    refine ⟨hret, hbump, fun P i => ?_⟩
    have hi : i.val < 512 := i.isLt
    rw [hcells, cells_setEntry _ _ _ he, hdiv, hmod]
    by_cases hhere : P = pdPage img + k % 2 ^ 18 / 512 ∧ i = index 21 (2 ^ 21 * k)
    · obtain ⟨rfl, rfl⟩ := hhere
      have hnum : hugeNumber img (pdPage img + k % 2 ^ 18 / 512) (index 21 (2 ^ 21 * k))
          = k % 2 ^ 18 := by
        rw [hugeNumber, h21]
        omega
      rw [hnum, if_neg (by omega), if_pos (by omega), TableTree.store_same, Nat.div_add_mod]
    · have hnum : pdPage img ≤ P → hugeNumber img P i ≠ k % 2 ^ 18 := by
        intro hP heq
        rw [hugeNumber] at heq
        refine hhere ⟨by omega, Fin.ext ?_⟩
        rw [h21]
        omega
      rw [TableTree.store_of_ne fun hP hi => hhere ⟨hP, hi⟩]
      by_cases hin : pdPage img ≤ P ∧ P < pdPage img + 4 ∧ k % 2 ^ 18 + 1 ≤ hugeNumber img P i ∧
          hugeNumber img P i < k % 2 ^ 18 + 1 + n
      · rw [if_pos hin, if_pos (by omega)]
      · have := hnum
        rw [if_neg hin, if_neg (by omega)]

theorem link_value (P : ℕ) : 4096 * P ||| tableFlags = link P := or_of_lt 12 (by decide) P

theorem foldl_pdptRound :
    ∀ (l : List (Fin 4)) (s : Allocators),
      (l.foldl (pdptRound img) s).pageBump = s.pageBump ∧
      ∀ P i, cells (l.foldl (pdptRound img) s) P i
        = if P = pdptPage img ∧ ∃ j ∈ l, i.val = j.val then link (pdPage img + i)
          else cells s P i
  | [], s => ⟨rfl, fun P i => by simp⟩
  | x :: l, s => by
    have hlow := img.low
    have hbelow := img.below.2.2
    have hround : pdptRound img s x
        = setEntry s (4096 * pdptPage img) (x.castLE (by decide)) (link (pdPage img + x)) := by
      rw [pdptRound, ← mul_pdPage, ← mul_pdptPage, vmPageSize, ← Nat.mul_add, link_value]
    have hlt : link (pdPage img + x) < 2 ^ 64 := by
      rw [← mul_pdPage, vmPageSize] at hbelow
      rw [link]
      omega
    obtain ⟨hbump, hcells⟩ := foldl_pdptRound l (pdptRound img s x)
    rw [List.foldl_cons]
    refine ⟨hbump, fun P i => ?_⟩
    rw [hcells, hround, cells_setEntry _ _ _ hlt]
    by_cases hl : P = pdptPage img ∧ ∃ j ∈ l, i.val = j.val
    · rw [if_pos hl, if_pos ⟨hl.1, hl.2.imp fun j hj => ⟨List.mem_cons_of_mem _ hj.1, hj.2⟩⟩]
    · rw [if_neg hl]
      by_cases hx : P = pdptPage img ∧ i.val = x.val
      · obtain ⟨rfl, hix⟩ := hx
        rw [if_pos ⟨rfl, x, List.mem_cons_self, hix⟩,
          show i = x.castLE (by decide) from Fin.ext hix, TableTree.store_same]
        rfl
      · rw [TableTree.store_of_ne fun hP hi => hx ⟨hP, congrArg Fin.val hi⟩, if_neg]
        rintro ⟨hP, j, hj, hij⟩
        rcases List.mem_cons.1 hj with rfl | hj
        · exact hx ⟨hP, hij⟩
        · exact hl ⟨hP, j, hj, hij⟩

variable {img}

theorem cells_clear (h : img.Clear s.mem) {P : ℕ} (i : Fin vmEntries)
    (hP : P = root img ∨ P = pdptPage img) : cells s P i = 0 := by
  have hi : i.val < 512 := i.isLt
  have hzero : le64 s.mem (4096 * P + 8 * i) = le64 (fun _ => 0) (4096 * P + 8 * i) := by
    refine le64_congr fun x hge hlt => h x ?_
    rcases hP with rfl | rfl
    · rw [← mul_root, vmPageSize]
      omega
    · rw [← mul_pdptPage, vmPageSize]
      omega
  exact hzero.trans (by simp [le64, le32])

/-- The static tables on different pages, all before the first page. -/
theorem pages_apart (img : KernelImage) :
    root img ≠ pdptPage img ∧ (root img < pdPage img ∨ pdPage img + 4 ≤ root img) ∧
      (pdptPage img < pdPage img ∨ pdPage img + 4 ≤ pdptPage img) ∧
      root img < firstPage img.kernelEnd / 4096 ∧ pdptPage img < firstPage img.kernelEnd / 4096 ∧
      pdPage img + 4 ≤ firstPage img.kernelEnd / 4096 := by
  have hapart := img.apart
  have hbelow := img.below
  have hlow := img.low
  have hfirst : firstPage img.kernelEnd = (img.kernelEnd + 4096 - 1) % 2 ^ 64 / 4096 * 4096 := rfl
  rw [← mul_root, ← mul_pdptPage, ← mul_pdPage, vmPageSize] at hapart hbelow
  omega

theorem link_pdptPage_lt (img : KernelImage) : link (pdptPage img) < 2 ^ 64 := by
  have hbelow := img.below.2.1
  have hlow := img.low
  rw [← mul_pdptPage, vmPageSize] at hbelow
  rw [link]
  omega

theorem vmInit_eq (img : KernelImage) (s : Allocators) :
    vmInit img s = (identityLoop img tableFlags 2048 (2 ^ 21 * 0) ((List.finRange 4).foldl
      (pdptRound img) (setEntry { s with pageBump := firstPage img.kernelEnd } img.kernelPml4 0
        (img.kernelPdpt ||| tableFlags)))).2 := by
  have hmask : ¬ (0 &&& 0x1FFFFF ≠ 0 ∨ vmBootMapBytes &&& 0x1FFFFF ≠ 0) := by decide
  have hcount : ((0 + vmBootMapBytes) % 2 ^ 64 - 0) / 0x200000 = 2048 := by simp [vmBootMapBytes]
  have hflags : vmFlagPresent ||| vmFlagWrite ||| vmFlagUser = tableFlags := rfl
  unfold vmInit vmMapIdentity2m
  rw [if_neg hmask]
  simp only [hcount, hflags, Nat.mul_zero]

theorem pageBump_vmInit (img : KernelImage) (s : Allocators) :
    (vmInit img s).pageBump = firstPage img.kernelEnd := by
  rw [vmInit_eq, (identityLoop_within img (by decide) 2048 0 _ (by decide) (by decide)).2.1,
    (foldl_pdptRound img _ _).1]
  rfl

/-- The tables after `vm_init`. -/
theorem cells_vmInit (h : img.Clear s.mem) (P : ℕ) (i : Fin vmEntries) :
    (P = root img → cells (vmInit img s) P i = if i = 0 then link (pdptPage img) else 0) ∧
    (P = pdptPage img → cells (vmInit img s) P i = if i.val < 4 then link (pdPage img + i) else 0) ∧
    (∀ j < 4, P = pdPage img + j → cells (vmInit img s) P i = 2 ^ 21 * (512 * j + i) + 0x87) := by
  have hi : i.val < 512 := i.isLt
  obtain ⟨hr, hrd, hpd, h₁, h₂, h₃⟩ := pages_apart img
  rw [vmInit_eq, (identityLoop_within img (by decide) 2048 0 _ (by decide) (by decide)).2.2,
    (foldl_pdptRound img _ _).2, ← mul_root, ← mul_pdptPage, link_value,
    cells_setEntry _ _ _ (link_pdptPage_lt img)]
  refine ⟨?_, ?_, ?_⟩
  · rintro rfl
    rw [if_neg (by omega), if_neg (by simp [hr])]
    split_ifs with hzero
    · rw [hzero, TableTree.store_same]
    · rw [TableTree.store_of_ne fun _ => hzero]
      exact cells_clear h i (Or.inl rfl)
  · rintro rfl
    rw [if_neg (by omega)]
    have hmem : (∃ j ∈ List.finRange 4, i.val = j.val) ↔ i.val < 4 :=
      ⟨fun ⟨j, _, hj⟩ => hj ▸ j.isLt, fun hlt => ⟨⟨i.val, hlt⟩, List.mem_finRange _, rfl⟩⟩
    simp only [true_and, hmem]
    split_ifs with hlt
    · rfl
    · rw [TableTree.store_of_ne fun heq => absurd heq.symm hr]
      exact cells_clear h i (Or.inr rfl)
  · rintro j hj rfl
    rw [hugeNumber, if_pos (by omega), Nat.add_sub_cancel_left, Nat.zero_div, Nat.mul_zero,
      Nat.zero_add, huge_value]

theorem child_huge (N : ℕ) : child (2 ^ 21 * N + 0x87) = none := if_pos (Or.inr (huge_flags N).2.1)

/-- The tables `vm_init` makes, and no others. -/
theorem walk_vmInit (h : img.Clear s.mem) {p : List (Fin vmEntries)} {t : ℕ}
    (hwalk : walk img (vmInit img s) p = some t) :
    (p = [] ∧ t = root img) ∨ (p = [0] ∧ t = pdptPage img) ∨
      ∃ j : Fin vmEntries, j.val < 4 ∧ p = [0, j] ∧ t = pdPage img + j := by
  rcases p with _ | ⟨i, p⟩
  · exact Or.inl ⟨rfl, (Option.some_inj.1 hwalk).symm⟩
  rw [walk, TableTree.walk, (cells_vmInit h _ i).1 rfl] at hwalk
  by_cases hi : i = 0
  · rw [if_pos hi, child_link, Option.bind_some] at hwalk
    rcases p with _ | ⟨j, p⟩
    · exact Or.inr (Or.inl ⟨by rw [hi], (Option.some_inj.1 hwalk).symm⟩)
    rw [TableTree.walk, (cells_vmInit h _ j).2.1 rfl] at hwalk
    by_cases hj : j.val < 4
    · rw [if_pos hj, child_link, Option.bind_some] at hwalk
      rcases p with _ | ⟨k, p⟩
      · exact Or.inr (Or.inr ⟨j, hj, by rw [hi], (Option.some_inj.1 hwalk).symm⟩)
      rw [TableTree.walk, (cells_vmInit h _ k).2.2 j hj rfl, child_huge] at hwalk
      cases hwalk
    · rw [if_neg hj, child_zero] at hwalk
      cases hwalk
  · rw [if_neg hi, child_zero] at hwalk
    cases hwalk

theorem walk_vmInit_pd (h : img.Clear s.mem) {j : Fin vmEntries} (hj : j.val < 4) :
    walk img (vmInit img s) [0, j] = some (pdPage img + j) := by
  simp only [walk, TableTree.walk, (cells_vmInit h _ _).1 rfl, (cells_vmInit h _ _).2.1 rfl,
    if_true, child_link, Option.bind_some, if_pos hj]

/-- After `vm_init` the tables represent the identity below 4 GiB. -/
theorem tables_vmInit (h : img.Clear s.mem) : Tables img (vmInit img s) PageMap.boot := by
  obtain ⟨hr, hrd, hpd, h₁, h₂, h₃⟩ := pages_apart img
  have hbump := pageBump_vmInit img s
  refine ⟨?_, hbump.ge, ?_, ?_, ?_, ?_, ?_, ?_, ?_⟩
  · rw [hbump]
    exact Nat.mul_div_cancel' (Nat.dvd_mul_left _ _)
  · intro p q t _ _ hp hq
    rcases walk_vmInit h hp with ⟨rfl, ht⟩ | ⟨rfl, ht⟩ | ⟨j, hj, rfl, ht⟩ <;>
      rcases walk_vmInit h hq with ⟨rfl, ht'⟩ | ⟨rfl, ht'⟩ | ⟨j', hj', rfl, ht'⟩
    · rfl
    · omega
    · omega
    · omega
    · rfl
    · omega
    · omega
    · omega
    · rw [Fin.ext (show j.val = j'.val by omega)]
  · intro p t _ hp
    rw [hbump]
    rcases walk_vmInit h hp with ⟨-, rfl⟩ | ⟨-, rfl⟩ | ⟨j, hj, -, rfl⟩
    · exact h₁
    · exact h₂
    · omega
  · intro t hge hlt
    omega
  · intro j k hj
    exact ⟨_, walk_vmInit_pd h hj, (cells_vmInit h _ k).2.2 j hj rfl⟩
  · intro p t i _ hp hplain
    rcases walk_vmInit h hp with ⟨rfl, rfl⟩ | ⟨rfl, rfl⟩ | ⟨j, hj, rfl, rfl⟩
    · rw [(cells_vmInit h _ i).1 rfl]
      split_ifs
      · exact Or.inr ⟨_, rfl⟩
      · exact Or.inl rfl
    · rw [(cells_vmInit h _ i).2.1 rfl]
      split_ifs
      · exact Or.inr ⟨_, rfl⟩
      · exact Or.inl rfl
    · exact absurd ⟨rfl, hj⟩ hplain
  · intro a ha
    rw [huge_path, vmBootMapBytes] at ha
    rw [PageMap.boot, pageOf, vmPageSize, vmBootMapBytes, if_pos (by omega), Nat.mul_comm]
  · intro a ha
    have hnone : walk img (vmInit img s) (path a) = none := by
      rw [Option.eq_none_iff_forall_ne_some]
      intro t ht
      rcases walk_vmInit h ht with ⟨hp, -⟩ | ⟨hp, -⟩ | ⟨j, -, hp, -⟩
      · simp [path] at hp
      · simp [path] at hp
      · simp [path] at hp
    rw [huge_path, vmBootMapBytes] at ha
    rw [look, hnone, PageMap.boot, pageOf, vmPageSize, vmBootMapBytes, if_neg (by omega)]
    rfl

end Boot

section Run

theorem mapBoth_snd (img : KernelImage) (sM : Allocators × PageMap) (c : MapCall) :
    (mapBoth img sM c).2 = if (vmMapPage img c.virt c.phys c.flags sM.1).1 = 0
      then sM.2.map c.virt c.phys else sM.2 := rfl

theorem Tables.mapBoth (h : Tables img s M) (c : MapCall) :
    Tables img (mapBoth img (s, M) c).1 (mapBoth img (s, M) c).2 := by
  by_cases hc : c.Refused
  · simpa [Vm.mapBoth, h.vmMapPage_refused hc] using h
  · obtain ⟨s', hrun, h'⟩ := h.vmMapPage hc
    simpa [Vm.mapBoth, hrun] using h'

theorem Tables.foldl (calls : List MapCall) (h : Tables img s M) :
    Tables img (calls.foldl (Vm.mapBoth img) (s, M)).1 (calls.foldl (Vm.mapBoth img) (s, M)).2 := by
  induction calls generalizing s M with
  | nil => exact h
  | cons c calls ih => exact ih (h.mapBoth c)

/-- After `vm_init` and any calls of `vm_map_page`, `vm_virt_to_phys` is the page map that each call
that returned 0 has updated. A further call returns -1 if it is to be refused and 0 otherwise; where
it returns -1 it changes no translation and takes no page. -/
theorem page_tables_refine (img : KernelImage) (s : Allocators) (hclear : img.Clear s.mem)
    (calls : List MapCall) :
    let sM := calls.foldl (mapBoth img) (vmInit img s, PageMap.boot)
    (∀ a, vmVirtToPhys img a sM.1 = sM.2.translate a) ∧
    ∀ c : MapCall,
      let r := vmMapPage img c.virt c.phys c.flags sM.1
      (r.1 = -1 ↔ c.Refused) ∧ (r.1 = 0 ∨ r.1 = -1) ∧
      (r.1 = -1 → (∀ a, vmVirtToPhys img a r.2 = vmVirtToPhys img a sM.1) ∧
        r.2.pageBump = sM.1.pageBump) := by
  intro sM
  have h : Tables img sM.1 sM.2 := (tables_vmInit hclear).foldl calls
  refine ⟨h.vmVirtToPhys, fun c => ?_⟩
  by_cases hc : c.Refused
  · simp [h.vmMapPage_refused hc, hc]
  · obtain ⟨s', hrun, -⟩ := h.vmMapPage hc
    simp [hrun, hc]

section Sample

def sampleImage : KernelImage where
  kernelPml4 := 0x101000
  kernelPdpt := 0x102000
  kernelPd := 0x103000
  kernelEnd := 0x107000
  aligned := by decide
  apart := by decide
  below := by decide
  low := by decide

/-- Memory of zeros. -/
def sampleState : Allocators := ⟨fun _ => 0, 0, 0, fun _ => 0, [], [], [], 0⟩

/-- The first page behind the boot map. -/
def sampleCall : MapCall := ⟨2 ^ 32, 0x5000, 3, by decide, by decide, by decide⟩

theorem page_tables_refine_sample :
    vmVirtToPhys sampleImage (2 ^ 32 + 5) ([sampleCall].foldl (mapBoth sampleImage)
      (vmInit sampleImage sampleState, PageMap.boot)).1 = 0x5005 := by
  obtain ⟨-, hcall⟩ := page_tables_refine sampleImage sampleState (fun _ _ => rfl) []
  obtain ⟨hrefused, hret, -⟩ := hcall sampleCall
  have hzero := hret.resolve_right (mt hrefused.1 (by decide))
  rw [(page_tables_refine sampleImage sampleState (fun _ _ => rfl) [sampleCall]).1]
  rw [List.foldl_nil] at hzero
  rw [List.foldl_cons, List.foldl_nil, mapBoth_snd, if_pos hzero]
  decide

end Sample

end Run

end Vm

end PeanutKernel
