import PeanutKernel.Proofs.Vm
import PeanutKernel.VmIdentity
import PeanutKernel.Lib.Runs

/-!
# Identity maps from `vm_init` on

Whatever calls come after `vm_init`, the six static tables stay in place, and the entries of
`kernel_pd` stay 2 MiB entries (`Booted`). So a call of `vm_map_identity_2m` changes the
translation of the addresses whose low 48 bits pick an entry that it stores, and of no others
(`Booted.vmVirtToPhys_identity`).

Of any two addresses 2^48 apart one is not in a range that the loop comes to the end of, so a call
is all or nothing only if it changes no translation at all (`identity_all_or_nothing_iff`).
-/

namespace PeanutKernel

namespace Vm

open Alloc

variable {s s' : Allocators} {img : KernelImage} {given : ℕ}

section Loop

variable (img)

theorem identityLoop_add {flags : ℕ} (n : ℕ) :
    ∀ (m addr : ℕ) (s : Allocators), (identityLoop img flags m addr s).1 = 0 →
      identityLoop img flags (m + n) addr s
        = identityLoop img flags n (addr + 0x200000 * m) (identityLoop img flags m addr s).2
  | 0, addr, s, _ => by
    rw [Nat.zero_add]
    rfl
  | m + 1, addr, s, hret => by
    by_cases hpast : 4 ≤ (index 30 addr).val
    · simp [identityLoop, hpast] at hret
    · simp only [identityLoop, hpast, if_false] at hret
      rw [Nat.add_right_comm]
      simp only [identityLoop, hpast, if_false]
      rw [identityLoop_add n m _ _ hret, Nat.mul_succ, Nat.add_assoc, Nat.add_comm 0x200000]

/-- The loop stores entries up to the first address past 4 GiB in its 512 GiB. -/
theorem identityLoop_stops {flags : ℕ} (hflags : flags < 2 ^ 64) (k n : ℕ) (s : Allocators)
    (hlt : k + n ≤ 2 ^ 43) :
    identityLoop img flags n (2 ^ 21 * k) s
      = (if min n (2048 - k % 2 ^ 18) = n then 0 else -1,
        (identityLoop img flags (min n (2048 - k % 2 ^ 18)) (2 ^ 21 * k) s).2) := by
  obtain ⟨m, hm⟩ : ∃ m, min n (2048 - k % 2 ^ 18) = m := ⟨_, rfl⟩
  obtain ⟨hret, -, -⟩ := identityLoop_within img hflags m k s (by omega) (by omega)
  rw [hm]
  split_ifs with hall
  · rw [hall] at hret ⊢
    exact Prod.ext hret rfl
  · obtain ⟨n', rfl⟩ : ∃ n', n = m + (n' + 1) := ⟨n - m - 1, by omega⟩
    have hpast : 4 ≤ (index 30 (2 ^ 21 * k + 0x200000 * m)).val := by
      rw [index_val]
      omega
    rw [identityLoop_add img _ m _ s hret, identityLoop]
    simp only [hpast, if_true]

end Loop

section Booted

/-- The static tables are where `vm_init` has put them. -/
structure Booted (img : KernelImage) (s : Allocators) (given : ℕ) : Prop extends
    Tree img s given where
  pdpt : walk img s [0] = some (pdptPage img)
  pd : ∀ {j : Fin vmEntries}, j.val < 4 → walk img s [0, j] = some (pdPage img + j)

theorem booted_vmInit (h : img.Clear s.mem) : Booted img (vmInit img s) 0 := by
  refine ⟨(tables_vmInit h).tree, ?_, fun hj => walk_vmInit_pd h hj⟩
  simp only [walk, TableTree.walk, (cells_vmInit h _ _).1 rfl, if_true, child_link,
    Option.bind_some]

/-- The entries of `kernel_pd` are the same. -/
def SamePd (img : KernelImage) (s s' : Allocators) : Prop :=
  ∀ j i : Fin vmEntries, j.val < 4 → cells s' (pdPage img + j) i = cells s (pdPage img + j) i

variable (h : Booted img s given)

include h

theorem Booted.keep {given' : ℕ} (htree : Tree img s' given')
    (hwalk : ∀ {q u}, q.length ≤ 3 → walk img s q = some u → walk img s' q = some u) :
    Booted img s' given' :=
  ⟨htree, hwalk (by simp) h.pdpt, fun hj => hwalk (by simp) (h.pd hj)⟩

theorem Booted.cells_root : cells s (root img) 0 = link (pdptPage img) := by
  rcases h.next (p := []) (i := 0) (by simp) rfl id with hzero | ⟨P, hlink, hwalk⟩
  · have hwalk := h.pdpt
    rw [walk, TableTree.walk, hzero, child_zero] at hwalk
    cases hwalk
  · rw [hlink, Option.some_inj.1 (hwalk.symm.trans h.pdpt)]

theorem Booted.cells_pdpt {j : Fin vmEntries} (hj : j.val < 4) :
    cells s (pdptPage img) j = link (pdPage img + j) := by
  rcases h.next (p := [0]) (i := j) (by simp) h.pdpt id with hzero | ⟨P, hlink, hwalk⟩
  · have hwalk := TableTree.walk_concat_of_some h.pdpt j
    rw [hzero, child_zero] at hwalk
    exact absurd (hwalk.symm.trans (h.pd hj)) (by simp)
  · rw [hlink, Option.some_inj.1 (hwalk.symm.trans (h.pd hj))]

theorem Booted.cells_pd {j : Fin vmEntries} (hj : j.val < 4)
    (i : Fin vmEntries) : cells s (pdPage img + j) i &&& vmFlagHuge ≠ 0 := by
  obtain ⟨t, hwalk, hhuge⟩ := h.huge j i hj
  rwa [Option.some_inj.1 (hwalk.symm.trans (h.pd hj))] at hhuge

theorem Booted.vmAllocPage (hgiven : given ≤ 2 ^ 50) :
    Booted img (vmAllocPage s).2 (given + 1) ∧ SamePd img s (vmAllocPage s).2 := by
  have hlt := h.bump_lt hgiven
  have hbump : (Alloc.vmAllocPage s).2.pageBump = s.pageBump + 4096 :=
    Nat.mod_eq_of_lt (show s.pageBump + 4096 < 2 ^ 64 from hlt)
  have htop : (Alloc.vmAllocPage s).2.pageBump / 4096 = s.pageBump / 4096 + 1 := by omega
  have hcells : ∀ {q u i}, q.length ≤ 3 → walk img s q = some u →
      cells (Alloc.vmAllocPage s).2 u i = cells s u i := fun hq hu => by
    rw [cells_alloc h.bump.symm, Function.update_of_ne (h.below hq hu).ne]
  have hwalk : ∀ q, q.length ≤ 3 → walk img (Alloc.vmAllocPage s).2 q = walk img s q :=
    TableTree.walk_congr fun p i u hp hu => by rw [hcells hp.le hu]
  refine ⟨h.keep ?_ fun hq hu => (hwalk _ hq).trans hu, fun j i hj => hcells (by simp) (h.pd hj)⟩
  obtain ⟨others, hothers, howned⟩ := h.owned
  have hcard : (insert (s.pageBump / 4096) others).card ≤ given + 1 :=
    (Finset.card_insert_le _ _).trans (Nat.succ_le_succ hothers)
  refine (h.raise (fun hq => hwalk _ hq) ?_ ?_ ⟨?_, ?_⟩ fun u hge hu => ?_).mono hcard
  · intro j k u hj hu
    obtain rfl := Option.some_inj.1 (hu.symm.trans (h.pd hj))
    rw [hcells (by simp) hu]
    exact h.cells_pd hj k
  · exact fun hq hu _ => hcells (by omega) hu
  · have := h.bump
    omega
  · omega
  · rcases Nat.lt_succ_iff_lt_or_eq.1 (htop ▸ hu) with hu | rfl
    · exact (howned u hge hu).imp_left (Finset.mem_insert_of_mem ·)
    · exact .inl (Finset.mem_insert_self _ _)

theorem Booted.vmMapPage (hgiven : given ≤ 2 ^ 50) {virt phys flags : ℕ}
    (hphys : phys < 2 ^ 64) (hflags : flags < 2 ^ 64) :
    Booted img (vmMapPage img virt phys flags s).2 given ∧
      SamePd img s (vmMapPage img virt phys flags s).2 := by
  by_cases hc : virt % 4096 ≠ 0 ∨ phys % 4096 ≠ 0 ∨ Huge (path virt)
  · rw [h.vmMapPage_refused flags hc]
    exact ⟨h, fun _ _ _ => rfl⟩
  · simp only [not_or, not_not] at hc
    obtain ⟨s', t, hrun, htree, hwalk, hkeeps⟩ :=
      h.vmMapPage_stores hgiven flags hc.1 hc.2.1 hc.2.2
    have he : phys ||| flags ||| vmFlagPresent < 2 ^ 64 :=
      Nat.or_lt_two_pow (Nat.or_lt_two_pow hphys hflags) (by decide)
    rw [hrun]
    refine ⟨h.keep (htree.setLeaf hwalk he) fun hq hu => ?_, fun j i hj => ?_⟩
    · exact (htree.walk_setEntry hwalk he hq).trans (hkeeps.walks hq hu)
    · exact (htree.cells_inner hwalk he le_rfl (hkeeps.walks (by simp) (h.pd hj))).trans
        (hkeeps.huge hj (h.pd hj))

end Booted

section Identity

variable {start bytes flags : ℕ}

/-- The entries a call stores. -/
def Stored (img : KernelImage) (start bytes P : ℕ) (i : Fin vmEntries) : Prop :=
  pdPage img ≤ P ∧ P < pdPage img + 4 ∧ start / 2 ^ 21 % 2 ^ 18 ≤ hugeNumber img P i ∧
    hugeNumber img P i < start / 2 ^ 21 % 2 ^ 18 + stores start bytes

instance (img : KernelImage) (start bytes P : ℕ) (i : Fin vmEntries) :
    Decidable (Stored img start bytes P i) := inferInstanceAs (Decidable (_ ∧ _ ∧ _ ∧ _))

/-- The entries of the first two tables are stored as they are. -/
theorem Booted.cells_links (h : Booted img s given) :
    cells ((List.finRange 4).foldl (pdptRound img)
      (setEntry s img.kernelPml4 0 (img.kernelPdpt ||| tableFlags))) = cells s := by
  funext P i
  rw [(foldl_pdptRound img _ _).2, ← mul_root, ← mul_pdptPage, link_value,
    cells_setEntry _ _ _ (link_pdptPage_lt img)]
  split_ifs with hlink
  · obtain ⟨rfl, j, -, hj⟩ := hlink
    exact (h.cells_pdpt (hj ▸ j.isLt)).symm
  · by_cases hhere : P = root img ∧ i = 0
    · obtain ⟨rfl, rfl⟩ := hhere
      rw [TableTree.store_same, h.cells_root]
    · exact TableTree.store_of_ne fun hP hi => hhere ⟨hP, hi⟩

theorem Booted.vmMapIdentity2m_spec (h : Booted img s given) (hstart : start < 2 ^ 64)
    (hflags : flags < 2 ^ 64) (haligned : start % 0x200000 = 0 ∧ bytes % 0x200000 = 0) :
    (vmMapIdentity2m img start bytes flags s).1
      = (if stores start bytes = rounds start bytes then 0 else -1) ∧
    (vmMapIdentity2m img start bytes flags s).2.pageBump = s.pageBump ∧
    ∀ P i, cells (vmMapIdentity2m img start bytes flags s).2 P i
      = if Stored img start bytes P i
        then 2 ^ 21 * (2 ^ 18 * (start / 2 ^ 39) + hugeNumber img P i) ||| flags ||| vmFlagHuge
        else cells s P i := by
  obtain ⟨k, rfl⟩ : ∃ k, start = 2 ^ 21 * k := ⟨start / 2 ^ 21, by omega⟩
  have hmask : ¬ (2 ^ 21 * k &&& 0x1FFFFF ≠ 0 ∨ bytes &&& 0x1FFFFF ≠ 0) := by
    rw [show 0x1FFFFF = 2 ^ 21 - 1 from rfl, and_mask, and_mask]
    exact not_or.2 ⟨not_not.2 haligned.1, not_not.2 haligned.2⟩
  have hcount : k + rounds (2 ^ 21 * k) bytes ≤ 2 ^ 43 := by
    unfold rounds
    omega
  have hstores : stores (2 ^ 21 * k) bytes
      = min (rounds (2 ^ 21 * k) bytes) (2048 - k % 2 ^ 18) := by
    unfold stores vmBootMapBytes
    congr 1
    omega
  have hrun : vmMapIdentity2m img (2 ^ 21 * k) bytes flags s
      = identityLoop img flags (rounds (2 ^ 21 * k) bytes) (2 ^ 21 * k)
        ((List.finRange 4).foldl (pdptRound img)
          (setEntry s img.kernelPml4 0 (img.kernelPdpt ||| tableFlags))) := by
    rw [vmMapIdentity2m, if_neg hmask]
    rfl
  obtain ⟨-, hbump, hcells⟩ := identityLoop_within img hflags (stores (2 ^ 21 * k) bytes) k
    ((List.finRange 4).foldl (pdptRound img)
      (setEntry s img.kernelPml4 0 (img.kernelPdpt ||| tableFlags))) (by omega) (by omega)
  rw [hrun, identityLoop_stops img hflags k _ _ hcount, ← hstores]
  refine ⟨rfl, hbump.trans (foldl_pdptRound img _ _).1, fun P i => ?_⟩
  have hdiv : 2 ^ 21 * k / 2 ^ 21 = k := by omega
  have hbase : 2 ^ 21 * k / 2 ^ 39 = k / 2 ^ 18 := by omega
  rw [hcells, h.cells_links]
  simp only [Stored, hdiv, hbase]

theorem or_huge (x : ℕ) : (x ||| vmFlagHuge) &&& vmFlagHuge ≠ 0 := by
  rw [Nat.and_or_distrib_right, Nat.and_self]
  exact fun h => absurd (Nat.or_eq_zero_iff.1 h).2 (by decide)

theorem child_of_huge {e : ℕ} (h : e &&& vmFlagHuge ≠ 0) : child e = none := if_pos (Or.inr h)

theorem Stored.page {P : ℕ} {i : Fin vmEntries} (hst : Stored img start bytes P i) :
    ∃ j : Fin vmEntries, j.val < 4 ∧ P = pdPage img + j := by
  obtain ⟨hge, hlt, -⟩ := hst
  refine ⟨⟨P - pdPage img, show P - pdPage img < 512 by omega⟩, ?_, ?_⟩
  · change P - pdPage img < 4
    omega
  · change P = pdPage img + (P - pdPage img)
    omega

/-- An entry that is stored is one of the boot map. -/
theorem Booted.huge_of_stored (h : Booted img s given) {p : List (Fin vmEntries)} {t : ℕ}
    {i : Fin vmEntries} (hp : p.length ≤ 2) (hwalk : walk img s p = some t)
    (hst : Stored img start bytes t i) : Huge (p ++ [i]) := by
  obtain ⟨j, hj, rfl⟩ := hst.page
  rw [h.distinct p [0, j] _ (by omega) (by simp) hwalk (h.pd hj)]
  exact ⟨rfl, hj⟩

section Stores

variable (h : Booted img s given)
  (hhuge : ∀ P i, Stored img start bytes P i → cells s' P i &&& vmFlagHuge ≠ 0)
  (hsame : ∀ P i, ¬ Stored img start bytes P i → cells s' P i = cells s P i)

include h hhuge hsame

/-- No walk goes through an entry that is stored, before or after. -/
theorem Booted.walk_stores : ∀ q, q.length ≤ 3 → walk img s' q = walk img s q := by
  refine TableTree.walk_congr fun p i u _ _ => ?_
  by_cases hst : Stored img start bytes u i
  · obtain ⟨j, hj, rfl⟩ := hst.page
    rw [child_of_huge (hhuge _ i hst), child_of_huge (h.cells_pd hj i)]
  · rw [hsame u i hst]

theorem Booted.stores (hbump : s'.pageBump = s.pageBump) : Booted img s' given := by
  have hwalk := h.walk_stores hhuge hsame
  refine h.keep (h.change (fun hq => hwalk _ hq) ?_ ?_ hbump) fun hq hu => (hwalk _ hq).trans hu
  · intro j k t hj ht
    obtain rfl := Option.some_inj.1 (ht.symm.trans (h.pd hj))
    by_cases hst : Stored img start bytes (pdPage img + j) k
    · exact hhuge _ k hst
    · rw [hsame _ k hst]
      exact h.cells_pd hj k
  · intro p t i hp ht hplain
    exact hsame t i fun hst => hplain (h.huge_of_stored hp ht hst)

/-- Above 4 GiB every address is translated as before. -/
theorem Booted.vmVirtToPhys_stores (hbump : s'.pageBump = s.pageBump) {a : ℕ}
    (ha : ¬ Huge (path a)) : vmVirtToPhys img a s' = vmVirtToPhys img a s := by
  rw [(h.stores hhuge hsame hbump).vmVirtToPhys_plain ha, h.vmVirtToPhys_plain ha, look,
    h.walk_stores hhuge hsame _ le_rfl]
  rcases hu : walk img s (path a) with _ | u
  · rw [look, hu]
    rfl
  · rw [look, hu, Option.bind_some, Option.bind_some, hsame]
    intro hst
    obtain ⟨j, hj, rfl⟩ := hst.page
    have hpath := h.distinct (path a) [0, j] _ le_rfl (by simp) hu (h.pd hj)
    simp [path] at hpath

end Stores

theorem stored_entries {v : ℕ → Fin vmEntries → ℕ}
    (hcells : ∀ P i, cells s' P i
      = if Stored img start bytes P i then v P i ||| vmFlagHuge else cells s P i) :
    (∀ P i, Stored img start bytes P i → cells s' P i &&& vmFlagHuge ≠ 0) ∧
    ∀ P i, ¬ Stored img start bytes P i → cells s' P i = cells s P i := by
  refine ⟨fun P i hst => ?_, fun P i hst => ?_⟩
  · rw [hcells, if_pos hst]
    exact or_huge _
  · rw [hcells, if_neg hst]

theorem Booted.vmMapIdentity2m (h : Booted img s given) (hstart : start < 2 ^ 64)
    (hflags : flags < 2 ^ 64) : Booted img (vmMapIdentity2m img start bytes flags s).2 given := by
  by_cases haligned : start % 0x200000 = 0 ∧ bytes % 0x200000 = 0
  · obtain ⟨-, hbump, hcells⟩ := h.vmMapIdentity2m_spec hstart hflags haligned
    obtain ⟨hhuge, hsame⟩ := stored_entries hcells
    exact h.stores hhuge hsame hbump
  · have hmask : start &&& 0x1FFFFF ≠ 0 ∨ bytes &&& 0x1FFFFF ≠ 0 := by
      rw [show 0x1FFFFF = 2 ^ 21 - 1 from rfl, and_mask, and_mask]
      exact not_and_or.1 haligned
    rw [Vm.vmMapIdentity2m, if_pos hmask]
    exact h

theorem Booted.vmCall (h : Booted img s given) (hgiven : given ≤ 2 ^ 50) {c : VmCall}
    (hfits : c.Fits) :
    Booted img (vmCall img s c) (given + if c = .vmAllocPage then 1 else 0) := by
  cases c with
  | vmAllocPage => exact (h.vmAllocPage hgiven).1
  | vmMapPage virt phys flags => exact (h.vmMapPage hgiven hfits.2.1 hfits.2.2).1
  | vmMapIdentity2m start bytes flags => exact h.vmMapIdentity2m hfits.1 hfits.2.2

theorem given_count_cons (given : ℕ) (c : VmCall) (calls : List VmCall) :
    given + (c :: calls).count .vmAllocPage
      = given + (if c = .vmAllocPage then 1 else 0) + calls.count .vmAllocPage := by
  rw [List.count_cons, Nat.add_assoc, Nat.add_comm (calls.count .vmAllocPage)]
  simp only [beq_iff_eq]

theorem Booted.run (calls : List VmCall) :
    ∀ {s : Allocators} {given : ℕ}, Booted img s given → (∀ c ∈ calls, c.Fits) →
      given + calls.count .vmAllocPage ≤ 2 ^ 50 →
      Booted img (calls.foldl (Vm.vmCall img) s) (given + calls.count .vmAllocPage) := by
  induction calls with
  | nil => exact fun h _ _ => h
  | cons c calls ih =>
    intro s given h hfits hcount
    rw [given_count_cons] at hcount ⊢
    exact ih (h.vmCall (by omega) (hfits c List.mem_cons_self))
      (fun c hc => hfits c (List.mem_cons_of_mem _ hc)) hcount

/-- A 2 MiB entry that a call stores. -/
theorem stored_value {N : ℕ} (hflags : flags < 2 ^ 12) (hpresent : flags &&& vmFlagPresent ≠ 0) :
    (2 ^ 21 * N ||| flags ||| vmFlagHuge) &&& vmFlagPresent ≠ 0 ∧
      clearLow 21 (2 ^ 21 * N ||| flags ||| vmFlagHuge) = 2 ^ 21 * N := by
  have hlow : flags ||| vmFlagHuge < 2 ^ 12 := Nat.or_lt_two_pow hflags (by decide)
  have hodd : (flags ||| vmFlagHuge) % 2 = 1 := by
    rw [and_present] at hpresent
    exact Nat.or_mod_two_eq_one.2 (Or.inl (by omega))
  rw [Nat.or_assoc, or_of_lt 21 (by omega), and_present, clearLow]
  omega

/-- A call changes the translation of the addresses whose low 48 bits pick an entry it stores. -/
theorem Booted.vmVirtToPhys_identity (h : Booted img s given) (hproper : Proper start bytes flags)
    (a : ℕ) :
    vmVirtToPhys img a (Vm.vmMapIdentity2m img start bytes flags s).2
      = if start % 2 ^ 39 ≤ a % 2 ^ 48 ∧
          a % 2 ^ 48 < start % 2 ^ 39 + 2 ^ 21 * Vm.stores start bytes
        then start + (a % 2 ^ 48 - start % 2 ^ 39) else vmVirtToPhys img a s := by
  obtain ⟨hstart, -, hs, hb, hflags, hpresent⟩ := hproper
  obtain ⟨-, hbump, hcells⟩ := h.vmMapIdentity2m_spec hstart (hflags.trans (by decide)) ⟨hs, hb⟩
  obtain ⟨hhuge, hsame⟩ := stored_entries hcells
  by_cases ha : Huge (path a)
  · have hlow := (huge_path a).1 ha
    have hj : (index 30 a).val < 4 := ha.2
    have hnum : hugeNumber img (pdPage img + index 30 a) (index 21 a) = a % 2 ^ 48 / 2 ^ 21 := by
      rw [vmBootMapBytes] at hlow
      rw [hugeNumber, Nat.add_sub_cancel_left, index_val, index_val]
      omega
    have hst : Stored img start bytes (pdPage img + index 30 a) (index 21 a) ↔
        start % 2 ^ 39 ≤ a % 2 ^ 48 ∧
          a % 2 ^ 48 < start % 2 ^ 39 + 2 ^ 21 * Vm.stores start bytes := by
      rw [Stored, hnum]
      omega
    rw [(h.stores hhuge hsame hbump).vmVirtToPhys_huge ha ((h.stores hhuge hsame hbump).pd hj),
      h.vmVirtToPhys_huge ha (h.pd hj), hcells]
    by_cases hin : Stored img start bytes (pdPage img + index 30 a) (index 21 a)
    · obtain ⟨hp, hb⟩ := stored_value (N := 2 ^ 18 * (start / 2 ^ 39) + a % 2 ^ 48 / 2 ^ 21)
        hflags hpresent
      rw [if_pos hin, if_pos (hst.1 hin), hnum, if_neg hp, hb,
        show 0x1fffff = 2 ^ 21 - 1 from rfl, and_mask, or_of_lt 21 (Nat.mod_lt _ (by decide))]
      have := hst.1 hin
      omega
    · rw [if_neg hin, if_neg (mt hst.2 hin)]
  · rw [h.vmVirtToPhys_stores hhuge hsame hbump ha, if_neg]
    rw [huge_path, vmBootMapBytes] at ha
    unfold Vm.stores vmBootMapBytes
    omega

theorem Booted.vmMapIdentity2m_fst (h : Booted img s given) (hproper : Proper start bytes flags) :
    (Vm.vmMapIdentity2m img start bytes flags s).1
      = if Vm.stores start bytes = rounds start bytes then 0 else -1 :=
  (h.vmMapIdentity2m_spec hproper.start_lt (hproper.flags_lt.trans (by decide))
    ⟨hproper.start_aligned, hproper.bytes_aligned⟩).1

/-- Of an address only the low 48 bits count. -/
theorem vmVirtToPhys_mod (img : KernelImage) (s : Allocators) (a : ℕ) :
    vmVirtToPhys img (a % 2 ^ 48) s = vmVirtToPhys img a s := by
  have hindex : ∀ shift ∈ [12, 21, 30, 39], index shift (a % 2 ^ 48) = index shift a := by
    intro shift hshift
    refine Fin.ext ?_
    rw [index_val, index_val]
    simp only [List.mem_cons, List.not_mem_nil, or_false] at hshift
    rcases hshift with rfl | rfl | rfl | rfl <;> omega
  have h21 : a % 2 ^ 48 &&& 0x1fffff = a &&& 0x1fffff := by
    rw [show 0x1fffff = 2 ^ 21 - 1 from rfl, and_mask, and_mask]
    omega
  have h12 : a % 2 ^ 48 &&& 0xfff = a &&& 0xfff := by
    rw [show 0xfff = 2 ^ 12 - 1 from rfl, and_mask, and_mask]
    omega
  rw [vmVirtToPhys, vmVirtToPhys, hindex 12 (by simp), hindex 21 (by simp), hindex 30 (by simp),
    hindex 39 (by simp), h21, h12]

/-- An address with the same low 48 bits outside a range that the loop comes to the end of. -/
theorem exists_alias (hproper : Proper start bytes flags)
    (hall : stores start bytes = rounds start bytes) (hpos : 0 < stores start bytes) {a : ℕ}
    (ha : a < 2 ^ 64) :
    ∃ b < 2 ^ 64, b % 2 ^ 48 = a % 2 ^ 48 ∧ ¬ (start ≤ b ∧ b < start + bytes) := by
  have hbytes : bytes ≤ 2 ^ 32 := by
    obtain ⟨hstart, hlt, hs, hb, -, -⟩ := hproper
    have hmost : stores start bytes ≤ 2048 := by
      unfold stores vmBootMapBytes
      omega
    rw [hall, rounds] at hpos hmost
    omega
  by_cases hin : start ≤ a ∧ a < start + bytes
  · rcases Nat.lt_or_ge a (2 ^ 63) with hlow | hhigh
    · exact ⟨a + 2 ^ 48, by omega, by omega, by omega⟩
    · exact ⟨a - 2 ^ 48, by omega, by omega, by omega⟩
  · exact ⟨a, ha, rfl, hin⟩

end Identity

section AllOrNothing

variable {start bytes flags : ℕ} (h : Booted img s given) (hproper : Proper start bytes flags)

include h hproper

/-- What the loop stores is there already just if the call changes no translation. -/
theorem Booted.unchanged_iff :
    (∀ a < 2 ^ 64, vmVirtToPhys img a (Vm.vmMapIdentity2m img start bytes flags s).2
      = vmVirtToPhys img a s) ↔
    ∀ x < 0x200000 * Vm.stores start bytes,
      vmVirtToPhys img ((start + x) % 2 ^ 39) s = start + x := by
  have hmost : 2 ^ 21 * Vm.stores start bytes ≤ 2 ^ 32 - start % 2 ^ 39 := by
    unfold Vm.stores vmBootMapBytes
    omega
  constructor
  · intro hsame x hx
    have hmod : (start + x) % 2 ^ 39 = start % 2 ^ 39 + x := by omega
    rw [hmod, ← hsame _ (by omega), h.vmVirtToPhys_identity hproper, if_pos (by omega)]
    omega
  · intro hstored a _
    rw [h.vmVirtToPhys_identity hproper]
    split_ifs with hin
    · have hx := hstored (a % 2 ^ 48 - start % 2 ^ 39) (by omega)
      rw [← hx, ← vmVirtToPhys_mod img s a]
      congr 1
      omega
    · rfl

theorem Booted.unchanged_of_allOrNothing (hboth : AllOrNothing img start bytes flags s) :
    ∀ a < 2 ^ 64, vmVirtToPhys img a (Vm.vmMapIdentity2m img start bytes flags s).2
      = vmVirtToPhys img a s := by
  obtain ⟨hzero, hneg⟩ := hboth
  intro a ha
  by_cases hall : Vm.stores start bytes = rounds start bytes
  · have hret := h.vmMapIdentity2m_fst hproper
    rw [if_pos hall] at hret
    rcases Nat.eq_zero_or_pos (Vm.stores start bytes) with hnone | hpos
    · rw [h.vmVirtToPhys_identity hproper, hnone, if_neg (by omega)]
    · obtain ⟨b, hb, hmod, hout⟩ := exists_alias hproper hall hpos ha
      have hsame := hzero hret b hb
      rw [if_neg hout] at hsame
      rw [← vmVirtToPhys_mod _ _ a, ← vmVirtToPhys_mod _ s a, ← hmod, vmVirtToPhys_mod,
        vmVirtToPhys_mod, hsame]
  · have hret := h.vmMapIdentity2m_fst hproper
    rw [if_neg hall] at hret
    exact hneg hret a ha

theorem Booted.allOrNothing_iff :
    AllOrNothing img start bytes flags s ↔ Settled img start bytes s := by
  have hret := h.vmMapIdentity2m_fst hproper
  constructor
  · intro hboth
    have hsame := h.unchanged_of_allOrNothing hproper hboth
    refine ⟨(h.unchanged_iff hproper).1 hsame, fun hall a ha hge hlt => ?_⟩
    rw [if_pos hall] at hret
    have hmaps := hboth.1 hret a ha
    rwa [if_pos ⟨hge, hlt⟩, hsame a ha] at hmaps
  · intro hsettled
    have hsame := (h.unchanged_iff hproper).2 hsettled.stored
    refine ⟨fun hzero a ha => ?_, fun _ => hsame⟩
    have hall : Vm.stores start bytes = rounds start bytes := by
      by_contra hne
      rw [if_neg hne, hzero] at hret
      cases hret
    rw [hsame a ha]
    split_ifs with hin
    · exact hsettled.mapped hall a ha hin.1 hin.2
    · rfl

end AllOrNothing

section Plain

/-- The boot map is as `vm_init` makes it. -/
def BootMap (img : KernelImage) (s : Allocators) : Prop :=
  ∀ a < vmBootMapBytes, vmVirtToPhys img a s = a

variable {start bytes flags : ℕ}

theorem settled_iff_plain (hproper : Proper start bytes flags) (hboot : BootMap img s) :
    Settled img start bytes s ↔ Plain img start bytes s := by
  obtain ⟨hstart, hbytes, hs, hb, -, -⟩ := hproper
  have hrounds : rounds start bytes = if start + bytes < 2 ^ 64 then bytes / 0x200000 else 0 := by
    unfold rounds
    split_ifs <;> omega
  unfold Plain
  by_cases hsum : start + bytes < 2 ^ 64
  · rw [if_pos hsum] at hrounds ⊢
    have hstores : stores start bytes
        = min (bytes / 0x200000) ((vmBootMapBytes - start % 2 ^ 39) / 0x200000) := by
      rw [stores, hrounds]
    rw [vmBootMapBytes] at hstores ⊢
    constructor
    · intro hsettled
      by_contra hnot
      have hfirst := hsettled.stored 0 (by omega)
      rw [Nat.add_zero, hboot _ (by unfold vmBootMapBytes; omega)] at hfirst
      omega
    · intro hplain
      refine ⟨fun x hx => ?_, fun hall a _ hge hlt => hboot a ?_⟩
      · rw [Nat.mod_eq_of_lt (by omega)]
        exact hboot _ (by unfold vmBootMapBytes; omega)
      · unfold vmBootMapBytes
        omega
  · rw [if_neg hsum] at hrounds ⊢
    have hstores : stores start bytes = 0 := by
      rw [stores, hrounds, Nat.zero_min]
    constructor
    · intro hsettled a ha hge
      exact hsettled.mapped (hstores.trans hrounds.symm) a ha hge (by omega)
    · intro hmaps
      refine ⟨fun x hx => ?_, fun _ a ha hge _ => hmaps a ha hge⟩
      rw [hstores] at hx
      omega

theorem bootMap_vmInit (h : img.Clear s.mem) : BootMap img (vmInit img s) := by
  intro a ha
  have hboot : a / 4096 * vmPageSize < vmBootMapBytes := by
    unfold vmPageSize
    omega
  have hpage : pageOf a = a / 4096 := by
    rw [vmBootMapBytes] at ha
    rw [pageOf, vmPageSize, Nat.mod_eq_of_lt (by omega)]
  rw [(tables_vmInit h).vmVirtToPhys, PageMap.translate, hpage, PageMap.boot, if_pos hboot]
  exact Nat.div_add_mod' a 4096

/-- The boot map is in the tables of `kernel_pd`. -/
theorem BootMap.of_cells (hboot : BootMap img s) {given' : ℕ} (h : Booted img s given)
    (h' : Booted img s' given') (hcells : SamePd img s s') : BootMap img s' := by
  intro a ha
  have hhuge : Huge (path a) := by
    rw [huge_path]
    unfold vmBootMapBytes at ha ⊢
    omega
  rw [h'.vmVirtToPhys_huge hhuge (h'.pd hhuge.2), hcells _ _ hhuge.2,
    ← h.vmVirtToPhys_huge hhuge (h.pd hhuge.2)]
  exact hboot a ha

theorem BootMap.vmCall (hboot : BootMap img s) (h : Booted img s given) (hgiven : given ≤ 2 ^ 50)
    {c : VmCall} (hfits : c.Fits) (hproper : c.OfIdentity Proper)
    (hplain : c.OfIdentity fun start bytes _ => Plain img start bytes s) :
    BootMap img (vmCall img s c) := by
  cases c with
  | vmAllocPage =>
    obtain ⟨h', hcells⟩ := h.vmAllocPage hgiven
    exact hboot.of_cells h h' hcells
  | vmMapPage virt phys flags =>
    obtain ⟨h', hcells⟩ := h.vmMapPage hgiven hfits.2.1 hfits.2.2
    exact hboot.of_cells h h' hcells
  | vmMapIdentity2m start bytes flags =>
    have hsame := (h.unchanged_iff hproper).2 ((settled_iff_plain hproper hboot).2 hplain).stored
    intro a ha
    exact (hsame a (by unfold vmBootMapBytes at ha; omega)).trans (hboot a ha)

end Plain

section Runs

variable (img)

/-- After `vm_init` and any calls, a call of `vm_map_identity_2m` is all or nothing just if what it
stores is there already and, where it returns 0, the range is mapped to itself already. The pages
taken besides the tables must not bring the page bump around. -/
theorem identity_all_or_nothing_iff (s : Allocators) (hclear : img.Clear s.mem)
    (calls : List VmCall) (hfits : ∀ c ∈ calls, c.Fits)
    (hpages : calls.count .vmAllocPage ≤ 2 ^ 50) {start bytes flags : ℕ}
    (hproper : Proper start bytes flags) :
    AllOrNothing img start bytes flags (calls.foldl (vmCall img) (vmInit img s)) ↔
      Settled img start bytes (calls.foldl (vmCall img) (vmInit img s)) := by
  have h := Booted.run calls (booted_vmInit hclear) hfits (by omega)
  exact h.allOrNothing_iff hproper

section Sample

theorem identity_all_or_nothing_iff_sample :
    AllOrNothing sampleImage 0x200000 0x200000 vmFlagPresent
      ([.vmAllocPage].foldl (vmCall sampleImage) (vmInit sampleImage sampleState)) := by
  have hclear : sampleImage.Clear sampleState.mem := fun _ _ => rfl
  have hproper : Proper 0x200000 0x200000 vmFlagPresent :=
    ⟨by decide, by decide, by decide, by decide, by decide, by decide⟩
  refine (identity_all_or_nothing_iff sampleImage sampleState hclear [.vmAllocPage]
    (fun c hc => by rw [List.mem_singleton.1 hc]; trivial) (by decide) hproper).2 ?_
  have hboot : BootMap sampleImage (vmAllocPage (vmInit sampleImage sampleState)).2 :=
    (bootMap_vmInit hclear).vmCall (c := .vmAllocPage) (booted_vmInit hclear) (by decide) trivial
      trivial trivial
  refine (settled_iff_plain hproper hboot).2 ?_
  rw [Plain, if_pos (by decide)]
  exact Or.inr (Or.inl (by decide))

theorem identity_past_512g :
    let s := vmInit sampleImage sampleState
    let r := vmMapIdentity2m sampleImage (2 ^ 39) 0x200000 vmFlagPresent s
    vmVirtToPhys sampleImage 0 s = 0 ∧ r.1 = 0 ∧ vmVirtToPhys sampleImage 0 r.2 = 2 ^ 39 ∧
      vmVirtToPhys sampleImage (2 ^ 39) r.2 = 0 := by
  have htables : Tables sampleImage (vmInit sampleImage sampleState) PageMap.boot :=
    tables_vmInit fun _ _ => rfl
  have h : Booted sampleImage (vmInit sampleImage sampleState) 0 := booted_vmInit fun _ _ => rfl
  have hproper : Proper (2 ^ 39) 0x200000 vmFlagPresent :=
    ⟨by decide, by decide, by decide, by decide, by decide, by decide⟩
  dsimp only
  rw [h.vmMapIdentity2m_fst hproper, h.vmVirtToPhys_identity hproper,
    h.vmVirtToPhys_identity hproper, htables.vmVirtToPhys, htables.vmVirtToPhys]
  decide

end Sample

variable {img}

end Runs

end Vm

end PeanutKernel
