import PeanutKernel.Boot
import PeanutKernel.Proofs.Vm

/-!
# The boot code and `vm_init` make the same map

The boot code stores halves of entries where `vm_init` stores entries; the other halves are zero. So
on the same addresses it would leave the same memory, and its own tables translate as those of
`vm_init` do (`setupPageTables_identity`).
-/

namespace PeanutKernel

namespace Boot

open Alloc Vm

variable {img : KernelImage} {mem : Buf} {a v : ℕ}

theorem storeLe_halves (hv : v < 2 ^ 32) :
    storeLe 4 (storeLe 4 mem a v) (a + 4) 0 = storeLe 8 mem a v := by
  funext x
  by_cases hhigh : a + 4 ≤ x ∧ x < a + 8
  · obtain ⟨i, rfl⟩ := Nat.exists_eq_add_of_le hhigh.1
    have hzero : v / 256 ^ (4 + i) = 0 := by
      rw [pow_add, ← Nat.div_div_eq_div_mul, Nat.div_eq_of_lt (show v < 256 ^ 4 by omega),
        Nat.zero_div]
    rw [storeLe_inside (by omega), Nat.add_assoc, storeLe_inside (by omega), hzero, Nat.zero_div]
  · rw [storeLe_outside (by omega), storeLe, storeLe]
    split_ifs <;> first | rfl | omega

/-- Half an entry is the entry where the other half is zero. -/
theorem storeLe_half (hv : v < 2 ^ 32) (hzero : ∀ x, a + 4 ≤ x → x < a + 8 → mem x = 0) :
    storeLe 4 mem a v = storeLe 8 mem a v := by
  rw [← storeLe_halves hv]
  funext x
  by_cases hhigh : a + 4 ≤ x ∧ x < a + 8
  · obtain ⟨i, rfl⟩ := Nat.exists_eq_add_of_le hhigh.1
    rw [storeLe_outside (by omega), hzero _ hhigh.1 hhigh.2, storeLe_inside (by omega),
      Nat.zero_div]
    rfl
  · rw [storeLe_outside (a := a + 4) (by omega)]

theorem and_511 (n : ℕ) : n &&& 511 = n % 512 := Nat.and_two_pow_sub_one_eq_mod n 9

/-- A round at entry `k` stores the entry and goes on to the next. -/
theorem round_eq {k : ℕ} (hk : k < 2048) :
    let r : MapPd := ⟨2 ^ 21 * k + 0x87, img.kernelPd + 4096 * (k / 512), k, mem⟩
    r.round.ecx = k + 1 ∧ r.round.mem = storeLe 8 mem (img.kernelPd + 8 * k) (2 ^ 21 * k + 0x87) ∧
      (k + 1 < 2048 → r.round = ⟨2 ^ 21 * (k + 1) + 0x87, img.kernelPd + 4096 * ((k + 1) / 512),
        k + 1, r.round.mem⟩) := by
  intro r
  have hbelow := img.below.2.2
  have hlow := img.low
  rw [vmPageSize] at hbelow
  have hecx : (k + 1) % 2 ^ 32 = k + 1 := Nat.mod_eq_of_lt (by omega)
  have hplace : (img.kernelPd + 4096 * (k / 512) + k % 512 * 8) % 2 ^ 32
      = img.kernelPd + 8 * k := by omega
  have hhigh : (img.kernelPd + 4096 * (k / 512) + k % 512 * 8 + 4) % 2 ^ 32
      = img.kernelPd + 8 * k + 4 := by omega
  refine ⟨hecx, ?_, fun hnext => ?_⟩
  · simp only [r, MapPd.round, and_511, hplace, hhigh]
    exact storeLe_halves (by omega)
  · simp only [r, MapPd.round, and_511, hecx, MapPd.mk.injEq, and_true]
    refine ⟨by omega, ?_⟩
    split_ifs <;> omega

/-- The loop from entry `k` on is that of `vm_init`. -/
theorem mapPd_eq :
    ∀ (n k fuel : ℕ) (s : Allocators), k + n + 1 = 2048 → n < fuel →
      mapPd fuel ⟨2 ^ 21 * k + 0x87, img.kernelPd + 4096 * (k / 512), k, s.mem⟩
        = some (identityLoop img tableFlags (n + 1) (2 ^ 21 * k) s).2.mem
  | n, k, fuel + 1, s, hk, hfuel => by
    obtain ⟨hecx, hmem, hround⟩ := @round_eq img s.mem k (by omega)
    have h30 : (index 30 (2 ^ 21 * k)).val = k / 512 := by
      rw [index_val]
      omega
    set s' := setEntry s (img.kernelPd + vmPageSize * (k / 512)) (index 21 (2 ^ 21 * k))
      (2 ^ 21 * k + 0x87) with hs'
    have hstored : storeLe 8 s.mem (img.kernelPd + 8 * k) (2 ^ 21 * k + 0x87) = s'.mem := by
      rw [hs', setEntry, index_val, vmPageSize]
      congr 1
      omega
    have hstep : identityLoop img tableFlags (n + 1) (2 ^ 21 * k) s
        = identityLoop img tableFlags n (2 ^ 21 * (k + 1)) s' := by
      rw [identityLoop]
      simp only [h30]
      rw [if_neg (by omega), huge_value, show 2 ^ 21 * k + 0x200000 = 2 ^ 21 * (k + 1) by omega]
    rw [mapPd, hecx, hstep]
    cases n with
    | zero =>
      rw [if_pos (by omega), hmem, hstored]
      rfl
    | succ n =>
      rw [if_neg (by omega), hround (by omega), hmem, hstored]
      exact mapPd_eq n (k + 1) fuel s' (by omega) (by omega)

theorem links_eq (s : Allocators) (hclear : img.Clear s.mem) :
    links img s.mem = ((List.finRange 4).foldl (pdptRound img)
      (setEntry s img.kernelPml4 0 (img.kernelPdpt ||| tableFlags))).mem := by
  obtain ⟨hpml4, hpdpt, hpd⟩ := img.below
  obtain ⟨hapart, -⟩ := img.apart
  have hlow := img.low
  rw [vmPageSize] at hpml4 hpdpt hpd hapart
  have hor : ∀ p < 2 ^ 32, p ||| 7 < 2 ^ 32 := fun p hp => Nat.or_lt_two_pow hp (by decide)
  have hfirst : ∀ x, img.kernelPml4 ≤ x → x < img.kernelPml4 + 4096 → s.mem x = 0 :=
    fun x h h' => hclear x (.inl ⟨h, h'⟩)
  have hzero : ∀ x, img.kernelPdpt ≤ x → x < img.kernelPdpt + 4096 → s.mem x = 0 :=
    fun x h h' => hclear x (.inr (.inl ⟨h, h'⟩))
  rw [links, storeLe_half (hor _ (by omega)) fun x h h' => hfirst x (by omega) (by omega),
    storeLe_half (hor _ (by omega)) ?_, storeLe_half (hor _ (by omega)) ?_,
    storeLe_half (hor _ (by omega)) ?_, storeLe_half (hor _ (by omega)) ?_]
  · rfl
  all_goals
    intro x h h'
    simp (disch := omega) only [storeLe_outside, hzero]

theorem vmVirtToPhys_congr {s s' : Allocators} (h : s.mem = s'.mem) (a : ℕ) :
    vmVirtToPhys img a s = vmVirtToPhys img a s' := by
  have hentry : entry s = entry s' := by
    funext table i
    rw [entry, entry, h]
  rw [vmVirtToPhys, vmVirtToPhys, hentry]

theorem setupPageTables_eq (s : Allocators) (hclear : img.Clear s.mem) {fuel : ℕ}
    (hfuel : 2048 ≤ fuel) : setupPageTables fuel img s.mem = some (vmInit img s).mem := by
  rw [vmInit_eq]
  have hlinks := links_eq { s with pageBump := firstPage img.kernelEnd } hclear
  generalize (List.finRange 4).foldl (pdptRound img) _ = u at hlinks ⊢
  rw [← @mapPd_eq img 2047 0 fuel u (by decide) hfuel, ← hlinks]
  rfl

/-- The boot code's tables map each address whose low 48 bits are below 4 GiB to these, and no
other, and those that `vm_init` makes elsewhere map every address as they do. -/
theorem setupPageTables_identity {boot : KernelImage} (s t : Allocators) (hboot : boot.Clear s.mem)
    (himg : img.Clear t.mem) {fuel : ℕ} (hfuel : 2048 ≤ fuel) :
    ∃ mem, setupPageTables fuel boot s.mem = some mem ∧ ∀ a,
      vmVirtToPhys boot a { s with mem := mem } = PageMap.boot.translate a ∧
      vmVirtToPhys img a (vmInit img t) = vmVirtToPhys boot a { s with mem := mem } := by
  have hinit := setupPageTables_eq s hboot hfuel
  have htables := (tables_vmInit hboot).vmVirtToPhys
  generalize vmInit boot s = u at hinit htables
  have hsame := @vmVirtToPhys_congr boot { s with mem := u.mem } u rfl
  refine ⟨u.mem, hinit, fun a => ⟨(hsame a).trans (htables a), ?_⟩⟩
  rw [(tables_vmInit himg).vmVirtToPhys, hsame, htables]

/-- Tables of the boot code behind those of `sampleImage`. -/
def bootImage : KernelImage where
  kernelPml4 := 0x107000
  kernelPdpt := 0x108000
  kernelPd := 0x109000
  kernelEnd := 0x10D000
  aligned := by decide
  apart := by decide
  below := by decide
  low := by decide

theorem setupPageTables_identity_sample :
    ∃ mem, setupPageTables 2048 bootImage sampleState.mem = some mem ∧ ∀ a,
      vmVirtToPhys bootImage a { sampleState with mem := mem } = PageMap.boot.translate a ∧
      vmVirtToPhys sampleImage a (vmInit sampleImage sampleState)
        = vmVirtToPhys bootImage a { sampleState with mem := mem } :=
  setupPageTables_identity sampleState sampleState (fun _ _ => rfl) (fun _ _ => rfl) le_rfl

end Boot

end PeanutKernel
