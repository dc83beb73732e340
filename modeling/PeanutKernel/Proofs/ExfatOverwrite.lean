import PeanutKernel.Proofs.ExfatContained
import Mathlib.Data.Nat.ModEq

/-!
# Overwriting a file on an exFAT volume

The round trip of `exfat_write_file` and `exfat_read_file`. The 32-bit sum of `cluster_first_lba`
gives clusters whose numbers agree modulo `2 ^ 32` over the sectors per cluster the same sectors,
and a volume may have that many clusters. A file is overwritten as `ClusterMap.overwrite` says just
when its chain has no two such clusters (`exfat_overwrite_roundtrip_iff`).
-/

namespace PeanutKernel

namespace Exfat

variable {v : ExfatVolume} {m : Medium} {p : Partition} {s : Buf} {fuel : ℕ} {path : List UInt8}

section Sectors

/-- How far apart two cluster numbers with the same sectors are. -/
def aliasDistance (v : ExfatVolume) : ℕ := 2 ^ 32 / v.sectorsPerCluster

theorem mountBoot_shift (h : mountBoot p s = some v) : (s 109).toNat ≤ 7 := by
  simp only [mountBoot] at h
  split_ifs at h
  omega

theorem aliasDistance_mul (hread : m.read ⟨p.firstLba, 1⟩ = some s)
    (h : (exfatMount p).run m.read = some (some v)) :
    aliasDistance v * 2 ^ (s 109).toNat = 2 ^ 32 := by
  obtain ⟨-, -, hspc⟩ := exfatMount_some hread h
  rw [exfatMount_run p hread, Option.some_inj] at h
  split_ifs at h
  rw [aliasDistance, hspc]
  exact Nat.div_mul_cancel (pow_dvd_pow 2 ((mountBoot_shift h).trans (by decide)))

/-- Two clusters of the heap with exact first sectors that are congruent. -/
theorem exactLba_modEq_iff {M c c' : ℕ} (hM : M * 2 ^ (s 109).toNat = 2 ^ 32) (hc : 2 ≤ c)
    (hc' : 2 ≤ c') :
    exactLba p s c % 2 ^ 32 = exactLba p s c' % 2 ^ 32 ↔ c % M = c' % M := by
  have hpos : 2 ^ (s 109).toNat ≠ 0 := (Nat.two_pow_pos _).ne'
  obtain ⟨d, rfl⟩ : ∃ d, c = d + 2 := ⟨c - 2, by omega⟩
  obtain ⟨d', rfl⟩ : ∃ d', c' = d' + 2 := ⟨c' - 2, by omega⟩
  unfold exactLba
  rw [Nat.add_sub_cancel, Nat.add_sub_cancel, ← hM]
  constructor
  · intro h
    have hmul : d * 2 ^ (s 109).toNat ≡ d' * 2 ^ (s 109).toNat [MOD M * 2 ^ (s 109).toNat] :=
      Nat.ModEq.add_left_cancel' _ h
    exact (Nat.ModEq.mul_right_cancel' hpos hmul).add_right 2
  · intro h
    have hd : d ≡ d' [MOD M] := Nat.ModEq.add_right_cancel' 2 h
    exact (hd.mul_right' _).add_left _

/-- Clusters that share a sector share all of them. -/
theorem lba_eq_of_inCluster (hread : m.read ⟨p.firstLba, 1⟩ = some s)
    (hmount : (exfatMount p).run m.read = some (some v)) {c c' a : ℕ} (hc : v.clusters.Usable c)
    (hc' : v.clusters.Usable c') (h : v.clusters.InCluster c a) (h' : v.clusters.InCluster c' a) :
    exactLba p s c % 2 ^ 32 = exactLba p s c' % 2 ^ 32 := by
  obtain ⟨-, -, hspc⟩ := exfatMount_some hread hmount
  have hM := aliasDistance_mul hread hmount
  obtain ⟨lba, hlba, hge, hlt⟩ := h
  obtain ⟨lba', hlba', hge', hlt'⟩ := h'
  rw [(lba_eq hread hmount hc).1, Option.some_inj] at hlba
  rw [(lba_eq hread hmount hc').1, Option.some_inj] at hlba'
  rw [hlba, hlba']
  rw [show v.clusters.sectorsPerCluster = 2 ^ (s 109).toNat from hspc] at hlt hlt'
  -- first sectors agree modulo the size of a cluster
  have hmod : ∀ d, exactLba p s d % 2 ^ 32 % 2 ^ (s 109).toNat
      = heapStart p s % 2 ^ (s 109).toNat := fun d => by
    rw [Nat.mod_mod_of_dvd _ (Dvd.intro_left _ hM), exactLba, Nat.add_mul_mod_self_right]
  have hcong : lba % 2 ^ (s 109).toNat = lba' % 2 ^ (s 109).toNat := by
    rw [← hlba, ← hlba', hmod, hmod]
  exact Nat.ModEq.eq_of_abs_lt hcong (by rw [abs_lt]; omega)

end Sectors

section RoundTrip

/-- Neither following the chain, as far as `n` bytes need it, nor the lookup of `path` reads a
sector of its clusters. -/
structure ApartFromMetadata (fuel : ℕ) (v : ExfatVolume) (m : Medium) (path : List UInt8)
    (first n : ℕ) : Prop where
  fat : v.clusters.TableApart m first n
  lookup : Clear (v.clusters.FileSector (v.clusters.chainAt m first) n)
    ((exfatFindRoot fuel v path).trace m.read)

/-- Overwriting the start of a file that reads as `C` with `B` succeeds, the file then reads as `B`
followed by what it did not reach, and no other byte of the disk changes. -/
def RoundTrips (fuel : ℕ) (v : ExfatVolume) (m : Medium) (path : List UInt8)
    (bufferSize first : ℕ) (C B : List UInt8) : Prop :=
  ∃ w : Written, exfatWriteFile fuel v path B m = some w ∧ w.ret = 0 ∧
    (exfatReadFile fuel v path bufferSize).run w.medium.read
      = some (some (B ++ C.drop B.length)) ∧
    ∀ a, (∀ i < B.length, a ≠ v.clusters.filePlace (v.clusters.chainAt m first) i) →
      w.medium.byte a = m.byte a

/-- The clusters of the first `n` bytes have numbers that differ modulo the distance at which they
share their sectors. -/
def Unaliased (v : ExfatVolume) (m : Medium) (first n : ℕ) : Prop :=
  ∀ k l, k * v.clusters.clusterBytes < n → l * v.clusters.clusterBytes < n →
    v.clusters.chainAt m first k % aliasDistance v
      = v.clusters.chainAt m first l % aliasDistance v → k = l

variable {bufferSize : ℕ} {file : ExfatDirEntry}

/-- A read that returns has found a regular file, and its chain reads as the whole of it. -/
theorem exfatReadFile_file {C : List UInt8}
    (h : (exfatReadFile fuel v path bufferSize).run m.read = some (some C))
    (hfind : (exfatFindRoot fuel v path).run m.read = some (some file)) :
    file.attributes &&& attrDirectory = 0 ∧ file.size ≤ bufferSize ∧ C.length = file.size ∧
      (v.clusters.readChain C.length C.length file.firstCluster).run m.read = some (some C) := by
  obtain ⟨file', hfind', hsize, hchain⟩ := exfatReadFile_some h
  rw [hfind, Option.some_inj, Option.some_inj] at hfind'
  subst hfind'
  rw [← hsize] at hchain
  simp only [exfatReadFile, Query.run_bind, hfind, Option.bind_some] at h
  split_ifs at h with hdir hfits
  · cases h
  · cases h
  · exact ⟨not_not.1 hdir, by omega, hsize, hchain⟩

theorem exfatWriteFile_chain {B : List UInt8}
    (hfind : (exfatFindRoot fuel v path).run m.read = some (some file))
    (hdir : file.attributes &&& attrDirectory = 0) (hB : B.length ≤ file.size) :
    exfatWriteFile fuel v path B m = v.clusters.writeChain B.length B file.firstCluster m [] :=
  exfatWriteFile_eq ⟨file, hfind, hdir, hB, rfl⟩

section

variable {C : List UInt8} (hm : m.Good)
  (hread : (exfatReadFile fuel v path bufferSize).run m.read = some (some C))
  (hfind : (exfatFindRoot fuel v path).run m.read = some (some file))
  (hapart : ApartFromMetadata fuel v m path file.firstCluster C.length)
include hm hread hfind hapart

/-- Where no two clusters of the chain share a sector, every start is overwritten. -/
theorem roundTrips_of_disjoint (hV : v.clusters.Sound)
    (hdisj : v.clusters.DisjointUpTo (v.clusters.chainAt m file.firstCluster) C.length)
    {B : List UInt8} (hB : B.length ≤ C.length) :
    RoundTrips fuel v m path bufferSize file.firstCluster C B := by
  obtain ⟨hdir, hfits, hsize, hchain⟩ := exfatReadFile_file hread hfind
  obtain ⟨m', writes, hwrite, hag, hov, hback⟩ :=
    ClusterMap.overwrite hV hm hchain ⟨hdisj, hapart.fat⟩ hB
  refine ⟨⟨0, m', writes⟩, ?_, rfl, ?_, fun a ha => hov.frame a ha⟩
  · rw [exfatWriteFile_chain hfind hdir (by omega)]
    exact hwrite
  · have hlen : (B ++ C.drop B.length).length = C.length := by
      rw [List.length_append, List.length_drop]
      omega
    refine exfatReadFile_run (hag.run _ hapart.lookup ▸ hfind) hdir (by omega) ?_ (by omega)
    rw [hlen]
    exact hback

/-- A chain with two clusters that share a sector is not overwritten at every start. -/
theorem unaliased_of_roundTrips (hread' : m.read ⟨p.firstLba, 1⟩ = some s)
    (hmount : (exfatMount p).run m.read = some (some v)) (h : ∀ B : List UInt8,
      B.length ≤ C.length → RoundTrips fuel v m path bufferSize file.firstCluster C B) :
    Unaliased v m file.firstCluster C.length := by
  have hV := clusters_sound (exfatMount_sectorsPerCluster hmount)
  have hM := aliasDistance_mul hread' hmount
  obtain ⟨hdir, hfits, hsize, hchain⟩ := exfatReadFile_file hread hfind
  obtain ⟨huse, -⟩ := ClusterMap.readChain_stored hV hm _ _ _ C hchain rfl
  set ch := v.clusters.chainAt m file.firstCluster with hch
  have hlba : ∀ k, k * v.clusters.clusterBytes < C.length →
      v.clusters.lba (ch k) = some (exactLba p s (ch k) % 2 ^ 32) ∧ 2 ≤ ch k := fun k hk =>
    ⟨(lba_eq hread' hmount (huse k hk)).1, (lba_eq hread' hmount (huse k hk)).2.1⟩
  -- by induction on the later of the two: the chain before it has no such pair
  have hne : ∀ l, l * v.clusters.clusterBytes < C.length → ∀ k < l,
      ch k % aliasDistance v ≠ ch l % aliasDistance v := by
    intro l
    induction l using Nat.strong_induction_on with
    | _ l ih =>
      intro hl k hkl hmod
      have hk : k * v.clusters.clusterBytes < C.length :=
        (Nat.mul_le_mul_right _ hkl.le).trans_lt hl
      have hdisj : v.clusters.DisjointUpTo ch (l * v.clusters.clusterBytes) := by
        intro i j hi hj a ha ha'
        have hil : i < l := Nat.lt_of_mul_lt_mul_right hi
        have hjl : j < l := Nat.lt_of_mul_lt_mul_right hj
        have hsame := lba_eq_of_inCluster hread' hmount (huse i (hi.trans hl))
          (huse j (hj.trans hl)) ha ha'
        rw [exactLba_modEq_iff hM (hlba i (hi.trans hl)).2 (hlba j (hj.trans hl)).2] at hsame
        rcases Nat.lt_trichotomy i j with hij | hij | hij
        · exact absurd hsame (ih j hjl (hj.trans hl) i hij)
        · exact hij
        · exact absurd hsame.symm (ih i hil (hi.trans hl) j hij)
      have hbase : v.clusters.base (ch k) = v.clusters.base (ch l) := by
        rw [ClusterMap.base, ClusterMap.base, (hlba k hk).1, (hlba l hl).1,
          (exactLba_modEq_iff hM (hlba k hk).2 (hlba l hl).2).2 hmod]
      obtain ⟨B, m', writes, hB, hwrite, hag, hback⟩ :=
        ClusterMap.exists_alias hV hm hchain hapart.fat hkl hl hbase hdisj
      obtain ⟨w, hw, -, hread₁, -⟩ := h B hB
      rw [exfatWriteFile_chain hfind hdir (by omega), hwrite, Option.some_inj] at hw
      rw [← hw] at hread₁
      have hlen : (B ++ C.drop B.length).length = C.length := by
        rw [List.length_append, List.length_drop]
        omega
      obtain ⟨-, -, -, hchain₁⟩ :=
        exfatReadFile_file hread₁ ((hag.run _ hapart.lookup).trans hfind)
      rw [hlen] at hchain₁
      exact hback hchain₁
  intro k l hk hl hmod
  rcases Nat.lt_trichotomy k l with hkl | hkl | hkl
  · exact absurd hmod (hne l hl k hkl)
  · exact hkl
  · exact absurd hmod.symm (hne k hk l hkl)

end

theorem Unaliased.disjoint {first n : ℕ} (h : Unaliased v m first n)
    (hread : m.read ⟨p.firstLba, 1⟩ = some s)
    (hmount : (exfatMount p).run m.read = some (some v))
    (huse : ∀ k, k * v.clusters.clusterBytes < n →
      v.clusters.Usable (v.clusters.chainAt m first k)) :
    v.clusters.DisjointUpTo (v.clusters.chainAt m first) n := by
  intro k l hk hl a ha ha'
  refine h k l hk hl ?_
  have hsame := lba_eq_of_inCluster hread hmount (huse k hk) (huse l hl) ha ha'
  rwa [exactLba_modEq_iff (aliasDistance_mul hread hmount)
    (lba_eq hread hmount (huse k hk)).2.1 (lba_eq hread hmount (huse l hl)).2.1] at hsame

/-- Every start of the file is overwritten as it should be just when no two clusters of its chain
are the distance apart at which the sum for the first sector wraps. -/
theorem exfat_overwrite_roundtrip_iff (hm : m.Good)
    (hmount : (exfatMount p).run m.read = some (some v)) {bufferSize : ℕ} {C : List UInt8}
    (hread : (exfatReadFile fuel v path bufferSize).run m.read = some (some C))
    {file : ExfatDirEntry} (hfind : (exfatFindRoot fuel v path).run m.read = some (some file))
    (hapart : ApartFromMetadata fuel v m path file.firstCluster C.length) :
    (∀ B : List UInt8, B.length ≤ C.length →
      RoundTrips fuel v m path bufferSize file.firstCluster C B) ↔
    Unaliased v m file.firstCluster C.length := by
  have hV := clusters_sound (exfatMount_sectorsPerCluster hmount)
  constructor
  · exact unaliased_of_roundTrips hm hread hfind hapart (hm.read _) hmount
  · intro h B hB
    obtain ⟨-, -, -, hchain⟩ := exfatReadFile_file hread hfind
    obtain ⟨huse, -⟩ := ClusterMap.readChain_stored hV hm _ _ _ C hchain rfl
    exact roundTrips_of_disjoint hm hread hfind hapart hV (h.disjoint (hm.read _) hmount huse) hB

theorem sample_fileSector {a : ℕ}
    (h : (sampleVolume 2).clusters.FileSector ((sampleVolume 2).clusters.chainAt sampleMedium 3) 3
      a) : a = 3 := by
  obtain ⟨k, hk, lba, hlba, hge, hlt⟩ := h
  rw [show (sampleVolume 2).clusters.clusterBytes = 512 from rfl] at hk
  obtain rfl : k = 0 := by omega
  rw [show (sampleVolume 2).clusters.lba ((sampleVolume 2).clusters.chainAt sampleMedium 3 0)
    = some 3 by decide +kernel, Option.some_inj] at hlba
  rw [show (sampleVolume 2).clusters.sectorsPerCluster = 1 from rfl] at hlt
  omega

theorem exfat_overwrite_roundtrip_iff_sample :
    RoundTrips 2 (sampleVolume 2) sampleMedium [65] 3 3 [0, 0, 0] [7] := by
  have hapart : ApartFromMetadata 2 (sampleVolume 2) sampleMedium [65] 3 3 := by
    have hclear : ∀ ts : List Transfer, (∀ t ∈ ts, 3 ∉ t.sectors) →
        Clear ((sampleVolume 2).clusters.FileSector
          ((sampleVolume 2).clusters.chainAt sampleMedium 3) 3) ts :=
      fun ts hts t ht a ha hf => hts t ht (sample_fileSector hf ▸ ha)
    refine ⟨fun k hk => hclear _ ?_, hclear _ (by decide +kernel)⟩
    rw [show (sampleVolume 2).clusters.clusterBytes = 512 from rfl] at hk
    obtain rfl : k = 0 := by omega
    decide +kernel
  have hfind : (exfatFindRoot 2 (sampleVolume 2) [65]).run sampleMedium.read
      = some (some ⟨[65], 0, 3, 3⟩) := by
    decide +kernel
  have hread : (exfatReadFile 2 (sampleVolume 2) [65] 3).run sampleMedium.read
      = some (some [0, 0, 0]) := by
    decide +kernel
  refine (exfat_overwrite_roundtrip_iff (p := samplePartition) (sparseMedium_good _)
    (by decide +kernel) hread hfind hapart).2 ?_ [7] (by decide)
  intro k l hk hl _
  rw [show (sampleVolume 2).clusters.clusterBytes = 512 from rfl] at hk hl
  simp only [List.length_cons, List.length_nil] at hk hl
  omega

section Alias

/-- The boot sector, the table and the root directory of a volume of two-sector clusters with more
than `2 ^ 31` of them, and a file `A` of 1025 bytes in clusters 4 and `2 ^ 31 + 4`. -/
def aliasMetadata : List (ℕ × UInt8) :=
  (signature.zipIdx 3).map (fun x => (x.2, x.1)) ++
    [(80, 1), (84, 1), (88, 2), (92, 4), (95, 0x80), (96, 2), (108, 9), (109, 1), (110, 1),
      (510, 0x55), (511, 0xAA), (528, 4), (531, 0x80)] ++
    ((List.range 4).map fun i => (512 * (1 + 2 ^ 24) + 16 + i, 0xFF)) ++
    [(1024, 0x85), (1025, 2), (1056, 0xC0), (1059, 1), (1076, 4), (1080, 1), (1081, 4),
      (1088, 0xC1), (1090, 65)]

/-- Both clusters of the file lie in sectors 6 and 7, which hold zeros. -/
def aliasMedium : Medium :=
  ⟨fun a => if a / 1024 = 3 then 0 else (aliasMetadata.lookup a).getD 0, fun _ => false⟩

def aliasVolume : ExfatVolume := ⟨samplePartition, 1, 2, 2, 2 ^ 31 + 4, 2⟩

theorem alias_chain : aliasVolume.clusters.chainAt aliasMedium 4 0 = 4 ∧
    aliasVolume.clusters.chainAt aliasMedium 4 1 = 2 ^ 31 + 4 := by
  decide +kernel

theorem alias_index {k : ℕ} (hk : k * aliasVolume.clusters.clusterBytes < 1025) :
    k = 0 ∨ k = 1 := by
  rw [show aliasVolume.clusters.clusterBytes = 1024 from rfl] at hk
  omega

theorem alias_apart : ApartFromMetadata 2 aliasVolume aliasMedium [65] 4 1025 := by
  have hsector : ∀ a, aliasVolume.clusters.FileSector (aliasVolume.clusters.chainAt aliasMedium 4)
      1025 a → a = 6 ∨ a = 7 := by
    rintro a ⟨k, hk, lba, hlba, hge, hlt⟩
    have h6 : aliasVolume.clusters.lba (aliasVolume.clusters.chainAt aliasMedium 4 k) = some 6 := by
      rcases alias_index hk with rfl | rfl
      · decide +kernel
      · decide +kernel
    rw [h6, Option.some_inj] at hlba
    rw [show aliasVolume.clusters.sectorsPerCluster = 2 from rfl] at hlt
    omega
  have hclear : ∀ ts : List Transfer, (∀ t ∈ ts, 6 ∉ t.sectors ∧ 7 ∉ t.sectors) →
      Clear (aliasVolume.clusters.FileSector (aliasVolume.clusters.chainAt aliasMedium 4) 1025)
        ts := by
    intro ts hts t ht a ha hf
    rcases hsector a hf with rfl | rfl
    · exact (hts t ht).1 ha
    · exact (hts t ht).2 ha
  refine ⟨fun k hk => hclear _ ?_, hclear _ (by decide +kernel)⟩
  rcases alias_index hk with rfl | rfl
  · decide +kernel
  · decide +kernel

/-- The chain repeats no cluster number, and yet the byte written at the start of the file is read
again at its end. -/
theorem aliased_clusters_overwritten :
    ∃ C, (exfatMount samplePartition).run aliasMedium.read = some (some aliasVolume) ∧
      (exfatReadFile 2 aliasVolume [65] 1025).run aliasMedium.read = some (some C) ∧
      aliasVolume.clusters.chainAt aliasMedium 4 0 ≠ aliasVolume.clusters.chainAt aliasMedium 4 1 ∧
      ApartFromMetadata 2 aliasVolume aliasMedium [65] 4 C.length ∧
      ¬ RoundTrips 2 aliasVolume aliasMedium [65] 1025 4 C [1] := by
  have hread : (exfatReadFile 2 aliasVolume [65] 1025).run aliasMedium.read
      = some (some (List.replicate 1025 0)) := by
    decide +kernel
  refine ⟨_, by decide +kernel, hread, by simp [alias_chain], ?_, ?_⟩
  · rw [List.length_replicate]
    exact alias_apart
  · rintro ⟨w, hw, -, hback, -⟩
    have hend : (exfatWriteFile 2 aliasVolume [65] [1] aliasMedium).bind (fun w =>
        ((exfatReadFile 2 aliasVolume [65] 1025).run w.medium.read).map fun r =>
          r.map fun l => l.getD 1024 0) = some (some 1) := by
      decide +kernel
    rw [hw, Option.bind_some, hback] at hend
    revert hend
    decide +kernel

end Alias

end RoundTrip

end Exfat

end PeanutKernel
