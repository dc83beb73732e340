import PeanutKernel.Proofs.Fat32

/-!
# Overwriting a file on a FAT volume

The round trip of `fat32_write_file` and `fat32_read_file`: the chain of a file is overwritten as
`ClusterMap.overwrite` says, and the lookup reads none of its sectors, so it finds the file again.
-/

namespace PeanutKernel

namespace Fat

variable {v : Fat32Volume} {m : Medium}

/-- What `fat32_read_file` returns of a regular file that fits the buffer. -/
theorem fat32ReadFile_run {fuel bufferSize : ℕ} {path : List UInt8} {file : Fat32DirEntry}
    (hfind : (fat32FindRoot fuel v path).run m.read = some (some file)) :
    (fat32ReadFile fuel v path bufferSize).run m.read
      = if file.attributes &&& attrDirectory ≠ 0 then some none
        else if bufferSize < file.size ∨ 8 < v.sectorsPerCluster then some none
        else (v.clusters.readChain file.size file.size file.firstCluster).run m.read := by
  simp only [fat32ReadFile, Query.run_bind, hfind, Option.bind_some]
  split_ifs <;> rfl

/-- A read that returns has found a regular file, and reads its chain. -/
theorem fat32ReadFile_some {fuel bufferSize : ℕ} {path C : List UInt8}
    (h : (fat32ReadFile fuel v path bufferSize).run m.read = some (some C)) :
    ∃ file, (fat32FindRoot fuel v path).run m.read = some (some file) ∧
      file.attributes &&& attrDirectory = 0 ∧ file.size ≤ bufferSize ∧
      v.sectorsPerCluster ≤ 8 ∧
      (v.clusters.readChain file.size file.size file.firstCluster).run m.read = some (some C) := by
  have hfind : ∃ file, (fat32FindRoot fuel v path).run m.read = some (some file) := by
    simp only [fat32ReadFile, Query.run_bind] at h
    rcases hf : (fat32FindRoot fuel v path).run m.read with _ | _ | file
    · simp [hf] at h
    · simp [hf] at h
    · exact ⟨file, rfl⟩
  obtain ⟨file, hfind⟩ := hfind
  rw [fat32ReadFile_run hfind] at h
  split_ifs at h with hdir hsize
  · simp at h
  · simp at h
  · push Not at hdir hsize
    exact ⟨file, hfind, hdir, hsize.1, hsize.2, h⟩

/-- The file's clusters, as far as its `n` bytes need them, are all different, and neither the
lookup of `path` nor following the chain reads a sector of them. -/
structure ApartFromMetadata (fuel : ℕ) (v : Fat32Volume) (m : Medium) (path : List UInt8)
    (first n : ℕ) : Prop where
  nodup : ∀ k l, k * v.clusters.clusterBytes < n → l * v.clusters.clusterBytes < n →
    v.clusters.chainAt m first k = v.clusters.chainAt m first l → k = l
  fat : ∀ k, k * v.clusters.clusterBytes < n →
    Clear (v.clusters.FileSector (v.clusters.chainAt m first) n)
      ((nextCluster v (v.clusters.chainAt m first k)).trace m.read)
  lookup : Clear (v.clusters.FileSector (v.clusters.chainAt m first) n)
    ((fat32FindRoot fuel v path).trace m.read)

/-- Different clusters of a chain do not overlap. -/
theorem ApartFromMetadata.apart {fuel : ℕ} {path : List UInt8} {first n : ℕ}
    (h : ApartFromMetadata fuel v m path first n) (hspc : v.sectorsPerCluster ≤ 8)
    (huse : ∀ k, k * v.clusters.clusterBytes < n →
      v.clusters.Usable (v.clusters.chainAt m first k)) : v.clusters.Apart m first n :=
  ⟨fun k l hk hl _ hs hs' => h.nodup k l hk hl
    (inCluster_unique hspc (usable_iff.1 (huse k hk)) (usable_iff.1 (huse l hl)) hs hs'), h.fat⟩

/-- Overwriting the start of a file: the call succeeds, the file then reads as the new bytes
followed by what they did not reach, no other byte of the disk changes, and a file whose reading
stays clear of the sectors of the new bytes reads as before. -/
theorem fat32_overwrite_roundtrip {p : Partition} (hm : m.Good)
    (hmount : (fat32Mount p).run m.read = some (some v)) {fuel bufferSize : ℕ}
    {path C : List UInt8}
    (hread : (fat32ReadFile fuel v path bufferSize).run m.read = some (some C))
    {file : Fat32DirEntry}
    (hfind : (fat32FindRoot fuel v path).run m.read = some (some file))
    (hwhole : C.length = file.size)
    (hapart : ApartFromMetadata fuel v m path file.firstCluster C.length)
    (B : List UInt8) (hB : B.length ≤ C.length) :
    ∃ w : Written, fat32WriteFile fuel v path B m = some w ∧ w.ret = 0 ∧
      (fat32ReadFile fuel v path bufferSize).run w.medium.read
        = some (some (B ++ C.drop B.length)) ∧
      (∀ a, (∀ i < B.length,
          a ≠ v.clusters.filePlace (v.clusters.chainAt m file.firstCluster) i) →
        w.medium.byte a = m.byte a) ∧
      ∀ (fuel' size : ℕ) (path' : List UInt8),
        Clear (fun s => ∃ i < B.length,
            s = v.clusters.filePlace (v.clusters.chainAt m file.firstCluster) i / 512)
          ((fat32ReadFile fuel' v path' size).trace m.read) →
        (fat32ReadFile fuel' v path' size).run w.medium.read
          = (fat32ReadFile fuel' v path' size).run m.read := by
  have hV := clusters_sound (fat32Mount_sectorsPerCluster hmount)
  obtain ⟨file', hfind', hdir, hfits, hspc, hchain⟩ := fat32ReadFile_some hread
  rw [hfind] at hfind'
  cases hfind'
  rw [← hwhole] at hchain
  obtain ⟨huse, -⟩ := ClusterMap.readChain_stored hV hm _ _ _ C hchain rfl
  obtain ⟨m', writes, hwrite, hag, hov, hback⟩ :=
    ClusterMap.overwrite hV hm hchain (hapart.apart hspc huse) hB
  refine ⟨⟨0, m', writes⟩, ?_, rfl, ?_, fun a ha => hov.frame a ha, fun fuel' size path' hc => ?_⟩
  · simp only [fat32WriteFile, hfind]
    rw [if_neg (by simpa using hdir), if_neg (by omega)]
    exact hwrite
  · have hfind₁ : (fat32FindRoot fuel v path).run m'.read = some (some file) := by
      rw [hag.run _ hapart.lookup, hfind]
    rw [fat32ReadFile_run hfind₁, if_neg (by simpa using hdir), if_neg (by omega), ← hwhole]
    exact hback
  · have hagB : AgreeOff (fun s => ∃ i < B.length,
        s = v.clusters.filePlace (v.clusters.chainAt m file.firstCluster) i / 512) m m' := by
      refine ⟨hag.bad, fun a ha => hov.frame a fun i hi heq => ha ⟨i, hi, ?_⟩⟩
      rw [heq]
    exact hagB.run _ hc

theorem sample_fileSector {s : ℕ}
    (h : sampleVolume.clusters.FileSector (sampleVolume.clusters.chainAt sampleMedium 2) 600 s) :
    s = 3 ∨ s = 4 := by
  obtain ⟨k, hk, hs⟩ := h
  rw [show sampleVolume.clusters.clusterBytes = 512 from rfl] at hk
  obtain rfl | rfl : k = 0 ∨ k = 1 := by omega
  · exact Or.inl (List.mem_singleton.1 (mem_clusterSectors.2 hs : s ∈ [3]))
  · have h1 : sampleVolume.clusters.chainAt sampleMedium 2 1 = 3 := by decide +kernel
    rw [h1] at hs
    exact Or.inr (List.mem_singleton.1 (mem_clusterSectors.2 hs : s ∈ [4]))

theorem sample_clear {ts : List Transfer}
    (h : ∀ t ∈ ts, ∀ s ∈ t.sectors, ¬ (s = 3 ∨ s = 4)) :
    Clear (sampleVolume.clusters.FileSector (sampleVolume.clusters.chainAt sampleMedium 2) 600)
      ts :=
  fun t ht s hs hf => h t ht s hs (sample_fileSector hf)

theorem sample_apart :
    ApartFromMetadata 2 sampleVolume sampleMedium [65] sampleFile.firstCluster 600 := by
  have hk : ∀ k, k * sampleVolume.clusters.clusterBytes < 600 → k = 0 ∨ k = 1 := by
    intro k hk
    rw [show sampleVolume.clusters.clusterBytes = 512 from rfl] at hk
    omega
  have h1 : sampleVolume.clusters.chainAt sampleMedium 2 1 = 3 := by decide +kernel
  refine ⟨?_, ?_, ?_⟩
  · intro k l hk' hl'
    rcases hk k hk' with rfl | rfl <;> rcases hk l hl' with rfl | rfl <;>
      simp [sampleFile, h1, ClusterMap.chainAt.eq_1]
  · intro k hk'
    apply sample_clear
    rcases hk k hk' with rfl | rfl
    · decide +kernel
    · decide +kernel
  · apply sample_clear
    decide +kernel

theorem fat32_overwrite_roundtrip_sample :
    ∃ w : Written, fat32WriteFile 2 sampleVolume [65] [1, 2, 3] sampleMedium = some w ∧
      w.ret = 0 ∧
      (fat32ReadFile 2 sampleVolume [65] 600).run w.medium.read
        = some (some ([1, 2, 3] ++ sampleContent.drop 3)) := by
  have hmount : (fat32Mount samplePartition).run sampleMedium.read = some (some sampleVolume) := by
    decide +kernel
  have hread : (fat32ReadFile 2 sampleVolume [65] 600).run sampleMedium.read
      = some (some sampleContent) := by
    decide +kernel
  have hfind : (fat32FindRoot 2 sampleVolume [65]).run sampleMedium.read
      = some (some sampleFile) := by
    decide +kernel
  have hlen : sampleContent.length = 600 := by simp [sampleContent]
  obtain ⟨w, hw, hret, hback, -⟩ := fat32_overwrite_roundtrip sampleMedium_good hmount hread hfind
    hlen (hlen.symm ▸ sample_apart) [1, 2, 3] (by rw [hlen]; decide)
  exact ⟨w, hw, hret, hback⟩

end Fat

end PeanutKernel
