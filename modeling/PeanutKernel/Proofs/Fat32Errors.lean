import PeanutKernel.Proofs.Fat32Lookup

/-!
# Reading a FAT volume with unreadable sectors

`next_cluster` reports a FAT sector it cannot read as the end of the chain, so a chain is cut off
and a read or a listing stops early. The one exception is a FAT12 entry that lies in two sectors of
which only the first can be read: for it `next_cluster` returns the FAT12 mark, which its callers
take for cluster `0xFF8`. No FAT12 volume has that cluster; what lies at its place is read on.

A read that returns 0 returns a prefix of the file unless it goes on behind such an entry
(`fat32_read_failing_iff`).
-/

namespace PeanutKernel

/-- The medium with `bad` for its unreadable sectors. -/
def Medium.failing (m : Medium) (bad : ℕ → Bool) : Medium := { m with bad := bad }

namespace Fat

variable {v : Fat32Volume} {m : Medium} {bad : ℕ → Bool} {c : ℕ}

section Entries

/-- The FAT12 entry of the cluster lies in two sectors, and only the first can be read. -/
structure HalfRead (v : Fat32Volume) (m : Medium) (c : ℕ) : Prop where
  fat12 : v.fatType = .fat12
  straddles : fatOffset v c % 512 = 511
  first : m.bad ((v.fatStartLba + fatOffset v c / 512) % 2 ^ 32) = false
  second : m.bad ((v.fatStartLba + fatOffset v c / 512 + 1) % 2 ^ 32) = true

theorem blockRead_failing (hm : m.Good) (bad : ℕ → Bool) (lba count : ℕ) :
    (blockRead lba count).run (m.failing bad).read = some none ∨
      (blockRead lba count).run (m.failing bad).read = (blockRead lba count).run m.read := by
  unfold blockRead
  split_ifs
  · exact Or.inl rfl
  · rcases hany : (Transfer.sectors ⟨lba, count⟩).any bad with _ | _
    · refine Or.inr ?_
      simp [Medium.failing, Medium.read, hany, hm.any]
    · refine Or.inl ?_
      simp [Medium.failing, Medium.read, hany]

theorem blockRead_bad {lba : ℕ} (h : m.bad lba = true) :
    (blockRead lba 1).run m.read = some none := by
  simp [blockRead, Medium.read, Transfer.sectors, h]

theorem blockRead_one {lba : ℕ} (h : m.bad lba = false) :
    (blockRead lba 1).run m.read
      = some (some fun i => if i < 512 then m.byte (512 * lba + i) else 0) := by
  simp [blockRead, Medium.read, Transfer.sectors, h]

theorem nextAt_halfRead (h : HalfRead v m c) : v.clusters.nextAt m c = fat12Eoc := by
  have hrun : (nextCluster v c).run m.read = some fat12Eoc := by
    rw [nextCluster]
    simp only [Query.run_bind, blockRead_one h.first, Option.bind_some, h.fat12, h.straddles,
      if_true, blockRead_bad h.second, Query.run_pure]
  rw [nextCluster_run, Option.some_inj] at hrun
  exact hrun

/-- With unreadable sectors a chain goes on as before or ends, but for an entry that is read by
half. -/
theorem nextAt_failing (hm : m.Good) (h : ¬ HalfRead v (m.failing bad) c) :
    v.clusters.nextAt (m.failing bad) c = fat32Eoc ∨
      v.clusters.nextAt (m.failing bad) c = v.clusters.nextAt m c := by
  have hrun : (nextCluster v c).run (m.failing bad).read = some fat32Eoc ∨
      (nextCluster v c).run (m.failing bad).read = (nextCluster v c).run m.read := by
    rw [nextCluster]
    simp only [Query.run_bind]
    rcases hfirst : bad ((v.fatStartLba + fatOffset v c / 512) % 2 ^ 32) with _ | _
    · rw [blockRead_one (m := m) (hm _), blockRead_one (m := m.failing bad) hfirst]
      rcases hty : v.fatType with _ | _ | _
      · simp only [Option.bind_some]
        by_cases hoff : fatOffset v c % 512 = 511
        · rcases hsecond : bad ((v.fatStartLba + fatOffset v c / 512 + 1) % 2 ^ 32) with _ | _
          · rw [if_pos hoff, if_pos hoff]
            simp only [Query.run_bind]
            rw [blockRead_one (m := m) (hm _), blockRead_one (m := m.failing bad) hsecond]
            exact Or.inr rfl
          · exact absurd ⟨hty, hoff, hfirst, hsecond⟩ h
        · rw [if_neg hoff, if_neg hoff]
          exact Or.inr rfl
      · exact Or.inr rfl
      · exact Or.inr rfl
    · rw [blockRead_bad (m := m.failing bad) hfirst]
      exact Or.inl rfl
  rwa [nextCluster_run, nextCluster_run, Option.some_inj, Option.some_inj] at hrun

end Entries

section Lookup

theorem dirLinks_cut (hm : m.Good) :
    Links.Cut (dirLinks v m) (dirLinks v (m.failing bad)) (HalfRead v (m.failing bad)) where
  enters _ := rfl
  view c := by
    rcases blockRead_failing hm bad (clusterLba v c) v.sectorsPerCluster with h | h
    · have hread : (v.clusters.readCluster c).run (m.failing bad).read = some none := h
      exact Or.inl (by simp [dirLinks, ClusterMap.links, hread])
    · have hread : (v.clusters.readCluster c).run (m.failing bad).read
          = (v.clusters.readCluster c).run m.read := h
      exact Or.inr (by simp only [dirLinks, ClusterMap.links, hread])
  next c hc := by
    rcases nextAt_failing hm hc with h | h
    · refine Or.inl ?_
      show v.clusters.enters (v.clusters.nextAt (m.failing bad) c) = false
      rw [h]
      rfl
    · exact Or.inr h

theorem listChain_failing (hm : m.Good) {maxEntries fuel fuel' : ℕ} {es es' : List Fat32DirEntry}
    (hstray : ¬ (dirLinks v (m.failing bad)).ComesBehind maxEntries
      (HalfRead v (m.failing bad)) 0 c)
    (h : (listChain v maxEntries fuel c []).run m.read = some es)
    (h' : (listChain v maxEntries fuel' c []).run (m.failing bad).read = some es') :
    es' <+: es := by
  rw [listChain_run v _ maxEntries _ c [] (Nat.zero_le _)] at h h'
  exact (dirLinks_cut hm).collect fuel' fuel c [] hstray h h'

theorem scanSlots_extends (buf : Buf) (maxEntries n : ℕ) :
    ∀ (off : ℕ) (s : DirScan), s.entries <+: (scanSlots buf maxEntries n off s).entries := by
  induction n with
  | zero => exact fun _ _ => List.prefix_rfl
  | succ n ih =>
    intro off s
    rw [scanSlots]
    split_ifs
    · refine List.IsPrefix.trans ?_ (ih _ _)
      rw [(scanSlot_eq _ s).2.1]
      exact List.prefix_append _ _
    · exact List.prefix_rfl

theorem listFixedRoot_extends (maxEntries n : ℕ) :
    ∀ (i : ℕ) (s : DirScan) {es : List Fat32DirEntry},
      (listFixedRoot v maxEntries n i s).run m.read = some es → s.entries <+: es := by
  induction n with
  | zero =>
    intro i s es h
    rw [← Option.some_inj.1 h]
  | succ n ih =>
    intro i s es h
    rw [listFixedRoot] at h
    split_ifs at h
    · obtain ⟨read, hread⟩ := blockRead_returns m.read ((v.rootDirLba + i) % 2 ^ 32) 1
      simp only [Query.run_bind, hread, Option.bind_some] at h
      rcases read with _ | buf
      · rw [← Option.some_inj.1 h]
      · have hext := scanSlots_extends buf maxEntries 16 0 s
        dsimp only at h
        split_ifs at h
        · rwa [← Option.some_inj.1 h]
        · exact hext.trans (ih _ _ h)
    · rw [← Option.some_inj.1 h]

theorem listFixedRoot_failing (hm : m.Good) (maxEntries n : ℕ) :
    ∀ (i : ℕ) (s : DirScan) {es es' : List Fat32DirEntry},
      (listFixedRoot v maxEntries n i s).run m.read = some es →
      (listFixedRoot v maxEntries n i s).run (m.failing bad).read = some es' → es' <+: es := by
  induction n with
  | zero =>
    intro i s es es' h h'
    rw [← Option.some_inj.1 h, ← Option.some_inj.1 h']
  | succ n ih =>
    intro i s es es' h h'
    have hext := listFixedRoot_extends maxEntries (n + 1) i s h
    rw [listFixedRoot] at h h'
    split_ifs at h h'
    · rcases blockRead_failing hm bad ((v.rootDirLba + i) % 2 ^ 32) 1 with hb | hb
      · simp only [Query.run_bind, hb, Option.bind_some] at h'
        rwa [← Option.some_inj.1 h']
      · obtain ⟨read, hread⟩ := blockRead_returns m.read ((v.rootDirLba + i) % 2 ^ 32) 1
        simp only [Query.run_bind, hb, hread, Option.bind_some] at h h'
        rcases read with _ | buf
        · rw [← Option.some_inj.1 h, ← Option.some_inj.1 h']
        · dsimp only at h h'
          split_ifs at h h'
          · rw [← Option.some_inj.1 h, ← Option.some_inj.1 h']
          · exact ih _ _ h h'
    · rw [← Option.some_inj.1 h, ← Option.some_inj.1 h']

/-- The listing of the directory goes on behind an entry of the table that is read by half. -/
def ListStrays (v : Fat32Volume) (m : Medium) : Option ℕ → Prop
  | none => False
  | some c => (dirLinks v m).ComesBehind 64 (HalfRead v m) 0 c

theorem listDir_failing (hm : m.Good) {dir : Option ℕ} {fuel fuel' : ℕ}
    {es es' : List Fat32DirEntry} (hstray : ¬ ListStrays v (m.failing bad) dir)
    (h : listDir fuel v m dir = some es) (h' : listDir fuel' v (m.failing bad) dir = some es') :
    es' <+: es := by
  rcases dir with _ | c
  · rw [listDir, fat32ListRoot] at h h'
    by_cases hnone : 64 = 0 ∨ 8 < v.sectorsPerCluster
    · rw [if_pos hnone] at h h'
      rw [← Option.some_inj.1 h, ← Option.some_inj.1 h']
    · rw [if_neg hnone] at h h'
      by_cases hty : v.fatType ≠ .fat32
      · rw [if_pos hty] at h h'
        exact listFixedRoot_failing hm 64 _ _ _ h h'
      · rw [if_neg hty] at h h'
        refine listChain_failing hm ?_ h h'
        -- only a FAT12 volume has entries in two sectors
        rintro ⟨k, l, -, -, hhalf⟩
        rw [hhalf.fat12] at hty
        exact hty (by decide)
  · rw [listDir, listClusterEntries] at h h'
    split_ifs at h h' with hspc
    · rw [← Option.some_inj.1 h, ← Option.some_inj.1 h']
    · exact listChain_failing hm hstray h h'

/-- The lookup of the path lists a directory that way. -/
def LookupStrays (v : Fat32Volume) (m : Medium) (path : List UInt8) : Prop :=
  ∃ dir, Visits v m path dir ∧ ListStrays v m dir

theorem fat32FindRoot_failing (hm : m.Good) {path : List UInt8} {fuel fuel' : ℕ}
    {r : Option Fat32DirEntry} {e : Fat32DirEntry}
    (hstray : ¬ LookupStrays v (m.failing bad) path)
    (h : (fat32FindRoot fuel v path).run m.read = some r)
    (h' : (fat32FindRoot fuel' v path).run (m.failing bad).read = some (some e)) :
    r = some e := by
  rw [fat32FindRoot_run] at h h'
  refine Folders.find_of_prefix (F := folders v m) (G := folders v (m.failing bad)) rfl rfl rfl
    rfl (components path) none (fun dir es es' hvisit hlist hlist' => ?_) h h'
  exact listDir_failing hm (fun hs => hstray ⟨dir, hvisit, hs⟩) hlist hlist'

end Lookup

section Read

/-- The read loop with `left` bytes to go comes to a cluster whose entry is read by half, and has
`rest` bytes to go behind it. -/
inductive ReadStrays (v : Fat32Volume) (m : Medium) : ℕ → ℕ → ℕ → Prop
  | here {left c : ℕ} : c < fat32Eoc → 0 < left →
      (∀ s, v.clusters.InCluster c s → m.bad s = false) → HalfRead v m c →
      ReadStrays v m left c (left - min left v.clusters.clusterBytes)
  | next {left c rest : ℕ} : c < fat32Eoc → 0 < left →
      (∀ s, v.clusters.InCluster c s → m.bad s = false) → ¬ HalfRead v m c →
      ReadStrays v m (left - min left v.clusters.clusterBytes) (v.clusters.nextAt m c) rest →
      ReadStrays v m left c rest

variable {left : ℕ}

theorem ReadStrays.enters {rest : ℕ} (h : ReadStrays v m left c rest) : c < fat32Eoc := by
  cases h with
  | here hc => exact hc
  | next hc => exact hc

theorem ReadStrays.le {rest : ℕ} (h : ReadStrays v m left c rest) : rest ≤ left := by
  induction h with
  | here => exact Nat.sub_le _ _
  | next _ _ _ _ _ ih => exact ih.trans (Nat.sub_le _ _)

variable {C : List UInt8}

section

variable (hpos : 0 < v.sectorsPerCluster) (hm : m.Good)

include hpos hm

/-- One round of the read loop on a medium without unreadable sectors, and what it leaves. -/
theorem readChain_round {n : ℕ} (hc : c < fat32Eoc) (hl : 0 < left)
    (h : (v.clusters.readChain n left c).run m.read = some (some C)) :
    ∃ n' C', n = n' + 1 ∧
      (v.clusters.readChain n' (left - min left v.clusters.clusterBytes)
        (v.clusters.nextAt m c)).run m.read = some (some C') ∧
      C = stored m.byte (v.clusters.base c + ·) (min left v.clusters.clusterBytes) ++ C' := by
  have hV := clusters_sound hpos
  rcases n with _ | n
  · rw [ClusterMap.readChain, if_pos ⟨enters_iff.2 hc, hl⟩] at h
    cases h
  · rw [ClusterMap.readChain_succ hV hm n (usable_iff.2 hc) hl, Option.map_eq_some_iff] at h
    obtain ⟨rest, hrest, hC⟩ := h
    rw [Option.map_eq_some_iff] at hC
    obtain ⟨C', rfl, hC⟩ := hC
    exact ⟨n, C', rfl, hrest, hC.symm⟩

theorem readChain_strays {rest : ℕ} (h : ReadStrays v (m.failing bad) left c rest) :
    ∀ {n : ℕ} {C : List UInt8}, left ≤ n →
      (v.clusters.readChain n left c).run m.read = some (some C) →
      left - rest ≤ C.length ∧
      (v.clusters.readChain n left c).run (m.failing bad).read
        = ((v.clusters.readChain rest rest fat12Eoc).run (m.failing bad).read).map
          (Option.map (C.take (left - rest) ++ ·)) := by
  have hV := clusters_sound hpos
  induction h with
  | @here left c hc hl hread hhalf =>
    intro n C hle hrun
    obtain ⟨n, C', rfl, -, rfl⟩ := readChain_round hpos hm hc hl hrun
    have hcb := hV.clusterBytes_pos
    set k := min left v.clusters.clusterBytes with hk
    have hsub : left - (left - k) = k := by omega
    have hlen : (stored m.byte (v.clusters.base c + ·) k).length = k := by simp [stored]
    rw [ClusterMap.readChain_of_sectors hV n (usable_iff.2 hc) hread hl, nextAt_halfRead hhalf,
      ClusterMap.readChain_rounds hV n (left - k) _ _ (by omega) le_rfl, hsub,
      List.take_left' hlen]
    refine ⟨?_, rfl⟩
    rw [List.length_append, hlen]
    exact Nat.le_add_right _ _
  | @next left c rest hc hl hread hhalf hstray ih =>
    intro n C hle hrun
    obtain ⟨n, C', rfl, hrun', rfl⟩ := readChain_round hpos hm hc hl hrun
    have hnext : v.clusters.nextAt (m.failing bad) c = v.clusters.nextAt m c := by
      rcases nextAt_failing hm hhalf with h | h
      · have := hstray.enters
        omega
      · exact h
    have hcb := hV.clusterBytes_pos
    have hrest := hstray.le
    set k := min left v.clusters.clusterBytes with hk
    have hlen : (stored m.byte (v.clusters.base c + ·) k).length = k := by simp [stored]
    rw [hnext] at ih
    obtain ⟨hle', heq⟩ := ih (n := n) (by omega) hrun'
    have htake : (stored m.byte (v.clusters.base c + ·) k ++ C').take (left - rest)
        = stored m.byte (v.clusters.base c + ·) k ++ C'.take (left - k - rest) := by
      rw [List.take_append, hlen, List.take_of_length_le (by omega),
        show left - rest - k = left - k - rest by omega]
    constructor
    · rw [List.length_append, hlen]
      omega
    · rw [ClusterMap.readChain_of_sectors hV n (usable_iff.2 hc) hread hl, hnext, heq, htake]
      simp only [Option.map_map, Function.comp_def, List.append_assoc]
      rfl

theorem readChain_prefix (n : ℕ) :
    ∀ (left c : ℕ) {C B : List UInt8}, (∀ rest, ¬ ReadStrays v (m.failing bad) left c rest) →
      (v.clusters.readChain n left c).run m.read = some (some C) →
      (v.clusters.readChain n left c).run (m.failing bad).read = some (some B) → B <+: C := by
  have hV := clusters_sound hpos
  induction n with
  | zero =>
    intro left c C B _ h h'
    by_cases hgo : v.clusters.enters c = true ∧ 0 < left
    · rw [ClusterMap.readChain, if_pos hgo] at h
      cases h
    · rw [ClusterMap.readChain_stop hgo, Option.some_inj, Option.some_inj] at h'
      rw [← h']
      exact List.nil_prefix
  | succ n ih =>
    intro left c C B hstray h h'
    by_cases hgo : v.clusters.enters c = true ∧ 0 < left
    · have hc := enters_iff.1 hgo.1
      obtain ⟨n', C', hn, hrun, rfl⟩ := readChain_round hpos hm hc hgo.2 h
      obtain rfl : n = n' := by omega
      by_cases hread : ∀ s, v.clusters.InCluster c s → (m.failing bad).bad s = false
      · have hhalf : ¬ HalfRead v (m.failing bad) c := fun hhalf =>
          hstray _ (.here hc hgo.2 hread hhalf)
        rw [ClusterMap.readChain_of_sectors hV n (usable_iff.2 hc) hread hgo.2,
          Option.map_eq_some_iff] at h'
        obtain ⟨r, hr, hB⟩ := h'
        rw [Option.map_eq_some_iff] at hB
        obtain ⟨B', rfl, rfl⟩ := hB
        refine (List.prefix_append_right_inj _).2 ?_
        rcases nextAt_failing hm hhalf with hend | hsame
        · rw [hend, ClusterMap.readChain_stop fun h => lt_irrefl _ (enters_iff.1 h.1),
            Option.some_inj, Option.some_inj] at hr
          rw [← hr]
          exact List.nil_prefix
        · rw [hsame] at hr
          refine ih _ _ (fun rest hs => hstray rest ?_) hrun hr
          exact .next hc hgo.2 hread hhalf (hsame ▸ hs)
      · simp only [not_forall, exists_prop, Bool.not_eq_false] at hread
        rw [ClusterMap.readChain_unreadable hgo.1 hgo.2 hread] at h'
        cases h'
    · rw [ClusterMap.readChain_stop hgo, Option.some_inj, Option.some_inj] at h'
      rw [← h']
      exact List.nil_prefix

end

theorem take_append_prefix_iff {B : List UInt8} (k : ℕ) : C.take k ++ B <+: C ↔ B <+: C.drop k := by
  have h : C.take k ++ B <+: C.take k ++ C.drop k ↔ B <+: C.drop k :=
    List.prefix_append_right_inj _
  rwa [List.take_append_drop] at h

/-- A read that returns 0 returns a prefix of `C`. -/
def ReadsPrefix (v : Fat32Volume) (m : Medium) (path : List UInt8) (bufferSize : ℕ)
    (C : List UInt8) : Prop :=
  ∀ fuel B, (fat32ReadFile fuel v path bufferSize).run m.read = some (some B) → B <+: C

/-- The lookup of the path finds the entry, and `fat32_read_file` goes on to read it. -/
def Opens (v : Fat32Volume) (m : Medium) (path : List UInt8) (bufferSize : ℕ)
    (e : Fat32DirEntry) : Prop :=
  (∃ fuel, (fat32FindRoot fuel v path).run m.read = some (some e)) ∧
    e.attributes &&& attrDirectory = 0 ∧ e.size ≤ bufferSize ∧ v.sectorsPerCluster ≤ 8

theorem fat32ReadFile_iff {path B : List UInt8} {bufferSize fuel : ℕ} :
    (fat32ReadFile fuel v path bufferSize).run m.read = some (some B)
      ↔ ∃ e, (fat32FindRoot fuel v path).run m.read = some (some e) ∧
        e.attributes &&& attrDirectory = 0 ∧ e.size ≤ bufferSize ∧ v.sectorsPerCluster ≤ 8 ∧
        (v.clusters.readChain e.size e.size e.firstCluster).run m.read = some (some B) := by
  rw [fat32ReadFile]
  simp only [Query.run_bind]
  rcases (fat32FindRoot fuel v path).run m.read with _ | _ | e
  · simp
  · simp
  · simp only [Option.bind_some, Option.some_inj, exists_eq_left']
    split_ifs with hdir hsize
    · simp [hdir]
    · simp only [Query.run_pure, Option.some_inj, reduceCtorEq, false_iff, not_and]
      omega
    · have hle : e.size ≤ bufferSize ∧ v.sectorsPerCluster ≤ 8 := by omega
      simp only [hle.1, hle.2, not_not.1 hdir, true_and]

theorem readsPrefix_iff {path : List UInt8} {bufferSize : ℕ} :
    ReadsPrefix v m path bufferSize C
      ↔ ∀ e, Opens v m path bufferSize e → ∀ B,
        (v.clusters.readChain e.size e.size e.firstCluster).run m.read = some (some B) →
        B <+: C := by
  constructor
  · rintro h e ⟨⟨fuel, hfind⟩, hdir, hsize, hspc⟩ B hB
    exact h fuel B (fat32ReadFile_iff.2 ⟨e, hfind, hdir, hsize, hspc, hB⟩)
  · intro h fuel B hB
    obtain ⟨e, hfind, hdir, hsize, hspc, hrun⟩ := fat32ReadFile_iff.1 hB
    exact h e ⟨⟨fuel, hfind⟩, hdir, hsize, hspc⟩ B hrun

/-- Behind an entry that is read by half the read goes on in cluster `0xFF8`, so the bytes there
decide. -/
theorem readChain_failing_iff (hpos : 0 < v.sectorsPerCluster) (hm : m.Good)
    (h : (v.clusters.readChain left left c).run m.read = some (some C)) :
    (∀ B, (v.clusters.readChain left left c).run (m.failing bad).read = some (some B) → B <+: C)
      ↔ ∀ rest, ReadStrays v (m.failing bad) left c rest → ∀ B,
        (v.clusters.readChain rest rest fat12Eoc).run (m.failing bad).read = some (some B) →
        B <+: C.drop (left - rest) := by
  constructor
  · intro hall rest hstray B hB
    obtain ⟨-, heq⟩ := readChain_strays hpos hm hstray le_rfl h
    rw [hB, Option.map_some, Option.map_some] at heq
    exact (take_append_prefix_iff _).1 (hall _ heq)
  · intro hall B hB
    by_cases hno : ∀ rest, ¬ ReadStrays v (m.failing bad) left c rest
    · exact readChain_prefix hpos hm left left c hno h hB
    · obtain ⟨rest, hstray⟩ := not_forall_not.1 hno
      obtain ⟨-, heq⟩ := readChain_strays hpos hm hstray le_rfl h
      rw [hB, eq_comm, Option.map_eq_some_iff] at heq
      obtain ⟨r, hr, hB'⟩ := heq
      rw [Option.map_eq_some_iff] at hB'
      obtain ⟨B', rfl, rfl⟩ := hB'
      exact (take_append_prefix_iff _).2 (hall rest hstray B' hr)

/-- A file that reads as `C`, read again with any sectors unreadable. What is returned is a prefix
of `C` just when what is read on from cluster `0xFF8`, behind an entry of the table that is read by
half, goes on as `C` does. The lookup finds the same file unless it lists a directory behind such an
entry, and if neither the lookup nor the read comes behind one, a prefix is returned. -/
theorem fat32_read_failing_iff {path C : List UInt8} {bufferSize fuel : ℕ}
    (hpos : 0 < v.sectorsPerCluster) (hm : m.Good)
    (hread : (fat32ReadFile fuel v path bufferSize).run m.read = some (some C)) (bad : ℕ → Bool) :
    ∃ file, (fat32FindRoot fuel v path).run m.read = some (some file) ∧
      (ReadsPrefix v (m.failing bad) path bufferSize C
        ↔ ∀ e, Opens v (m.failing bad) path bufferSize e →
          if e = file then
            ∀ rest, ReadStrays v (m.failing bad) file.size file.firstCluster rest → ∀ B,
              (v.clusters.readChain rest rest fat12Eoc).run (m.failing bad).read
                = some (some B) → B <+: C.drop (file.size - rest)
          else ∀ B, (v.clusters.readChain e.size e.size e.firstCluster).run (m.failing bad).read
            = some (some B) → B <+: C) ∧
      (¬ LookupStrays v (m.failing bad) path →
        ∀ e, Opens v (m.failing bad) path bufferSize e → e = file) ∧
      (¬ LookupStrays v (m.failing bad) path →
        (∀ rest, ¬ ReadStrays v (m.failing bad) file.size file.firstCluster rest) →
        ReadsPrefix v (m.failing bad) path bufferSize C) := by
  obtain ⟨file, hfind, -, -, -, hchain⟩ := fat32ReadFile_iff.1 hread
  have hsame : ¬ LookupStrays v (m.failing bad) path →
      ∀ e, Opens v (m.failing bad) path bufferSize e → e = file := by
    rintro hstray e ⟨⟨fuel', hfind'⟩, -⟩
    exact (Option.some_inj.1 (fat32FindRoot_failing hm hstray hfind hfind')).symm
  refine ⟨file, hfind, ?_, hsame, fun hlookup hchain' => readsPrefix_iff.2 fun e he => ?_⟩
  · rw [readsPrefix_iff]
    refine forall₂_congr fun e _ => ?_
    split_ifs with he
    · rw [he, readChain_failing_iff hpos hm hchain]
    · rfl
  · rw [hsame hlookup e he, readChain_failing_iff hpos hm hchain]
    exact fun rest h => absurd h (hchain' rest)

end Read

section Sample

/-- A FAT12 volume of 400 sectors. The entry of cluster 341 lies in both FAT sectors and leads to
cluster 342; the file `A` has 513 bytes in these two. The byte behind the volume, at the place of
cluster `0xFF8`, is not zero. -/
def straddleMedium : Medium := sparseMedium
  ([(12, 2), (13, 1), (14, 1), (16, 1), (17, 16), (19, 0x90), (20, 1), (22, 2), (510, 0x55),
    (511, 0xAA), (1023, 0x60), (1024, 0x15), (1025, 0xFF), (1026, 0x0F), (1536, 65)]
    ++ ((List.range 10).map fun i => (1537 + i, 32))
    ++ [(1536 + 11, 0x20), (1536 + 26, 0x55), (1536 + 27, 1), (1536 + 28, 1), (1536 + 29, 2),
      (512 * 4090, 88)])

def straddlePartition : Partition := ⟨0x01, 0, 400⟩

def straddleVolume : Fat32Volume where
  partition := straddlePartition
  fatType := .fat12
  fatStartLba := 1
  dataStartLba := 4
  rootDirLba := 3
  rootDirSectors := 1
  rootCluster := 0
  sectorsPerFat := 2
  sectorsPerCluster := 1
  rootEntryCount := 16

theorem straddle_read : (fat32ReadFile 0 straddleVolume [65] 1024).run straddleMedium.read
    = some (some (List.replicate 513 0)) := by
  decide +kernel

theorem fat32_read_failing_iff_straddle :
    ReadsPrefix straddleVolume (straddleMedium.failing (· == 1)) [65] 1024
      (List.replicate 513 0) := by
  have hhalf : ∀ c, ¬ HalfRead straddleVolume (straddleMedium.failing (· == 1)) c := by
    intro c h
    have hlt : fatOffset straddleVolume c < 2 ^ 32 := Nat.mod_lt _ (by decide)
    have hsecond : (1 + fatOffset straddleVolume c / 512 + 1) % 2 ^ 32 = 1 :=
      beq_iff_eq.1 h.second
    omega
  have hstray : ∀ left c rest,
      ¬ ReadStrays straddleVolume (straddleMedium.failing (· == 1)) left c rest := by
    intro left c rest h
    induction h with
    | here _ _ _ h => exact hhalf _ h
    | next _ _ _ _ _ ih => exact ih
  obtain ⟨file, -, -, -, hprefix⟩ :=
    fat32_read_failing_iff (by decide) (sparseMedium_good _) straddle_read (· == 1)
  refine hprefix ?_ (hstray _ _)
  rintro ⟨_ | c, -, hlist⟩
  · exact hlist
  · obtain ⟨k, l, -, -, h⟩ := hlist
    exact hhalf _ h

/-- With the second FAT sector unreadable the read takes the byte behind the volume for the last
byte of the file. -/
theorem halfRead_foreign :
    (fat32Mount straddlePartition).run straddleMedium.read = some (some straddleVolume) ∧
    (fat32ReadFile 0 straddleVolume [65] 1024).run straddleMedium.read
      = some (some (List.replicate 513 0)) ∧
    (fat32ReadFile 0 straddleVolume [65] 1024).run (straddleMedium.failing (· == 2)).read
      = some (some (List.replicate 512 0 ++ [88])) ∧
    ¬ List.replicate 512 0 ++ [88] <+: List.replicate 513 (0 : UInt8) :=
  ⟨by decide +kernel, straddle_read, by decide +kernel, by decide +kernel⟩

end Sample

end Fat

end PeanutKernel
