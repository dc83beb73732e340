import PeanutKernel.Exfat
import PeanutKernel.Proofs.Cluster

/-!
# exFAT directories and files on a medium

What `list_cluster` makes of a directory of one cluster (`listCluster_dir`): slots it skips, then
entry sets, then the end of the directory. `exfat_read_file` looks its path up in such directories
and returns what the chain of the file stores.
-/

namespace PeanutKernel

namespace Exfat

variable {v : ExfatVolume} {m : Medium}

section Clusters

theorem nextCluster_isSome (v : ExfatVolume) (ans : Transfer → Option Buf) (c : ℕ) :
    ((nextCluster v c).run ans).isSome := by
  have hone : ∀ lba, (blockRead lba 1).run ans = some (ans ⟨lba, 1⟩) := fun lba => rfl
  simp only [nextCluster, Query.run_bind, hone, Option.bind_some]
  split <;> rfl

theorem clusters_sound (hpos : 0 < v.sectorsPerCluster) : v.clusters.Sound :=
  ⟨nextCluster_isSome v, hpos⟩

theorem exfatMount_run (p : Partition) {s : Buf} (h : m.read ⟨p.firstLba, 1⟩ = some s) :
    (exfatMount p).run m.read = some (if hasSignature s then mountBoot p s else none) := by
  have hread : (blockRead p.firstLba 1).run m.read = some (some s) := congrArg some h
  simp only [exfatMount, exfatProbeBoot, Query.run_bind, hread, Option.bind_some, Query.run_pure]
  split_ifs with hsig hsig'
  · simp [hsig] at hsig'
  · rfl
  · simp only [Query.run_bind, hread, Option.bind_some]
    rfl
  · simp_all

theorem mountBoot_some {p : Partition} {s : Buf} (h : mountBoot p s = some v) :
    v.fatStartLba = (p.firstLba + le32 s 80) % 2 ^ 32 ∧
      v.clusterHeapLba = (p.firstLba + le32 s 88) % 2 ^ 32 ∧ v.rootCluster = le32 s 96 ∧
      v.clusterCount = le32 s 92 ∧ v.sectorsPerCluster = 2 ^ (s 109).toNat := by
  simp only [mountBoot] at h
  split_ifs at h
  cases h
  exact ⟨rfl, rfl, rfl, rfl, rfl⟩

theorem exfatMount_sectorsPerCluster {p : Partition}
    (h : (exfatMount p).run m.read = some (some v)) : 0 < v.sectorsPerCluster := by
  rcases hread : m.read ⟨p.firstLba, 1⟩ with _ | s
  · have hnone : (blockRead p.firstLba 1).run m.read = some none := congrArg some hread
    simp [exfatMount, exfatProbeBoot, Query.run_bind, hnone] at h
  · rw [exfatMount_run p hread] at h
    split_ifs at h
    · obtain ⟨-, -, -, -, hspc⟩ := mountBoot_some (Option.some.inj h)
      rw [hspc]
      exact Nat.two_pow_pos _
    · simp at h

theorem enters_iff {c : ℕ} : v.clusters.enters c = true ↔ 2 ≤ c ∧ c < exfatEoc :=
  decide_eq_true_iff

theorem usable_iff {c : ℕ} :
    v.clusters.Usable c ↔ (2 ≤ c ∧ c < exfatEoc) ∧ clusterFirstLba v c ≠ 0 := by
  unfold ClusterMap.Usable
  rw [enters_iff]
  simp only [ExfatVolume.clusters, and_congr_right_iff]
  intro _
  split_ifs with h <;> simp [h]

end Clusters

section Directory

variable {buf : Buf} {bytes : ℕ}

/-- A directory cluster: `p` slots that are skipped, the entry sets of `entries`, three slots each,
and an end mark if there is room for one. -/
structure DirHolds (buf : Buf) (bytes p : ℕ) (entries : List ExfatDirEntry) : Prop where
  skip : ∀ i < p, buf (32 * i) ≠ 0 ∧ buf (32 * i) ≠ entryFile
  file : ∀ i < entries.length, buf (32 * p + 96 * i) = entryFile
  secondary : ∀ i < entries.length, buf (32 * p + 96 * i + 1) = 2
  parse : ∀ i (h : i < entries.length),
    parseEntrySet buf bytes (32 * p + 96 * i) = some entries[i]
  fits : 32 * p + 96 * entries.length ≤ bytes
  stop : 32 * p + 96 * entries.length < bytes → buf (32 * p + 96 * entries.length) = 0

variable {maxEntries : ℕ} {es : List ExfatDirEntry}

theorem scanEntries_skip {n off : ℕ} (hoff : off < bytes) (hes : es.length < maxEntries)
    (h0 : buf off ≠ 0) (hfile : buf off ≠ entryFile) :
    scanEntries buf bytes maxEntries (n + 1) off es
      = scanEntries buf bytes maxEntries n (off + 32) es := by
  rw [scanEntries, if_pos ⟨hoff, hes⟩, if_neg h0]
  split_ifs <;> rfl

theorem scanEntries_set {n off : ℕ} {e : ExfatDirEntry} (hoff : off < bytes)
    (hes : es.length < maxEntries) (hfile : buf off = entryFile) (hsec : buf (off + 1) = 2)
    (hparse : parseEntrySet buf bytes off = some e) :
    scanEntries buf bytes maxEntries (n + 1) off es
      = scanEntries buf bytes maxEntries n (off + 96) (es ++ [e]) := by
  rw [scanEntries, if_pos ⟨hoff, hes⟩, hfile, if_neg (by decide), if_neg (by decide),
    if_neg (by simp), hparse, hsec]
  rfl

theorem scanEntries_skips {n : ℕ} (hes : es.length < maxEntries) (k : ℕ) :
    ∀ p, 32 * (p + k) ≤ bytes → (∀ i < p + k, buf (32 * i) ≠ 0 ∧ buf (32 * i) ≠ entryFile) →
      scanEntries buf bytes maxEntries (n + k) (32 * p) es
        = scanEntries buf bytes maxEntries n (32 * (p + k)) es := by
  induction k with
  | zero => exact fun _ _ _ => rfl
  | succ k ih =>
    intro p hfit hskip
    obtain ⟨h0, hfile⟩ := hskip p (by omega)
    rw [← Nat.add_assoc, scanEntries_skip (by omega) hes h0 hfile,
      show 32 * p + 32 = 32 * (p + 1) by omega, show p + (k + 1) = p + 1 + k by omega]
    exact ih (p + 1) (by omega) fun i hi => hskip i (by omega)

variable {entries : List ExfatDirEntry}

/-- The scan of the sets from number `i` on. -/
theorem DirHolds.scanSets {p : ℕ} (h : DirHolds buf bytes p entries)
    (hmax : entries.length < maxEntries) (k : ℕ) :
    ∀ i n, i + k = entries.length → k ≤ n →
      (32 * p + 96 * entries.length < bytes → k < n) →
      scanEntries buf bytes maxEntries n (32 * p + 96 * i) (entries.take i)
        = (entries, decide (32 * p + 96 * entries.length < bytes)) := by
  have hfits := h.fits
  induction k with
  | zero =>
    intro i n hi _ hn
    obtain rfl : i = entries.length := by omega
    rw [List.take_length]
    by_cases hroom : 32 * p + 96 * entries.length < bytes
    · obtain ⟨n, rfl⟩ : ∃ n', n = n' + 1 := ⟨n - 1, by have := hn hroom; omega⟩
      rw [scanEntries, if_pos ⟨hroom, hmax⟩, if_pos (h.stop hroom), decide_eq_true hroom]
    · rw [decide_eq_false hroom]
      cases n with
      | zero => rfl
      | succ n => rw [scanEntries, if_neg fun hc => hroom hc.1]
  | succ k ih =>
    intro i n hi hle hn
    have hlt : i < entries.length := by omega
    obtain ⟨n, rfl⟩ : ∃ n', n = n' + 1 := ⟨n - 1, by omega⟩
    rw [scanEntries_set (by omega) (by rw [List.length_take]; omega) (h.file i hlt)
      (h.secondary i hlt) (h.parse i hlt), List.take_append_getElem hlt,
      show 32 * p + 96 * i + 96 = 32 * p + 96 * (i + 1) by omega]
    exact ih (i + 1) n (by omega) (by omega) fun hroom => by have := hn hroom; omega

theorem DirHolds.scan {p : ℕ} (h : DirHolds buf bytes p entries)
    (hmax : entries.length < maxEntries) (hb : 32 ∣ bytes) :
    scanEntries buf bytes maxEntries (bytes / 32) 0 []
      = (entries, decide (32 * p + 96 * entries.length < bytes)) := by
  have hfits := h.fits
  obtain ⟨n, hn⟩ : ∃ n, bytes / 32 = n + p := ⟨bytes / 32 - p, by omega⟩
  have hsets := h.scanSets hmax entries.length 0 n (by omega) (by omega) (by omega)
  have hskips : scanEntries buf bytes maxEntries (n + p) (32 * 0) []
      = scanEntries buf bytes maxEntries n (32 * (0 + p)) [] :=
    scanEntries_skips (Nat.zero_lt_of_lt hmax) p 0 (by omega) fun i hi => h.skip i (by omega)
  rw [Nat.mul_zero, Nat.zero_add] at hskips
  rw [hn, hskips]
  exact hsets

theorem scanEntries_extends (buf : Buf) (bytes maxEntries : ℕ) :
    ∀ (n off : ℕ) (es : List ExfatDirEntry), ∃ more,
      (scanEntries buf bytes maxEntries n off es).1 = es ++ more
  | 0, _, es => ⟨[], (List.append_nil es).symm⟩
  | n + 1, off, es => by
    rw [scanEntries]
    split_ifs
    · exact ⟨[], (List.append_nil es).symm⟩
    · exact scanEntries_extends buf bytes maxEntries n _ es
    · exact scanEntries_extends buf bytes maxEntries n _ es
    · split
      · exact scanEntries_extends buf bytes maxEntries n _ es
      · rename_i e _
        obtain ⟨more, hmore⟩ := scanEntries_extends buf bytes maxEntries n
          (off + 32 * ((buf (off + 1)).toNat + 1)) (es ++ [e])
        exact ⟨[e] ++ more, by rw [hmore, List.append_assoc]⟩
    · exact ⟨[], (List.append_nil es).symm⟩

/-- Following the FAT from `c` leads through `rest` and then out of the volume. -/
def Ends (v : ExfatVolume) (m : Medium) : ℕ → List ℕ → Prop
  | c, [] => v.clusters.enters (v.clusters.nextAt m c) = false
  | c, d :: rest => v.clusters.nextAt m c = d ∧ Ends v m d rest

theorem readCluster_returns (v : ExfatVolume) (ans : Transfer → Option Buf) (c : ℕ) :
    ∃ read, (readCluster v c).run ans = some read := by
  unfold readCluster ClusterMap.readCluster
  split
  · exact ⟨_, rfl⟩
  · exact blockRead_returns ..

theorem listCluster_out {c fuel : ℕ} (h : v.clusters.enters c = false) :
    (listCluster v maxEntries (fuel + 1) c es).run m.read = some es := by
  rw [listCluster, if_neg]
  · rfl
  · rintro ⟨h2, heoc, -⟩
    rw [enters_iff.2 ⟨h2, heoc⟩] at h
    cases h

/-- Listing ends at a cluster that is not on the volume. -/
theorem listCluster_lba_none {c fuel : ℕ} (h : v.clusters.lba c = none) :
    (listCluster v maxEntries (fuel + 1) c es).run m.read = some es := by
  have hread : (readCluster v c).run m.read = some none := by
    simp [readCluster, ClusterMap.readCluster, h]
  rw [listCluster]
  split_ifs
  · simp only [Query.run_bind, hread, Option.bind_some]
    rfl
  · rfl

/-- One round of listing keeps the entries found so far, and ends or goes on with the next
cluster. -/
theorem listCluster_step (hpos : 0 < v.sectorsPerCluster) (maxEntries fuel c : ℕ)
    (es : List ExfatDirEntry) :
    ∃ more, (listCluster v maxEntries (fuel + 1) c es).run m.read = some (es ++ more) ∨
      (listCluster v maxEntries (fuel + 1) c es).run m.read
        = (listCluster v maxEntries fuel (v.clusters.nextAt m c) (es ++ more)).run m.read := by
  obtain ⟨read, hread⟩ := readCluster_returns v m.read c
  have hnext : (nextCluster v c).run m.read = some (v.clusters.nextAt m c) :=
    (clusters_sound hpos).next_run m c
  rw [listCluster]
  split_ifs
  · simp only [Query.run_bind, hread, Option.bind_some]
    obtain _ | buf := read
    · exact ⟨[], .inl (by rw [List.append_nil]; rfl)⟩
    · obtain ⟨more, hmore⟩ := scanEntries_extends buf (v.sectorsPerCluster * 512) maxEntries
        (v.sectorsPerCluster * 512 / 32) 0 es
      refine ⟨more, ?_⟩
      simp only [hmore]
      split_ifs
      · exact .inl rfl
      · exact .inr (by simp only [Query.run_bind, hnext, Option.bind_some])
  · exact ⟨[], .inl (by rw [List.append_nil]; rfl)⟩

/-- Whatever the clusters of a chain hold, listing it ends and keeps the entries found so far. -/
theorem listCluster_extends (hpos : 0 < v.sectorsPerCluster) :
    ∀ (rest : List ℕ) {c fuel : ℕ} (es : List ExfatDirEntry), Ends v m c rest →
      rest.length + 2 ≤ fuel →
      ∃ more, (listCluster v maxEntries fuel c es).run m.read = some (es ++ more) := by
  intro rest
  induction rest with
  | nil =>
    intro c fuel es hends hfuel
    obtain ⟨fuel, rfl⟩ : ∃ n, fuel = n + 1 + 1 :=
      ⟨fuel - 2, by rw [List.length_nil] at hfuel; omega⟩
    obtain ⟨more, hmore | hmore⟩ := listCluster_step hpos maxEntries (fuel + 1) c es
    · exact ⟨more, hmore⟩
    · exact ⟨more, hmore.trans (listCluster_out hends)⟩
  | cons d rest ih =>
    intro c fuel es hends hfuel
    rw [List.length_cons] at hfuel
    obtain ⟨fuel, rfl⟩ : ∃ n, fuel = n + 1 := ⟨fuel - 1, by omega⟩
    obtain ⟨more, hmore | hmore⟩ := listCluster_step hpos maxEntries fuel c es
    · exact ⟨more, hmore⟩
    · have hfuel' : rest.length + 2 ≤ fuel := by omega
      obtain ⟨more', hmore'⟩ := ih (es ++ more) hends.2 hfuel'
      rw [hends.1] at hmore
      exact ⟨more ++ more', by rw [hmore, hmore', List.append_assoc]⟩

/-- Listing a directory whose first cluster holds `entries`. -/
theorem listCluster_dir (hm : m.Good) (hpos : 0 < v.sectorsPerCluster) {c p fuel : ℕ}
    {rest : List ℕ} (hc : v.clusters.Usable c)
    (hdir : DirHolds (v.clusters.clusterBuf m c) (v.sectorsPerCluster * 512) p entries)
    (hmax : entries.length < maxEntries) (hends : Ends v m c rest)
    (hfuel : rest.length + 2 ≤ fuel) :
    ∃ more, (listCluster v maxEntries fuel c []).run m.read = some (entries ++ more) := by
  have hV := clusters_sound hpos
  have hread : (readCluster v c).run m.read = some (some (v.clusters.clusterBuf m c)) :=
    ClusterMap.readCluster_run hV hm hc.2
  have hnext : (nextCluster v c).run m.read = some (v.clusters.nextAt m c) := hV.next_run m c
  have hscan := hdir.scan hmax (by omega)
  have henter := enters_iff.1 hc.1
  obtain ⟨fuel, rfl⟩ : ∃ n, fuel = n + 1 := ⟨fuel - 1, by omega⟩
  rw [listCluster, if_pos ⟨henter.1, henter.2, Nat.zero_lt_of_lt hmax⟩]
  simp only [Query.run_bind, hread, Option.bind_some, hscan]
  split_ifs
  · exact ⟨[], by rw [List.append_nil]; rfl⟩
  · simp only [Query.run_bind, hnext, Option.bind_some]
    obtain _ | ⟨d, rest⟩ := rest
    · rw [List.length_nil] at hfuel
      obtain ⟨fuel, rfl⟩ : ∃ n, fuel = n + 1 := ⟨fuel - 1, by omega⟩
      exact ⟨[], by rw [listCluster_out hends, List.append_nil]⟩
    · rw [List.length_cons] at hfuel
      rw [hends.1]
      exact listCluster_extends hpos rest entries hends.2 (by omega)

end Directory

section Lookup

variable {fuel dir : ℕ} {entries more : List ExfatDirEntry} {name : List UInt8}
  {e : ExfatDirEntry}

theorem findInClusterChain_run
    (hlist : (listCluster v 64 fuel dir []).run m.read = some (entries ++ more))
    (hfind : entries.find? (fun e => streqCi e.name name) = some e) :
    (findInClusterChain fuel v dir name).run m.read = some (some e) := by
  simp only [findInClusterChain, Query.run_bind, hlist, Option.bind_some, Query.run_pure,
    List.find?_append, hfind, Option.some_or]

/-- The last component of a path. -/
theorem findComponents_last (hname : name.length < maxName)
    (hfind : (findInClusterChain fuel v dir name).run m.read = some (some e)) :
    (findComponents fuel v dir [name]).run m.read = some (some e) := by
  rw [findComponents, if_neg (by omega)]
  simp only [Query.run_bind, hfind, Option.bind_some]
  rfl

/-- A component before others is a directory. -/
theorem findComponents_dir (hname : name.length < maxName)
    (hfind : (findInClusterChain fuel v dir name).run m.read = some (some e))
    (hdir : e.attributes &&& attrDirectory ≠ 0) {rest : List (List UInt8)} (hrest : rest ≠ []) :
    (findComponents fuel v dir (name :: rest)).run m.read
      = (findComponents fuel v e.firstCluster rest).run m.read := by
  rw [findComponents, if_neg (by omega)]
  simp only [Query.run_bind, hfind, Option.bind_some, if_neg hrest, if_neg hdir]

/-- A file whose chain reads as `data`. -/
theorem exfatReadFile_run {path data : List UInt8} {bufferSize : ℕ}
    (hfind : (exfatFindRoot fuel v path).run m.read = some (some e))
    (hfile : e.attributes &&& attrDirectory = 0) (hsize : e.size = data.length)
    (hread : (v.clusters.readChain data.length data.length e.firstCluster).run m.read
      = some (some data)) (hbuf : data.length ≤ bufferSize) :
    (exfatReadFile fuel v path bufferSize).run m.read = some (some data) := by
  simp only [exfatReadFile, Query.run_bind, hfind, Option.bind_some]
  rw [if_neg (not_not.2 hfile), hsize, if_neg (by omega)]
  simp [Query.run_bind, hread]

theorem exfatReadFile_some {path data : List UInt8} {bufferSize : ℕ}
    (h : (exfatReadFile fuel v path bufferSize).run m.read = some (some data)) :
    ∃ e, (exfatFindRoot fuel v path).run m.read = some (some e) ∧ data.length = e.size ∧
      (v.clusters.readChain e.size e.size e.firstCluster).run m.read = some (some data) := by
  simp only [exfatReadFile, Query.run_bind, Option.bind_eq_some_iff] at h
  obtain ⟨_ | e, hfind, h⟩ := h
  · cases h
  · refine ⟨e, hfind, ?_⟩
    simp only at h
    split_ifs at h
    · cases h
    · cases h
    · simp only [Query.run_bind, Option.bind_eq_some_iff, Query.run_pure, Option.some_inj,
        Option.filter_eq_some_iff, decide_eq_true_eq] at h
      obtain ⟨l, hread, rfl, hlen⟩ := h
      exact ⟨hlen, hread⟩

end Lookup

end Exfat

end PeanutKernel
