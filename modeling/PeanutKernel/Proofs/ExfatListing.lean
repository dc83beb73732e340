import PeanutKernel.Proofs.Directory
import PeanutKernel.Proofs.Exfat

/-!
# What an exFAT directory listing shows

`list_cluster` looks at one cluster at a time: an entry set that does not end in the cluster it
starts in is rejected, and its slots are passed over one by one. So of a directory of entry sets
and single entries it lists the sets that lie inside one cluster, in order (`listCluster_stored`).
-/

namespace PeanutKernel

namespace Exfat

section Sets

variable {buf buf' : Buf} {bytes bytes' off off' : ℕ}

/-- The entry of the set at `off`. -/
def entryOf (buf : Buf) (bytes off : ℕ) : ExfatDirEntry where
  name := cstr (((nameLoop buf bytes off (buf (off + 32 + 3)).toNat
    ((buf (off + 1)).toNat - 1) 2 []).take (maxName - 1)).map nameByte)
  attributes := buf (off + 4)
  firstCluster := le32 buf (off + 32 + 20)
  size := le64 buf (off + 32 + 24)

/-- An entry set starts at `off` and ends before `bytes`. -/
structure SetAt (buf : Buf) (bytes off : ℕ) : Prop where
  file : buf off = entryFile
  pos : 1 ≤ (buf (off + 1)).toNat
  fits : off + ((buf (off + 1)).toNat + 1) * 32 ≤ bytes
  stream : buf (off + 32) = entryStream

theorem parseEntrySet_of_setAt (h : SetAt buf bytes off) :
    parseEntrySet buf bytes off = some (entryOf buf bytes off) := by
  have hpos := h.pos
  have hfits := h.fits
  rw [parseEntrySet, if_neg (by omega), if_neg (not_not.2 h.file)]
  simp only
  rw [if_neg (by omega), if_neg (not_not.2 h.stream)]
  rfl

theorem setAt_of_parseEntrySet {e : ExfatDirEntry} (h : parseEntrySet buf bytes off = some e) :
    SetAt buf bytes off := by
  unfold parseEntrySet at h
  split_ifs at h with h1 h2
  simp only at h
  split_ifs at h with h3 h4
  push Not at h2 h3 h4
  exact ⟨h2, h3.1, h3.2, h4⟩

theorem parseEntrySet_eq_none (h : ¬ SetAt buf bytes off) : parseEntrySet buf bytes off = none := by
  rcases hparse : parseEntrySet buf bytes off with _ | e
  · rfl
  · exact absurd (setAt_of_parseEntrySet hparse) h

/-- The name loop over entries that are there reads those entries alone. -/
theorem nameLoop_congr (nameLen n : ℕ) :
    ∀ (si : ℕ) (nameU : List ℕ),
      (∀ j < 32 * (si + n), buf (off + j) = buf' (off' + j)) →
      off + 32 * (si + n) ≤ bytes → off' + 32 * (si + n) ≤ bytes' →
      nameLoop buf bytes off nameLen n si nameU = nameLoop buf' bytes' off' nameLen n si nameU := by
  induction n with
  | zero => exact fun _ _ _ _ _ => rfl
  | succ n ih =>
    intro si nameU h hfit hfit'
    have hunit : ∀ k < 15, le16 buf (off + 32 * si + 2 + k * 2)
        = le16 buf' (off' + 32 * si + 2 + k * 2) := by
      intro k hk
      have h1 := h (32 * si + 2 + k * 2) (by omega)
      have h2 := h (32 * si + 2 + k * 2 + 1) (by omega)
      simp only [← Nat.add_assoc] at h1 h2
      rw [le16, le16, h1, h2]
    have htype : buf (off + 32 * si) = buf' (off' + 32 * si) := h (32 * si) (by omega)
    have hnext : ∀ nameU, nameLoop buf bytes off nameLen n (si + 1) nameU
        = nameLoop buf' bytes' off' nameLen n (si + 1) nameU := fun nameU =>
      ih (si + 1) nameU (fun j hj => h j (by omega)) (by omega) (by omega)
    have hunits : ∀ room, (List.range (min 15 room)).map
          (fun k => le16 buf (off + 32 * si + 2 + k * 2))
        = (List.range (min 15 room)).map (fun k => le16 buf' (off' + 32 * si + 2 + k * 2)) := by
      intro room
      refine List.map_congr_left fun k hk => hunit k ?_
      have := List.mem_range.1 hk
      omega
    rw [nameLoop, nameLoop]
    by_cases hgo : nameU.length < nameLen ∧ nameU.length < maxName
    · rw [if_pos hgo, if_pos hgo]
      simp only
      rw [if_neg (show ¬ bytes < off + 32 * si + 32 by omega),
        if_neg (show ¬ bytes' < off' + 32 * si + 32 by omega), htype, hunits, hnext, hnext]
    · rw [if_neg hgo, if_neg hgo]

/-- A set is read off its own slots. -/
theorem SetAt.congr (h : SetAt buf bytes off)
    (heq : ∀ j < 32 * ((buf (off + 1)).toNat + 1), buf (off + j) = buf' (off' + j))
    (hfit : off' + ((buf (off + 1)).toNat + 1) * 32 ≤ bytes') :
    SetAt buf' bytes' off' ∧ entryOf buf bytes off = entryOf buf' bytes' off' := by
  have hpos := h.pos
  have hfits := h.fits
  have hcount : buf (off + 1) = buf' (off' + 1) := heq 1 (by omega)
  have hat : ∀ k < 64, buf (off + k) = buf' (off' + k) := fun k hk => heq k (by omega)
  refine ⟨⟨?_, ?_, ?_, ?_⟩, ?_⟩
  · exact (hat 0 (by omega)).symm.trans h.file
  · rwa [← hcount]
  · rwa [← hcount]
  · exact (hat 32 (by omega)).symm.trans h.stream
  · have hname : nameLoop buf bytes off (buf (off + 32 + 3)).toNat ((buf (off + 1)).toNat - 1) 2 []
        = nameLoop buf' bytes' off' (buf' (off' + 32 + 3)).toNat
          ((buf' (off' + 1)).toNat - 1) 2 [] := by
      rw [← hcount, ← hat 35 (by omega)]
      exact nameLoop_congr _ _ 2 [] (fun j hj => heq j (by omega)) (by omega) (by omega)
    have hcluster : le32 buf (off + 32 + 20) = le32 buf' (off' + 32 + 20) := by
      have h0 := hat 52 (by omega)
      have h1 := hat 53 (by omega)
      have h2 := hat 54 (by omega)
      have h3 := hat 55 (by omega)
      simp only [le32, Nat.add_assoc, Nat.reduceAdd, h0, h1, h2, h3]
    have hsize : le64 buf (off + 32 + 24) = le64 buf' (off' + 32 + 24) := by
      have h0 := hat 56 (by omega)
      have h1 := hat 57 (by omega)
      have h2 := hat 58 (by omega)
      have h3 := hat 59 (by omega)
      have h4 := hat 60 (by omega)
      have h5 := hat 61 (by omega)
      have h6 := hat 62 (by omega)
      have h7 := hat 63 (by omega)
      simp only [le64, le32, Nat.add_assoc, Nat.reduceAdd, h0, h1, h2, h3, h4, h5, h6, h7]
    rw [entryOf, entryOf, hname, hcluster, hsize, hat 4 (by omega)]

end Sets

section Scan

variable {buf : Buf} {bytes : ℕ}

/-- What the scan of a cluster finds in its `n` slots from slot `i` on, the first `skip` of them
being taken by a set, and whether it meets the end mark. -/
def scanSets (buf : Buf) (bytes : ℕ) : ℕ → ℕ → ℕ → List ExfatDirEntry × Bool
  | 0, _, _ => ([], false)
  | n + 1, skip + 1, i => scanSets buf bytes n skip (i + 1)
  | n + 1, 0, i =>
    if buf (32 * i) = 0 then ([], true)
    else match parseEntrySet buf bytes (32 * i) with
      | none => scanSets buf bytes n 0 (i + 1)
      | some e =>
        let rest := scanSets buf bytes n (buf (32 * i + 1)).toNat (i + 1)
        (e :: rest.1, rest.2)

theorem scanSets_end {i : ℕ} (h : buf (32 * i) = 0) (n : ℕ) :
    scanSets buf bytes (n + 1) 0 i = ([], true) := by
  rw [scanSets, if_pos h]

theorem scanSets_none {i : ℕ} (h0 : buf (32 * i) ≠ 0)
    (h : parseEntrySet buf bytes (32 * i) = none) (n : ℕ) :
    scanSets buf bytes (n + 1) 0 i = scanSets buf bytes n 0 (i + 1) := by
  rw [scanSets, if_neg h0, h]

theorem scanSets_skip (buf : Buf) (bytes : ℕ) :
    ∀ skip n i : ℕ, skip ≤ n →
      scanSets buf bytes n skip i = scanSets buf bytes (n - skip) 0 (i + skip)
  | 0, _, _, _ => rfl
  | skip + 1, n, i, h => by
    obtain ⟨n, rfl⟩ : ∃ k, n = k + 1 := ⟨n - 1, by omega⟩
    rw [scanSets, scanSets_skip buf bytes skip n (i + 1) (by omega), Nat.add_sub_add_right,
      Nat.add_right_comm, Nat.add_assoc]

/-- A set takes its slots. -/
theorem scanSets_set {i n : ℕ} (h : SetAt buf bytes (32 * i))
    (hn : (buf (32 * i + 1)).toNat ≤ n) :
    scanSets buf bytes (n + 1) 0 i
      = (entryOf buf bytes (32 * i)
          :: (scanSets buf bytes (n - (buf (32 * i + 1)).toNat) 0
            (i + 1 + (buf (32 * i + 1)).toNat)).1,
        (scanSets buf bytes (n - (buf (32 * i + 1)).toNat) 0
          (i + 1 + (buf (32 * i + 1)).toNat)).2) := by
  have h0 : buf (32 * i) ≠ 0 := by
    rw [h.file]
    decide
  rw [scanSets, if_neg h0, parseEntrySet_of_setAt h]
  simp only
  rw [scanSets_skip buf bytes _ n (i + 1) hn]

/-- The slot is neither the end mark nor the start of a set. -/
def Skipped (raw : Buf) : Prop := raw 0 ≠ 0 ∧ raw 0 ≠ entryFile

instance (raw : Buf) : Decidable (Skipped raw) := inferInstanceAs (Decidable (_ ∧ _))

theorem scanSets_skipped (bytes n : ℕ) :
    ∀ k i : ℕ, (∀ r < k, Skipped (bufSlot buf (i + r))) →
      scanSets buf bytes (k + n) 0 i = scanSets buf bytes n 0 (i + k)
  | 0, i, _ => by rw [Nat.zero_add, Nat.add_zero]
  | k + 1, i, h => by
    obtain ⟨h0, hfile⟩ : buf (32 * i) ≠ 0 ∧ buf (32 * i) ≠ entryFile := h 0 (Nat.succ_pos k)
    have hnone : parseEntrySet buf bytes (32 * i) = none :=
      parseEntrySet_eq_none fun hset => hfile hset.file
    rw [Nat.add_right_comm, scanSets_none h0 hnone,
      scanSets_skipped bytes n k (i + 1) fun r hr => ?_,
      Nat.add_assoc, Nat.add_comm 1 k]
    rw [Nat.add_assoc, Nat.add_comm 1 r]
    exact h (r + 1) (by omega)

/-- The loop over a cluster, cut at the number of entries there is room for. -/
theorem scanEntries_run (buf : Buf) (maxEntries n : ℕ) :
    ∀ (i rounds : ℕ) (es : List ExfatDirEntry), bytes = 32 * (i + n) → n ≤ rounds →
      es.length ≤ maxEntries →
      scanEntries buf bytes maxEntries rounds (32 * i) es
        = ((es ++ (scanSets buf bytes n 0 i).1).take maxEntries,
          (scanSets buf bytes n 0 i).2
            && decide (es.length + (scanSets buf bytes n 0 i).1.length < maxEntries)) := by
  induction n using Nat.strong_induction_on with
  | _ n ih =>
    intro i rounds es hbytes hrounds hlen
    rcases n with _ | n
    · have hstop : scanEntries buf bytes maxEntries rounds (32 * i) es = (es, false) := by
        rcases rounds with _ | rounds
        · rfl
        · rw [scanEntries, if_neg (by omega)]
      rw [hstop, scanSets, List.append_nil, List.take_of_length_le hlen]
      rfl
    · obtain ⟨rounds, rfl⟩ : ∃ k, rounds = k + 1 := ⟨rounds - 1, by omega⟩
      rcases hlen.lt_or_eq with hroom | hfull
      · have hgo : 32 * i < bytes ∧ es.length < maxEntries := ⟨by omega, hroom⟩
        by_cases h0 : buf (32 * i) = 0
        · rw [scanEntries, if_pos hgo, if_pos h0, scanSets_end h0, List.append_nil,
            List.take_of_length_le hlen]
          simp [hroom]
        · by_cases hset : SetAt buf bytes (32 * i)
          · have hfits := hset.fits
            rw [scanSets_set hset (by omega), scanEntries, if_pos hgo, hset.file,
              if_neg (by decide), if_neg (by decide), if_neg (by simp),
              parseEntrySet_of_setAt hset]
            simp only
            rw [show 32 * i + 32 * ((buf (32 * i + 1)).toNat + 1)
                = 32 * (i + 1 + (buf (32 * i + 1)).toNat) by omega,
              ih (n - (buf (32 * i + 1)).toNat) (by omega) _ _ _ (by omega) (by omega)
                (by rw [List.length_append]; exact hroom)]
            rw [List.append_assoc, List.length_append, List.length_singleton,
              List.singleton_append, List.length_cons, Nat.add_assoc es.length 1,
              Nat.add_comm 1 (List.length _)]
          · have hnone := parseEntrySet_eq_none hset
            have hnext : scanEntries buf bytes maxEntries (rounds + 1) (32 * i) es
                = scanEntries buf bytes maxEntries rounds (32 * (i + 1)) es := by
              by_cases hfile : buf (32 * i) = entryFile
              · rw [scanEntries, if_pos hgo, if_neg h0, hfile, if_neg (by decide),
                  if_neg (by simp), hnone]
                rfl
              · exact scanEntries_skip hgo.1 hroom h0 hfile
            rw [hnext, scanSets_none h0 hnone, ih n (by omega) _ _ _ (by omega) (by omega) hlen]
      · rw [scanEntries, if_neg (by omega), ← hfull, List.take_left]
        simp

end Scan

section Chain

variable {v : ExfatVolume} {m : Medium}

/-- What the listing sees in the buffer of a cluster. -/
def clusterView (v : ExfatVolume) (buf : Buf) : List ExfatDirEntry × Bool :=
  scanSets buf (v.sectorsPerCluster * 512) v.clusters.slotsPerCluster 0 0

/-- A directory chain as the listing follows it. -/
def dirLinks (v : ExfatVolume) (m : Medium) : Links ℕ ExfatDirEntry :=
  v.clusters.links m (clusterView v)

theorem nextCluster_run (v : ExfatVolume) (m : Medium) (c : ℕ) :
    (nextCluster v c).run m.read = some (v.clusters.nextAt m c) :=
  v.clusters.run_next (nextCluster_isSome v m.read c)

/-- The loop over a directory chain collects what its clusters show. -/
theorem listCluster_run (v : ExfatVolume) (m : Medium) (maxEntries fuel : ℕ) :
    ∀ (c : ℕ) (es : List ExfatDirEntry), es.length ≤ maxEntries →
      (listCluster v maxEntries fuel c es).run m.read
        = (dirLinks v m).collect maxEntries fuel c es := by
  have hbytes : v.sectorsPerCluster * 512 = 32 * (0 + v.clusters.slotsPerCluster) := by
    change v.sectorsPerCluster * 512 = 32 * (0 + v.sectorsPerCluster * 16)
    omega
  have hrounds : v.clusters.slotsPerCluster ≤ v.sectorsPerCluster * 512 / 32 := by omega
  induction fuel with
  | zero => exact fun _ _ _ => rfl
  | succ fuel ih =>
    intro c es hlen
    rw [listCluster, Links.collect]
    have henters : (dirLinks v m).enters c = true ↔ 2 ≤ c ∧ c < exfatEoc := enters_iff (v := v)
    by_cases hgo : 2 ≤ c ∧ c < exfatEoc ∧ es.length < maxEntries
    · rw [if_pos hgo, if_pos ⟨henters.2 ⟨hgo.1, hgo.2.1⟩, hgo.2.2⟩]
      obtain ⟨read, hread⟩ := readCluster_returns v m.read c
      have hview : (dirLinks v m).view c = read.map (clusterView v) := by
        have hread' : (v.clusters.readCluster c).run m.read = some read := hread
        simp only [dirLinks, ClusterMap.links, hread', Option.getD_some]
      rw [hview]
      simp only [Query.run_bind, hread, Option.bind_some]
      obtain _ | buf := read
      · rfl
      · have hscan := scanEntries_run buf maxEntries v.clusters.slotsPerCluster 0
          (v.sectorsPerCluster * 512 / 32) es hbytes hrounds hlen
        rw [Nat.mul_zero] at hscan
        simp only [hscan, Option.map_some, clusterView, Bool.and_eq_true, decide_eq_true_eq]
        split_ifs
        · rfl
        · rw [Query.run_bind, nextCluster_run, Option.bind_some, ih _ _ (List.length_take_le _ _)]
          rfl
    · rw [if_neg hgo, if_neg fun h => hgo ⟨(henters.1 h.1).1, (henters.1 h.1).2, h.2⟩]
      rfl

end Chain

section Items

/-- A file entry set: the file entry, the stream extension, and the file name entries. -/
structure EntrySet where
  file : Buf
  stream : Buf
  names : List Buf
  file_type : file 0 = entryFile
  count : (file 1).toNat = names.length + 1
  stream_type : stream 0 = entryStream
  names_type : ∀ raw ∈ names, Skipped raw

def EntrySet.slots (s : EntrySet) : List Buf := s.file :: s.stream :: s.names

/-- The bytes of a list of slots. -/
def flat (S : List Buf) : Buf := fun a => padded S (a / 32) (a % 32)

/-- What the driver makes of a set. -/
def EntrySet.entry (s : EntrySet) : ExfatDirEntry := entryOf (flat s.slots) (32 * s.slots.length) 0

/-- A directory holds entry sets and single entries, such as the allocation bitmap, the volume
label and deleted entries. -/
inductive Item
  | single (raw : Buf) (h : Skipped raw)
  | set (s : EntrySet)

def Item.slots : Item → List Buf
  | single raw _ => [raw]
  | set s => s.slots

/-- The entries of the sets that lie inside one cluster of `n` slots, the first item standing at
slot `p`. -/
def fitting (n : ℕ) : ℕ → List Item → List ExfatDirEntry
  | _, [] => []
  | p, .single _ _ :: items => fitting n (p + 1) items
  | p, .set s :: items =>
    if p % n + s.slots.length ≤ n then s.entry :: fitting n (p + s.slots.length) items
    else fitting n (p + s.slots.length) items

/-- The sets with the slots they start at. -/
def placed : ℕ → List Item → List (ℕ × EntrySet)
  | _, [] => []
  | p, .single _ _ :: items => placed (p + 1) items
  | p, .set s :: items => (p, s) :: placed (p + s.slots.length) items

/-- The set lies inside one cluster of `n` slots. -/
def InOneCluster (n : ℕ) (q : ℕ × EntrySet) : Prop := q.1 % n + q.2.slots.length ≤ n

instance (n : ℕ) (q : ℕ × EntrySet) : Decidable (InOneCluster n q) := Nat.decLe _ _

theorem fitting_eq (n : ℕ) : ∀ (p : ℕ) (items : List Item),
    fitting n p items = ((placed p items).filter (InOneCluster n ·)).map fun q => q.2.entry
  | _, [] => rfl
  | p, .single _ _ :: items => fitting_eq n (p + 1) items
  | p, .set s :: items => by
    rw [fitting, placed, List.filter_cons, fitting_eq n (p + s.slots.length) items]
    by_cases hfit : InOneCluster n (p, s)
    · have hle : p % n + s.slots.length ≤ n := hfit
      rw [if_pos hle, if_pos (decide_eq_true hfit)]
      rfl
    · have hgt : ¬ p % n + s.slots.length ≤ n := hfit
      rw [if_neg hgt, if_neg (by simpa using hfit)]

theorem length_placed_le : ∀ (p : ℕ) (items : List Item), (placed p items).length ≤ items.length
  | _, [] => le_rfl
  | p, .single _ _ :: items => (length_placed_le (p + 1) items).trans (Nat.le_succ _)
  | p, .set s :: items => Nat.succ_le_succ (length_placed_le (p + s.slots.length) items)

theorem fitting_add (n : ℕ) :
    ∀ (p : ℕ) (items : List Item), fitting n (p + n) items = fitting n p items
  | _, [] => rfl
  | p, .single _ _ :: items => by
    rw [fitting, fitting, Nat.add_right_comm, fitting_add n (p + 1) items]
  | p, .set s :: items => by
    rw [fitting, fitting, Nat.add_right_comm, fitting_add n (p + s.slots.length) items,
      Nat.add_mod_right]

theorem EntrySet.slots_skipped (s : EntrySet) : ∀ raw ∈ s.stream :: s.names, Skipped raw := by
  intro raw hraw
  rcases List.mem_cons.1 hraw with rfl | hmem
  · rw [Skipped, s.stream_type]
    decide
  · exact s.names_type raw hmem

theorem EntrySet.setAt (s : EntrySet) : SetAt (flat s.slots) (32 * s.slots.length) 0 := by
  have hcount : (flat s.slots 1).toNat = s.names.length + 1 := s.count
  refine ⟨s.file_type, ?_, ?_, s.stream_type⟩
  · rw [Nat.zero_add, hcount]
    omega
  · rw [Nat.zero_add, hcount, slots, List.length_cons, List.length_cons]
    omega

end Items

section Stored

variable {buf : Buf} {n : ℕ} {T : List Buf}

theorem padded_drop (T : List Buf) (i r : ℕ) : padded (T.drop i) r = padded T (i + r) := by
  unfold padded
  rw [List.getD_eq_getElem?_getD, List.getD_eq_getElem?_getD, List.getElem?_drop]

variable {B : List Buf}

theorem padded_of_drop {i : ℕ} {A : List Buf} (h : T.drop i = A ++ B) {r : ℕ} (hr : r < A.length) :
    padded T (i + r) = A[r] := by
  rw [← padded_drop, h, padded, List.getD_eq_getElem?_getD, List.getElem?_append_left hr,
    List.getElem?_eq_getElem hr, Option.getD_some]

section

variable {i : ℕ} (hsame : ∀ i < n, SameSlot (bufSlot buf i) (padded T i))

include hsame

/-- A set that lies inside the cluster is found where it stands. -/
theorem setAt_of_slots {s : EntrySet} (hT : T.drop i = s.slots ++ B)
    (hfit : i + s.slots.length ≤ n) :
    SetAt buf (32 * n) (32 * i) ∧ entryOf buf (32 * n) (32 * i) = s.entry ∧
      (buf (32 * i + 1)).toNat = s.names.length + 1 := by
  have hlen : s.slots.length = s.names.length + 2 := rfl
  have hcount : (flat s.slots (0 + 1)).toNat = s.names.length + 1 := s.count
  have hbyte : ∀ j < 32 * s.slots.length, flat s.slots (0 + j) = buf (32 * i + j) := by
    intro j hj
    have hk : j / 32 < s.slots.length := by omega
    have hsame' := hsame (i + j / 32) (by omega) (j % 32) (Nat.mod_lt _ (by omega))
    rw [padded_of_drop hT hk, bufSlot, show 32 * (i + j / 32) + j % 32 = 32 * i + j by omega]
      at hsame'
    rw [hsame', Nat.zero_add, flat, padded, List.getD_eq_getElem _ _ hk]
  obtain ⟨hset, hentry⟩ : SetAt buf (32 * n) (32 * i) ∧ s.entry = entryOf buf (32 * n) (32 * i) :=
    s.setAt.congr (fun j hj => hbyte j (by omega)) (by omega)
  refine ⟨hset, hentry.symm, ?_⟩
  rw [← hbyte 1 (by omega), hcount]

theorem skipped_of_slots {A : List Buf} (hT : T.drop i = A ++ B) (hA : ∀ raw ∈ A, Skipped raw)
    {r : ℕ} (hr : r < A.length) (hn : i + r < n) : Skipped (bufSlot buf (i + r)) := by
  have h0 : bufSlot buf (i + r) 0 = A[r] 0 := by
    rw [hsame (i + r) hn 0 (by omega), padded_of_drop hT hr]
  rw [Skipped, h0]
  exact hA _ (List.getElem_mem hr)

/-- A set that does not end in the cluster is passed over slot by slot. -/
theorem scanSets_cut {s : EntrySet} (hT : T.drop i = s.slots ++ B) (hlt : i < n)
    (hcut : n < i + s.slots.length) : scanSets buf (32 * n) (n - i) 0 i = ([], false) := by
  have hslots : s.slots.length = s.names.length + 2 := rfl
  have hfirst : ∀ j < 32, buf (32 * i + j) = s.file j := by
    intro j hj
    have hpadded : padded T (i + 0) = s.file := padded_of_drop hT (Nat.succ_pos _)
    have hslot := hsame i hlt j hj
    rw [← Nat.add_zero i, hpadded] at hslot
    exact hslot
  have h0 : buf (32 * i) ≠ 0 := by
    have := hfirst 0 (by omega)
    rw [Nat.add_zero, s.file_type] at this
    rw [this]
    decide
  have hnone : parseEntrySet buf (32 * n) (32 * i) = none := by
    refine parseEntrySet_eq_none fun hset => ?_
    have := hset.fits
    rw [hfirst 1 (by omega), s.count] at this
    omega
  have hrest : T.drop (i + 1) = (s.stream :: s.names) ++ B := by
    rw [← List.drop_drop, hT]
    rfl
  rw [show n - i = n - i - 1 + 1 by omega, scanSets_none h0 hnone,
    show n - i - 1 = n - i - 1 + 0 by omega, scanSets_skipped (32 * n) 0 (n - i - 1) (i + 1),
    scanSets]
  intro r hr
  exact skipped_of_slots hsame hrest s.slots_skipped (by simp; omega) (by omega)

end

/-- What the scan of a cluster leaves of the items that start at its slot `i`: it lists all sets and
meets the end mark, or it goes on in the next cluster with slots to pass over and then items. -/
theorem scanSets_items (hsame : ∀ i < n, SameSlot (bufSlot buf i) (padded T i)) :
    ∀ (items : List Item) (i : ℕ), i ≤ n → i ≤ T.length → T.drop i = items.flatMap Item.slots →
      (T.length < n ∧ scanSets buf (32 * n) (n - i) 0 i = (fitting n i items, true)) ∨
      (n ≤ T.length ∧ ∃ found R items', scanSets buf (32 * n) (n - i) 0 i = (found, false) ∧
        (∀ raw ∈ R, Skipped raw) ∧ T.drop n = R ++ items'.flatMap Item.slots ∧
        fitting n i items = found ++ fitting n R.length items') := by
  have hboundary : ∀ items : List Item, n ≤ T.length → T.drop n = items.flatMap Item.slots →
      ∃ found R items', scanSets buf (32 * n) (n - n) 0 n = (found, false) ∧
        (∀ raw ∈ R, Skipped raw) ∧ T.drop n = R ++ items'.flatMap Item.slots ∧
        fitting n n items = found ++ fitting n R.length items' := by
    intro items hle hT
    refine ⟨[], [], items, by rw [Nat.sub_self, scanSets], by simp, hT, ?_⟩
    have := fitting_add n 0 items
    rwa [Nat.zero_add] at this
  intro items
  induction items with
  | nil =>
    intro i hi hle hT
    have hlen : T.length = i := by
      have := List.drop_eq_nil_iff.1 hT
      omega
    rcases hi.lt_or_eq with hlt | rfl
    · refine Or.inl ⟨by omega, ?_⟩
      have hzero : buf (32 * i) = 0 := by
        have := hsame i hlt 0 (by omega)
        rwa [padded, List.getD_eq_default _ _ hlen.le] at this
      rw [show n - i = n - i - 1 + 1 by omega, scanSets_end hzero]
      rfl
    · exact Or.inr ⟨hle, hboundary [] hle hT⟩
  | cons item items ih =>
    intro i hi hle hT
    rcases hi.lt_or_eq with hlt | rfl
    on_goal 2 => exact Or.inr ⟨hle, hboundary _ hle hT⟩
    rw [List.flatMap_cons] at hT
    have hafter : T.drop (i + item.slots.length) = items.flatMap Item.slots := by
      rw [← List.drop_drop, hT, List.drop_left]
    have hlong : i + item.slots.length ≤ T.length := by
      have := congrArg List.length hT
      rw [List.length_drop, List.length_append] at this
      omega
    rcases item with ⟨raw, hraw⟩ | s
    · have hskip : Skipped (bufSlot buf (i + 0)) :=
        skipped_of_slots hsame hT (by simpa [Item.slots] using hraw) (Nat.succ_pos 0) hlt
      rw [show n - i = 1 + (n - (i + 1)) by omega,
        scanSets_skipped (32 * n) (n - (i + 1)) 1 i (fun r hr => by rwa [Nat.lt_one_iff.1 hr])]
      exact ih (i + 1) hlt hlong hafter
    · have hslots : s.slots.length = s.names.length + 2 := rfl
      by_cases hfit : i + s.slots.length ≤ n
      · obtain ⟨hset, hentry, hcount⟩ := setAt_of_slots hsame hT hfit
        have hin : i % n + s.slots.length ≤ n := by rwa [Nat.mod_eq_of_lt hlt]
        rw [fitting, if_pos hin, show n - i = n - i - 1 + 1 by omega,
          scanSets_set hset (by omega), hentry, hcount,
          show i + 1 + (s.names.length + 1) = i + s.slots.length by omega,
          show n - i - 1 - (s.names.length + 1) = n - (i + s.slots.length) by omega]
        rcases ih (i + s.slots.length) hfit hlong hafter with ⟨hshort, hscan⟩ |
          ⟨hge, found, R, items', hscan, hR, hdrop, hall⟩
        · exact Or.inl ⟨hshort, by rw [hscan]⟩
        · exact Or.inr ⟨hge, s.entry :: found, R, items', by rw [hscan], hR, hdrop,
            by rw [hall]; rfl⟩
      · have hout : ¬ i % n + s.slots.length ≤ n := by rwa [Nat.mod_eq_of_lt hlt]
        refine Or.inr ⟨by have : i + s.slots.length ≤ T.length := hlong; omega, [],
          s.slots.drop (n - i), items, ?_, ?_, ?_, ?_⟩
        · exact scanSets_cut hsame hT hlt (by omega)
        · intro raw hraw
          rw [show n - i = n - i - 1 + 1 by omega] at hraw
          exact s.slots_skipped raw (List.mem_of_mem_drop hraw)
        · rw [show n = i + (n - i) by omega, ← List.drop_drop, hT, Nat.add_sub_cancel_left]
          exact List.drop_append_of_le_length (by change n - i ≤ s.slots.length; omega)
        · rw [fitting, if_neg hout, List.length_drop, List.nil_append,
            show i + s.slots.length = s.slots.length - (n - i) + n by omega, fitting_add]

variable {v : ExfatVolume} {m : Medium}

/-- The same for a cluster that starts with slots to pass over. -/
theorem scanSets_cluster {R : List Buf} {items : List Item}
    (hsame : ∀ i < n, SameSlot (bufSlot buf i) (padded (R ++ items.flatMap Item.slots) i))
    (hR : ∀ raw ∈ R, Skipped raw) :
    scanSets buf (32 * n) n 0 0 = (fitting n R.length items, true) ∨
    ∃ found R' items', scanSets buf (32 * n) n 0 0 = (found, false) ∧ (∀ raw ∈ R', Skipped raw) ∧
      (R ++ items.flatMap Item.slots).drop n = R' ++ items'.flatMap Item.slots ∧
      fitting n R.length items = found ++ fitting n R'.length items' := by
  have hskip : ∀ r < R.length, r < n → Skipped (bufSlot buf (0 + r)) := fun r hr hn =>
    skipped_of_slots hsame (List.drop_zero (l := R ++ items.flatMap Item.slots)) hR hr
      (by rwa [Nat.zero_add])
  rcases Nat.lt_or_ge n R.length with hlt | hge
  · right
    refine ⟨[], R.drop n, items, ?_, fun raw hraw => hR raw (List.mem_of_mem_drop hraw), ?_, ?_⟩
    · have := scanSets_skipped (32 * n) 0 n 0 fun r hr => hskip r (by omega) hr
      rw [Nat.add_zero] at this
      rw [this, scanSets]
    · exact List.drop_append_of_le_length hlt.le
    · have := fitting_add n (R.length - n) items
      rw [Nat.sub_add_cancel hlt.le] at this
      rw [this, List.length_drop, List.nil_append]
  · have hstart : scanSets buf (32 * n) n 0 0
        = scanSets buf (32 * n) (n - R.length) 0 R.length := by
      have := scanSets_skipped (32 * n) (n - R.length) R.length 0 fun r hr =>
        hskip r hr (by omega)
      rwa [Nat.add_sub_cancel' hge, Nat.zero_add] at this
    rw [hstart]
    rcases scanSets_items hsame items R.length hge (by simp) List.drop_left with ⟨-, hscan⟩ | ⟨-, h⟩
    · exact Or.inl hscan
    · exact Or.inr h

theorem shows_of_items (hpos : 0 < v.sectorsPerCluster) (K : ℕ) :
    ∀ (first : ℕ) (R : List Buf) (items : List Item),
      v.clusters.Stores m first K (R ++ items.flatMap Item.slots) → (∀ raw ∈ R, Skipped raw) →
      ∃ n ≤ K + 1, (dirLinks v m).Shows first n
        (fitting v.clusters.slotsPerCluster R.length items) := by
  have hV := clusters_sound hpos
  have hbytes : v.sectorsPerCluster * 512 = 32 * v.clusters.slotsPerCluster := by
    change v.sectorsPerCluster * 512 = 32 * (v.sectorsPerCluster * 16)
    omega
  induction K with
  | zero =>
    intro first R items h _
    have hnil := h.room
    rw [Nat.zero_mul, Nat.le_zero, List.length_eq_zero_iff, List.append_eq_nil_iff] at hnil
    have hitems : items = [] := by
      rcases items with _ | ⟨_ | s, items⟩
      · rfl
      · cases hnil.2
      · cases hnil.2
    rw [hitems]
    exact ⟨1, le_rfl, .out h.chain.ends⟩
  | succ K ih =>
    intro first R items h hR
    have hsame : ∀ i < v.clusters.slotsPerCluster,
        SameSlot (bufSlot (v.clusters.clusterBuf m first) i)
          (padded (R ++ items.flatMap Item.slots) i) := by
      intro i hi
      rw [← ClusterMap.slotAt_first first hi]
      refine h.slots i ?_
      rw [Nat.succ_mul]
      omega
    have hview := h.chain.view hV (clusterView v)
    rw [clusterView, hbytes] at hview
    rcases scanSets_cluster hsame hR with hscan | ⟨found, R', items', hscan, hR', hdrop, hall⟩
    · exact ⟨2, by omega, .stop h.chain.enters (hview.trans (by rw [hscan]))⟩
    · have hnext : v.clusters.Stores m (v.clusters.nextAt m first) K
          (R' ++ items'.flatMap Item.slots) := by
        rw [← hdrop]
        refine ⟨h.chain.next, ?_, fun i hi => ?_⟩
        · have := h.room
          rw [Nat.succ_mul] at this
          rw [List.length_drop]
          omega
        · rw [← ClusterMap.slotAt_next hV, padded_drop]
          refine h.slots _ ?_
          rw [Nat.succ_mul]
          omega
      obtain ⟨N, hN, hshows⟩ := ih _ R' items' hnext hR'
      rw [hall]
      exact ⟨N + 1, by omega, .next h.chain.enters (hview.trans (by rw [hscan])) hshows⟩

/-- Listing a directory of items shows the sets that lie inside one cluster. -/
theorem listCluster_stored (hpos : 0 < v.sectorsPerCluster) {first K fuel : ℕ} {items : List Item}
    (h : v.clusters.Stores m first K (items.flatMap Item.slots)) (hfuel : K < fuel)
    (maxEntries : ℕ) :
    (listCluster v maxEntries fuel first []).run m.read
      = some ((fitting v.clusters.slotsPerCluster 0 items).take maxEntries) := by
  obtain ⟨n, hn, hshows⟩ := shows_of_items hpos K first [] items h (by simp)
  rw [listCluster_run v m maxEntries fuel first [] (Nat.zero_le _),
    Links.collect_of_shows hshows fuel [] (by omega) (Nat.zero_le _)]
  rfl

end Stored

end Exfat

end PeanutKernel
