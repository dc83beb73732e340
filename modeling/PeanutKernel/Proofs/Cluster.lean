import PeanutKernel.Cluster
import PeanutKernel.Proofs.Block

/-!
# Reading and overwriting a chain of clusters

A first cluster determines a chain on a medium (`chainAt`). A file read to its end is what its
chain stores (`readChain_stored`), and any chain long enough is read to the end of the file
(`readChain_of_chain`). The write loop overlays the buffer along the chain as it was before the
call (`writeChain_overlaid`): each round writes one cluster of the chain, so the rest of the chain
has not changed when the next round looks at it.
-/

namespace PeanutKernel

namespace ClusterMap

variable (V : ClusterMap) {m : Medium}

/-- `next` always returns, and a cluster has sectors. -/
structure Sound : Prop where
  returns : ∀ (ans : Transfer → Option Buf) (c : ℕ), ((V.next c).run ans).isSome
  pos : 0 < V.sectorsPerCluster

/-- The next cluster on the medium. -/
def nextAt (m : Medium) (c : ℕ) : ℕ := ((V.next c).run m.read).getD 0

/-- The chain from a first cluster. -/
def chainAt (m : Medium) (first : ℕ) : ℕ → ℕ
  | 0 => first
  | k + 1 => V.nextAt m (chainAt m first k)

/-- The sectors of a cluster. -/
def InCluster (c s : ℕ) : Prop :=
  ∃ lba, V.lba c = some lba ∧ lba ≤ s ∧ s < lba + V.sectorsPerCluster

/-- The loops enter the cluster, and it lies on the volume. -/
def Usable (c : ℕ) : Prop := V.enters c = true ∧ (V.lba c).isSome

/-- The address of a cluster's first byte. -/
def base (c : ℕ) : ℕ := 512 * (V.lba c).getD 0

/-- Where the bytes of a file lie whose clusters are `ch`. -/
def filePlace (ch : ℕ → ℕ) : ℕ → ℕ := pieced (fun k r => V.base (ch k) + r) V.clusterBytes

/-- The sectors of the clusters that hold the first `n` bytes of such a file. -/
def FileSector (ch : ℕ → ℕ) (n s : ℕ) : Prop := ∃ k, k * V.clusterBytes < n ∧ V.InCluster (ch k) s

/-- The clusters of the first `n` bytes do not overlap. -/
def DisjointUpTo (ch : ℕ → ℕ) (n : ℕ) : Prop :=
  ∀ k l, k * V.clusterBytes < n → l * V.clusterBytes < n →
    ∀ s, V.InCluster (ch k) s → V.InCluster (ch l) s → k = l

variable {V}

theorem Sound.clusterBytes_pos (hV : V.Sound) : 0 < V.clusterBytes := by
  have := hV.pos
  unfold clusterBytes
  omega

theorem run_next {c : ℕ} (h : ((V.next c).run m.read).isSome) :
    (V.next c).run m.read = some (V.nextAt m c) := by
  obtain ⟨a, ha⟩ := Option.isSome_iff_exists.1 h
  simp [nextAt, ha]

theorem Sound.next_run (hV : V.Sound) (m : Medium) (c : ℕ) :
    (V.next c).run m.read = some (V.nextAt m c) :=
  V.run_next (hV.returns m.read c)

theorem chainAt_next (m : Medium) (first : ℕ) :
    ∀ k, V.chainAt m (V.nextAt m first) k = V.chainAt m first (k + 1)
  | 0 => rfl
  | k + 1 => congrArg (V.nextAt m) (chainAt_next m first k)

theorem mem_clusterSectors {c lba s : ℕ} (h : V.lba c = some lba) :
    s ∈ Transfer.sectors ⟨lba, V.sectorsPerCluster⟩ ↔ V.InCluster c s := by
  rw [mem_sectors]
  constructor
  · exact fun hs => ⟨lba, h, hs⟩
  · rintro ⟨lba', h', hs⟩
    rw [h, Option.some_inj] at h'
    rwa [h']

theorem Usable.base_sector {c : ℕ} (h : V.Usable c) {r : ℕ} (hr : r < V.clusterBytes) :
    V.InCluster c ((V.base c + r) / 512) := by
  obtain ⟨lba, hlba⟩ := Option.isSome_iff_exists.1 h.2
  refine ⟨lba, hlba, ?_⟩
  unfold clusterBytes at hr
  rw [base, hlba, Option.getD_some]
  omega

theorem filePlace_sector (hV : V.Sound) {ch : ℕ → ℕ} {n i : ℕ}
    (huse : ∀ k, k * V.clusterBytes < n → V.Usable (ch k)) (hi : i < n) :
    V.FileSector ch n (V.filePlace ch i / 512) := by
  have hk : i / V.clusterBytes * V.clusterBytes < n := (Nat.div_mul_le_self _ _).trans_lt hi
  exact ⟨_, hk, (huse _ hk).base_sector (Nat.mod_lt _ hV.clusterBytes_pos)⟩

/-- Places in clusters that do not overlap are distinct. -/
theorem filePlace_inj (hV : V.Sound) {ch : ℕ → ℕ} {n : ℕ}
    (huse : ∀ k, k * V.clusterBytes < n → V.Usable (ch k)) (hdisj : V.DisjointUpTo ch n) :
    ∀ i < n, ∀ j < n, V.filePlace ch i = V.filePlace ch j → i = j := by
  refine pieced_inj hV.clusterBytes_pos (fun k _ r _ r' _ h => Nat.add_left_cancel h)
    fun k l hk hl hkl r hr r' hr' h => hkl ?_
  have hs' := (huse l hl).base_sector hr'
  rw [← h] at hs'
  exact hdisj k l hk hl _ ((huse k hk).base_sector hr) hs'

section Read

/-- The buffer after a cluster has been read. -/
def clusterBuf (V : ClusterMap) (m : Medium) (c : ℕ) : Buf := fun i =>
  if i < V.clusterBytes then m.byte (V.base c + i) else 0

variable {c : ℕ}

theorem clusterBuf_of_lba {lba : ℕ} (h : V.lba c = some lba) :
    V.clusterBuf m c = fun i =>
      if i < 512 * V.sectorsPerCluster then m.byte (512 * lba + i) else 0 := by
  unfold clusterBuf base clusterBytes
  rw [h, Option.getD_some]

theorem readCluster_of_sectors (hV : V.Sound) (hlba : (V.lba c).isSome)
    (h : ∀ s, V.InCluster c s → m.bad s = false) :
    (V.readCluster c).run m.read = some (some (V.clusterBuf m c)) := by
  obtain ⟨lba, hlba⟩ := Option.isSome_iff_exists.1 hlba
  unfold readCluster
  simp only [hlba]
  rw [clusterBuf_of_lba hlba]
  exact blockRead_run (Nat.pos_iff_ne_zero.1 hV.pos) fun s hs =>
    h s ((mem_clusterSectors hlba).1 hs)

theorem readCluster_run (hV : V.Sound) (hm : m.Good) (h : (V.lba c).isSome) :
    (V.readCluster c).run m.read = some (some (V.clusterBuf m c)) :=
  readCluster_of_sectors hV h fun s _ => hm s

theorem bytesOf_clusterBuf (V : ClusterMap) (m : Medium) (c : ℕ) {n : ℕ} (hn : n ≤ V.clusterBytes) :
    bytesOf (V.clusterBuf m c) n = stored m.byte (V.base c + ·) n := by
  simp only [bytesOf, stored, List.map_inj_left, List.mem_range]
  intro i hi
  exact if_pos (by omega)

variable {left : ℕ}

theorem readChain_stop {n : ℕ} (h : ¬ (V.enters c = true ∧ 0 < left)) :
    (V.readChain n left c).run m.read = some (some []) := by
  cases n <;> rw [readChain, if_neg h] <;> rfl

theorem readChain_of_sectors (hV : V.Sound) (n : ℕ) (hc : V.Usable c)
    (h : ∀ s, V.InCluster c s → m.bad s = false) (hl : 0 < left) :
    (V.readChain (n + 1) left c).run m.read
      = ((V.readChain n (left - min left V.clusterBytes) (V.nextAt m c)).run m.read).map
        (Option.map (stored m.byte (V.base c + ·) (min left V.clusterBytes) ++ ·)) := by
  rw [readChain, if_pos ⟨hc.1, hl⟩]
  simp only [Query.run_bind, readCluster_of_sectors hV hc.2 h, hV.next_run, Option.bind_some,
    bytesOf_clusterBuf V m c (Nat.min_le_right left _), Query.run_pure]
  cases (V.readChain n (left - min left V.clusterBytes) (V.nextAt m c)).run m.read <;> rfl

theorem readChain_succ (hV : V.Sound) (hm : m.Good) (n : ℕ) (hc : V.Usable c) (hl : 0 < left) :
    (V.readChain (n + 1) left c).run m.read
      = ((V.readChain n (left - min left V.clusterBytes) (V.nextAt m c)).run m.read).map
        (Option.map (stored m.byte (V.base c + ·) (min left V.clusterBytes) ++ ·)) :=
  readChain_of_sectors hV n hc (fun s _ => hm s) hl

theorem readChain_unreadable {n : ℕ} (hc : V.enters c = true) (hl : 0 < left)
    (h : ∃ s, V.InCluster c s ∧ m.bad s = true) :
    (V.readChain (n + 1) left c).run m.read = some none := by
  obtain ⟨s, ⟨lba, hlba, hs⟩, hbad⟩ := h
  have hany : (Transfer.sectors ⟨lba, V.sectorsPerCluster⟩).any m.bad = true :=
    List.any_eq_true.2 ⟨s, mem_sectors.2 hs, hbad⟩
  have hread : (V.readCluster c).run m.read = some none := by
    have hcount : V.sectorsPerCluster ≠ 0 := by omega
    simp [readCluster, hlba, blockRead, hcount, Medium.read, hany]
  rw [readChain, if_pos ⟨hc, hl⟩]
  simp only [Query.run_bind, hread, Option.bind_some, Query.run_pure]

/-- The number of bytes left bounds the rounds of the loop. -/
theorem readChain_rounds (hV : V.Sound) (n : ℕ) :
    ∀ (n' left c : ℕ), left ≤ n → left ≤ n' →
      (V.readChain n left c).run m.read = (V.readChain n' left c).run m.read := by
  induction n with
  | zero =>
    intro n' left c hle _
    rw [readChain_stop (by omega), readChain_stop (by omega)]
  | succ n ih =>
    intro n' left c hle hle'
    by_cases hgo : V.enters c ∧ 0 < left
    · obtain ⟨n', rfl⟩ : ∃ k, n' = k + 1 := ⟨n' - 1, by omega⟩
      rw [readChain, readChain, if_pos hgo, if_pos hgo]
      simp only [Query.run_bind]
      refine congrArg (Option.bind _) (funext fun read => ?_)
      rcases read with _ | buf
      · rfl
      · have := hV.clusterBytes_pos
        simp only [Query.run_bind]
        refine congrArg (Option.bind _) (funext fun next => ?_)
        rw [ih n' _ next (by omega) (by omega)]
    · rw [readChain_stop hgo, readChain_stop hgo]

/-- A cluster that is entered and read lies on the volume. -/
theorem readChain_usable {n : ℕ} {C : List UInt8} (hc : V.enters c = true) (hl : 0 < left)
    (h : (V.readChain (n + 1) left c).run m.read = some (some C)) : V.Usable c := by
  refine ⟨hc, ?_⟩
  rw [readChain, if_pos ⟨hc, hl⟩] at h
  rcases hlba : V.lba c with _ | lba
  · simp [readCluster, hlba] at h
  · rfl

theorem stored_filePlace (hV : V.Sound) (first n : ℕ) :
    stored m.byte (V.filePlace (V.chainAt m first)) n
      = stored m.byte (V.base first + ·) (min n V.clusterBytes)
        ++ stored m.byte (V.filePlace (V.chainAt m (V.nextAt m first)))
          (n - min n V.clusterBytes) := by
  rw [filePlace, stored_pieced hV.clusterBytes_pos]
  simp only [← chainAt_next]
  rfl

/-- A file read to its end is stored along its chain. -/
theorem readChain_stored (hV : V.Sound) (hm : m.Good) (n : ℕ) :
    ∀ (left first : ℕ) (C : List UInt8), (V.readChain n left first).run m.read = some (some C) →
      C.length = left →
      (∀ k, k * V.clusterBytes < left → V.Usable (V.chainAt m first k)) ∧
        C = stored m.byte (V.filePlace (V.chainAt m first)) left := by
  induction n with
  | zero =>
    intro left first C h hlen
    by_cases hcond : V.enters first = true ∧ 0 < left
    · rw [readChain, if_pos hcond] at h
      simp at h
    · rw [readChain_stop hcond] at h
      cases h
      subst hlen
      exact ⟨fun k hk => absurd hk (Nat.not_lt_zero _), rfl⟩
  | succ n ih =>
    intro left first C h hlen
    by_cases hcond : V.enters first = true ∧ 0 < left
    · have huse := readChain_usable hcond.1 hcond.2 h
      rw [readChain_succ hV hm n huse hcond.2] at h
      obtain ⟨rest, hrest, hmap⟩ := Option.map_eq_some_iff.1 h
      obtain ⟨D, rfl, hC⟩ := Option.map_eq_some_iff.1 hmap
      have hD : D.length = left - min left V.clusterBytes := by
        rw [← hC, List.length_append, length_stored] at hlen
        omega
      obtain ⟨hrest', hst⟩ := ih _ _ D hrest hD
      refine ⟨fun k hk => ?_, ?_⟩
      · obtain _ | k := k
        · exact huse
        · rw [← chainAt_next]
          apply hrest'
          rw [Nat.succ_mul] at hk
          omega
      · rw [stored_filePlace hV, ← hst, hC]
    · rw [readChain_stop hcond] at h
      cases h
      subst hlen
      exact ⟨fun k hk => absurd hk (Nat.not_lt_zero _), rfl⟩

/-- A chain long enough for `left` bytes is read to their end. -/
theorem readChain_of_chain (hV : V.Sound) (hm : m.Good) (n : ℕ) :
    ∀ left first : ℕ, left ≤ n →
      (∀ k, k * V.clusterBytes < left → V.Usable (V.chainAt m first k)) →
      (V.readChain n left first).run m.read
        = some (some (stored m.byte (V.filePlace (V.chainAt m first)) left)) := by
  have hcb := hV.clusterBytes_pos
  induction n with
  | zero =>
    intro left first hn _
    obtain rfl : left = 0 := by omega
    exact readChain_stop (by omega)
  | succ n ih =>
    intro left first hn huse
    obtain rfl | hl := Nat.eq_zero_or_pos left
    · exact readChain_stop (by omega)
    · have hrest := ih (left - min left V.clusterBytes) (V.nextAt m first) (by omega)
        fun k hk => by
          rw [chainAt_next]
          apply huse
          rw [Nat.succ_mul]
          omega
      have hfirst : V.Usable first := huse 0 (by omega)
      rw [readChain_succ hV hm n hfirst hl, hrest, stored_filePlace hV first left]
      rfl

end Read

section Write

theorem writeChain_succ (hV : V.Sound) (hm : m.Good) {c : ℕ} (n : ℕ) {data : List UInt8}
    (hc : V.Usable c) (hd : data ≠ []) (writes : List Transfer) :
    ∃ m' : Medium, AgreeOff (V.InCluster c) m m' ∧
      Overlaid m.byte m'.byte (V.base c + ·) (data.take V.clusterBytes) ∧
      V.writeChain (n + 1) data c m writes
        = V.writeChain n (data.drop V.clusterBytes) (V.nextAt m' c) m'
          (writes ++ [⟨(V.lba c).getD 0, V.sectorsPerCluster⟩]) := by
  obtain ⟨lba, hlba⟩ := Option.isSome_iff_exists.1 hc.2
  have hne := Nat.pos_iff_ne_zero.1 hV.pos
  set t : Transfer := ⟨lba, V.sectorsPerCluster⟩
  set buf : Buf := fun i => if i < 512 * V.sectorsPerCluster then m.byte (512 * lba + i) else 0
  refine ⟨{ m with byte := storeByte m.byte t (patch buf (data.take V.clusterBytes)) }, ?_, ?_, ?_⟩
  · exact (agreeOff_store m _ _).mono fun s hs => (mem_clusterSectors hlba).1 hs
  · rw [base, hlba, Option.getD_some]
    refine overlaid_blockWrite m t ?_ fun i hi => if_pos hi
    rw [List.length_take]
    exact Nat.min_le_left _ _
  · rw [writeChain, if_pos ⟨hc.1, hd⟩]
    simp only [hlba, hm.blockRead hne, hm.blockWrite hne, hV.next_run]
    rfl

/-- The write loop overlays its data along a chain whose clusters neither overlap nor hold sectors
the chain is read off. -/
theorem writeChain_overlaid (hV : V.Sound) (n : ℕ) :
    ∀ (data : List UInt8) (ch : ℕ → ℕ) (m : Medium) (writes : List Transfer),
      data.length ≤ n → m.Good →
      (∀ k, k * V.clusterBytes < data.length → V.Usable (ch k)) →
      (∀ k, k * V.clusterBytes < data.length → V.nextAt m (ch k) = ch (k + 1)) →
      V.DisjointUpTo ch data.length →
      (∀ k, k * V.clusterBytes < data.length →
        Clear (V.FileSector ch data.length) ((V.next (ch k)).trace m.read)) →
      ∃ (m' : Medium) (writes' : List Transfer),
        V.writeChain n data (ch 0) m writes = some ⟨0, m', writes'⟩ ∧ m'.bad = m.bad ∧
        Overlaid m.byte m'.byte (V.filePlace ch) data := by
  have hcb := hV.clusterBytes_pos
  have hnil : ∀ (n : ℕ) (ch : ℕ → ℕ) (m : Medium) (writes : List Transfer),
      V.writeChain n [] (ch 0) m writes = some ⟨0, m, writes⟩ := by
    intro n ch m writes
    cases n <;> rw [writeChain, if_neg (by simp)] <;> rfl
  induction n with
  | zero =>
    intro data ch m writes hn _ _ _ _ _
    obtain rfl : data = [] := List.length_eq_zero_iff.1 (by omega)
    exact ⟨m, writes, hnil 0 ch m writes, rfl, overlaid_nil _ _⟩
  | succ n ih =>
    intro data ch m writes hn hm huse hnext hdisj hclear
    obtain rfl | hd := eq_or_ne data []
    · exact ⟨m, writes, hnil _ ch m writes, rfl, overlaid_nil _ _⟩
    · have hlen : 0 < data.length := List.length_pos_iff.2 hd
      obtain ⟨m₁, hag, hov, hstep⟩ := writeChain_succ hV hm n (huse 0 (by omega)) hd writes
      -- the rest of the chain is read off sectors this round has not touched
      have hshift : ∀ k, k * V.clusterBytes < (data.drop V.clusterBytes).length →
          (k + 1) * V.clusterBytes < data.length := by
        intro k hk
        rw [List.length_drop] at hk
        rw [Nat.succ_mul]
        omega
      have hclear' : ∀ k, k * V.clusterBytes < data.length →
          Clear (V.InCluster (ch 0)) ((V.next (ch k)).trace m.read) := fun k hk =>
        (hclear k hk).mono fun s hs => ⟨0, by omega, hs⟩
      have hnext' : ∀ k, k * V.clusterBytes < data.length → V.nextAt m₁ (ch k) = ch (k + 1) := by
        intro k hk
        rw [← hnext k hk, nextAt, nextAt, hag.run _ (hclear' k hk)]
      obtain ⟨m', writes', hw, hbad, hrest⟩ := ih
        (data.drop V.clusterBytes) (fun k => ch (k + 1)) m₁
        (writes ++ [⟨(V.lba (ch 0)).getD 0, V.sectorsPerCluster⟩])
        (by rw [List.length_drop]; omega) (hag.good hm) (fun k hk => huse _ (hshift k hk))
        (fun k hk => hnext' _ (hshift k hk))
        (fun k l hk hl s hs hs' => by
          have := hdisj _ _ (hshift k hk) (hshift l hl) s hs hs'
          omega)
        (fun k hk => by
          rw [hag.trace _ (hclear' _ (hshift k hk))]
          refine (hclear _ (hshift k hk)).mono ?_
          rintro s ⟨l, hl, hs⟩
          exact ⟨l + 1, hshift l hl, hs⟩)
      refine ⟨m', writes', ?_, hbad.trans hag.bad, ?_⟩
      · rw [hstep, hnext' 0 (by omega)]
        exact hw
      · exact Overlaid.pieces hcb hov hrest (filePlace_inj hV huse hdisj)

end Write

section Overwrite

variable {first n : ℕ} {m' : Medium}

/-- Following the chain reads no sector of the clusters of the first `n` bytes. -/
def TableApart (V : ClusterMap) (m : Medium) (first n : ℕ) : Prop :=
  ∀ k, k * V.clusterBytes < n →
    Clear (V.FileSector (V.chainAt m first) n) ((V.next (V.chainAt m first k)).trace m.read)

/-- The chain is followed as before on a medium that differs only in the clusters of the file. -/
theorem TableApart.chainAt_eq (h : V.TableApart m first n)
    (hag : AgreeOff (V.FileSector (V.chainAt m first) n) m m') :
    ∀ k, k * V.clusterBytes < n → V.chainAt m' first k = V.chainAt m first k
  | 0, _ => rfl
  | k + 1, hk => by
    have hk' : k * V.clusterBytes < n := by
      rw [Nat.succ_mul] at hk
      omega
    rw [chainAt, chainAt, h.chainAt_eq hag k hk', nextAt, hag.run _ (h k hk')]
    rfl

section

variable (h : V.TableApart m first n) (hV : V.Sound) (hm : m.Good)
  (huse : ∀ k, k * V.clusterBytes < n → V.Usable (V.chainAt m first k))

include h hV hm huse

/-- Such a medium stores the file along the chain as it was. -/
theorem TableApart.readChain_eq (hag : AgreeOff (V.FileSector (V.chainAt m first) n) m m') :
    (V.readChain n n first).run m'.read
      = some (some (stored m'.byte (V.filePlace (V.chainAt m first)) n)) := by
  have hch' := h.chainAt_eq hag
  have hstored : stored m'.byte (V.filePlace (V.chainAt m' first)) n
      = stored m'.byte (V.filePlace (V.chainAt m first)) n :=
    stored_congr fun i hi => by
      rw [filePlace, filePlace, pieced_congr (fun k hk => by rw [hch' k hk]) hi]
  rw [readChain_of_chain hV (hag.good hm) _ _ _ le_rfl fun k hk => by
      rw [hch' k hk]
      exact huse k hk,
    hstored]

/-- Writing to the start of a file, to clusters that do not overlap. -/
theorem TableApart.writeChain_eq {B : List UInt8} (hB : B.length ≤ n)
    (hdisj : V.DisjointUpTo (V.chainAt m first) B.length) :
    ∃ (m' : Medium) (writes : List Transfer),
      V.writeChain B.length B first m [] = some ⟨0, m', writes⟩ ∧
      AgreeOff (V.FileSector (V.chainAt m first) n) m m' ∧
      Overlaid m.byte m'.byte (V.filePlace (V.chainAt m first)) B := by
  set ch := V.chainAt m first with hch
  -- the clusters the new bytes go to are among those of the file
  have hsub : ∀ k, k * V.clusterBytes < B.length → k * V.clusterBytes < n :=
    fun k hk => hk.trans_le hB
  have hfile : ∀ s, V.FileSector ch B.length s → V.FileSector ch n s := by
    rintro s ⟨k, hk, hs⟩
    exact ⟨k, hsub k hk, hs⟩
  obtain ⟨m', writes, hwrite, hbad, hov⟩ := writeChain_overlaid hV B.length B ch m [] le_rfl hm
    (fun k hk => huse k (hsub k hk)) (fun k _ => rfl) hdisj
    (fun k hk => (h k (hsub k hk)).mono hfile)
  refine ⟨m', writes, hwrite, ⟨hbad, fun a ha => hov.frame a fun i hi heq => ha ?_⟩, hov⟩
  rw [heq]
  exact filePlace_sector hV huse (hi.trans_le hB)

end

/-- The clusters of the first `n` bytes do not overlap, and following the chain reads no sector of
them. -/
structure Apart (V : ClusterMap) (m : Medium) (first n : ℕ) : Prop where
  disjoint : V.DisjointUpTo (V.chainAt m first) n
  table : ∀ k, k * V.clusterBytes < n →
    Clear (V.FileSector (V.chainAt m first) n) ((V.next (V.chainAt m first k)).trace m.read)

/-- Overwriting the start of a file that reads as `C`. -/
theorem overwrite (hV : V.Sound) (hm : m.Good) {C : List UInt8}
    (hread : (V.readChain C.length C.length first).run m.read = some (some C))
    (hapart : V.Apart m first C.length) {B : List UInt8} (hB : B.length ≤ C.length) :
    ∃ (m' : Medium) (writes : List Transfer),
      V.writeChain B.length B first m [] = some ⟨0, m', writes⟩ ∧
      AgreeOff (V.FileSector (V.chainAt m first) C.length) m m' ∧
      Overlaid m.byte m'.byte (V.filePlace (V.chainAt m first)) B ∧
      (V.readChain C.length C.length first).run m'.read
        = some (some (B ++ C.drop B.length)) := by
  obtain ⟨huse, hC⟩ := readChain_stored hV hm _ _ _ C hread rfl
  have htable : V.TableApart m first C.length := hapart.table
  obtain ⟨m', writes, hwrite, hag, hov⟩ := htable.writeChain_eq hV hm huse hB
    fun k l hk hl => hapart.disjoint k l (hk.trans_le hB) (hl.trans_le hB)
  refine ⟨m', writes, hwrite, hag, hov, ?_⟩
  rw [htable.readChain_eq hV hm huse hag,
    hov.stored hB (filePlace_inj hV huse hapart.disjoint), ← hC]

theorem filePlace_mul (hV : V.Sound) (ch : ℕ → ℕ) (k : ℕ) :
    V.filePlace ch (k * V.clusterBytes) = V.base (ch k) := by
  simp [filePlace, pieced, Nat.mul_div_cancel _ hV.clusterBytes_pos]

/-- Where two clusters of a file lie at the same place, a change at the start of the one shows up
in the other. -/
theorem exists_alias (hV : V.Sound) (hm : m.Good) {C : List UInt8}
    (hread : (V.readChain C.length C.length first).run m.read = some (some C))
    (htable : V.TableApart m first C.length) {k l : ℕ} (hkl : k < l)
    (hl : l * V.clusterBytes < C.length)
    (hsame : V.base (V.chainAt m first k) = V.base (V.chainAt m first l))
    (hdisj : V.DisjointUpTo (V.chainAt m first) (l * V.clusterBytes)) :
    ∃ (B : List UInt8) (m' : Medium) (writes : List Transfer), B.length ≤ C.length ∧
      V.writeChain B.length B first m [] = some ⟨0, m', writes⟩ ∧
      AgreeOff (V.FileSector (V.chainAt m first) C.length) m m' ∧
      (V.readChain C.length C.length first).run m'.read
        ≠ some (some (B ++ C.drop B.length)) := by
  have hcb := hV.clusterBytes_pos
  obtain ⟨huse, hC⟩ := readChain_stored hV hm _ _ _ C hread rfl
  set ch := V.chainAt m first with hch
  have hmul : k * V.clusterBytes + V.clusterBytes ≤ l * V.clusterBytes := by
    rw [← Nat.succ_mul]
    exact Nat.mul_le_mul_right _ hkl
  -- the first byte of cluster `k` is changed, all before it are kept
  obtain ⟨B, hBlen, hBlast⟩ : ∃ B : List UInt8, B.length = k * V.clusterBytes + 1 ∧
      B[k * V.clusterBytes]? = some (m.byte (V.base (ch k)) + 1) := by
    refine ⟨C.take (k * V.clusterBytes) ++ [m.byte (V.base (ch k)) + 1], ?_, ?_⟩
    · rw [List.length_append, List.length_take, List.length_singleton]
      omega
    · rw [List.getElem?_append_right (by rw [List.length_take]; omega), List.length_take,
        Nat.min_eq_left (by omega), Nat.sub_self]
      rfl
  have hB : B.length ≤ l * V.clusterBytes := by omega
  obtain ⟨m', writes, hwrite, hag, hov⟩ := htable.writeChain_eq hV hm huse (B := B) (by omega)
    fun i j hi hj => hdisj i j (hi.trans_le hB) (hj.trans_le hB)
  refine ⟨B, m', writes, by omega, hwrite, hag, fun hback => ?_⟩
  rw [htable.readChain_eq hV hm huse hag, Option.some_inj, Option.some_inj] at hback
  have hnew : m'.byte (V.base (ch l)) = m.byte (V.base (ch k)) + 1 := by
    have hw := hov.written (k * V.clusterBytes) (by omega)
    rw [List.getElem?_eq_getElem (by omega), Option.some_inj] at hBlast
    rw [filePlace_mul hV, hBlast] at hw
    rwa [← hsame]
  have hat := congrArg (fun L : List UInt8 => L[l * V.clusterBytes]?) hback
  simp only [List.getElem?_append_right hB, List.getElem?_drop, Nat.add_sub_cancel' hB] at hat
  rw [hC, List.getElem?_eq_getElem (by simpa using hl),
    List.getElem?_eq_getElem (by simpa using hl),
    getElem_stored, getElem_stored, filePlace_mul hV, hnew, Option.some_inj, ← hsame] at hat
  exact absurd hat (by simp)

end Overwrite

end ClusterMap

end PeanutKernel
