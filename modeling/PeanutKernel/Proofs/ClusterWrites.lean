import PeanutKernel.Proofs.Cluster

/-!
# Which sectors the write loop reaches

The loop reads the table again after every write, so where it goes is told on the disk as the
earlier rounds have left it (`Hands`). The transfers handed to `block_write` are those of the
clusters it comes to (`mem_writeChain`).
-/

namespace PeanutKernel

/-- All sectors of the transfers are in `D`. -/
def Within (D : ℕ → Prop) (ts : List Transfer) : Prop := ∀ t ∈ ts, ∀ s ∈ t.sectors, D s

namespace ClusterMap

variable {V : ClusterMap} {m : Medium} {D : ℕ → Prop}

/-- All sectors of the cluster are in `D`. -/
def ClusterWithin (V : ClusterMap) (D : ℕ → Prop) (c : ℕ) : Prop := ∀ s, V.InCluster c s → D s

theorem writeChain_stop {n c : ℕ} {data : List UInt8} {writes : List Transfer} {w : Written}
    (hstop : ¬ (V.enters c = true ∧ data ≠ []))
    (h : V.writeChain n data c m writes = some w) : w.writes = writes := by
  cases n <;> rw [writeChain, if_neg hstop] at h <;> cases h <;> rfl

section Hands

/-- The loop with `data` to write reads cluster `c`, and so hands it to `block_write`. -/
def Handed (V : ClusterMap) (data : List UInt8) (c : ℕ) (m : Medium) : Prop :=
  V.Usable c ∧ data ≠ [] ∧ ∀ s, V.InCluster c s → m.bad s = false

/-- The medium once cluster `c` has been written. -/
def after (V : ClusterMap) (data : List UInt8) (c : ℕ) (m : Medium) : Medium :=
  { m with
    byte := storeByte m.byte ⟨(V.lba c).getD 0, V.sectorsPerCluster⟩
      (patch (V.clusterBuf m c) (data.take V.clusterBytes)) }

/-- The loop that starts at the first cluster comes to hand the second one to `block_write`. -/
inductive Hands (V : ClusterMap) : List UInt8 → ℕ → Medium → ℕ → Prop
  | here {data : List UInt8} {c : ℕ} {m : Medium} : V.Handed data c m → Hands V data c m c
  | there {data : List UInt8} {c d : ℕ} {m : Medium} : V.Handed data c m →
      Hands V (data.drop V.clusterBytes) (V.nextAt (V.after data c m) c) (V.after data c m) d →
      Hands V data c m d

variable {data : List UInt8} {c : ℕ}

theorem hands_iff {d : ℕ} :
    V.Hands data c m d ↔ V.Handed data c m ∧ (d = c ∨
      V.Hands (data.drop V.clusterBytes) (V.nextAt (V.after data c m) c) (V.after data c m) d) := by
  constructor
  · rintro (h | ⟨h, hd⟩)
    · exact ⟨h, .inl rfl⟩
    · exact ⟨h, .inr hd⟩
  · rintro ⟨h, rfl | hd⟩
    · exact .here h
    · exact .there h hd

theorem Hands.usable {d : ℕ} (h : V.Hands data c m d) : V.Usable d := by
  induction h with
  | here h => exact h.1
  | there _ _ ih => exact ih

theorem any_bad_iff {lba : ℕ} (h : V.lba c = some lba) :
    (Transfer.sectors ⟨lba, V.sectorsPerCluster⟩).any m.bad = false
      ↔ ∀ s, V.InCluster c s → m.bad s = false := by
  simp only [List.any_eq_false, mem_clusterSectors h, Bool.not_eq_true]

theorem writeChain_handed (hV : V.Sound) (h : V.Handed data c m) (n : ℕ) (writes : List Transfer) :
    V.writeChain (n + 1) data c m writes
      = V.writeChain n (data.drop V.clusterBytes) (V.nextAt (V.after data c m) c)
        (V.after data c m) (writes ++ [⟨(V.lba c).getD 0, V.sectorsPerCluster⟩]) := by
  obtain ⟨⟨hc, hsome⟩, hd, hgood⟩ := h
  obtain ⟨lba, hlba⟩ := Option.isSome_iff_exists.1 hsome
  have hne := Nat.pos_iff_ne_zero.1 hV.pos
  have hbad := (any_bad_iff hlba).2 hgood
  have hread : (blockRead lba V.sectorsPerCluster).run m.read = some (some (V.clusterBuf m c)) := by
    simp [blockRead, hne, Medium.read, hbad, clusterBuf_of_lba hlba]
  have hwrite : blockWrite m lba V.sectorsPerCluster
      (patch (V.clusterBuf m c) (data.take V.clusterBytes)) = some (V.after data c m) := by
    simp [blockWrite, hne, hbad, after, hlba]
  rw [writeChain, if_pos ⟨hc, hd⟩]
  simp only [hlba, hread, hwrite, hV.next_run, Option.getD_some]

theorem writeChain_unhanded (hne : ¬ V.Handed data c m) (n : ℕ) (writes : List Transfer) :
    ∃ ret, V.writeChain (n + 1) data c m writes = some ⟨ret, m, writes⟩ := by
  by_cases hgo : V.enters c = true ∧ data ≠ []
  · rw [writeChain, if_pos hgo]
    rcases hlba : V.lba c with _ | lba
    · exact ⟨-1, rfl⟩
    · have hbad : (Transfer.sectors ⟨lba, V.sectorsPerCluster⟩).any m.bad = true := by
        rw [← Bool.not_eq_false, any_bad_iff hlba]
        exact fun hall => hne ⟨⟨hgo.1, by rw [hlba]; rfl⟩, hgo.2, hall⟩
      have hread : (blockRead lba V.sectorsPerCluster).run m.read = some none := by
        unfold blockRead
        split_ifs
        · rfl
        · simp [Medium.read, hbad]
      simp only [hread]
      exact ⟨-1, rfl⟩
  · rw [writeChain, if_neg hgo]
    exact ⟨_, rfl⟩

/-- The loop has nothing to write in rounds it does not have. -/
theorem writeChain_zero {writes : List Transfer} {w : Written}
    (h : V.writeChain 0 data c m writes = some w) : ¬ V.Handed data c m ∧ w.writes = writes := by
  by_cases hgo : V.enters c = true ∧ data ≠ []
  · rw [writeChain, if_pos hgo] at h
    cases h
  · exact ⟨fun hh => hgo ⟨hh.1.1, hh.2.1⟩, writeChain_stop hgo h⟩

variable (hV : V.Sound)

include hV

theorem writeChain_returns (n : ℕ) :
    ∀ (c : ℕ) (data : List UInt8) (m : Medium) (writes : List Transfer), data.length ≤ n →
      ∃ w, V.writeChain n data c m writes = some w := by
  have hcb := hV.clusterBytes_pos
  induction n with
  | zero =>
    intro c data m writes hn
    rw [writeChain, if_neg fun h => h.2 (List.length_eq_zero_iff.1 (by omega))]
    exact ⟨_, rfl⟩
  | succ n ih =>
    intro c data m writes hn
    by_cases hh : V.Handed data c m
    · rw [writeChain_handed hV hh]
      exact ih _ _ _ _ (by rw [List.length_drop]; omega)
    · obtain ⟨ret, hret⟩ := writeChain_unhanded hh n writes
      exact ⟨_, hret⟩

/-- The transfers handed to `block_write` are those of the clusters the loop comes to. -/
theorem mem_writeChain (n : ℕ) :
    ∀ (c : ℕ) (data : List UInt8) (m : Medium) (writes : List Transfer) (w : Written),
      V.writeChain n data c m writes = some w → ∀ t, t ∈ w.writes ↔
        t ∈ writes ∨ ∃ d, V.Hands data c m d ∧ t = ⟨(V.lba d).getD 0, V.sectorsPerCluster⟩ := by
  induction n with
  | zero =>
    intro c data m writes w h t
    obtain ⟨hne, hw⟩ := writeChain_zero h
    rw [hw]
    refine ⟨.inl, ?_⟩
    rintro (ht | ⟨d, hd, -⟩)
    · exact ht
    · exact absurd (hands_iff.1 hd).1 hne
  | succ n ih =>
    intro c data m writes w h t
    by_cases hh : V.Handed data c m
    · rw [writeChain_handed hV hh] at h
      rw [ih _ _ _ _ _ h, List.mem_append, List.mem_singleton, or_assoc]
      refine or_congr_right ⟨?_, ?_⟩
      · rintro (ht | ⟨d, hd, ht⟩)
        · exact ⟨c, .here hh, ht⟩
        · exact ⟨d, .there hh hd, ht⟩
      · rintro ⟨d, hd, ht⟩
        rcases (hands_iff.1 hd).2 with rfl | hd
        · exact .inl ht
        · exact .inr ⟨d, hd, ht⟩
    · obtain ⟨ret, hret⟩ := writeChain_unhanded hh n writes
      rw [hret, Option.some_inj] at h
      rw [← h]
      refine ⟨.inl, ?_⟩
      rintro (ht | ⟨d, hd, -⟩)
      · exact ht
      · exact absurd (hands_iff.1 hd).1 hh

/-- The loop changes the sectors it writes only. -/
theorem writeChain_agreeOff (n : ℕ) :
    ∀ (c : ℕ) (data : List UInt8) (m : Medium) (writes : List Transfer) (w : Written),
      V.writeChain n data c m writes = some w →
        AgreeOff (fun s => ∃ t ∈ w.writes, s ∈ t.sectors) m w.medium := by
  induction n with
  | zero =>
    intro c data m writes w h
    by_cases hgo : V.enters c = true ∧ data ≠ []
    · rw [writeChain, if_pos hgo] at h
      cases h
    · rw [writeChain, if_neg hgo] at h
      cases h
      exact .refl _ m
  | succ n ih =>
    intro c data m writes w h
    by_cases hh : V.Handed data c m
    · rw [writeChain_handed hV hh] at h
      have hmem := (mem_writeChain hV n _ _ _ _ w h ⟨(V.lba c).getD 0, V.sectorsPerCluster⟩).2
        (.inl (by simp))
      exact ((agreeOff_store m _ _).mono fun s hs => ⟨_, hmem, hs⟩).trans (ih _ _ _ _ w h)
    · obtain ⟨ret, hret⟩ := writeChain_unhanded hh n writes
      rw [hret] at h
      cases h
      exact .refl _ m

/-- The writes stay in `D` just when the clusters the loop comes to do. -/
theorem within_writeChain_iff {n : ℕ} {w : Written} (h : V.writeChain n data c m [] = some w) :
    Within D w.writes ↔ ∀ d, V.Hands data c m d → V.ClusterWithin D d := by
  have hmem := mem_writeChain hV n c data m [] w h
  have hsec : ∀ d, V.Hands data c m d →
      V.lba d = some ((V.lba d).getD 0) := fun d hd => by
    obtain ⟨lba, hlba⟩ := Option.isSome_iff_exists.1 hd.usable.2
    rw [hlba, Option.getD_some]
  constructor
  · intro hin d hd s hs
    exact hin _ ((hmem _).2 (.inr ⟨d, hd, rfl⟩)) s ((mem_clusterSectors (hsec d hd)).2 hs)
  · intro hin t ht s hs
    rcases (hmem t).1 ht with ht | ⟨d, hd, rfl⟩
    · cases ht
    · exact hin d hd s ((mem_clusterSectors (hsec d hd)).1 hs)

/-- The same for a call that gets to the loop with a first cluster or writes nothing. -/
theorem within_call_iff {call : Option Written} {enters : ℕ → Prop}
    (hloop : ∀ first, enters first → call = V.writeChain data.length data first m [])
    (hidle : (∀ first, ¬ enters first) → ∀ w, call = some w → w.writes = []) :
    (∀ w, call = some w → Within D w.writes)
      ↔ ∀ c, (∃ first, enters first ∧ V.Hands data first m c) → V.ClusterWithin D c := by
  constructor
  · rintro hin c ⟨first, henter, hc⟩
    obtain ⟨w, hw⟩ := writeChain_returns hV data.length first data m [] le_rfl
    exact (within_writeChain_iff hV hw).1 (hin w (by rw [hloop first henter, hw])) c hc
  · intro hin w hw
    by_cases h : ∃ first, enters first
    · obtain ⟨first, henter⟩ := h
      rw [hloop first henter] at hw
      exact (within_writeChain_iff hV hw).2 fun c hc => hin c ⟨first, henter, hc⟩
    · rw [hidle (not_exists.1 h) w hw]
      simp [Within]

end Hands

end ClusterMap

end PeanutKernel
