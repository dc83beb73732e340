import PeanutKernel.Proofs.ExfatListing

/-!
# exFAT listings and cluster cuts

Stored in clusters of another size, the same entry sets are listed in the same order, but a set
that a cluster boundary cuts is not listed at all. A larger cluster size cuts no set that a smaller
one leaves whole, so the lists agree exactly if both sizes leave the same sets whole
(`listCluster_cuts_iff`).
-/

namespace PeanutKernel

namespace Exfat

/-- The same sets lie inside one cluster of `n₁` slots and of `n₂` slots. -/
def SameCuts (items : List Item) (n₁ n₂ : ℕ) : Prop :=
  ∀ q ∈ placed 0 items, InOneCluster n₁ q ↔ InOneCluster n₂ q

/-- Clusters made of smaller ones cut no more sets. -/
theorem InOneCluster.of_dvd {n₁ n₂ : ℕ} (hdvd : n₁ ∣ n₂) (hpos : 0 < n₂) {q : ℕ × EntrySet}
    (h : InOneCluster n₁ q) : InOneCluster n₂ q := by
  obtain ⟨c, rfl⟩ := hdvd
  have hn : 0 < n₁ := Nat.pos_of_mul_pos_right hpos
  unfold InOneCluster at h ⊢
  set r := q.1 % (n₁ * c)
  have hr : r < n₁ * c := Nat.mod_lt _ hpos
  have hmod : r % n₁ = q.1 % n₁ := Nat.mod_mod_of_dvd _ (Nat.dvd_mul_right n₁ c)
  have hdiv : n₁ * (r / n₁) + r % n₁ = r := Nat.div_add_mod r n₁
  have hnext : n₁ * (r / n₁ + 1) ≤ n₁ * c :=
    Nat.mul_le_mul_left n₁ (Nat.div_lt_of_lt_mul hr)
  rw [Nat.mul_add, Nat.mul_one] at hnext
  omega

theorem fitting_eq_iff_of_dvd {n₁ n₂ : ℕ} (hdvd : n₁ ∣ n₂) (hpos : 0 < n₂) (items : List Item) :
    fitting n₁ 0 items = fitting n₂ 0 items ↔ SameCuts items n₁ n₂ := by
  constructor
  · intro heq q hq
    refine ⟨fun h => h.of_dvd hdvd hpos, fun h => ?_⟩
    have hsub : ((placed 0 items).filter (InOneCluster n₁ ·)).Sublist
        ((placed 0 items).filter (InOneCluster n₂ ·)) :=
      List.monotone_filter_right _ fun q hq => by
        simp only [decide_eq_true_eq] at hq ⊢
        exact hq.of_dvd hdvd hpos
    have hlen := congrArg List.length heq
    rw [fitting_eq, fitting_eq, List.length_map, List.length_map] at hlen
    have hmem : q ∈ (placed 0 items).filter (InOneCluster n₂ ·) :=
      List.mem_filter.2 ⟨hq, decide_eq_true h⟩
    rw [← hsub.eq_of_length hlen] at hmem
    exact of_decide_eq_true (List.mem_filter.1 hmem).2
  · intro hsame
    rw [fitting_eq, fitting_eq, List.filter_congr fun q hq => ?_]
    rw [decide_eq_decide]
    exact hsame q hq

theorem fitting_eq_iff {n₁ n₂ : ℕ} (hpos₁ : 0 < n₁) (hpos₂ : 0 < n₂) (hdvd : n₁ ∣ n₂ ∨ n₂ ∣ n₁)
    (items : List Item) : fitting n₁ 0 items = fitting n₂ 0 items ↔ SameCuts items n₁ n₂ := by
  rcases hdvd with h | h
  · exact fitting_eq_iff_of_dvd h hpos₂ items
  · rw [eq_comm, fitting_eq_iff_of_dvd h hpos₁ items]
    exact ⟨fun hsame q hq => (hsame q hq).symm, fun hsame q hq => (hsame q hq).symm⟩

theorem length_fitting_le (n : ℕ) (items : List Item) :
    (fitting n 0 items).length ≤ (placed 0 items).length := by
  rw [fitting_eq, List.length_map]
  exact List.length_filter_le _ _

/-- Two cluster sizes that can be mounted give the same lists exactly if they cut the same sets. One
`max_entries` that has room for all of the sets tells. -/
theorem listCluster_cuts_iff {items : List Item} {v₁ v₂ : ExfatVolume} {m₁ m₂ : Medium}
    {first₁ first₂ K₁ K₂ fuel₁ fuel₂ : ℕ} (hspc₁ : ∃ k ≤ 3, v₁.sectorsPerCluster = 2 ^ k)
    (hspc₂ : ∃ k ≤ 3, v₂.sectorsPerCluster = 2 ^ k)
    (h₁ : v₁.clusters.Stores m₁ first₁ K₁ (items.flatMap Item.slots))
    (h₂ : v₂.clusters.Stores m₂ first₂ K₂ (items.flatMap Item.slots)) (hf₁ : K₁ < fuel₁)
    (hf₂ : K₂ < fuel₂) :
    ((∀ maxEntries ≤ items.length, ListSame (listCluster v₁ maxEntries fuel₁ first₁ [])
        (listCluster v₂ maxEntries fuel₂ first₂ []) m₁ m₂)
      ↔ SameCuts items v₁.clusters.slotsPerCluster v₂.clusters.slotsPerCluster) ∧
    (SameCuts items v₁.clusters.slotsPerCluster v₂.clusters.slotsPerCluster →
      ∀ maxEntries, ListSame (listCluster v₁ maxEntries fuel₁ first₁ [])
        (listCluster v₂ maxEntries fuel₂ first₂ []) m₁ m₂) ∧
    ∀ maxEntries, (placed 0 items).length ≤ maxEntries →
      (ListSame (listCluster v₁ maxEntries fuel₁ first₁ [])
          (listCluster v₂ maxEntries fuel₂ first₂ []) m₁ m₂
        ↔ SameCuts items v₁.clusters.slotsPerCluster v₂.clusters.slotsPerCluster) := by
  obtain ⟨k₁, -, hk₁⟩ := hspc₁
  obtain ⟨k₂, -, hk₂⟩ := hspc₂
  have hn₁ : v₁.clusters.slotsPerCluster = 2 ^ k₁ * 16 := congrArg (· * 16) hk₁
  have hn₂ : v₂.clusters.slotsPerCluster = 2 ^ k₂ * 16 := congrArg (· * 16) hk₂
  have hpos₁ : 0 < v₁.sectorsPerCluster := hk₁ ▸ Nat.two_pow_pos k₁
  have hpos₂ : 0 < v₂.sectorsPerCluster := hk₂ ▸ Nat.two_pow_pos k₂
  have hdvd : v₁.clusters.slotsPerCluster ∣ v₂.clusters.slotsPerCluster ∨
      v₂.clusters.slotsPerCluster ∣ v₁.clusters.slotsPerCluster := by
    rw [hn₁, hn₂]
    rcases Nat.le_total k₁ k₂ with hle | hle
    · exact Or.inl (Nat.mul_dvd_mul_right (Nat.pow_dvd_pow 2 hle) 16)
    · exact Or.inr (Nat.mul_dvd_mul_right (Nat.pow_dvd_pow 2 hle) 16)
  have hiff := fitting_eq_iff (ClusterMap.slotsPerCluster_pos (clusters_sound hpos₁))
    (ClusterMap.slotsPerCluster_pos (clusters_sound hpos₂)) hdvd items
  have hrun : ∀ maxEntries, ListSame (listCluster v₁ maxEntries fuel₁ first₁ [])
      (listCluster v₂ maxEntries fuel₂ first₂ []) m₁ m₂
      ↔ (fitting v₁.clusters.slotsPerCluster 0 items).take maxEntries
        = (fitting v₂.clusters.slotsPerCluster 0 items).take maxEntries := fun maxEntries =>
    listSame_iff (listCluster_stored hpos₁ h₁ hf₁ maxEntries)
      (listCluster_stored hpos₂ h₂ hf₂ maxEntries)
  have hsuff : SameCuts items v₁.clusters.slotsPerCluster v₂.clusters.slotsPerCluster →
      ∀ maxEntries, ListSame (listCluster v₁ maxEntries fuel₁ first₁ [])
        (listCluster v₂ maxEntries fuel₂ first₂ []) m₁ m₂ := by
    intro hsame maxEntries
    rw [hrun, hiff.2 hsame]
  have hone : ∀ maxEntries, (placed 0 items).length ≤ maxEntries →
      (ListSame (listCluster v₁ maxEntries fuel₁ first₁ [])
          (listCluster v₂ maxEntries fuel₂ first₂ []) m₁ m₂
        ↔ SameCuts items v₁.clusters.slotsPerCluster v₂.clusters.slotsPerCluster) := by
    intro maxEntries hle
    rw [hrun, List.take_of_length_le ((length_fitting_le _ items).trans hle),
      List.take_of_length_le ((length_fitting_le _ items).trans hle), hiff]
  refine ⟨⟨fun hall => ?_, fun hsame maxEntries _ => hsuff hsame maxEntries⟩, hsuff, hone⟩
  exact (hone items.length (length_placed_le 0 items)).1 (hall items.length le_rfl)

section Sample

/-- The slot of the allocation bitmap. -/
def bitmapSlot : Buf := fun j => if j = 0 then 0x81 else 0

/-- The entry set of a file `a`. -/
def cutSet : EntrySet where
  file := fun j => if j = 0 then 0x85 else if j = 1 then 2 else 0
  stream := fun j => if j = 0 then 0xC0 else if j = 3 then 1 else 0
  names := [fun j => if j = 0 then 0xC1 else if j = 2 then 97 else 0]
  file_type := rfl
  count := rfl
  stream_type := rfl
  names_type := by decide

/-- The set behind `k` other slots. -/
def cutItems (k : ℕ) : List Item :=
  List.replicate k (.single bitmapSlot (by decide)) ++ [.set cutSet]

/-- A volume with clusters of `n` sectors. -/
def cutVolume (n : ℕ) : ExfatVolume := ⟨⟨0x07, 0, 100⟩, 1, 2, 2, 10, n⟩

/-- The slots from cluster 2 on, with cluster 3 behind cluster 2 or not. -/
def cutMedium (two : Bool) (S : List Buf) : Medium where
  byte a :=
    if a < 1024 then
      if two ∧ 520 ≤ a ∧ a < 524 then if a = 520 then 3 else 0
      else if 520 ≤ a ∧ a < 528 then 0xFF else 0
    else flat S (a - 1024)
  bad _ := false

theorem listCluster_cuts_iff_thirteen :
    ListSame (listCluster (cutVolume 1) 64 3 2 []) (listCluster (cutVolume 2) 64 3 2 [])
      (cutMedium true ((cutItems 13).flatMap Item.slots))
      (cutMedium false ((cutItems 13).flatMap Item.slots)) := by
  have h₁ : (cutVolume 1).clusters.Stores (cutMedium true ((cutItems 13).flatMap Item.slots)) 2 2
      ((cutItems 13).flatMap Item.slots) :=
    ⟨⟨by decide +kernel, fun _ _ _ _ => rfl, by decide +kernel⟩, by decide +kernel,
      by decide +kernel⟩
  have h₂ : (cutVolume 2).clusters.Stores (cutMedium false ((cutItems 13).flatMap Item.slots)) 2 1
      ((cutItems 13).flatMap Item.slots) :=
    ⟨⟨by decide +kernel, fun _ _ _ _ => rfl, by decide +kernel⟩, by decide +kernel,
      by decide +kernel⟩
  refine (listCluster_cuts_iff ⟨0, by decide, rfl⟩ ⟨1, by decide, rfl⟩ h₁ h₂ (by decide)
    (by decide)).2.1 (fun q hq => ?_) 64
  obtain rfl : q = (13, cutSet) := List.mem_singleton.1 hq
  decide

/-- A set that starts at slot 14 is not listed with clusters of one sector, and is with clusters of
two sectors. -/
theorem cut_set_lost :
    (cutVolume 1).clusters.Stores (cutMedium true ((cutItems 14).flatMap Item.slots)) 2 2
      ((cutItems 14).flatMap Item.slots) ∧
    (cutVolume 2).clusters.Stores (cutMedium false ((cutItems 14).flatMap Item.slots)) 2 1
      ((cutItems 14).flatMap Item.slots) ∧
    (listCluster (cutVolume 1) 64 3 2 []).run
      (cutMedium true ((cutItems 14).flatMap Item.slots)).read = some [] ∧
    (listCluster (cutVolume 2) 64 3 2 []).run
      (cutMedium false ((cutItems 14).flatMap Item.slots)).read = some [⟨[97], 0, 0, 0⟩] := by
  refine ⟨⟨⟨?_, fun _ _ _ _ => rfl, ?_⟩, ?_, ?_⟩, ⟨⟨?_, fun _ _ _ _ => rfl, ?_⟩, ?_, ?_⟩, ?_, ?_⟩
  all_goals decide +kernel

end Sample

end Exfat

end PeanutKernel
