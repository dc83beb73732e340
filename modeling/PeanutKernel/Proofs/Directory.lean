import PeanutKernel.Lib.Collect
import PeanutKernel.Path
import PeanutKernel.Proofs.Cluster

/-!
# Directories in chains of clusters

A directory is a sequence of slots of 32 bytes. In a chain of clusters they follow each other from
cluster to cluster (`slotAt`), and the listing loops of both drivers are loops along the links of
the chain (`links`) that see one cluster at a time.
-/

namespace PeanutKernel

/-- Slots with the same 32 bytes. -/
def SameSlot (raw raw' : Buf) : Prop := ∀ j < 32, raw j = raw' j

instance (raw raw' : Buf) : Decidable (SameSlot raw raw') :=
  inferInstanceAs (Decidable (∀ j < 32, raw j = raw' j))

theorem SameSlot.le16 {raw raw' : Buf} (h : SameSlot raw raw') {off : ℕ} (hoff : off < 31) :
    le16 raw off = le16 raw' off := by
  rw [PeanutKernel.le16, PeanutKernel.le16, h off (by omega), h (off + 1) (by omega)]

/-- The slots of a buffer. -/
def bufSlot (buf : Buf) (i : ℕ) : Buf := fun j => buf (32 * i + j)

/-- The slots of a directory, with zero slots behind the last. -/
def padded (S : List Buf) (i : ℕ) : Buf := S.getD i fun _ => 0

theorem padded_map_range (f : ℕ → Buf) {n i : ℕ} (hi : i < n) :
    padded ((List.range n).map f) i = f i := by
  simp [padded, hi]

theorem streqCi_length : ∀ {a b : List UInt8}, streqCi a b = true → a.length = b.length
  | [], [], _ => rfl
  | _ :: as, _ :: bs, h => by
    rw [streqCi, Bool.and_eq_true] at h
    rw [List.length_cons, List.length_cons, streqCi_length h.2]

/-- Both programs return, and with the same list. -/
def ListSame {E : Type} (prog₁ prog₂ : BlockM (List E)) (m₁ m₂ : Medium) : Prop :=
  ∃ entries, prog₁.run m₁.read = some entries ∧ prog₂.run m₂.read = some entries

theorem listSame_iff {E : Type} {prog₁ prog₂ : BlockM (List E)} {m₁ m₂ : Medium} {l₁ l₂ : List E}
    (h₁ : prog₁.run m₁.read = some l₁) (h₂ : prog₂.run m₂.read = some l₂) :
    ListSame prog₁ prog₂ m₁ m₂ ↔ l₁ = l₂ := by
  rw [ListSame, h₁, h₂]
  constructor
  · rintro ⟨entries, h, h'⟩
    rw [Option.some_inj] at h h'
    rw [h, h']
  · intro heq
    exact ⟨l₁, rfl, by rw [heq]⟩

namespace ClusterMap

variable (V : ClusterMap)

def slotsPerCluster : ℕ := V.sectorsPerCluster * 16

/-- The slots of a directory, along its chain. -/
def slotAt (m : Medium) (first i : ℕ) : Buf := fun j =>
  V.clusterBuf m (V.chainAt m first (i / V.slotsPerCluster)) (32 * (i % V.slotsPerCluster) + j)

instance (c : ℕ) : Decidable (V.Usable c) := inferInstanceAs (Decidable (_ ∧ _))

/-- The clusters of a chain before its number `K` can be read, and there the chain ends. -/
structure ReadableChain (m : Medium) (first K : ℕ) : Prop where
  usable : ∀ k < K, V.Usable (V.chainAt m first k)
  readable : ∀ k < K, ∀ s, V.InCluster (V.chainAt m first k) s → m.bad s = false
  ends : V.enters (V.chainAt m first K) = false

/-- A chain of `K` clusters stores the slots, padded with zero slots. -/
structure Stores (m : Medium) (first K : ℕ) (S : List Buf) : Prop where
  chain : V.ReadableChain m first K
  room : S.length ≤ K * V.slotsPerCluster
  slots : ∀ i < K * V.slotsPerCluster, SameSlot (V.slotAt m first i) (padded S i)

/-- A chain as a loop follows it that makes `view buf` of a cluster. -/
def links {E : Type} (m : Medium) (view : Buf → List E × Bool) : Links ℕ E where
  enters := V.enters
  view c := (((V.readCluster c).run m.read).getD none).map view
  next := V.nextAt m

variable {V} {m : Medium} {E : Type}

theorem slotsPerCluster_pos (hV : V.Sound) : 0 < V.slotsPerCluster := by
  have := hV.pos
  unfold slotsPerCluster
  omega

theorem slotAt_first (first : ℕ) {r : ℕ} (hr : r < V.slotsPerCluster) :
    V.slotAt m first r = bufSlot (V.clusterBuf m first) r := by
  unfold slotAt bufSlot
  rw [Nat.div_eq_of_lt hr, Nat.mod_eq_of_lt hr]
  rfl

theorem slotAt_next (hV : V.Sound) (first r : ℕ) :
    V.slotAt m first (V.slotsPerCluster + r) = V.slotAt m (V.nextAt m first) r := by
  unfold slotAt
  rw [Nat.add_div_left _ (slotsPerCluster_pos hV), Nat.add_mod_left, chainAt_next]

variable {first : ℕ}

theorem ReadableChain.next {K : ℕ} (h : V.ReadableChain m first (K + 1)) :
    V.ReadableChain m (V.nextAt m first) K := by
  refine ⟨fun k hk => ?_, fun k hk => ?_, ?_⟩
  · rw [chainAt_next]
    exact h.usable (k + 1) (by omega)
  · rw [chainAt_next]
    exact h.readable (k + 1) (by omega)
  · rw [chainAt_next]
    exact h.ends

theorem ReadableChain.enters {K : ℕ} (h : V.ReadableChain m first (K + 1)) :
    V.enters first = true :=
  (h.usable 0 (Nat.succ_pos K)).1

theorem ReadableChain.view (hV : V.Sound) {K : ℕ} (h : V.ReadableChain m first (K + 1))
    (view : Buf → List E × Bool) :
    (V.links m view).view first = some (view (V.clusterBuf m first)) := by
  have hread : (V.readCluster first).run m.read = some (some (V.clusterBuf m first)) :=
    readCluster_of_sectors hV (h.usable 0 (Nat.succ_pos K)).2 (h.readable 0 (Nat.succ_pos K))
  simp only [links, hread, Option.getD_some, Option.map_some]

/-- A chain with an end, on a medium that reads well, up to its first end. -/
theorem exists_readableChain (hm : m.Good) {K : ℕ} (huse : ∀ c, V.enters c = true → V.Usable c)
    (hend : V.enters (V.chainAt m first K) = false) : ∃ K' ≤ K, V.ReadableChain m first K' := by
  have hex : ∃ k, V.enters (V.chainAt m first k) = false := ⟨K, hend⟩
  refine ⟨Nat.find hex, Nat.find_min' hex hend, fun k hk => huse _ ?_, fun _ _ s _ => hm s,
    Nat.find_spec hex⟩
  exact Bool.not_eq_false _ ▸ Nat.find_min hex hk

end ClusterMap

end PeanutKernel
