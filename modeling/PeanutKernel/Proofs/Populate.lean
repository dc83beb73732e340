import PeanutKernel.Proofs.ExfatImage
import PeanutKernel.Proofs.Exfat
import Mathlib.Data.List.Nodup
import Mathlib.Data.List.TakeWhile
import Mathlib.Tactic.IntervalCases

/-!
# What the builder leaves on a volume

The builder takes the free clusters in order: each allocation takes some from the front of the list
of free clusters and leaves the rest (`writeDir_spec`, `writeFile_spec`). A file lies in a chain of
them, and a directory in one cluster (`DirBytes`), to which `append_entries` adds one entry set
after another.
-/

namespace PeanutKernel

namespace Populate

variable {lay : Layout} {boot : Buf} {im im' : Image} {vol vol' vol'' : Volume}

section Frame

/-- The volume has changed at most in the clusters of `l`. -/
def Keeps (l : List ℕ) (vol vol' : Volume) : Prop :=
  ∀ c, c ∉ l → vol'.fat c = vol.fat c ∧ vol'.data c = vol.data c

theorem Keeps.trans {l l' : List ℕ} (h : Keeps l vol vol') (h' : Keeps l' vol' vol'') :
    Keeps (l ++ l') vol vol'' := by
  intro c hc
  rw [List.mem_append, not_or] at hc
  exact ⟨(h' c hc.2).1.trans (h c hc.1).1, (h' c hc.2).2.trans (h c hc.1).2⟩

theorem Keeps.mono {l l' : List ℕ} (h : Keeps l vol vol') (hl : ∀ c ∈ l, c ∈ l') :
    Keeps l' vol vol' := fun c hc => h c fun hmem => hc (hl c hmem)

theorem keeps_store (vol : Volume) (c o : ℕ) (l : List UInt8) :
    Keeps [c] vol (vol.store c o l) := fun _ hd =>
  ⟨rfl, store_data_of_ne _ _ _ (by simpa using hd)⟩

end Frame

section Allocation

def freeClusters (lay : Layout) (vol : Volume) (reserved : List ℕ) : List ℕ :=
  (List.range' 2 lay.clusterCount).filter fun c => c ∉ reserved ∧ vol.fat c = 0

variable {reserved : List ℕ}

theorem mem_freeClusters {c : ℕ} :
    c ∈ freeClusters lay vol reserved ↔ lay.Has c ∧ c ∉ reserved ∧ vol.fat c = 0 := by
  rw [freeClusters, List.mem_filter, List.mem_range'_1, decide_eq_true_iff, Nat.add_comm 2]
  rfl

theorem nodup_freeClusters (lay : Layout) (vol : Volume) (reserved : List ℕ) :
    (freeClusters lay vol reserved).Nodup := List.Nodup.filter _ List.nodup_range'

theorem findLoop_some (h : Shows lay boot im vol) {count : ℕ} {reserved : List ℕ} :
    ∀ (cs found l : List ℕ), (∀ c ∈ cs, lay.Has c) → found.length < count →
      findLoop im lay count reserved cs found = some l →
      ∃ taken rest, cs.filter (fun c => c ∉ reserved ∧ vol.fat c = 0) = taken ++ rest ∧
        l = found ++ taken ∧ l.length = count
  | [], _, _, _, _, hl => by simp [findLoop] at hl
  | c :: cs, found, l, hcs, hlt, hl => by
    have hcs' : ∀ d ∈ cs, lay.Has d := fun d hd => hcs d (List.mem_cons_of_mem _ hd)
    rw [findLoop, h.readU32 (hcs c List.mem_cons_self)] at hl
    by_cases hc : c ∉ reserved ∧ vol.fat c = 0
    · rw [List.filter_cons_of_pos (by simpa using hc)]
      simp only [if_neg hc.1, if_pos hc.2] at hl
      split_ifs at hl with hfull
      · cases hl
        exact ⟨[c], _, rfl, rfl, by simpa using hfull⟩
      · obtain ⟨taken, rest, hfil, rfl, hlen⟩ := findLoop_some h cs _ l hcs'
          (by rw [List.length_append, List.length_singleton]; omega) hl
        exact ⟨c :: taken, rest, by rw [hfil, List.cons_append], by simp, hlen⟩
    · rw [List.filter_cons_of_neg (by simpa using hc)]
      refine findLoop_some h cs found l hcs' hlt ?_
      simp only at hl
      split_ifs at hl with hmem hfree
      · exact hl
      · exact absurd ⟨hmem, hfree⟩ hc
      · exact absurd ⟨hmem, hfree⟩ hc
      · exact hl

/-- What `find_free_clusters` returns are the first free clusters. -/
theorem findFreeClusters_some (h : Shows lay boot im vol) {count : ℕ} {l : List ℕ}
    (hcount : 0 < count) (hl : findFreeClusters im lay count reserved = some l) :
    l.length = count ∧ ∃ rest, freeClusters lay vol reserved = l ++ rest := by
  have hhas : ∀ c ∈ List.range' 2 lay.clusterCount, lay.Has c := by
    intro c hc
    rw [List.mem_range'_1] at hc
    exact ⟨hc.1, by omega⟩
  obtain ⟨taken, rest, hfil, rfl, hlen⟩ := findLoop_some h _ [] l hhas hcount hl
  exact ⟨hlen, rest, hfil⟩

/-- Once the clusters taken are marked in the FAT, the others are free as before. -/
theorem freeClusters_rest {l rest : List ℕ} (hfree : freeClusters lay vol reserved = l ++ rest)
    (hkeep : Keeps l vol vol') : freeClusters lay vol' (reserved ++ l) = rest := by
  have hnodup := nodup_freeClusters lay vol reserved
  rw [hfree] at hnodup
  have hdisj := List.disjoint_of_nodup_append hnodup
  calc freeClusters lay vol' (reserved ++ l)
      = (freeClusters lay vol reserved).filter (· ∉ l) := by
        rw [freeClusters, freeClusters, List.filter_filter]
        refine List.filter_congr fun c _ => ?_
        rw [← Bool.decide_and, decide_eq_decide, List.mem_append, not_or]
        constructor
        · rintro ⟨⟨hr, hl⟩, hf⟩
          exact ⟨hl, hr, (hkeep c hl).1 ▸ hf⟩
        · rintro ⟨hl, hr, hf⟩
          exact ⟨⟨hr, hl⟩, ((hkeep c hl).1).trans hf⟩
    _ = rest := by
        rw [hfree, List.filter_append, List.filter_eq_nil_iff.2 (by simp), List.nil_append,
          List.filter_eq_self.2]
        exact fun c hc => decide_eq_true fun hl => hdisj hl hc

end Allocation

section Chains

/-- The volume with a chain in its FAT. -/
def Volume.chain : List ℕ → Volume → Volume
  | [], vol => vol
  | [c], vol => vol.link c eoc
  | c :: d :: rest, vol => chain (d :: rest) (vol.link c d)

/-- The volume with data in the clusters of a list. -/
def Volume.chunks (bytes : ℕ) : List ℕ → List UInt8 → Volume → Volume
  | [], _, vol => vol
  | c :: rest, data, vol =>
    chunks bytes rest (data.drop bytes)
      (vol.store c 0 (data.take bytes ++ List.replicate (bytes - (data.take bytes).length) 0))

theorem Shows.setChain : ∀ (l : List ℕ) {im : Image} {vol : Volume}, Shows lay boot im vol →
    (∀ c ∈ l, lay.Has c) → setChain lay l im = some im' → Shows lay boot im' (vol.chain l)
  | [], _, _, h, _, hs => by
    cases hs
    exact h
  | [c], _, _, h, hhas, hs => h.writeU32 (hhas c List.mem_cons_self) hs
  | c :: d :: rest, _, _, h, hhas, hs => by
    obtain ⟨im₁, hw, hs⟩ := Option.bind_eq_some_iff.1 hs
    exact Shows.setChain (d :: rest) (h.writeU32 (hhas c List.mem_cons_self) hw)
      (fun e he => hhas e (List.mem_cons_of_mem _ he)) hs

theorem chain_data : ∀ (l : List ℕ) (vol : Volume), (vol.chain l).data = vol.data
  | [], _ => rfl
  | [_], _ => rfl
  | c :: d :: rest, vol => chain_data (d :: rest) (vol.link c d)

theorem chain_fat_of_not_mem {c : ℕ} : ∀ (l : List ℕ) (vol : Volume), c ∉ l →
    (vol.chain l).fat c = vol.fat c
  | [], _, _ => rfl
  | [d], vol, h => link_fat_of_ne vol _ (by simpa using h)
  | d :: e :: rest, vol, h => by
    rw [List.mem_cons, not_or] at h
    rw [Volume.chain, chain_fat_of_not_mem (e :: rest) _ h.2, link_fat_of_ne _ _ h.1]

/-- Each cluster of the chain leads to the next. -/
theorem chain_fat : ∀ (l : List ℕ) (vol : Volume), l.Nodup → ∀ i (hi : i < l.length),
    (vol.chain l).fat l[i] = l.getD (i + 1) eoc
  | [], _, _, _, hi => absurd hi (Nat.not_lt_zero _)
  | [c], vol, _, i, hi => by
    obtain rfl : i = 0 := by simpa using hi
    exact link_fat_self vol c eoc
  | c :: d :: rest, vol, hnd, i, hi => by
    rw [List.nodup_cons] at hnd
    rcases i with _ | i
    · rw [Volume.chain, List.getElem_cons_zero, chain_fat_of_not_mem _ _ hnd.1, link_fat_self]
      rfl
    · rw [Volume.chain, List.getElem_cons_succ, chain_fat (d :: rest) _ hnd.2]
      rfl

theorem Shows.storeChunks : ∀ (l : List ℕ) (data : List UInt8) {im : Image} {vol : Volume},
    Shows lay boot im vol → (∀ c ∈ l, lay.Has c) →
    Shows lay boot (storeChunks lay l data im) (vol.chunks (clusterBytes lay) l data)
  | [], _, _, _, h, _ => h
  | c :: rest, data, _, _, h, hhas => by
    have hslice := h.setSlice (o := 0)
      (l := data.take (clusterBytes lay)
        ++ List.replicate (clusterBytes lay - (data.take (clusterBytes lay)).length) 0)
      (hhas c List.mem_cons_self) (by simp)
    rw [Nat.add_zero] at hslice
    rw [Populate.storeChunks, Volume.chunks]
    exact Shows.storeChunks rest _ hslice fun d hd => hhas d (List.mem_cons_of_mem _ hd)

theorem chunks_fat {bytes : ℕ} : ∀ (l : List ℕ) (data : List UInt8) (vol : Volume),
    (vol.chunks bytes l data).fat = vol.fat
  | [], _, _ => rfl
  | c :: rest, data, vol => chunks_fat rest (data.drop bytes) (vol.store c 0 _)

theorem chunks_data_of_not_mem {bytes c : ℕ} : ∀ (l : List ℕ) (data : List UInt8) (vol : Volume),
    c ∉ l → (vol.chunks bytes l data).data c = vol.data c
  | [], _, _, _ => rfl
  | d :: rest, data, vol, h => by
    rw [List.mem_cons, not_or] at h
    rw [Volume.chunks, chunks_data_of_not_mem rest _ _ h.2, store_data_of_ne _ _ _ h.1]

/-- The bytes of the data in the clusters of the list. -/
theorem chunks_data {bytes : ℕ} : ∀ (l : List ℕ) (data : List UInt8) (vol : Volume), l.Nodup →
    ∀ i (hi : i < l.length), ∀ r < bytes,
      (vol.chunks bytes l data).data l[i] r = data.getD (i * bytes + r) 0
  | [], _, _, _, _, hi, _, _ => absurd hi (Nat.not_lt_zero _)
  | c :: rest, data, vol, hnd, i, hi, r, hr => by
    rw [List.nodup_cons] at hnd
    rcases i with _ | i
    · rw [Volume.chunks, List.getElem_cons_zero, chunks_data_of_not_mem _ _ _ hnd.1,
        store_data_self, Nat.zero_mul, storeBytes, overlay, if_pos ⟨Nat.zero_le _, by simp; omega⟩]
      simp only [List.getD_eq_getElem?_getD, Nat.sub_zero, Nat.zero_add]
      by_cases hdata : r < data.length
      · rw [List.getElem?_append_left (by rw [List.length_take]; omega),
          List.getElem?_take_of_lt hr]
      · rw [List.getElem?_append_right (by rw [List.length_take]; omega), List.getElem?_replicate,
          List.getElem?_eq_none (by omega)]
        split_ifs <;> rfl
    · rw [Volume.chunks, List.getElem_cons_succ, chunks_data rest _ _ hnd.2 i _ r hr]
      simp only [List.getD_eq_getElem?_getD, List.getElem?_drop, Nat.succ_mul]
      congr 2
      omega

end Chains

section Files

/-- The file with contents `data` lies in the clusters `l`, the rest of the last one zero. -/
structure HoldsFile (lay : Layout) (vol : Volume) (l : List ℕ) (data : List UInt8) : Prop where
  linked : ∀ i (hi : i < l.length), vol.fat l[i] = l.getD (i + 1) eoc
  bytes : ∀ i (hi : i < l.length), ∀ r < clusterBytes lay,
    vol.data l[i] r = data.getD (i * clusterBytes lay + r) 0
  room : data.length ≤ l.length * clusterBytes lay

theorem HoldsFile.keep {l l' : List ℕ} {data : List UInt8} (h : HoldsFile lay vol l data)
    (hkeep : Keeps l' vol vol') (hdisj : ∀ c ∈ l, c ∉ l') : HoldsFile lay vol' l data := by
  refine ⟨fun i hi => ?_, fun i hi r hr => ?_, h.room⟩
  · rw [(hkeep _ (hdisj _ (List.getElem_mem hi))).1, h.linked i hi]
  · rw [(hkeep _ (hdisj _ (List.getElem_mem hi))).2, h.bytes i hi r hr]

variable {reserved : List ℕ}

/-- Storing data in the first free clusters. -/
theorem alloc_spec (h : Shows lay boot im vol) {count : ℕ} {l : List ℕ} (data : List UInt8)
    (hcount : 0 < count) (hroom : data.length ≤ count * clusterBytes lay)
    (hfind : findFreeClusters im lay count reserved = some l)
    (hchain : setChain lay l im = some im') :
    l.length = count ∧ ∃ vol', Shows lay boot (storeChunks lay l data im') vol' ∧
      freeClusters lay vol reserved = l ++ freeClusters lay vol' (reserved ++ l) ∧
      Keeps l vol vol' ∧ HoldsFile lay vol' l data := by
  obtain ⟨hlen, rest, hfree⟩ := findFreeClusters_some h hcount hfind
  have hmem : ∀ c ∈ l, lay.Has c := fun c hc =>
    (mem_freeClusters.1 (hfree ▸ List.mem_append_left rest hc)).1
  have hnodup : l.Nodup := by
    have := nodup_freeClusters lay vol reserved
    rw [hfree] at this
    exact this.of_append_left
  have hkeep : Keeps l vol ((vol.chain l).chunks (clusterBytes lay) l data) := by
    intro c hc
    rw [chunks_fat, chain_fat_of_not_mem l vol hc, chunks_data_of_not_mem l _ _ hc, chain_data]
    exact ⟨rfl, rfl⟩
  refine ⟨hlen, _, (h.setChain l hmem hchain).storeChunks l data hmem, ?_, hkeep, ?_, ?_, ?_⟩
  · rw [freeClusters_rest hfree hkeep, hfree]
  · intro i hi
    rw [chunks_fat, chain_fat l vol hnodup i hi]
  · exact fun i hi r hr => chunks_data l data _ hnodup i hi r hr
  · rw [hlen]
    exact hroom

/-- The number of clusters `write_file` asks for. -/
def clustersNeeded (lay : Layout) (size : ℕ) : ℕ :=
  max 1 ((size + clusterBytes lay - 1) / clusterBytes lay)

theorem writeFile_spec (h : Shows lay boot im vol) {data : List UInt8} {reserved' : List ℕ}
    {first size : ℕ} (hw : writeFile lay data im reserved = some (im', reserved', first, size)) :
    size = data.length ∧ ∃ l vol', l.length = clustersNeeded lay data.length ∧
      l.head? = some first ∧ Shows lay boot im' vol' ∧
      freeClusters lay vol reserved = l ++ freeClusters lay vol' reserved' ∧
      Keeps l vol vol' ∧ HoldsFile lay vol' l data := by
  simp only [writeFile, Option.bind_eq_bind, Option.bind_eq_some_iff, Option.pure_def,
    Option.some.injEq, Prod.mk.injEq] at hw
  obtain ⟨l, hfind, im₁, hchain, first', hhead, rfl, rfl, rfl, rfl⟩ := hw
  have hcb := clusterBytes_pos h.fits
  have hroom : data.length ≤ clustersNeeded lay data.length * clusterBytes lay := by
    have hlt := Nat.lt_div_mul_add (a := data.length + clusterBytes lay - 1) hcb
    have hle := Nat.mul_le_mul_right (clusterBytes lay) (Nat.le_max_right 1
      ((data.length + clusterBytes lay - 1) / clusterBytes lay))
    unfold clustersNeeded
    omega
  have hneeded : 0 < clustersNeeded lay data.length := Nat.le_max_left 1 _
  obtain ⟨hlen, vol', hshows, hfree, hkeep, hfile⟩ := alloc_spec h data hneeded hroom hfind hchain
  exact ⟨rfl, l, vol', hlen, hhead, hshows, hfree, hkeep, hfile⟩

theorem clustersNeeded_one {size : ℕ} (h : size ≤ clusterBytes lay) :
    clustersNeeded lay size = 1 := by
  unfold clustersNeeded
  obtain hz | hpos := Nat.eq_zero_or_pos (clusterBytes lay)
  · rw [hz, Nat.div_zero]
    rfl
  · have : (size + clusterBytes lay - 1) / clusterBytes lay < 2 := by
      rw [Nat.div_lt_iff_lt_mul hpos]
      omega
    omega

theorem writeDir_spec (h : Shows lay boot im vol) {reserved' : List ℕ} {c : ℕ}
    (hw : writeDir lay im reserved = some (im', reserved', c)) :
    ∃ vol', Shows lay boot im' vol' ∧
      freeClusters lay vol reserved = c :: freeClusters lay vol' reserved' ∧
      Keeps [c] vol vol' ∧ HoldsFile lay vol' [c] [] := by
  simp only [writeDir, Option.bind_eq_bind, Option.bind_eq_some_iff, Option.pure_def,
    Option.some.injEq, Prod.mk.injEq] at hw
  obtain ⟨l, hfind, c', hhead, im₁, hchain, rfl, rfl, rfl⟩ := hw
  obtain ⟨hlen, -⟩ := findFreeClusters_some h Nat.one_pos hfind
  obtain ⟨d, rfl⟩ := List.length_eq_one_iff.1 hlen
  obtain rfl : d = c' := by simpa using hhead
  obtain ⟨-, vol', hshows, hrest⟩ :=
    alloc_spec h [] Nat.one_pos (Nat.zero_le _) hfind hchain
  refine ⟨vol', ?_, hrest⟩
  simpa [storeChunks] using hshows

end Files

section Entries

variable {e : Exfat.ExfatDirEntry} {buf : Buf} {off bytes : ℕ}

/-- The numbers of the entry fit their fields and its name fits one name entry. -/
structure Encodable (e : Exfat.ExfatDirEntry) : Prop where
  first : e.firstCluster < 2 ^ 32
  size : e.size < 2 ^ 64
  short : e.name.length ≤ 15
  ascii : ∀ c ∈ e.name, 0 < c.toNat ∧ c.toNat < 128

def setOf (e : Exfat.ExfatDirEntry) : List UInt8 :=
  setBytes e.name e.attributes e.firstCluster e.size

/-- The entry set stands at `off` of the buffer. -/
def HoldsSet (buf : Buf) (off : ℕ) (e : Exfat.ExfatDirEntry) : Prop :=
  ∀ j < 96, buf (off + j) = (setOf e).getD j 0

theorem length_setOf (h : e.name.length ≤ 15) : (setOf e).length = 96 := by
  simp [setOf, setBytes, le16Bytes, le32Bytes, le64Bytes]
  omega

/-- The stream entry up to the number of its first cluster. -/
def streamHead (e : Exfat.ExfatDirEntry) : List UInt8 :=
  [0xC0, 0x03, 0, UInt8.ofNat e.name.length] ++ List.replicate 16 0

/-- The characters in a name entry. -/
def nameField (e : Exfat.ExfatDirEntry) : List UInt8 :=
  (e.name.take 15).flatMap (fun c => le16Bytes c.toNat)
    ++ List.replicate (30 - 2 * (e.name.take 15).length) 0

theorem setOf_eq (e : Exfat.ExfatDirEntry) :
    setOf e = ([0x85, 2, 0, 0, e.attributes, 0] ++ List.replicate 26 0) ++ (streamHead e ++
      (le32Bytes e.firstCluster ++ (le64Bytes e.size ++ ([0xC1, 0] ++ nameField e)))) := by
  simp only [setOf, setBytes, streamHead, nameField, List.append_assoc]

theorem getD_behind {pre l : List UInt8} {n : ℕ} (hpre : pre.length = n) (i : ℕ) :
    (pre ++ l).getD (n + i) 0 = l.getD i 0 := by
  subst hpre
  rw [List.getD_append_right _ _ _ _ (Nat.le_add_right ..), Nat.add_sub_cancel_left]

theorem getD_piece {pre l post : List UInt8} {n i : ℕ} (hpre : pre.length = n) (hi : i < l.length) :
    (pre ++ (l ++ post)).getD (n + i) 0 = l.getD i 0 := by
  rw [getD_behind hpre, List.getD_append _ _ _ _ hi]

theorem HoldsSet.streamHead (h : HoldsSet buf off e) {i : ℕ} (hi : i < 20) :
    buf (off + (32 + i)) = (streamHead e).getD i 0 := by
  rw [h _ (by omega), setOf_eq]
  exact getD_piece rfl hi

theorem HoldsSet.file (h : HoldsSet buf off e) : buf off = Exfat.entryFile := h 0 (by omega)

theorem HoldsSet.secondary (h : HoldsSet buf off e) : buf (off + 1) = 2 := h 1 (by omega)

theorem le64_le64Bytes {v : ℕ} (hv : v < 2 ^ 64)
    (h : ∀ i < 8, buf (off + i) = (le64Bytes v).getD i 0) : le64 buf off = v := by
  have hlow : le32 buf off = v % 2 ^ 32 := by
    refine le32_le32Bytes fun i hi => ?_
    rw [h i (by omega), le64Bytes, List.getD_append _ _ _ _ (by rw [length_le32Bytes]; omega)]
  have hhigh : le32 buf (off + 4) = v / 2 ^ 32 % 2 ^ 32 := by
    refine le32_le32Bytes fun i hi => ?_
    rw [Nat.add_assoc, h (4 + i) (by omega), le64Bytes,
      List.getD_append_right _ _ _ _ (by rw [length_le32Bytes]; omega), length_le32Bytes,
      Nat.add_sub_cancel_left]
  rw [le64, hlow, hhigh]
  omega

theorem HoldsSet.firstCluster (h : HoldsSet buf off e) (he : Encodable e) :
    le32 buf (off + 32 + 20) = e.firstCluster := by
  rw [← Nat.mod_eq_of_lt he.first]
  refine le32_le32Bytes fun i hi => ?_
  rw [show off + 32 + 20 + i = off + (52 + i) by omega, h _ (by omega), setOf_eq,
    ← List.append_assoc]
  exact getD_piece rfl hi

theorem HoldsSet.size (h : HoldsSet buf off e) (he : Encodable e) :
    le64 buf (off + 32 + 24) = e.size := by
  refine le64_le64Bytes he.size fun i hi => ?_
  rw [show off + 32 + 24 + i = off + (56 + i) by omega, h _ (by omega), setOf_eq,
    ← List.append_assoc, ← List.append_assoc]
  exact getD_piece rfl hi

/-- The name entry. -/
theorem HoldsSet.nameEntry (h : HoldsSet buf off e) {i : ℕ} (hi : i < 32) :
    buf (off + (64 + i)) = ([0xC1, 0] ++ nameField e).getD i 0 := by
  rw [h _ (by omega), setOf_eq, ← List.append_assoc, ← List.append_assoc, ← List.append_assoc]
  exact getD_behind rfl i

theorem getD_flatMap_le16 (rest : List UInt8) :
    ∀ (name : List UInt8) (k : ℕ) (hk : k < name.length),
      (name.flatMap (fun c => le16Bytes c.toNat) ++ rest).getD (2 * k) 0 = name[k] ∧
        (name.flatMap (fun c => le16Bytes c.toNat) ++ rest).getD (2 * k + 1) 0 = 0
  | [], _, hk => absurd hk (Nat.not_lt_zero _)
  | c :: name, k, hk => by
    rcases k with _ | k
    · refine ⟨UInt8.ofNat_toNat, ?_⟩
      have := c.toNat_lt
      show UInt8.ofNat (c.toNat / 2 ^ 8) = 0
      rw [Nat.div_eq_of_lt this]
      rfl
    · exact getD_flatMap_le16 rest name k (by simpa using hk)

theorem HoldsSet.units (h : HoldsSet buf off e) (he : Encodable e) :
    (List.range e.name.length).map (fun k => le16 buf (off + 32 * 2 + 2 + k * 2))
      = e.name.map UInt8.toNat := by
  have hshort := he.short
  refine List.ext_getElem (by simp) fun k hk hk' => ?_
  rw [List.length_map] at hk'
  have hlt : k < (e.name.take 15).length := by
    rw [List.length_take]
    omega
  obtain ⟨hlow, hhigh⟩ :=
    getD_flatMap_le16 (List.replicate (30 - 2 * (e.name.take 15).length) 0) _ k hlt
  have h0 := (h.nameEntry (i := 2 * k + 2) (by omega)).trans hlow
  have h1 := (h.nameEntry (i := 2 * k + 1 + 2) (by omega)).trans hhigh
  simp only [List.getElem_map, List.getElem_range, le16]
  rw [show off + 32 * 2 + 2 + k * 2 = off + (64 + (2 * k + 2)) by omega, h0,
    show off + (64 + (2 * k + 2)) + 1 = off + (64 + (2 * k + 1 + 2)) by omega, h1,
    List.getElem_take]
  rfl

theorem HoldsSet.nameLoop (h : HoldsSet buf off e) (he : Encodable e) (hb : off + 96 ≤ bytes) :
    Exfat.nameLoop buf bytes off e.name.length 1 2 [] = e.name.map UInt8.toNat := by
  have hshort := he.short
  have hentry : buf (off + 32 * 2) = Exfat.entryFilename := h.nameEntry (i := 0) (by omega)
  have hmin : min 15 (min e.name.length (Exfat.maxName - 1) - 0) = e.name.length := by
    simp only [Exfat.maxName]
    omega
  rw [Exfat.nameLoop, List.length_nil]
  by_cases hne : 0 < e.name.length ∧ 0 < Exfat.maxName
  · rw [if_pos hne, if_neg (by omega), if_neg (not_not.2 hentry), Exfat.nameLoop, hmin,
      List.nil_append, h.units he]
  · rw [if_neg hne]
    simp only [Exfat.maxName] at hne
    rw [List.length_eq_zero_iff.1 (by omega : e.name.length = 0)]
    rfl

theorem Encodable.name (he : Encodable e) :
    cstr (((e.name.map UInt8.toNat).take (Exfat.maxName - 1)).map Exfat.nameByte) = e.name := by
  have hshort := he.short
  have hbyte : ∀ c ∈ e.name, (Exfat.nameByte ∘ UInt8.toNat) c = id c := by
    intro c hc
    rw [Function.comp_apply, Exfat.nameByte, if_pos (he.ascii c hc).2, UInt8.ofNat_toNat]
    rfl
  rw [List.take_of_length_le (by simp only [List.length_map, Exfat.maxName]; omega),
    List.map_map, List.map_congr_left hbyte, List.map_id, cstr, List.takeWhile_eq_self_iff]
  intro c hc
  have hpos := (he.ascii c hc).1
  refine decide_eq_true fun h0 => ?_
  rw [h0] at hpos
  exact absurd hpos (by decide)

/-- The kernel reads an entry set of the builder as the entry it was made of. -/
theorem HoldsSet.parse (h : HoldsSet buf off e) (he : Encodable e) (hb : off + 96 ≤ bytes) :
    Exfat.parseEntrySet buf bytes off = some e := by
  have hshort := he.short
  have hattr : buf (off + 4) = e.attributes := h 4 (by omega)
  have hstream : buf (off + 32) = Exfat.entryStream := h.streamHead (i := 0) (by omega)
  have hlen : (buf (off + 32 + 3)).toNat = e.name.length := by
    have hbyte : buf (off + 32 + 3) = UInt8.ofNat e.name.length := h.streamHead (i := 3) (by omega)
    rw [hbyte, UInt8.toNat_ofNat', Nat.mod_eq_of_lt (by omega)]
  have hname := h.nameLoop he hb
  rw [Exfat.parseEntrySet, if_neg (by omega), if_neg (not_not.2 h.file), h.secondary]
  simp only [hstream, hlen, hattr, h.firstCluster he, h.size he]
  rw [if_neg (by simp; omega), if_neg (by simp)]
  simp only [show UInt8.toNat 2 - 1 = 1 from rfl, hname, he.name]

end Entries

section Directories

variable {es : List Exfat.ExfatDirEntry} {e : Exfat.ExfatDirEntry} {buf : Buf} {bytes p : ℕ}

/-- A directory cluster as the builder fills it: `p` slots that are neither free nor the start of an
entry set, the entry sets of `es`, and an end mark if there is room for one. -/
structure DirBytes (buf : Buf) (bytes p : ℕ) (es : List Exfat.ExfatDirEntry) : Prop where
  skip : ∀ i < p, buf (32 * i) ≠ 0 ∧ buf (32 * i) ≠ Exfat.entryFile
  set : ∀ i (h : i < es.length), HoldsSet buf (32 * p + 96 * i) es[i]
  encodable : ∀ e ∈ es, Encodable e
  fits : 32 * p + 96 * es.length ≤ bytes
  stop : 32 * p + 96 * es.length < bytes → buf (32 * p + 96 * es.length) = 0

theorem DirBytes.dirHolds (h : DirBytes buf bytes p es) : Exfat.DirHolds buf bytes p es where
  skip := h.skip
  file i hi := (h.set i hi).file
  secondary i hi := (h.set i hi).secondary
  parse i hi := by
    have := h.fits
    exact (h.set i hi).parse (h.encodable _ (List.getElem_mem hi)) (by omega)
  fits := h.fits
  stop := h.stop

theorem exists_dirBytes_nil (hb : 32 ∣ bytes)
    (h : ∀ i, 32 * i < bytes → buf (32 * i) ≠ Exfat.entryFile) : ∃ p, DirBytes buf bytes p [] := by
  have hex : ∃ i, bytes ≤ 32 * i ∨ buf (32 * i) = 0 := ⟨bytes / 32, .inl (by omega)⟩
  have hmin : ∀ i < Nat.find hex, 32 * i < bytes ∧ buf (32 * i) ≠ 0 := by
    intro i hi
    have := Nat.find_min hex hi
    rw [not_or, Nat.not_le] at this
    exact this
  refine ⟨Nat.find hex, fun i hi => ⟨(hmin i hi).2, h i (hmin i hi).1⟩, fun i hi => ?_, ?_, ?_, ?_⟩
  · exact absurd hi (Nat.not_lt_zero _)
  · simp
  · have := Nat.find_min' hex (.inl (by omega) : bytes ≤ 32 * (bytes / 32) ∨ _)
    rw [List.length_nil]
    omega
  · rw [List.length_nil]
    intro hlt
    exact (Nat.find_spec hex).resolve_left (by omega)

/-- A directory cluster that has been zeroed. -/
theorem dirBytes_zero (h : ∀ r < bytes, buf r = 0) : DirBytes buf bytes 0 [] where
  skip i hi := absurd hi (Nat.not_lt_zero _)
  set i hi := absurd hi (Nat.not_lt_zero _)
  encodable := by simp
  fits := Nat.zero_le _
  stop hlt := h _ hlt

/-- One more entry set at the end, and an end mark after it. -/
theorem DirBytes.append {buf' : Buf} (h : DirBytes buf bytes p es) (he : Encodable e)
    (hroom : 32 * p + 96 * es.length + 96 ≤ bytes)
    (hlow : ∀ r < 32 * p + 96 * es.length, buf' r = buf r)
    (hset : HoldsSet buf' (32 * p + 96 * es.length) e)
    (hstop : 32 * p + 96 * es.length + 96 < bytes → buf' (32 * p + 96 * es.length + 96) = 0) :
    DirBytes buf' bytes p (es ++ [e]) := by
  have hlen : (es ++ [e]).length = es.length + 1 := by simp
  refine ⟨fun i hi => ?_, fun i hi j hj => ?_, ?_, ?_, ?_⟩
  · rw [hlow _ (by omega)]
    exact h.skip i hi
  · rw [hlen] at hi
    by_cases hlt : i < es.length
    · rw [hlow _ (by omega), List.getElem_append_left hlt]
      exact h.set i hlt j hj
    · obtain rfl : i = es.length := by omega
      rw [List.getElem_concat_length rfl]
      exact hset j hj
  · intro d hd
    rw [List.mem_append, List.mem_singleton] at hd
    rcases hd with hd | rfl
    · exact h.encodable d hd
    · exact he
  · rw [hlen]
    omega
  · rw [hlen, Nat.mul_succ, ← Nat.add_assoc]
    exact hstop

variable {root : ℕ} {l : List UInt8}

section

variable (h : Shows lay boot im vol) (hroot : lay.Has root)

include h hroot

theorem appendLoop_skip {n off : ℕ} (hoff : off < clusterBytes lay) (h0 : vol.data root off ≠ 0)
    (hfile : vol.data root off ≠ Exfat.entryFile)
    (hn : appendLoop im (clusterOff lay root) (clusterBytes lay) l (n + 1) off = some im') :
    appendLoop im (clusterOff lay root) (clusterBytes lay) l n (off + 32) = some im' := by
  rw [Exfat.entryFile] at hfile
  by_cases hfit : off + l.length ≤ clusterBytes lay
  · rw [appendLoop, if_pos hfit, h.get hroot hoff] at hn
    simp only [Option.bind_eq_bind, Option.bind_some, if_neg h0] at hn
    rwa [if_neg hfile] at hn
  · rw [appendLoop, if_neg hfit] at hn
    cases hn

theorem appendLoop_set {n off : ℕ} (hoff : off + 1 < clusterBytes lay)
    (hset : HoldsSet (vol.data root) off e)
    (hn : appendLoop im (clusterOff lay root) (clusterBytes lay) l (n + 1) off = some im') :
    appendLoop im (clusterOff lay root) (clusterBytes lay) l n (off + 96) = some im' := by
  have hget : im.get (clusterOff lay root + off + 1) = some 2 := by
    rw [Nat.add_assoc, h.get hroot hoff, hset.secondary]
  by_cases hfit : off + l.length ≤ clusterBytes lay
  · rw [appendLoop, if_pos hfit, h.get hroot (by omega), hset.file, hget] at hn
    exact hn
  · rw [appendLoop, if_neg hfit] at hn
    cases hn

/-- The loop of `append_entries` goes on to the end of the directory. -/
theorem appendLoop_end (hdir : DirBytes (vol.data root) (clusterBytes lay) p es) {n : ℕ}
    (hn : appendLoop im (clusterOff lay root) (clusterBytes lay) l n 0 = some im') :
    ∃ n', appendLoop im (clusterOff lay root) (clusterBytes lay) l n' (32 * p + 96 * es.length)
      = some im' := by
  have hfits := hdir.fits
  have hzero : ∀ off, appendLoop im (clusterOff lay root) (clusterBytes lay) l 0 off ≠ some im' :=
    fun off => by simp [appendLoop]
  have hskip : ∀ i ≤ p, ∃ n',
      appendLoop im (clusterOff lay root) (clusterBytes lay) l n' (32 * i) = some im' := by
    intro i
    induction i with
    | zero => exact fun _ => ⟨n, hn⟩
    | succ i ih =>
      intro hi
      obtain ⟨_ | n', hn'⟩ := ih (by omega)
      · exact absurd hn' (hzero _)
      · obtain ⟨h0, hfile⟩ := hdir.skip i (by omega)
        have hoff : 32 * i < clusterBytes lay := by omega
        exact ⟨n', appendLoop_skip h hroot hoff h0 hfile hn'⟩
  have hsets : ∀ i ≤ es.length, ∃ n',
      appendLoop im (clusterOff lay root) (clusterBytes lay) l n' (32 * p + 96 * i)
        = some im' := by
    intro i
    induction i with
    | zero => exact fun _ => hskip p le_rfl
    | succ i ih =>
      intro hi
      obtain ⟨_ | n', hn'⟩ := ih (by omega)
      · exact absurd hn' (hzero _)
      · have hoff : 32 * p + 96 * i + 1 < clusterBytes lay := by omega
        exact ⟨n', appendLoop_set h hroot hoff (hdir.set i (by omega)) hn'⟩
  exact hsets es.length le_rfl

theorem appendLoop_free {n off : ℕ} (hoff : off < clusterBytes lay) (h0 : vol.data root off = 0)
    (hn : appendLoop im (clusterOff lay root) (clusterBytes lay) l n off = some im') :
    off + l.length ≤ clusterBytes lay ∧ ∃ vol', Shows lay boot im' vol' ∧ Keeps [root] vol vol' ∧
      vol'.fat = vol.fat ∧ (∀ r < off, vol'.data root r = vol.data root r) ∧
      (∀ j < l.length, vol'.data root (off + j) = l.getD j 0) ∧
      (off + l.length < clusterBytes lay → vol'.data root (off + l.length) = 0) := by
  obtain _ | n := n
  · simp [appendLoop] at hn
  rw [appendLoop] at hn
  by_cases hfit : off + l.length ≤ clusterBytes lay
  · rw [if_pos hfit, h.get hroot hoff] at hn
    simp only [Option.bind_eq_bind, Option.bind_some, if_pos h0] at hn
    have hslice := h.setSlice hroot hfit
    have hkeep := keeps_store vol root off l
    refine ⟨hfit, ?_⟩
    by_cases hmark : off + l.length < clusterBytes lay
    · have hsize := hslice.fits.clusterOff_le hroot
      rw [if_pos hmark, set_eq (by omega), Option.some_inj, Nat.add_assoc] at hn
      refine ⟨(vol.store root off l).store root (off + l.length) [0], ?_, ?_, rfl, ?_, ?_, ?_⟩
      · rw [← hn]
        exact hslice.setSlice hroot (by rw [List.length_singleton]; omega)
      · exact (hkeep.trans (keeps_store _ root (off + l.length) [0])).mono (by simp)
      · intro r hr
        rw [store_data_self, storeBytes_of_not_mem _ (by omega), store_data_self,
          storeBytes_of_not_mem _ (by omega)]
      · intro j hj
        rw [store_data_self, storeBytes_of_not_mem _ (by omega), store_data_self,
          storeBytes_of_mem _ _ hj]
      · intro _
        rw [store_data_self]
        exact storeBytes_of_mem _ _ (i := 0) Nat.one_pos
    · rw [if_neg hmark, Option.pure_def, Option.some_inj] at hn
      refine ⟨vol.store root off l, hn ▸ hslice, hkeep, rfl, fun r hr => ?_, fun j hj => ?_, ?_⟩
      · rw [store_data_self, storeBytes_of_not_mem _ (by omega)]
      · rw [store_data_self, storeBytes_of_mem _ _ hj]
      · exact fun hlt => absurd hlt hmark
  · rw [if_neg hfit] at hn
    cases hn

/-- `append_entries` adds an entry set to a directory. -/
theorem appendEntries_spec (hdir : DirBytes (vol.data root) (clusterBytes lay) p es)
    (he : Encodable e) (ha : appendEntries lay root (setOf e) im = some im') :
    ∃ vol', Shows lay boot im' vol' ∧ Keeps [root] vol vol' ∧ vol'.fat root = vol.fat root ∧
      DirBytes (vol'.data root) (clusterBytes lay) p (es ++ [e]) := by
  obtain ⟨n, hn⟩ := appendLoop_end h hroot hdir ha
  have hlen := length_setOf he.short
  by_cases hlt : 32 * p + 96 * es.length < clusterBytes lay
  · obtain ⟨hfit, vol', hshows, hkeep, hfat, hlow, hset, hstop⟩ :=
      appendLoop_free h hroot hlt (hdir.stop hlt) hn
    rw [hlen] at hfit hset hstop
    exact ⟨vol', hshows, hkeep, congrFun hfat root, hdir.append he hfit hlow hset hstop⟩
  · obtain _ | n := n
    · simp [appendLoop] at hn
    · rw [appendLoop, if_neg (by omega)] at hn
      cases hn

end

/-- A directory of its own cluster, zero after its entry sets. -/
structure HoldsDir (lay : Layout) (vol : Volume) (c : ℕ) (es : List Exfat.ExfatDirEntry) : Prop
    where
  last : vol.fat c = eoc
  dir : DirBytes (vol.data c) (clusterBytes lay) 0 es
  zero : ∀ r, 96 * es.length ≤ r → r < clusterBytes lay → vol.data c r = 0

theorem HoldsDir.keep {c : ℕ} (h : HoldsDir lay vol c es) {l' : List ℕ}
    (hkeep : Keeps l' vol vol') (hc : c ∉ l') : HoldsDir lay vol' c es := by
  obtain ⟨hfat, hdata⟩ := hkeep c hc
  refine ⟨hfat.trans h.last, ?_, ?_⟩
  · rw [hdata]
    exact h.dir
  · rw [hdata]
    exact h.zero

theorem HoldsFile.holdsDir {c : ℕ} (h : HoldsFile lay vol [c] []) : HoldsDir lay vol c [] := by
  have hzero : ∀ r < clusterBytes lay, vol.data c r = 0 := fun r hr => h.bytes 0 Nat.one_pos r hr
  exact ⟨h.linked 0 Nat.one_pos, dirBytes_zero hzero, fun r _ hr => hzero r hr⟩

/-- The builder stores an entry set after those of a directory of its own cluster. -/
theorem HoldsDir.setSlice {c o : ℕ} (hdir : HoldsDir lay vol c es) (h : Shows lay boot im vol)
    (hc : lay.Has c) (he : Encodable e) (ho : o = 96 * es.length)
    (hroom : o + 96 ≤ clusterBytes lay) :
    ∃ vol', Shows lay boot (im.setSlice (clusterOff lay c + o) (setOf e)) vol' ∧
      Keeps [c] vol vol' ∧ HoldsDir lay vol' c (es ++ [e]) := by
  subst ho
  have hlen := length_setOf he.short
  refine ⟨vol.store c (96 * es.length) (setOf e), h.setSlice hc (by rw [hlen]; exact hroom),
    keeps_store _ _ _ _, hdir.last, ?_, ?_⟩
  · rw [store_data_self]
    refine hdir.dir.append he (by omega) (fun r hr => storeBytes_of_not_mem _ (by omega)) ?_ ?_
    · intro j hj
      rw [Nat.mul_zero, Nat.zero_add]
      exact storeBytes_of_mem _ _ (by omega)
    · intro hlt
      rw [storeBytes_of_not_mem _ (by omega)]
      exact hdir.zero _ (by omega) hlt
  · intro r hr hlt
    rw [List.length_append, List.length_singleton] at hr
    rw [store_data_self, storeBytes_of_not_mem _ (by omega)]
    exact hdir.zero r (by omega) hlt

end Directories

section Main

/-- A name that fits one name entry. -/
def ShortName (name : List UInt8) : Prop :=
  name.length ≤ 15 ∧ ∀ c ∈ name, 0 < c.toNat ∧ c.toNat < 128

instance (name : List UInt8) : Decidable (ShortName name) :=
  @instDecidableAnd _ _ (Nat.decLe _ _)
    (List.decidableBAll (fun c => 0 < c.toNat ∧ c.toNat < 128) name)

theorem entrySet_some {name : List UInt8} {attrs : UInt8} {first size : ℕ} {l : List UInt8}
    (h : entrySet name attrs first size = some l) (hname : ShortName name) :
    l = setOf ⟨name, attrs, first, size⟩ ∧ Encodable ⟨name, attrs, first, size⟩ := by
  unfold entrySet at h
  split_ifs at h with hfield
  cases h
  exact ⟨rfl, hfield.1, hfield.2, hname.1, hname.2⟩

theorem shortName_rootDirs (sbin etc dev : ℕ) : ∀ d ∈ rootDirs sbin etc dev, ShortName d.1 := by
  intro d hd
  have hmem : d.1 ∈ (rootDirs sbin etc dev).map Prod.fst := List.mem_map_of_mem hd
  have hall : ∀ name ∈ (rootDirs 0 0 0).map Prod.fst, ShortName name := by decide +kernel
  exact hall _ hmem

def dirEntry (d : List UInt8 × ℕ) : Exfat.ExfatDirEntry := ⟨d.1, 0x10, d.2, 0⟩

def fileEntry (name : String) (first size : ℕ) : Exfat.ExfatDirEntry :=
  ⟨ascii name, 0x20, first, size⟩

variable {root p : ℕ} {es : List Exfat.ExfatDirEntry}

theorem appendDirs_spec (hroot : lay.Has root) :
    ∀ (dirs : List (List UInt8 × ℕ)) {im : Image} {vol : Volume}
      {es : List Exfat.ExfatDirEntry}, (∀ d ∈ dirs, ShortName d.1) → Shows lay boot im vol →
      DirBytes (vol.data root) (clusterBytes lay) p es → appendDirs lay root dirs im = some im' →
      ∃ vol', Shows lay boot im' vol' ∧ Keeps [root] vol vol' ∧ vol'.fat root = vol.fat root ∧
        DirBytes (vol'.data root) (clusterBytes lay) p (es ++ dirs.map dirEntry)
  | [], im, vol, es, _, h, hdir, ha => by
    cases ha
    refine ⟨vol, h, fun _ _ => ⟨rfl, rfl⟩, rfl, ?_⟩
    rwa [List.map_nil, List.append_nil]
  | (name, first) :: dirs, im, vol, es, hnames, h, hdir, ha => by
    simp only [appendDirs, Option.bind_eq_bind, Option.bind_eq_some_iff] at ha
    obtain ⟨l, hset, im₁, happend, ha⟩ := ha
    obtain ⟨rfl, he⟩ := entrySet_some hset (hnames _ List.mem_cons_self)
    obtain ⟨vol₁, h₁, hkeep₁, hfat₁, hdir₁⟩ := appendEntries_spec h hroot hdir he happend
    obtain ⟨vol', h', hkeep', hfat', hdir'⟩ := appendDirs_spec hroot dirs
      (fun d hd => hnames d (List.mem_cons_of_mem _ hd)) h₁ hdir₁ ha
    refine ⟨vol', h', (hkeep₁.trans hkeep').mono (by simp), hfat'.trans hfat₁, ?_⟩
    rwa [List.map_cons, List.append_cons]

/-- What the builder leaves on the volume. -/
structure Populated (lay : Layout) (vol : Volume) (root p sbin etc dev : ℕ) (inits : List ℕ)
    (passwdFirst fstabFirst : ℕ) (init : List UInt8) : Prop where
  root : DirBytes (vol.data root) (clusterBytes lay) p
    ((rootDirs sbin etc dev).map dirEntry ++ [fileEntry "INIT" (inits.headD 0) init.length])
  sbin : HoldsDir lay vol sbin [fileEntry "INIT" (inits.headD 0) init.length]
  etc : HoldsDir lay vol etc
    [fileEntry "PASSWD" passwdFirst passwd.length, fileEntry "FSTAB" fstabFirst fstab.length]
  init : HoldsFile lay vol inits init
  passwd : HoldsFile lay vol [passwdFirst] passwd
  fstab : HoldsFile lay vol [fstabFirst] fstab

/-- The entry sets of the files and the directories, once the clusters are allocated. -/
theorem storeEntries_spec {sbin etc dev initFirst initSize passwdFirst passwdSize fstabFirst
      fstabSize : ℕ} {initSet passwdSet fstabSet : List UInt8} {im₁ : Image}
    (h : Shows lay boot im vol) (hroot : lay.Has root) (hsbin : lay.Has sbin) (hetc : lay.Has etc)
    (hne : [root, sbin, etc].Nodup)
    (hdir : DirBytes (vol.data root) (clusterBytes lay) p []) (hsbinDir : HoldsDir lay vol sbin [])
    (hetcDir : HoldsDir lay vol etc [])
    (hinitSet : entrySet (ascii "INIT") 0x20 initFirst initSize = some initSet)
    (hpasswdSet : entrySet (ascii "PASSWD") 0x20 passwdFirst passwdSize = some passwdSet)
    (hfstabSet : entrySet (ascii "FSTAB") 0x20 fstabFirst fstabSize = some fstabSet)
    (hdirs : appendDirs lay root (rootDirs sbin etc dev)
      (((im.setSlice (clusterOff lay sbin) initSet).setSlice
        (clusterOff lay etc) passwdSet).setSlice (clusterOff lay etc + 96) fstabSet) = some im₁)
    (hlast : appendEntries lay root initSet im₁ = some im') :
    ∃ vol', Shows lay boot im' vol' ∧ Keeps [root, sbin, etc] vol vol' ∧
      vol'.fat root = vol.fat root ∧
      DirBytes (vol'.data root) (clusterBytes lay) p
        ((rootDirs sbin etc dev).map dirEntry ++ [fileEntry "INIT" initFirst initSize]) ∧
      HoldsDir lay vol' sbin [fileEntry "INIT" initFirst initSize] ∧
      HoldsDir lay vol' etc
        [fileEntry "PASSWD" passwdFirst passwdSize, fileEntry "FSTAB" fstabFirst fstabSize] := by
  have hcb : 512 ≤ clusterBytes lay := by
    have := h.fits.spc
    unfold clusterBytes
    omega
  obtain ⟨rfl, heInit⟩ := entrySet_some hinitSet (by decide +kernel)
  obtain ⟨rfl, hePasswd⟩ := entrySet_some hpasswdSet (by decide +kernel)
  obtain ⟨rfl, heFstab⟩ := entrySet_some hfstabSet (by decide +kernel)
  -- SBIN, then both sets of ETC, then the root
  obtain ⟨vol₁, h₁, hkeep₁, hsbin₁⟩ := hsbinDir.setSlice (o := 0) h hsbin heInit rfl (by omega)
  obtain ⟨vol₂, h₂, hkeep₂, hetc₂⟩ :=
    (hetcDir.keep hkeep₁ (by grind)).setSlice (o := 0) h₁ hetc hePasswd rfl (by omega)
  obtain ⟨vol₃, h₃, hkeep₃, hetc₃⟩ := hetc₂.setSlice (o := 96) h₂ hetc heFstab rfl (by omega)
  rw [Nat.add_zero, Nat.add_zero] at h₃
  have hkeep := (hkeep₁.trans hkeep₂).trans hkeep₃
  obtain ⟨hrootFat, hrootData⟩ := hkeep root (by grind)
  obtain ⟨vol₄, h₄, hkeep₄, hfat₄, hdir₄⟩ :=
    appendDirs_spec hroot (rootDirs sbin etc dev) (shortName_rootDirs sbin etc dev) h₃
      (hrootData ▸ hdir) hdirs
  obtain ⟨vol₅, h₅, hkeep₅, hfat₅, hdir₅⟩ := appendEntries_spec h₄ hroot hdir₄ heInit hlast
  have hkeepRoot := hkeep₄.trans hkeep₅
  refine ⟨vol₅, h₅, (hkeep.trans hkeepRoot).mono (by grind), ?_, hdir₅, ?_, ?_⟩
  · rw [hfat₅, hfat₄, hrootFat]
  · exact (hsbin₁.keep (hkeep₂.trans hkeep₃) (by grind)).keep hkeepRoot (by grind)
  · exact hetc₃.keep hkeepRoot (by grind)

theorem length_passwd : passwd.length = 81 := (length_ascii _).trans rfl

theorem length_fstab : fstab.length = 77 := (length_ascii _).trans rfl

/-- The clusters the builder takes are apart from one another and from the root's. -/
theorem taken_apart {root sbin etc dev c₅ c₆ : ℕ} {inits rest : List ℕ}
    (hnodup : (root :: sbin :: etc :: dev :: (inits ++ c₅ :: c₆ :: rest)).Nodup) :
    root ∉ [sbin] ++ [etc] ++ [dev] ++ inits ++ [c₅] ++ [c₆] ∧
      sbin ∉ [etc] ++ [dev] ++ inits ++ [c₅] ++ [c₆] ∧ etc ∉ [dev] ++ inits ++ [c₅] ++ [c₆] ∧
      [root, sbin, etc].Nodup ∧ (∀ c ∈ inits, c ∉ [c₅] ++ [c₆]) ∧ (∀ c ∈ [c₅], c ∉ [c₆]) ∧
      ∀ c ∈ inits ++ [c₅, c₆], c ∉ [root, sbin, etc] := by
  -- the clusters after the two texts are never written
  have htaken : (root :: sbin :: etc :: dev :: (inits ++ [c₅, c₆])).Nodup :=
    hnodup.sublist (by simp)
  simp only [List.nodup_cons] at htaken
  obtain ⟨hroot, hsbin, hetc, -, hfiles⟩ := htaken
  obtain ⟨-, htexts, hinits⟩ := List.nodup_append.1 hfiles
  have hdirs : ∀ c ∈ inits ++ [c₅, c₆], c ∉ [root, sbin, etc] := by
    intro c hc hdir
    simp only [List.mem_cons, List.not_mem_nil, or_false] at hdir
    rcases hdir with rfl | rfl | rfl
    · exact hroot (by simp only [List.mem_cons, hc, or_true])
    · exact hsbin (by simp only [List.mem_cons, hc, or_true])
    · exact hetc (by simp only [List.mem_cons, hc, or_true])
  have hfirst : [root, sbin, etc].Nodup := by
    simp only [List.mem_cons, not_or] at hroot hsbin
    simp [hroot.1, hroot.2.1, hsbin.1]
  have hapart : ∀ c ∈ inits, c ∉ [c₅] ++ [c₆] := fun c hc hc' => hinits c hc c hc' rfl
  have htext : ∀ c ∈ [c₅], c ∉ [c₆] := by
    intro c hc
    rw [List.mem_singleton.1 hc]
    exact (List.nodup_cons.1 htexts).1
  refine ⟨?_, ?_, ?_, hfirst, hapart, htext, hdirs⟩
  · simpa only [List.append_assoc, List.cons_append, List.nil_append] using hroot
  · simpa only [List.append_assoc, List.cons_append, List.nil_append] using hsbin
  · simpa only [List.append_assoc, List.cons_append, List.nil_append] using hetc

theorem mem_taken_all {root sbin etc dev c₅ c₆ c : ℕ} {inits : List ℕ}
    (hc : c ∈ [sbin] ++ [etc] ++ [dev] ++ inits ++ [c₅] ++ [c₆] ++ [root, sbin, etc]) :
    c ∈ root :: sbin :: etc :: dev :: (inits ++ [c₅, c₆]) := by
  simp only [List.mem_append, List.mem_cons, List.not_mem_nil, or_false] at hc ⊢
  tauto

theorem populate_spec {image : Image} {init : List UInt8}
    (h : Shows (layoutOf image) boot image vol)
    (hroot : (layoutOf image).Has (rootOf image))
    (hdir : DirBytes (vol.data (rootOf image)) (clusterBytes (layoutOf image)) p [])
    (hp : populate image init = some im') :
    ∃ sbin etc dev inits passwdFirst fstabFirst rest vol',
      freeClusters (layoutOf image) vol [rootOf image]
        = sbin :: etc :: dev :: (inits ++ passwdFirst :: fstabFirst :: rest) ∧
      inits.length = clustersNeeded (layoutOf image) init.length ∧
      Shows (layoutOf image) boot im' vol' ∧
      Keeps (rootOf image :: sbin :: etc :: dev :: (inits ++ [passwdFirst, fstabFirst])) vol vol' ∧
      vol'.fat (rootOf image) = vol.fat (rootOf image) ∧
      Populated (layoutOf image) vol' (rootOf image) p sbin etc dev inits passwdFirst fstabFirst
        init := by
  unfold populate at hp
  split_ifs at hp
  obtain ⟨⟨im₁, res₁, sbin⟩, hsbin, hp⟩ := Option.bind_eq_some_iff.1 hp
  obtain ⟨⟨im₂, res₂, etc⟩, hetc, hp⟩ := Option.bind_eq_some_iff.1 hp
  obtain ⟨⟨im₃, res₃, dev⟩, hdev, hp⟩ := Option.bind_eq_some_iff.1 hp
  obtain ⟨⟨im₄, res₄, initFirst, initSize⟩, hinit, hp⟩ := Option.bind_eq_some_iff.1 hp
  obtain ⟨⟨im₅, res₅, passwdFirst, passwdSize⟩, hpasswd, hp⟩ := Option.bind_eq_some_iff.1 hp
  obtain ⟨⟨im₆, res₆, fstabFirst, fstabSize⟩, hfstab, hp⟩ := Option.bind_eq_some_iff.1 hp
  obtain ⟨initSet, hinitSet, hp⟩ := Option.bind_eq_some_iff.1 hp
  obtain ⟨passwdSet, hpasswdSet, hp⟩ := Option.bind_eq_some_iff.1 hp
  obtain ⟨fstabSet, hfstabSet, hp⟩ := Option.bind_eq_some_iff.1 hp
  obtain ⟨im₇, hdirs, hlast⟩ := Option.bind_eq_some_iff.1 hp
  set lay := layoutOf image
  obtain ⟨vol₁, h₁, hfree₁, hkeep₁, hsbinFile⟩ := writeDir_spec h hsbin
  obtain ⟨vol₂, h₂, hfree₂, hkeep₂, hetcFile⟩ := writeDir_spec h₁ hetc
  obtain ⟨vol₃, h₃, hfree₃, hkeep₃, -⟩ := writeDir_spec h₂ hdev
  obtain ⟨rfl, inits, vol₄, hlen₄, hhead₄, h₄, hfree₄, hkeep₄, hinitFile⟩ := writeFile_spec h₃ hinit
  obtain ⟨rfl, l₅, vol₅, hlen₅, hhead₅, h₅, hfree₅, hkeep₅, hpasswdFile⟩ :=
    writeFile_spec h₄ hpasswd
  obtain ⟨rfl, l₆, vol₆, hlen₆, hhead₆, h₆, hfree₆, hkeep₆, hfstabFile⟩ := writeFile_spec h₅ hfstab
  have hcb : 512 ≤ clusterBytes lay := by
    have := h.fits.spc
    unfold clusterBytes
    omega
  rw [length_passwd, clustersNeeded_one (by omega), List.length_eq_one_iff] at hlen₅
  rw [length_fstab, clustersNeeded_one (by omega), List.length_eq_one_iff] at hlen₆
  obtain ⟨c₅, rfl⟩ := hlen₅
  obtain ⟨c₆, rfl⟩ := hlen₆
  obtain rfl : c₅ = passwdFirst := by simpa using hhead₅
  obtain rfl : c₆ = fstabFirst := by simpa using hhead₆
  -- the clusters taken, in order
  have hfree : freeClusters lay vol [rootOf image]
      = sbin :: etc :: dev :: (inits ++ c₅ :: c₆ :: freeClusters lay vol₆ res₆) := by
    rw [hfree₁, hfree₂, hfree₃, hfree₄, hfree₅, hfree₆]
    rfl
  have hmem := @mem_freeClusters lay vol [rootOf image]
  have hnodup := nodup_freeClusters lay vol [rootOf image]
  rw [hfree] at hmem hnodup
  have hrootNot : rootOf image ∉ sbin :: etc :: dev :: (inits ++ c₅ :: c₆ :: _) := fun hc =>
    (hmem.1 hc).2.1 List.mem_cons_self
  obtain ⟨hroot₀, hsbin₀, hetc₀, hdirs₀, hinit₀, hpasswd₀, hfiles₀⟩ :=
    taken_apart (List.nodup_cons.2 ⟨hrootNot, hnodup⟩)
  have hkeep := ((((hkeep₁.trans hkeep₂).trans hkeep₃).trans hkeep₄).trans hkeep₅).trans hkeep₆
  obtain ⟨hrootFat, hrootData⟩ := hkeep (rootOf image) hroot₀
  have hsbin₆ : HoldsDir lay vol₆ sbin [] := hsbinFile.holdsDir.keep
    ((((hkeep₂.trans hkeep₃).trans hkeep₄).trans hkeep₅).trans hkeep₆) hsbin₀
  have hetc₆ : HoldsDir lay vol₆ etc [] :=
    hetcFile.holdsDir.keep (((hkeep₃.trans hkeep₄).trans hkeep₅).trans hkeep₆) hetc₀
  obtain ⟨vol', h', hkeep', hfat', hroot', hsbin', hetc'⟩ := storeEntries_spec h₆ hroot
    (hmem.1 (by simp)).1 (hmem.1 (by simp)).1 hdirs₀ (hrootData ▸ hdir) hsbin₆ hetc₆ hinitSet
    hpasswdSet hfstabSet hdirs hlast
  have hfirst : inits.headD 0 = initFirst := by
    rw [List.headD_eq_head?_getD, hhead₄]
    rfl
  have hinit' : ∀ c ∈ inits, c ∉ [rootOf image, sbin, etc] := fun c hc =>
    hfiles₀ c (List.mem_append_left _ hc)
  have hpasswd' : ∀ c ∈ [c₅], c ∉ [rootOf image, sbin, etc] := fun c hc =>
    hfiles₀ c (List.mem_append_right _ (List.mem_cons.2 (.inl (List.mem_singleton.1 hc))))
  have hfstab' : ∀ c ∈ [c₆], c ∉ [rootOf image, sbin, etc] := fun c hc =>
    hfiles₀ c (List.mem_append_right _ (List.mem_cons_of_mem _ hc))
  refine ⟨sbin, etc, dev, inits, c₅, c₆, _, vol', hfree, hlen₄, h', ?_, hfat'.trans hrootFat, ?_⟩
  · exact (hkeep.trans hkeep').mono fun c hc => mem_taken_all hc
  · refine ⟨hfirst ▸ hroot', hfirst ▸ hsbin', hetc', ?_, ?_, ?_⟩
    · exact (hinitFile.keep (hkeep₅.trans hkeep₆) hinit₀).keep hkeep' hinit'
    · exact (hpasswdFile.keep hkeep₆ hpasswd₀).keep hkeep' hpasswd'
    · exact hfstabFile.keep hkeep' hfstab'

end Main

end Populate

end PeanutKernel
