import PeanutKernel.Exfat
import PeanutKernel.Fat32
import PeanutKernel.Proofs.ExtfsReads

/-!
# Runs of slashes in a path

The FAT and exFAT drivers see only the components of a path, which runs of slashes do not change.
The ext driver skips one slash at the start of a path and looks for the empty name if another one
follows (`slashes_agree`).
-/

namespace PeanutKernel

open Query

section Paths

/-- The path with each run of `/` replaced by a single `/`. -/
def squeeze : List UInt8 → List UInt8
  | [] => []
  | c :: p => if c = 47 ∧ p.head? = some 47 then squeeze p else c :: squeeze p

/-- What stands between the separators of a path. -/
def names (path : List UInt8) : List (List UInt8) :=
  (path.splitOnP isSeparator).filter (· ≠ [])

theorem names_append {c : UInt8} (hc : isSeparator c = true) (a p : List UInt8) :
    names (a ++ c :: p) = names a ++ names p := by
  rw [names, List.splitOnP_append_cons a p hc, List.filter_append]
  rfl

theorem names_cons {c : UInt8} (hc : isSeparator c = true) (p : List UInt8) :
    names (c :: p) = names p := names_append hc [] p

theorem names_dropWhile : ∀ p : List UInt8, names (p.dropWhile isSeparator) = names p
  | [] => rfl
  | c :: p => by
    rcases hc : isSeparator c with _ | _
    · rw [List.dropWhile_cons_of_neg (by simp [hc])]
    · rw [List.dropWhile_cons_of_pos hc, names_dropWhile p, names_cons hc]

theorem head?_dropSeparators (p : List UInt8) :
    (p.dropWhile isSeparator).head?.all (!isSeparator ·) := by
  have := List.head?_dropWhile_not isSeparator p
  rcases h : (p.dropWhile isSeparator).head? with _ | c
  · rfl
  · rw [h] at this
    simpa using this

theorem cutComponents_eq (n : ℕ) : ∀ p : List UInt8, p.length ≤ n → p.head?.all (!isSeparator ·) →
    cutComponents n p = names p := by
  induction n with
  | zero =>
    intro p hn _
    rw [List.length_eq_zero_iff.1 (Nat.le_zero.1 hn)]
    rfl
  | succ n ih =>
    intro p hn hhead
    rw [cutComponents]
    split_ifs with hp
    · rw [hp]
      rfl
    · set w := p.takeWhile (!isSeparator ·) with hw
      have hsplit : w ++ p.dropWhile (!isSeparator ·) = p := List.takeWhile_append_dropWhile
      have hnosep : ∀ c ∈ w, isSeparator c = false := by
        simpa using List.all_eq_true.1 (List.all_takeWhile (p := (!isSeparator ·)) (l := p))
      have hne : w ≠ [] := by
        obtain ⟨c, p, rfl⟩ := List.exists_cons_of_ne_nil hp
        rw [hw, List.takeWhile_cons_of_pos (by simpa using hhead)]
        exact List.cons_ne_nil _ _
      have hone : names w = [w] := by
        rw [names, List.splitOnP_eq_singleton hnosep]
        simp [hne]
      rcases hr : p.dropWhile (!isSeparator ·) with _ | ⟨c, r⟩
      · rw [hr, List.append_nil] at hsplit
        rw [← hsplit, hone]
        cases n <;> rfl
      · have hc : isSeparator c = true := by
          have := List.head?_dropWhile_not (!isSeparator ·) p
          simpa [hr] using this
        have hlen : (r.dropWhile isSeparator).length ≤ n := by
          have h1 := (List.dropWhile_sublist isSeparator (l := r)).length_le
          have h2 := congrArg List.length hsplit
          have h3 := List.length_pos_iff.2 hne
          rw [hr, List.length_append, List.length_cons] at h2
          omega
        rw [List.dropWhile_cons_of_pos hc, ih _ hlen (head?_dropSeparators r),
          names_dropWhile, ← hsplit, hr,
          names_append hc, hone]
        rfl

/-- The loops of the source cut a path at its separators. -/
theorem components_eq (path : List UInt8) : components path = names path := by
  rw [components, cutComponents_eq _ _ (List.dropWhile_sublist _).length_le
    (head?_dropSeparators path), names_dropWhile]

theorem names_squeeze : ∀ a p : List UInt8, names (a ++ squeeze p) = names (a ++ p)
  | a, [] => rfl
  | a, c :: p => by
    rw [squeeze]
    split_ifs with h
    · obtain ⟨rfl, hp⟩ := h
      obtain ⟨p, rfl⟩ := List.head?_eq_some_iff.1 hp
      rw [names_squeeze, names_append rfl, names_append rfl, names_cons rfl]
    · have := names_squeeze (a ++ [c]) p
      rwa [List.append_assoc, List.append_assoc] at this

end Paths

namespace Ext

variable {v : ExtVolume} {m : Medium}

theorem head?_squeeze : ∀ p : List UInt8, (squeeze p).head? = p.head?
  | [] => rfl
  | c :: p => by
    rw [squeeze]
    split_ifs with h
    · rw [head?_squeeze p, h.1, h.2, List.head?_cons]
    · rfl

theorem squeeze_eq_nil {p : List UInt8} : squeeze p = [] ↔ p = [] := by
  rw [← List.head?_eq_none_iff, head?_squeeze, List.head?_eq_none_iff]

theorem firstName_squeeze : ∀ p : List UInt8, firstName (squeeze p) = firstName p
  | [] => rfl
  | c :: p => by
    rw [squeeze]
    split_ifs with h
    · obtain ⟨rfl, hp⟩ := h
      obtain ⟨p, rfl⟩ := List.head?_eq_some_iff.1 hp
      rw [firstName_squeeze]
      rfl
    · have ih := firstName_squeeze p
      unfold firstName at ih ⊢
      rw [List.takeWhile_cons, List.takeWhile_cons, ih]

theorem dropName_squeeze : ∀ p : List UInt8,
    (squeeze p).dropWhile (· ≠ 47) = squeeze (p.dropWhile (· ≠ 47))
  | [] => rfl
  | c :: p => by
    by_cases hc : c = 47
    · subst hc
      obtain ⟨q, hq⟩ := List.head?_eq_some_iff.1 (head?_squeeze (47 :: p))
      rw [List.dropWhile_cons_of_neg (l := p) (by simp), hq, List.dropWhile_cons_of_neg (by simp)]
    · rw [squeeze, if_neg fun h => hc h.1, List.dropWhile_cons_of_pos (by simpa using hc),
        List.dropWhile_cons_of_pos (by simpa using hc), dropName_squeeze p]

theorem dropSlashes_squeeze : ∀ p : List UInt8,
    (squeeze p).dropWhile (· = 47) = squeeze (p.dropWhile (· = 47))
  | [] => rfl
  | c :: p => by
    by_cases hc : c = 47
    · subst hc
      rw [List.dropWhile_cons_of_pos (by rfl), ← dropSlashes_squeeze p, squeeze]
      split_ifs
      · rfl
      · rw [List.dropWhile_cons_of_pos (by rfl)]
    · rw [squeeze, if_neg fun h => hc h.1, List.dropWhile_cons_of_neg (by simpa using hc),
        List.dropWhile_cons_of_neg (by simpa using hc), squeeze, if_neg fun h => hc h.1]

theorem restOf_squeeze (p : List UInt8) : restOf (squeeze p) = squeeze (restOf p) := by
  rw [restOf, dropName_squeeze, dropSlashes_squeeze, restOf]

/-- The loop of `extfs_find_root` does not see runs of slashes. -/
theorem findFrom_squeeze (fuel : ℕ) (v : ExtVolume) (n : ℕ) :
    ∀ (n' cur : ℕ) (p : List UInt8), p.length ≤ n → (squeeze p).length ≤ n' →
      findFrom fuel v n' cur (squeeze p) = findFrom fuel v n cur p := by
  induction n with
  | zero =>
    intro n' cur p hn _
    rw [List.length_eq_zero_iff.1 (Nat.le_zero.1 hn)]
    exact findFrom_nil fuel v n' cur
  | succ n ih =>
    intro n' cur p hn hn'
    rcases eq_or_ne p [] with rfl | hp
    · rw [findFrom_nil]
      exact findFrom_nil fuel v n' cur
    · have hq : squeeze p ≠ [] := mt squeeze_eq_nil.1 hp
      obtain ⟨n', rfl⟩ : ∃ k, n' = k + 1 :=
        ⟨n' - 1, by have := List.length_pos_iff.2 hq; omega⟩
      have hlen := restOf_length hp
      have hlen' := restOf_length hq
      rw [restOf_squeeze] at hlen'
      rw [findFrom_succ fuel v n cur hp, findFrom_succ fuel v n' cur hq, firstName_squeeze,
        restOf_squeeze]
      simp only [ne_eq, squeeze_eq_nil]
      congr 2
      funext next
      exact ih n' next (restOf p) (by omega) (by omega)

theorem findFrom_rounds (fuel : ℕ) (v : ExtVolume) {n n' : ℕ} (cur : ℕ) {p : List UInt8}
    (hn : p.length ≤ n) (hn' : p.length ≤ n') :
    findFrom fuel v n cur p = findFrom fuel v n' cur p :=
  (findFrom_squeeze fuel v n (squeeze p).length cur p hn le_rfl).symm.trans
    (findFrom_squeeze fuel v n' (squeeze p).length cur p hn' le_rfl)

theorem squeeze_slash : ∀ p : List UInt8, squeeze (47 :: p) = 47 :: squeeze (p.dropWhile (· = 47))
  | [] => rfl
  | c :: p => by
    by_cases hc : c = 47
    · subst hc
      rw [squeeze, if_pos ⟨rfl, rfl⟩, squeeze_slash p, List.dropWhile_cons_of_pos (by rfl)]
    · rw [squeeze, if_neg (by simpa using hc), List.dropWhile_cons_of_neg (by simpa using hc)]

/-- The rest of a lookup, from inode `cur`. -/
def lookupFrom (v : ExtVolume) (cur : ℕ) (q : List UInt8) (fuel : ℕ) : BlockM (Option ℕ) :=
  findFrom fuel v q.length cur q

/-- The lookup of the empty name in the root directory, with `q` to come. -/
def lookupEmpty (v : ExtVolume) (q : List UInt8) (fuel : ℕ) : BlockM (Option ℕ) :=
  readDirEntries fuel v rootInode [] (q ≠ [])

theorem extfsFindRoot_squeeze (fuel : ℕ) (v : ExtVolume) (p : List UInt8) :
    extfsFindRoot fuel v (squeeze (47 :: p))
      = lookupFrom v rootInode (p.dropWhile (· = 47)) fuel := by
  rw [squeeze_slash]
  exact findFrom_squeeze fuel v _ _ rootInode _ le_rfl le_rfl

theorem extfsFindRoot_slash (fuel : ℕ) (v : ExtVolume) {p : List UInt8} (h : p.head? ≠ some 47) :
    extfsFindRoot fuel v (47 :: p) = lookupFrom v rootInode (p.dropWhile (· = 47)) fuel := by
  have hdrop : p.dropWhile (· = 47) = p := by
    rcases p with _ | ⟨c, p⟩
    · rfl
    · exact List.dropWhile_cons_of_neg (by simpa using h)
  rw [hdrop]
  rfl

/-- After a second slash the empty name is looked for. -/
theorem extfsFindRoot_slashes (fuel : ℕ) (v : ExtVolume) (p : List UInt8) :
    extfsFindRoot fuel v (47 :: 47 :: p)
      = (lookupEmpty v (p.dropWhile (· = 47)) fuel).andThen fun next =>
        lookupFrom v next (p.dropWhile (· = 47)) fuel := by
  have hrest : restOf (47 :: p) = p.dropWhile (· = 47) := by
    rw [restOf, List.dropWhile_cons_of_neg (by simp), List.dropWhile_cons_of_pos (by rfl)]
  have hlen : (p.dropWhile (· = 47)).length ≤ p.length :=
    (List.dropWhile_sublist _).length_le
  have hname : firstName (47 :: p) = [] := List.takeWhile_cons_of_neg (by simp)
  change findFrom fuel v (p.length + 1) rootInode (47 :: p) = _
  rw [findFrom_succ fuel v _ rootInode (List.cons_ne_nil _ _), hrest, hname, if_neg (by decide)]
  unfold lookupEmpty lookupFrom
  congr 1
  funext next
  exact findFrom_rounds fuel v next hlen le_rfl

theorem lookupFrom_mono (v : ExtVolume) (m : Medium) (cur : ℕ) (q : List UInt8) :
    FuelMono m.read (lookupFrom v cur q) := findFrom_mono q.length cur q

theorem lookupEmpty_mono (v : ExtVolume) (m : Medium) (q : List UInt8) :
    FuelMono m.read (lookupEmpty v q) := readDirEntries_mono rootInode [] _

theorem yields_slashes (v : ExtVolume) (m : Medium) (p : List UInt8) (r : Option ℕ) :
    Yields m.read (extfsFindRoot · v (47 :: 47 :: p)) r ↔
      Yields m.read (lookupEmpty v (p.dropWhile (· = 47))) none ∧ r = none ∨
      ∃ next, Yields m.read (lookupEmpty v (p.dropWhile (· = 47))) (some next) ∧
        Yields m.read (lookupFrom v next (p.dropWhile (· = 47))) r := by
  simp only [extfsFindRoot_slashes]
  exact yields_andThen (lookupEmpty_mono v m _) fun next => lookupFrom_mono v m next _

/-- No record of the root directory that a search for the empty name comes to has it. -/
def NoEmptyName (v : ExtVolume) (m : Medium) : Prop :=
  ∀ dir k pb blk, (readInodeRaw v rootInode 256).run m.read = some (some dir) →
    k < blockCount v (inodeSizeBytes dir) → Yields m.read (mapBlock · v dir k) pb →
    (readBlockFull v pb).run m.read = some (some blk) →
    ∀ off, Comes blk v.blockSize [] 0 off → InBlock blk v.blockSize off → Named blk off →
      recName blk off ≠ []

theorem scanBlocks_none {dir : Buf} {name : List UInt8} {fuel : ℕ} {r : Option ℕ} : ∀ {n b : ℕ},
    (∀ k pb blk, k < b + n → Yields m.read (mapBlock · v dir k) pb →
      (readBlockFull v pb).run m.read = some (some blk) →
      scanRecords blk v.blockSize name v.blockSize 0 = none) →
    (scanBlocks fuel v dir name n b).run m.read = some r → r = none
  | 0, _, _, h => (Option.some_inj.1 h).symm
  | n + 1, b, hno, h => by
    rw [scanBlocks, Query.run_bind, Option.bind_eq_some_iff] at h
    obtain ⟨pb, hpb, h⟩ := h
    split_ifs at h
    · exact (Option.some_inj.1 h).symm
    · rw [Query.run_bind, Option.bind_eq_some_iff] at h
      obtain ⟨_ | blk, hblk, h⟩ := h
      · exact (Option.some_inj.1 h).symm
      · simp only [hno b pb blk (by omega) ⟨fuel, hpb⟩ hblk] at h
        exact scanBlocks_none (fun k pb blk hk => hno k pb blk (by omega)) h

theorem NoEmptyName.lookup (hno : NoEmptyName v m) {q : List UInt8} {r : Option ℕ}
    (h : Yields m.read (lookupEmpty v q) r) : r = none := by
  obtain ⟨fuel, h⟩ := h
  rw [lookupEmpty, readDirEntries_eq, andThen, Query.run_bind, Option.bind_eq_some_iff] at h
  obtain ⟨_ | dir, hdir, h⟩ := h
  · exact (Option.some_inj.1 h).symm
  · simp only at h
    split_ifs at h
    · exact (Option.some_inj.1 h).symm
    · exact (Option.some_inj.1 h).symm
    · rw [andThen, Query.run_bind, Option.bind_eq_some_iff] at h
      obtain ⟨ino, hscan, h⟩ := h
      obtain rfl := scanBlocks_none (fun k pb blk hk hpb hblk => scanRecords_none
        (hno dir k pb blk hdir (by omega) hpb hblk)) hscan
      exact (Option.some_inj.1 h).symm

theorem NoEmptyName.slashes_iff (hno : NoEmptyName v m) (p q : List UInt8) :
    (∀ r, Yields m.read (extfsFindRoot · v q) r ↔
        Yields m.read (extfsFindRoot · v (47 :: 47 :: p)) r) ↔
      Finishes m.read (extfsFindRoot · v (47 :: 47 :: p)) ∧
          Yields m.read (extfsFindRoot · v q) none ∨
        ¬ Finishes m.read (extfsFindRoot · v (47 :: 47 :: p)) ∧
          ¬ Finishes m.read (extfsFindRoot · v q) := by
  have hnone : ∀ r, Yields m.read (extfsFindRoot · v (47 :: 47 :: p)) r → r = none := by
    intro r hr
    rcases (yields_slashes v m p r).1 hr with ⟨-, hr⟩ | ⟨next, hnext, -⟩
    · exact hr
    · cases hno.lookup hnext
  by_cases hfin : Finishes m.read (extfsFindRoot · v (47 :: 47 :: p))
  · obtain ⟨r, hr⟩ := id hfin
    obtain rfl := hnone r hr
    simp only [hfin, true_and, not_true_eq_false, false_and, or_false]
    refine ⟨fun h => (h none).2 hr, fun h r => ⟨fun hr' => ?_, fun hr' => hnone r hr' ▸ h⟩⟩
    rwa [hr'.unique (findFrom_mono _ _ _) h]
  · simp only [hfin, false_and, not_false_eq_true, true_and, false_or]
    constructor
    · rintro h ⟨r, hr⟩
      exact hfin ⟨r, (h r).1 hr⟩
    · exact fun h r => iff_of_false (fun hr => h ⟨r, hr⟩) fun hr => hfin ⟨r, hr⟩

end Ext

/-- Runs of slashes make no difference for FAT and exFAT, and none for ext if the path does not
start with one. If it does, and the root directory has no empty name, the lookup fails; it should
just when the path names nothing. -/
theorem slashes_agree (m : Medium) (p : List UInt8) :
    (∀ fuel v path, Fat.fat32FindRoot fuel v (squeeze path) = Fat.fat32FindRoot fuel v path) ∧
    (∀ fuel v path, Exfat.exfatFindRoot fuel v (squeeze path) = Exfat.exfatFindRoot fuel v path) ∧
    ∀ v, (p.head? ≠ some 47 →
        ∀ r, Yields m.read (Ext.extfsFindRoot · v (squeeze (47 :: p))) r ↔
          Yields m.read (Ext.extfsFindRoot · v (47 :: p)) r) ∧
      (p.head? = some 47 → Ext.NoEmptyName v m →
        ((∀ r, Yields m.read (Ext.extfsFindRoot · v (squeeze (47 :: p))) r ↔
            Yields m.read (Ext.extfsFindRoot · v (47 :: p)) r) ↔
          Finishes m.read (Ext.extfsFindRoot · v (47 :: p)) ∧
              Yields m.read (Ext.extfsFindRoot · v (squeeze (47 :: p))) none ∨
            ¬ Finishes m.read (Ext.extfsFindRoot · v (47 :: p)) ∧
              ¬ Finishes m.read (Ext.extfsFindRoot · v (squeeze (47 :: p))))) := by
  have hcomp : ∀ path, components (squeeze path) = components path := fun path => by
    rw [components_eq, components_eq]
    exact names_squeeze [] path
  refine ⟨fun fuel v path => ?_, fun fuel v path => ?_, fun v => ⟨fun hp r => ?_, fun hp hno => ?_⟩⟩
  · rw [Fat.fat32FindRoot, hcomp, Fat.fat32FindRoot]
  · rw [Exfat.exfatFindRoot, hcomp, Exfat.exfatFindRoot]
  · simp only [Ext.extfsFindRoot_squeeze, Ext.extfsFindRoot_slash _ _ hp]
  · obtain ⟨p, rfl⟩ := List.head?_eq_some_iff.1 hp
    exact hno.slashes_iff p _

theorem slashes_agree_trailing :
    Yields Ext.sampleMedium.read (Ext.extfsFindRoot · Ext.sampleVolume [47, 65, 47, 47]) (some 3) :=
  (((slashes_agree Ext.sampleMedium [65, 47, 47]).2.2 Ext.sampleVolume).1 (by decide) (some 3)).1
    ⟨0, by decide +kernel⟩

/-- The ext driver finds `/A` and does not find `//A`. -/
theorem doubled_slash_not_found :
    (Ext.extfsMount Ext.samplePartition).run Ext.sampleMedium.read = some (some Ext.sampleVolume) ∧
    squeeze [47, 47, 65] = [47, 65] ∧
    (Ext.extfsFindRoot 0 Ext.sampleVolume [47, 65]).run Ext.sampleMedium.read = some (some 3) ∧
    (Ext.extfsFindRoot 0 Ext.sampleVolume [47, 47, 65]).run Ext.sampleMedium.read = some none := by
  decide +kernel

end PeanutKernel
