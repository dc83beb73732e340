import PeanutKernel.Lib.Folders
import PeanutKernel.Proofs.Fat32Cuts

/-!
# Looking a path up on a FAT volume

`fat32_find_root` lists one directory for each component, up to 64 entries of it, and looks for the
component in that list. So it finds an entry if fewer than 64 stand before it
(`fat32FindRoot_entry_iff`), and it returns unless a directory on the way has a chain that goes
round (`fat32FindRoot_returns_iff`).
-/

namespace PeanutKernel

namespace Fat

variable {v : Fat32Volume} {m : Medium} {S : List Buf}

section Folders

/-- The entries of a directory as a lookup sees them; `none` is the root directory. -/
def listDir (fuel : ℕ) (v : Fat32Volume) (m : Medium) : Option ℕ → Option (List Fat32DirEntry)
  | none => (fat32ListRoot fuel v 64).run m.read
  | some c => (listClusterEntries fuel v c 64).run m.read

theorem listChain_mono {maxEntries fuel fuel' c : ℕ} {es : List Fat32DirEntry} (hle : fuel ≤ fuel')
    (h : (listChain v maxEntries fuel c []).run m.read = some es) :
    (listChain v maxEntries fuel' c []).run m.read = some es := by
  rw [listChain_run v m maxEntries _ c [] (Nat.zero_le _)] at h ⊢
  exact Links.collect_mono_le h hle

theorem listDir_mono {fuel fuel' : ℕ} {dir : Option ℕ} {es : List Fat32DirEntry}
    (hle : fuel ≤ fuel') (h : listDir fuel v m dir = some es) :
    listDir fuel' v m dir = some es := by
  rcases dir with _ | c
  · rw [listDir, fat32ListRoot] at h ⊢
    by_cases hnone : 64 = 0 ∨ 8 < v.sectorsPerCluster
    · rwa [if_pos hnone] at h ⊢
    · rw [if_neg hnone] at h ⊢
      by_cases hty : v.fatType ≠ .fat32
      · rwa [if_pos hty] at h ⊢
      · rw [if_neg hty] at h ⊢
        exact listChain_mono hle h
  · rw [listDir, listClusterEntries] at h ⊢
    by_cases hspc : 8 < v.sectorsPerCluster
    · rwa [if_pos hspc] at h ⊢
    · rw [if_neg hspc] at h ⊢
      exact listChain_mono hle h

/-- The directories of a volume, as `fat32_find_root` goes through them. -/
def folders (v : Fat32Volume) (m : Medium) : Folders (Option ℕ) Fat32DirEntry (List UInt8) where
  list fuel := listDir fuel v m
  same e n := streqCi e.name n
  accepts n := n.length < maxName
  isDir e := e.attributes &&& attrDirectory ≠ 0
  sub e := some e.firstCluster
  mono := listDir_mono

theorem findComponents_run (fuel : ℕ) :
    ∀ (dir : Option ℕ) (ns : List (List UInt8)),
      (findComponents fuel v dir ns).run m.read = (folders v m).find fuel dir ns
  | _, [] => rfl
  | dir, n :: ns => by
    rw [findComponents, Folders.find]
    by_cases hn : n.length < maxName
    · have hacc : (folders v m).accepts n = true := decide_eq_true hn
      have hfound := fun e : Fat32DirEntry => Folders.run_found (F := folders v m) (e := e)
        (c := e.attributes &&& attrDirectory = 0) decide_eq_true_iff
        (findComponents_run fuel (some e.firstCluster) ns)
      have hentry : ∀ es : List Fat32DirEntry,
          findEntry n es = es.find? ((folders v m).same · n) := fun es => rfl
      rw [if_neg (by omega), if_pos hacc]
      rcases dir with _ | c
      · simp only [Query.run_bind, Query.run_pure, Option.bind_some, hentry]
        refine congrArg (Option.bind _) (funext fun es => ?_)
        rcases es.find? ((folders v m).same · n) with _ | e
        · rfl
        · exact hfound e
      · simp only [fat32FindInDir, Query.run_bind, Query.run_pure, Option.bind_some,
          Option.bind_assoc, hentry]
        refine congrArg (Option.bind _) (funext fun es => ?_)
        rcases es.find? ((folders v m).same · n) with _ | e
        · rfl
        · exact hfound e
    · rw [if_pos (by omega), if_neg (by simpa [folders] using hn)]
      rfl

theorem fat32FindRoot_run (fuel : ℕ) (path : List UInt8) :
    (fat32FindRoot fuel v path).run m.read = (folders v m).find fuel none (components path) :=
  findComponents_run fuel none (components path)

end Folders

section Returns

/-- The listing of the directory follows a chain that goes round through clusters that show nothing,
with fewer than 64 entries before. -/
def Circular (v : Fat32Volume) (m : Medium) : Option ℕ → Prop
  | none => v.sectorsPerCluster ≤ 8 ∧ v.fatType = .fat32 ∧ (dirLinks v m).Circles 64 v.rootCluster
  | some c => v.sectorsPerCluster ≤ 8 ∧ (dirLinks v m).Circles 64 c

/-- The lookup of the path comes to list the directory. -/
def Visits (v : Fat32Volume) (m : Medium) (path : List UInt8) (dir : Option ℕ) : Prop :=
  (folders v m).Visits none (components path) dir

theorem listFixedRoot_isSome (v : Fat32Volume) (m : Medium) (maxEntries n : ℕ) :
    ∀ (i : ℕ) (s : DirScan), ((listFixedRoot v maxEntries n i s).run m.read).isSome := by
  induction n with
  | zero => exact fun _ _ => rfl
  | succ n ih =>
    intro i s
    rw [listFixedRoot]
    split_ifs
    · obtain ⟨read, hread⟩ := blockRead_returns m.read ((v.rootDirLba + i) % 2 ^ 32) 1
      simp only [Query.run_bind, hread, Option.bind_some]
      rcases read with _ | buf
      · rfl
      · dsimp only
        split_ifs
        · rfl
        · exact ih _ _
    · rfl

theorem listChain_returns_iff (v : Fat32Volume) (m : Medium) (maxEntries c : ℕ) :
    (∃ fuel, ((listChain v maxEntries fuel c []).run m.read).isSome)
      ↔ ¬ (dirLinks v m).Circles maxEntries c := by
  have hfin : {c | (dirLinks v m).enters c = true}.Finite :=
    (Set.finite_lt_nat fat32Eoc).subset fun c hc => (enters_iff (v := v)).1 hc
  rw [← Links.collect_returns_iff hfin]
  simp only [listChain_run v m maxEntries _ c [] (Nat.zero_le _)]

theorem listDir_returns_iff (v : Fat32Volume) (m : Medium) (dir : Option ℕ) :
    (∃ fuel, (listDir fuel v m dir).isSome) ↔ ¬ Circular v m dir := by
  rcases dir with _ | c
  · simp only [listDir, fat32ListRoot, Circular]
    by_cases hnone : 64 = 0 ∨ 8 < v.sectorsPerCluster
    · simp only [if_pos hnone]
      refine ⟨fun _ h => ?_, fun _ => ⟨0, rfl⟩⟩
      have := h.1
      omega
    · simp only [if_neg hnone]
      by_cases hty : v.fatType ≠ .fat32
      · simp only [if_pos hty]
        exact ⟨fun _ h => hty h.2.1, fun _ => ⟨0, listFixedRoot_isSome _ _ _ _ _ _⟩⟩
      · simp only [if_neg hty]
        rw [listChain_returns_iff, not_iff_not]
        exact ⟨fun h => ⟨by omega, not_not.1 hty, h⟩, fun h => h.2.2⟩
  · simp only [listDir, listClusterEntries, Circular]
    by_cases hspc : 8 < v.sectorsPerCluster
    · simp only [if_pos hspc]
      refine ⟨fun _ h => ?_, fun _ => ⟨0, rfl⟩⟩
      have := h.1
      omega
    · simp only [if_neg hspc]
      rw [listChain_returns_iff, not_iff_not]
      exact ⟨fun h => ⟨by omega, h⟩, fun h => h.2⟩

/-- The lookup of a path returns unless it comes to a directory that goes round. -/
theorem fat32FindRoot_returns_iff (v : Fat32Volume) (m : Medium) (path : List UInt8) :
    (∃ fuel, ((fat32FindRoot fuel v path).run m.read).isSome)
      ↔ ∀ dir, Visits v m path dir → ¬ Circular v m dir := by
  simp only [fat32FindRoot_run]
  rw [Folders.find_returns_iff]
  exact forall₂_congr fun dir _ => listDir_returns_iff v m dir

end Returns

section Complete

/-- The slots of a directory are stored, in a fixed root directory or in a chain of `K` clusters. -/
inductive StoresDir (v : Fat32Volume) (m : Medium) : Option ℕ → ℕ → List Buf → Prop
  | fixedRoot {K : ℕ} {S : List Buf} : StoresRoot v m S → StoresDir v m none K S
  | root {K : ℕ} {S : List Buf} : v.fatType = .fat32 → v.clusters.Stores m v.rootCluster K S →
      StoresDir v m none K S
  | sub {c K : ℕ} {S : List Buf} : v.clusters.Stores m c K S → StoresDir v m (some c) K S

/-- Where the names in the directory are assembled from. -/
def nameStart (v : Fat32Volume) : Option ℕ → ℕ → ℕ
  | none => if v.fatType = .fat32 then clusterStart v else fun _ => 0
  | some _ => clusterStart v

/-- Slot `i` is an entry of the directory: not deleted, and before the first slot that starts with
`0x00`. -/
structure InDirectory (S : List Buf) (i : ℕ) : Prop where
  entry : IsEntry (padded S i)
  before : ∀ j ≤ i, padded S j 0 ≠ 0

/-- Slot `i` is an entry behind a slot that starts with `0x00`. The listing comes to it if all such
slots are long-name slots. -/
structure Behind (S : List Buf) (i : ℕ) : Prop where
  entry : IsEntry (padded S i)
  live : ∀ j < i, ¬ EndMark (padded S j)
  zero : ∃ j < i, padded S j 0 = 0

/-- The path leads to the directory. -/
def Resolves (fuel : ℕ) (v : Fat32Volume) (m : Medium) (path : List UInt8)
    (dir : Option ℕ) : Prop :=
  (components path = [] ∧ dir = none) ∨
    ∃ d, (fat32FindRoot fuel v path).run m.read = some (some d) ∧
    d.attributes &&& attrDirectory ≠ 0 ∧ dir = some d.firstCluster

/-- The path is that of a directory with these slots, and a name behind it. -/
structure LooksIn (fuel : ℕ) (v : Fat32Volume) (m : Medium) (path name : List UInt8)
    (dir : Option ℕ) (S : List Buf) : Prop where
  small : v.sectorsPerCluster ≤ 8
  stored : ∃ K < fuel, StoresDir v m dir K S
  resolves : ∃ prePath, Resolves fuel v m prePath dir ∧
    components path = components prePath ++ [name]

variable {dir : Option ℕ} {K fuel : ℕ} {path name : List UInt8}

theorem listDir_stored (hpos : 1 ≤ v.sectorsPerCluster) (hspc : v.sectorsPerCluster ≤ 8)
    (h : StoresDir v m dir K S) (hfuel : K < fuel) :
    listDir fuel v m dir
      = some ((listing (padded S) (nameStart v dir) S.length 0).take 64) := by
  cases h with
  | fixedRoot h =>
    rw [listDir, fat32ListRoot_stored h hspc, nameStart, if_neg h.fixed]
  | root hty h =>
    have hrun := listClusterEntries_stored h hpos hspc hfuel 64
    rw [listClusterEntries, if_neg (by omega)] at hrun
    rw [listDir, fat32ListRoot, if_neg (by omega), if_neg (not_not.2 hty), hrun, nameStart,
      if_pos hty]
  | sub h => exact listClusterEntries_stored h hpos hspc hfuel 64

theorem Resolves.find {prePath : List UInt8} (h : Resolves fuel v m prePath dir)
    (hpath : components path = components prePath ++ [name]) :
    (fat32FindRoot fuel v path).run m.read = (folders v m).find fuel dir [name] := by
  rw [fat32FindRoot_run, hpath]
  rcases h with ⟨hnil, rfl⟩ | ⟨d, hrun, hdir, rfl⟩
  · rw [hnil, List.nil_append]
  · rw [fat32FindRoot_run] at hrun
    exact Folders.find_append (decide_eq_true hdir) (by simp) _ _ hrun

/-- What the lookup of a name in a stored directory returns. -/
theorem fat32FindRoot_stored (hpos : 1 ≤ v.sectorsPerCluster)
    (h : LooksIn fuel v m path name dir S) :
    (fat32FindRoot fuel v path).run m.read
      = some (((listing (padded S) (nameStart v dir) S.length 0).take 64).find?
        fun e => streqCi e.name name) := by
  obtain ⟨hspc, ⟨K, hfuel, hS⟩, prePath, hres, hpath⟩ := h
  have hlist := listDir_stored hpos hspc hS hfuel
  rw [hres.find hpath]
  by_cases hn : name.length < maxName
  · exact Folders.find_last (decide_eq_true hn) hlist
  · -- a name that is too long is not the name of an entry
    have hnone : ((listing (padded S) (nameStart v dir) S.length 0).take 64).find?
        (fun e => streqCi e.name name) = none := by
      rw [List.find?_eq_none]
      intro e he hsame
      obtain ⟨k, hk⟩ := List.mem_iff_getElem?.1 (List.mem_of_mem_take he)
      obtain ⟨i, -, -, -, -, rfl⟩ := getElem?_listing _ _ hk
      have := length_shownAt (padded S) (nameStart v dir) i
      rw [streqCi_length hsame] at this
      exact hn this
    rw [hnone]
    exact Folders.find_rejected (decide_eq_false hn)

theorem lt_of_padded {i : ℕ} (h : padded S i 0 ≠ 0) : i < S.length := by
  by_contra hge
  refine h ?_
  rw [padded, List.getD_eq_default _ _ (Nat.not_lt.1 hge)]

theorem InDirectory.live {i : ℕ} (h : InDirectory S i) : ∀ j < i, ¬ EndMark (padded S j) :=
  fun j hj hend => h.before j hj.le hend.2

/-- Slots the listing shows are entries of the directory, or behind a slot that starts with
`0x00`. -/
theorem inDirectory_or_behind {i : ℕ} (hentry : IsEntry (padded S i))
    (hlive : ∀ j < i, ¬ EndMark (padded S j)) : InDirectory S i ∨ Behind S i := by
  by_cases hzero : ∃ j < i, padded S j 0 = 0
  · exact Or.inr ⟨hentry, hlive, hzero⟩
  · refine Or.inl ⟨hentry, fun j hj hz => ?_⟩
    rcases hj.lt_or_eq with hlt | rfl
    · exact hzero ⟨j, hlt, hz⟩
    · exact hentry.2.1 hz

/-- Without a long-name slot before it a file is shown with its short name. -/
theorem shownAt_short {i : ℕ} (h : i = 0 ∨ ¬ isLongName (padded S (i - 1))) (start : ℕ → ℕ) :
    shownAt (padded S) start i = shownEntry (padded S i) [] := by
  have hname : assembled (padded S) (start i) i = [] := by
    rcases i with _ | i
    · rfl
    · have hlong : ¬ isLongName (padded S i) := h.resolve_left i.succ_ne_zero
      rw [assembled, nextName, if_neg hlong, ite_self]
  rw [shownAt, hname]

/-- An entry with a name of its own is found if fewer than 64 stand before it. -/
theorem fat32FindRoot_entry_iff (hpos : 1 ≤ v.sectorsPerCluster)
    (h : LooksIn fuel v m path name dir S) {i : ℕ} (hi : InDirectory S i)
    (hshort : i = 0 ∨ ¬ isLongName (padded S (i - 1)))
    (hname : streqCi (makeShortName (padded S i)) name = true)
    (hother : ∀ j, j ≠ i → InDirectory S j →
      streqCi (shownAt (padded S) (nameStart v dir) j).name name = false) :
    (fat32FindRoot fuel v path).run m.read = some (some (shownEntry (padded S i) []))
      ↔ entryCount (padded S) i < 64 := by
  rw [fat32FindRoot_stored hpos h, Option.some_inj,
    ← shownAt_short hshort (nameStart v dir)]
  have hlen := lt_of_padded (hi.before i le_rfl)
  refine Folders.find?_take_iff (listing_getElem? _ hlen hi.entry hi.live) ?_ fun k hk e he => ?_
  · rw [shownAt_short hshort]
    exact hname
  · obtain ⟨j, -, hentry, hlive, rfl, rfl⟩ := getElem?_listing _ _ he
    have hji : j < i := by
      by_contra hge
      exact absurd (entryCount_mono (padded S) (Nat.not_lt.1 hge)) (Nat.not_le.2 hk)
    exact hother j hji.ne ⟨hentry, fun z hz => hi.before z (by omega)⟩

/-- A name no entry has is not found, unless the listing shows it behind the end. -/
theorem fat32FindRoot_none_iff (hpos : 1 ≤ v.sectorsPerCluster)
    (h : LooksIn fuel v m path name dir S)
    (hother : ∀ j, InDirectory S j →
      streqCi (shownAt (padded S) (nameStart v dir) j).name name = false) :
    (fat32FindRoot fuel v path).run m.read = some none
      ↔ ∀ j, Behind S j → entryCount (padded S) j < 64 →
        streqCi (shownAt (padded S) (nameStart v dir) j).name name = false := by
  rw [fat32FindRoot_stored hpos h, Option.some_inj, List.find?_eq_none]
  constructor
  · intro hnone j hj hlt
    have hlen := lt_of_padded hj.entry.2.1
    have hget := listing_getElem? (nameStart v dir) hlen hj.entry hj.live
    rw [← List.getElem?_take_of_lt hlt] at hget
    simpa using hnone _ (List.mem_of_getElem? hget)
  · intro hbehind e he
    obtain ⟨k, hk⟩ := List.mem_iff_getElem?.1 he
    have hlt : k < 64 := by
      have := (List.getElem?_eq_some_iff.1 hk).1
      rw [List.length_take] at this
      omega
    rw [List.getElem?_take_of_lt hlt] at hk
    obtain ⟨j, -, hentry, hlive, rfl, rfl⟩ := getElem?_listing _ _ hk
    rcases inDirectory_or_behind hentry hlive with hj | hj
    · simp [hother j hj]
    · simp [hbehind j hj hlt]

end Complete

end Fat

end PeanutKernel
