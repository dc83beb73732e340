import PeanutKernel.Lib.Folders
import PeanutKernel.Proofs.ExfatListing

/-!
# Looking a path up on an exFAT volume

As on a FAT volume, `exfat_find_root` looks for each component among the first 64 entries of a
directory (`exfatFindRoot_entry_iff`), and it returns unless a directory on the way has a chain that
goes round (`exfatFindRoot_returns_iff`).
-/

namespace PeanutKernel

namespace Exfat

variable {v : ExfatVolume} {m : Medium}

section Folders

theorem listCluster_mono {maxEntries fuel fuel' c : ℕ} {es : List ExfatDirEntry}
    (hle : fuel ≤ fuel') (h : (listCluster v maxEntries fuel c []).run m.read = some es) :
    (listCluster v maxEntries fuel' c []).run m.read = some es := by
  rw [listCluster_run v m maxEntries _ c [] (Nat.zero_le _)] at h ⊢
  exact Links.collect_mono_le h hle

/-- The directories of a volume, by their first clusters, as `exfat_find_root` goes through them. -/
def folders (v : ExfatVolume) (m : Medium) : Folders ℕ ExfatDirEntry (List UInt8) where
  list fuel c := (listCluster v 64 fuel c []).run m.read
  same e n := streqCi e.name n
  accepts n := n.length < maxName
  isDir e := e.attributes &&& attrDirectory ≠ 0
  sub e := e.firstCluster
  mono := listCluster_mono

theorem findComponents_run (fuel : ℕ) :
    ∀ (c : ℕ) (ns : List (List UInt8)),
      (findComponents fuel v c ns).run m.read = (folders v m).find fuel c ns
  | _, [] => rfl
  | c, n :: ns => by
    rw [findComponents, Folders.find]
    by_cases hn : n.length < maxName
    · have hacc : (folders v m).accepts n = true := decide_eq_true hn
      rw [if_neg (by omega), if_pos hacc]
      simp only [findInClusterChain, Query.run_bind, Query.run_pure, Option.bind_some,
        Option.bind_assoc]
      refine congrArg (Option.bind _) (funext fun es => ?_)
      have hsame : es.find? (fun e => streqCi e.name n) = es.find? ((folders v m).same · n) := rfl
      rw [hsame]
      rcases es.find? ((folders v m).same · n) with _ | e
      · rfl
      · exact Folders.run_found (F := folders v m) (c := e.attributes &&& attrDirectory = 0)
          decide_eq_true_iff (findComponents_run fuel e.firstCluster ns)
    · rw [if_pos (by omega), if_neg (by simpa [folders] using hn)]
      rfl

theorem exfatFindRoot_run (fuel : ℕ) (path : List UInt8) :
    (exfatFindRoot fuel v path).run m.read
      = (folders v m).find fuel v.rootCluster (components path) :=
  findComponents_run fuel v.rootCluster (components path)

end Folders

section Returns

/-- The listing of the directory follows a chain that goes round through clusters that show nothing,
with fewer than 64 entries before. -/
def Circular (v : ExfatVolume) (m : Medium) (c : ℕ) : Prop := (dirLinks v m).Circles 64 c

/-- The lookup of the path comes to list the directory. -/
def Visits (v : ExfatVolume) (m : Medium) (path : List UInt8) (c : ℕ) : Prop :=
  (folders v m).Visits v.rootCluster (components path) c

theorem listCluster_returns_iff (v : ExfatVolume) (m : Medium) (c : ℕ) :
    (∃ fuel, ((listCluster v 64 fuel c []).run m.read).isSome) ↔ ¬ Circular v m c := by
  have hfin : {c | (dirLinks v m).enters c = true}.Finite :=
    (Set.finite_lt_nat exfatEoc).subset fun c hc => ((enters_iff (v := v)).1 hc).2
  rw [Circular, ← Links.collect_returns_iff hfin]
  simp only [listCluster_run v m 64 _ c [] (Nat.zero_le _)]

/-- The lookup of a path returns unless it comes to a directory that goes round. -/
theorem exfatFindRoot_returns_iff (v : ExfatVolume) (m : Medium) (path : List UInt8) :
    (∃ fuel, ((exfatFindRoot fuel v path).run m.read).isSome)
      ↔ ∀ c, Visits v m path c → ¬ Circular v m c := by
  simp only [exfatFindRoot_run]
  rw [Folders.find_returns_iff]
  exact forall₂_congr fun c _ => listCluster_returns_iff v m c

end Returns

section Complete

/-- The path leads to the directory that starts at the cluster. -/
def Resolves (fuel : ℕ) (v : ExfatVolume) (m : Medium) (path : List UInt8) (c : ℕ) : Prop :=
  (components path = [] ∧ c = v.rootCluster) ∨
    ∃ d, (exfatFindRoot fuel v path).run m.read = some (some d) ∧
      d.attributes &&& attrDirectory ≠ 0 ∧ c = d.firstCluster

/-- The sets of a directory that lie inside one cluster, with the slots they start at. -/
def wholeSets (v : ExfatVolume) (items : List Item) : List (ℕ × EntrySet) :=
  (placed 0 items).filter (InOneCluster v.clusters.slotsPerCluster ·)

/-- The path is that of a directory with these items, and a name behind it. -/
structure LooksIn (fuel : ℕ) (v : ExfatVolume) (m : Medium) (path name : List UInt8) (c : ℕ)
    (items : List Item) : Prop where
  stored : ∃ K < fuel, v.clusters.Stores m c K (items.flatMap Item.slots)
  resolves : ∃ prePath, Resolves fuel v m prePath c ∧
    components path = components prePath ++ [name]

variable {c fuel : ℕ} {path prePath name : List UInt8} {items : List Item}

theorem Resolves.find (h : Resolves fuel v m prePath c)
    (hpath : components path = components prePath ++ [name]) :
    (exfatFindRoot fuel v path).run m.read = (folders v m).find fuel c [name] := by
  rw [exfatFindRoot_run, hpath]
  rcases h with ⟨hnil, rfl⟩ | ⟨d, hrun, hdir, rfl⟩
  · rw [hnil, List.nil_append]
  · rw [exfatFindRoot_run] at hrun
    exact Folders.find_append (decide_eq_true hdir) (by simp) _ _ hrun

theorem EntrySet.length_name (s : EntrySet) : s.entry.name.length < maxName := by
  have hcut : s.entry.name.length ≤ maxName - 1 := by
    refine (List.takeWhile_prefix _).length_le.trans ?_
    rw [List.length_map]
    exact List.length_take_le _ _
  exact hcut.trans_lt (by decide)

variable (hpos : 1 ≤ v.sectorsPerCluster) (h : LooksIn fuel v m path name c items)

include hpos h

/-- What the lookup of a name in a stored directory returns. -/
theorem exfatFindRoot_stored :
    (exfatFindRoot fuel v path).run m.read
      = some ((((wholeSets v items).map fun q => q.2.entry).take 64).find?
        fun e => streqCi e.name name) := by
  obtain ⟨⟨K, hfuel, hS⟩, prePath, hres, hpath⟩ := h
  have hlist := listCluster_stored hpos hS hfuel 64
  rw [fitting_eq] at hlist
  rw [hres.find hpath]
  by_cases hn : name.length < maxName
  · exact Folders.find_last (decide_eq_true hn) hlist
  · -- a name that is too long is not the name of an entry
    have hnone : (((wholeSets v items).map fun q => q.2.entry).take 64).find?
        (fun e => streqCi e.name name) = none := by
      rw [List.find?_eq_none]
      intro e he hsame
      obtain ⟨q, -, rfl⟩ := List.mem_map.1 (List.mem_of_mem_take he)
      have := q.2.length_name
      rw [streqCi_length hsame] at this
      exact hn this
    rw [hnone]
    exact Folders.find_rejected (decide_eq_false hn)

/-- A set with a name of its own is found if fewer than 64 stand before it. -/
theorem exfatFindRoot_entry_iff {k : ℕ} {q : ℕ × EntrySet} (hq : (wholeSets v items)[k]? = some q)
    (hname : streqCi q.2.entry.name name = true) (hother : ∀ j q', j ≠ k → (wholeSets v items)[j]?
      = some q' → streqCi q'.2.entry.name name = false) :
    (exfatFindRoot fuel v path).run m.read = some (some q.2.entry) ↔ k < 64 := by
  rw [exfatFindRoot_stored hpos h, Option.some_inj]
  refine Folders.find?_take_iff (by simp [hq]) hname fun j hj e he => ?_
  rw [List.getElem?_map, Option.map_eq_some_iff] at he
  obtain ⟨q', hq', rfl⟩ := he
  exact hother j q' hj.ne hq'

/-- A name no set has is not found. -/
theorem exfatFindRoot_none (hother : ∀ q ∈ wholeSets v items, streqCi q.2.entry.name name = false) :
    (exfatFindRoot fuel v path).run m.read = some none := by
  rw [exfatFindRoot_stored hpos h, Option.some_inj, List.find?_eq_none]
  intro e he
  obtain ⟨q, hq, rfl⟩ := List.mem_map.1 (List.mem_of_mem_take he)
  simp [hother q hq]

end Complete

end Exfat

end PeanutKernel
