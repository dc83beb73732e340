import PeanutKernel.Lib.Fuel
import PeanutKernel.Lib.Halting
import PeanutKernel.Proofs.ExtfsExtents
import Mathlib.Order.Interval.Finset.Nat

/-!
# What a lookup on an ext volume maps

The blocks that `extfs_find_root` and `extfs_read_file` map on the way, as relations over their
runs. Mapping a block of an inode with extents goes from node to node, and nothing makes it come
deeper: it returns unless the nodes go round (`mapBlock_finishes_iff`), and a lookup or read returns
unless that happens for a block it maps (`extent_lookup_returns_iff`).
-/

namespace PeanutKernel

namespace Ext

open Query StateTransition

variable {v : ExtVolume} {m : Medium} {inode node : Buf} {lbn : ℕ}

section Returns

variable (ans : Transfer → Option Buf)

theorem readLoop_returns (firstLba n : ℕ) :
    ∀ pos left : ℕ, left ≤ n → ((readLoop firstLba n pos left).run ans).isSome := by
  induction n with
  | zero =>
    intro pos left hn
    obtain rfl : left = 0 := by omega
    rfl
  | succ n ih =>
    intro pos left hn
    rw [readLoop]
    split_ifs with hz
    · rfl
    · have hlt : pos % 512 < 512 := Nat.mod_lt _ (by omega)
      refine isSome_run_bind rfl fun sec => ?_
      rcases sec with _ | sec
      · rfl
      · exact isSome_run_bind (ih _ _ (by omega)) fun _ => rfl

theorem readBytes_returns (firstLba off len : ℕ) : ((readBytes firstLba off len).run ans).isSome :=
  isSome_run_bind (readLoop_returns ans firstLba len off len le_rfl) fun _ => rfl

theorem readInodeRaw_returns (v : ExtVolume) (inode outLen : ℕ) :
    ((readInodeRaw v inode outLen).run ans).isSome := by
  unfold readInodeRaw
  dsimp only
  split_ifs
  · rfl
  · rfl
  · refine isSome_run_bind (readBytes_returns ans _ _ _) fun gd => ?_
    rcases gd with _ | gd
    · rfl
    · exact readBytes_returns ans _ _ _

theorem readU32Block_returns (v : ExtVolume) (block idx : ℕ) :
    ((readU32Block v block idx).run ans).isSome := by
  refine isSome_run_bind (readBytes_returns ans _ _ _) fun sec => ?_
  rcases sec with _ | sec <;> rfl

theorem mapIndirect_returns (v : ExtVolume) (inode : Buf) (lbn : ℕ) :
    ((mapIndirect v inode lbn).run ans).isSome := by
  unfold mapIndirect
  dsimp only
  split_ifs
  · rfl
  · rfl
  · exact readU32Block_returns ans _ _ _
  · rfl
  · refine isSome_run_bind (readU32Block_returns ans _ _ _) fun a => ?_
    split_ifs
    · rfl
    · exact readU32Block_returns ans _ _ _
  · rfl
  · refine isSome_run_bind (readU32Block_returns ans _ _ _) fun a => ?_
    split_ifs
    · rfl
    · refine isSome_run_bind (readU32Block_returns ans _ _ _) fun b => ?_
      split_ifs
      · rfl
      · exact readU32Block_returns ans _ _ _

end Returns

section Nodes

/-- The root of the extents of an inode. -/
def extentRoot (inode : Buf) : Buf := fun i => inode (40 + i)

/-- The block of the entry by which `lbn` is looked for below a node. -/
def childBlock (lbn : ℕ) (node : Buf) : ℕ :=
  le32 (nodeEntry node (pickIndex node lbn)) 4
    ||| le16 (nodeEntry node (pickIndex node lbn)) 8 * 2 ^ 16

/-- The node that `map_extents_recurse` calls itself with. -/
def nextNode (v : ExtVolume) (m : Medium) (lbn : ℕ) (node : Buf) : Option Buf :=
  if nodeMagic node ≠ extentMagic ∨ nodeDepth node = 0 ∨ 4096 < v.blockSize then none
  else ((readBlockFull v (childBlock lbn node)).run m.read).join

/-- The nodes in which a block of an inode is looked for come back to one of them. -/
def Circular (v : ExtVolume) (m : Medium) (inode : Buf) (lbn : ℕ) : Prop :=
  inodeFlags inode &&& extentsFl ≠ 0 ∧ GoesRound (nextNode v m lbn) (extentRoot inode)

/-- What is returned at a node that is the last. -/
def lastBlock (lbn : ℕ) (node : Buf) : ℕ :=
  if nodeMagic node = extentMagic ∧ nodeDepth node = 0 then leafBlock node lbn else 0

theorem mapExtentsRecurse_succ (fuel : ℕ) :
    (mapExtentsRecurse v lbn (fuel + 1) node).run m.read = match nextNode v m lbn node with
      | none => some (lastBlock lbn node)
      | some next => (mapExtentsRecurse v lbn fuel next).run m.read := by
  by_cases hmagic : nodeMagic node = extentMagic
  · by_cases hdepth : nodeDepth node = 0
    · simp [mapExtentsRecurse_leaf hmagic hdepth, nextNode, lastBlock, hmagic, hdepth]
    · by_cases hbs : v.blockSize ≤ 4096
      · have hread := readBytes_returns m.read v.partition.firstLba
          (childBlock lbn node * v.blockSize) v.blockSize
        obtain ⟨r, hr⟩ := Option.isSome_iff_exists.1 hread
        have hr' : (readBlockFull v (childBlock lbn node)).run m.read = some r := hr
        have hnext : nextNode v m lbn node = r := by
          simp [nextNode, hmagic, hdepth, Nat.not_lt.2 hbs, hr']
        rw [mapExtentsRecurse_index hmagic hdepth hbs, hnext]
        change (readBlockFull v (childBlock lbn node) >>= _).run m.read = _
        rw [run_bind, hr', Option.bind_some]
        rcases r with _ | next
        · simp [lastBlock, hdepth]
        · rfl
      · simp [mapExtentsRecurse, nextNode, lastBlock, hmagic, hdepth, Nat.lt_of_not_le hbs]
  · simp [mapExtentsRecurse, nextNode, lastBlock, hmagic]

theorem mapExtentsRecurse_zero {b : ℕ} (h : (mapExtentsRecurse v lbn 0 node).run m.read = some b) :
    nextNode v m lbn node = none ∧ lastBlock lbn node = b := by
  rw [mapExtentsRecurse] at h
  unfold nextNode lastBlock
  split_ifs at h with hmagic hdepth
  · simpa [hmagic] using h
  · simpa [hdepth, not_not.1 hmagic] using h
  · cases h

theorem mapExtentsRecurse_mono (lbn : ℕ) (node : Buf) :
    FuelMono m.read (mapExtentsRecurse v lbn · node) := by
  intro fuel
  induction fuel generalizing node with
  | zero =>
    intro b h
    obtain ⟨hn, hb⟩ := mapExtentsRecurse_zero h
    rw [mapExtentsRecurse_succ, hn, hb]
  | succ fuel ih =>
    intro b h
    rw [mapExtentsRecurse_succ] at h ⊢
    rcases hn : nextNode v m lbn node with _ | next
    · rwa [hn] at h
    · rw [hn] at h
      exact ih next b h

theorem mapExtentsRecurse_finishes_iff :
    Finishes m.read (mapExtentsRecurse v lbn · node) ↔ (eval (nextNode v m lbn) node).Dom := by
  constructor
  · rintro ⟨b, fuel, h⟩
    induction fuel generalizing node with
    | zero => exact dom_of_eq_none (mapExtentsRecurse_zero h).1
    | succ fuel ih =>
      rw [mapExtentsRecurse_succ] at h
      rcases hn : nextNode v m lbn node with _ | next
      · exact dom_of_eq_none hn
      · rw [hn] at h
        exact (dom_iff_of_eq_some hn).2 (ih h)
  · intro h
    refine dom_induction (P := fun node => Finishes m.read (mapExtentsRecurse v lbn · node)) h ?_ ?_
    · intro node hn
      refine ⟨lastBlock lbn node, 1, ?_⟩
      rw [mapExtentsRecurse_succ, hn]
    · rintro node next hn ⟨b, fuel, h⟩
      refine ⟨b, fuel + 1, ?_⟩
      rw [mapExtentsRecurse_succ, hn]
      exact h

theorem childBlock_lt (lbn : ℕ) (node : Buf) : childBlock lbn node < 2 ^ 32 := by
  have := le16_lt (nodeEntry node (pickIndex node lbn)) 8
  exact Nat.or_lt_two_pow (le32_lt _ _) (by omega)

/-- But for the root, the nodes are blocks. -/
theorem finite_nodes (lbn : ℕ) (root : Buf) :
    {node | Reaches (nextNode v m lbn) root node}.Finite := by
  have hblocks :
      ((fun pb => ((readBlockFull v pb).run m.read).join) '' {pb | pb < 2 ^ 32}).Finite :=
    (Set.finite_lt_nat _).image _
  refine (((Set.finite_singleton root).union
    (hblocks.preimage (Option.some_injective Buf).injOn))).subset fun node hnode => ?_
  rcases Relation.ReflTransGen.cases_tail hnode with rfl | ⟨parent, -, hnext⟩
  · exact .inl rfl
  · right
    rw [Option.mem_def, nextNode] at hnext
    split_ifs at hnext
    exact ⟨childBlock lbn parent, childBlock_lt lbn parent, hnext⟩

theorem mapBlock_mono (inode : Buf) (lbn : ℕ) : FuelMono m.read (mapBlock · v inode lbn) := by
  unfold mapBlock
  split_ifs
  · exact mapExtentsRecurse_mono lbn _
  · exact fuelMono_const _

theorem mapBlock_finishes_iff :
    Finishes m.read (mapBlock · v inode lbn) ↔ ¬ Circular v m inode lbn := by
  unfold mapBlock Circular
  split_ifs with hflag
  · rw [mapExtentsRecurse_finishes_iff, dom_iff_not_goesRound (finite_nodes lbn _)]
    exact not_congr (and_iff_right hflag).symm
  · exact iff_of_true (finishes_const.2 (mapIndirect_returns m.read v inode lbn)) fun h => hflag h.1

end Nodes

section Lookups

/-- The first name of a path and what comes after it. -/
def firstName (path : List UInt8) : List UInt8 := path.takeWhile (· ≠ 47)

def restOf (path : List UInt8) : List UInt8 := (path.dropWhile (· ≠ 47)).dropWhile (· = 47)

/-- The loop of `read_dir_entries` over `n` blocks from `b` on maps block `k`. -/
inductive ScanMaps (v : ExtVolume) (m : Medium) (dir : Buf) (name : List UInt8) :
    ℕ → ℕ → ℕ → Prop
  | here {n b : ℕ} : ScanMaps v m dir name (n + 1) b b
  | next {n b k pb : ℕ} {blk : Buf} : Yields m.read (mapBlock · v dir b) pb → pb ≠ 0 →
      (readBlockFull v pb).run m.read = some (some blk) →
      scanRecords blk v.blockSize name v.blockSize 0 = none →
      ScanMaps v m dir name n (b + 1) k → ScanMaps v m dir name (n + 1) b k

/-- `read_dir_entries` on inode `cur` maps block `k` of `dir`. -/
structure DirMaps (v : ExtVolume) (m : Medium) (cur : ℕ) (name : List UInt8) (dir : Buf) (k : ℕ) :
    Prop where
  inode : (readInodeRaw v cur 256).run m.read = some (some dir)
  mode : inodeMode dir &&& modeDir ≠ 0
  size : v.blockSize ≤ 4096
  scan : ScanMaps v m dir name (blockCount v (inodeSizeBytes dir)) 0 k

/-- The loop of `extfs_find_root` from inode `cur` with the path maps block `k` of `dir` to look for
`name`. -/
inductive FindMaps (v : ExtVolume) (m : Medium) :
    ℕ → List UInt8 → List UInt8 → Buf → ℕ → Prop
  | here {cur k : ℕ} {path : List UInt8} {dir : Buf} : path ≠ [] → (firstName path).length < 256 →
      DirMaps v m cur (firstName path) dir k → FindMaps v m cur path (firstName path) dir k
  | next {cur next k : ℕ} {path name : List UInt8} {dir : Buf} : path ≠ [] →
      (firstName path).length < 256 →
      Yields m.read (fun fuel => readDirEntries fuel v cur (firstName path) (restOf path ≠ []))
        (some next) →
      FindMaps v m next (restOf path) name dir k → FindMaps v m cur path name dir k

/-- What a loop over blocks does with block `pb`, unless that is 0 or cannot be read. -/
def withBlock {α : Type} (v : ExtVolume) (pb : ℕ) (g : Buf → BlockM (Option α)) :
    BlockM (Option α) :=
  if pb = 0 then pure none else (readBlockFull v pb).andThen g

section Loop

variable {α : Type} {g : ℕ → Buf → BlockM (Option α)}

variable (hg : ∀ blk, FuelMono m.read (g · blk))

include hg

theorem withBlock_mono (pb : ℕ) : FuelMono m.read fun fuel => withBlock v pb (g fuel) := by
  unfold withBlock
  split_ifs
  · exact fuelMono_const _
  · exact fuelMono_andThen (fuelMono_const _) hg

theorem mapped_mono (b : ℕ) :
    FuelMono m.read fun fuel => mapBlock fuel v inode b >>= (withBlock v · (g fuel)) :=
  fuelMono_bind (mapBlock_mono inode b) (withBlock_mono hg)

/-- A round that maps block `b` and goes on with it. -/
theorem mapped_finishes_iff (b : ℕ) :
    Finishes m.read (fun fuel => mapBlock fuel v inode b >>= (withBlock v · (g fuel))) ↔
      ¬ Circular v m inode b ∧ ∀ pb blk, Yields m.read (mapBlock · v inode b) pb → pb ≠ 0 →
        (readBlockFull v pb).run m.read = some (some blk) → Finishes m.read (g · blk) := by
  rw [finishes_bind (mapBlock_mono inode b) (withBlock_mono hg), mapBlock_finishes_iff]
  refine and_congr_right fun _ => forall_congr' fun pb => ?_
  unfold withBlock
  split_ifs with hpb
  · exact iff_of_true (fun _ => finishes_const.2 rfl) fun _ _ hne => absurd hpb hne
  · rw [finishes_andThen (fuelMono_const _) hg]
    simp only [yields_const]
    exact ⟨fun h blk hy _ hblk => (h hy).2 blk hblk, fun h hy =>
      ⟨finishes_const.2 (readBytes_returns _ _ _ _), fun blk hblk => h blk hy hpb hblk⟩⟩

end Loop

theorem scanBlocks_succ (fuel : ℕ) (v : ExtVolume) (dir : Buf) (name : List UInt8) (n b : ℕ) :
    scanBlocks fuel v dir name (n + 1) b = mapBlock fuel v dir b >>= (withBlock v · fun blk =>
      match scanRecords blk v.blockSize name v.blockSize 0 with
      | some ino => pure (some ino)
      | none => scanBlocks fuel v dir name n (b + 1)) := by
  rw [scanBlocks]
  congr 1
  funext pb
  unfold withBlock
  split_ifs
  · rfl
  · exact bind_eq_andThen rfl fun _ => rfl

theorem scanRest_mono {dir : Buf} {name : List UInt8} {n b : ℕ}
    (h : FuelMono m.read (scanBlocks · v dir name n b)) (blk : Buf) :
    FuelMono m.read fun fuel => (match scanRecords blk v.blockSize name v.blockSize 0 with
      | some ino => pure (some ino)
      | none => scanBlocks fuel v dir name n b : BlockM (Option ℕ)) := by
  split
  · exact fuelMono_const _
  · exact h

theorem scanBlocks_mono (dir : Buf) (name : List UInt8) (n : ℕ) :
    ∀ b, FuelMono m.read (scanBlocks · v dir name n b) := by
  induction n with
  | zero => exact fun b => fuelMono_const _
  | succ n ih =>
    intro b
    simp only [scanBlocks_succ]
    exact mapped_mono (scanRest_mono (ih (b + 1))) b

theorem scanBlocks_finishes_iff (dir : Buf) (name : List UInt8)
    (n : ℕ) : ∀ b, Finishes m.read (scanBlocks · v dir name n b)
      ↔ ∀ k, ScanMaps v m dir name n b k → ¬ Circular v m dir k := by
  induction n with
  | zero =>
    intro b
    refine iff_of_true (finishes_const.2 rfl) fun k h => ?_
    cases h
  | succ n ih =>
    intro b
    simp only [scanBlocks_succ]
    rw [mapped_finishes_iff (scanRest_mono (scanBlocks_mono dir name n (b + 1)))]
    constructor
    · rintro ⟨hhere, hrest⟩ k (_ | ⟨hpb, hne, hblk, hnone, hk⟩)
      · exact hhere
      · have hfin := hrest _ _ hpb hne hblk
        simp only [hnone] at hfin
        exact (ih (b + 1)).1 hfin k hk
    · intro h
      refine ⟨h b .here, fun pb blk hpb hne hblk => ?_⟩
      rcases hnone : scanRecords blk v.blockSize name v.blockSize 0 with _ | ino
      · exact (ih (b + 1)).2 fun k hk => h k (.next hpb hne hblk hnone hk)
      · exact finishes_const.2 rfl

/-- The end of `read_dir_entries`, once the name is found. -/
def checkDir (v : ExtVolume) (wantDir : Bool) (ino : ℕ) : BlockM (Option ℕ) :=
  if wantDir then (readInodeRaw v ino 256).andThen fun child =>
    pure (if inodeMode child &&& modeDir = 0 then none else some ino)
  else pure (some ino)

theorem readDirEntries_eq (fuel : ℕ) (v : ExtVolume) (cur : ℕ) (name : List UInt8)
    (wantDir : Bool) :
    readDirEntries fuel v cur name wantDir = (readInodeRaw v cur 256).andThen fun dir =>
      if inodeMode dir &&& modeDir = 0 then pure none
      else if 4096 < v.blockSize then pure none
      else (scanBlocks fuel v dir name (blockCount v (inodeSizeBytes dir)) 0).andThen
        (checkDir v wantDir) := by
  refine bind_eq_andThen rfl fun dir => if_congr Iff.rfl rfl (if_congr Iff.rfl rfl ?_)
  refine bind_eq_andThen rfl fun ino => ?_
  rcases wantDir with _ | _
  · rfl
  · exact bind_eq_andThen rfl fun _ => rfl

theorem checkDir_returns (ans : Transfer → Option Buf) (v : ExtVolume) (wantDir : Bool) (ino : ℕ) :
    ((checkDir v wantDir ino).run ans).isSome := by
  unfold checkDir
  split_ifs
  · refine isSome_run_bind (readInodeRaw_returns ans v ino 256) fun child => ?_
    rcases child with _ | child <;> rfl
  · rfl

theorem readDirRest_mono (name : List UInt8) (wantDir : Bool)
    (dir : Buf) : FuelMono m.read fun fuel =>
      if inodeMode dir &&& modeDir = 0 then pure none
      else if 4096 < v.blockSize then pure none
      else (scanBlocks fuel v dir name (blockCount v (inodeSizeBytes dir)) 0).andThen
        (checkDir v wantDir) := by
  split_ifs
  · exact fuelMono_const _
  · exact fuelMono_const _
  · exact fuelMono_andThen (scanBlocks_mono dir name _ 0) fun _ => fuelMono_const _

theorem readDirEntries_mono (cur : ℕ) (name : List UInt8)
    (wantDir : Bool) : FuelMono m.read (readDirEntries · v cur name wantDir) := by
  simp only [readDirEntries_eq]
  exact fuelMono_andThen (fuelMono_const _) (readDirRest_mono name wantDir)

theorem readDirEntries_finishes_iff (cur : ℕ) (name : List UInt8)
    (wantDir : Bool) : Finishes m.read (readDirEntries · v cur name wantDir)
      ↔ ∀ dir k, DirMaps v m cur name dir k → ¬ Circular v m dir k := by
  simp only [readDirEntries_eq]
  rw [finishes_andThen (fuelMono_const _) (readDirRest_mono name wantDir)]
  simp only [finishes_const, readInodeRaw_returns, yields_const, true_and]
  refine forall_congr' fun dir => ?_
  have hscan := @scanBlocks_finishes_iff v m dir name (blockCount v (inodeSizeBytes dir)) 0
  constructor
  · intro h k hk
    have hfin := h hk.inode
    simp only [if_neg hk.mode, if_neg (Nat.not_lt.2 hk.size)] at hfin
    rw [finishes_andThen_const (scanBlocks_mono dir name _ 0)] at hfin
    exact hscan.1 hfin.1 k hk.scan
  · intro h hdir
    split_ifs with hmode hsize
    · exact finishes_const.2 rfl
    · exact finishes_const.2 rfl
    · rw [finishes_andThen_const (scanBlocks_mono dir name _ 0)]
      exact ⟨hscan.2 fun k hk => h k ⟨hdir, hmode, Nat.not_lt.1 hsize, hk⟩,
        fun ino _ => checkDir_returns m.read v wantDir ino⟩

theorem findFrom_succ (fuel : ℕ) (v : ExtVolume) (n cur : ℕ) {path : List UInt8} (h : path ≠ []) :
    findFrom fuel v (n + 1) cur path = if 256 ≤ (firstName path).length then pure none
      else (readDirEntries fuel v cur (firstName path) (restOf path ≠ [])).andThen fun next =>
        findFrom fuel v n next (restOf path) := by
  rw [findFrom, if_neg h]
  dsimp only
  unfold firstName restOf
  split_ifs
  · rfl
  · exact bind_eq_andThen rfl fun _ => rfl

theorem findFrom_nil (fuel : ℕ) (v : ExtVolume) (n cur : ℕ) :
    findFrom fuel v n cur [] = pure (some cur) := by
  cases n <;> rfl

theorem restOf_length {path : List UInt8} (h : path ≠ []) : (restOf path).length < path.length := by
  obtain ⟨c, path, rfl⟩ := List.exists_cons_of_ne_nil h
  have hle : ∀ (p q : UInt8 → Bool) (l : List UInt8),
      ((l.dropWhile p).dropWhile q).length ≤ l.length :=
    fun p q l => ((List.dropWhile_sublist q).trans (List.dropWhile_sublist p)).length_le
  unfold restOf
  by_cases hc : c = 47
  · have := ((List.dropWhile_sublist (fun c : UInt8 => decide (c = 47)) (l := path))).length_le
    simp [hc]
    omega
  · have := hle (fun c => decide (c ≠ 47)) (fun c => decide (c = 47)) path
    rw [List.dropWhile_cons_of_pos (by simpa using hc)]
    simp only [List.length_cons]
    omega

theorem findFrom_mono (n : ℕ) :
    ∀ (cur : ℕ) (path : List UInt8), FuelMono m.read (findFrom · v n cur path) := by
  induction n with
  | zero =>
    intro cur path
    by_cases hp : path = []
    · simp only [hp, findFrom_nil]
      exact fuelMono_const _
    · intro fuel b h
      simp [findFrom, hp] at h
  | succ n ih =>
    intro cur path
    by_cases hp : path = []
    · simp only [hp, findFrom_nil]
      exact fuelMono_const _
    · simp only [findFrom_succ _ v n cur hp]
      split_ifs
      · exact fuelMono_const _
      · exact fuelMono_andThen (readDirEntries_mono cur _ _) fun next => ih next _

theorem findFrom_finishes_iff (n : ℕ) :
    ∀ (cur : ℕ) (path : List UInt8), path.length ≤ n → (Finishes m.read (findFrom · v n cur path)
      ↔ ∀ name dir k, FindMaps v m cur path name dir k → ¬ Circular v m dir k) := by
  have hnil : ∀ n cur, Finishes m.read (findFrom · v n cur [])
      ↔ ∀ name dir k, FindMaps v m cur [] name dir k → ¬ Circular v m dir k := by
    intro n cur
    simp only [findFrom_nil]
    refine iff_of_true (finishes_const.2 rfl) fun name dir k h => ?_
    rcases h with ⟨hne, -⟩ | ⟨hne, -⟩
    · exact absurd rfl hne
    · exact absurd rfl hne
  induction n with
  | zero =>
    intro cur path hn
    rw [List.length_eq_zero_iff.1 (Nat.le_zero.1 hn)]
    exact hnil 0 cur
  | succ n ih =>
    intro cur path hn
    rcases eq_or_ne path [] with rfl | hp
    · exact hnil (n + 1) cur
    have hrest : (restOf path).length ≤ n := by have := restOf_length hp; omega
    simp only [findFrom_succ _ v n cur hp]
    split_ifs with hlen
    · refine iff_of_true (finishes_const.2 rfl) fun name dir k h => ?_
      rcases h with ⟨-, hlt, -⟩ | ⟨-, hlt, -⟩
      · omega
      · omega
    · rw [finishes_andThen (readDirEntries_mono cur _ _) fun next => findFrom_mono n next _,
        readDirEntries_finishes_iff]
      constructor
      · rintro ⟨hhere, hnext⟩ name dir k h
        rcases h with ⟨-, -, hdir⟩ | ⟨-, -, hyield, hfind⟩
        · exact hhere dir k hdir
        · exact (ih _ _ hrest).1 (hnext _ hyield) name dir k hfind
      · intro h
        refine ⟨fun dir k hdir => h _ dir k (.here hp (Nat.not_le.1 hlen) hdir), fun next hy => ?_⟩
        exact (ih _ _ hrest).2 fun name dir k hfind =>
          h name dir k (.next hp (Nat.not_le.1 hlen) hy hfind)

/-- A path without one leading slash. -/
def relative (path : List UInt8) : List UInt8 :=
  if path.head? = some 47 then path.tail else path

theorem extfsFindRoot_mono (path : List UInt8) : FuelMono m.read (extfsFindRoot · v path) :=
  findFrom_mono _ rootInode (relative path)

theorem extfsFindRoot_finishes_iff (path : List UInt8) :
    Finishes m.read (extfsFindRoot · v path)
      ↔ ∀ name dir k, FindMaps v m rootInode (relative path) name dir k → ¬ Circular v m dir k :=
  findFrom_finishes_iff _ rootInode (relative path) le_rfl

end Lookups

section Files

/-- The loop of `extfs_read_file` over `n` blocks from `b` on maps block `k`. -/
inductive ReadMaps (v : ExtVolume) (m : Medium) (inode : Buf) : ℕ → ℕ → ℕ → Prop
  | here {n b : ℕ} : ReadMaps v m inode (n + 1) b b
  | next {n b k pb : ℕ} {blk : Buf} : Yields m.read (mapBlock · v inode b) pb → pb ≠ 0 →
      (readBlockFull v pb).run m.read = some (some blk) → ReadMaps v m inode n (b + 1) k →
      ReadMaps v m inode (n + 1) b k

/-- `extfs_read_file` maps block `k` of the inode, in the lookup or in the file. -/
inductive FileMaps (v : ExtVolume) (m : Medium) (path : List UInt8) (bufferSize : ℕ) :
    Buf → ℕ → Prop
  | lookup {name : List UInt8} {dir : Buf} {k : ℕ} :
      FindMaps v m rootInode (relative path) name dir k → FileMaps v m path bufferSize dir k
  | file {inode : Buf} {k : ℕ} : Yields m.read (openRegular · v path) (some inode) →
      inodeSizeBytes inode ≤ bufferSize → v.blockSize ≤ 4096 →
      ReadMaps v m inode (blockCount v (inodeSizeBytes inode)) 0 k →
      FileMaps v m path bufferSize inode k

/-- The end of `openRegular`. -/
def checkRegular (v : ExtVolume) (ino : ℕ) : BlockM (Option Buf) :=
  (readInodeRaw v ino 256).andThen fun inode =>
    pure (if inodeMode inode &&& modeReg = 0 then none else some inode)

theorem openRegular_eq (fuel : ℕ) (v : ExtVolume) (path : List UInt8) :
    openRegular fuel v path = (extfsFindRoot fuel v path).andThen (checkRegular v) :=
  bind_eq_andThen rfl fun _ => bind_eq_andThen rfl fun _ => rfl

theorem openRegular_mono (path : List UInt8) : FuelMono m.read (openRegular · v path) := by
  simp only [openRegular_eq]
  exact fuelMono_andThen (extfsFindRoot_mono path) fun _ => fuelMono_const _

theorem openRegular_finishes_iff (path : List UInt8) :
    Finishes m.read (openRegular · v path) ↔ Finishes m.read (extfsFindRoot · v path) := by
  simp only [openRegular_eq]
  rw [finishes_andThen_const (extfsFindRoot_mono path)]
  refine and_iff_left fun ino _ => isSome_run_bind (readInodeRaw_returns m.read v ino 256) ?_
  rintro (_ | inode) <;> rfl

/-- The rest of a round of `extfs_read_file` and the rounds after it, once its block is read. -/
def readRest (fuel : ℕ) (v : ExtVolume) (inode : Buf) (size n b copied : ℕ) (blk : Buf) :
    BlockM (Option (List UInt8)) := do
  let take := if size < copied + v.blockSize then size - copied else v.blockSize
  let rest ← readBlocks fuel v inode size n b (copied + take)
  pure (rest.map (bytesOf blk take ++ ·))

theorem readBlocks_eq (fuel : ℕ) (v : ExtVolume) (inode : Buf) (size n b copied : ℕ) :
    readBlocks fuel v inode size (n + 1) b copied
      = mapBlock fuel v inode b >>=
        (withBlock v · (readRest fuel v inode size n (b + 1) copied)) := by
  rw [readBlocks]
  congr 1
  funext pb
  exact if_congr Iff.rfl rfl (bind_eq_andThen rfl fun _ => rfl)

theorem readRest_mono {size n b copied : ℕ}
    (h : ∀ copied, FuelMono m.read (readBlocks · v inode size n b copied)) (blk : Buf) :
    FuelMono m.read (readRest · v inode size n b copied blk) :=
  fuelMono_bind (h _) fun _ => fuelMono_const _

theorem readBlocks_mono (inode : Buf) (size n : ℕ) :
    ∀ b copied, FuelMono m.read (readBlocks · v inode size n b copied) := by
  induction n with
  | zero => exact fun b copied => fuelMono_const _
  | succ n ih =>
    intro b copied
    simp only [readBlocks_eq]
    exact mapped_mono (readRest_mono (ih (b + 1))) b

theorem readRest_finishes_iff {size n b copied : ℕ} {P : Prop}
    (h : ∀ copied, Finishes m.read (readBlocks · v inode size n b copied) ↔ P) (blk : Buf) :
    Finishes m.read (readRest · v inode size n b copied blk) ↔ P := by
  rw [← h (copied + if size < copied + v.blockSize then size - copied else v.blockSize)]
  refine (finishes_bind_const (readBlocks_mono inode size n b _)).trans ?_
  exact and_iff_left fun _ _ => rfl

theorem readBlocks_finishes_iff (inode : Buf) (size n : ℕ) :
    ∀ b copied, Finishes m.read (readBlocks · v inode size n b copied)
      ↔ ∀ k, ReadMaps v m inode n b k → ¬ Circular v m inode k := by
  induction n with
  | zero =>
    intro b copied
    refine iff_of_true (finishes_const.2 rfl) fun k h => ?_
    cases h
  | succ n ih =>
    intro b copied
    simp only [readBlocks_eq]
    rw [mapped_finishes_iff (readRest_mono (readBlocks_mono inode size n (b + 1)))]
    simp only [readRest_finishes_iff (ih (b + 1))]
    constructor
    · rintro ⟨hhere, hrest⟩ k (_ | ⟨hpb, hne, hblk, hk⟩)
      · exact hhere
      · exact hrest _ _ hpb hne hblk k hk
    · intro h
      exact ⟨h b .here, fun pb blk hpb hne hblk k hk => h k (.next hpb hne hblk hk)⟩

/-- `extfs_read_file` once the file is open. -/
def readOpened (fuel : ℕ) (v : ExtVolume) (bufferSize : ℕ) (inode : Buf) :
    BlockM (Option (List UInt8)) :=
  if bufferSize < inodeSizeBytes inode then pure none
  else if 4096 < v.blockSize then pure none
  else readBlocks fuel v inode (inodeSizeBytes inode) (blockCount v (inodeSizeBytes inode)) 0 0

theorem extfsReadFile_eq (fuel : ℕ) (v : ExtVolume) (path : List UInt8) (bufferSize : ℕ) :
    extfsReadFile fuel v path bufferSize
      = (openRegular fuel v path).andThen (readOpened fuel v bufferSize) :=
  bind_eq_andThen rfl fun _ => rfl

theorem readOpened_mono (bufferSize : ℕ) (inode : Buf) :
    FuelMono m.read (readOpened · v bufferSize inode) := by
  unfold readOpened
  split_ifs
  · exact fuelMono_const _
  · exact fuelMono_const _
  · exact readBlocks_mono inode _ _ 0 0

theorem readOpened_finishes_iff (bufferSize : ℕ) (inode : Buf) :
    Finishes m.read (readOpened · v bufferSize inode)
      ↔ (inodeSizeBytes inode ≤ bufferSize → v.blockSize ≤ 4096 →
        ∀ k, ReadMaps v m inode (blockCount v (inodeSizeBytes inode)) 0 k →
          ¬ Circular v m inode k) := by
  unfold readOpened
  split_ifs with hsize hbs
  · exact iff_of_true (finishes_const.2 rfl) fun hle => absurd hsize (Nat.not_lt.2 hle)
  · exact iff_of_true (finishes_const.2 rfl) fun _ hle => absurd hbs (Nat.not_lt.2 hle)
  · rw [readBlocks_finishes_iff]
    exact ⟨fun h _ _ => h, fun h => h (Nat.not_lt.1 hsize) (Nat.not_lt.1 hbs)⟩

theorem extfsReadFile_finishes_iff (path : List UInt8)
    (bufferSize : ℕ) : Finishes m.read (extfsReadFile · v path bufferSize)
      ↔ ∀ inode k, FileMaps v m path bufferSize inode k → ¬ Circular v m inode k := by
  simp only [extfsReadFile_eq]
  rw [finishes_andThen (openRegular_mono path) (readOpened_mono bufferSize),
    openRegular_finishes_iff, extfsFindRoot_finishes_iff]
  simp only [readOpened_finishes_iff]
  constructor
  · rintro ⟨hfind, hfile⟩ inode k (h | ⟨hopen, hsize, hbs, h⟩)
    · exact hfind _ _ _ h
    · exact hfile inode hopen hsize hbs k h
  · intro h
    exact ⟨fun name dir k hmaps => h dir k (.lookup hmaps),
      fun inode hopen hsize hbs k hmaps => h inode k (.file hopen hsize hbs hmaps)⟩

/-- The inode of the root directory. -/
def rootDir (m : Medium) : Buf :=
  (((readInodeRaw sampleVolume 2 256).run m.read).getD none).getD fun _ => 0

theorem rootDir_read (h : (((readInodeRaw sampleVolume 2 256).run m.read).getD none).isSome) :
    (readInodeRaw sampleVolume 2 256).run m.read = some (some (rootDir m)) := by
  unfold rootDir
  generalize (readInodeRaw sampleVolume 2 256).run m.read = o at h ⊢
  rcases o with _ | _ | inode
  · cases h
  · cases h
  · rfl

/-- Every lookup maps the first block of the root directory. -/
theorem findMaps_rootDir (h : (((readInodeRaw sampleVolume 2 256).run m.read).getD none).isSome)
    (hmode : inodeMode (rootDir m) &&& modeDir ≠ 0)
    (hcount : blockCount sampleVolume (inodeSizeBytes (rootDir m)) = 1) {path : List UInt8}
    (hpath : relative path ≠ []) (hlen : (firstName (relative path)).length < 256) :
    FindMaps sampleVolume m rootInode (relative path) (firstName (relative path)) (rootDir m)
      0 := by
  refine .here hpath hlen ⟨rootDir_read h, hmode, by decide, ?_⟩
  rw [hcount]
  exact .here

/-- The root directory has extents, and the node below their root, block 5, is its own child. -/
def roundMedium : Medium := sparseMedium
  [(1024 + 4, 8), (1024 + 20, 1), (1024 + 32, 8), (1024 + 40, 8), (1024 + 56, 0x53),
    (1024 + 57, 0xEF), (1024 + 88, 128), (2048 + 8, 3),
    (3200 + 1, 0x40), (3200 + 5, 4), (3200 + 34, 8), (3240, 0x0A), (3241, 0xF3), (3242, 1),
    (3246, 1), (3256, 5), (5120, 0x0A), (5121, 0xF3), (5122, 1), (5126, 1), (5136, 5)]

theorem roundDir_circular : Circular sampleVolume roundMedium (rootDir roundMedium) 0 := by
  have hblock : ∀ node, nodeMagic node = extentMagic → nodeDepth node = 1 → childBlock 0 node = 5 →
      nextNode sampleVolume roundMedium 0 node = some (blockAt sampleVolume roundMedium 5) := by
    intro node hmagic hdepth hchild
    have hgood : roundMedium.Good := sparseMedium_good _
    have hread := readBlockFull_run (v := sampleVolume) hgood (by decide) (by decide : 5 < 2 ^ 32)
    have hgo : ¬ (nodeMagic node ≠ extentMagic ∨ nodeDepth node = 0 ∨
        4096 < sampleVolume.blockSize) := by
      rw [hmagic, hdepth]
      decide
    rw [nextNode, if_neg hgo, hchild, hread]
    rfl
  have hroot := hblock (extentRoot (rootDir roundMedium)) (by decide +kernel) (by decide +kernel)
    (by decide +kernel)
  have hself := hblock (blockAt sampleVolume roundMedium 5) (by decide +kernel) (by decide +kernel)
    (by decide +kernel)
  exact ⟨by decide +kernel, _, .single hroot, .single hself⟩

end Files

end Ext

end PeanutKernel
