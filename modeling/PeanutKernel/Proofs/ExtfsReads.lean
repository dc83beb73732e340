import PeanutKernel.ExtfsReads
import PeanutKernel.Proofs.ExtfsVisits

/-!
# Reads beyond the buffers of the ext driver

A lookup scans directory blocks and looks into nodes of extent trees. It stays in them just when
each record with a name that it comes to holds the whole name, and each node it comes to has room
for the entries that it looks at (`ext_reads_in_buffers_iff`).
-/

namespace PeanutKernel

namespace Ext

open Query StateTransition

variable {v : ExtVolume} {m : Medium} {blk node : Buf} {name : List UInt8} {bs n off lbn cap : ℕ}

section Bytes

theorem askBytes_run (blk : Buf) : ∀ off n : ℕ,
    (askBytes off n).run blk = some (bytesOf (fun i => blk (off + i)) n)
  | _, 0 => rfl
  | off, n + 1 => by
    rw [askBytes, run_ask, run_bind, askBytes_run blk (off + 1) n, Option.bind_some, run_pure,
      bytesOf, bytesOf, List.range_succ_eq_map, List.map_cons, List.map_map]
    congr 2
    refine List.map_congr_left fun i _ => ?_
    simp only [Function.comp_apply]
    congr 1
    omega

theorem askBytes_trace (blk : Buf) : ∀ off n : ℕ, (askBytes off n).trace blk = List.range' off n
  | _, 0 => rfl
  | off, n + 1 => by
    rw [askBytes, trace_ask, trace_bind_some blk (askBytes_run blk (off + 1) n),
      askBytes_trace blk (off + 1) n, trace_pure, List.append_nil, List.range'_succ]

theorem bufOf_bytesOf {i n : ℕ} (h : i < n) : bufOf (bytesOf blk n) i = blk i := by
  simp [bufOf, bytesOf, h]

/-- The fields of the record at `off`. -/
def recInode (blk : Buf) (off : ℕ) : ℕ := le32 blk off

def recLen (blk : Buf) (off : ℕ) : ℕ := le16 blk (off + 4)

def nameLen (blk : Buf) (off : ℕ) : ℕ := (blk (off + 6)).toNat

theorem bufOf_head (blk : Buf) (off : ℕ) :
    le32 (bufOf (bytesOf (fun i => blk (off + i)) 8)) 0 = recInode blk off ∧
      le16 (bufOf (bytesOf (fun i => blk (off + i)) 8)) 4 = recLen blk off ∧
      (bufOf (bytesOf (fun i => blk (off + i)) 8) 6).toNat = nameLen blk off := by
  have h : ∀ i < 8, bufOf (bytesOf (fun i => blk (off + i)) 8) i = blk (off + i) :=
    fun i hi => bufOf_bytesOf hi
  simp [le32, le16, recInode, recLen, nameLen, h]

end Bytes

section Records

/-- The record has an inode and a name. -/
def Named (blk : Buf) (off : ℕ) : Prop := recInode blk off ≠ 0 ∧ nameLen blk off ≠ 0

/-- The record stands in the block. -/
def InBlock (blk : Buf) (bs off : ℕ) : Prop :=
  off + 8 ≤ bs ∧ 8 ≤ recLen blk off ∧ off + recLen blk off ≤ bs

def recName (blk : Buf) (off : ℕ) : List UInt8 :=
  cstr (bytesOf (fun i => blk (off + 8 + i)) (nameLen blk off))

/-- From the record at one offset the scan for a name comes to that at another. -/
inductive Comes (blk : Buf) (bs : ℕ) (name : List UInt8) : ℕ → ℕ → Prop
  | here {off : ℕ} : Comes blk bs name off off
  | next {off off' : ℕ} : InBlock blk bs off → ¬ (Named blk off ∧ recName blk off = name) →
      Comes blk bs name (off + recLen blk off) off' → Comes blk bs name off off'

/-- A record in the block has its whole name there. -/
def NameFits (blk : Buf) (bs off : ℕ) : Prop :=
  InBlock blk bs off → Named blk off → off + 8 + nameLen blk off ≤ bs

theorem scanRecords_none : ∀ {n off : ℕ}, (∀ off', Comes blk bs name off off' →
    InBlock blk bs off' → Named blk off' → recName blk off' ≠ name) →
    scanRecords blk bs name n off = none
  | 0, _, _ => rfl
  | n + 1, off, hno => by
    rw [scanRecords]
    split_ifs with h
    · simp only
      split_ifs with hbad hname
      · rfl
      · have hin : InBlock blk bs off := ⟨h, by unfold recLen; omega, by unfold recLen; omega⟩
        exact absurd hname.2.2 (hno off .here hin ⟨hname.1, hname.2.1⟩)
      · have hin : InBlock blk bs off := ⟨h, by unfold recLen; omega, by unfold recLen; omega⟩
        exact scanRecords_none fun off' hc =>
          hno off' (.next hin (fun hn => hname ⟨hn.1.1, hn.1.2, hn.2⟩) hc)
    · rfl

theorem askRecords_out (h : ¬ off + 8 ≤ bs) :
    askRecords bs name (n + 1) off = pure none := by
  rw [askRecords, if_neg h]

theorem askRecords_bad (h : off + 8 ≤ bs) (hbad : ¬ InBlock blk bs off) :
    (askRecords bs name (n + 1) off).run blk = some none ∧
      (askRecords bs name (n + 1) off).trace blk = List.range' off 8 := by
  obtain ⟨-, hlen, -⟩ := bufOf_head blk off
  have hor : recLen blk off < 8 ∨ bs < off + recLen blk off := by
    unfold InBlock at hbad
    omega
  rw [askRecords, if_pos h, run_bind, trace_bind_some blk (askBytes_run blk off 8),
    askBytes_run, askBytes_trace]
  simp [hlen, hor]

/-- What is asked of a record in the block after its head. -/
def askName (blk : Buf) (bs : ℕ) (name : List UInt8) (n off : ℕ) : Query ℕ UInt8 (Option ℕ) :=
  if recInode blk off ≠ 0 ∧ nameLen blk off ≠ 0 then do
    let bytes ← askBytes (off + 8) (nameLen blk off)
    if cstr bytes = name then pure (some (recInode blk off))
    else askRecords bs name n (off + recLen blk off)
  else askRecords bs name n (off + recLen blk off)

theorem askRecords_inBlock (h : InBlock blk bs off) :
    (askRecords bs name (n + 1) off).run blk = (askName blk bs name n off).run blk ∧
      (askRecords bs name (n + 1) off).trace blk
        = List.range' off 8 ++ (askName blk bs name n off).trace blk := by
  obtain ⟨hino, hlen, hnlen⟩ := bufOf_head blk off
  have hor : ¬ (recLen blk off < 8 ∨ bs < off + recLen blk off) := by
    have := h.2
    omega
  rw [askRecords, if_pos h.1, run_bind_some blk (askBytes_run blk off 8),
    trace_bind_some blk (askBytes_run blk off 8), askBytes_trace]
  simp only [hino, hlen, hnlen, if_neg hor]
  exact ⟨rfl, rfl⟩

theorem askRecords_unnamed (h : InBlock blk bs off) (hno : ¬ Named blk off) :
    (askRecords bs name (n + 1) off).run blk
        = (askRecords bs name n (off + recLen blk off)).run blk ∧
      (askRecords bs name (n + 1) off).trace blk
        = List.range' off 8 ++ (askRecords bs name n (off + recLen blk off)).trace blk := by
  have hask : askName blk bs name n off = askRecords bs name n (off + recLen blk off) := if_neg hno
  rw [← hask]
  exact askRecords_inBlock h

theorem askRecords_named (h : InBlock blk bs off) (hnamed : Named blk off) :
    (askRecords bs name (n + 1) off).run blk
        = (if recName blk off = name then some (some (recInode blk off))
          else (askRecords bs name n (off + recLen blk off)).run blk) ∧
      (askRecords bs name (n + 1) off).trace blk
        = List.range' off 8 ++ List.range' (off + 8) (nameLen blk off) ++
          (if recName blk off = name then []
            else (askRecords bs name n (off + recLen blk off)).trace blk) := by
  have hask : askName blk bs name n off = _ := if_pos hnamed
  rw [(askRecords_inBlock h).1, (askRecords_inBlock h).2, hask,
    run_bind_some blk (askBytes_run blk (off + 8) _),
    trace_bind_some blk (askBytes_run blk (off + 8) _), askBytes_trace, List.append_assoc]
  unfold recName
  split_ifs
  · exact ⟨rfl, rfl⟩
  · exact ⟨rfl, rfl⟩

/-- The program finds what the scan of the model finds. -/
theorem askRecords_run (blk : Buf) (bs : ℕ) (name : List UInt8) (n : ℕ) :
    ∀ off, (askRecords bs name n off).run blk = some (scanRecords blk bs name n off) := by
  induction n with
  | zero => exact fun off => rfl
  | succ n ih =>
    intro off
    rw [scanRecords]
    by_cases hout : off + 8 ≤ bs
    · rw [if_pos hout]
      by_cases hin : InBlock blk bs off
      · have hor : ¬ (le16 blk (off + 4) < 8 ∨ bs < off + le16 blk (off + 4)) := by
          have := hin.2
          unfold recLen at this
          omega
        simp only [if_neg hor]
        by_cases hnamed : Named blk off
        · rw [(askRecords_named hin hnamed).1, ih]
          by_cases hname : recName blk off = name
          · rw [if_pos hname, if_pos ⟨hnamed.1, hnamed.2, hname⟩]
            rfl
          · rw [if_neg hname, if_neg fun h => hname h.2.2]
            rfl
        · rw [(askRecords_unnamed hin hnamed).1, ih, if_neg fun h => hnamed ⟨h.1, h.2.1⟩]
          rfl
      · have hor : le16 blk (off + 4) < 8 ∨ bs < off + le16 blk (off + 4) := by
          unfold InBlock recLen at hin
          omega
        rw [(askRecords_bad hout hin).1]
        simp only [if_pos hor]
    · rw [askRecords_out hout, if_neg hout]
      rfl

theorem Comes.cases {off' : ℕ} (h : Comes blk bs name off off') :
    off' = off ∨ InBlock blk bs off ∧ ¬ (Named blk off ∧ recName blk off = name) ∧
      Comes blk bs name (off + recLen blk off) off' := by
  cases h with
  | here => exact .inl rfl
  | next hin hno hrest => exact .inr ⟨hin, hno, hrest⟩

theorem forall_range'_lt_iff {a k : ℕ} (hk : k ≠ 0) :
    (∀ j ∈ List.range' a k, j < bs) ↔ a + k ≤ bs := by
  simp only [List.mem_range'_1]
  constructor
  · intro h
    have := h (a + k - 1) (by omega)
    omega
  · intro h j hj
    omega

/-- Nothing is looked at behind a record that is not in the block. -/
theorem comes_fits_of_out (h : ¬ InBlock blk bs off) :
    ∀ off', Comes blk bs name off off' → NameFits blk bs off' := by
  intro off' hc hin
  rcases hc.cases with rfl | ⟨hin', -⟩
  · exact absurd hin h
  · exact absurd hin' h

theorem comes_fits_iff (h : InBlock blk bs off) :
    (∀ off', Comes blk bs name off off' → NameFits blk bs off') ↔
      (Named blk off → off + 8 + nameLen blk off ≤ bs) ∧
      (¬ (Named blk off ∧ recName blk off = name) →
        ∀ off', Comes blk bs name (off + recLen blk off) off' → NameFits blk bs off') := by
  constructor
  · exact fun hall => ⟨hall off .here h, fun hno off' hc => hall off' (.next h hno hc)⟩
  · rintro ⟨hfits, hrest⟩ off' hc
    rcases hc.cases with rfl | ⟨-, hno, hc⟩
    · exact fun _ => hfits
    · exact hrest hno off' hc

/-- The scan stays in the block just when the records it comes to hold their names. -/
theorem askRecords_trace_iff (blk : Buf) (bs : ℕ) (name : List UInt8) (n : ℕ) :
    ∀ off, bs ≤ off + 8 * n → ((∀ j ∈ (askRecords bs name n off).trace blk, j < bs)
      ↔ ∀ off', Comes blk bs name off off' → NameFits blk bs off') := by
  induction n with
  | zero =>
    intro off hn
    refine iff_of_true (fun j hj => by cases hj) (comes_fits_of_out fun hin => ?_)
    have := hin.1
    omega
  | succ n ih =>
    intro off hn
    by_cases hin : InBlock blk bs off
    · have hrest := ih (off + recLen blk off) (by have := hin.2.1; omega)
      have hhead : (∀ j ∈ List.range' off 8, j < bs) ↔ True :=
        iff_true_intro ((forall_range'_lt_iff (by omega)).2 hin.1)
      rw [comes_fits_iff hin]
      by_cases hnamed : Named blk off
      · rw [(askRecords_named hin hnamed).2, List.forall_mem_append, List.forall_mem_append, hhead,
          forall_range'_lt_iff hnamed.2]
        by_cases hname : recName blk off = name
        · simp [hnamed, hname]
        · rw [if_neg hname, hrest]
          simp [hnamed, hname]
      · rw [(askRecords_unnamed hin hnamed).2, List.forall_mem_append, hhead, hrest]
        simp [hnamed]
    · refine iff_of_true ?_ (comes_fits_of_out hin)
      by_cases hout : off + 8 ≤ bs
      · rw [(askRecords_bad hout hin).2]
        exact (forall_range'_lt_iff (by omega)).2 hout
      · rw [askRecords_out hout]
        exact fun j hj => by cases hj

end Records

section Nodes

theorem askLeaf_run (ent : ℕ → Buf) (lbn n : ℕ) : ∀ i, (askLeaf lbn n i).run ent
    = some (((List.range' i n).findSome? fun i => extentBlock (ent i) lbn).getD 0) := by
  induction n with
  | zero => exact fun i => rfl
  | succ n ih =>
    intro i
    rw [askLeaf, run_ask, List.range'_succ, List.findSome?_cons]
    rcases extentBlock (ent i) lbn with _ | pb
    · exact ih (i + 1)
    · rfl

/-- An entry of a leaf is read if none before it covers the block. -/
theorem mem_askLeaf_trace (ent : ℕ → Buf) (lbn n : ℕ) : ∀ i j, j ∈ (askLeaf lbn n i).trace ent ↔
    i ≤ j ∧ j < i + n ∧ ∀ k, i ≤ k → k < j → extentBlock (ent k) lbn = none := by
  induction n with
  | zero =>
    intro i j
    simp [askLeaf]
    omega
  | succ n ih =>
    intro i j
    rw [askLeaf, trace_ask, List.mem_cons]
    rcases hi : extentBlock (ent i) lbn with _ | pb
    · rw [ih]
      constructor
      · rintro (rfl | ⟨hlo, hhi, hnone⟩)
        · exact ⟨le_rfl, by omega, fun k hk hkj => by omega⟩
        · refine ⟨by omega, by omega, fun k hk hkj => ?_⟩
          rcases hk.eq_or_lt with rfl | hlt
          · exact hi
          · exact hnone k hlt hkj
      · rintro ⟨hlo, hhi, hnone⟩
        rcases hlo.eq_or_lt with rfl | hlt
        · exact .inl rfl
        · exact .inr ⟨hlt, by omega, fun k hk hkj => hnone k (by omega) hkj⟩
    · constructor
      · rintro (rfl | hj)
        · exact ⟨le_rfl, by omega, fun k hk hkj => by omega⟩
        · cases hj
      · rintro ⟨hlo, hhi, hnone⟩
        rcases hlo.eq_or_lt with rfl | hlt
        · exact .inl rfl
        · have := hnone i le_rfl hlt
          rw [hi] at this
          cases this

theorem askPick_run (ent : ℕ → Buf) (lbn n : ℕ) : ∀ i pick, (askPick lbn n i pick).run ent
    = some ((List.range' i n).foldl (fun pick i => if le32 (ent i) 0 ≤ lbn then i else pick)
      pick) := by
  induction n with
  | zero => exact fun i pick => rfl
  | succ n ih =>
    intro i pick
    rw [askPick, run_ask, List.range'_succ, List.foldl_cons, ih]

theorem askPick_trace (ent : ℕ → Buf) (lbn n : ℕ) : ∀ i pick,
    (askPick lbn n i pick).trace ent = List.range' i n := by
  induction n with
  | zero => exact fun i pick => rfl
  | succ n ih =>
    intro i pick
    rw [askPick, trace_ask, ih, List.range'_succ]

/-- The program returns the block of a leaf, or goes on to the child of the model. -/
theorem askNode_run (lbn : ℕ) (hmagic : nodeMagic node = extentMagic) :
    (askNode lbn node).run (nodeEntry node)
      = some (if nodeDepth node = 0 then leafBlock node lbn else childBlock lbn node) := by
  unfold askNode
  rw [if_neg (not_not.2 hmagic)]
  split_ifs
  · rw [askLeaf_run, ← List.range_eq_range']
    rfl
  · rw [run_bind, askPick_run, ← List.range_eq_range']
    rfl

/-- The entries `map_extents_recurse` looks at in a node of `cap` bytes are in the node. -/
def NodeFits (lbn cap : ℕ) (node : Buf) : Prop :=
  nodeMagic node = extentMagic →
    if nodeDepth node = 0 then
      nodeEntries node = 0 ∨ 12 + 12 * nodeEntries node ≤ cap ∨
        ∃ i < nodeEntries node, 24 + 12 * i ≤ cap ∧ extentBlock (nodeEntry node i) lbn ≠ none
    else 12 + 12 * max 1 (nodeEntries node) ≤ cap

theorem askLeaf_fits_iff (ent : ℕ → Buf) (lbn n cap : ℕ) :
    (∀ i ∈ (askLeaf lbn n 0).trace ent, 24 + 12 * i ≤ cap) ↔
      n = 0 ∨ 12 + 12 * n ≤ cap ∨ ∃ i < n, 24 + 12 * i ≤ cap ∧ extentBlock (ent i) lbn ≠ none := by
  simp only [mem_askLeaf_trace, Nat.zero_le, true_and, Nat.zero_add, forall_const]
  constructor
  · intro h
    by_cases hcov : ∃ i, i < n ∧ extentBlock (ent i) lbn ≠ none
    · classical
      obtain ⟨hlt, hfirst⟩ := Nat.find_spec hcov
      refine .inr (.inr ⟨Nat.find hcov, hlt, h _ ⟨hlt, fun k hk => ?_⟩, hfirst⟩)
      by_contra hne
      exact Nat.find_min hcov hk ⟨by omega, hne⟩
    · push Not at hcov
      rcases n.eq_zero_or_pos with rfl | hpos
      · exact .inl rfl
      · have := h (n - 1) ⟨by omega, fun k hk => hcov k (by omega)⟩
        exact .inr (.inl (by omega))
  · rintro (rfl | hall | ⟨i, hi, hfit, hcov⟩) j ⟨hj, hnone⟩
    · omega
    · omega
    · have : ¬ i < j := fun hij => hcov (hnone i hij)
      omega

theorem askNode_fits_iff (lbn cap : ℕ) (node : Buf) :
    (∀ i ∈ (askNode lbn node).trace (nodeEntry node), 24 + 12 * i ≤ cap) ↔
      NodeFits lbn cap node := by
  unfold askNode NodeFits
  by_cases hmagic : nodeMagic node = extentMagic
  · rw [if_neg (not_not.2 hmagic)]
    split_ifs with hdepth
    · rw [askLeaf_fits_iff]
      exact ⟨fun h _ => h, fun h => h hmagic⟩
    · have hpick : pickIndex node lbn < max 1 (nodeEntries node) := by
        rcases (nodeEntries node).eq_zero_or_pos with hz | hpos
        · rw [pickIndex, hz]
          exact Nat.zero_lt_one
        · exact (SplitSearch.lastLe_lt hpos).trans_le (le_max_right _ _)
      have hrun := askPick_run (nodeEntry node) lbn (nodeEntries node) 0 0
      rw [← List.range_eq_range'] at hrun
      rw [trace_bind_some (nodeEntry node) hrun, askPick_trace, List.forall_mem_append]
      change _ ∧ (∀ i ∈ [pickIndex node lbn], _) ↔ _
      simp only [List.mem_range'_1, List.mem_singleton, forall_eq, Nat.zero_le, true_and,
        Nat.zero_add]
      constructor
      · rintro ⟨hall, hone⟩ -
        rcases (nodeEntries node).eq_zero_or_pos with hz | hpos
        · omega
        · have := hall (nodeEntries node - 1) (by omega)
          omega
      · intro h
        have := h hmagic
        exact ⟨fun i hi => by omega, by omega⟩
  · simp [hmagic]

end Nodes

section Lookup

/-- The lookup of a path scans this directory block for the name. -/
def ScansBlock (v : ExtVolume) (m : Medium) (path name : List UInt8) (blk : Buf) : Prop :=
  ∃ dir k pb, FindMaps v m rootInode (relative path) name dir k ∧
    Yields m.read (mapBlock · v dir k) pb ∧ pb ≠ 0 ∧
    (readBlockFull v pb).run m.read = some (some blk)

/-- Reading a file looks for block `lbn` of an inode in this node, which has `cap` bytes. -/
def VisitsNode (v : ExtVolume) (m : Medium) (path : List UInt8) (bufferSize lbn : ℕ) (node : Buf)
    (cap : ℕ) : Prop :=
  ∃ inode, FileMaps v m path bufferSize inode lbn ∧ inodeFlags inode &&& extentsFl ≠ 0 ∧
    (node = extentRoot inode ∧ cap = 60 ∨
      Reaches₁ (nextNode v m lbn) (extentRoot inode) node ∧ cap = v.blockSize)

/-- `extfs_read_file`, with its lookup, reads in its directory blocks and nodes only. -/
structure ReadsInBuffers (v : ExtVolume) (m : Medium) (path : List UInt8) (bufferSize : ℕ) :
    Prop where
  dir : ∀ name blk, ScansBlock v m path name blk →
    ∀ j ∈ (askRecords v.blockSize name v.blockSize 0).trace blk, j < v.blockSize
  node : ∀ lbn node cap, VisitsNode v m path bufferSize lbn node cap →
    ∀ i ∈ (askNode lbn node).trace (nodeEntry node), 12 + 12 * i + 12 ≤ cap

theorem ext_reads_in_buffers_iff (v : ExtVolume) (m : Medium) (path : List UInt8)
    (bufferSize : ℕ) : ReadsInBuffers v m path bufferSize ↔
      (∀ name blk, ScansBlock v m path name blk →
        ∀ off, Comes blk v.blockSize name 0 off → NameFits blk v.blockSize off) ∧
      (∀ lbn node cap, VisitsNode v m path bufferSize lbn node cap → NodeFits lbn cap node) := by
  have hscan := fun name blk =>
    askRecords_trace_iff blk v.blockSize name v.blockSize 0 (by omega)
  have hnode : ∀ lbn cap node, (∀ i ∈ (askNode lbn node).trace (nodeEntry node),
      12 + 12 * i + 12 ≤ cap) ↔ NodeFits lbn cap node := by
    intro lbn cap node
    rw [← askNode_fits_iff]
    refine forall₂_congr fun i _ => ?_
    omega
  constructor
  · rintro ⟨hdir, hnodes⟩
    exact ⟨fun name blk h => (hscan name blk).1 (hdir name blk h),
      fun lbn node cap h => (hnode lbn cap node).1 (hnodes lbn node cap h)⟩
  · rintro ⟨hdir, hnodes⟩
    exact ⟨fun name blk h => (hscan name blk).2 (hdir name blk h),
      fun lbn node cap h => (hnode lbn cap node).2 (hnodes lbn node cap h)⟩

/-- The last record of the root directory, in block 4, has 8 bytes and a name of 255. -/
def longNameMedium : Medium := sparseMedium
  [(1024 + 4, 8), (1024 + 20, 1), (1024 + 32, 8), (1024 + 40, 8), (1024 + 56, 0x53),
    (1024 + 57, 0xEF), (1024 + 88, 128), (2048 + 8, 3),
    (3200 + 1, 0x40), (3200 + 5, 4), (3240, 4),
    (4096 + 4, 0xF8), (4096 + 5, 3), (5112, 3), (5112 + 4, 8), (5112 + 6, 255)]

/-- The root directory has a leaf of 5 entries in its inode, none of which covers its block. -/
def fiveEntriesMedium : Medium := sparseMedium
  [(1024 + 4, 8), (1024 + 20, 1), (1024 + 32, 8), (1024 + 40, 8), (1024 + 56, 0x53),
    (1024 + 57, 0xEF), (1024 + 88, 128), (2048 + 8, 3),
    (3200 + 1, 0x40), (3200 + 5, 4), (3200 + 34, 8), (3240, 0x0A), (3241, 0xF3), (3242, 5)]

theorem reads_leave_buffers :
    ((extfsMount samplePartition).run longNameMedium.read = some (some sampleVolume) ∧
      ∃ blk, ScansBlock sampleVolume longNameMedium [65] [65] blk ∧
        1024 ∈ (askRecords 1024 [65] 1024 0).trace blk) ∧
    ((extfsMount samplePartition).run fiveEntriesMedium.read = some (some sampleVolume) ∧
      ∃ node, VisitsNode sampleVolume fiveEntriesMedium [65] 0 0 node 60 ∧
        4 ∈ (askNode 0 node).trace (nodeEntry node)) := by
  have hname : FindMaps sampleVolume longNameMedium rootInode (relative [65]) [65]
      (rootDir longNameMedium) 0 :=
    findMaps_rootDir (by decide +kernel) (by decide +kernel) (by decide +kernel) (by decide)
      (by decide)
  have hnode : FindMaps sampleVolume fiveEntriesMedium rootInode (relative [65]) [65]
      (rootDir fiveEntriesMedium) 0 :=
    findMaps_rootDir (by decide +kernel) (by decide +kernel) (by decide +kernel) (by decide)
      (by decide)
  have hgood : longNameMedium.Good := sparseMedium_good _
  have hblk := readBlockFull_run (v := sampleVolume) hgood (by decide) (by decide : 4 < 2 ^ 32)
  have hmap : (mapBlock 0 sampleVolume (rootDir longNameMedium) 0).run longNameMedium.read
      = some 4 := by decide +kernel
  exact ⟨⟨by decide +kernel, _, ⟨_, 0, 4, hname, ⟨0, hmap⟩, by decide, hblk⟩, by decide +kernel⟩,
    by decide +kernel, _, ⟨_, .lookup hnode, by decide +kernel, .inl ⟨rfl, rfl⟩⟩, by decide +kernel⟩

end Lookup

end Ext

end PeanutKernel
