import PeanutKernel.FileCursor
import PeanutKernel.Proofs.Block
import PeanutKernel.Proofs.SyscallPaths

/-!
# Open files refine cursors

Each `SYS_READ` or `SYS_WRITE` of an open regular file is a step of its cursor with the same
answer, and touches nothing of another descriptor, so every interleaving of such calls is a run of
the cursors. The reads of a text pseudo file go through `vfs_pseudo_pread`, whose offset moves on
by what it has stored, so that what they store is the text from its beginning on.
-/

namespace PeanutKernel

variable {N : ℕ} {k k' : Kernel N} {env : CallEnv} {fuel : ℕ} {i : Fin fdMax} {p : ℕ}

section Cursors

theorem cursors_of_holds (hp : (k.fds i).Holds p) (hsocket : (k.fds i).isSocket = false) :
    k.cursors i = some ⟨k.heap.bytes p, (k.fds i).off⟩ := by
  simp [Kernel.cursors, hp.1, hp.2.1, hp.2.2, hsocket]

theorem cursors_some {c : Cursor} (h : k.cursors i = some c) :
    ∃ p, (k.fds i).Holds p ∧ (k.fds i).isSocket = false ∧ c = ⟨k.heap.bytes p, (k.fds i).off⟩ := by
  unfold Kernel.cursors at h
  split_ifs at h with hf
  obtain ⟨p, hp, rfl⟩ := Option.map_eq_some_iff.1 h
  exact ⟨p, ⟨hf.1, hf.2.1, hp⟩, hf.2.2, rfl⟩

/-- All descriptors but `i` are as they were, and so are their buffers. -/
def SameOthers (i : Fin fdMax) (k k' : Kernel N) : Prop :=
  ∀ j, j ≠ i → k'.fds j = k.fds j ∧ ∀ q, (k.fds j).Holds q → k'.heap.bytes q = k.heap.bytes q

/-- A slot with a buffer no other has: nothing else changes. -/
theorem sameOthers_update {f : Fd} (hfds : k'.fds = Function.update k.fds i f)
    (hheap : ∀ q, q ≠ p → k'.heap.bytes q = k.heap.bytes q)
    (hne : ∀ j, j ≠ i → ∀ q, (k.fds j).Holds q → q ≠ p) : SameOthers i k k' := by
  intro j hj
  exact ⟨by simp [hfds, hj], fun q hq => hheap q (hne j hj q hq)⟩

theorem cursors_update {f : Fd} (hfds : k'.fds = Function.update k.fds i f) (hp : f.Holds p)
    (hsocket : f.isSocket = false) (hsame : SameOthers i k k') :
    k'.cursors = Function.update k.cursors i (some ⟨k'.heap.bytes p, f.off⟩) := by
  have hf : k'.fds i = f := by simp [hfds]
  funext j
  by_cases hj : j = i
  · subst hj
    rw [Function.update_self, ← hf]
    exact cursors_of_holds (hf ▸ hp) (hf ▸ hsocket)
  · obtain ⟨hfd, hbytes⟩ := hsame j hj
    rw [Function.update_of_ne hj]
    unfold Kernel.cursors
    rw [hfd]
    split_ifs with hopen
    · rcases hq : (k.fds j).data with _ | q
      · rfl
      · simp [hbytes q ⟨hopen.1, hopen.2.1, hq⟩]
    · rfl

theorem takeOf_eq_amount (howned : Owned k.fds k.heap) (hp : (k.fds i).Holds p) (count : UInt64) :
    takeOf (k.fds i) count = Cursor.amount ⟨k.heap.bytes p, (k.fds i).off⟩ count := by
  simp only [takeOf, Cursor.amount, howned.bytes_length hp]
  split_ifs <;> omega

theorem bytesOf_getD (l : List UInt8) (off n : ℕ) (h : off + n ≤ l.length) :
    bytesOf (fun j => l.getD (off + j) 0) n = (l.drop off).take n := by
  refine List.ext_getElem (by simp [bytesOf]; omega) fun j hj hj' => ?_
  have hlt : off + j < l.length := by
    simp only [bytesOf, List.length_map, List.length_range] at hj
    omega
  simp [bytesOf, hlt]

/-- A transfer that stops at the end, and what the next ones take. -/
theorem take_append_take {l : List UInt8} {off count t : ℕ} (ht : t = min count (l.length - off))
    (rest : ℕ) :
    (l.drop off).take t ++ (l.drop (off + t)).take rest = (l.drop off).take (count + rest) := by
  rcases Nat.le_total count (l.length - off) with hle | hle
  · rw [ht, min_eq_left hle, List.take_add, List.drop_drop]
  · rw [ht, min_eq_right hle, List.take_of_length_le (by simp),
      List.drop_of_length_le (by omega : l.length ≤ off + (l.length - off)), List.take_nil,
      List.append_nil, List.take_of_length_le (by simp; omega)]

theorem setFd_self (k : Kernel N) (i : Fin fdMax) : setFd k i (k.fds i) = k := by
  simp [setFd]

/-- A read of an open file. -/
theorem sysRead_cursor (env : CallEnv) {arg1 : UInt64} (arg2 arg3 : UInt64)
    (howned : Owned k.fds k.heap) (hi : usedFd k arg1 = some i) (hp : (k.fds i).Holds p)
    {c : Cursor}
    (hc : c = ⟨k.heap.bytes p, (k.fds i).off⟩) :
    sysRead env k arg1 arg2 arg3
      = (⟨.value (UInt64.ofNat (c.amount arg3)), (c.bytes.drop c.off).take (c.amount arg3), []⟩,
        setFd k i { k.fds i with off := c.off + c.amount arg3 }) := by
  have htake := takeOf_eq_amount howned hp arg3
  have hlen := howned.bytes_length hp
  rw [← hc] at htake
  subst hc
  have hpseudo : ¬ (k.fds i).isPseudo = true := by simp [hp.2.1]
  simp only [sysRead, hi, if_neg hpseudo, ← htake]
  by_cases hoff : (k.fds i).size ≤ (k.fds i).off
  · have hzero : takeOf (k.fds i) arg3 = 0 := by
      have := takeOf_le (k.fds i) arg3
      omega
    rw [if_pos hoff, hzero]
    exact congrArg (Prod.mk _) (setFd_self k i).symm
  · have hbytes : bytesOf (fun j => dataByte env k (k.fds i) ((k.fds i).off + j))
        (takeOf (k.fds i) arg3) = ((k.heap.bytes p).drop (k.fds i).off).take
          (takeOf (k.fds i) arg3) := by
      simp only [dataByte, hp.2.2]
      refine bytesOf_getD _ _ _ ?_
      have := takeOf_le (k.fds i) arg3
      omega
    rw [if_neg hoff, hbytes]

/-- A write to an open file. Only one that finds room marks the descriptor as dirty. -/
theorem sysWrite_cursor (fuel : ℕ) (env : CallEnv) {arg1 : UInt64} (arg2 arg3 : UInt64)
    (howned : Owned k.fds k.heap) (hi : usedFd k arg1 = some i) (hp : (k.fds i).Holds p)
    {c : Cursor}
    (hc : c = ⟨k.heap.bytes p, (k.fds i).off⟩) :
    ∃ heap dirty, sysWrite fuel env k arg1 arg2 arg3
        = some (⟨.value (UInt64.ofNat (c.amount arg3)), [], []⟩,
          setFd { k with heap := heap } i
            { k.fds i with off := c.off + c.amount arg3, dirty := dirty }) ∧
      (dirty = true ∨ dirty = (k.fds i).dirty ∧ heap = k.heap) ∧
      heap.bytes p = overwrite c.bytes c.off (bytesOf (env.ptr arg2).bytes (c.amount arg3)) ∧
      ∀ q, q ≠ p → heap.bytes q = k.heap.bytes q := by
  have htake := takeOf_eq_amount howned hp arg3
  rw [← hc] at htake
  subst hc
  have hpseudo : ¬ (k.fds i).isPseudo = true := by simp [hp.2.1]
  simp only [sysWrite, hi, if_neg hpseudo, ← htake]
  split
  · rename_i hnone
    simp [hp.2.2] at hnone
  rename_i q hq
  obtain rfl : p = q := by simpa [hp.2.2] using hq
  by_cases hoff : (k.fds i).size ≤ (k.fds i).off
  · have hzero : takeOf (k.fds i) arg3 = 0 := by
      have := takeOf_le (k.fds i) arg3
      omega
    refine ⟨k.heap, (k.fds i).dirty, ?_, .inr ⟨rfl, rfl⟩, ?_, fun _ _ => rfl⟩
    · rw [if_pos hoff, hzero]
      exact congrArg (fun k => some (_, k)) (setFd_self k i).symm
    · simp [hzero, overwrite, bytesOf]
  · refine ⟨k.heap.store p (overwrite (k.heap.bytes p) (k.fds i).off
      (bytesOf (env.ptr arg2).bytes (takeOf (k.fds i) arg3))), true, ?_, .inl rfl, ?_,
      fun q hqp => ?_⟩
    · rw [if_neg hoff]
    · simp [Heap.bytes, Heap.store]
    · simp [Heap.bytes, Heap.store, hqp]

variable {e : CallEnv × Call}

/-- The calls the cursors take, and what they do. -/
theorem Cursors.step_cases {cs cs' : Cursors} {r : SysResult} (h : cs.step e = some (r, cs')) :
    ∃ (i : Fin fdMax) (c : Cursor), e.2.arg1.toNat = i.val ∧ cs i = some c ∧
      (e.2.num = 0 ∧
          r = ⟨.value (UInt64.ofNat (c.amount e.2.arg3)),
            (c.bytes.drop c.off).take (c.amount e.2.arg3), []⟩ ∧
          cs' = Function.update cs i (some { c with off := c.off + c.amount e.2.arg3 }) ∨
        e.2.num = 1 ∧ r = ⟨.value (UInt64.ofNat (c.amount e.2.arg3)), [], []⟩ ∧
          cs' = Function.update cs i (some
            ⟨overwrite c.bytes c.off (bytesOf (e.1.ptr e.2.arg2).bytes (c.amount e.2.arg3)),
              c.off + c.amount e.2.arg3⟩)) := by
  unfold Cursors.step at h
  by_cases hlt : e.2.arg1.toNat < fdMax
  swap
  · simp [hlt] at h
  rw [dif_pos hlt] at h
  rcases hc : cs ⟨e.2.arg1.toNat, hlt⟩ with _ | c
  · simp [hc] at h
  · simp only [hc] at h
    refine ⟨⟨e.2.arg1.toNat, hlt⟩, c, rfl, hc, ?_⟩
    by_cases hread : e.2.num = 0
    · simp only [if_pos hread, Option.some.injEq, Prod.mk.injEq] at h
      exact .inl ⟨hread, h.1.symm, h.2.symm⟩
    · by_cases hwrite : e.2.num = 1
      · simp only [if_neg hread, if_pos hwrite, Option.some.injEq, Prod.mk.injEq] at h
        exact .inr ⟨hwrite, h.1.symm, h.2.symm⟩
      · simp [hread, hwrite] at h

/-- What a call that only moves bytes of one buffer does to the cursors. -/
theorem transfer_cursors {r : SysResult} {f : Fd} (howned : Owned k.fds k.heap)
    (hp : (k.fds i).Holds p) (harg : e.2.arg1.toNat = i.val)
    (hanswer : k.answer fuel e = some (r, k')) (hfds : k'.fds = Function.update k.fds i f)
    (hf : f.Holds p) (hsocket : f.isSocket = false)
    (hheap : ∀ q, q ≠ p → k'.heap.bytes q = k.heap.bytes q) :
    k'.cursors = Function.update k.cursors i (some ⟨k'.heap.bytes p, f.off⟩) ∧
      Owned k'.fds k'.heap ∧
      ∀ i : Fin fdMax, e.2.arg1.toNat = i.val → SameOthers i k k' := by
  have hsame : SameOthers i k k' := sameOthers_update hfds hheap (by
    rintro j hj q hq rfl
    exact hj (howned.inj j i q hq hp))
  refine ⟨cursors_update hfds hf hsocket hsame,
    howned.step (callStep_syscallHandler hanswer).files, fun j hj => ?_⟩
  obtain rfl : i = j := Fin.ext (harg.symm.trans hj)
  exact hsame

/-- A call the cursors take is one of the kernel's, with the same answer. -/
theorem answer_cursors (fuel : ℕ) {r : SysResult} {cs : Cursors} (howned : Owned k.fds k.heap)
    (h : k.cursors.step e = some (r, cs)) :
    ∃ k', k.answer fuel e = some (r, k') ∧ k'.cursors = cs ∧ Owned k'.fds k'.heap ∧
      ∀ i : Fin fdMax, e.2.arg1.toNat = i.val → SameOthers i k k' := by
  obtain ⟨i, c, harg, hc, hcall⟩ := Cursors.step_cases h
  obtain ⟨p, hp, hsocket, hcp⟩ := cursors_some hc
  have hi : usedFd { k with lastErrno := 0 } e.2.arg1 = some i := usedFd_of_used harg hp.1
  rcases hcall with ⟨hnum, rfl, rfl⟩ | ⟨hnum, rfl, rfl⟩
  · have hread := sysRead_cursor (k := { k with lastErrno := 0 }) e.1 e.2.arg2 e.2.arg3 howned hi hp
      hcp
    have hanswer : k.answer fuel e = some _ :=
      (syscallHandler_read hnum).trans (congrArg some hread)
    obtain ⟨hcs, howned', hsame⟩ := transfer_cursors howned hp harg hanswer rfl hp hsocket
      fun _ _ => rfl
    refine ⟨_, hanswer, hcs.trans ?_, howned', hsame⟩
    rw [hcp]
    rfl
  · obtain ⟨heap, dirty, hwrite, -, hbytes, hother⟩ :=
      sysWrite_cursor (k := { k with lastErrno := 0 }) fuel e.1 e.2.arg2 e.2.arg3 howned hi hp hcp
    have hanswer : k.answer fuel e = some _ := (syscallHandler_write hnum).trans hwrite
    obtain ⟨hcs, howned', hsame⟩ := transfer_cursors howned hp harg hanswer rfl hp hsocket hother
    refine ⟨_, hanswer, hcs.trans ?_, howned', hsame⟩
    rw [← hbytes]
    rfl

/-- The cursors take every read and write of an open file, and leave open what is. -/
theorem Cursors.step_some {cs : Cursors} (hnum : e.2.num = 0 ∨ e.2.num = 1)
    (harg : e.2.arg1.toNat = i.val) (hi : (cs i).isSome) :
    ∃ r cs', cs.step e = some (r, cs') ∧ ∀ j, (cs j).isSome → (cs' j).isSome := by
  obtain ⟨c, hc⟩ := Option.isSome_iff_exists.1 hi
  have hlt : e.2.arg1.toNat < fdMax := harg ▸ i.isLt
  have hupdate : ∀ (c' : Cursor) (j : Fin fdMax), (cs j).isSome →
      (Function.update cs i (some c') j).isSome := by
    intro c' j hj
    by_cases hji : j = i
    · simp [hji]
    · simpa [hji] using hj
  obtain rfl : i = ⟨e.2.arg1.toNat, hlt⟩ := Fin.ext harg.symm
  simp only [Cursors.step, dif_pos hlt, hc]
  rcases hnum with hnum | hnum
  · exact ⟨_, _, by rw [if_pos hnum], hupdate _⟩
  · exact ⟨_, _, by rw [if_neg (by rw [hnum]; decide), if_pos hnum], hupdate _⟩

theorem Cursors.outputs_some :
    ∀ (calls : List (CallEnv × Call)) {cs : Cursors},
      (∀ e ∈ calls, (e.2.num = 0 ∨ e.2.num = 1) ∧
        ∃ i : Fin fdMax, e.2.arg1.toNat = i.val ∧ (cs i).isSome) →
      ∃ rs cs', Runs.outputs Cursors.step cs calls = some (rs, cs')
  | [], cs, _ => ⟨[], cs, rfl⟩
  | e :: calls, cs, h => by
    obtain ⟨hnum, i, harg, hi⟩ := h e (by simp)
    obtain ⟨r, cs₁, hstep, hkeep⟩ := Cursors.step_some hnum harg hi
    have hcalls : ∀ e ∈ calls, (e.2.num = 0 ∨ e.2.num = 1) ∧
        ∃ i : Fin fdMax, e.2.arg1.toNat = i.val ∧ (cs₁ i).isSome := by
      intro e he
      obtain ⟨hnum, i, harg, hi⟩ := h e (by simp [he])
      exact ⟨hnum, i, harg, hkeep i hi⟩
    obtain ⟨rs, cs', hrest⟩ := Cursors.outputs_some calls hcalls
    exact ⟨r :: rs, cs', Runs.outputs_cons_some.2 ⟨r, cs₁, rs, hstep, hrest, rfl⟩⟩

/-- Reads and writes of open files, in any order: a run of the cursors. -/
theorem answers_cursors (fuel : ℕ) (calls : List (CallEnv × Call)) (howned : Owned k.fds k.heap)
    (hcalls : ∀ e ∈ calls, (e.2.num = 0 ∨ e.2.num = 1) ∧
      ∃ i : Fin fdMax, e.2.arg1.toNat = i.val ∧ (k.cursors i).isSome) :
    ∃ rs cs k', Runs.outputs Cursors.step k.cursors calls = some (rs, cs) ∧
      Runs.outputs (Kernel.answer fuel) k calls = some (rs, k') ∧ k'.cursors = cs ∧
      ∀ j : Fin fdMax, (∀ e ∈ calls, e.2.arg1.toNat ≠ j.val) → k'.fds j = k.fds j ∧
        ∀ p, (k.fds j).Holds p → k'.heap.bytes p = k.heap.bytes p := by
  obtain ⟨rs, cs, habs⟩ := Cursors.outputs_some calls hcalls
  obtain ⟨k', hrun, hcs, -, hsame⟩ := Runs.outputs_of_simulation (f := Kernel.cursors)
    (I := fun k₁ => Owned k₁.fds k₁.heap ∧
      ∀ j : Fin fdMax, (∀ e ∈ calls, e.2.arg1.toNat ≠ j.val) → k₁.fds j = k.fds j ∧
        ∀ p, (k.fds j).Holds p → k₁.heap.bytes p = k.heap.bytes p) calls
    (by
      rintro e he k₁ r cs₁ ⟨howned₁, hsame₁⟩ hstep
      obtain ⟨k₂, hanswer, hcs, howned₂, hsame₂⟩ := answer_cursors fuel howned₁ hstep
      refine ⟨k₂, hanswer, hcs, howned₂, fun j hj => ?_⟩
      obtain ⟨i, c, harg, -⟩ := Cursors.step_cases hstep
      have hji : j ≠ i := by
        rintro rfl
        exact hj e he harg
      obtain ⟨hfd₁, hbytes₁⟩ := hsame₁ j hj
      obtain ⟨hfd₂, hbytes₂⟩ := hsame₂ i harg j hji
      exact ⟨hfd₂.trans hfd₁, fun p hp => (hbytes₂ p (hfd₁ ▸ hp)).trans (hbytes₁ p hp)⟩)
    ⟨howned, fun _ _ => ⟨rfl, fun _ _ => rfl⟩⟩ habs
  exact ⟨rs, cs, k', habs, hrun, hcs, hsame⟩

/-- A free slot filled with a file. -/
theorem cursors_opened (howned : Owned k.fds k.heap) (path data : List UInt8)
    (hk' : k' = setFd { k with heap := (k.heap.kalloc data).2 } i
      { openedFd (k.fds i) path with
        data := some k.heap.next
        size := data.length }) :
    k'.cursors = Function.update k.cursors i (some ⟨data, 0⟩) := by
  have hfds := congrArg Kernel.fds hk'
  have hheap : k'.heap = (k.heap.kalloc data).2 := congrArg Kernel.heap hk'
  have hsame : SameOthers i k k' := sameOthers_update (p := k.heap.next) hfds
    (fun q hq => by simp [hheap, Heap.bytes, Heap.kalloc, hq])
    fun j _ q hq => (howned.lt_next hq).ne
  rw [cursors_update (k := k) hfds ⟨rfl, rfl, rfl⟩ rfl hsame]
  simp [hheap, openedFd, Heap.bytes, Heap.kalloc]

/-- `SYS_OPEN` of a regular file makes a cursor at the beginning of what it has read. -/
theorem sysOpen_cursor {arg1 : UInt64} {stored printed : List UInt8} {vol : PeanutVolume}
    (howned : Owned k.fds k.heap) (hroot : k.root = some vol)
    (hregular : vfsIsPseudoPath (env.ptr arg1) = false)
    (h : sysOpen fuel env k arg1
      = some (⟨.value (UInt64.ofNat i.val), stored, printed⟩, k')) :
    ∃ data, (vol.readFile fuel (vol.openName env (env.ptr arg1)) data.length).run k.medium.read
        = some (some data) ∧ k'.cursors = Function.update k.cursors i (some ⟨data, 0⟩) := by
  obtain ⟨heap, mem, sz, hread, hfree, hk'⟩ := sysOpen_regular hregular h
  obtain ⟨vol', data, hroot', -, hdata, hr, rfl⟩ | ⟨hr, -⟩ := readFileIntoMem_cases hread
  swap
  · simp at hr
  obtain ⟨rfl, rfl⟩ := Prod.mk.inj (Option.some.inj hr)
  obtain rfl : vol' = vol := by simpa [hroot'] using hroot
  exact ⟨data, hdata, cursors_opened howned _ data hk'⟩

end Cursors

section Pseudo

variable {hdmiStatus : HdmiStatus} {path text : List UInt8}

theorem pathHasPrefix_congr {s s' : Buf} {start : List UInt8}
    (h : ∀ i, i ≤ start.length → s i = s' i) : pathHasPrefix s start = pathHasPrefix s' start := by
  unfold pathHasPrefix
  rw [h _ le_rfl, Bool.eq_iff_iff]
  simp only [Bool.and_eq_true, List.all_eq_true, List.mem_range]
  refine and_congr_left fun _ => forall₂_congr fun i hi => ?_
  rw [h i (Nat.le_of_lt hi)]

def pseudoRoots : List (List UInt8) := [ascii "/proc", ascii "/sys", ascii "/dev", ascii "/etc"]

theorem vfsIsPseudoPath_of_mem {q : CPtr} {start : List UInt8} (hnull : q.null = false)
    (hstart : start ∈ pseudoRoots) (h : pathHasPrefix q.bytes start = true) :
    vfsIsPseudoPath q = true := by
  have hslash : ∀ start ∈ pseudoRoots, 0 < start.length ∧ start.getD 0 0 = 47 := by
    decide +kernel
  obtain ⟨hpos, hhead⟩ := hslash start hstart
  have hzero : q.bytes 0 = 47 := by
    simp only [pathHasPrefix, Bool.and_eq_true, List.all_eq_true, List.mem_range] at h
    rw [← hhead]
    exact of_decide_eq_true (h.1 0 hpos)
  simp only [pseudoRoots, List.mem_cons, List.not_mem_nil, or_false] at hstart
  rcases hstart with rfl | rfl | rfl | rfl <;> simp [vfsIsPseudoPath, hnull, hzero, h]

def textPaths : List (List UInt8) :=
  [ascii "/proc/version", ascii "/sys/kernel/name", ascii "/sys/devices/hdmi", ascii "/etc/passwd",
    ascii "/etc/fstab", ascii "/dev", ascii "/dev/fstab"]

theorem textPaths_spec : ∀ path ∈ textPaths, 0 ∉ path ∧ path.length ≤ 159 ∧
    ∃ start ∈ pseudoRoots,
      start.length ≤ path.length ∧ pathHasPrefix (cptr path).bytes start = true := by
  decide +kernel

/-- The tests of `vfs_pseudo_pread` on a path, in its order. -/
def prefixTests (path : List UInt8) : List Bool :=
  [ascii "/dev", ascii "/proc/version", ascii "/sys/kernel/name", ascii "/sys/devices/hdmi",
    ascii "/etc/passwd", ascii "/etc/fstab"].map (pathHasPrefix (cptr path).bytes)

/-- The tests of `devtmpfs_pread` on a path, in its order. -/
def devTests (path : List UInt8) : List Bool :=
  [ascii "/dev", ascii "/dev/zero", ascii "/dev/random", ascii "/dev/urandom", ascii "/dev/kbd",
    ascii "/dev/mouse", ascii "/dev/fstab"].map (streq (cptr path).bytes)

theorem prefixTests_textPaths : textPaths.map prefixTests =
    [[false, true, false, false, false, false], [false, false, true, false, false, false],
      [false, false, false, true, false, false], [false, false, false, false, true, false],
      [false, false, false, false, false, true], [true, false, false, false, false, false],
      [true, false, false, false, false, false]] := by decide +kernel

theorem devTests_textPaths : [ascii "/dev", ascii "/dev/fstab"].map devTests =
    [[true, false, false, false, false, false, false],
      [false, false, false, false, false, false, true]] := by decide +kernel

/-- Reading a text file copies out of its text. -/
theorem textFiles_read (h : (path, text) ∈ textFiles hdmiStatus) (dev : DevInput) (off : ℕ)
    (buf : CPtr) (len : ℕ) :
    vfsPseudoPread true hdmiStatus.text dev (cptr path) off buf len
      = if buf.null then none else some (pseudoCopy text off len) := by
  have hnull : ∀ l, (cptr l).null = false := fun _ => rfl
  have hprefix := prefixTests_textPaths
  have hdev := devTests_textPaths
  simp only [textPaths, prefixTests, devTests, List.map_cons, List.map_nil, List.cons.injEq,
    and_true] at hprefix hdev
  simp only [textFiles, List.mem_cons, Prod.mk.injEq, List.not_mem_nil, or_false] at h
  rcases hbuf : buf.null with _ | _
  · rcases h with ⟨rfl, rfl⟩ | ⟨rfl, rfl⟩ | ⟨rfl, rfl⟩ | ⟨rfl, rfl⟩ | ⟨rfl, rfl⟩ | ⟨rfl, rfl⟩ |
      ⟨rfl, rfl⟩ <;>
      simp [vfsPseudoPread, devtmpfsPread, devtmpfsIsPath, hbuf, hprefix, hdev, hnull]
  · simp [vfsPseudoPread, hbuf]

theorem textFiles_length : ∀ l ∈ [procVersionText, kernelNameText, passwdText, fstabText, devText],
    l.length < 2 ^ 32 := by
  have hshort : ∀ cs : List Char, cs.length < 100 → (ascii (String.ofList cs)).length < 2 ^ 32 := by
    intro cs hcs
    rw [length_ascii]
    omega
  simp only [List.forall_mem_cons, List.not_mem_nil, false_implies, implies_true, and_true]
  exact ⟨hshort _ (by decide), hshort _ (by decide), hshort _ (by decide), hshort _ (by decide),
    hshort _ (by decide)⟩

/-- Each text file has a pseudo path, and reading it copies out of its text. -/
theorem textFiles_spec (h : (path, text) ∈ textFiles hdmiStatus) :
    0 ∉ path ∧ path.length ≤ 159 ∧ text.length < 2 ^ 32 ∧
      (∃ start ∈ pseudoRoots,
        start.length ≤ path.length ∧ pathHasPrefix (cptr path).bytes start = true) ∧
      ∀ (dev : DevInput) (off : ℕ) (buf : CPtr) (len : ℕ),
        vfsPseudoPread true hdmiStatus.text dev (cptr path) off buf len
          = if buf.null then none else some (pseudoCopy text off len) := by
  have hpath : path ∈ (textFiles hdmiStatus).map Prod.fst := List.mem_map_of_mem h
  have htext : text ∈ (textFiles hdmiStatus).map Prod.snd := List.mem_map_of_mem h
  obtain ⟨hzero, hlen, hstart⟩ := textPaths_spec path hpath
  refine ⟨hzero, hlen, ?_, hstart, textFiles_read h⟩
  by_cases hhdmi : text = hdmiStatus.text
  · have := hdmiStatus.short
    rw [hhdmi]
    omega
  · refine textFiles_length text ?_
    simp only [textFiles, List.map_cons, List.map_nil, List.mem_cons, List.not_mem_nil, or_false]
      at htext ⊢
    rcases htext with ht | ht | ht | ht | ht | ht | ht
    · exact .inl ht
    · exact .inr (.inl ht)
    · exact absurd ht hhdmi
    · exact .inr (.inr (.inl ht))
    · exact .inr (.inr (.inr (.inl ht)))
    · exact .inr (.inr (.inr (.inr ht)))
    · exact .inr (.inr (.inr (.inl ht)))

theorem pseudoCopy_eq (s : List UInt8) (off len : ℕ) :
    pseudoCopy s off len = (s.drop off).take len := by
  unfold pseudoCopy
  split_ifs with hoff hlen
  · simp [List.drop_of_length_le hoff]
  · rfl
  · rw [List.take_of_length_le (by simp), List.take_of_length_le (by simp; omega)]

/-- Descriptor `i` is open on the pseudo file at `path`, `off` bytes in. -/
structure TextAt (k : Kernel N) (hdmiStatus : HdmiStatus) (i : Fin fdMax) (path : List UInt8)
    (off : ℕ) : Prop where
  used : (k.fds i).used = true
  isPseudo : (k.fds i).isPseudo = true
  path : (k.fds i).path = path
  off : (k.fds i).off = off
  fixed : k.devMounted = true ∧ k.hdmiStatus = hdmiStatus

theorem sysRead_pseudo {arg1 : UInt64} (arg2 arg3 : UInt64) (hi : usedFd k arg1 = some i)
    (hpseudo : (k.fds i).isPseudo = true) :
    sysRead env k arg1 arg2 arg3
      = match vfsPseudoPread k.devMounted k.hdmiStatus.text env.dev (cptr (k.fds i).path)
          (k.fds i).off (env.ptr arg2) (arg3.toNat % 2 ^ 32) with
        | none => fail k 1
        | some bytes => (⟨.value (UInt64.ofNat (bytes.length % 2 ^ 32)), bytes, []⟩,
          setFd k i { k.fds i with off := ((k.fds i).off + bytes.length) % 2 ^ 32 }) := by
  unfold sysRead
  rw [hi]
  exact if_pos hpseudo

theorem TextAt.read {off : ℕ} {e : CallEnv × Call} (fuel : ℕ) (h : TextAt k hdmiStatus i path off)
    (htext : (path, text) ∈ textFiles hdmiStatus) (hoff : off ≤ text.length) (hnum : e.2.num = 0)
    (harg : e.2.arg1.toNat = i.val) :
    ∃ r k', k.answer fuel e = some (r, k') ∧ r.stored = (text.drop off).take (wanted e.2) ∧
      TextAt k' hdmiStatus i path (off + r.stored.length) := by
  obtain ⟨-, -, hshort, -, hread⟩ := textFiles_spec htext
  have hi : usedFd { k with lastErrno := 0 } e.2.arg1 = some i := usedFd_of_used harg h.used
  have hcopy : vfsPseudoPread k.devMounted k.hdmiStatus.text e.1.dev (cptr (k.fds i).path)
      (k.fds i).off (e.1.ptr e.2.arg2) (e.2.arg3.toNat % 2 ^ 32)
      = if e.2.arg2 = 0 then none else some ((text.drop off).take (e.2.arg3.toNat % 2 ^ 32)) := by
    rw [h.fixed.1, h.fixed.2, h.path, h.off, hread, pseudoCopy_eq]
    simp [CallEnv.ptr]
  have hanswer : k.answer fuel e = _ :=
    (syscallHandler_read hnum).trans
      (congrArg some (sysRead_pseudo e.2.arg2 e.2.arg3 hi h.isPseudo))
  simp only [hcopy] at hanswer
  by_cases hnull : e.2.arg2 = 0
  · rw [if_pos hnull] at hanswer
    exact ⟨_, _, hanswer, by simp [wanted, hnull], h.used, h.isPseudo, h.path, h.off, h.fixed⟩
  · rw [if_neg hnull] at hanswer
    refine ⟨_, _, hanswer, by simp [wanted, hnull], ?_, ?_, ?_, ?_, h.fixed⟩
    · simp [setFd, h.used]
    · simp [setFd, h.isPseudo]
    · simp [setFd, h.path]
    · simp only [setFd, Function.update_self, h.off, List.length_take, List.length_drop]
      exact Nat.mod_eq_of_lt (by omega)

/-- Reads of a text file store it piece by piece. -/
theorem TextAt.reads (fuel : ℕ) (htext : (path, text) ∈ textFiles hdmiStatus) :
    ∀ (reads : List (CallEnv × Call)) {k : Kernel N} {off : ℕ}, TextAt k hdmiStatus i path off →
      off ≤ text.length → (∀ e ∈ reads, e.2.num = 0 ∧ e.2.arg1.toNat = i.val) →
      ∃ rs k', Runs.outputs (Kernel.answer fuel) k reads = some (rs, k') ∧
        rs.flatMap SysResult.stored = (text.drop off).take (reads.map fun e => wanted e.2).sum
  | [], k, off, _, _, _ => ⟨[], k, rfl, by simp⟩
  | e :: reads, k, off, h, hoff, hreads => by
    obtain ⟨hnum, harg⟩ := hreads e (by simp)
    obtain ⟨r, k₁, hanswer, hstored, h₁⟩ := h.read fuel htext hoff hnum harg
    have hlen : r.stored.length = min (wanted e.2) (text.length - off) := by simp [hstored]
    obtain ⟨rs, k', hrest, hflat⟩ := TextAt.reads fuel htext reads h₁ (by omega)
      fun e he => hreads e (by simp [he])
    refine ⟨r :: rs, k', Runs.outputs_cons_some.2 ⟨r, k₁, rs, hanswer, hrest, rfl⟩, ?_⟩
    have htake : r.stored = (text.drop off).take r.stored.length := by
      rw [hlen, hstored, List.take_eq_take_iff]
      simp
    rw [List.flatMap_cons, hflat, List.map_cons, List.sum_cons, ← take_append_take hlen, ← htake]

/-- What `SYS_OPEN` leaves in the descriptor of a pseudo file. -/
theorem sysOpen_pseudo {arg1 : UInt64} {stored printed : List UInt8}
    (hpseudo : vfsIsPseudoPath (env.ptr arg1) = true)
    (h : sysOpen fuel env k arg1 = some (⟨.value (UInt64.ofNat i.val), stored, printed⟩, k')) :
    k' = setFd k i
      { openedFd (k.fds i) (kstrcpy (env.ptr arg1).bytes 160) with isPseudo := true } := by
  obtain hfail | ⟨j, -, ⟨-, hr, hk⟩ | ⟨hp, -⟩ | ⟨hp, -⟩⟩ := sysOpen_cases h
  · exact absurd hfail opened_ne_fail
  · obtain rfl := ofNat_fd_inj (Ret.value.inj (congrArg SysResult.ret hr))
    exact hk
  · simp [hpseudo] at hp
  · simp [hpseudo] at hp

theorem sysOpen_text {arg1 : UInt64} {stored printed : List UInt8} (hdev : k.devMounted = true)
    (hptr : arg1 ≠ 0) (hpath : IsString (env.ptr arg1).bytes path)
    (htext : (path, text) ∈ textFiles k.hdmiStatus)
    (h : sysOpen fuel env k arg1
      = some (⟨.value (UInt64.ofNat i.val), stored, printed⟩, k')) :
    TextAt k' k.hdmiStatus i path 0 := by
  obtain ⟨-, hlen, -, ⟨start, hstart, hle, hprefix⟩, -⟩ := textFiles_spec htext
  have hpseudo : vfsIsPseudoPath (env.ptr arg1) = true := by
    refine vfsIsPseudoPath_of_mem (by simpa [CallEnv.ptr] using hptr) hstart ?_
    rw [← hprefix]
    exact pathHasPrefix_congr fun j hj => hpath.2 j (hj.trans hle)
  obtain rfl := sysOpen_pseudo hpseudo h
  refine ⟨by simp [setFd, openedFd], by simp [setFd], ?_, by simp [setFd, openedFd], hdev, rfl⟩
  have hcopy := cstr_bytesOf_isString path 159 hpath
  rw [List.take_of_length_le hlen] at hcopy
  simpa [setFd, openedFd, kstrcpy] using hcopy

end Pseudo

/-- After any calls from boot on: `SYS_OPEN` of a regular file makes a cursor at the beginning of
what it reads; any reads and writes of open regular files get the answers of their cursors, which
they move as those, and touch no other descriptor; and what any reads of a text pseudo file store
is its beginning, as much of it as they ask for. -/
theorem files_are_cursors (fuel : ℕ) (sched : Sched N) (medium : Medium) (root : PeanutVolume)
    (hdmiStatus : HdmiStatus) (userBrkArena : ℕ) (events : List KernelEvent) {k : Kernel N}
    (hafter : (Kernel.boot sched medium root hdmiStatus userBrkArena).after fuel events = some k) :
    (∀ (env : CallEnv) (c : Call) (i : Fin fdMax) (stored printed : List UInt8) (k' : Kernel N),
        c.num = 2 → vfsIsPseudoPath (env.ptr c.arg1) = false →
        syscallHandler fuel env k c
          = some (⟨.value (UInt64.ofNat i.val), stored, printed⟩, k') →
        ∃ data, (root.readFile fuel (root.openName env (env.ptr c.arg1)) data.length).run
            k.medium.read = some (some data) ∧
          k'.cursors = Function.update k.cursors i (some ⟨data, 0⟩)) ∧
      (∀ calls : List (CallEnv × Call),
        (∀ e ∈ calls, (e.2.num = 0 ∨ e.2.num = 1) ∧
          ∃ i : Fin fdMax, e.2.arg1.toNat = i.val ∧ (k.cursors i).isSome) →
        ∃ rs cs k', Runs.outputs Cursors.step k.cursors calls = some (rs, cs) ∧
          Runs.outputs (Kernel.answer fuel) k calls = some (rs, k') ∧ k'.cursors = cs ∧
          ∀ j : Fin fdMax, (∀ e ∈ calls, e.2.arg1.toNat ≠ j.val) → k'.fds j = k.fds j ∧
            ∀ p, (k.fds j).Holds p → k'.heap.bytes p = k.heap.bytes p) ∧
      ∀ (path text : List UInt8), (path, text) ∈ textFiles hdmiStatus →
        ∀ (env : CallEnv) (c : Call) (i : Fin fdMax) (stored printed : List UInt8) (k' : Kernel N),
        c.num = 2 → c.arg1 ≠ 0 → IsString (env.ptr c.arg1).bytes path →
        syscallHandler fuel env k c
          = some (⟨.value (UInt64.ofNat i.val), stored, printed⟩, k') →
        ∀ reads : List (CallEnv × Call), (∀ e ∈ reads, e.2.num = 0 ∧ e.2.arg1.toNat = i.val) →
        ∃ rs k'', Runs.outputs (Kernel.answer fuel) k' reads = some (rs, k'') ∧
          rs.flatMap SysResult.stored = text.take (reads.map fun e => wanted e.2).sum := by
  have howned := owned_after events (owned_fresh ⟨rfl, rfl⟩) hafter
  have hfixed := fixed_after events hafter
  refine ⟨fun env c i stored printed k' hnum hregular hopen => ?_,
    fun calls hcalls => answers_cursors fuel calls howned hcalls,
    fun path text htext env c i stored printed k' hnum hptr hpath hopen reads hreads => ?_⟩
  · rw [syscallHandler_open hnum] at hopen
    exact sysOpen_cursor (k := { k with lastErrno := 0 }) howned (congrArg Prod.fst hfixed) hregular
      hopen
  · rw [syscallHandler_open hnum] at hopen
    have hhdmi : k.hdmiStatus = hdmiStatus := congrArg (fun x => x.2.2) hfixed
    have hat := sysOpen_text (congrArg (fun x => x.2.1) hfixed) hptr hpath (hhdmi ▸ htext) hopen
    obtain ⟨rs, k'', hrun, hflat⟩ :=
      TextAt.reads fuel (hhdmi ▸ htext) reads hat (Nat.zero_le _) hreads
    exact ⟨rs, k'', hrun, by simpa using hflat⟩

/-- Two bytes written to the file `AB` and then the rest of it read. -/
def sampleCalls : List (CallEnv × Call) :=
  [(sampleEnv, ⟨1, 0, 0x400000, 2, 0, 0, 0⟩), (sampleEnv, ⟨0, 0, 0x400000, 10, 0, 0, 0⟩)]

theorem files_are_cursors_sample :
    ∃ k k', sampleKernel.after 2 [.call sampleEnv ⟨2, 0x600000, 0, 0, 0, 0, 0⟩] = some k ∧
      Runs.outputs (Kernel.answer 2) k sampleCalls
        = some ([⟨.value 2, [], []⟩, ⟨.value 2, ascii "ta", []⟩], k') ∧
      k'.cursors ⟨0, by decide⟩ = some ⟨ascii "hita", 4⟩ := by
  have heval : (sampleKernel.after 2 [.call sampleEnv ⟨2, 0x600000, 0, 0, 0, 0, 0⟩]).bind (fun k =>
      (Runs.outputs Cursors.step k.cursors sampleCalls).map fun r => (r.1, r.2 ⟨0, by decide⟩))
      = some ([⟨.value 2, [], []⟩, ⟨.value 2, ascii "ta", []⟩], some ⟨ascii "hita", 4⟩) := by
    decide +kernel
  obtain ⟨k, hk, hruns⟩ := Option.bind_eq_some_iff.1 heval
  obtain ⟨⟨rs, cs⟩, habs, hr⟩ := Option.map_eq_some_iff.1 hruns
  obtain ⟨rfl, hcs⟩ := Prod.mk.inj hr
  have hopen : (k.cursors ⟨0, by decide⟩).isSome := by
    obtain ⟨r, cs₁, rs', hstep, -⟩ := Runs.outputs_cons_some.1 habs
    obtain ⟨i, c, harg, hc, -⟩ := Cursors.step_cases hstep
    obtain rfl : i = ⟨0, by decide⟩ := Fin.ext harg.symm
    simp [hc]
  obtain ⟨rs, cs', k', habs', hrun, rfl, -⟩ :=
    (files_are_cursors 2 (schedInit 0) sampleDisk sampleVolume ⟨[], by decide⟩ 0x200000 _ hk).2.1
      sampleCalls (by
        simp only [sampleCalls, List.mem_cons, List.not_mem_nil, or_false, forall_eq_or_imp,
          forall_eq]
        exact ⟨⟨by decide, ⟨0, by decide⟩, rfl, hopen⟩, by decide, ⟨0, by decide⟩, rfl, hopen⟩)
  obtain ⟨rfl, rfl⟩ := Prod.mk.inj (Option.some.inj (habs.symm.trans habs'))
  exact ⟨k, k', hk, hrun, hcs⟩

end PeanutKernel
