import PeanutKernel.Syscall

/-!
# What a system call does to the descriptors

Whatever the arguments and wherever it fails, a call changes the descriptor table and the heap in
one of a few ways (`FdStep`): it moves the offset of a descriptor, stores into its buffer, fills a
free slot or gives a slot back with its buffer. Each buffer so keeps a descriptor, and each
descriptor that has one a buffer of its own, of its size (`Owned`); as long as `kalloc` hands out
blocks, only the pseudo files have none (`Backed`).
-/

namespace PeanutKernel

variable {N : ℕ} {k k' : Kernel N} {env : CallEnv} {fuel : ℕ}

/-- An open file or socket with its buffer at `p`. -/
def Fd.Holds (f : Fd) (p : ℕ) : Prop := f.used = true ∧ f.isPseudo = false ∧ f.data = some p

/-- What a call can do to the descriptors and their buffers. -/
inductive FdStep (env : CallEnv) (c : Call) (fds : FdTable) (heap : Heap) :
    FdTable → Heap → Prop
  | keep : FdStep env c fds heap fds heap
  | seek (i : Fin fdMax) (off : ℕ) (hused : (fds i).used = true)
      (hoff : (fds i).isPseudo = false → off ≤ (fds i).size) :
      FdStep env c fds heap (Function.update fds i { fds i with off := off }) heap
  | store (i : Fin fdMax) (p : ℕ) (data : List UInt8) (hp : (fds i).Holds p)
      (hdata : (fds i).off + data.length ≤ (fds i).size) :
      FdStep env c fds heap
        (Function.update fds i { fds i with off := (fds i).off + data.length, dirty := true })
        (heap.store p (overwrite (heap.bytes p) (fds i).off data))
  | openPseudo (i : Fin fdMax) (f : Fd) (hfree : (fds i).used = false)
      (hf : f.used = true ∧ f.isPseudo = true) :
      FdStep env c fds heap (Function.update fds i f) heap
  | openBuffer (i : Fin fdMax) (f : Fd) (data : List UInt8) (hfree : (fds i).used = false)
      (hf : f.Holds heap.next) (hsize : f.size = data.length) (hoff : f.off = 0) :
      FdStep env c fds heap (Function.update fds i f) (heap.kalloc data).2
  | openNull (i : Fin fdMax) (f : Fd) (hfails : env.kallocFails = true)
      (hfree : (fds i).used = false) (hf : f.data = none) :
      FdStep env c fds heap (Function.update fds i f) heap
  | refuse (i : Fin fdMax) (f : Fd) {heap' : Heap} (hfree : (fds i).used = false)
      (hf : f.used = false)
      (hheap : heap' = heap ∨ ∃ data, heap' = (heap.kalloc data).2.kfree heap.next) :
      FdStep env c fds heap (Function.update fds i f) heap'
  | close (i : Fin fdMax) (p : ℕ) (hc : c.num = 3 ∧ c.arg1.toNat = i.val) (hp : (fds i).Holds p) :
      FdStep env c fds heap (Function.update fds i { fds i with used := false }) (heap.kfree p)
  | closePseudo (i : Fin fdMax) (hc : c.num = 3 ∧ c.arg1.toNat = i.val)
      (hused : (fds i).used = true) (hf : (fds i).isPseudo = true ∨ (fds i).data = none) :
      FdStep env c fds heap (Function.update fds i { fds i with used := false }) heap

/-- What the kernel keeps as it was at boot. -/
def Kernel.fixed (k : Kernel N) : Option PeanutVolume × Bool × HdmiStatus :=
  (k.root, k.devMounted, k.hdmiStatus)

structure CallStep (env : CallEnv) (c : Call) (k k' : Kernel N) : Prop where
  files : FdStep env c k.fds k.heap k'.fds k'.heap
  fixed : k'.fixed = k.fixed

section Dispatch

variable {c : Call}

theorem syscallHandler_read (h : c.num = 0) : syscallHandler fuel env k c
    = some (sysRead env { k with lastErrno := 0 } c.arg1 c.arg2 c.arg3) := by
  simp only [syscallHandler, h]
  rfl

theorem syscallHandler_write (h : c.num = 1) : syscallHandler fuel env k c
    = sysWrite fuel env { k with lastErrno := 0 } c.arg1 c.arg2 c.arg3 := by
  simp only [syscallHandler, h]
  rfl

theorem syscallHandler_open (h : c.num = 2) :
    syscallHandler fuel env k c = sysOpen fuel env { k with lastErrno := 0 } c.arg1 := by
  simp only [syscallHandler, h]
  rfl

theorem syscallHandler_close (h : c.num = 3) :
    syscallHandler fuel env k c = sysClose fuel { k with lastErrno := 0 } c.arg1 := by
  simp only [syscallHandler, h]
  rfl

theorem syscallHandler_errno (h : c.num = sysErrno) : syscallHandler fuel env k c
    = some (⟨.value 0, [], []⟩, { k with lastErrno := 0 }) := by
  simp only [syscallHandler, h]
  rfl

end Dispatch

section Inversion

variable {c : Call}

variable {i : Fin fdMax}

theorem usedFd_some {arg : UInt64} (h : usedFd k arg = some i) :
    i.val = arg.toNat ∧ (k.fds i).used = true := by
  unfold usedFd at h
  split_ifs at h with hlt hused
  obtain rfl : (⟨arg.toNat, hlt⟩ : Fin fdMax) = i := by simpa using h
  exact ⟨rfl, hused⟩

theorem usedFd_of_used {arg : UInt64} (harg : arg.toNat = i.val) (hused : (k.fds i).used = true) :
    usedFd k arg = some i := by
  have hlt : arg.toNat < fdMax := harg ▸ i.isLt
  obtain rfl : i = ⟨arg.toNat, hlt⟩ := Fin.ext harg.symm
  simp [usedFd, hlt, hused]

theorem allocFd_some {fds fds' : FdTable} (h : allocFd fds = some (i, fds')) :
    (fds i).used = false ∧ fds' = Function.update fds i { fds i with
      used := true
      data := none
      size := 0
      off := 0
      isPseudo := false
      isSocket := false
      path := [] } := by
  unfold allocFd at h
  obtain ⟨j, hj, heq⟩ := Option.map_eq_some_iff.1 h
  obtain ⟨rfl, rfl⟩ := Prod.mk.inj heq
  have := (Fin.find?_eq_some_iff.1 hj).1
  exact ⟨by simpa using this, rfl⟩

theorem takeOf_le (f : Fd) (count : UInt64) : takeOf f count ≤ f.size - f.off := by
  unfold takeOf
  split_ifs <;> omega

theorem callStep_sysRead (arg1 arg2 arg3 : UInt64) :
    CallStep env c k (sysRead env k arg1 arg2 arg3).2 := by
  unfold sysRead
  rcases hi : usedFd k arg1 with _ | i
  · exact ⟨.keep, rfl⟩
  · obtain ⟨-, hused⟩ := usedFd_some hi
    simp only
    split_ifs with hp hoff
    · split
      · exact ⟨.keep, rfl⟩
      · exact ⟨.seek i _ hused fun h => by simp [hp] at h, rfl⟩
    · exact ⟨.keep, rfl⟩
    · refine ⟨.seek i _ hused fun _ => ?_, rfl⟩
      have := takeOf_le (k.fds i) arg3
      omega

variable {r : SysResult}

theorem callStep_sysWrite {arg1 arg2 arg3 : UInt64}
    (h : sysWrite fuel env k arg1 arg2 arg3 = some (r, k')) : CallStep env c k k' := by
  unfold sysWrite at h
  rcases hi : usedFd k arg1 with _ | i
  · simp only [hi] at h
    split_ifs at h
    · obtain ⟨text, -, heq⟩ := Option.map_eq_some_iff.1 h
      obtain ⟨-, rfl⟩ := Prod.mk.inj heq
      exact ⟨.keep, rfl⟩
    · obtain ⟨-, rfl⟩ := Prod.mk.inj (Option.some.inj h)
      exact ⟨.keep, rfl⟩
  · obtain ⟨-, hused⟩ := usedFd_some hi
    simp only [hi] at h
    rcases hp : (k.fds i).isPseudo with _ | _
    · rcases hd : (k.fds i).data with _ | p
      · simp only [hp, hd] at h
        obtain ⟨-, rfl⟩ := Prod.mk.inj (Option.some.inj h)
        exact ⟨.keep, rfl⟩
      · by_cases hoff : (k.fds i).size ≤ (k.fds i).off
        · simp only [hp, hd, if_pos hoff] at h
          obtain ⟨-, rfl⟩ := Prod.mk.inj (Option.some.inj h)
          exact ⟨.keep, rfl⟩
        · simp only [hp, hd, if_neg hoff] at h
          obtain ⟨-, rfl⟩ := Prod.mk.inj (Option.some.inj h)
          have htake := takeOf_le (k.fds i) arg3
          have hstore : FdStep env c k.fds k.heap _ _ :=
            .store i p (bytesOf (env.ptr arg2).bytes (takeOf (k.fds i) arg3)) ⟨hused, hp, hd⟩ (by
              simp only [bytesOf, List.length_map, List.length_range]
              omega)
          exact ⟨by simpa [setFd, bytesOf, hp, hd] using hstore, rfl⟩
    · simp only [hp, if_true] at h
      obtain ⟨-, rfl⟩ := Prod.mk.inj (Option.some.inj h)
      exact ⟨.keep, rfl⟩

/-- What `read_file_into_mem` does: the file is in a new block, or everything is given back. -/
theorem readFileIntoMem_cases {path : CPtr} {heap : Heap} {r : Option (ℕ × ℕ)}
    (h : readFileIntoMem fuel env k path = some (heap, r)) :
    (∃ (vol : PeanutVolume) (data : List UInt8), k.root = some vol ∧
        (vol.fileSize fuel (vol.openName env path)).run k.medium.read = some (some data.length) ∧
        (vol.readFile fuel (vol.openName env path) data.length).run k.medium.read
          = some (some data) ∧
        r = some (k.heap.next, data.length) ∧ heap = (k.heap.kalloc data).2) ∨
      r = none ∧
        (heap = k.heap ∨ ∃ data, heap = (k.heap.kalloc data).2.kfree k.heap.next) := by
  unfold readFileIntoMem at h
  rcases hroot : k.root with _ | vol
  · simp only [hroot, Option.some.injEq, Prod.mk.injEq] at h
    exact .inr ⟨h.2.symm, .inl h.1.symm⟩
  · simp only [hroot] at h
    by_cases hpseudo : vfsIsPseudoPath path = true
    · simp only [if_pos hpseudo, Option.some.injEq, Prod.mk.injEq] at h
      exact .inr ⟨h.2.symm, .inl h.1.symm⟩
    simp only [if_neg hpseudo] at h
    rcases hsize : (vol.fileSize fuel (vol.openName env path)).run k.medium.read with _ | _ | size
    · simp [hsize] at h
    · simp only [hsize, Option.some.injEq, Prod.mk.injEq] at h
      exact .inr ⟨h.2.symm, .inl h.1.symm⟩
    simp only [hsize] at h
    rcases hk : env.kallocFails with _ | _
    · simp only [hk, Bool.false_eq_true, if_false] at h
      rcases hread : (vol.readFile fuel (vol.openName env path) size).run k.medium.read
        with _ | _ | data
      · simp [hread] at h
      · simp only [hread, Option.some.injEq, Prod.mk.injEq] at h
        exact .inr ⟨h.2.symm, .inr ⟨_, h.1.symm⟩⟩
      · simp only [hread] at h
        split_ifs at h with hlen
        · simp only [Option.some.injEq, Prod.mk.injEq] at h
          exact .inr ⟨h.2.symm, .inr ⟨_, h.1.symm⟩⟩
        · obtain rfl : data.length = size := not_not.1 hlen
          simp only [Option.some.injEq, Prod.mk.injEq] at h
          refine .inl ⟨vol, data, rfl, hsize, hread, h.2.symm, ?_⟩
          rw [← h.1]
          simp [Heap.kalloc, Heap.store]
    · simp only [hk, if_true, Option.some.injEq, Prod.mk.injEq] at h
      exact .inr ⟨h.2.symm, .inl h.1.symm⟩

/-- The slot of a descriptor that has just been opened, before it gets its contents. -/
def openedFd (f : Fd) (path : List UInt8) : Fd :=
  { f with
    used := true
    data := none
    size := 0
    off := 0
    path := path
    isPseudo := false
    dirty := false
    isSocket := false }

/-- What `SYS_OPEN` does: no slot is free, or it fills one for a pseudo file, gives one back, or
fills one with the file it has read. -/
theorem sysOpen_cases {arg1 : UInt64} (h : sysOpen fuel env k arg1 = some (r, k')) :
    (r, k') = fail k 3 ∨ ∃ i, (k.fds i).used = false ∧
      ((vfsIsPseudoPath (env.ptr arg1) = true ∧ r = ⟨.value (UInt64.ofNat i.val), [], []⟩ ∧
          k' = setFd k i
            { openedFd (k.fds i) (kstrcpy (env.ptr arg1).bytes 160) with isPseudo := true }) ∨
        (vfsIsPseudoPath (env.ptr arg1) = false ∧ ∃ heap,
          readFileIntoMem fuel env k (env.ptr arg1) = some (heap, none) ∧
          (r, k') = fail (setFd { k with heap := heap } i
            { openedFd (k.fds i) (kstrcpy (env.ptr arg1).bytes 160) with used := false }) 4) ∨
        (vfsIsPseudoPath (env.ptr arg1) = false ∧ ∃ heap mem sz,
          readFileIntoMem fuel env k (env.ptr arg1) = some (heap, some (mem, sz)) ∧
          r = ⟨.value (UInt64.ofNat i.val), [], []⟩ ∧ k' = setFd { k with heap := heap } i
            { openedFd (k.fds i) (kstrcpy (env.ptr arg1).bytes 160) with
              data := some mem
              size := sz })) := by
  unfold sysOpen at h
  rcases halloc : allocFd k.fds with _ | ⟨i, fds⟩
  · simp only [halloc] at h
    exact .inl (Option.some.inj h).symm
  · obtain ⟨hfree, rfl⟩ := allocFd_some halloc
    simp only [halloc] at h
    refine .inr ⟨i, hfree, ?_⟩
    rcases hp : vfsIsPseudoPath (env.ptr arg1) with _ | _
    · rcases hread : readFileIntoMem fuel env k (env.ptr arg1) with _ | ⟨heap, _ | ⟨mem, sz⟩⟩
      · simp [hp, hread] at h
      · simp only [hp, hread] at h
        refine .inr (.inl ⟨rfl, heap, rfl, (Option.some.inj h).symm.trans ?_⟩)
        simp [setFd, openedFd]
      · simp only [hp, hread] at h
        obtain ⟨rfl, rfl⟩ := Prod.mk.inj (Option.some.inj h)
        refine .inr (.inr ⟨rfl, heap, mem, sz, rfl, rfl, ?_⟩)
        simp [setFd, openedFd]
    · simp only [hp, if_true] at h
      obtain ⟨rfl, rfl⟩ := Prod.mk.inj (Option.some.inj h)
      refine .inl ⟨rfl, rfl, ?_⟩
      simp [setFd, openedFd]

theorem callStep_sysOpen {arg1 : UInt64} (h : sysOpen fuel env k arg1 = some (r, k')) :
    CallStep env c k k' := by
  obtain hfail | ⟨i, hfree, ⟨-, -, rfl⟩ | ⟨-, heap, hread, hfail⟩ |
      ⟨-, heap, mem, sz, hread, -, rfl⟩⟩ :=
    sysOpen_cases h
  · obtain ⟨-, rfl⟩ := Prod.mk.inj hfail
    exact ⟨.keep, rfl⟩
  · exact ⟨.openPseudo i _ hfree ⟨rfl, rfl⟩, rfl⟩
  · obtain ⟨-, rfl⟩ := Prod.mk.inj hfail
    obtain ⟨-, data, -, -, -, hr, -⟩ | ⟨-, hheap⟩ := readFileIntoMem_cases hread
    · simp at hr
    · exact ⟨.refuse i _ hfree rfl hheap, rfl⟩
  · obtain ⟨-, data, -, -, -, hr, hheap⟩ | ⟨hr, -⟩ := readFileIntoMem_cases hread
    · obtain ⟨rfl, rfl⟩ := Prod.mk.inj (Option.some.inj hr)
      subst hheap
      exact ⟨.openBuffer i _ data hfree ⟨rfl, rfl, rfl⟩ rfl rfl, rfl⟩
    · simp at hr

theorem flush_eq {f : Fd} {p : ℕ} (h : flush fuel k f p = some k') :
    k'.fds = k.fds ∧ k'.heap = k.heap ∧ k'.fixed = k.fixed := by
  unfold flush at h
  split_ifs at h
  · rcases hroot : k.root with _ | vol
    · simp only [hroot, Option.some.injEq] at h
      simp [← h]
    · simp only [hroot] at h
      obtain ⟨w, -, rfl⟩ := Option.map_eq_some_iff.1 h
      exact ⟨rfl, rfl, by simp [Kernel.fixed, hroot]⟩
  · simp only [Option.some.injEq] at h
    simp [← h]

theorem callStep_sysClose (hnum : c.num = 3) (h : sysClose fuel k c.arg1 = some (r, k')) :
    CallStep env c k k' := by
  unfold sysClose at h
  rcases hi : usedFd k c.arg1 with _ | i
  · simp only [hi] at h
    obtain ⟨-, rfl⟩ := Prod.mk.inj (Option.some.inj h)
    exact ⟨.keep, rfl⟩
  · obtain ⟨harg, hused⟩ := usedFd_some hi
    have hc : c.num = 3 ∧ c.arg1.toNat = i.val := ⟨hnum, harg.symm⟩
    simp only [hi] at h
    rcases hp : (k.fds i).isPseudo with _ | _
    · rcases hd : (k.fds i).data with _ | p
      · simp only [hp, hd] at h
        obtain ⟨-, rfl⟩ := Prod.mk.inj (Option.some.inj h)
        have hclose : FdStep env c k.fds k.heap _ _ := .closePseudo i hc hused (.inr hd)
        exact ⟨by simpa [setFd, hp, hd] using hclose, rfl⟩
      · simp only [hp, hd] at h
        obtain ⟨k₁, hflush, heq⟩ := Option.map_eq_some_iff.1 h
        obtain ⟨-, rfl⟩ := Prod.mk.inj heq
        obtain ⟨hfds, hheap, hfixed⟩ := flush_eq hflush
        have hclose : FdStep env c k.fds k.heap _ _ := .close i p hc ⟨hused, hp, hd⟩
        exact ⟨by simpa [setFd, hfds, hheap, hp, hd] using hclose, hfixed⟩
    · simp only [hp] at h
      obtain ⟨-, rfl⟩ := Prod.mk.inj (Option.some.inj h)
      have hclose : FdStep env c k.fds k.heap _ _ := .closePseudo i hc hused (.inl hp)
      exact ⟨by simpa [setFd, hp] using hclose, rfl⟩

theorem callStep_openSocket {fds : FdTable} (halloc : allocFd k.fds = some (i, fds))
    (domain type protocol : ℤ) :
    CallStep env c k (openSocket env k i fds domain type protocol).2 := by
  obtain ⟨hfree, rfl⟩ := allocFd_some halloc
  unfold openSocket
  simp only
  split_ifs with hk
  · refine ⟨?_, rfl⟩
    simp only [done, setFd, Function.update_idem]
    exact .openNull i _ hk hfree rfl
  · refine ⟨?_, rfl⟩
    simp only [done, setFd, Function.update_idem]
    refine .openBuffer i _ (bytesOf env.fresh 4096) hfree ?_ ?_ ?_
    · simp [Fd.Holds, Heap.kalloc]
    · simp [bytesOf]
    · simp

theorem callStep_sysAccept (arg1 : UInt64) :
    CallStep env c k (sysAccept env k arg1).2 := by
  unfold sysAccept
  rcases socketFd k arg1 with _ | sockfd
  · exact ⟨.keep, rfl⟩
  · simp only
    rcases halloc : allocFd k.fds with _ | ⟨i, fds⟩
    · exact ⟨.keep, rfl⟩
    · exact callStep_openSocket halloc _ _ _

theorem callStep_sysSocket (arg1 arg2 arg3 : UInt64) :
    CallStep env c k (sysSocket env k arg1 arg2 arg3).2 := by
  unfold sysSocket
  rcases halloc : allocFd k.fds with _ | ⟨i, fds⟩
  · exact ⟨.keep, rfl⟩
  · exact callStep_openSocket halloc _ _ _

theorem callStep_handleBrk (addr : UInt64) : CallStep env c k (handleBrk k addr).2 := by
  unfold handleBrk
  split_ifs <;> exact ⟨.keep, rfl⟩

theorem callStep_sysFork (rip rsp flags : UInt64) :
    CallStep env c k (sysFork k rip rsp flags).2 := by
  unfold sysFork
  simp only
  split_ifs <;> exact ⟨.keep, rfl⟩

theorem callStep_sysKill (arg1 arg2 : UInt64) : CallStep env c k (sysKill k arg1 arg2).2 := by
  unfold sysKill
  simp only
  split_ifs <;> exact ⟨.keep, rfl⟩

theorem callStep_sysExec (arg1 arg2 arg3 : UInt64) :
    CallStep env c k (sysExec env k arg1 arg2 arg3).2 := by
  unfold sysExec
  split_ifs
  · exact ⟨.keep, rfl⟩
  · exact ⟨.keep, rfl⟩
  · simp only
    split
    · exact ⟨.keep, rfl⟩
    · split <;> exact ⟨.keep, rfl⟩

theorem callStep_onSocket (errno : ℕ) (arg1 : UInt64) :
    CallStep env c k (onSocket k errno arg1).2 := by
  unfold onSocket
  split <;> exact ⟨.keep, rfl⟩

theorem callStep_sysSend (arg1 arg3 : UInt64) : CallStep env c k (sysSend env k arg1 arg3).2 := by
  unfold sysSend
  split
  · exact ⟨.keep, rfl⟩
  · split_ifs <;> exact ⟨.keep, rfl⟩

/-- Every call is one of these steps. -/
theorem callStep_syscallHandler (h : syscallHandler fuel env k c = some (r, k')) :
    CallStep env c k k' := by
  suffices hstep : CallStep env c { k with lastErrno := 0 } k' from ⟨hstep.files, hstep.fixed⟩
  unfold syscallHandler at h
  generalize { k with lastErrno := 0 } = k₀ at h ⊢
  have hsnd : ∀ {x : SysResult × Kernel N}, some x = some (r, k') → x.2 = k' := by
    rintro x hx
    rw [Option.some.inj hx]
  simp only at h
  split at h
  case h_2 => exact callStep_sysWrite h
  case h_3 => exact callStep_sysOpen h
  case h_4 heq => exact callStep_sysClose (UInt64.toNat_inj.1 heq) h
  all_goals rw [← hsnd h]
  case h_1 => exact callStep_sysRead _ _ _
  case h_6 => exact callStep_handleBrk _
  case h_8 => exact callStep_sysSocket _ _ _
  case h_9 | h_12 | h_13 | h_14 => exact callStep_onSocket _ _
  case h_10 => exact callStep_sysAccept _
  case h_11 => exact callStep_sysSend _ _
  case h_16 => exact callStep_sysFork _ _ _
  case h_17 => exact callStep_sysExec _ _ _
  case h_19 => exact callStep_sysKill _ _
  all_goals exact ⟨.keep, rfl⟩

end Inversion

section Ownership

/-- The buffers belong to the descriptors, one each, and none has been given back that still
does. -/
structure Owned (fds : FdTable) (heap : Heap) : Prop where
  live : ∀ i p, (fds i).Holds p → ∃ data, heap.block p = some data ∧
    data.length = (fds i).size ∧ (fds i).off ≤ (fds i).size
  holder : ∀ p, heap.block p ≠ none → ∃ i, (fds i).Holds p
  inj : ∀ i j p, (fds i).Holds p → (fds j).Holds p → i = j
  new : ∀ p, heap.next ≤ p → heap.block p = none
  freed : ∀ p ∈ heap.freed, p < heap.next ∧ heap.block p = none
  nodup : heap.freed.Nodup

/-- Every open file or socket has a buffer. -/
def Backed (fds : FdTable) : Prop :=
  ∀ i, (fds i).used = true → (fds i).isPseudo = false → (fds i).data ≠ none

variable {fds fds' : FdTable} {heap heap' : Heap} {i : Fin fdMax} {f : Fd} {p : ℕ}
  {data : List UInt8}

theorem Fd.not_holds_of_free (h : f.used = false) (p : ℕ) : ¬ f.Holds p := fun hp => by
  simp [hp.1] at h

theorem Fd.not_holds_of_pseudo (h : f.isPseudo = true) (p : ℕ) : ¬ f.Holds p := fun hp => by
  simp [hp.2.1] at h

theorem Fd.not_holds_of_null (h : f.data = none) (p : ℕ) : ¬ f.Holds p := fun hp => by
  simp [hp.2.2] at h

section

variable (h : Owned fds heap)

include h

theorem Owned.bytes_length (hp : (fds i).Holds p) : (heap.bytes p).length = (fds i).size := by
  obtain ⟨data, hblock, hsize, -⟩ := h.live i p hp
  simp [Heap.bytes, hblock, hsize]

theorem Owned.lt_next (hp : (fds i).Holds p) : p < heap.next := by
  obtain ⟨data, hblock, -⟩ := h.live i p hp
  by_contra hlt
  rw [h.new p (not_lt.1 hlt)] at hblock
  cases hblock

/-- Another offset, or `dirty` set. -/
theorem Owned.adjust (hused : f.used = (fds i).used) (hpseudo : f.isPseudo = (fds i).isPseudo)
    (hdata : f.data = (fds i).data) (hsize : f.size = (fds i).size)
    (hoff : f.isPseudo = false → f.off ≤ f.size) : Owned (Function.update fds i f) heap := by
  have hholds : ∀ j q, (Function.update fds i f j).Holds q ↔ (fds j).Holds q := by
    intro j q
    by_cases hj : j = i
    · subst hj
      simp [Fd.Holds, hused, hpseudo, hdata]
    · simp [hj]
  refine ⟨fun j q hq => ?_, fun q hq => ?_, fun j l q hj hl => ?_, h.new, h.freed, h.nodup⟩
  · obtain ⟨data, hblock, hlen, hle⟩ := h.live j q ((hholds j q).1 hq)
    by_cases hj : j = i
    · subst hj
      simp only [Function.update_self] at hq ⊢
      exact ⟨data, hblock, hlen.trans hsize.symm, hoff hq.2.1⟩
    · simp only [Function.update_of_ne hj]
      exact ⟨data, hblock, hlen, hle⟩
  · obtain ⟨j, hj⟩ := h.holder q hq
    exact ⟨j, (hholds j q).2 hj⟩
  · exact h.inj j l q ((hholds j q).1 hj) ((hholds l q).1 hl)

theorem Owned.store (hp : (fds i).Holds p) (hlen : data.length = (fds i).size) :
    Owned fds (heap.store p data) := by
  obtain ⟨old, hold, -⟩ := h.live i p hp
  have hlive : ∀ q, (heap.store p data).block q = none ↔ heap.block q = none := by
    intro q
    by_cases hq : q = p
    · subst hq
      simp [Heap.store, hold]
    · simp [Heap.store, hq]
  refine ⟨fun j q hq => ?_, fun q hq => ?_, h.inj, fun q hq => ?_, fun q hq => ?_, h.nodup⟩
  · obtain ⟨old, hblock, hsize, hoff⟩ := h.live j q hq
    by_cases hqp : q = p
    · subst hqp
      obtain rfl := h.inj i j q hp hq
      exact ⟨data, by simp [Heap.store], hlen, hoff⟩
    · exact ⟨old, by simpa [Heap.store, hqp] using hblock, hsize, hoff⟩
  · exact h.holder q fun hnone => hq ((hlive q).2 hnone)
  · exact (hlive q).2 (h.new q hq)
  · obtain ⟨hlt, hnone⟩ := h.freed q hq
    exact ⟨hlt, (hlive q).2 hnone⟩

/-- A slot that holds no buffer, before and after. -/
theorem Owned.fill (hold : ∀ q, ¬ (fds i).Holds q) (hf : ∀ q, ¬ f.Holds q) :
    Owned (Function.update fds i f) heap := by
  have hholds : ∀ j q, (Function.update fds i f j).Holds q ↔ j ≠ i ∧ (fds j).Holds q := by
    intro j q
    by_cases hj : j = i
    · subst hj
      simp [hf q]
    · simp [hj]
  refine ⟨fun j q hq => ?_, fun q hq => ?_, fun j l q hj hl => ?_, h.new, h.freed, h.nodup⟩
  · obtain ⟨hj, hjq⟩ := (hholds j q).1 hq
    simpa [hj] using h.live j q hjq
  · obtain ⟨j, hj⟩ := h.holder q hq
    refine ⟨j, (hholds j q).2 ⟨?_, hj⟩⟩
    rintro rfl
    exact hold q hj
  · exact h.inj j l q ((hholds j q).1 hj).2 ((hholds l q).1 hl).2

/-- A free slot takes a new buffer. -/
theorem Owned.allocate (hfree : (fds i).used = false) (hf : f.Holds heap.next)
    (hsize : f.size = data.length) (hoff : f.off = 0) :
    Owned (Function.update fds i f) (heap.kalloc data).2 := by
  have hold : ∀ {j q}, (fds j).Holds q → j ≠ i ∧ q ≠ heap.next := fun {j q} hj => by
    refine ⟨?_, (h.lt_next hj).ne⟩
    rintro rfl
    exact Fd.not_holds_of_free hfree q hj
  have hholds : ∀ j q, (Function.update fds i f j).Holds q ↔
      j = i ∧ q = heap.next ∨ (fds j).Holds q := by
    intro j q
    by_cases hj : j = i
    · subst hj
      have hnot := Fd.not_holds_of_free hfree q
      simp only [Function.update_self, hnot, or_false, true_and]
      constructor
      · intro hq
        simpa [hq.2.2] using hf.2.2
      · rintro rfl
        exact hf
    · simp [hj]
  have hblock : ∀ q, q ≠ heap.next → (heap.kalloc data).2.block q = heap.block q := fun q hq => by
    simp [Heap.kalloc, hq]
  refine ⟨fun j q hq => ?_, fun q hq => ?_, fun j l q hj hl => ?_, fun q hq => ?_,
    fun q hq => ?_, h.nodup⟩
  · rcases (hholds j q).1 hq with ⟨rfl, rfl⟩ | hjq
    · simp only [Function.update_self]
      exact ⟨data, by simp [Heap.kalloc], hsize.symm, by omega⟩
    · rw [hblock q (hold hjq).2, Function.update_of_ne (hold hjq).1]
      exact h.live j q hjq
  · by_cases hqn : q = heap.next
    · exact ⟨i, (hholds i q).2 (.inl ⟨rfl, hqn⟩)⟩
    · rw [hblock q hqn] at hq
      obtain ⟨j, hj⟩ := h.holder q hq
      exact ⟨j, (hholds j q).2 (.inr hj)⟩
  · rcases (hholds j q).1 hj with ⟨rfl, hq⟩ | hjq <;> rcases (hholds l q).1 hl with ⟨rfl, hq'⟩ | hlq
    · rfl
    · exact absurd hq (hold hlq).2
    · exact absurd hq' (hold hjq).2
    · exact h.inj j l q hjq hlq
  · have hlt : heap.next + 1 ≤ q := hq
    rw [hblock q (by omega)]
    exact h.new q (by omega)
  · obtain ⟨hlt, hnone⟩ := h.freed q hq
    exact ⟨Nat.lt_succ_of_lt hlt, (hblock q hlt.ne).trans hnone⟩

/-- A new buffer that is given back at once. -/
theorem Owned.kalloc_kfree (data : List UInt8) :
    Owned fds ((heap.kalloc data).2.kfree heap.next) := by
  have hblock : ((heap.kalloc data).2.kfree heap.next).block = heap.block := by
    funext q
    by_cases hq : q = heap.next
    · subst hq
      simp [Heap.kfree, h.new heap.next le_rfl]
    · simp [Heap.kfree, Heap.kalloc, hq]
  refine ⟨fun j q hq => ?_, fun q hq => ?_, h.inj, fun q hq => ?_, fun q hq => ?_, ?_⟩
  · rw [hblock]
    exact h.live j q hq
  · rw [hblock] at hq
    exact h.holder q hq
  · rw [hblock]
    exact h.new q (Nat.le_of_succ_le hq)
  · rw [hblock]
    rcases List.mem_append.1 hq with hq | hq
    · obtain ⟨hlt, hnone⟩ := h.freed q hq
      exact ⟨Nat.lt_succ_of_lt hlt, hnone⟩
    · obtain rfl := List.mem_singleton.1 hq
      exact ⟨Nat.lt_succ_self _, h.new _ le_rfl⟩
  · refine List.nodup_append.2 ⟨h.nodup, List.nodup_singleton _, fun a ha b hb => ?_⟩
    obtain rfl := List.mem_singleton.1 hb
    exact (h.freed a ha).1.ne

/-- A slot is given up and its buffer given back. -/
theorem Owned.release (hp : (fds i).Holds p) (hf : f.used = false) :
    Owned (Function.update fds i f) (heap.kfree p) := by
  obtain ⟨old, hold, -⟩ := h.live i p hp
  have hblock : ∀ q, q ≠ p → (heap.kfree p).block q = heap.block q := fun q hq => by
    simp [Heap.kfree, hq]
  have hholds : ∀ j q, (Function.update fds i f j).Holds q ↔ (fds j).Holds q ∧ q ≠ p := by
    intro j q
    by_cases hj : j = i
    · subst hj
      have hnot := Fd.not_holds_of_free hf q
      simp only [Function.update_self, hnot, false_iff, not_and, not_not]
      intro hq
      simpa [hq.2.2] using hp.2.2
    · simp only [Function.update_of_ne hj, iff_self_and]
      rintro hq rfl
      exact hj (h.inj j i q hq hp)
  refine ⟨fun j q hq => ?_, fun q hq => ?_, fun j l q hj hl => ?_, fun q hq => ?_,
    fun q hq => ?_, ?_⟩
  · obtain ⟨hjq, hqp⟩ := (hholds j q).1 hq
    have hj : j ≠ i := by
      rintro rfl
      exact Fd.not_holds_of_free hf q (by simpa using hq)
    rw [hblock q hqp, Function.update_of_ne hj]
    exact h.live j q hjq
  · have hqp : q ≠ p := by
      rintro rfl
      simp [Heap.kfree] at hq
    rw [hblock q hqp] at hq
    obtain ⟨j, hj⟩ := h.holder q hq
    exact ⟨j, (hholds j q).2 ⟨hj, hqp⟩⟩
  · exact h.inj j l q ((hholds j q).1 hj).1 ((hholds l q).1 hl).1
  · by_cases hqp : q = p
    · subst hqp
      simp [Heap.kfree]
    · rw [hblock q hqp]
      exact h.new q hq
  · rcases List.mem_append.1 hq with hq | hq
    · obtain ⟨hlt, hnone⟩ := h.freed q hq
      have hqp : q ≠ p := by
        rintro rfl
        simp [hold] at hnone
      exact ⟨hlt, (hblock q hqp).trans hnone⟩
    · obtain rfl := List.mem_singleton.1 hq
      exact ⟨h.lt_next hp, by simp [Heap.kfree]⟩
  · refine List.nodup_append.2 ⟨h.nodup, List.nodup_singleton _, fun a ha b hb => ?_⟩
    obtain rfl := List.mem_singleton.1 hb
    rintro rfl
    have := (h.freed a ha).2
    simp [hold] at this

end

theorem overwrite_length {l : List UInt8} {off : ℕ} (h : off + data.length ≤ l.length) :
    (overwrite l off data).length = l.length := by
  simp only [overwrite, List.length_append, List.length_take, List.length_drop]
  omega

theorem Owned.step {c : Call} (h : Owned fds heap) (hstep : FdStep env c fds heap fds' heap') :
    Owned fds' heap' := by
  cases hstep with
  | keep => exact h
  | seek i off hused hoff => exact h.adjust rfl rfl rfl rfl hoff
  | store i p data hp hdata =>
    have hlen := h.bytes_length hp
    refine (h.store hp ?_).adjust rfl rfl rfl rfl fun _ => hdata
    rw [overwrite_length (by omega), hlen]
  | openPseudo i f hfree hf =>
    exact h.fill (Fd.not_holds_of_free hfree) (Fd.not_holds_of_pseudo hf.2)
  | openBuffer i f data hfree hf hsize hoff => exact h.allocate hfree hf hsize hoff
  | refuse i f hfree hf hheap =>
    have hfill := Fd.not_holds_of_free hf
    rcases hheap with rfl | ⟨data, rfl⟩
    · exact h.fill (Fd.not_holds_of_free hfree) hfill
    · exact (h.kalloc_kfree data).fill (Fd.not_holds_of_free hfree) hfill
  | openNull i f hfails hfree hf =>
    exact h.fill (Fd.not_holds_of_free hfree) (Fd.not_holds_of_null hf)
  | close i p hc hp => exact h.release hp rfl
  | closePseudo i hc hused hf =>
    refine h.fill ?_ (Fd.not_holds_of_free rfl)
    rcases hf with hpseudo | hnone
    · exact Fd.not_holds_of_pseudo hpseudo
    · exact Fd.not_holds_of_null hnone

theorem Backed.update (h : Backed fds)
    (hf : f.used = true → f.isPseudo = false → f.data ≠ none) :
    Backed (Function.update fds i f) := by
  intro j hused hpseudo
  by_cases hj : j = i
  · subst hj
    simp only [Function.update_self] at hused hpseudo ⊢
    exact hf hused hpseudo
  · simp only [Function.update_of_ne hj] at hused hpseudo ⊢
    exact h j hused hpseudo

theorem Backed.step {c : Call} (h : Backed fds) (hk : env.kallocFails = false)
    (hstep : FdStep env c fds heap fds' heap') : Backed fds' := by
  cases hstep with
  | keep => exact h
  | seek i | store i => exact h.update (h i)
  | openPseudo i f _ hf => exact h.update (by simp [hf.2])
  | openBuffer i f data _ hf => exact h.update (by simp [hf.2.2])
  | openNull i f hfails => simp [hk] at hfails
  | refuse i f _ hf => exact h.update (by simp [hf])
  | close i | closePseudo i => exact h.update (by simp)

theorem owned_fresh {k : Kernel N} (h : k.Fresh) : Owned k.fds k.heap := by
  obtain ⟨hfds, hheap⟩ := h
  rw [hfds, hheap]
  exact ⟨fun i p hp => absurd hp (Fd.not_holds_of_free rfl p), fun p hp => absurd rfl hp,
    fun i j p hi => absurd hi (Fd.not_holds_of_free rfl p), fun _ _ => rfl,
    fun p hp => absurd hp List.not_mem_nil, List.nodup_nil⟩

/-- An event is a call, or leaves all but the disk as it was. -/
theorem Kernel.step_cases {e : KernelEvent} (h : k.step fuel e = some k') :
    (∃ env c r, e = .call env c ∧ syscallHandler fuel env k c = some (r, k')) ∨
      ∃ m, e = .device m ∧ k' = { k with medium := m } := by
  cases e with
  | call env c =>
    simp only [Kernel.step] at h
    rcases hcall : syscallHandler fuel env k c with _ | ⟨r, k₁⟩
    · simp [hcall] at h
    · simp only [hcall] at h
      split_ifs at h
      obtain rfl : k₁ = k' := by simpa using h
      exact .inl ⟨env, c, r, rfl, hcall⟩
  | device m =>
    exact .inr ⟨m, rfl, by simpa [Kernel.step] using h.symm⟩

theorem Owned.event {e : KernelEvent} (h : Owned k.fds k.heap)
    (hstep : k.step fuel e = some k') : Owned k'.fds k'.heap := by
  obtain ⟨env, c, r, -, hcall⟩ | ⟨m, -, rfl⟩ := Kernel.step_cases hstep
  · exact h.step (callStep_syscallHandler hcall).files
  · exact h

theorem Backed.event {e : KernelEvent} (h : Backed k.fds) (hk : e.KallocWorks)
    (hstep : k.step fuel e = some k') : Backed k'.fds := by
  obtain ⟨env, c, r, rfl, hcall⟩ | ⟨m, -, rfl⟩ := Kernel.step_cases hstep
  · exact h.step hk (callStep_syscallHandler hcall).files
  · exact h

/-- What every event that meets `C` keeps, a run of such events keeps. -/
theorem Kernel.inv_after {I : Kernel N → Prop} {C : KernelEvent → Prop}
    (hstep : ∀ {k k' : Kernel N} {e}, I k → C e → k.step fuel e = some k' → I k') :
    ∀ (events : List KernelEvent) {k k' : Kernel N}, I k → (∀ e ∈ events, C e) →
      k.after fuel events = some k' → I k'
  | [], k, k', h, _, hafter => by
    obtain rfl : k = k' := by simpa [Kernel.after] using hafter
    exact h
  | e :: events, k, k', h, hC, hafter => by
    simp only [Kernel.after, List.foldlM_cons, Option.bind_eq_bind] at hafter
    obtain ⟨k₁, hk₁, hrest⟩ := Option.bind_eq_some_iff.1 hafter
    exact Kernel.inv_after hstep events (hstep h (hC e (by simp)) hk₁)
      (fun e he => hC e (by simp [he]))
      hrest

theorem owned_after (events : List KernelEvent) (h : Owned k.fds k.heap)
    (hafter : k.after fuel events = some k') : Owned k'.fds k'.heap :=
  Kernel.inv_after (I := fun k => Owned k.fds k.heap) (C := fun _ => True)
    (fun h _ => h.event) events h (fun _ _ => trivial) hafter

theorem fixed_after (events : List KernelEvent) (hafter : k.after fuel events = some k') :
    k'.fixed = k.fixed := by
  refine Kernel.inv_after (I := fun k₁ => k₁.fixed = k.fixed) (C := fun _ => True) ?_ events rfl
    (fun _ _ => trivial) hafter
  rintro k₁ k₂ e h - hstep
  obtain ⟨env, c, r, -, hcall⟩ | ⟨m, -, rfl⟩ := Kernel.step_cases hstep
  · exact (callStep_syscallHandler hcall).fixed.trans h
  · exact h

end Ownership

section Samples

/-- An absolute path of 160 characters to the file `AB`. -/
def longPath : List UInt8 := List.replicate 158 47 ++ ascii "AB"

/-- Three strings in memory, and nothing to be read elsewhere. -/
def sampleEnv : CallEnv where
  mem a :=
    if 0x600000 ≤ a then (ascii "/AB").getD (a - 0x600000) 0
    else if 0x500000 ≤ a then longPath.getD (a - 0x500000) 0
    else if 0x400000 ≤ a then (ascii "hi").getD (a - 0x400000) 0
    else 0
  kallocFails := false
  fresh := fun _ => 0
  garbage := []
  dev := ⟨fun _ => 0, [], []⟩
  canSend := false
  loader := fun _ _ _ => none

/-- Two files in the root directory of an exFAT volume, `A` and `AB`. -/
def sampleDisk : Medium where
  byte a :=
    if 3072 ≤ a then (ascii "data").getD (a - 3072) 0
    else if 2560 ≤ a then (ascii "one").getD (a - 2560) 0
    else (List.lookup a [(2048, 0x85), (2049, 2), (2052, 0x20), (2080, 0xC0), (2081, 3), (2083, 1),
      (2100, 5), (2104, 3), (2112, 0xC1), (2114, 65), (2144, 0x85), (2145, 2), (2148, 0x20),
      (2176, 0xC0), (2177, 3), (2179, 2), (2196, 6), (2200, 4), (2208, 0xC1), (2210, 65),
      (2212, 66)]).getD 0
  bad _ := false

def sampleVolume : PeanutVolume := .exfat ⟨⟨7, 0, 100⟩, 1, 2, 4, 9, 1⟩

def sampleStatus : HdmiStatus := ⟨[], by decide⟩

def sampleKernel : Kernel 2 :=
  .boot (schedInit 0) sampleDisk sampleVolume sampleStatus 0x200000

def socketCall : Call := ⟨41, 2, 1, 0, 0, 0, 0⟩

end Samples

section Errno

/-- The handler forgets the error of the last call before it looks at the next, so `SYS_ERRNO`
never reports one: it is right exactly after a call that has not failed. -/
theorem errno_reports_iff (fuel : ℕ) {env : CallEnv} {k k' : Kernel N} {c : Call} {r : SysResult}
    (_hcall : syscallHandler fuel env k c = some (r, k')) (_hnum : c.num ≠ sysErrno)
    (queries : List KernelEvent)
    (_hqueries : ∀ e ∈ queries, ∃ env c, e = .call env c ∧ c.num = sysErrno) {k₁ : Kernel N}
    (_hafter : k'.after fuel queries = some k₁) (env₁ : CallEnv) (c₁ : Call)
    (hc₁ : c₁.num = sysErrno) :
    ∃ errno k₂, syscallHandler fuel env₁ k₁ c₁ = some (⟨.value errno, [], []⟩, k₂) ∧
      (ErrnoReports r k'.lastErrno errno ↔ r.ret ≠ .value (-1)) := by
  refine ⟨0, { k₁ with lastErrno := 0 }, syscallHandler_errno hc₁, ?_⟩
  constructor
  · rintro ⟨hfailed, -⟩ hret
    exact hfailed hret rfl
  · intro hret
    exact ⟨fun h => absurd h hret, fun _ => rfl⟩

theorem errno_reports_iff_close :
    ∃ r k' errno k₂, syscallHandler 0 sampleEnv sampleKernel ⟨3, 7, 0, 0, 0, 0, 0⟩ = some (r, k') ∧
      syscallHandler 0 sampleEnv k' ⟨4, 0, 0, 0, 0, 0, 0⟩ = some (⟨.value errno, [], []⟩, k₂) ∧
      (ErrnoReports r k'.lastErrno errno ↔ r.ret ≠ .value (-1)) := by
  obtain ⟨r, k', hcall⟩ : ∃ r k', syscallHandler 0 sampleEnv sampleKernel ⟨3, 7, 0, 0, 0, 0, 0⟩
      = some (r, k') := ⟨_, _, rfl⟩
  obtain ⟨errno, k₂, h⟩ := errno_reports_iff 0 hcall (by decide) [] (by simp) rfl sampleEnv
    ⟨4, 0, 0, 0, 0, 0, 0⟩ rfl
  exact ⟨r, k', errno, k₂, hcall, h⟩

/-- Closing a descriptor that is not open fails with error 5, and `SYS_ERRNO` returns 0. -/
theorem errno_forgotten :
    ∃ k', syscallHandler 0 sampleEnv sampleKernel ⟨3, 7, 0, 0, 0, 0, 0⟩
      = some (⟨.value (-1), [], []⟩, k') ∧ k'.lastErrno = 5 ∧
      (syscallHandler 0 sampleEnv k' ⟨4, 0, 0, 0, 0, 0, 0⟩).map (fun r => r.1.ret)
        = some (.value 0) :=
  ⟨_, rfl, rfl, rfl⟩

end Errno

section Console

theorem usedFd_eq_none {arg : UInt64} (h : arg.toNat < fdMax) :
    usedFd k arg = none ↔ (k.fds ⟨arg.toNat, h⟩).used = false := by
  simp [usedFd, h]

theorem IsString.tail {s : Buf} {text : List UInt8} {c : UInt8} (h : IsString s (c :: text)) :
    IsString (fun i => s (i + 1)) text := by
  refine ⟨fun hmem => h.1 (List.mem_cons_of_mem _ hmem), fun i hi => ?_⟩
  have := h.2 (i + 1) (by simpa using hi)
  simpa using this

theorem kprint_isString :
    ∀ (text : List UInt8) {s : Buf} (fuel : ℕ), IsString s text → text.length ≤ fuel →
      kprint fuel s = some text
  | [], s, fuel, h, _ => by
    have hzero : s 0 = 0 := h.2 0 le_rfl
    unfold kprint
    rw [if_pos hzero]
  | c :: text, s, 0, _, hfuel => by simp at hfuel
  | c :: text, s, fuel + 1, h, hfuel => by
    have hc : s 0 = c := h.2 0 (Nat.zero_le _)
    have hne : c ≠ 0 := fun hc => h.1 (by simp [hc])
    unfold kprint
    rw [if_neg (by rw [hc]; exact hne)]
    show (kprint fuel fun i => s (i + 1)).map (s 0 :: ·) = some (c :: text)
    rw [kprint_isString text fuel h.tail (by simpa using hfuel), hc]
    rfl

/-- A descriptor in use is never the console. -/
theorem sysWrite_printed {arg1 arg2 arg3 : UInt64} {r : SysResult} {i : Fin fdMax}
    (hi : usedFd k arg1 = some i) (h : sysWrite fuel env k arg1 arg2 arg3 = some (r, k')) :
    r.printed = [] := by
  simp only [sysWrite, hi] at h
  rcases hp : (k.fds i).isPseudo with _ | _
  · rcases hd : (k.fds i).data with _ | p
    · simp only [hp, hd] at h
      obtain ⟨rfl, -⟩ := Prod.mk.inj (Option.some.inj h)
      rfl
    · simp only [hp, hd] at h
      by_cases hoff : (k.fds i).size ≤ (k.fds i).off
      · simp only [if_pos hoff] at h
        obtain ⟨rfl, -⟩ := Prod.mk.inj (Option.some.inj h)
        rfl
      · simp only [if_neg hoff] at h
        obtain ⟨rfl, -⟩ := Prod.mk.inj (Option.some.inj h)
        rfl
  · simp only [hp, if_true] at h
    obtain ⟨rfl, -⟩ := Prod.mk.inj (Option.some.inj h)
    rfl

/-- Descriptors 1 and 2 are the console exactly as long as their slots of the table are free. -/
theorem console_iff (k : Kernel N) (fd : UInt64) (hfd : fd = 1 ∨ fd = 2) :
    IsConsole k fd ↔ ∀ i : Fin fdMax, i.val = fd.toNat → (k.fds i).used = false := by
  have hlt : fd.toNat < fdMax := by rcases hfd with rfl | rfl <;> decide
  have hslot : (∀ i : Fin fdMax, i.val = fd.toNat → (k.fds i).used = false) ↔
      usedFd { k with lastErrno := 0 } fd = none := by
    rw [usedFd_eq_none hlt]
    constructor
    · intro h
      exact h _ rfl
    · intro h i hi
      obtain rfl : i = ⟨fd.toNat, hlt⟩ := Fin.ext hi
      exact h
  rw [hslot]
  constructor
  · intro hconsole
    rcases hused : usedFd { k with lastErrno := 0 } fd with _ | i
    · rfl
    · -- a string that is not empty, at address 1
      let env : CallEnv := ⟨fun a => if a = 1 then 120 else 0, false, fun _ => 0, [],
        ⟨fun _ => 0, [], []⟩, false, fun _ _ _ => none⟩
      have htext : IsString (env.ptr 1).bytes [120] := by
        refine ⟨by decide, fun j hj => ?_⟩
        rcases Nat.le_one_iff_eq_zero_or_eq_one.1 hj with rfl | rfl <;> rfl
      obtain ⟨k', hcall, -⟩ := hconsole env ⟨1, fd, 1, 1, 0, 0, 0⟩ [120] 1 rfl rfl htext le_rfl
      rw [syscallHandler_write rfl] at hcall
      have := sysWrite_printed hused hcall
      simp at this
  · intro hnone env c text fuel hnum harg htext hfuel
    refine ⟨{ k with lastErrno := 0 }, ?_, rfl, rfl⟩
    rw [syscallHandler_write hnum, sysWrite, harg, hnone]
    simp only [if_pos hfd, kprint_isString text fuel htext hfuel]
    rfl

theorem console_iff_boot : IsConsole sampleKernel 1 :=
  (console_iff sampleKernel 1 (.inl rfl)).2 fun _ _ => rfl

/-- Two sockets take descriptors 0 and 1; what is then written to descriptor 1 is not printed but
goes into the second one's buffer. -/
theorem console_taken :
    ∃ k, sampleKernel.after 0 [.call sampleEnv socketCall, .call sampleEnv socketCall] = some k ∧
      ¬ IsConsole k 1 ∧
      (syscallHandler 2 sampleEnv k ⟨1, 1, 0x400000, 2, 0, 0, 0⟩).map
        (fun r => (r.1, (k.heap.bytes 1).take 2, (r.2.heap.bytes 1).take 2))
        = some (⟨.value 2, [], []⟩, [0, 0], [104, 105]) := by
  have heval : (sampleKernel.after 0
      [.call sampleEnv socketCall, .call sampleEnv socketCall]).bind (fun k =>
        (syscallHandler 2 sampleEnv k ⟨1, 1, 0x400000, 2, 0, 0, 0⟩).map
          fun r => (r.1, (k.heap.bytes 1).take 2, (r.2.heap.bytes 1).take 2))
      = some (⟨.value 2, [], []⟩, [0, 0], [104, 105]) := by decide +kernel
  obtain ⟨k, hk, hwrite⟩ := Option.bind_eq_some_iff.1 heval
  refine ⟨k, hk, fun hconsole => ?_, hwrite⟩
  obtain ⟨k', hcall, -⟩ := hconsole sampleEnv ⟨1, 1, 0x400000, 2, 0, 0, 0⟩ [104, 105] 2 rfl rfl
    ⟨by decide, by decide⟩ le_rfl
  simp [hcall] at hwrite

end Console

end PeanutKernel
