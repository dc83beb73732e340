import PeanutKernel.Proofs.Syscall

/-!
# The path a descriptor was opened with, and the one it is written back to

`SYS_OPEN` converts the path it is given, but the descriptor keeps only its first 159 characters,
and `SYS_CLOSE` converts those. On an exFAT volume the conversion takes off a leading slash before
it cuts, so a path of 160 characters or more loses one character more the second time.
-/

namespace PeanutKernel

variable {N : ℕ} {k k' : Kernel N} {env : CallEnv} {fuel : ℕ}

section Strings

variable {s : Buf} {text : List UInt8}

theorem bytesOf_succ (s : Buf) (n : ℕ) :
    bytesOf s (n + 1) = s 0 :: bytesOf (fun i => s (i + 1)) n := by
  simp [bytesOf, List.range_succ_eq_map, Function.comp_def]

/-- A copy that stops at the zero or after `n` characters. -/
theorem cstr_bytesOf_isString :
    ∀ (text : List UInt8) {s : Buf} (n : ℕ), IsString s text → cstr (bytesOf s n) = text.take n
  | _, s, 0, _ => by simp [bytesOf, cstr]
  | [], s, n + 1, h => by
    have hzero : s 0 = 0 := h.2 0 le_rfl
    simp [bytesOf_succ, cstr, hzero]
  | c :: text, s, n + 1, h => by
    have hc : s 0 = c := h.2 0 (Nat.zero_le _)
    have hne : c ≠ 0 := fun hc => h.1 (by simp [hc])
    have hrest := cstr_bytesOf_isString text n h.tail
    rw [cstr] at hrest
    rw [bytesOf_succ, cstr, List.takeWhile_cons_of_pos (by simpa [hc] using hne), hrest, hc]
    rfl

theorem isString_cptr (h : 0 ∉ text) : IsString (cptr text).bytes text := ⟨h, fun _ _ => rfl⟩

theorem IsString.head (h : IsString s text) : s 0 = 47 ↔ text.head? = some 47 := by
  have hzero := h.2 0 (Nat.zero_le _)
  rcases text with _ | ⟨c, text⟩
  · simp [hzero]
  · simp [hzero]

theorem fsPathToFatName_isString {p : CPtr} (hp : p.null = false) (h : IsString p.bytes text) :
    fsPathToFatName p 160 = some (((if text.head? = some 47 then text.tail else text).take 159).map
      upperAscii) := by
  unfold fsPathToFatName
  simp only [hp, Bool.false_or, decide_eq_true_eq, if_neg (by decide : ¬ (160 : ℕ) = 0)]
  rcases text with _ | ⟨c, text⟩
  · have hzero : p.bytes 0 = 0 := h.2 0 le_rfl
    simp [hzero, cstr_bytesOf_isString [] 159 h]
  · have hc : p.bytes 0 = c := h.2 0 (Nat.zero_le _)
    by_cases h47 : c = 47
    · have hrest := cstr_bytesOf_isString text 159 h.tail
      simp [hc, h47, Nat.add_comm 1, hrest]
    · have hall := cstr_bytesOf_isString (c :: text) 159 h
      simp [hc, h47, hall]

theorem absolutePath_isString (h : IsString s text) :
    absolutePath s = if text.head? = some 47 then text.take 159 else 47 :: text.take 158 := by
  unfold absolutePath kstrcpy
  rw [cstr_bytesOf_isString text _ h, cstr_bytesOf_isString text _ h]
  by_cases h47 : text.head? = some 47
  · rw [if_pos h47, if_neg (not_not.2 (h.head.2 h47))]
  · rw [if_neg h47, if_pos fun hs => h47 (h.head.1 hs)]

end Strings

section Names

variable {path : List UInt8} {p : CPtr} {vol : PeanutVolume}

theorem head_take_succ (path : List UInt8) (n : ℕ) : (path.take (n + 1)).head? = path.head? := by
  cases path <;> rfl

/-- The name the descriptor's copy of a path is converted to is the one the path itself is, but for
the paths too long by their slash. -/
theorem writeName_eq_openName_iff (env : CallEnv) (hp : p.null = false)
    (h : IsString p.bytes path) :
    (∀ q, vol.writeName (path.take 159) = some q → q = vol.openName env p) ↔
      ¬ (vol.isExfat = true ∧ path.head? = some 47 ∧ 160 ≤ path.length) := by
  have hstored : IsString (cptr (path.take 159)).bytes (path.take 159) :=
    isString_cptr fun hmem => h.1 (List.mem_of_mem_take hmem)
  have hhead : (path.take 159).head? = path.head? := head_take_succ path 158
  cases vol with
  | fat32 v => simp [PeanutVolume.writeName, PeanutVolume.isExfat]
  | ext v =>
    simp only [PeanutVolume.writeName, PeanutVolume.openName, PeanutVolume.isExfat,
      absolutePath_isString hstored, absolutePath_isString h, hhead, List.take_take]
    simp
  | exfat v =>
    simp only [PeanutVolume.writeName, PeanutVolume.openName, PeanutVolume.isExfat,
      fsPathToFatName_isString hp h,
      fsPathToFatName_isString (p := cptr (path.take 159)) rfl hstored,
      hhead, Option.getD_some, Option.some.injEq, forall_eq', true_and]
    by_cases h47 : path.head? = some 47
    · simp only [h47, if_true, true_and, not_le]
      constructor
      · intro heq
        have hlen := congrArg List.length heq
        simp only [List.length_map, List.length_take, List.length_tail] at hlen
        omega
      · intro hlt
        rw [List.take_of_length_le (by omega : path.length ≤ 159)]
    · simp [h47, List.take_take]

end Names

section Descriptor

/-- Descriptor `i` is in use, for the file it was in use for. -/
structure SameFile (i : Fin fdMax) (k k' : Kernel N) : Prop where
  used : (k'.fds i).used = true
  path : (k'.fds i).path = (k.fds i).path
  isPseudo : (k'.fds i).isPseudo = (k.fds i).isPseudo

variable {i : Fin fdMax}

theorem SameFile.trans {k'' : Kernel N} (h : SameFile i k k') (h' : SameFile i k' k'') :
    SameFile i k k'' :=
  ⟨h'.used, h'.path.trans h.path, h'.isPseudo.trans h.isPseudo⟩

/-- A descriptor in use keeps its file until it is closed. -/
theorem FdStep.sameFile {c : Call} (hstep : FdStep env c k.fds k.heap k'.fds k'.heap)
    (hused : (k.fds i).used = true) (hc : ¬ (c.num = 3 ∧ c.arg1.toNat = i.val)) :
    SameFile i k k' := by
  have hother : ∀ (j : Fin fdMax) (f : Fd), (k.fds j).used = false →
      k'.fds = Function.update k.fds j f → SameFile i k k' := by
    intro j f hfree hfds
    have hij : i ≠ j := by
      rintro rfl
      simp [hused] at hfree
    constructor <;> rw [hfds] <;> simp [hij, hused]
  have hsame : ∀ (j : Fin fdMax) (f : Fd), f.used = (k.fds j).used → f.path = (k.fds j).path →
      f.isPseudo = (k.fds j).isPseudo → k'.fds = Function.update k.fds j f → SameFile i k k' := by
    intro j f hfu hfp hfi hfds
    by_cases hij : i = j
    · subst hij
      constructor <;> rw [hfds] <;> simp [hfu, hfp, hfi, hused]
    · constructor <;> rw [hfds] <;> simp [hij, hused]
  have hclosed : ∀ j : Fin fdMax, c.num = 3 ∧ c.arg1.toNat = j.val →
      k'.fds = Function.update k.fds j { k.fds j with used := false } → SameFile i k k' := by
    intro j hj hfds
    have hij : i ≠ j := by
      rintro rfl
      exact hc hj
    constructor <;> rw [hfds] <;> simp [hij, hused]
  generalize hfds : k'.fds = fds' at hstep
  generalize k'.heap = heap' at hstep
  cases hstep with
  | keep => constructor <;> simp [hfds, hused]
  | seek j off => exact hsame j { k.fds j with off := off } rfl rfl rfl hfds
  | store j p data =>
    exact hsame j { k.fds j with off := (k.fds j).off + data.length, dirty := true } rfl rfl rfl
      hfds
  | openPseudo j f hfree | openBuffer j f _ hfree | openNull j f _ hfree | refuse j f hfree =>
    exact hother j f hfree hfds
  | close j p hj | closePseudo j hj => exact hclosed j hj hfds

/-- The event is not a `SYS_CLOSE` of descriptor `i`. -/
def KernelEvent.Spares (i : Fin fdMax) : KernelEvent → Prop
  | .call _ c => ¬ (c.num = 3 ∧ c.arg1.toNat = i.val)
  | .device _ => True

theorem sameFile_step {e : KernelEvent} (hstep : k.step fuel e = some k')
    (hused : (k.fds i).used = true) (he : e.Spares i) : SameFile i k k' := by
  obtain ⟨env, c, r, rfl, hcall⟩ | ⟨m, -, rfl⟩ := Kernel.step_cases hstep
  · exact (callStep_syscallHandler hcall).files.sameFile hused he
  · exact ⟨hused, rfl, rfl⟩

theorem sameFile_after (events : List KernelEvent) (hafter : k.after fuel events = some k')
    (hused : (k.fds i).used = true) (hspare : ∀ e ∈ events, e.Spares i) : SameFile i k k' := by
  refine Kernel.inv_after (C := KernelEvent.Spares i) (I := SameFile i k) ?_ events
    ⟨hused, rfl, rfl⟩ hspare hafter
  intro k₁ k₂ e h he hstep
  exact h.trans (sameFile_step hstep h.used he)

/-- A descriptor that is returned is the slot that was filled. -/
theorem ofNat_fd_inj {j : Fin fdMax} (h : UInt64.ofNat i.val = UInt64.ofNat j.val) : i = j := by
  revert i j
  decide

theorem opened_ne_fail {stored printed : List UInt8} {errno : ℕ} :
    (⟨.value (UInt64.ofNat i.val), stored, printed⟩, k') ≠ fail k errno := by
  intro h
  have hret : UInt64.ofNat i.val = -1 := Ret.value.inj (congrArg (fun x => x.1.ret) h)
  clear h
  revert i
  decide

/-- What a successful `SYS_OPEN` of a regular file leaves in its slot. -/
theorem sysOpen_regular {arg1 : UInt64} {stored printed : List UInt8}
    (hregular : vfsIsPseudoPath (env.ptr arg1) = false)
    (h : sysOpen fuel env k arg1 = some (⟨.value (UInt64.ofNat i.val), stored, printed⟩, k')) :
    ∃ heap mem sz, readFileIntoMem fuel env k (env.ptr arg1) = some (heap, some (mem, sz)) ∧
      (k.fds i).used = false ∧ k' = setFd { k with heap := heap } i
        { openedFd (k.fds i) (kstrcpy (env.ptr arg1).bytes 160) with
          data := some mem
          size := sz } := by
  obtain hfail | ⟨j, hfree, ⟨hp, -⟩ | ⟨-, heap, -, hfail⟩ | ⟨-, heap, mem, sz, hread, hr, hk⟩⟩ :=
    sysOpen_cases h
  · exact absurd hfail opened_ne_fail
  · simp [hregular] at hp
  · exact absurd hfail opened_ne_fail
  · obtain rfl := ofNat_fd_inj (Ret.value.inj (congrArg SysResult.ret hr))
    exact ⟨heap, mem, sz, hread, hfree, hk⟩

/-- `SYS_OPEN` read a regular file through a converted path, and the descriptor has not been closed
since: `SYS_CLOSE` converts the path it kept to the same one, but for an absolute path of 160
characters or more on an exFAT volume. -/
theorem flush_path_iff (fuel : ℕ) {k k₁ k₂ : Kernel N} {env : CallEnv} {c : Call}
    {vol : PeanutVolume} {path stored printed : List UInt8} {i : Fin fdMax}
    (hroot : k.root = some vol) (hnum : c.num = 2) (hptr : c.arg1 ≠ 0)
    (hpath : IsString (env.ptr c.arg1).bytes path)
    (hregular : vfsIsPseudoPath (env.ptr c.arg1) = false)
    (hopen : syscallHandler fuel env k c
      = some (⟨.value (UInt64.ofNat i.val), stored, printed⟩, k₁))
    (events : List KernelEvent) (hspare : ∀ e ∈ events, e.Spares i)
    (hafter : k₁.after fuel events = some k₂) :
    k₂.root = some vol ∧
      ((∀ q, vol.writeName (k₂.fds i).path = some q → q = vol.openName env (env.ptr c.arg1)) ↔
        ¬ (vol.isExfat = true ∧ path.head? = some 47 ∧ 160 ≤ path.length)) := by
  rw [syscallHandler_open hnum] at hopen
  obtain ⟨heap, mem, sz, -, -, rfl⟩ := sysOpen_regular hregular hopen
  have hfile := sameFile_after events hafter (by simp [setFd, openedFd]) hspare
  have hfixed := fixed_after events hafter
  refine ⟨(congrArg Prod.fst hfixed).trans hroot, ?_⟩
  have hstored : (k₂.fds i).path = path.take 159 := by
    rw [hfile.path]
    simp only [setFd, openedFd, Function.update_self, kstrcpy]
    exact cstr_bytesOf_isString path 159 hpath
  rw [hstored]
  exact writeName_eq_openName_iff env (by simpa [CallEnv.ptr] using hptr) hpath

theorem flush_path_iff_short :
    ∃ k₁, syscallHandler 2 sampleEnv sampleKernel ⟨2, 0x600000, 0, 0, 0, 0, 0⟩
        = some (⟨.value 0, [], []⟩, k₁) ∧
      ∀ q, sampleVolume.writeName (k₁.fds ⟨0, by decide⟩).path = some q →
        q = sampleVolume.openName sampleEnv (sampleEnv.ptr 0x600000) := by
  have heval : (syscallHandler 2 sampleEnv sampleKernel ⟨2, 0x600000, 0, 0, 0, 0, 0⟩).map Prod.fst
      = some ⟨.value 0, [], []⟩ := by decide +kernel
  obtain ⟨⟨r, k₁⟩, hopen, rfl⟩ := Option.map_eq_some_iff.1 heval
  have hroot : sampleKernel.root = some sampleVolume := rfl
  have hpath : IsString (sampleEnv.ptr 0x600000).bytes (ascii "/AB") := by decide +kernel
  have hregular : vfsIsPseudoPath (sampleEnv.ptr 0x600000) = false := by decide +kernel
  refine ⟨k₁, hopen, ?_⟩
  exact (flush_path_iff 2 (i := ⟨0, by decide⟩) hroot rfl (by decide) hpath hregular hopen []
    (by simp) rfl).2.2 (by decide)

/-- The file opened is `AB`, and the one `SYS_CLOSE` writes to is `A`. -/
theorem long_path_flushes_other :
    sampleVolume.openName sampleEnv (sampleEnv.ptr 0x500000)
        = List.replicate 157 47 ++ ascii "AB" ∧
      (syscallHandler 2 sampleEnv sampleKernel ⟨2, 0x500000, 0, 0, 0, 0, 0⟩).map
        (fun r => (r.1, sampleVolume.writeName (r.2.fds ⟨0, by decide⟩).path))
        = some (⟨.value 0, [], []⟩, some (List.replicate 157 47 ++ ascii "A")) := by
  decide +kernel

end Descriptor

end PeanutKernel
