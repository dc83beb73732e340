import PeanutKernel.Proofs.FileCursor

/-!
# Which pseudo files that open can be read

`SYS_OPEN` takes every path under `/proc`, `/sys`, `/dev` or `/etc` for a pseudo file, and
`SYS_READ` knows a few names: exact ones under `/dev`, and five more together with everything below
them. The descriptor keeps 159 characters of the path, more than any of these tests looks at.
-/

namespace PeanutKernel

variable {N : ℕ} {k k' : Kernel N} {env : CallEnv} {fuel : ℕ}

section Names

variable {start path : List UInt8} {s : Buf}

/-- `path` is `start` or lies below it. -/
def Under (start path : List UInt8) : Prop := path = start ∨ ∃ rest, path = start ++ 47 :: rest

/-- The files `devtmpfs_pread` knows. -/
def devFiles : List (List UInt8) :=
  [ascii "/dev", ascii "/dev/zero", ascii "/dev/random", ascii "/dev/urandom", ascii "/dev/kbd",
    ascii "/dev/mouse", ascii "/dev/fstab"]

/-- The names `vfs_pseudo_pread` knows. -/
def servedRoots : List (List UInt8) :=
  [ascii "/proc/version", ascii "/sys/kernel/name", ascii "/sys/devices/hdmi", ascii "/etc/passwd",
    ascii "/etc/fstab"]

def Served (path : List UInt8) : Prop := path ∈ devFiles ∨ ∃ start ∈ servedRoots, Under start path

/-- The comparison both tests make first. -/
theorem matches_iff (hstart : 0 ∉ start) (h : IsString s path) :
    (∀ i < start.length, s i = start.getD i 0) ↔ ∃ rest, path = start ++ rest := by
  induction start generalizing s path with
  | nil => simp
  | cons c start ih =>
    have hc : c ≠ 0 := fun hc => hstart (by simp [hc])
    have hsplit : (∀ i < (c :: start).length, s i = (c :: start).getD i 0) ↔
        s 0 = c ∧ ∀ i < start.length, s (i + 1) = start.getD i 0 := by
      rw [List.length_cons, Nat.forall_lt_succ_left]
      simp
    rw [hsplit]
    rcases path with _ | ⟨d, path⟩
    · have hzero : s 0 = 0 := h.2 0 le_rfl
      simp [hzero, hc.symm]
    · have hd : s 0 = d := h.2 0 (Nat.zero_le _)
      rw [ih (fun hmem => hstart (List.mem_cons_of_mem c hmem)) h.tail, hd]
      simp

/-- The character after what has been compared. -/
theorem IsString.after {rest : List UInt8} (h : IsString s (start ++ rest)) :
    s start.length = rest.getD 0 0 := by
  rw [h.2 start.length (by simp)]
  simp [List.getElem?_append_right]

theorem pathHasPrefix_iff (hstart : 0 ∉ start) (h : IsString s path) :
    pathHasPrefix s start = true ↔ Under start path := by
  simp only [pathHasPrefix, Bool.and_eq_true, List.all_eq_true, List.mem_range, decide_eq_true_eq,
    Bool.or_eq_true, matches_iff hstart h]
  constructor
  · rintro ⟨⟨rest, rfl⟩, hend⟩
    rw [h.after] at hend
    rcases rest with _ | ⟨c, rest⟩
    · exact Or.inl (List.append_nil start)
    · have hc : c ≠ 0 := fun hc => h.1 (by simp [hc])
      rcases hend with hzero | hslash
      · exact absurd hzero hc
      · exact Or.inr ⟨rest, by rw [show c = 47 from hslash]⟩
  · rintro (rfl | ⟨rest, rfl⟩)
    · exact ⟨⟨[], (List.append_nil path).symm⟩, Or.inl (h.2 _ le_rfl ▸ by simp)⟩
    · exact ⟨⟨47 :: rest, rfl⟩, Or.inr h.after⟩

theorem streq_iff (hstart : 0 ∉ start) (h : IsString s path) :
    streq s start = true ↔ path = start := by
  simp only [streq, Bool.and_eq_true, List.all_eq_true, List.mem_range, decide_eq_true_eq,
    matches_iff hstart h]
  constructor
  · rintro ⟨⟨rest, rfl⟩, hend⟩
    rw [h.after] at hend
    rcases rest with _ | ⟨c, rest⟩
    · exact List.append_nil start
    · exact absurd hend fun hc => h.1 (by simp [show c = 0 from hc])
  · rintro rfl
    exact ⟨⟨[], (List.append_nil path).symm⟩, h.2 _ le_rfl ▸ by simp⟩

/-- What `path` starts with, if it lies under `start`. -/
theorem Under.take (h : Under start path) {n : ℕ} (hn : n ≤ start.length) :
    path.take n = start.take n := by
  rcases h with rfl | ⟨rest, rfl⟩
  · rfl
  · exact List.take_append_of_le_length hn

theorem not_under_dev (h : start ∈ servedRoots) (hpath : Under start path) :
    ¬ Under (ascii "/dev") path := by
  have htop : ∀ start ∈ servedRoots, 4 ≤ start.length ∧ start.take 4 ≠ ascii "/dev" := by
    decide +kernel
  intro hdev
  obtain ⟨hlen, hne⟩ := htop start h
  exact hne ((hpath.take hlen).symm.trans (hdev.take (by decide +kernel)))

theorem under_dev_of_mem (h : path ∈ devFiles) : Under (ascii "/dev") path := by
  have hall : ∀ path ∈ devFiles,
      path = ascii "/dev" ∨ path = ascii "/dev" ++ 47 :: path.drop 5 := by
    decide +kernel
  rcases hall path h with heq | heq
  · exact Or.inl heq
  · exact Or.inr ⟨_, heq⟩

theorem take_eq_iff {n : ℕ} (hn : start.length < n) : path.take n = start ↔ path = start := by
  constructor
  · intro h
    have hlen := congrArg List.length h
    rw [List.length_take] at hlen
    rwa [List.take_of_length_le (by omega)] at h
  · rintro rfl
    exact List.take_of_length_le hn.le

theorem under_take_iff {n : ℕ} (hn : start.length < n) :
    Under start (path.take n) ↔ Under start path := by
  unfold Under
  rw [take_eq_iff hn]
  refine or_congr_right ⟨?_, ?_⟩
  · rintro ⟨rest, h⟩
    exact ⟨rest ++ path.drop n, (List.take_append_drop n path).symm.trans (by rw [h]; simp)⟩
  · rintro ⟨rest, rfl⟩
    refine ⟨rest.take (n - start.length - 1), ?_⟩
    rw [List.take_append, List.take_of_length_le hn.le,
      ← List.take_succ_cons, show n - start.length - 1 + 1 = n - start.length by omega]

/-- The names have no zero in them, and a descriptor has room for each and a character more. -/
theorem names_spec : ∀ start ∈ devFiles ++ servedRoots, 0 ∉ start ∧ start.length < 159 := by
  decide +kernel

/-- A descriptor's copy of the path is as good as the path. -/
theorem served_take (path : List UInt8) : Served (path.take 159) ↔ Served path := by
  have hlen := fun start hstart => (names_spec start hstart).2
  refine or_congr ?_ (exists_congr fun start => and_congr_right fun hstart =>
    under_take_iff (hlen start (List.mem_append_right _ hstart)))
  constructor
  · intro h
    exact (take_eq_iff (hlen _ (List.mem_append_left _ h))).1 rfl ▸ h
  · intro h
    rwa [(take_eq_iff (hlen _ (List.mem_append_left _ h))).2 rfl]

end Names

section Reading

variable {path : List UInt8}

theorem devtmpfsPread_isSome (hpath : 0 ∉ path) (dev : DevInput) (off : ℕ) {buf : CPtr}
    (hbuf : buf.null = false) (len : ℕ) :
    (devtmpfsPread true dev (cptr path) off buf len).isSome ↔ path ∈ devFiles := by
  have hstreq : ∀ file ∈ devFiles, streq (cptr path).bytes file = true ↔ path = file :=
    fun file hfile =>
      streq_iff (names_spec file (List.mem_append_left _ hfile)).1 (isString_cptr hpath)
  simp only [devFiles, List.forall_mem_cons] at hstreq
  obtain ⟨h₁, h₂, h₃, h₄, h₅, h₆, h₇, -⟩ := hstreq
  have hnull : (cptr path).null = false := rfl
  simp only [devtmpfsPread, hnull, hbuf, Bool.not_true, Bool.or_self, Bool.false_eq_true, if_false,
    h₁, h₂, h₃, h₄, h₅, h₆, h₇, devFiles, List.mem_cons, List.not_mem_nil, or_false]
  split_ifs <;> simp_all

/-- `vfs_pseudo_pread` succeeds for the names it knows and no others. -/
theorem vfsPseudoPread_isSome (hpath : 0 ∉ path) (hdmiStatus : List UInt8) (dev : DevInput)
    (off : ℕ) {buf : CPtr} (hbuf : buf.null = false) (len : ℕ) :
    (vfsPseudoPread true hdmiStatus dev (cptr path) off buf len).isSome ↔ Served path := by
  have hdev : pathHasPrefix (cptr path).bytes (ascii "/dev") = true ↔ Under (ascii "/dev") path :=
    pathHasPrefix_iff (names_spec _ (by simp [devFiles])).1 (isString_cptr hpath)
  have hserved : ∀ start ∈ servedRoots,
      pathHasPrefix (cptr path).bytes start = true ↔ Under start path :=
    fun start hstart =>
      pathHasPrefix_iff (names_spec start (List.mem_append_right _ hstart)).1 (isString_cptr hpath)
  have hnull : (cptr path).null = false := rfl
  unfold Served
  by_cases hunder : Under (ascii "/dev") path
  · have hnone : ¬ ∃ start ∈ servedRoots, Under start path :=
      fun ⟨start, hstart, h⟩ => not_under_dev hstart h hunder
    rw [or_iff_left hnone, ← devtmpfsPread_isSome hpath dev off hbuf len]
    simp [vfsPseudoPread, devtmpfsIsPath, hnull, hbuf, hdev.2 hunder]
  · have hnone : path ∉ devFiles := fun h => hunder (under_dev_of_mem h)
    have hfalse : pathHasPrefix (cptr path).bytes (ascii "/dev") = false :=
      Bool.eq_false_iff.2 fun h => hunder (hdev.1 h)
    rw [or_iff_right hnone]
    simp only [servedRoots, List.forall_mem_cons] at hserved
    obtain ⟨h₁, h₂, h₃, h₄, h₅, -⟩ := hserved
    simp only [vfsPseudoPread, devtmpfsIsPath, hnull, hbuf, hfalse, Bool.or_self, Bool.and_false,
      Bool.false_eq_true, if_false, h₁, h₂, h₃, h₄, h₅, servedRoots, List.mem_cons,
      List.not_mem_nil, or_false, exists_eq_or_imp, exists_eq_left]
    split_ifs <;> simp_all

/-- `SYS_READ` of a pseudo file fails if `vfs_pseudo_pread` does. -/
theorem sysRead_ret_ne {arg1 : UInt64} (arg2 arg3 : UInt64) {i : Fin fdMax}
    (hi : usedFd k arg1 = some i) (hpseudo : (k.fds i).isPseudo = true) :
    (sysRead env k arg1 arg2 arg3).1.ret ≠ .value (-1) ↔
      (vfsPseudoPread k.devMounted k.hdmiStatus.text env.dev (cptr (k.fds i).path) (k.fds i).off
        (env.ptr arg2) (arg3.toNat % 2 ^ 32)).isSome := by
  rw [sysRead_pseudo arg2 arg3 hi hpseudo]
  rcases vfsPseudoPread k.devMounted k.hdmiStatus.text env.dev (cptr (k.fds i).path) (k.fds i).off
    (env.ptr arg2) (arg3.toNat % 2 ^ 32) with _ | bytes
  · simp [fail]
  · have hlt : bytes.length % 2 ^ 32 < 2 ^ 32 := Nat.mod_lt _ (by decide)
    have hne : UInt64.ofNat (bytes.length % 2 ^ 32) ≠ -1 := by
      intro h
      have hnat := congrArg UInt64.toNat h
      rw [UInt64.toNat_ofNat_of_lt' (hlt.trans (by decide))] at hnat
      have hmax : (-1 : UInt64).toNat = 2 ^ 64 - 1 := by decide
      omega
    exact iff_of_true (fun h => hne (Ret.value.inj h)) rfl

/-- `SYS_OPEN` took a path for a pseudo file, and the descriptor has not been closed since: a
`SYS_READ` of it into a buffer succeeds exactly if the path is one `SYS_READ` knows. -/
theorem pseudo_read_iff_served (fuel : ℕ) {k k₁ k₂ : Kernel N} {env env₂ : CallEnv} {c c₂ : Call}
    {path stored printed : List UInt8} {i : Fin fdMax} (hdev : k.devMounted = true)
    (hnum : c.num = 2) (hpath : IsString (env.ptr c.arg1).bytes path)
    (hpseudo : vfsIsPseudoPath (env.ptr c.arg1) = true)
    (hopen : syscallHandler fuel env k c
      = some (⟨.value (UInt64.ofNat i.val), stored, printed⟩, k₁))
    (events : List KernelEvent) (hspare : ∀ e ∈ events, e.Spares i)
    (hafter : k₁.after fuel events = some k₂) (hnum₂ : c₂.num = 0)
    (harg : c₂.arg1 = UInt64.ofNat i.val) (hbuf : c₂.arg2 ≠ 0) :
    ∃ r k₃, syscallHandler fuel env₂ k₂ c₂ = some (r, k₃) ∧
      (r.ret ≠ .value (-1) ↔ Served path) := by
  rw [syscallHandler_open hnum] at hopen
  obtain rfl := sysOpen_pseudo hpseudo hopen
  have hfile := sameFile_after events hafter (by simp [setFd, openedFd]) hspare
  have hdev₂ : k₂.devMounted = true :=
    (congrArg (fun x => x.2.1) (fixed_after events hafter)).trans hdev
  have hstored : (k₂.fds i).path = path.take 159 := by
    rw [hfile.path]
    simp only [setFd, openedFd, Function.update_self, kstrcpy]
    exact cstr_bytesOf_isString path 159 hpath
  have hpseudo₂ : (k₂.fds i).isPseudo = true := by
    rw [hfile.isPseudo]
    simp [setFd]
  have hfd : c₂.arg1.toNat = i.val := by
    rw [harg]
    exact UInt64.toNat_ofNat_of_lt' (i.isLt.trans (by decide))
  have hused : usedFd { k₂ with lastErrno := 0 } c₂.arg1 = some i := usedFd_of_used hfd hfile.used
  have hzero : 0 ∉ path.take 159 := fun hmem => hpath.1 (List.mem_of_mem_take hmem)
  refine ⟨(sysRead env₂ { k₂ with lastErrno := 0 } c₂.arg1 c₂.arg2 c₂.arg3).1, _,
    syscallHandler_read hnum₂, ?_⟩
  rw [sysRead_ret_ne _ _ hused hpseudo₂]
  show (vfsPseudoPread k₂.devMounted k₂.hdmiStatus.text env₂.dev (cptr (k₂.fds i).path)
    (k₂.fds i).off (env₂.ptr c₂.arg2) (c₂.arg3.toNat % 2 ^ 32)).isSome ↔ _
  rw [hdev₂, hstored, vfsPseudoPread_isSome hzero _ _ _ (by simpa [CallEnv.ptr] using hbuf),
    served_take]

/-- The names of two pseudo files in memory. -/
def pseudoEnv : CallEnv :=
  { sampleEnv with
    mem := fun a =>
      if 0x700000 ≤ a then (ascii "/etc/passwd").getD (a - 0x700000) 0
      else if 0x600000 ≤ a then (ascii "/proc").getD (a - 0x600000) 0
      else 0 }

def pseudoOpen (name : UInt64) : Call := ⟨2, name, 0, 0, 0, 0, 0⟩

def pseudoRead : Call := ⟨0, 0, 0x400000, 16, 0, 0, 0⟩

theorem pseudo_read_passwd :
    ∃ k₁ r k₂, syscallHandler 0 pseudoEnv sampleKernel (pseudoOpen 0x700000)
        = some (⟨.value 0, [], []⟩, k₁) ∧
      syscallHandler 0 pseudoEnv k₁ pseudoRead = some (r, k₂) ∧ r.ret ≠ .value (-1) := by
  have heval : (syscallHandler 0 pseudoEnv sampleKernel (pseudoOpen 0x700000)).map Prod.fst
      = some ⟨.value 0, [], []⟩ := by decide +kernel
  obtain ⟨⟨r, k₁⟩, hopen, rfl⟩ := Option.map_eq_some_iff.1 heval
  have hpath : IsString (pseudoEnv.ptr 0x700000).bytes (ascii "/etc/passwd") := by decide +kernel
  have hpseudo : vfsIsPseudoPath (pseudoEnv.ptr 0x700000) = true := by decide +kernel
  have hiff : ∃ r k₂, syscallHandler 0 pseudoEnv k₁ pseudoRead = some (r, k₂) ∧
      (r.ret ≠ .value (-1) ↔ Served (ascii "/etc/passwd")) :=
    pseudo_read_iff_served 0 (c := pseudoOpen 0x700000) (i := ⟨0, by decide⟩) rfl rfl hpath hpseudo
      hopen [] (by simp) rfl rfl rfl (by decide)
  obtain ⟨r, k₂, hread, hret⟩ := hiff
  refine ⟨k₁, r, k₂, hopen, hread, hret.2 (Or.inr ⟨ascii "/etc/passwd", ?_, Or.inl rfl⟩)⟩
  simp [servedRoots]

/-- `/proc` opens, and reading it fails. -/
theorem pseudo_read_proc_fails :
    vfsIsPseudoPath (pseudoEnv.ptr 0x600000) = true ∧
      ((syscallHandler 0 pseudoEnv sampleKernel (pseudoOpen 0x600000)).map fun r =>
        (r.1.ret, (syscallHandler 0 pseudoEnv r.2 pseudoRead).map fun r => r.1.ret))
        = some (.value 0, some (.value (-1))) := by
  decide +kernel

end Reading

end PeanutKernel
