import PeanutKernel.Proofs.Block
import PeanutKernel.Proofs.Syscall
import PeanutKernel.SyscallMemory

/-!
# Who owns the buffers

A call of `SYS_READ` whose buffer lies over the descriptor table can leave anything there: zeroes
over a descriptor lose its buffer (`read_loses_buffer`). As long as the stores of every read miss
the table, each buffer has its descriptor (`buffers_owned`), and a read whose stores miss the
buffers too leaves the kernel as `sys_read` says (`sysReadAt_eq`).
-/

namespace PeanutKernel

variable {N : ℕ} {fuel : ℕ} {P : Placement} {k k' : Kernel N} {env : CallEnv} {mem : Buf}

section Stores

variable {dst n a : ℕ} {byte : Buf → Buf}

theorem storeLoop_succ : storeLoop dst (n + 1) byte mem =
    Function.update (storeLoop dst n byte mem) ((dst + n) % 2 ^ 64)
      (byte (storeLoop dst n byte mem) n) := by
  simp only [storeLoop, List.range_succ, List.foldl_append, List.foldl_cons, List.foldl_nil]

theorem storeLoop_apart : ∀ n, (∀ j < n, (dst + j) % 2 ^ 64 ≠ a) →
    storeLoop dst n byte mem a = mem a
  | 0, _ => rfl
  | n + 1, h => by
    rw [storeLoop_succ, Function.update_of_ne (h n n.lt_succ_self).symm,
      storeLoop_apart n fun j hj => h j (Nat.lt_succ_of_lt hj)]

/-- A table that is not stored into stays. -/
theorem stored_fds (h : ∀ j < n, ¬ P.InTable ((dst + j) % 2 ^ 64)) :
    (k.stored P mem dst n byte).fds = k.fds := by
  funext i
  simp only [Kernel.stored, Kernel.changed]
  refine if_pos fun j hj => storeLoop_apart n fun l hl heq => h l hl ?_
  have hi := i.isLt
  rw [heq, Placement.InTable, Placement.slot]
  unfold fdMax fdBytes at *
  omega

/-- The blocks change in their contents only. -/
theorem Owned.stored (h : Owned k.fds k.heap) :
    Owned k.fds (k.stored P mem dst n byte).heap := by
  have hblock : ∀ p, ∃ g : List UInt8 → List UInt8, (∀ data, (g data).length = data.length) ∧
      (k.stored P mem dst n byte).heap.block p = (k.heap.block p).map g := by
    refine fun p => ⟨_, fun data => ?_, rfl⟩
    split_ifs
    · rfl
    · exact length_bytesOf _ _
  have hnone : ∀ p, (k.stored P mem dst n byte).heap.block p = none ↔ k.heap.block p = none := by
    intro p
    obtain ⟨g, -, hg⟩ := hblock p
    rw [hg, Option.map_eq_none_iff]
  refine ⟨fun i p hp => ?_, fun p hp => h.holder p fun hp' => hp ((hnone p).2 hp'), h.inj,
    fun p hp => (hnone p).2 (h.new p hp), fun p hp => ?_, h.nodup⟩
  · obtain ⟨data, hdata, hsize, hoff⟩ := h.live i p hp
    obtain ⟨g, hlen, hg⟩ := hblock p
    exact ⟨g data, by rw [hg, hdata]; rfl, (hlen data).trans hsize, hoff⟩
  · exact ⟨(h.freed p hp).1, (hnone p).2 (h.freed p hp).2⟩

end Stores

section Read

variable {arg1 arg2 arg3 : UInt64}

/-- Stores that miss the table and the blocks do not concern the kernel. -/
theorem stored_eq {dst n : ℕ} {byte : Buf → Buf}
    (htable : ∀ j < n, ¬ P.InTable ((dst + j) % 2 ^ 64))
    (hblocks : ∀ p data, k.heap.block p = some data → ∀ l < data.length, ∀ j < n,
      (dst + j) % 2 ^ 64 ≠ P.block p + l) : k.stored P mem dst n byte = k := by
  have hblock : (k.stored P mem dst n byte).heap.block = k.heap.block := by
    funext p
    simp only [Kernel.stored, Kernel.changed]
    rcases hp : k.heap.block p with _ | data
    · rfl
    · rw [Option.map_some, if_pos]
      exact fun l hl => storeLoop_apart n (hblocks p data hp l hl)
  have hfds : (k.stored P mem dst n byte).fds = k.fds := stored_fds htable
  simp only [Kernel.stored, Kernel.changed] at hfds hblock ⊢
  rw [hfds, hblock]

/-- The kernel of `Syscall`, which only notes what a read stores, is the one the stores leave if
they miss its data. -/
theorem sysReadAt_eq (hsize : ∀ i, (k.fds i).size < 2 ^ 32)
    (htable : ∀ j < (sysRead env k arg1 arg2 arg3).1.stored.length,
      ¬ P.InTable ((arg2.toNat + j) % 2 ^ 64))
    (hblocks : ∀ p data, k.heap.block p = some data → ∀ l < data.length,
      ∀ j < (sysRead env k arg1 arg2 arg3).1.stored.length,
        (arg2.toNat + j) % 2 ^ 64 ≠ P.block p + l) :
    sysReadAt P env k arg1 arg2 arg3 = (⟨(sysRead env k arg1 arg2 arg3).1.ret, [], []⟩,
      (sysRead env k arg1 arg2 arg3).2) := by
  unfold sysRead at htable hblocks ⊢
  unfold sysReadAt
  rcases hi : usedFd k arg1 with _ | i
  · rfl
  · simp only [hi] at htable hblocks ⊢
    by_cases hp : (k.fds i).isPseudo = true
    · rw [if_pos hp] at htable hblocks ⊢
      rw [if_pos hp]
      rcases hread : vfsPseudoPread k.devMounted k.hdmiStatus.text env.dev (cptr (k.fds i).path)
        (k.fds i).off (env.ptr arg2) (arg3.toNat % 2 ^ 32) with _ | bytes
      · rfl
      · simp only [hread] at htable hblocks ⊢
        rw [stored_eq htable hblocks]
        rfl
    · rw [if_neg hp] at htable hblocks ⊢
      rw [if_neg hp]
      by_cases hoff : (k.fds i).size ≤ (k.fds i).off
      · rw [if_pos hoff, if_pos hoff]
        rfl
      · rw [if_neg hoff] at htable hblocks ⊢
        simp only [length_bytesOf] at htable hblocks
        have htake := takeOf_le (k.fds i) arg3
        have hlt := hsize i
        rw [if_neg hoff, stored_eq htable hblocks, advance, Nat.mod_eq_of_lt (by omega),
          Nat.mod_eq_of_lt (by omega)]
        rfl

/-- What a read whose stores miss the table does: it moves the offset of a descriptor, in a kernel
whose buffers may have changed. -/
theorem sysReadAt_cases
    (h : ∀ j < (sysRead env k arg1 arg2 arg3).1.stored.length,
      ¬ P.InTable ((arg2.toNat + j) % 2 ^ 64)) :
    ((sysReadAt P env k arg1 arg2 arg3).2.fds = k.fds ∧
      (sysReadAt P env k arg1 arg2 arg3).2.heap = k.heap) ∨
    ∃ i n byte off, (k.fds i).used = true ∧
      ((k.fds i).isPseudo = false → off ≤ (k.fds i).size) ∧
      (sysReadAt P env k arg1 arg2 arg3).2.fds =
        Function.update k.fds i { k.fds i with off := off } ∧
      (sysReadAt P env k arg1 arg2 arg3).2.heap
        = (k.stored P env.mem arg2.toNat n byte).heap := by
  unfold sysRead at h
  unfold sysReadAt
  rcases hi : usedFd k arg1 with _ | i
  · exact .inl ⟨rfl, rfl⟩
  · obtain ⟨-, hused⟩ := usedFd_some hi
    simp only [hi] at h ⊢
    rcases hp : (k.fds i).isPseudo with _ | _
    · simp only [hp, Bool.false_eq_true, if_false] at h ⊢
      by_cases hoff : (k.fds i).size ≤ (k.fds i).off
      · exact .inl (by rw [if_pos hoff]; exact ⟨rfl, rfl⟩)
      · rw [if_neg hoff] at h ⊢
        rw [length_bytesOf] at h
        refine .inr ⟨i, takeOf (k.fds i) arg3, dataAt (P.slot i),
          ((k.fds i).off + takeOf (k.fds i) arg3) % 2 ^ 32, hused,
          fun _ => (Nat.mod_le _ _).trans ?_, ?_, rfl⟩
        · have := takeOf_le (k.fds i) arg3
          omega
        · simp only [advance, done, setFd, stored_fds h]
    · simp only [hp, if_true] at h ⊢
      rcases hread : vfsPseudoPread k.devMounted k.hdmiStatus.text env.dev (cptr (k.fds i).path)
        (k.fds i).off (env.ptr arg2) (arg3.toNat % 2 ^ 32) with _ | bytes
      · exact .inl ⟨rfl, rfl⟩
      · simp only [hread] at h ⊢
        refine .inr ⟨i, bytes.length, fun _ j => bytes.getD j 0,
          ((k.fds i).off + bytes.length) % 2 ^ 32, hused, by simp [hp], ?_, rfl⟩
        simp only [advance, done, setFd, stored_fds h]

end Read

section Runs

theorem Owned.eventAt {e : KernelEvent} (h : Owned k.fds k.heap) (hmiss : k.MissesTable P e)
    (hstep : k.stepAt fuel P e = some k') : Owned k'.fds k'.heap := by
  cases e with
  | device m => exact Owned.event (e := .device m) h (show k.step fuel _ = some k' from hstep)
  | call env c =>
    simp only [Kernel.stepAt] at hstep
    split_ifs at hstep with hnum
    · obtain rfl := Option.some.inj hstep
      obtain ⟨hfds, hheap⟩ | ⟨i, n, byte, off, -, hoff, hfds, hheap⟩ := sysReadAt_cases (hmiss hnum)
      · rw [hfds, hheap]
        exact h
      · rw [hfds, hheap]
        exact (Owned.stored (k := { k with lastErrno := 0 }) h).adjust rfl rfl rfl rfl hoff
    · exact h.event hstep

theorem Backed.eventAt {e : KernelEvent} (h : Backed k.fds) (hk : e.KallocWorks)
    (hmiss : k.MissesTable P e) (hstep : k.stepAt fuel P e = some k') : Backed k'.fds := by
  cases e with
  | device m => exact Backed.event (e := .device m) h hk (show k.step fuel _ = some k' from hstep)
  | call env c =>
    simp only [Kernel.stepAt] at hstep
    split_ifs at hstep with hnum
    · obtain rfl := Option.some.inj hstep
      obtain ⟨hfds, -⟩ | ⟨i, n, byte, off, -, -, hfds, -⟩ := sysReadAt_cases (hmiss hnum)
      · rw [hfds]
        exact h
      · rw [hfds]
        exact h.update (h i)
    · exact h.event hk hstep

theorem owned_backed_afterAt : ∀ (events : List KernelEvent) {k k' : Kernel N},
    Owned k.fds k.heap → Backed k.fds → (∀ e ∈ events, e.KallocWorks) →
    k.ReadsApart fuel P events → k.afterAt fuel P events = some k' →
    Owned k'.fds k'.heap ∧ Backed k'.fds
  | [], k, k', howned, hbacked, _, _, hafter => by
    obtain rfl : k = k' := by simpa [Kernel.afterAt] using hafter
    exact ⟨howned, hbacked⟩
  | e :: events, k, k', howned, hbacked, hk, hapart, hafter => by
    simp only [Kernel.afterAt, List.foldlM_cons, Option.bind_eq_bind] at hafter
    obtain ⟨k₁, hk₁, hrest⟩ := Option.bind_eq_some_iff.1 hafter
    exact owned_backed_afterAt events (howned.eventAt hapart.1 hk₁)
      (hbacked.eventAt (hk e (by simp)) hapart.1 hk₁) (fun e he => hk e (by simp [he]))
      (hapart.2 k₁ hk₁) hrest

/-- Whatever is called from the empty descriptor table on, and wherever it fails, as long as no read
stores into the table: the buffers not yet given back are those of the open files and sockets, one
each; none is given back twice; and each is as long as its descriptor says, with the offset inside,
so a transfer stays in it. -/
theorem buffers_owned (fuel : ℕ) (P : Placement) {k₀ k : Kernel N} (hfresh : k₀.Fresh)
    (events : List KernelEvent) (hk : ∀ e ∈ events, e.KallocWorks)
    (hapart : k₀.ReadsApart fuel P events) (h : k₀.afterAt fuel P events = some k) :
    (∀ p, k.heap.block p ≠ none → ∃! i, (k.fds i).Holds p) ∧
      (∀ i, (k.fds i).used = true → (k.fds i).isPseudo = false →
        ∃! p, (k.fds i).Holds p ∧ k.heap.block p ≠ none) ∧
      k.heap.freed.Nodup ∧ (∀ p ∈ k.heap.freed, k.heap.block p = none) ∧
      ∀ i p, (k.fds i).Holds p → ∃ data, k.heap.block p = some data ∧
        data.length = (k.fds i).size ∧ (k.fds i).off ≤ (k.fds i).size ∧
        ∀ count, (k.fds i).off + takeOf (k.fds i) count ≤ data.length := by
  obtain ⟨howned, hbacked⟩ := owned_backed_afterAt events (owned_fresh hfresh)
    (fun i hi => by simp [hfresh.1, zeroFd] at hi) hk hapart h
  refine ⟨fun p hp => ?_, fun i hused hpseudo => ?_, howned.nodup,
    fun p hp => (howned.freed p hp).2,
    fun i p hp => ?_⟩
  · obtain ⟨i, hi⟩ := howned.holder p hp
    exact ⟨i, hi, fun j hj => howned.inj j i p hj hi⟩
  · obtain ⟨p, hp⟩ := Option.ne_none_iff_exists'.1 (hbacked i hused hpseudo)
    obtain ⟨data, hblock, -⟩ := howned.live i p ⟨hused, hpseudo, hp⟩
    refine ⟨p, ⟨⟨hused, hpseudo, hp⟩, by simp [hblock]⟩, fun q hq => ?_⟩
    simpa [hp] using hq.1.2.2.symm
  · obtain ⟨data, hblock, hsize, hoff⟩ := howned.live i p hp
    refine ⟨data, hblock, hsize, hoff, fun count => ?_⟩
    have := takeOf_le (k.fds i) count
    omega

end Runs

section Samples

/-- `fds` in the kernel image, and the first block at 3 MiB. -/
def samplePlacement : Placement := ⟨0x150000, Equiv.swap 0 0x300000⟩

/-- A path in memory. -/
def zeroEnv : CallEnv :=
  { sampleEnv with mem := fun a => (ascii "/dev/zero").getD (a - 0x400000) 0 }

/-- A socket is opened, and `/dev/zero`, of which `n` bytes are read to an address. -/
def zeroReads (a : UInt64) (n : UInt64) : List KernelEvent :=
  [.call zeroEnv socketCall, .call zeroEnv ⟨2, 0x400000, 0, 0, 0, 0, 0⟩,
    .call zeroEnv ⟨0, 1, a, n, 0, 0, 0⟩]

theorem buffers_owned_zeroReads :
    ∃ k, sampleKernel.afterAt 0 samplePlacement (zeroReads 0x500000 4) = some k ∧
      k.heap.block 0 ≠ none ∧ ∃! i, (k.fds i).Holds 0 := by
  obtain ⟨k, hk⟩ : ∃ k, sampleKernel.afterAt 0 samplePlacement (zeroReads 0x500000 4) = some k :=
    ⟨_, rfl⟩
  have hblock : k.heap.block 0 ≠ none := by
    obtain rfl := Option.some.inj hk
    decide +kernel
  refine ⟨k, hk, hblock, (buffers_owned 0 samplePlacement ⟨rfl, rfl⟩ _ ?_ ?_ hk).1 0 hblock⟩
  · simp [zeroReads, KernelEvent.KallocWorks, zeroEnv, sampleEnv]
  · refine ⟨fun h => absurd h (by decide), fun k₁ hk₁ => ⟨fun h => absurd h (by decide),
      fun k₂ hk₂ => ⟨fun _ => ?_, fun _ _ => trivial⟩⟩⟩
    obtain rfl := Option.some.inj hk₁
    obtain rfl := Option.some.inj hk₂
    decide +kernel

/-- Zeroes read over `used` of the socket's descriptor: its buffer is not given back, and no
descriptor has it. -/
theorem read_loses_buffer :
    ∃ k, sampleKernel.afterAt 0 samplePlacement (zeroReads 0x150000 4) = some k ∧
      k.heap.block 0 ≠ none ∧ ∀ i, ¬ (k.fds i).Holds 0 := by
  refine ⟨_, rfl, ?_, ?_⟩
  · decide +kernel
  · unfold Fd.Holds
    decide +kernel

end Samples

end PeanutKernel
