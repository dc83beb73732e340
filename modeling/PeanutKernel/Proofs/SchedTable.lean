import Mathlib.Data.Fintype.Fin
import PeanutKernel.SchedOps
import PeanutKernel.Proofs.Sched

/-!
# How the process table fills up

A slot once taken is never given back, so `alloc_proc` takes the slots in order: after `n`
processes have been created the first `n` slots are in use, slot `i` by pid `i + 1`, and the next
pid is `n + 1` (`Filled`). Every operation keeps this (`filled_apply`). It is the invariant of the
table (`process_table`), and it is also why a table fills up with processes that are dead
(`fork_succeeds_iff`).
-/

namespace PeanutKernel

variable {N : ℕ} {s : Sched N} {n : ℕ}

/-- The table after `n` processes have been created. -/
structure Filled (s : Sched N) (n : ℕ) : Prop where
  le : n ≤ N
  used : ∀ i, (s.procs i).state ≠ .unused ↔ i.val < n
  pid : ∀ i, i.val < n → (s.procs i).pid = i.val + 1
  nextPid : s.nextPid = n + 1
  current : ∀ c, s.currentProc = some c → (s.procs c).state = .runnable

section Operations

theorem filled_init (jiffies : ℕ) : Filled (schedInit jiffies : Sched N) 0 where
  le := Nat.zero_le N
  used i := by simp [schedInit]
  pid i hi := absurd hi (Nat.not_lt_zero _)
  nextPid := rfl
  current c hc := by simp [schedInit] at hc

section

variable (h : Filled s n)

include h

theorem Filled.allocProc_lt (hn : n < N) : allocProc s = some ⟨n, hn⟩ := by
  refine Fin.find?_eq_some_iff.2 ⟨?_, fun j hj => ?_⟩
  · have : ¬ (s.procs ⟨n, hn⟩).state ≠ .unused := fun hu => lt_irrefl n ((h.used _).1 hu)
    simpa using this
  · simpa using (h.used j).2 (Fin.lt_def.1 hj)

theorem Filled.allocProc_eq (hn : n = N) : allocProc s = none := by
  refine Fin.find?_eq_none_iff.2 fun i => ?_
  have : (s.procs i).state ≠ .unused := (h.used i).2 (hn ▸ i.isLt)
  simpa using this

/-- Taking the next slot for a process with the next pid. -/
theorem Filled.take (hn : n < N) {p : Process} {current : Option (Fin N)}
    (hstate : p.state = .runnable) (hpid : p.pid = s.nextPid)
    (hcurrent : ∀ c, current = some c → c = ⟨n, hn⟩ ∨ s.currentProc = some c) :
    Filled { s with
      procs := Function.update s.procs ⟨n, hn⟩ p
      nextPid := s.nextPid + 1
      currentProc := current } (n + 1) := by
  have hne : ∀ i : Fin N, i.val ≠ n → i ≠ ⟨n, hn⟩ := fun i hi heq => hi (congrArg Fin.val heq)
  refine ⟨hn, fun i => ?_, fun i hi => ?_, ?_, fun c hc => ?_⟩
  · by_cases hi : i.val = n
    · obtain rfl : i = ⟨n, hn⟩ := Fin.ext hi
      simp [hstate]
    · simp only [Function.update_of_ne (hne i hi), h.used i]
      omega
  · by_cases hin : i.val = n
    · obtain rfl : i = ⟨n, hn⟩ := Fin.ext hin
      simp [hpid, h.nextPid]
    · simp only [Function.update_of_ne (hne i hin)]
      exact h.pid i (by omega)
  · simp [h.nextPid]
  · rcases hcurrent c hc with rfl | hcur
    · simp [hstate]
    · have hrun := h.current c hcur
      have hc : c.val ≠ n := fun heq =>
        absurd ((h.used c).1 (by simp [hrun])) (by omega)
      simpa [hne c hc] using hrun

theorem filled_create (entry userRsp : UInt64) :
    ∃ n', n ≤ n' ∧ Filled (schedCreateUser s entry userRsp).2 n' := by
  rcases Nat.lt_or_eq_of_le h.le with hn | hn
  · refine ⟨n + 1, Nat.le_succ n, ?_⟩
    simp only [schedCreateUser, h.allocProc_lt hn]
    refine h.take hn rfl rfl fun c hc => ?_
    rcases hcur : s.currentProc with _ | d <;> rw [hcur] at hc
    · exact .inl (by simpa using hc.symm)
    · exact .inr hc
  · refine ⟨n, le_rfl, ?_⟩
    simp only [schedCreateUser, h.allocProc_eq hn]
    exact h

theorem filled_fork (rip rsp flags : UInt64) :
    ∃ n', n ≤ n' ∧ Filled (schedForkCurrent s rip rsp flags).2 n' := by
  rcases hcur : s.currentProc with _ | c
  · exact ⟨n, le_rfl, by simpa only [schedForkCurrent, hcur] using h⟩
  · have hrun : ¬ (s.procs c).state ≠ .runnable := not_not.2 (h.current c hcur)
    rcases Nat.lt_or_eq_of_le h.le with hn | hn
    · refine ⟨n + 1, Nat.le_succ n, ?_⟩
      simp only [schedForkCurrent, hcur, if_neg hrun, h.allocProc_lt hn]
      exact h.take hn rfl rfl fun d hd => .inr (hcur.trans hd)
    · refine ⟨n, le_rfl, ?_⟩
      simp only [schedForkCurrent, hcur, if_neg hrun, h.allocProc_eq hn]
      exact h

/-- Changing slots in use, but not their pids, and naming a runnable slot or none. -/
theorem Filled.change {s' : Sched N}
    (hstate : ∀ i, (s'.procs i).state = .unused ↔ (s.procs i).state = .unused)
    (hpid : ∀ i, (s'.procs i).pid = (s.procs i).pid) (hnext : s'.nextPid = s.nextPid)
    (hcurrent : ∀ c, s'.currentProc = some c → (s'.procs c).state = .runnable) : Filled s' n where
  le := h.le
  used i := (not_congr (hstate i)).trans (h.used i)
  pid i hi := (hpid i).trans (h.pid i hi)
  nextPid := hnext.trans h.nextPid
  current := hcurrent

theorem filled_kill (pid signal : ℤ) : Filled (schedKill s pid signal).2 n := by
  obtain hs | ⟨i, hrun, -, hs⟩ := schedKill_eq (s := s) pid signal
  · rw [hs]
    exact h
  · rw [hs]
    refine h.change (fun j => ?_) (fun j => ?_) rfl fun c hc => ?_
    · by_cases hj : j = i
      · subst hj
        simp only [Function.update_self]
        split_ifs <;> simp [hrun]
      · simp only [Function.update_of_ne hj]
    · by_cases hj : j = i
      · subst hj
        simp only [Function.update_self]
      · simp only [Function.update_of_ne hj]
    · simp only at hc
      split_ifs at hc with hcur
      have hci : c ≠ i := fun heq => hcur (heq ▸ hc)
      simp only [Function.update_of_ne hci]
      exact h.current c hc

end

theorem filled_tick (pol : SchedPolicy) (h : Filled s n) (sp : Frame) :
    Filled (irqTimerDispatch pol s sp).1 n := by
  by_cases htick : s.userPreemptArmed = true ∧ fromUser sp
  · rw [irqTimerDispatch_user pol htick.1 htick.2]
    have hstate : ∀ i, ((saveCurrent (countJiffy s) sp).procs i).state = (s.procs i).state :=
      saveCurrent_state (s := countJiffy s) sp
    have hpid : ∀ i, ((saveCurrent (countJiffy s) sp).procs i).pid = (s.procs i).pid :=
      saveCurrent_pid (s := countJiffy s) sp
    have hnext : (saveCurrent (countJiffy s) sp).nextPid = s.nextPid :=
      saveCurrent_nextPid (s := countJiffy s) sp
    split
    · refine h.change (fun i => by rw [hstate]) hpid hnext fun c hc => ?_
      rw [hstate]
      exact h.current c (by simpa [countJiffy] using hc)
    · rename_i next hchoose
      refine h.change (fun i => by simp only [hstate]) hpid hnext fun c hc => ?_
      obtain rfl : next = c := by simpa using hc
      have hrun := chooseNext_some hchoose
      exact hrun
  · rw [irqTimerDispatch_of_not pol htick]
    exact h.change (fun _ => Iff.rfl) (fun _ => rfl) rfl h.current

/-- Every operation keeps the table filled from the front. -/
theorem filled_apply (pol : SchedPolicy) (h : Filled s n) (op : SchedOp) :
    ∃ n', n ≤ n' ∧ Filled (s.apply pol op) n' := by
  cases op with
  | create entry userRsp => exact filled_create h entry userRsp
  | fork rip rsp flags => exact filled_fork h rip rsp flags
  | kill pid signal => exact ⟨n, le_rfl, filled_kill h pid signal⟩
  | tick sp => exact ⟨n, le_rfl, filled_tick pol h sp⟩
  | arm => exact ⟨n, le_rfl, h.change (fun _ => Iff.rfl) (fun _ => rfl) rfl h.current⟩
  | disarm => exact ⟨n, le_rfl, h.change (fun _ => Iff.rfl) (fun _ => rfl) rfl h.current⟩
  | getpid => exact ⟨n, le_rfl, h⟩

theorem filled_foldl (pol : SchedPolicy) :
    ∀ (ops : List SchedOp) {s : Sched N} {n : ℕ}, Filled s n →
    ∃ n', n ≤ n' ∧ Filled (ops.foldl (Sched.apply pol) s) n'
  | [], _, n, h => ⟨n, le_rfl, h⟩
  | op :: ops, _, _, h => by
    obtain ⟨n₁, hle, h₁⟩ := filled_apply pol h op
    obtain ⟨n₂, hle', h₂⟩ := filled_foldl pol ops h₁
    exact ⟨n₂, hle.trans hle', h₂⟩

theorem filled_after (pol : SchedPolicy) (jiffies : ℕ) (ops : List SchedOp) :
    ∃ n, Filled (Sched.after pol jiffies ops : Sched N) n := by
  obtain ⟨n, -, h⟩ := filled_foldl pol ops (filled_init (N := N) jiffies)
  exact ⟨n, h⟩

end Operations

section Table

theorem Filled.used_card (h : Filled s n) :
    (Finset.univ.filter fun i => (s.procs i).state ≠ .unused).card = n := by
  have heq : (Finset.univ.filter fun i => (s.procs i).state ≠ .unused)
      = Finset.univ.filter fun i : Fin N => i.val < n := by
    ext i
    simp only [Finset.mem_filter, Finset.mem_univ, true_and]
    exact h.used i
  rw [heq, Fin.card_filter_val_lt, min_eq_right h.le]

theorem reported_lt_nextPid (pol : SchedPolicy) (h : Filled s n) (op : SchedOp) :
    s.reported op < (s.apply pol op).nextPid := by
  have hnext := h.nextPid
  have hmono : s.nextPid ≤ (s.apply pol op).nextPid := by
    obtain ⟨n', hle, h'⟩ := filled_apply pol h op
    rw [h.nextPid, h'.nextPid]
    omega
  cases op with
  | create entry userRsp =>
    simp only [Sched.reported, Sched.apply, schedCreateUser] at hmono ⊢
    rcases hslot : allocProc s with _ | slot <;> simp only [hslot] at hmono ⊢
    · omega
    · omega
  | fork rip rsp flags =>
    simp only [Sched.reported, Sched.apply, schedForkCurrent] at hmono ⊢
    rcases hcur : s.currentProc with _ | c
    · simp only
      omega
    · simp only [if_neg (not_not.2 (h.current c hcur))]
      rcases hslot : allocProc s with _ | slot <;> simp only
      · omega
      · omega
  | getpid =>
    simp only [Sched.reported, Sched.apply, schedCurrentPid]
    rcases hcur : s.currentProc with _ | c
    · simp only
      omega
    · have hrun := h.current c hcur
      have hc : c.val < n := (h.used c).1 (by simp [hrun])
      simp only [if_neg (not_not.2 hrun), h.pid c hc]
      omega
  | kill | tick | arm | disarm =>
    simp only [Sched.reported]
    omega

/-- What a kill changes the state of: a runnable slot that holds the pid. -/
theorem schedKill_changes {pid signal : ℤ} {i : Fin N}
    (hi : ((schedKill s pid signal).2.procs i).state ≠ (s.procs i).state) :
    (s.procs i).state = .runnable ∧ (s.procs i).pid = pid := by
  obtain hs | ⟨j, hrun, hpid, hs⟩ := schedKill_eq (s := s) pid signal
  · rw [hs] at hi
    exact absurd rfl hi
  · by_cases hij : i = j
    · subst hij
      exact ⟨hrun, hpid⟩
    · simp [hs, hij] at hi

theorem Filled.pid_inj (h : Filled s n) {i j : Fin N} (hi : (s.procs i).state ≠ .unused)
    (hj : (s.procs j).state ≠ .unused) (heq : (s.procs i).pid = (s.procs j).pid) : i = j := by
  rw [h.pid i ((h.used i).1 hi), h.pid j ((h.used j).1 hj)] at heq
  exact Fin.ext (by omega)

/-- The invariant of the process table, in every state a run from `sched_init` reaches, and what it
means for `sched_kill`: one process at most, and one that was there when the pid was reported. -/
theorem process_table (pol : SchedPolicy) (jiffies : ℕ) (ops : List SchedOp) :
    let s : Sched N := Sched.after pol jiffies ops
    (∀ i j, i ≤ j → (s.procs j).state ≠ .unused → (s.procs i).state ≠ .unused) ∧
      (∀ i j, (s.procs i).state ≠ .unused → (s.procs j).state ≠ .unused →
        (s.procs i).pid = (s.procs j).pid → i = j) ∧
      (∀ i, (s.procs i).state ≠ .unused → 1 ≤ (s.procs i).pid ∧ (s.procs i).pid < s.nextPid) ∧
      s.nextPid = (Finset.univ.filter fun i => (s.procs i).state ≠ .unused).card + 1 ∧
      (∀ c, s.currentProc = some c → (s.procs c).state = .runnable) ∧
      (∀ (pid signal : ℤ) i j, ((schedKill s pid signal).2.procs i).state ≠ (s.procs i).state →
        ((schedKill s pid signal).2.procs j).state ≠ (s.procs j).state → i = j) ∧
      ∀ (op : SchedOp) (later : List SchedOp) (signal : ℤ) (i : Fin N),
        let s₁ := s.apply pol op
        let s₂ := later.foldl (Sched.apply pol) s₁
        ((schedKill s₂ (s.reported op) signal).2.procs i).state ≠ (s₂.procs i).state →
          (s₁.procs i).state ≠ .unused ∧ (s₁.procs i).pid = s.reported op := by
  obtain ⟨n, h⟩ := filled_after (N := N) pol jiffies ops
  refine ⟨fun i j hij hj => ?_, fun i j => h.pid_inj, fun i hi => ?_, ?_, h.current,
    fun pid signal i j hi hj => ?_, fun op later signal i => ?_⟩
  · exact (h.used i).2 (lt_of_le_of_lt (Fin.le_def.1 hij) ((h.used j).1 hj))
  · have hlt := (h.used i).1 hi
    rw [h.pid i hlt, h.nextPid]
    omega
  · rw [h.used_card, h.nextPid]
  · obtain ⟨hi, hpi⟩ := schedKill_changes hi
    obtain ⟨hj, hpj⟩ := schedKill_changes hj
    exact h.pid_inj (by simp [hi]) (by simp [hj]) (hpi.trans hpj.symm)
  · intro s₁ s₂ hchange
    obtain ⟨hrun, hpid⟩ := schedKill_changes hchange
    obtain ⟨n₁, -, h₁⟩ := filled_apply pol h op
    obtain ⟨n₂, -, h₂⟩ := filled_foldl pol later h₁
    have hused : (s₂.procs i).state ≠ .unused := by simp [hrun]
    have hpid₂ := h₂.pid i ((h₂.used i).1 hused)
    have hlt := reported_lt_nextPid pol h op
    rw [h₁.nextPid] at hlt
    have hi : i.val < n₁ := by
      have : (s₂.procs i).pid = i.val + 1 := hpid₂
      omega
    refine ⟨(h₁.used i).2 hi, ?_⟩
    rw [h₁.pid i hi, ← hpid]
    exact hpid₂.symm

end Table

section Exhausted

/-- An armed tick from user mode leaves the processor to a runnable process exactly when there is
one; otherwise it goes back to the process it interrupted, whatever became of that. -/
theorem tick_resumes_runnable_iff (pol : SchedPolicy) (s : Sched N) (sp : Frame)
    (harmed : s.userPreemptArmed = true) (huser : fromUser sp) :
    ResumesRunnable pol s sp ↔ ∃ i, (s.procs i).state = .runnable := by
  have hstate : ∀ i, ((saveCurrent (countJiffy s) sp).procs i).state = (s.procs i).state :=
    saveCurrent_state (s := countJiffy s) sp
  unfold ResumesRunnable
  rw [irqTimerDispatch_user pol harmed huser]
  constructor
  · rintro ⟨i, hi, hrun⟩
    rcases hnext : chooseNext pol (saveCurrent (countJiffy s) sp) with _ | next
    · simp [hnext] at hi
    · refine ⟨next, ?_⟩
      rw [← hstate]
      exact chooseNext_some hnext
  · rintro ⟨i, hi⟩
    obtain ⟨next, hnext⟩ := chooseNext_of_runnable pol ((hstate i).trans hi)
    simp only [hnext]
    exact ⟨next, rfl, chooseNext_some hnext⟩

theorem tick_resumes_runnable_iff_boot :
    let s : Sched 2 := Sched.after .rr 0 [.create 0x400000 0x7000, .arm]
    ResumesRunnable .rr s (userFrame 0x400010 0x202 0x7000) :=
  (tick_resumes_runnable_iff .rr _ (userFrame 0x400010 0x202 0x7000) rfl (by decide)).2
    ⟨0, by decide⟩

/-- The only process kills itself and goes on: the tick hands back the frame it interrupted. -/
theorem killed_process_resumed :
    let s : Sched 2 := Sched.after .rr 0 [.create 0x400000 0x7000, .arm, .kill 1 sigkill]
    let sp := userFrame 0x400010 0x202 0x7000
    s.userPreemptArmed = true ∧ fromUser sp ∧ (s.procs 0).state = .zombie ∧
      (irqTimerDispatch .rr s sp).2 = none ∧ ¬ ResumesRunnable .rr s sp := by
  decide

/-- With a runnable current process and fewer than `PROC_MAX` runnable ones, a fork succeeds
exactly when a slot was never used: the slot of a process that died is not given out again. -/
theorem fork_succeeds_iff (pol : SchedPolicy) (jiffies : ℕ) (ops : List SchedOp)
    (rip rsp flags : UInt64) {c : Fin N} :
    let s : Sched N := Sched.after pol jiffies ops
    s.currentProc = some c → (s.procs c).state = .runnable → schedRunnableCount s < N →
      (ForkSucceeds s rip rsp flags ↔ ∃ i, (s.procs i).state = .unused) := by
  intro s hcur hrun _
  obtain ⟨n, h⟩ : ∃ n, Filled s n := filled_after pol jiffies ops
  constructor
  · rintro ⟨-, i, hi, -⟩
    exact ⟨i, hi⟩
  · rintro ⟨i, hi⟩
    have hn : n < N := by
      have : ¬ i.val < n := fun hlt => (h.used i).2 hlt hi
      have := i.isLt
      omega
    have hslot := h.allocProc_lt hn
    unfold ForkSucceeds
    simp only [schedForkCurrent, hcur, if_neg (not_not.2 hrun), hslot]
    refine ⟨fun j hj => ?_, ⟨n, hn⟩, allocProc_unused hslot, by simp⟩
    have hlt := (h.used j).1 hj
    rw [h.pid j hlt, h.nextPid]
    omega

theorem fork_succeeds_iff_second :
    let s : Sched 2 := Sched.after .rr 0 [.create 0x400000 0x7000]
    ForkSucceeds s 0x400010 0x6000 0 ↔ ∃ i, (s.procs i).state = .unused :=
  fork_succeeds_iff .rr 0 [.create 0x400000 0x7000] 0x400010 0x6000 0 (c := 0) rfl (by decide)
    (by decide)

/-- A child that died still holds its slot: one process is runnable of two, and the fork fails. -/
theorem fork_fails_beside_zombie :
    let s : Sched 2 := Sched.after .rr 0
      [.create 0x400000 0x7000, .fork 0x400010 0x6000 0, .kill 2 sigkill]
    s.currentProc = some 0 ∧ (s.procs 0).state = .runnable ∧ schedRunnableCount s < 2 ∧
      (schedForkCurrent s 0x400010 0x6000 0).1 = -1 ∧ ¬ ForkSucceeds s 0x400010 0x6000 0 := by
  decide

end Exhausted

end PeanutKernel
