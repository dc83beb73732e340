import PeanutKernel.SchedOps
import PeanutKernel.Proofs.Sched

/-!
# The two policies are fair

Round-robin looks at the slots in the order of their distance from the slot after the current one
(`rrDist`). A tick names the nearest runnable slot, and every slot beyond it comes nearer by at
least one, so a runnable slot is reached within `PROC_MAX` ticks; while the runnable slots stay the
same, the number of them nearer than a given one (`rrRank`) goes down by exactly one each tick.

CFS charges the current process, which holds the least `vruntime`, and then names a slot with the
least `vruntime`; so all runnable processes stay on one level or the next above it (`Level`).
-/

namespace PeanutKernel

variable {N : ℕ} {s : Sched N}

section RoundRobin

variable {i : Fin N}

theorem rrDist_inj {start : ℕ} (hs : start ≤ N) {j : Fin N} (h : rrDist start i = rrDist start j) :
    i = j := by
  have := i.isLt
  have := j.isLt
  unfold rrDist at h
  apply Fin.ext
  split_ifs at h <;> omega

/-- Once the slot at distance `rrDist start j` is current, the slots beyond it are that much and
one more nearer. -/
theorem rrDist_next {start : ℕ} (hs : start ≤ N) {j : Fin N} (h : rrDist start j < rrDist start i) :
    rrDist (j.val + 1) i = rrDist start i - rrDist start j - 1 := by
  have := i.isLt
  have := j.isLt
  unfold rrDist at h ⊢
  split_ifs at h ⊢ <;> omega

theorem rrDist_self (j : Fin N) : rrDist (j.val + 1) j = N - 1 := by
  unfold rrDist
  split_ifs <;> omega

theorem rrDist_next_lt {j : Fin N} (h : i ≠ j) : rrDist (j.val + 1) i < N - 1 := by
  have hlt : rrDist (j.val + 1) i < N := rrDist_lt i
  have hne : rrDist (j.val + 1) i ≠ rrDist (j.val + 1) j := fun heq => h (rrDist_inj j.isLt heq)
  rw [rrDist_self] at hne
  omega

theorem rrDist_rrIndex (n : Fin N) : rrDist (rrStart s) (rrIndex s n) = n.val := by
  have hs := rrStart_le s
  have hn := n.isLt
  have hmod : (rrStart s + n.val) % N
      = if rrStart s + n.val < N then rrStart s + n.val else rrStart s + n.val - N := by
    split_ifs with h
    · exact Nat.mod_eq_of_lt h
    · rw [Nat.mod_eq_sub_mod (not_lt.1 h), Nat.mod_eq_of_lt (by omega)]
  unfold rrDist rrIndex
  simp only [hmod]
  split_ifs <;> omega

/-- Round-robin names the nearest runnable slot. -/
theorem chooseRr_le {j : Fin N} (hj : chooseRr s = some j) (hi : (s.procs i).state = .runnable) :
    rrDist (rrStart s) j ≤ rrDist (rrStart s) i := by
  obtain ⟨n, hn, hchoose⟩ := chooseRr_of_runnable (rrDist_lt i) (add_rrDist i) hi
  obtain rfl : rrIndex s n = j := by simpa [hj] using hchoose.symm
  rw [rrDist_rrIndex]
  exact hn

variable {op : SchedOp}

theorem keepsStates_of_tick (pol : SchedPolicy) (htick : ArmedUserTick s op) :
    KeepsStates pol s op := by
  cases op with
  | tick sp => exact irqTimerDispatch_state pol sp
  | create | fork | kill | arm | disarm | getpid => exact htick.elim

/-- What an armed tick from user mode does under round-robin when there is something to run. -/
theorem rr_tick (htick : ArmedUserTick s op) (hi : (s.procs i).state = .runnable) :
    ∃ j, s.resumed .rr op = some j ∧ (s.apply .rr op).currentProc = some j ∧
      (s.procs j).state = .runnable ∧
      ∀ l, (s.procs l).state = .runnable → rrDist (rrStart s) j ≤ rrDist (rrStart s) l := by
  cases op with
  | tick sp =>
    obtain ⟨harm, huser⟩ := htick
    have hstate : ∀ l, ((saveCurrent (countJiffy s) sp).procs l).state = (s.procs l).state :=
      saveCurrent_state (s := countJiffy s) sp
    have hstart : rrStart (saveCurrent (countJiffy s) sp) = rrStart s := by
      simp [rrStart, countJiffy]
    obtain ⟨j, hj⟩ := chooseNext_of_runnable .rr ((hstate i).trans hi)
    have hdisp := irqTimerDispatch_user .rr harm huser
    simp only [hj] at hdisp
    refine ⟨j, ?_, ?_, ?_, fun l hl => ?_⟩
    · simp [Sched.resumed, hdisp]
    · simp [Sched.apply, hdisp]
    · exact (hstate j).symm.trans (chooseNext_some hj)
    · rw [← hstart]
      exact chooseRr_le hj ((hstate l).trans hl)
  | create | fork | kill | arm | disarm | getpid => exact htick.elim

/-- Nothing but such a tick, or a kill of the current process, changes which one is current. -/
theorem currentProc_apply (hspare : SparesCurrent s op) (htick : ¬ ArmedUserTick s op) {c : Fin N}
    (hc : s.currentProc = some c) : (s.apply .rr op).currentProc = some c := by
  cases op with
  | create entry userRsp =>
    simp only [Sched.apply, schedCreateUser]
    rcases allocProc s with _ | slot <;> simp [hc]
  | fork rip rsp flags =>
    simp only [Sched.apply]
    obtain hs | ⟨slot, p, -, -, hs⟩ := schedForkCurrent_eq (s := s) rip rsp flags
    · rw [hs, hc]
    · rw [hs]
      exact hc
  | kill pid signal =>
    simp only [Sched.apply]
    obtain hs | ⟨i, -, hpid, hs⟩ := schedKill_eq (s := s) pid signal
    · rw [hs, hc]
    · have hne : s.currentProc ≠ some i := fun hi => hspare i hi hpid
      rw [hs, ← hc]
      exact if_neg hne
  | tick sp => rw [Sched.apply, irqTimerDispatch_of_not .rr htick]; exact hc
  | arm | disarm | getpid => exact hc

theorem resumed_of_not_tick {pol : SchedPolicy} (htick : ¬ ArmedUserTick s op) :
    s.resumed pol op = none := by
  cases op with
  | tick sp => rw [Sched.resumed, irqTimerDispatch_of_not pol htick]
  | create | fork | kill | arm | disarm | getpid => rfl

/-- Something is current as soon as something is runnable. -/
def HasCurrent (s : Sched N) : Prop :=
  ∀ i, (s.procs i).state = .runnable → s.currentProc ≠ none

theorem runnable_apply_of_none (hcur : s.currentProc = none)
    (hnone : (s.apply .rr op).currentProc = none)
    (hi : ((s.apply .rr op).procs i).state = .runnable) : (s.procs i).state = .runnable := by
  cases op with
  | create entry userRsp =>
    simp only [Sched.apply, schedCreateUser] at hi hnone
    rcases hslot : allocProc s with _ | slot
    · simpa [hslot] using hi
    · simp [hslot, hcur] at hnone
  | fork rip rsp flags => simpa [Sched.apply, schedForkCurrent, hcur] using hi
  | kill pid signal =>
    simp only [Sched.apply] at hi
    obtain hs | ⟨j, hrun, -, hs⟩ := schedKill_eq (s := s) pid signal
    · rwa [hs] at hi
    · by_cases hij : i = j
      · rwa [hij]
      · simpa [hs, hij] using hi
  | tick sp =>
    rw [← irqTimerDispatch_state .rr sp i]
    exact hi
  | arm | disarm | getpid => exact hi

theorem hasCurrent_apply (h : HasCurrent s) (hspare : SparesCurrent s op) :
    HasCurrent (s.apply .rr op) := by
  intro i hi hnone
  rcases hcur : s.currentProc with _ | c
  · exact h i (runnable_apply_of_none hcur hnone hi) hcur
  · by_cases htick : ArmedUserTick s op
    · have hrun : (s.procs i).state = .runnable := by
        rwa [keepsStates_of_tick .rr htick i] at hi
      obtain ⟨j, -, hj, -⟩ := rr_tick htick hrun
      simp [hnone] at hj
    · have := currentProc_apply hspare htick hcur
      simp [hnone] at this

theorem hasCurrent_after (jiffies : ℕ) {ops : List SchedOp}
    (h : Runs.Along (Sched.apply .rr) SparesCurrent (schedInit jiffies : Sched N) ops) :
    HasCurrent (Sched.after .rr jiffies ops : Sched N) :=
  Runs.inv_of_along (I := HasCurrent) (fun _ _ => hasCurrent_apply) ops
    (fun i hi => by simp [schedInit] at hi) h

theorem rrStart_of_current {c : Fin N} (hc : s.currentProc = some c) : rrStart s = c.val + 1 := by
  simp [rrStart, hc]

/-- A slot that stays runnable is dispatched within one more tick than its distance. -/
theorem mem_dispatched {i : Fin N} :
    ∀ (window : List SchedOp) {s : Sched N}, HasCurrent s →
      Runs.Along (Sched.apply .rr) SparesCurrent s window →
      Runs.Along (Sched.apply .rr) (fun s _ => (s.procs i).state = .runnable) s window →
      rrDist (rrStart s) i < s.armedTicks .rr window → i ∈ s.dispatched .rr window
  | [], _, _, _, _, hticks => absurd hticks (Nat.not_lt_zero _)
  | op :: window, s, hcurrent, hspare, hstay, hticks => by
    have hnext := hasCurrent_apply hcurrent hspare.1
    simp only [Sched.dispatched, Sched.armedTicks] at hticks ⊢
    by_cases htick : ArmedUserTick s op
    · obtain ⟨j, hres, hcur, -, hle⟩ := rr_tick htick hstay.1
      by_cases hij : i = j
      · simp [hres, hij]
      · have hlt : rrDist (rrStart s) j < rrDist (rrStart s) i := by
          refine lt_of_le_of_ne (hle i hstay.1) fun heq => hij ?_
          exact (rrDist_inj (rrStart_le s) heq).symm
        refine List.mem_append_right _ (mem_dispatched window hnext hspare.2 hstay.2 ?_)
        rw [rrStart_of_current hcur, rrDist_next (rrStart_le s) hlt]
        simp only [htick, if_true] at hticks
        omega
    · obtain ⟨c, hc⟩ := Option.ne_none_iff_exists'.1 (hcurrent i hstay.1)
      have hcur := currentProc_apply hspare.1 htick hc
      refine List.mem_append_right _ (mem_dispatched window hnext hspare.2 hstay.2 ?_)
      rw [rrStart_of_current hcur, ← rrStart_of_current hc]
      simpa [htick] using hticks

/-- The number of runnable slots nearer than slot `i`. -/
def rrRank (s : Sched N) (i : Fin N) : ℕ :=
  (Finset.univ.filter fun j => (s.procs j).state = .runnable ∧
    rrDist (rrStart s) j < rrDist (rrStart s) i).card

theorem rrRank_congr {s' : Sched N} (hstate : ∀ i, (s'.procs i).state = (s.procs i).state)
    (hcur : s'.currentProc = s.currentProc) (i : Fin N) : rrRank s' i = rrRank s i := by
  have hstart : rrStart s' = rrStart s := by
    unfold rrStart
    rw [hcur]
  simp [rrRank, hstate, hstart]

theorem rrRank_lt (hi : (s.procs i).state = .runnable) : rrRank s i < schedRunnableCount s := by
  refine Finset.card_lt_card ⟨fun j hj => ?_, fun hsub => ?_⟩
  · simp only [Finset.mem_filter] at hj ⊢
    exact ⟨hj.1, hj.2.1⟩
  · have := hsub (Finset.mem_filter.2 ⟨Finset.mem_univ i, hi⟩)
    simp at this

theorem rrRank_nearest {j : Fin N}
    (hle : ∀ l, (s.procs l).state = .runnable → rrDist (rrStart s) j ≤ rrDist (rrStart s) l) :
    rrRank s j = 0 := by
  refine Finset.card_eq_zero.2 (Finset.filter_eq_empty_iff.2 fun l _ h => ?_)
  exact absurd (hle l h.1) (not_le.2 h.2)

variable {s' : Sched N} {j : Fin N}

section

variable (hstate : ∀ i, (s'.procs i).state = (s.procs i).state) (hcur : s'.currentProc = some j)
  (hj : (s.procs j).state = .runnable)

include hstate hcur hj

/-- Once dispatched, a slot is the last of the runnable ones. -/
theorem rrRank_dispatched : rrRank s' j = schedRunnableCount s - 1 := by
  have heq : (Finset.univ.filter fun l => (s'.procs l).state = .runnable ∧
      rrDist (rrStart s') l < rrDist (rrStart s') j)
      = (Finset.univ.filter fun l => (s.procs l).state = .runnable).erase j := by
    ext l
    simp only [Finset.mem_filter, Finset.mem_univ, true_and, Finset.mem_erase, hstate,
      rrStart_of_current hcur, rrDist_self]
    constructor
    · rintro ⟨hl, hlt⟩
      refine ⟨fun hlj => ?_, hl⟩
      rw [hlj, rrDist_self] at hlt
      exact lt_irrefl _ hlt
    · rintro ⟨hne, hl⟩
      exact ⟨hl, rrDist_next_lt hne⟩
  unfold rrRank schedRunnableCount
  rw [heq, Finset.card_erase_of_mem (by simp [hj])]

/-- The others move up by one. -/
theorem rrRank_moves_up
    (hle : ∀ l, (s.procs l).state = .runnable → rrDist (rrStart s) j ≤ rrDist (rrStart s) l)
    (hi : (s.procs i).state = .runnable) (hij : i ≠ j) : rrRank s' i + 1 = rrRank s i := by
  have hlt : ∀ l, (s.procs l).state = .runnable → l ≠ j →
      rrDist (rrStart s) j < rrDist (rrStart s) l := fun l hl hne =>
    lt_of_le_of_ne (hle l hl) fun heq => hne (rrDist_inj (rrStart_le s) heq).symm
  have hdist : ∀ l, (s.procs l).state = .runnable → l ≠ j →
      rrDist (rrStart s') l = rrDist (rrStart s) l - rrDist (rrStart s) j - 1 := fun l hl hne => by
    rw [rrStart_of_current hcur]
    exact rrDist_next (rrStart_le s) (hlt l hl hne)
  have heq : (Finset.univ.filter fun l => (s'.procs l).state = .runnable ∧
      rrDist (rrStart s') l < rrDist (rrStart s') i)
      = (Finset.univ.filter fun l => (s.procs l).state = .runnable ∧
          rrDist (rrStart s) l < rrDist (rrStart s) i).erase j := by
    ext l
    simp only [Finset.mem_filter, Finset.mem_univ, true_and, Finset.mem_erase, hstate]
    by_cases hlj : l = j
    · subst hlj
      have hlast := rrDist_next_lt hij
      simp only [rrStart_of_current hcur, rrDist_self, ne_eq, not_true, false_and, iff_false,
        not_and]
      omega
    · refine ⟨fun ⟨hl, hd⟩ => ⟨hlj, hl, ?_⟩, fun ⟨_, hl, hd⟩ => ⟨hl, ?_⟩⟩
      · rw [hdist l hl hlj, hdist i hi hij] at hd
        omega
      · have := hlt l hl hlj
        rw [hdist l hl hlj, hdist i hi hij]
        omega
  unfold rrRank
  rw [heq]
  exact Finset.card_erase_add_one (by simp [hj, hlt i hi hij])

end

theorem schedRunnableCount_congr (hstate : ∀ i, (s'.procs i).state = (s.procs i).state) :
    schedRunnableCount s' = schedRunnableCount s := by
  simp [schedRunnableCount, hstate]

/-- While the runnable slots stay the same, slot `i` is dispatched when those nearer have been, and
then not again until all the others have been. -/
theorem count_dispatched {i : Fin N} :
    ∀ (window : List SchedOp) {s : Sched N}, HasCurrent s → (s.procs i).state = .runnable →
      Runs.Along (Sched.apply .rr) SparesCurrent s window →
      Runs.Along (Sched.apply .rr) (KeepsStates .rr) s window →
      (s.armedTicks .rr window ≤ rrRank s i → (s.dispatched .rr window).count i = 0) ∧
      (rrRank s i < s.armedTicks .rr window →
        s.armedTicks .rr window ≤ rrRank s i + schedRunnableCount s →
        (s.dispatched .rr window).count i = 1)
  | [], s, _, _, _, _ => ⟨fun _ => rfl, fun h => absurd h (Nat.not_lt_zero _)⟩
  | op :: window, s, hcurrent, hi, hspare, hkeep => by
    have hrun : ((s.apply .rr op).procs i).state = .runnable := (hkeep.1 i).trans hi
    obtain ⟨hzero, hone⟩ := count_dispatched window (hasCurrent_apply hcurrent hspare.1) hrun
      hspare.2 hkeep.2
    have hcount := schedRunnableCount_congr hkeep.1
    simp only [Sched.dispatched, Sched.armedTicks, List.count_append]
    by_cases htick : ArmedUserTick s op
    · obtain ⟨j, hres, hcur, hj, hle⟩ := rr_tick htick hi
      simp only [htick, if_true, hres, Option.toList_some]
      by_cases hij : i = j
      · subst hij
        have hnear := rrRank_nearest hle
        have hlast := rrRank_dispatched hkeep.1 hcur hi
        refine ⟨fun h => by omega, fun _ h => ?_⟩
        rw [hzero (by omega)]
        simp
      · have hup := rrRank_moves_up hkeep.1 hcur hj hle hi hij
        have hnot : [j].count i = 0 := List.count_eq_zero.2 (by simpa using hij)
        rw [hnot]
        refine ⟨fun h => ?_, fun h h' => ?_⟩
        · rw [hzero (by omega)]
        · rw [hone (by omega) (by omega)]
    · obtain ⟨c, hc⟩ := Option.ne_none_iff_exists'.1 (hcurrent i hi)
      have hcur := currentProc_apply hspare.1 htick hc
      have hrank := rrRank_congr hkeep.1 (hcur.trans hc.symm) i
      simp only [htick, if_false, resumed_of_not_tick htick, Option.toList_none, List.count_nil,
        zero_add]
      rw [hrank] at hzero hone
      rw [hcount] at hone
      exact ⟨hzero, hone⟩

/-- Round-robin is fair. In a run that never kills the current process, a slot that stays runnable
is dispatched among any `PROC_MAX` armed ticks from user mode; and while none is created or killed,
as many ticks as there are runnable slots dispatch each of them once. -/
theorem rr_fair (jiffies : ℕ) (ops window : List SchedOp)
    (hspare : Runs.Along (Sched.apply .rr) SparesCurrent (schedInit jiffies : Sched N)
      (ops ++ window)) :
    let s : Sched N := Sched.after .rr jiffies ops
    (∀ i, Runs.Along (Sched.apply .rr) (fun s _ => (s.procs i).state = .runnable) s window →
      N ≤ s.armedTicks .rr window → i ∈ s.dispatched .rr window) ∧
    (Runs.Along (Sched.apply .rr) (KeepsStates .rr) s window →
      s.armedTicks .rr window = schedRunnableCount s →
      ∀ i, (s.procs i).state = .runnable → (s.dispatched .rr window).count i = 1) := by
  intro s
  obtain ⟨hops, hwindow⟩ := (Runs.along_append ops).1 hspare
  have hcurrent : HasCurrent s := hasCurrent_after jiffies hops
  refine ⟨fun i hstay hticks => ?_, fun hkeep hticks i hi => ?_⟩
  · exact mem_dispatched window hcurrent hwindow hstay (lt_of_lt_of_le (rrDist_lt i) hticks)
  · refine (count_dispatched window hcurrent hi hwindow hkeep).2 ?_ ?_
    · rw [hticks]
      exact rrRank_lt hi
    · omega

theorem rr_fair_two :
    let s : Sched 2 := Sched.after .rr 0 [.create 0x400000 0x7000, .arm, .fork 0x400010 0x6000 0]
    let window := List.replicate 2 (SchedOp.tick (userFrame 0x400010 0x202 0x7000))
    1 ∈ s.dispatched .rr window ∧ (s.dispatched .rr window).count 1 = 1 := by
  have h := rr_fair (N := 2) 0 [.create 0x400000 0x7000, .arm, .fork 0x400010 0x6000 0]
    (List.replicate 2 (.tick (userFrame 0x400010 0x202 0x7000))) (by decide)
  exact ⟨h.1 1 (by decide) (by decide), h.2 (by decide) (by decide) 1 (by decide)⟩

end RoundRobin

section Cfs

/-- All runnable processes are on level `m` or the next, the current one on level `m`, and none is
above `t`, the number of ticks so far. -/
structure Level (s : Sched N) (m t : ℕ) : Prop where
  ge : ∀ i, (s.procs i).state = .runnable → m ≤ (s.procs i).vruntime
  le : ∀ i, (s.procs i).state = .runnable → (s.procs i).vruntime ≤ m + 1
  bound : ∀ i, (s.procs i).state = .runnable → (s.procs i).vruntime ≤ t
  current : ∀ c, s.currentProc = some c →
    (s.procs c).state = .runnable ∧ (s.procs c).vruntime = m

variable {m t : ℕ}

theorem level_create (jiffies : ℕ) (entry userRsp : UInt64) :
    Level (schedCreateUser (schedInit jiffies : Sched N) entry userRsp).2 0 0 := by
  have hinit : ∀ i, ((schedInit jiffies : Sched N).procs i).state ≠ .runnable := by
    simp [schedInit]
  simp only [schedCreateUser]
  rcases allocProc (schedInit jiffies : Sched N) with _ | slot
  · exact ⟨fun i hi => absurd hi (hinit i), fun i hi => absurd hi (hinit i),
      fun i hi => absurd hi (hinit i), fun c hc => by simp [schedInit] at hc⟩
  · have hzero : ∀ i, (Function.update (schedInit jiffies : Sched N).procs slot
        ⟨.runnable, (schedInit jiffies : Sched N).nextPid, 0, 0, userFrame entry 0x202 userRsp⟩
          i).vruntime = 0 := by
      intro i
      by_cases hi : i = slot <;> simp [hi, schedInit]
    refine ⟨fun i _ => Nat.zero_le _, fun i _ => (hzero i).le.trans (Nat.zero_le _),
      fun i _ => (hzero i).le, fun c hc => ⟨?_, hzero c⟩⟩
    obtain rfl : slot = c := by simpa [schedInit] using hc
    simp

section

variable (h : Level s m t)

include h

theorem Level.fork (rip rsp flags : UInt64) : Level (schedForkCurrent s rip rsp flags).2 m t := by
  unfold schedForkCurrent
  rcases hcur : s.currentProc with _ | c
  · exact h
  · obtain ⟨hrun, hlevel⟩ := h.current c hcur
    simp only [hrun, ne_eq, not_true, if_false]
    rcases hslot : allocProc s with _ | slot
    · exact h
    · have hbound := h.bound c hrun
      have hne : c ≠ slot := by
        rintro rfl
        rw [allocProc_unused hslot] at hrun
        cases hrun
      refine ⟨fun i hi => ?_, fun i hi => ?_, fun i hi => ?_, fun d hd => ?_⟩
      · by_cases his : i = slot
        · simp [his, hlevel]
        · simp only [Function.update_of_ne his] at hi ⊢
          exact h.ge i hi
      · by_cases his : i = slot
        · simp [his, hlevel]
        · simp only [Function.update_of_ne his] at hi ⊢
          exact h.le i hi
      · by_cases his : i = slot
        · simpa [his] using hbound
        · simp only [Function.update_of_ne his] at hi ⊢
          exact h.bound i hi
      · obtain rfl : c = d := by simpa [hcur] using hd
        simpa [hne] using ⟨hrun, hlevel⟩

/-- Fewer runnable processes at the same `vruntime`s, and the current one as before or none. -/
theorem Level.mono {s' : Sched N}
    (hrun : ∀ i, (s'.procs i).state = .runnable → (s.procs i).state = .runnable)
    (hv : ∀ i, (s'.procs i).vruntime = (s.procs i).vruntime) (hcur : ∀ c, s'.currentProc =
      some c → s.currentProc = some c ∧ (s'.procs c).state = (s.procs c).state) : Level s' m t where
  ge i hi := (hv i).symm ▸ h.ge i (hrun i hi)
  le i hi := (hv i).symm ▸ h.le i (hrun i hi)
  bound i hi := (hv i).symm ▸ h.bound i (hrun i hi)
  current c hc := by
    obtain ⟨hcs, hstate⟩ := hcur c hc
    rw [hstate, hv]
    exact h.current c hcs

theorem Level.kill (pid signal : ℤ) : Level (schedKill s pid signal).2 m t := by
  obtain hs | ⟨i, hrun, -, hs⟩ := schedKill_eq (s := s) pid signal
  · rw [hs]
    exact h
  · rw [hs]
    refine h.mono (fun j hj => ?_) (fun j => ?_) fun c hc => ?_
    · by_cases hji : j = i
      · rwa [hji]
      · simpa [hji] using hj
    · by_cases hji : j = i
      · subst hji
        simp
      · simp [hji]
    · simp only at hc
      split_ifs at hc with hcur
      have hci : c ≠ i := fun heq => hcur (heq ▸ hc)
      exact ⟨hc, by simp [hci]⟩

/-- The charge: the current process goes from level `m` to the next. -/
theorem Level.charge (ht : t + 1 < 2 ^ 64) (sp : Frame) {i : Fin N}
    (hi : (s.procs i).state = .runnable) :
    m ≤ ((saveCurrent s sp).procs i).vruntime ∧ ((saveCurrent s sp).procs i).vruntime ≤ m + 1 ∧
      ((saveCurrent s sp).procs i).vruntime ≤ t + 1 := by
  have hge := h.ge i hi
  have hle := h.le i hi
  have hbound := h.bound i hi
  obtain ⟨hs, -⟩ | ⟨c, hc, -, hs⟩ := saveCurrent_eq (s := s) sp
  · rw [hs]
    omega
  · rw [hs]
    by_cases hic : i = c
    · subst hic
      have hlevel := (h.current i hc).2
      simp only [Function.update_self]
      rw [Nat.mod_eq_of_lt (by omega)]
      omega
    · simp only [Function.update_of_ne hic]
      omega

theorem Level.tick (ht : t + 1 < 2 ^ 64) {sp : Frame} (harm : s.userPreemptArmed = true)
    (huser : fromUser sp) : ∃ m', Level (irqTimerDispatch .cfs s sp).1 m' (t + 1) := by
  have hjiffy : Level (countJiffy s) m t := ⟨h.ge, h.le, h.bound, h.current⟩
  have hstate := saveCurrent_state (s := countJiffy s) sp
  have hcurrent := saveCurrent_currentProc (s := countJiffy s) sp
  have hcharge := fun i hi => hjiffy.charge ht sp (i := i) hi
  rw [irqTimerDispatch_user .cfs harm huser]
  generalize saveCurrent (countJiffy s) sp = u at hstate hcurrent hcharge ⊢
  have hrun : ∀ i, (u.procs i).state = .runnable → ((countJiffy s).procs i).state = .runnable :=
    fun i hi => (hstate i).symm.trans hi
  rcases hnext : chooseNext .cfs u with _ | b
  · have hno : ∀ i, (u.procs i).state ≠ .runnable := fun i hi => by
      obtain ⟨b, hb⟩ := chooseNext_of_runnable .cfs hi
      rw [hb] at hnext
      cases hnext
    refine ⟨m, fun i hi => absurd hi (hno i), fun i hi => absurd hi (hno i),
      fun i hi => absurd hi (hno i), fun c hc => ?_⟩
    exact absurd ((hstate c).trans (hjiffy.current c (hcurrent ▸ hc)).1) (hno c)
  · have hb := chooseNext_some hnext
    have hleast : ∀ i, (u.procs i).state = .runnable →
        (u.procs b).vruntime ≤ (u.procs i).vruntime := fun i hi => by
      obtain ⟨b', hb', hle⟩ := chooseCfs_of_runnable hi
      obtain rfl : b' = b := by simpa [chooseNext, hb'] using hnext
      exact hle
    refine ⟨(u.procs b).vruntime, fun i hi => hleast i hi, fun i hi => ?_,
      fun i hi => (hcharge i (hrun i hi)).2.2, fun c hc => ?_⟩
    · have hi := hcharge i (hrun i hi)
      have hb := hcharge b (hrun b hb)
      show (u.procs i).vruntime ≤ (u.procs b).vruntime + 1
      omega
    · obtain rfl : b = c := by simpa using hc
      exact ⟨hb, rfl⟩

theorem Level.apply {op : SchedOp} (hop : op.isCreate = false)
    (ht : t + (if ArmedUserTick s op then 1 else 0) < 2 ^ 64) :
    ∃ m', Level (s.apply .cfs op) m' (t + if ArmedUserTick s op then 1 else 0) := by
  cases op with
  | create => cases hop
  | fork rip rsp flags => exact ⟨m, h.fork rip rsp flags⟩
  | kill pid signal => exact ⟨m, h.kill pid signal⟩
  | tick sp =>
    by_cases htick : ArmedUserTick s (.tick sp)
    · simp only [htick, if_true] at ht ⊢
      exact h.tick ht htick.1 htick.2
    · simp only [htick, if_false, Sched.apply, irqTimerDispatch_of_not .cfs htick]
      exact ⟨m, h.mono (fun _ hi => hi) (fun _ => rfl) fun c hc => ⟨hc, rfl⟩⟩
  | arm | disarm | getpid =>
    exact ⟨m, h.mono (fun _ hi => hi) (fun _ => rfl) fun c hc => ⟨hc, rfl⟩⟩

end

theorem level_foldl :
    ∀ (ops : List SchedOp) {s : Sched N} {m t : ℕ}, Level s m t →
      (∀ op ∈ ops, op.isCreate = false) → t + s.armedTicks .cfs ops < 2 ^ 64 →
      ∃ m' t', Level (ops.foldl (Sched.apply .cfs) s) m' t'
  | [], _, m, t, h, _, _ => ⟨m, t, h⟩
  | op :: ops, s, m, t, h, hops, ht => by
    simp only [Sched.armedTicks, ← Nat.add_assoc] at ht
    obtain ⟨m', h'⟩ := h.apply (hops op (by simp)) (lt_of_le_of_lt (Nat.le_add_right _ _) ht)
    exact level_foldl ops h' (fun o ho => hops o (by simp [ho])) ht

/-- CFS is fair. From one `sched_create_user` on, whatever is forked, killed and interrupted, the
`vruntime`s of two runnable processes differ by at most one. -/
theorem cfs_fair (jiffies : ℕ) (entry userRsp : UInt64) (ops : List SchedOp)
    (hops : ∀ op ∈ ops, op.isCreate = false) :
    let s₀ : Sched N := (schedCreateUser (schedInit jiffies) entry userRsp).2
    let s : Sched N := ops.foldl (Sched.apply .cfs) s₀
    s₀.armedTicks .cfs ops < 2 ^ 64 → ∀ i j, (s.procs i).state = .runnable →
      (s.procs j).state = .runnable → (s.procs i).vruntime ≤ (s.procs j).vruntime + 1 := by
  intro s₀ s hticks i j hi hj
  obtain ⟨m, t, h⟩ := level_foldl ops (level_create jiffies entry userRsp) hops
    (by simpa using hticks)
  have hle : (s.procs i).vruntime ≤ m + 1 := h.le i hi
  have hge : m ≤ (s.procs j).vruntime := h.ge j hj
  omega

theorem cfs_fair_two :
    let s₀ : Sched 2 := (schedCreateUser (schedInit 0) 0x400000 0x7000).2
    let s := [SchedOp.arm, .fork 0x400010 0x6000 0,
      .tick (userFrame 0x400010 0x202 0x7000)].foldl (Sched.apply .cfs) s₀
    (s.procs 0).vruntime ≤ (s.procs 1).vruntime + 1 :=
  cfs_fair (N := 2) 0 0x400000 0x7000
    [.arm, .fork 0x400010 0x6000 0, .tick (userFrame 0x400010 0x202 0x7000)] (by decide)
    (by decide) 0 1 (by decide) (by decide)

end Cfs

end PeanutKernel
