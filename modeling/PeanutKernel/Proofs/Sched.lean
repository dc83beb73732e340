import PeanutKernel.Sched

/-!
# What the scheduler's searches find

`alloc_proc` finds an unused slot, `sched_kill` a runnable one with the pid it looks for, and either
policy a runnable slot if there is one. What a tick does to the table is saving the interrupted
frame into the current slot, if that is runnable, and naming the slot it resumes.
-/

namespace PeanutKernel

variable {N : ℕ} {s : Sched N}

theorem allocProc_unused {slot : Fin N} (h : allocProc s = some slot) :
    (s.procs slot).state = .unused := by
  have := (Fin.find?_eq_some_iff.1 h).1
  simpa using this

theorem killTarget_some {pid : ℤ} {i : Fin N} (h : killTarget s pid = some i) :
    (s.procs i).state = .runnable ∧ (s.procs i).pid = pid := by
  have := (Fin.find?_eq_some_iff.1 h).1
  simpa using this

/-- A fork fills an unused slot with a runnable process, or fails and changes nothing. -/
theorem schedForkCurrent_eq (rip rsp flags : UInt64) :
    (schedForkCurrent s rip rsp flags).2 = s ∨
      ∃ (slot : Fin N) (p : Process), (s.procs slot).state = .unused ∧ p.state = .runnable ∧
        (schedForkCurrent s rip rsp flags).2
          = { s with procs := Function.update s.procs slot p, nextPid := s.nextPid + 1 } := by
  unfold schedForkCurrent
  split
  · exact .inl rfl
  · split
    · exact .inl rfl
    · split
      · exact .inl rfl
      · rename_i slot hslot
        exact .inr ⟨slot, _, allocProc_unused hslot, rfl, rfl⟩

/-- `sched_kill` acts on one runnable slot with the pid, or fails and changes nothing. -/
theorem schedKill_eq (pid signal : ℤ) :
    (schedKill s pid signal).2 = s ∨
      ∃ i, (s.procs i).state = .runnable ∧ (s.procs i).pid = pid ∧
        (schedKill s pid signal).2 = { s with
          procs := Function.update s.procs i
            { s.procs i with
              signal := signal
              state := if Fatal signal then .zombie else (s.procs i).state }
          currentProc := if s.currentProc = some i then none else s.currentProc } := by
  unfold schedKill
  split
  · exact .inl rfl
  · rename_i i hi
    obtain ⟨hr, hp⟩ := killTarget_some hi
    exact .inr ⟨i, hr, hp, rfl⟩

section Choose

variable {i : Fin N}

theorem chooseRr_some (h : chooseRr s = some i) : (s.procs i).state = .runnable := by
  obtain ⟨n, hn, rfl⟩ := Option.map_eq_some_iff.1 h
  have := (Fin.find?_eq_some_iff.1 hn).1
  simpa using this

theorem cfsBest_some {best : Option (Fin N)} {b : Fin N} (h : cfsBest s best i = some b) :
    (b = i ∧ (s.procs i).state = .runnable) ∨ best = some b := by
  unfold cfsBest at h
  split_ifs at h with hi
  · exact .inr h
  · have hi : (s.procs i).state = .runnable := by simpa using hi
    split at h
    · exact .inl ⟨by simpa using h.symm, hi⟩
    · split_ifs at h
      · exact .inl ⟨by simpa using h.symm, hi⟩
      · exact .inr h

theorem foldl_cfsBest_some :
    ∀ (l : List (Fin N)) {best : Option (Fin N)} {b : Fin N}, l.foldl (cfsBest s) best = some b →
      (s.procs b).state = .runnable ∨ best = some b
  | [], best, b, h => .inr h
  | i :: l, best, b, h => by
    rcases foldl_cfsBest_some l h with hb | hb
    · exact .inl hb
    · rcases cfsBest_some hb with ⟨rfl, hi⟩ | hbest
      · exact .inl hi
      · exact .inr hbest

theorem chooseCfs_some (h : chooseCfs s = some i) : (s.procs i).state = .runnable := by
  rcases foldl_cfsBest_some _ h with hi | hi
  · exact hi
  · simp at hi

theorem chooseNext_some {pol : SchedPolicy} (h : chooseNext pol s = some i) :
    (s.procs i).state = .runnable := by
  cases pol
  · exact chooseRr_some h
  · exact chooseCfs_some h

theorem rrIndex_eq {n target : Fin N} {d : ℕ} (ht : target.val = (rrStart s + d) % N)
    (hn : n.val = d) : rrIndex s n = target := by
  apply Fin.ext
  rw [ht, ← hn]
  rfl

/-- Round-robin picks a slot at most as far from its start as a runnable one. -/
theorem chooseRr_of_runnable {target : Fin N} {d : ℕ} (hd : d < N)
    (ht : target.val = (rrStart s + d) % N) (hr : (s.procs target).state = .runnable) :
    ∃ n : Fin N, n.val ≤ d ∧ chooseRr s = some (rrIndex s n) := by
  have hdt : rrIndex s ⟨d, hd⟩ = target := rrIndex_eq ht rfl
  rcases hf : Fin.find? fun n => decide ((s.procs (rrIndex s n)).state = .runnable) with _ | n
  · have := Fin.find?_eq_none_iff.1 hf ⟨d, hd⟩
    simp [hdt, hr] at this
  · refine ⟨n, ?_, by simp [chooseRr, hf]⟩
    by_contra hlt
    have := (Fin.find?_eq_some_iff.1 hf).2 ⟨d, hd⟩ (by simpa [Fin.lt_def] using hlt)
    simp [hdt, hr] at this

theorem cfsBest_le {best : Option (Fin N)} {j : Fin N}
    (h : (i = j ∧ (s.procs i).state = .runnable) ∨ ∃ b, best = some b ∧ (s.procs b).vruntime
      ≤ (s.procs j).vruntime) :
    ∃ b, cfsBest s best i = some b ∧ (s.procs b).vruntime ≤ (s.procs j).vruntime := by
  unfold cfsBest
  rcases h with ⟨rfl, hi⟩ | ⟨b, rfl, hb⟩
  · rcases best with _ | b
    · simp [hi]
    · by_cases hlt : (s.procs i).vruntime < (s.procs b).vruntime
      · simp [hi, hlt]
      · simp only [hi, ne_eq, not_true, if_false, hlt]
        exact ⟨b, rfl, not_lt.1 hlt⟩
  · split_ifs with hi
    · exact ⟨b, rfl, hb⟩
    · simp only
      split_ifs with hlt
      · exact ⟨i, rfl, hlt.le.trans hb⟩
      · exact ⟨b, rfl, hb⟩

theorem foldl_cfsBest_le {j : Fin N} (hj : (s.procs j).state = .runnable) :
    ∀ (l : List (Fin N)) {best : Option (Fin N)},
      (j ∈ l ∨ ∃ b, best = some b ∧ (s.procs b).vruntime ≤ (s.procs j).vruntime) →
      ∃ b, l.foldl (cfsBest s) best = some b ∧ (s.procs b).vruntime ≤ (s.procs j).vruntime
  | [], _, h => by simpa using h
  | i :: l, best, h => by
    refine foldl_cfsBest_le hj l ?_
    rcases h with hmem | hb
    · rcases List.mem_cons.1 hmem with rfl | hmem
      · exact .inr (cfsBest_le (.inl ⟨rfl, hj⟩))
      · exact .inl hmem
    · exact .inr (cfsBest_le (.inr hb))

/-- CFS picks a slot with a least `vruntime` among the runnable ones. -/
theorem chooseCfs_of_runnable {j : Fin N} (hj : (s.procs j).state = .runnable) :
    ∃ b, chooseCfs s = some b ∧ (s.procs b).vruntime ≤ (s.procs j).vruntime :=
  foldl_cfsBest_le hj _ (.inl (List.mem_finRange j))

/-- How far round-robin has to look from `start` to reach slot `i`. -/
def rrDist (start : ℕ) (i : Fin N) : ℕ :=
  if start ≤ i.val then i.val - start else i.val + N - start

theorem rrStart_le (s : Sched N) : rrStart s ≤ N := by
  unfold rrStart
  rcases s.currentProc with _ | c
  · exact Nat.zero_le N
  · exact c.isLt

theorem rrDist_lt {start : ℕ} (i : Fin N) : rrDist start i < N := by
  have := i.isLt
  unfold rrDist
  split_ifs <;> omega

theorem add_rrDist (i : Fin N) : i.val = (rrStart s + rrDist (rrStart s) i) % N := by
  have hs := rrStart_le s
  have hi := i.isLt
  unfold rrDist
  split_ifs with h
  · rw [Nat.add_sub_cancel' h, Nat.mod_eq_of_lt hi]
  · rw [Nat.add_sub_cancel' (by omega), Nat.add_mod_right, Nat.mod_eq_of_lt hi]

theorem chooseNext_of_runnable (pol : SchedPolicy) (hi : (s.procs i).state = .runnable) :
    ∃ next, chooseNext pol s = some next := by
  rcases pol with _ | _
  · obtain ⟨n, -, hn⟩ := chooseRr_of_runnable (rrDist_lt i) (add_rrDist i) hi
    exact ⟨_, hn⟩
  · obtain ⟨b, hb, -⟩ := chooseCfs_of_runnable hi
    exact ⟨b, hb⟩

end Choose

section Save

theorem saveCurrent_eq (sp : Frame) :
    saveCurrent s sp = s ∧ (∀ c, s.currentProc = some c → (s.procs c).state ≠ .runnable) ∨
      ∃ c, s.currentProc = some c ∧ (s.procs c).state = .runnable ∧
        saveCurrent s sp = { s with
          procs := Function.update s.procs c
            { s.procs c with frame := sp, vruntime := ((s.procs c).vruntime + 1) % 2 ^ 64 } } := by
  unfold saveCurrent
  split
  · rename_i h
    exact .inl ⟨rfl, by simp [h]⟩
  · rename_i c h
    split_ifs with hr
    · exact .inr ⟨c, h, hr, rfl⟩
    · exact .inl ⟨rfl, by simp [h, hr]⟩

/-- Saving changes the frame and the `vruntime` of a process only. -/
theorem saveCurrent_field {β : Type*} {f : Process → β}
    (hf : ∀ (p : Process) (sp : Frame) (v : ℕ), f { p with frame := sp, vruntime := v } = f p)
    (sp : Frame) (i : Fin N) : f ((saveCurrent s sp).procs i) = f (s.procs i) := by
  obtain ⟨h, -⟩ | ⟨c, -, -, h⟩ := saveCurrent_eq (s := s) sp
  · rw [h]
  · rw [h]
    by_cases hi : i = c
    · subst hi
      simp [hf]
    · simp [hi]

theorem saveCurrent_state (sp : Frame) (i : Fin N) :
    ((saveCurrent s sp).procs i).state = (s.procs i).state :=
  saveCurrent_field (fun _ _ _ => rfl) sp i

@[simp] theorem saveCurrent_currentProc (sp : Frame) :
    (saveCurrent s sp).currentProc = s.currentProc := by
  obtain ⟨h, -⟩ | ⟨c, -, -, h⟩ := saveCurrent_eq (s := s) sp <;> rw [h]

@[simp] theorem saveCurrent_armed (sp : Frame) :
    (saveCurrent s sp).userPreemptArmed = s.userPreemptArmed := by
  obtain ⟨h, -⟩ | ⟨c, -, -, h⟩ := saveCurrent_eq (s := s) sp <;> rw [h]

@[simp] theorem saveCurrent_nextPid (sp : Frame) :
    (saveCurrent s sp).nextPid = s.nextPid := by
  obtain ⟨h, -⟩ | ⟨c, -, -, h⟩ := saveCurrent_eq (s := s) sp <;> rw [h]

theorem saveCurrent_pid (sp : Frame) (i : Fin N) :
    ((saveCurrent s sp).procs i).pid = (s.procs i).pid :=
  saveCurrent_field (fun _ _ _ => rfl) sp i

theorem saveCurrent_of_ne {sp : Frame} {i : Fin N} (h : s.currentProc ≠ some i) :
    (saveCurrent s sp).procs i = s.procs i := by
  rcases saveCurrent_eq (s := s) sp with ⟨hs, -⟩ | ⟨c, hc, -, hs⟩
  · rw [hs]
  · have hne : i ≠ c := by
      rintro rfl
      exact h hc
    rw [hs]
    simp [hne]

end Save

/-- An armed tick from user mode saves, then resumes what the policy chooses; with nothing to
choose it goes back to the interrupted frame. -/
theorem irqTimerDispatch_user (pol : SchedPolicy) {sp : Frame} (ha : s.userPreemptArmed = true)
    (hu : fromUser sp) :
    irqTimerDispatch pol s sp = match chooseNext pol (saveCurrent (countJiffy s) sp) with
      | none => (saveCurrent (countJiffy s) sp, none)
      | some next =>
        ({ saveCurrent (countJiffy s) sp with currentProc := some next }, some next) := by
  have ha' : (countJiffy s).userPreemptArmed ≠ false := by simp [countJiffy, ha]
  exact (if_neg ha').trans (if_neg (not_not.2 hu))

/-- Any other tick only counts. -/
theorem irqTimerDispatch_of_not (pol : SchedPolicy) {sp : Frame}
    (h : ¬ (s.userPreemptArmed = true ∧ fromUser sp)) :
    irqTimerDispatch pol s sp = (countJiffy s, none) := by
  unfold irqTimerDispatch
  by_cases ha : (countJiffy s).userPreemptArmed = false
  · simp only [if_pos ha]
  · have hu : ¬ fromUser sp := fun hu => h ⟨by simpa [countJiffy] using ha, hu⟩
    simp only [if_neg ha, if_pos hu]

theorem irqTimerDispatch_state (pol : SchedPolicy) (sp : Frame) (i : Fin N) :
    ((irqTimerDispatch pol s sp).1.procs i).state = (s.procs i).state := by
  by_cases htick : s.userPreemptArmed = true ∧ fromUser sp
  · rw [irqTimerDispatch_user pol htick.1 htick.2]
    split <;> exact saveCurrent_state (s := countJiffy s) sp i
  · rw [irqTimerDispatch_of_not pol htick]
    rfl

end PeanutKernel
