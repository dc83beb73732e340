import PeanutKernel.Xhci

/-!
# Waiting for a command completion

`xhci_wait_cmd` looks at one place of the event ring and moves on only past a command completion.
So it finds the completion it waits for exactly if no other event is in front of it.
-/

namespace PeanutKernel

namespace Xhci

section Cursor

theorem index_iterate_next {e : Cursor} (h : e.index < eventRingTrbs) :
    ∀ k, (Cursor.next^[k] e).index = (e.index + k) % eventRingTrbs
  | 0 => (Nat.mod_eq_of_lt h).symm
  | k + 1 => by
    have ih := index_iterate_next h k
    rw [Function.iterate_succ_apply', Cursor.next, ih]
    unfold eventRingTrbs
    split_ifs with hend
    · show 0 = _
      omega
    · show (e.index + k) % 256 + 1 = _
      omega

end Cursor

section Producer

theorem produceAll_cons (p : Producer) (ev : Trb) (evs : List Trb) :
    p.produceAll (ev :: evs) = (p.produce ev).produceAll evs := rfl

theorem ring_produceAll {i : ℕ} : ∀ (evs : List Trb) {p : Producer},
    p.cursor.index < eventRingTrbs →
    (∀ k < evs.length, (p.cursor.index + k) % eventRingTrbs ≠ i) →
    (p.produceAll evs).ring i = p.ring i
  | [], _, _, _ => rfl
  | ev :: evs, p, hindex, hne => by
    have hnext : (p.produce ev).cursor.index = (p.cursor.index + 1) % eventRingTrbs :=
      index_iterate_next hindex 1
    have hhere := hne 0 (Nat.zero_lt_succ _)
    rw [Nat.add_zero, Nat.mod_eq_of_lt hindex] at hhere
    rw [produceAll_cons, ring_produceAll evs]
    · exact Function.update_of_ne hhere.symm _ _
    · rw [hnext]
      exact Nat.mod_lt _ (by decide)
    · intro k hk
      rw [hnext, Nat.mod_add_mod, Nat.add_assoc, Nat.add_comm 1]
      exact hne (k + 1) (Nat.succ_lt_succ hk)

end Producer

section Wait

variable {eventRing expected n spin : ℕ} {ring : ℕ → ℕ → Trb} {e : Cursor} {ev : Trb}

/-- A loop that ends with 0 has taken an event, the one at the cursor. -/
theorem waitLoop_cases : ∀ n spin, waitLoop eventRing ring expected e n spin = ⟨-1, 0, e, none⟩ ∨
    ∃ t, waitLoop eventRing ring expected e n spin =
      takeCompletion eventRing expected e (ring t e.index)
  | 0, _ => .inl rfl
  | n + 1, spin => by
    rw [waitLoop]
    split_ifs
    · exact .inr ⟨spin, rfl⟩
    · exact waitLoop_cases n (spin + 1)

theorem waitLoop_found (hev : IsCompletion e ev) (hring : ∀ t,
    ring t e.index = ev ∨ ¬ IsCompletion e (ring t e.index)) :
    ∀ n spin, (∃ t, spin ≤ t ∧ t < spin + n ∧ ring t e.index = ev) →
      waitLoop eventRing ring expected e n spin = takeCompletion eventRing expected e ev
  | 0, spin, ⟨t, hge, hlt, _⟩ => by omega
  | n + 1, spin, ⟨t, hge, hlt, ht⟩ => by
    rw [waitLoop]
    rcases hring spin with hspin | hspin
    · rw [hspin, if_pos hev]
    · rw [if_neg hspin]
      refine waitLoop_found hev hring n (spin + 1) ⟨t, ?_, by omega, ht⟩
      have hne : t ≠ spin := by
        rintro rfl
        exact hspin (ht ▸ hev)
      omega

/-- An event as the producer stores it. -/
def stored (e : Cursor) (ev : Trb) : Trb :=
  { ev with control := ev.control / 2 * 2 + cycleBit e.cycle }

theorem cycleBit_le (cycle : Bool) : cycleBit cycle ≤ 1 := by
  cases cycle <;> decide

theorem isCompletion_stored (htype : trbType ev.control = trbTypeCmdCompletion) :
    IsCompletion e (stored e ev) := by
  have hbit := cycleBit_le e.cycle
  refine ⟨?_, ?_⟩
  · cases hcycle : e.cycle <;> simp [Trb.cycle, stored, cycleBit, hcycle]
  · rw [← htype]
    simp only [trbType, stored]
    omega

theorem takeCompletion_stored (eventRing : ℕ) (e : Cursor) (h : Completes expected ev) :
    (takeCompletion eventRing expected e (stored e ev)).ret = 0 ∧
      (takeCompletion eventRing expected e (stored e ev)).slotId =
        ev.control / 2 ^ 24 % 2 ^ 8 := by
  have hbit := cycleBit_le e.cycle
  refine ⟨if_pos ⟨congrArg maskTrb h.command, h.code⟩, ?_⟩
  simp only [takeCompletion, stored]
  omega

/-- The driver finds no event but the first at its place of the ring. -/
theorem ringAt_index (old : ℕ → Trb) (ev : Trb) (evs : List Trb) (arrived : ℕ → ℕ)
    (hindex : e.index < eventRingTrbs) (hfew : evs.length < eventRingTrbs) (t : ℕ) :
    ringAt old e (ev :: evs) arrived t e.index =
      if arrived t = 0 then old e.index else stored e ev := by
  unfold ringAt
  rcases harrived : arrived t with _ | k
  · rfl
  · rw [List.take_succ_cons, produceAll_cons, if_neg (Nat.succ_ne_zero k)]
    have hnext : e.next.index = (e.index + 1) % eventRingTrbs := index_iterate_next hindex 1
    rw [ring_produceAll]
    · exact Function.update_self _ _ _
    · show e.next.index < _
      rw [hnext]
      exact Nat.mod_lt _ (by decide)
    · intro j hj
      show (e.next.index + j) % _ ≠ _
      rw [hnext]
      rw [List.length_take] at hj
      unfold eventRingTrbs at hindex hfew ⊢
      omega

theorem pending_eq_nil_of_finds {pending : List Trb} (hindex : e.index < eventRingTrbs)
    (hfew : pending.length < eventRingTrbs)
    (h : Finds eventRing ring expected e pending ev) : pending = [] := by
  obtain ⟨hret, -, hcursor⟩ := h
  unfold xhciWaitCmd at hret hcursor
  rcases waitLoop_cases waitSpins 0 with hloop | ⟨t, hloop⟩
  · rw [hloop] at hret
    have hret : (-1 : ℤ) = 0 := hret
    omega
  · rw [hloop] at hcursor
    have hone := index_iterate_next hindex 1
    have hall := index_iterate_next hindex (pending.length + 1)
    rw [← hcursor] at hall
    have hsame : (e.index + 1) % eventRingTrbs = (e.index + (pending.length + 1)) % eventRingTrbs :=
      hone.symm.trans hall
    refine List.eq_nil_of_length_eq_zero ?_
    unfold eventRingTrbs at hfew hsame
    omega

/-- Only with no event in front of it is the completion found. -/
theorem completion_found_iff (eventRing expected : ℕ) (old : ℕ → Trb) (e : Cursor)
    (pending : List Trb) (ev : Trb) (arrived : ℕ → ℕ) (hindex : e.index < eventRingTrbs)
    (hstale : (old e.index).cycle ≠ e.cycle) (hfew : pending.length < eventRingTrbs)
    (hev : Completes expected ev)
    (harrived : ∃ spin < waitSpins, pending.length + 1 ≤ arrived spin) :
    Finds eventRing (ringAt old e (pending ++ [ev]) arrived) expected e pending ev ↔
      pending = [] := by
  refine ⟨pending_eq_nil_of_finds hindex hfew, ?_⟩
  rintro rfl
  obtain ⟨spin, hspin, harrived⟩ := harrived
  have hring := ringAt_index old ev [] arrived hindex (by decide)
  have hwait : xhciWaitCmd eventRing (ringAt old e ([] ++ [ev]) arrived) expected e =
      takeCompletion eventRing expected e (stored e ev) := by
    refine waitLoop_found (isCompletion_stored hev.type) (fun t => ?_) waitSpins 0
      ⟨spin, Nat.zero_le _, by omega, ?_⟩
    · rw [List.nil_append, hring t]
      split_ifs
      · exact .inr fun h => hstale h.1
      · exact .inl rfl
    · rw [List.nil_append, hring spin, if_neg (by omega)]
  unfold Finds
  rw [hwait]
  obtain ⟨hret, hslot⟩ := takeCompletion_stored eventRing e hev
  exact ⟨hret, hslot, rfl⟩

end Wait

section Sample

/-- A successful completion of the command at `0x1000`, for slot 1. -/
def sampleCompletion : Trb := ⟨0x1000, 1 * 2 ^ 24, 1 * 2 ^ 24 + 33 * 2 ^ 10⟩

/-- A port status change event. -/
def portChange : Trb := ⟨1 * 2 ^ 24, 1 * 2 ^ 24, 34 * 2 ^ 10⟩

theorem sampleCompletion_completes : Completes 0x1000 sampleCompletion := by
  refine ⟨?_, ?_, ?_⟩ <;> decide

theorem completion_found_iff_alone : Finds 0x2000
    (ringAt (fun _ => ⟨0, 0, 0⟩) ⟨0, true⟩ ([] ++ [sampleCompletion]) fun _ => 1) 0x1000 ⟨0, true⟩
    [] sampleCompletion := by
  refine (completion_found_iff 0x2000 0x1000 _ ⟨0, true⟩ [] sampleCompletion (fun _ => 1)
    (by decide) (by decide) (by decide) sampleCompletion_completes ⟨0, by decide, by decide⟩).2 rfl

/-- With a port status change in front of it the completion is not found. -/
theorem completion_behind_portChange : Completes 0x1000 sampleCompletion ∧ ¬ Finds 0x2000
    (ringAt (fun _ => ⟨0, 0, 0⟩) ⟨0, true⟩ ([portChange] ++ [sampleCompletion]) fun _ => 2) 0x1000
    ⟨0, true⟩ [portChange] sampleCompletion := by
  refine ⟨sampleCompletion_completes, fun h => ?_⟩
  exact absurd (pending_eq_nil_of_finds (by decide) (by decide) h) (by decide)

end Sample

end Xhci

end PeanutKernel
