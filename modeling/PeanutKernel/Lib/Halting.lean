import Mathlib.Computability.StateTransition
import Mathlib.Order.Preorder.Finite
import Mathlib.Order.WellFounded

/-!
# When steps come to an end

If only finitely many states can be reached from one, no walk from it goes on for ever just when
none comes back to a state (`acc_iff_forall_not_transGen`). For a system that goes from a state to
the next or stops: the steps from a state come to an end just when they do not go round
(`dom_iff_not_goesRound`). Numbers that only go up, but are kept modulo `M`, go round just when they
come to `M` (`dom_wrapped_iff`).
-/

namespace Relation

variable {α : Type*} {r : α → α → Prop} {a b : α}

theorem not_transGen_of_acc (h : Acc (fun c b => r b c) a) : ¬ TransGen r a a := by
  induction h with
  | intro a _ ih =>
    intro hround
    obtain ⟨b, hab, hba⟩ := TransGen.head'_iff.1 hround
    exact ih b hab (TransGen.tail' hba hab)

theorem ReflTransGen.acc (hab : ReflTransGen r a b) (h : Acc (fun c b => r b c) a) :
    Acc (fun c b => r b c) b := by
  induction hab with
  | refl => exact h
  | tail _ hbc ih => exact ih.inv hbc

theorem acc_iff_forall_not_transGen (hfin : {b | ReflTransGen r a b}.Finite) :
    Acc (fun c b => r b c) a ↔ ∀ b, ReflTransGen r a b → ¬ TransGen r b b := by
  refine ⟨fun h b hab => not_transGen_of_acc (hab.acc h), fun h => ?_⟩
  refine acc_iff_isEmpty_descending_chain.2 ⟨fun ⟨s, hs, hstep⟩ => ?_⟩
  have hfwd : ∀ i j, ReflTransGen r (s i) (s (i + j)) := by
    intro i j
    induction j with
    | zero => exact .refl
    | succ j ih => exact ih.tail (hstep (i + j))
  have hreach : ∀ n, ReflTransGen r a (s n) := by
    intro n
    have := hfwd 0 n
    rwa [hs, Nat.zero_add] at this
  obtain ⟨i, j, hij, heq⟩ := Set.Finite.exists_lt_map_eq_of_forall_mem hreach hfin
  obtain ⟨d, rfl⟩ : ∃ d, j = i + d + 1 := ⟨j - i - 1, by omega⟩
  have hback := TransGen.tail' (hfwd i d) (hstep (i + d))
  rw [← heq] at hback
  exact h (s i) (hreach i) hback

end Relation

namespace StateTransition

variable {σ : Type*} {f : σ → Option σ} {a b : σ}

/-- From `a` the steps lead to a state that they come back to. -/
def GoesRound (f : σ → Option σ) (a : σ) : Prop := ∃ b, Reaches f a b ∧ Reaches₁ f b b

theorem dom_eval_iff : (eval f a).Dom ↔ ∃ b, Reaches f a b ∧ f b = none := by
  simp only [Part.dom_iff_mem, mem_eval]

theorem dom_of_eq_none (h : f a = none) : (eval f a).Dom := dom_eval_iff.2 ⟨a, .refl, h⟩

theorem dom_iff_of_eq_some (h : f a = some b) : (eval f a).Dom ↔ (eval f b).Dom := by
  rw [reaches_eval (.single h : Reaches f a b)]

theorem dom_induction {P : σ → Prop} (h : (eval f a).Dom) (stop : ∀ a, f a = none → P a)
    (step : ∀ a b, f a = some b → P b → P a) : P a := by
  obtain ⟨b, hab, hb⟩ := dom_eval_iff.1 h
  clear h
  induction hab using Relation.ReflTransGen.head_induction_on with
  | refl => exact stop b hb
  | head hac _ ih => exact step _ _ hac ih

theorem dom_iff_acc : (eval f a).Dom ↔ Acc (fun c b => c ∈ f b) a := by
  constructor
  · intro h
    refine dom_induction (P := Acc fun c b => c ∈ f b) h ?_ ?_
    · intro a ha
      refine ⟨a, fun c hc => ?_⟩
      rw [ha] at hc
      cases hc
    · intro a b hab hb
      refine ⟨a, fun c hc => ?_⟩
      rw [Option.mem_def, hab, Option.some_inj] at hc
      rwa [← hc]
  · intro h
    induction h with
    | intro a _ ih =>
      rcases hfa : f a with _ | b
      · exact dom_of_eq_none hfa
      · exact (dom_iff_of_eq_some hfa).2 (ih b hfa)

theorem GoesRound.not_dom (h : GoesRound f a) : ¬ (eval f a).Dom := by
  obtain ⟨b, hab, hround⟩ := h
  rw [reaches_eval hab, dom_iff_acc]
  exact fun hacc => Relation.not_transGen_of_acc hacc hround

theorem dom_iff_not_goesRound (hfin : {b | Reaches f a b}.Finite) :
    (eval f a).Dom ↔ ¬ GoesRound f a := by
  rw [dom_iff_acc, Relation.acc_iff_forall_not_transGen hfin, GoesRound, not_exists]
  exact forall_congr' fun b => not_and.symm

section Wrapped

variable {g : ℕ → Option ℕ} {M : ℕ}

/-- The steps of `g` with the numbers taken modulo `M`. -/
def wrapped (g : ℕ → Option ℕ) (M : ℕ) (a : ℕ) : Option ℕ := (g a).map (· % M)

variable (hup : ∀ a b, g a = some b → a < b ∧ b ≤ M)
include hup

theorem dom_of_goes_up (a : ℕ) : (eval g a).Dom := by
  induction hn : M - a using Nat.strong_induction_on generalizing a with
  | _ n ih =>
    rcases hga : g a with _ | b
    · exact dom_of_eq_none hga
    · obtain ⟨hab, hb⟩ := hup a b hga
      exact (dom_iff_of_eq_some hga).2 (ih (M - b) (by omega) b rfl)

theorem reaches_wrapped {a b : ℕ} (h : Reaches g a b) (hb : b < M) : Reaches (wrapped g M) a b := by
  induction h with
  | refl => exact .refl
  | @tail c d _ hcd ih =>
    have hstep : wrapped g M c = some d := by
      rw [wrapped, hcd, Option.map_some, Nat.mod_eq_of_lt hb]
    exact (ih ((hup c d hcd).1.trans hb)).tail hstep

theorem lt_of_reaches (hpos : 0 < M) (hM : ¬ Reaches g 0 M) {b : ℕ} (h : Reaches g 0 b) :
    b < M := by
  obtain rfl | ⟨c, _, hcb⟩ := Relation.ReflTransGen.cases_tail h
  · exact hpos
  · exact Nat.lt_of_le_of_ne (hup c b hcb).2 fun he => hM (he ▸ h)

/-- Steps that go up modulo `M` end just when they do not come to `M` itself. -/
theorem dom_wrapped_iff (hpos : 0 < M) : (eval (wrapped g M) 0).Dom ↔ ¬ Reaches g 0 M := by
  constructor
  · intro hdom hM
    obtain ⟨c, hc, hcM⟩ := (Relation.ReflTransGen.cases_tail hM).resolve_left hpos.ne'
    have hback : wrapped g M c = some 0 := by
      rw [wrapped, hcM, Option.map_some, Nat.mod_self]
    have hreach : Reaches (wrapped g M) 0 c := reaches_wrapped hup hc (hup c M hcM).1
    exact GoesRound.not_dom ⟨0, .refl, Relation.TransGen.tail' hreach hback⟩ hdom
  · intro hM
    obtain ⟨b, hb, hstop⟩ := dom_eval_iff.1 (dom_of_goes_up hup 0)
    refine dom_eval_iff.2 ⟨b, reaches_wrapped hup hb (lt_of_reaches hup hpos hM hb), ?_⟩
    rw [wrapped, hstop, Option.map_none]

end Wrapped

end StateTransition
