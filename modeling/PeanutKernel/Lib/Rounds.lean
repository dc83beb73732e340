import PeanutKernel.Lib.Fuel
import PeanutKernel.Lib.Halting

/-!
# Loops of rounds

A round asks its questions and goes on with another state or ends with a result. The loop of rounds
from a state takes fuel for the number of rounds. If every round returns, the loop is a walk along
the states: what it asks, what it returns and whether it returns are told by the rounds of the
states it comes to (`mem_trace_rounds`, `yields_rounds`, `finishes_rounds`,
`settles_rounds_inl`).
-/

namespace Query

open StateTransition

variable {Q R σ α β γ : Type}

theorem bind_bind (f : α → Query Q R β) (g : β → Query Q R γ) :
    ∀ p : Query Q R α, p >>= f >>= g = p >>= fun a => f a >>= g
  | done _ => rfl
  | ask q k => congrArg (ask q) (funext fun r => (k r).bind_bind f g)
  | diverge => rfl

theorem pure_bind (a : α) (f : α → Query Q R β) : (pure a >>= f : Query Q R β) = f a := rfl

def rounds (round : σ → Query Q R (σ ⊕ α)) : ℕ → σ → Query Q R α
  | 0, _ => diverge
  | fuel + 1, s => round s >>= Sum.elim (rounds round fuel) pure

/-- The state a round goes on with. -/
def goesOn (ans : Q → R) (round : σ → Query Q R (σ ⊕ α)) (s : σ) : Option σ :=
  ((round s).run ans).bind Sum.getLeft?

variable {ans : Q → R} {round : σ → Query Q R (σ ⊕ α)} {s s' : σ} {a : α} {q : Q}

theorem goesOn_eq_some : goesOn ans round s = some s' ↔ (round s).run ans = some (.inl s') := by
  rw [goesOn]
  rcases (round s).run ans with _ | s' | a <;> simp

theorem goesOn_eq_none (hret : ((round s).run ans).isSome) :
    goesOn ans round s = none ↔ ∃ a, (round s).run ans = some (.inr a) := by
  rw [goesOn]
  rcases h : (round s).run ans with _ | s' | a
  · rw [h] at hret
    cases hret
  · simp
  · simp

variable {fuel : ℕ}

theorem run_rounds_inl (h : (round s).run ans = some (.inl s')) :
    (rounds round (fuel + 1) s).run ans = (rounds round fuel s').run ans := by
  rw [rounds, run_bind, h]
  rfl

theorem run_rounds_inr (h : (round s).run ans = some (.inr a)) :
    (rounds round (fuel + 1) s).run ans = some a := by
  rw [rounds, run_bind, h]
  rfl

theorem trace_rounds_inl (h : (round s).run ans = some (.inl s')) :
    (rounds round (fuel + 1) s).trace ans
      = (round s).trace ans ++ (rounds round fuel s').trace ans :=
  trace_bind_some ans h _

theorem trace_rounds_inr (h : (round s).run ans = some (.inr a)) :
    (rounds round (fuel + 1) s).trace ans = (round s).trace ans := by
  rw [rounds, trace_bind_some ans h]
  exact List.append_nil _

/-- How a round can go. -/
theorem round_cases (hret : ∀ s, ((round s).run ans).isSome) (s : σ) :
    (∃ s', (round s).run ans = some (.inl s')) ∨ ∃ a, (round s).run ans = some (.inr a) := by
  obtain ⟨s' | a, h⟩ := Option.isSome_iff_exists.1 (hret s)
  · exact Or.inl ⟨s', h⟩
  · exact Or.inr ⟨a, h⟩

variable (hret : ∀ s, ((round s).run ans).isSome)
include hret

theorem yields_rounds :
    Yields ans (rounds round · s) a
      ↔ ∃ s', Reaches (goesOn ans round) s s' ∧ (round s').run ans = some (.inr a) := by
  constructor
  · rintro ⟨fuel, h⟩
    induction fuel generalizing s with
    | zero => cases h
    | succ fuel ih =>
      rcases round_cases hret s with ⟨s', hs⟩ | ⟨b, hs⟩
      · rw [run_rounds_inl hs] at h
        obtain ⟨s'', hreach, hrun⟩ := ih h
        exact ⟨s'', .head (goesOn_eq_some.2 hs) hreach, hrun⟩
      · rw [run_rounds_inr hs, Option.some_inj] at h
        rw [h] at hs
        exact ⟨s, .refl, hs⟩
  · rintro ⟨s', hreach, hrun⟩
    induction hreach using Relation.ReflTransGen.head_induction_on with
    | refl => exact ⟨1, run_rounds_inr hrun⟩
    | head hstep _ ih =>
      obtain ⟨fuel, h⟩ := ih
      exact ⟨fuel + 1, (run_rounds_inl (goesOn_eq_some.1 hstep)).trans h⟩

theorem finishes_rounds : Finishes ans (rounds round · s) ↔ (eval (goesOn ans round) s).Dom := by
  simp only [Finishes, yields_rounds hret, dom_eval_iff, goesOn_eq_none (hret _)]
  constructor
  · rintro ⟨a, s', hreach, hrun⟩
    exact ⟨s', hreach, a, hrun⟩
  · rintro ⟨s', hreach, a, hrun⟩
    exact ⟨a, s', hreach, hrun⟩

theorem mem_trace_rounds :
    (∃ fuel, q ∈ (rounds round fuel s).trace ans)
      ↔ ∃ s', Reaches (goesOn ans round) s s' ∧ q ∈ (round s').trace ans := by
  constructor
  · rintro ⟨fuel, h⟩
    induction fuel generalizing s with
    | zero => cases h
    | succ fuel ih =>
      rcases round_cases hret s with ⟨s', hs⟩ | ⟨b, hs⟩
      · rw [trace_rounds_inl hs, List.mem_append] at h
        rcases h with h | h
        · exact ⟨s, .refl, h⟩
        · obtain ⟨s'', hreach, hq⟩ := ih h
          exact ⟨s'', .head (goesOn_eq_some.2 hs) hreach, hq⟩
      · rw [trace_rounds_inr hs] at h
        exact ⟨s, .refl, h⟩
  · rintro ⟨s', hreach, hq⟩
    induction hreach using Relation.ReflTransGen.head_induction_on with
    | refl =>
      refine ⟨1, ?_⟩
      rcases round_cases hret s' with ⟨s'', hs⟩ | ⟨b, hs⟩
      · rw [trace_rounds_inl hs, List.mem_append]
        exact Or.inl hq
      · rwa [trace_rounds_inr hs]
    | head hstep _ ih =>
      obtain ⟨fuel, h⟩ := ih
      refine ⟨fuel + 1, ?_⟩
      rw [trace_rounds_inl (goesOn_eq_some.1 hstep), List.mem_append]
      exact Or.inr h

theorem steady_rounds : Steady ans (rounds round · s) := by
  intro fuel a h
  induction fuel generalizing s with
  | zero => cases h
  | succ fuel ih =>
    rcases round_cases hret s with ⟨s', hs⟩ | ⟨b, hs⟩
    · rw [run_rounds_inl hs] at h
      obtain ⟨hrun, htrace⟩ := ih h
      rw [run_rounds_inl hs, trace_rounds_inl hs, trace_rounds_inl hs, htrace]
      exact ⟨hrun, rfl⟩
    · rw [run_rounds_inr hs] at h
      rw [run_rounds_inr hs, trace_rounds_inr hs, trace_rounds_inr hs]
      exact ⟨h, rfl⟩

omit hret

theorem settles_rounds_inl {P : Q → Prop} (h : (round s).run ans = some (.inl s')) :
    Settles ans P (rounds round · s) a
      ↔ AsksOnly ans P (round s) ∧ Settles ans P (rounds round · s') a := by
  constructor
  · rintro ⟨_ | fuel, hrun, hP⟩
    · cases hrun
    · rw [run_rounds_inl h] at hrun
      obtain ⟨hP, hP'⟩ := (asksOnly_bind h _).1 hP
      exact ⟨hP, fuel, hrun, hP'⟩
  · rintro ⟨hP, fuel, hrun, hP'⟩
    exact ⟨fuel + 1, (run_rounds_inl h).trans hrun, (asksOnly_bind h _).2 ⟨hP, hP'⟩⟩

theorem settles_rounds_inr {P : Q → Prop} {b : α} (h : (round s).run ans = some (.inr b)) :
    Settles ans P (rounds round · s) a ↔ AsksOnly ans P (round s) ∧ a = b := by
  constructor
  · rintro ⟨_ | fuel, hrun, hP⟩
    · cases hrun
    · rw [run_rounds_inr h, Option.some_inj] at hrun
      exact ⟨((asksOnly_bind h _).1 hP).1, hrun.symm⟩
  · rintro ⟨hP, rfl⟩
    exact ⟨1, run_rounds_inr h, (asksOnly_bind h _).2 ⟨hP, (asksOnly_pure a).2 trivial⟩⟩

end Query
