import Mathlib.Data.List.Basic

/-!
# Runs of a step function

A machine is a step function on a state type, and a run is the list of events it takes. What is
kept by every step that meets a condition is kept by every run all of whose steps do
(`inv_of_along`), and what each step of such a run does besides, it does at every step of it
(`along_of_inv`).

Steps that may stop have runs that may stop; a run whose steps all meet a condition goes on to its
end if each step does (`run_of_meets`).

A machine that answers each event, and may stop, has the `outputs` of a run. If each step of
another machine is one of it with the same answer, so is each run (`outputs_of_simulation`).
-/

namespace Runs

variable {σ ε : Type*} (step : σ → ε → σ)

/-- Each step of the run from `s` meets `C`, a condition on the state before it and its event. -/
def Along (C : σ → ε → Prop) : σ → List ε → Prop
  | _, [] => True
  | s, e :: es => C s e ∧ Along C (step s e) es

instance instDecidableAlong (C : σ → ε → Prop) [∀ s e, Decidable (C s e)] :
    ∀ (es : List ε) (s : σ), Decidable (Along step C s es)
  | [], _ => inferInstanceAs (Decidable True)
  | e :: es, s =>
    have : Decidable (Along step C (step s e) es) := instDecidableAlong C es (step s e)
    inferInstanceAs (Decidable (_ ∧ _))

variable {step}

theorem along_append {C : σ → ε → Prop} :
    ∀ (es : List ε) {es' : List ε} {s : σ},
      Along step C s (es ++ es') ↔ Along step C s es ∧ Along step C (es.foldl step s) es'
  | [], es', s => by simp [Along]
  | e :: es, es', s => by
    simp only [List.cons_append, Along, List.foldl_cons, along_append es, and_assoc]

variable {I : σ → Prop} {C D : σ → ε → Prop}

/-- What every step does is done along every run. -/
theorem along_of_forall (h : ∀ s e, C s e) : ∀ (es : List ε) (s : σ), Along step C s es
  | [], _ => trivial
  | e :: es, s => ⟨h s e, along_of_forall h es (step s e)⟩

theorem inv_of_along (hstep : ∀ s e, I s → C s e → I (step s e)) :
    ∀ (es : List ε) {s : σ}, I s → Along step C s es → I (es.foldl step s)
  | [], _, hI, _ => hI
  | e :: es, s, hI, h => inv_of_along hstep es (hstep s e hI h.1) h.2

/-- Steps that keep `I` under `C` and do `D` from it do `D` at every step of a run that starts
in `I` and meets `C` throughout. -/
theorem along_of_inv (hstep : ∀ s e, I s → C s e → I (step s e))
    (hD : ∀ s e, I s → C s e → D s e) :
    ∀ (es : List ε) {s : σ}, I s → Along step C s es → Along step D s es
  | [], _, _, _ => trivial
  | e :: es, s, hI, h =>
    ⟨hD s e hI h.1, along_of_inv hstep hD es (hstep s e hI h.1) h.2⟩

section Partial

variable (step : σ → ε → Option σ)

/-- Each step of a run that may stop meets `C`, as long as it goes on. -/
def Meets (C : σ → ε → Prop) : σ → List ε → Prop
  | _, [] => True
  | s, e :: es => C s e ∧ ∀ s' ∈ step s e, Meets C s' es

instance instDecidableMeets (C : σ → ε → Prop) [∀ s e, Decidable (C s e)] :
    ∀ (es : List ε) (s : σ), Decidable (Meets step C s es)
  | [], _ => inferInstanceAs (Decidable True)
  | _ :: es, _ =>
    have : ∀ s', Decidable (Meets step C s' es) := instDecidableMeets C es
    inferInstanceAs (Decidable (_ ∧ _))

variable {step}

/-- A run of at most `bound` steps does not stop, if no step from `I` that meets `C` does. -/
theorem run_of_meets {C : σ → ε → Prop} {I : ℕ → σ → Prop} {bound : ℕ}
    (hstep : ∀ n s e, n < bound → I n s → C s e → ∃ s', step s e = some s' ∧ I (n + 1) s') :
    ∀ (es : List ε) {n : ℕ} {s : σ}, n + es.length ≤ bound → I n s → Meets step C s es →
      ∃ s', es.foldlM step s = some s' ∧ I (n + es.length) s'
  | [], n, s, _, hI, _ => ⟨s, rfl, hI⟩
  | e :: es, n, s, hle, hI, h => by
    rw [List.length_cons] at hle
    obtain ⟨s₁, hs₁, hI₁⟩ := hstep n s e (by omega) hI h.1
    obtain ⟨s', hs', hI'⟩ := run_of_meets hstep es (by omega) hI₁ (h.2 s₁ hs₁)
    refine ⟨s', ?_, ?_⟩
    · simp [List.foldlM_cons, hs₁, hs']
    · rw [List.length_cons, Nat.add_comm es.length, ← Nat.add_assoc]
      exact hI'

end Partial

section Outputs

variable {τ ρ : Type*}

/-- The answers to the events of a run and its last state, `none` if it stops before. -/
def outputs (step : σ → ε → Option (ρ × σ)) : σ → List ε → Option (List ρ × σ)
  | s, [] => some ([], s)
  | s, e :: es =>
    (step s e).bind fun (r, s') => (outputs step s' es).map fun (rs, s'') => (r :: rs, s'')

theorem outputs_cons_some {step : σ → ε → Option (ρ × σ)} {s t : σ} {e : ε} {es : List ε}
    {rs : List ρ} :
    outputs step s (e :: es) = some (rs, t) ↔
      ∃ r s' rs', step s e = some (r, s') ∧ outputs step s' es = some (rs', t) ∧ rs = r :: rs' := by
  simp only [outputs, Option.bind_eq_some_iff, Option.map_eq_some_iff, Prod.exists, Prod.mk.injEq]
  constructor
  · rintro ⟨r, s', hstep, rs', t', hrest, rfl, rfl⟩
    exact ⟨r, s', rs', hstep, hrest, rfl⟩
  · rintro ⟨r, s', rs', hstep, hrest, rfl⟩
    exact ⟨r, s', hstep, rs', t, hrest, rfl, rfl⟩

/-- `f` gives the abstract state of a concrete one, and `I` is what a run keeps. -/
theorem outputs_of_simulation {step : σ → ε → Option (ρ × σ)} {abs : τ → ε → Option (ρ × τ)}
    {f : σ → τ} {I : σ → Prop} :
    ∀ (es : List ε),
      (∀ e ∈ es, ∀ s r t, I s → abs (f s) e = some (r, t) →
        ∃ s', step s e = some (r, s') ∧ f s' = t ∧ I s') →
      ∀ {s : σ} {rs : List ρ} {t : τ}, I s → outputs abs (f s) es = some (rs, t) →
        ∃ s', outputs step s es = some (rs, s') ∧ f s' = t ∧ I s'
  | [], _, s, rs, t, hI, h => by
    obtain ⟨rfl, rfl⟩ := Prod.mk.inj (Option.some.inj h)
    exact ⟨s, rfl, rfl, hI⟩
  | e :: es, hsim, s, rs, t, hI, h => by
    obtain ⟨r, t₁, rs', hstep, hrest, rfl⟩ := outputs_cons_some.1 h
    obtain ⟨s₁, hs₁, rfl, hI₁⟩ := hsim e (List.mem_cons_self ..) s r t₁ hI hstep
    obtain ⟨s', hs', hf, hI'⟩ := outputs_of_simulation es
      (fun e he => hsim e (List.mem_cons_of_mem _ he)) hI₁ hrest
    exact ⟨s', outputs_cons_some.2 ⟨r, s₁, rs', hs₁, hs', rfl⟩, hf, hI'⟩

end Outputs

end Runs
