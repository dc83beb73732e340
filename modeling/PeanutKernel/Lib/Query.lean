import Mathlib.Data.List.Basic

/-!
# Programs that ask questions

A program over questions `Q` and answers `R` is done, asks and goes on with the answer, or
`diverge`s: it stands for a loop that has not ended. Run against a table of answers it has a result
and a trace, the questions it asked. It reads nothing else of the table: two tables that agree on
what it asked of one give the same result and the same trace (`run_congr`, `trace_congr`).
-/

inductive Query (Q R α : Type) : Type
  | done (a : α)
  | ask (q : Q) (k : R → Query Q R α)
  | diverge

namespace Query

variable {Q R α β : Type}

protected def bind : Query Q R α → (α → Query Q R β) → Query Q R β
  | done a, f => f a
  | ask q k, f => ask q fun r => (k r).bind f
  | diverge, _ => diverge

instance : Monad (Query Q R) where
  pure := done
  bind := Query.bind

variable (ans : Q → R)

def run : Query Q R α → Option α
  | done a => some a
  | ask q k => (k (ans q)).run
  | diverge => none

def trace : Query Q R α → List Q
  | done _ => []
  | ask q k => q :: (k (ans q)).trace
  | diverge => []

@[simp] theorem run_done (a : α) : (done a : Query Q R α).run ans = some a := rfl

@[simp] theorem run_pure (a : α) : (pure a : Query Q R α).run ans = some a := rfl

@[simp] theorem run_ask (q : Q) (k : R → Query Q R α) :
    (ask q k).run ans = (k (ans q)).run ans := rfl

@[simp] theorem run_diverge : (diverge : Query Q R α).run ans = none := rfl

@[simp] theorem trace_done (a : α) : (done a : Query Q R α).trace ans = [] := rfl

@[simp] theorem trace_pure (a : α) : (pure a : Query Q R α).trace ans = [] := rfl

@[simp] theorem trace_ask (q : Q) (k : R → Query Q R α) :
    (ask q k).trace ans = q :: (k (ans q)).trace ans := rfl

@[simp] theorem trace_diverge : (diverge : Query Q R α).trace ans = [] := rfl

@[simp] theorem run_bind (f : α → Query Q R β) :
    ∀ p : Query Q R α, (p >>= f).run ans = (p.run ans).bind fun a => (f a).run ans
  | done _ => rfl
  | ask q k => run_bind f (k (ans q))
  | diverge => rfl

theorem trace_bind (f : α → Query Q R β) :
    ∀ p : Query Q R α,
      (p >>= f).trace ans = p.trace ans ++ ((p.run ans).elim [] fun a => (f a).trace ans)
  | done _ => by simp [run, trace]; rfl
  | ask q k => congrArg (q :: ·) (trace_bind f (k (ans q)))
  | diverge => by simp [run, trace]; rfl

variable {p : Query Q R α}

theorem run_bind_some {a : α} (h : p.run ans = some a) (f : α → Query Q R β) :
    (p >>= f).run ans = (f a).run ans := by
  rw [run_bind, h, Option.bind_some]

theorem trace_bind_some {a : α} (h : p.run ans = some a) (f : α → Query Q R β) :
    (p >>= f).trace ans = p.trace ans ++ (f a).trace ans := by
  rw [trace_bind, h]
  rfl

/-- Whatever the program asks, `P` allows. -/
def AsksOnly (P : Q → Prop) (p : Query Q R α) : Prop := ∀ q ∈ p.trace ans, P q

variable {ans} {ans' : Q → R} {P : Q → Prop}

theorem asksOnly_pure (a : α) : AsksOnly ans P (pure a : Query Q R α) ↔ True := by
  simp [AsksOnly]

theorem asksOnly_bind_iff {f : α → Query Q R β} :
    AsksOnly ans P (p >>= f)
      ↔ AsksOnly ans P p ∧ ∀ a, p.run ans = some a → AsksOnly ans P (f a) := by
  rw [AsksOnly, trace_bind, List.forall_mem_append]
  cases p.run ans with
  | none => simp [AsksOnly]
  | some a => simp [AsksOnly]

theorem asksOnly_bind {a : α} (h : p.run ans = some a) (f : α → Query Q R β) :
    AsksOnly ans P (p >>= f) ↔ AsksOnly ans P p ∧ AsksOnly ans P (f a) := by
  rw [asksOnly_bind_iff, h]
  simp

theorem run_congr :
    ∀ p : Query Q R α, (∀ q ∈ p.trace ans, ans' q = ans q) → p.run ans' = p.run ans
  | done _, _ => rfl
  | ask q k, h => by
    simp only [trace_ask, List.mem_cons, forall_eq_or_imp] at h
    rw [run_ask, run_ask, h.1]
    exact run_congr (k (ans q)) h.2
  | diverge, _ => rfl

theorem trace_congr :
    ∀ p : Query Q R α, (∀ q ∈ p.trace ans, ans' q = ans q) → p.trace ans' = p.trace ans
  | done _, _ => rfl
  | ask q k, h => by
    simp only [trace_ask, List.mem_cons, forall_eq_or_imp] at h
    rw [trace_ask, trace_ask, h.1, trace_congr (k (ans q)) h.2]
  | diverge, _ => rfl

end Query
