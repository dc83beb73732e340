import Mathlib.Data.List.Basic
import Mathlib.Logic.Function.Basic
import Mathlib.Order.Nat

/-!
# Programs over memory

A program reads and writes the cells of a memory. Started from a memory it has a value, leaves a
memory, and has a log, the accesses it made in order. That all its accesses have a property is asked
step by step (`within_bind`), for a loop round by round (`within_countUp_iff`). Of two
loops, one in the other, each round of which stores to a cell of its own it is said what they leave
(`forRange_stores`).
-/

inductive Access (A : Type)
  | read (a : A)
  | write (a : A)
  deriving DecidableEq, Repr

def Access.cell {A : Type} : Access A → A
  | read a => a
  | write a => a

inductive MemM (A V α : Type) : Type
  | done (x : α)
  | read (a : A) (k : V → MemM A V α)
  | write (a : A) (v : V) (k : MemM A V α)

namespace MemM

variable {A V α β : Type}

protected def bind : MemM A V α → (α → MemM A V β) → MemM A V β
  | done x, f => f x
  | read a k, f => read a fun v => (k v).bind f
  | write a v k, f => write a v (k.bind f)

instance : Monad (MemM A V) where
  pure := done
  bind := MemM.bind

def load (a : A) : MemM A V V := read a pure

def store (a : A) (v : V) : MemM A V Unit := write a v (pure ())

/-- The loop `for (; j < bound; j++) body(j)`, at most `n` rounds of it. -/
def countUp (bound : MemM A V ℕ) (body : ℕ → MemM A V Unit) : ℕ → ℕ → MemM A V Unit
  | 0, _ => pure ()
  | n + 1, j => do
    if j < (← bound) then do
      body j
      countUp bound body n (j + 1)
    else pure ()

/-- The loop `for (j = lo; j < lo + n; j++) body(j)`. -/
def forRange (lo : ℕ) : ℕ → (ℕ → MemM A V Unit) → MemM A V Unit
  | 0, _ => pure ()
  | n + 1, body => do
    body lo
    forRange (lo + 1) n body

variable [DecidableEq A]

def value : MemM A V α → (A → V) → α
  | done x, _ => x
  | read a k, mem => (k (mem a)).value mem
  | write a v k, mem => k.value (Function.update mem a v)

def after : MemM A V α → (A → V) → A → V
  | done _, mem => mem
  | read a k, mem => (k (mem a)).after mem
  | write a v k, mem => k.after (Function.update mem a v)

def log : MemM A V α → (A → V) → List (Access A)
  | done _, _ => []
  | read a k, mem => .read a :: (k (mem a)).log mem
  | write a v k, mem => .write a :: k.log (Function.update mem a v)

section Run

variable (mem : A → V)

@[simp] theorem value_pure (x : α) : (pure x : MemM A V α).value mem = x := rfl

@[simp] theorem after_pure (x : α) : (pure x : MemM A V α).after mem = mem := rfl

@[simp] theorem value_load (a : A) : (load a : MemM A V V).value mem = mem a := rfl

@[simp] theorem after_load (a : A) : (load a : MemM A V V).after mem = mem := rfl

@[simp] theorem after_store (a : A) (v : V) :
    (store a v : MemM A V Unit).after mem = Function.update mem a v := rfl

@[simp] theorem value_bind (f : α → MemM A V β) :
    ∀ (p : MemM A V α) (mem : A → V),
      (p >>= f).value mem = (f (p.value mem)).value (p.after mem)
  | done _, _ => rfl
  | read a k, mem => value_bind f (k (mem a)) mem
  | write a v k, mem => value_bind f k (Function.update mem a v)

@[simp] theorem after_bind (f : α → MemM A V β) :
    ∀ (p : MemM A V α) (mem : A → V),
      (p >>= f).after mem = (f (p.value mem)).after (p.after mem)
  | done _, _ => rfl
  | read a k, mem => after_bind f (k (mem a)) mem
  | write a v k, mem => after_bind f k (Function.update mem a v)

theorem log_bind (f : α → MemM A V β) :
    ∀ (p : MemM A V α) (mem : A → V),
      (p >>= f).log mem = p.log mem ++ (f (p.value mem)).log (p.after mem)
  | done _, _ => rfl
  | read a k, mem => congrArg (_ :: ·) (log_bind f (k (mem a)) mem)
  | write a v k, mem => congrArg (_ :: ·) (log_bind f k (Function.update mem a v))

end Run

section Within

variable {P : Access A → Prop} {mem : A → V}

/-- Every access of the program has the property. -/
def Within (P : Access A → Prop) (p : MemM A V α) (mem : A → V) : Prop := ∀ x ∈ p.log mem, P x

@[simp] theorem within_pure (x : α) : Within P (pure x : MemM A V α) mem ↔ True := by
  simp [Within, pure, log]

@[simp] theorem within_load (a : A) : Within P (load a : MemM A V V) mem ↔ P (.read a) := by
  simp [Within, load, pure, log]

@[simp] theorem within_store (a : A) (v : V) :
    Within P (store a v : MemM A V Unit) mem ↔ P (.write a) := by
  simp [Within, store, pure, log]

theorem within_bind {p : MemM A V α} {f : α → MemM A V β} :
    Within P (p >>= f) mem
      ↔ Within P p mem ∧ Within P (f (p.value mem)) (p.after mem) := by
  rw [Within, log_bind, List.forall_mem_append]
  rfl

/-- From round `j` and one memory the loop comes to round `k` and another memory. -/
inductive Comes (bound : MemM A V ℕ) (body : ℕ → MemM A V Unit) :
    ℕ → (A → V) → ℕ → (A → V) → Prop
  | here {j : ℕ} {mem : A → V} : Comes bound body j mem j mem
  | next {j k : ℕ} {mem mem' : A → V} : j < bound.value mem →
      Comes bound body (j + 1) ((body j).after (bound.after mem)) k mem' →
      Comes bound body j mem k mem'

variable {bound : MemM A V ℕ} {body : ℕ → MemM A V Unit}

theorem Comes.snoc {j k : ℕ} {mem mem' : A → V} (h : Comes bound body j mem k mem')
    (hk : k < bound.value mem') :
    Comes bound body j mem (k + 1) ((body k).after (bound.after mem')) := by
  induction h with
  | here => exact .next hk .here
  | next hj _ ih => exact .next hj (ih hk)

/-- The accesses of a loop have the property just when those of every round it comes to do. -/
theorem within_countUp_iff {b : ℕ} (hb : ∀ mem, bound.value mem < b) (n : ℕ) :
    ∀ (j : ℕ) (mem : A → V), j < b → b ≤ n + j →
      (Within P (countUp bound body n j) mem ↔ ∀ k mem', Comes bound body j mem k mem' →
        Within P bound mem' ∧ (k < bound.value mem' → Within P (body k) (bound.after mem'))) := by
  induction n with
  | zero =>
    intro j mem hj hle
    omega
  | succ n ih =>
    intro j mem hj hle
    rw [countUp, within_bind]
    by_cases hlt : j < bound.value mem
    · rw [if_pos hlt, within_bind, ih (j + 1) _ (by have := hb mem; omega) (by omega)]
      constructor
      · rintro ⟨hbound, hbody, hrest⟩ k mem' (_ | ⟨-, hc⟩)
        · exact ⟨hbound, fun _ => hbody⟩
        · exact hrest k mem' hc
      · intro h
        obtain ⟨hbound, hbody⟩ := h j mem .here
        exact ⟨hbound, hbody hlt, fun k mem' hc => h k mem' (.next hlt hc)⟩
    · rw [if_neg hlt, within_pure, and_true]
      constructor
      · rintro hbound k mem' (_ | ⟨hlt', -⟩)
        · exact ⟨hbound, fun hlt' => absurd hlt' hlt⟩
        · exact absurd hlt' hlt
      · exact fun h => (h j mem .here).1

/-- From round `j` the loop comes to the rounds up to `b` and to no others, with an invariant. -/
structure CountsTo (bound : MemM A V ℕ) (body : ℕ → MemM A V Unit) (I : ℕ → (A → V) → Prop)
    (n j b : ℕ) (mem : A → V) : Prop where
  only : ∀ k mem', Comes bound body j mem k mem' → I k mem' ∧ k ≤ b
  each : ∀ k, j ≤ k → k ≤ b → ∃ mem', Comes bound body j mem k mem'
  leaves : I b ((countUp bound body n j).after mem)

/-- It does if its bound stays `b` under the invariant. -/
theorem countUp_countsTo {b : ℕ} {I : ℕ → (A → V) → Prop}
    (hbound : ∀ j mem, I j mem → bound.value mem = b ∧ bound.after mem = mem)
    (hbody : ∀ j mem, j < b → I j mem → I (j + 1) ((body j).after mem)) (n : ℕ) :
    ∀ (j : ℕ) (mem : A → V), j ≤ b → b ≤ n + j → I j mem → CountsTo bound body I n j b mem := by
  have hdone : ∀ {mem : A → V} {n : ℕ}, I b mem → CountsTo bound body I n b b mem := by
    intro mem n hI
    obtain ⟨hvalue, hafter⟩ := hbound b mem hI
    refine ⟨?_, fun k h1 h2 => ?_, ?_⟩
    · rintro k mem' (_ | ⟨hlt, -⟩)
      · exact ⟨hI, le_rfl⟩
      · omega
    · obtain rfl := Nat.le_antisymm h1 h2
      exact ⟨mem, .here⟩
    · cases n with
      | zero => exact hI
      | succ n =>
        rw [countUp, after_bind, hvalue, if_neg (lt_irrefl b), hafter]
        exact hI
  induction n with
  | zero =>
    intro j mem hj hb hI
    obtain rfl : j = b := by omega
    exact hdone hI
  | succ n ih =>
    intro j mem hj hb hI
    obtain ⟨hvalue, hafter⟩ := hbound j mem hI
    rcases hj.eq_or_lt with rfl | hlt
    · exact hdone hI
    · have hrest := ih (j + 1) _ hlt (by omega) (hbody j mem hlt hI)
      refine ⟨?_, fun k h1 h2 => ?_, ?_⟩
      · rintro k mem' (_ | ⟨-, hc⟩)
        · exact ⟨hI, hj⟩
        · rw [hafter] at hc
          exact hrest.only k mem' hc
      · rcases h1.eq_or_lt with rfl | h1
        · exact ⟨mem, .here⟩
        · obtain ⟨mem', hc⟩ := hrest.each k h1 h2
          exact ⟨mem', .next (by omega) (by rwa [hafter])⟩
      · rw [countUp, after_bind, hvalue, hafter, if_pos hlt, after_bind]
        exact hrest.leaves

/-- A loop whose rounds keep an invariant and stay inside the property. -/
theorem forRange_spec {I : ℕ → (A → V) → Prop} (n : ℕ) :
    ∀ (lo : ℕ) (mem : A → V),
      (∀ j mem, lo ≤ j → j < lo + n → I j mem →
        Within P (body j) mem ∧ I (j + 1) ((body j).after mem)) →
      I lo mem →
      Within P (forRange lo n body) mem ∧ I (lo + n) ((forRange lo n body).after mem) := by
  induction n with
  | zero =>
    intro lo mem _ hI
    exact ⟨within_pure () |>.2 trivial, hI⟩
  | succ n ih =>
    intro lo mem hbody hI
    obtain ⟨hwithin, hnext⟩ := hbody lo mem le_rfl (by omega) hI
    obtain ⟨hrest, hend⟩ := ih (lo + 1) _
      (fun j mem hlo hj => hbody j mem (by omega) (by omega)) hnext
    rw [forRange, within_bind, after_bind]
    refine ⟨⟨hwithin, hrest⟩, ?_⟩
    rwa [show lo + (n + 1) = lo + 1 + n by omega]

end Within

section Stores

variable {P : Access A → Prop} (lo n w : ℕ) (a : ℕ → ℕ → A) (v : ℕ → ℕ → V) (mem₀ : A → V)

/-- The rounds of the two loops before round `k` of row `j`. -/
def Earlier (j k j' k' : ℕ) : Prop := lo ≤ j' ∧ j' < lo + n ∧ k' < w ∧ (j' < j ∨ j' = j ∧ k' < k)

/-- The rounds before round `k` of row `j` have each stored a value, and changed nothing else. -/
structure StoredBefore (j k : ℕ) (mem : A → V) : Prop where
  stored : ∀ j' k', Earlier lo n w j k j' k' → mem (a j' k') = v j' k'
  kept : ∀ b, (∀ j' k', Earlier lo n w j k j' k' → b ≠ a j' k') → mem b = mem₀ b

variable {lo n w a v mem₀}

theorem StoredBefore.store
    (hinj : ∀ j k j' k', lo ≤ j → j < lo + n → k < w → lo ≤ j' → j' < lo + n → k' < w →
      a j k = a j' k' → j = j' ∧ k = k')
    {j k : ℕ} (hlo : lo ≤ j) (hj : j < lo + n) (hk : k < w) {mem : A → V}
    (h : StoredBefore lo n w a v mem₀ j k mem) :
    StoredBefore lo n w a v mem₀ j (k + 1) (Function.update mem (a j k) (v j k)) where
  stored j' k' := by
    rintro ⟨hlo', hj', hk', hbefore⟩
    by_cases hsame : j' = j ∧ k' = k
    · obtain ⟨rfl, rfl⟩ := hsame
      exact Function.update_self ..
    · have hne : a j' k' ≠ a j k := fun heq => hsame (hinj _ _ _ _ hlo' hj' hk' hlo hj hk heq)
      rw [Function.update_of_ne hne]
      exact h.stored j' k' ⟨hlo', hj', hk', by omega⟩
  kept b hb := by
    have hne : b ≠ a j k := hb j k ⟨hlo, hj, hk, by omega⟩
    rw [Function.update_of_ne hne]
    refine h.kept b fun j' k' hbefore => hb j' k' ?_
    obtain ⟨hlo', hj', hk', hlt⟩ := hbefore
    exact ⟨hlo', hj', hk', by omega⟩

theorem earlier_row {j j' k' : ℕ} : Earlier lo n w (j + 1) 0 j' k' ↔ Earlier lo n w j w j' k' := by
  unfold Earlier
  omega

omit [DecidableEq A] in
theorem StoredBefore.row {j : ℕ} {mem : A → V} (h : StoredBefore lo n w a v mem₀ j w mem) :
    StoredBefore lo n w a v mem₀ (j + 1) 0 mem where
  stored j' k' hbefore := h.stored j' k' (earlier_row.1 hbefore)
  kept b hb := h.kept b fun j' k' hbefore => hb j' k' (earlier_row.2 hbefore)

variable (lo n w a v mem₀) in
/-- Two loops, one in the other, each round of which stores a value to a cell of its own. What the
value is may depend on the cells no earlier round has stored to. -/
theorem forRange_stores (body : ℕ → ℕ → MemM A V Unit)
    (hinj : ∀ j k j' k', lo ≤ j → j < lo + n → k < w → lo ≤ j' → j' < lo + n → k' < w →
      a j k = a j' k' → j = j' ∧ k = k')
    (hbody : ∀ j k mem, lo ≤ j → j < lo + n → k < w →
      (∀ b, (∀ j' k', Earlier lo n w j k j' k' → b ≠ a j' k') → mem b = mem₀ b) →
      Within P (body j k) mem ∧ (body j k).after mem = Function.update mem (a j k) (v j k)) :
    Within P (forRange lo n fun j => forRange 0 w (body j)) mem₀
      ∧ StoredBefore lo n w a v mem₀ (lo + n) 0
        ((forRange lo n fun j => forRange 0 w (body j)).after mem₀) := by
  refine forRange_spec (I := fun j => StoredBefore lo n w a v mem₀ j 0) n lo mem₀ ?_ ?_
  · intro j mem hlo hj hI
    have hround : ∀ k mem, 0 ≤ k → k < 0 + w → StoredBefore lo n w a v mem₀ j k mem →
        Within P (body j k) mem
          ∧ StoredBefore lo n w a v mem₀ j (k + 1) ((body j k).after mem) := by
      intro k mem _ hk hI
      rw [Nat.zero_add] at hk
      obtain ⟨hwithin, hafter⟩ := hbody j k mem hlo hj hk hI.kept
      rw [hafter]
      exact ⟨hwithin, hI.store hinj hlo hj hk⟩
    have hrow := forRange_spec w 0 mem hround hI
    rw [Nat.zero_add] at hrow
    exact ⟨hrow.1, hrow.2.row⟩
  · have hnone : ∀ j' k', ¬ Earlier lo n w lo 0 j' k' := by
      unfold Earlier
      omega
    exact ⟨fun j' k' h => absurd h (hnone j' k'), fun b _ => rfl⟩

end Stores

end MemM
