import PeanutKernel.Lib.Query
import Mathlib.Data.Option.Defs

/-!
# Programs against a machine

The table of answers of a `Query` is fixed. What a machine answers may depend on what it was asked
before: `exec` runs a program against one, and `asked` is what the program asks of it.

A layer over another one answers each of its questions by a program over the questions below
(`translate`). If the machine below takes the program of each question the way the machine above
takes the question, it takes the programs over the layer that way (`exec_translate`).

What a program does whatever it is answered is told by its structure: `Always C P` says that it asks
only what `C` allows and returns only what `P` allows (`Always.asked`).
-/

namespace Query

variable {Q R Q' R' σ τ ι α β : Type}

section Exec

variable (serve : σ → Q → R × σ)

/-- The result, and the machine the program leaves. -/
def exec : Query Q R α → σ → Option (α × σ)
  | done a, s => some (a, s)
  | ask q k, s => (k (serve s q).1).exec (serve s q).2
  | diverge, _ => none

/-- The questions of the program, in order. -/
def asked : Query Q R α → σ → List Q
  | done _, _ => []
  | ask q k, s => q :: (k (serve s q).1).asked (serve s q).2
  | diverge, _ => []

@[simp] theorem exec_pure (a : α) (s : σ) :
    (pure a : Query Q R α).exec serve s = some (a, s) := rfl

@[simp] theorem exec_ask (q : Q) (k : R → Query Q R α) (s : σ) :
    (ask q k).exec serve s = (k (serve s q).1).exec serve (serve s q).2 := rfl

theorem exec_bind (f : α → Query Q R β) :
    ∀ (p : Query Q R α) (s : σ),
      (p >>= f).exec serve s = (p.exec serve s).bind fun x => (f x.1).exec serve x.2
  | done _, _ => rfl
  | ask q k, s => exec_bind f (k (serve s q).1) (serve s q).2
  | diverge, _ => rfl

theorem asked_bind (f : α → Query Q R β) :
    ∀ (p : Query Q R α) (s : σ),
      (p >>= f).asked serve s
        = p.asked serve s ++ (p.exec serve s).elim [] fun x => (f x.1).asked serve x.2
  | done _, _ => rfl
  | ask q k, s => congrArg (q :: ·) (asked_bind f (k (serve s q).1) (serve s q).2)
  | diverge, _ => rfl

end Exec

/-- The questions one after the other, whatever the answers. -/
def askAll : List Q → Query Q R Unit
  | [] => pure ()
  | q :: qs => ask q fun _ => askAll qs

theorem exec_askAll (serve : σ → Q → R × σ) :
    ∀ (qs : List Q) (s : σ),
      (askAll qs : Query Q R Unit).exec serve s = some ((), qs.foldl (fun s q => (serve s q).2) s)
  | [], _ => rfl
  | q :: qs, s => exec_askAll serve qs (serve s q).2

section FirstSome

/-- The programs one after the other, up to the first that has a result. -/
def firstSome (f : ι → Query Q R (Option α)) : List ι → Query Q R (Option α)
  | [] => pure none
  | i :: is => do
    match ← f i with
    | some a => pure (some a)
    | none => firstSome f is

theorem run_firstSome {ans : Q → R} {f : ι → Query Q R (Option α)} {g : ι → Option α} :
    ∀ is : List ι, (∀ i ∈ is, (f i).run ans = some (g i)) →
      (firstSome f is).run ans = some (is.findSome? g)
  | [], _ => rfl
  | i :: is, h => by
    rw [List.forall_mem_cons] at h
    rw [firstSome, run_bind_some ans h.1, List.findSome?_cons]
    cases g i with
    | none => exact run_firstSome is h.2
    | some a => rfl

end FirstSome

section Translate

/-- Each question answered by a program over other questions. -/
def translate (f : Q → Query Q' R' R) : Query Q R α → Query Q' R' α
  | done a => done a
  | ask q k => f q >>= fun r => (k r).translate f
  | diverge => diverge

variable {serve : σ → Q → R × σ} {serve' : τ → Q' → R' × τ} {f : Q → Query Q' R' R}
  {S : σ → τ → Prop} {P : Q → Prop}

theorem exec_translate
    (hstep : ∀ q s t, P q → S s t →
      ∃ t', (f q).exec serve' t = some ((serve s q).1, t') ∧ S (serve s q).2 t') :
    ∀ (p : Query Q R α) {s : σ} {t : τ}, S s t → (∀ q ∈ p.asked serve s, P q) →
      Option.Rel (fun x y => x.1 = y.1 ∧ S x.2 y.2) (p.exec serve s)
        ((p.translate f).exec serve' t)
  | done _, _, _, hS, _ => .some ⟨rfl, hS⟩
  | ask q k, s, t, hS, h => by
    rw [asked, List.forall_mem_cons] at h
    obtain ⟨t', hq, hS'⟩ := hstep q s t h.1 hS
    rw [translate, exec_bind, hq]
    exact exec_translate hstep (k (serve s q).1) hS' h.2
  | diverge, _, _, _, _ => .none

end Translate

section Always

variable {C : Q → Prop} {P : α → Prop} {P₂ : β → Prop}

/-- Whatever the answers, every question is one of `C` and the result one of `P`. -/
def Always (C : Q → Prop) (P : α → Prop) : Query Q R α → Prop
  | done a => P a
  | ask q k => C q ∧ ∀ r, (k r).Always C P
  | diverge => True

theorem always_pure {a : α} : (pure a : Query Q R α).Always C P ↔ P a := Iff.rfl

theorem Always.bind {f : α → Query Q R β} (hf : ∀ a, P a → (f a).Always C P₂) :
    ∀ {p : Query Q R α}, p.Always C P → (p >>= f).Always C P₂
  | done a, h => hf a h
  | ask _ _, h => ⟨h.1, fun r => (h.2 r).bind hf⟩
  | diverge, _ => trivial

theorem Always.translate {f : Q → Query Q' R' R} {D : Q' → Prop}
    (hf : ∀ q, C q → (f q).Always D fun _ => True) :
    ∀ {p : Query Q R α}, p.Always C P → (p.translate f).Always D P
  | done _, h => h
  | ask q _, h => (hf q h.1).bind fun r _ => (h.2 r).translate hf
  | diverge, _ => trivial

theorem Always.firstSome {f : ι → Query Q R (Option α)} :
    ∀ {is : List ι}, (∀ i ∈ is, (f i).Always C fun o => ∀ a ∈ o, P a) →
      (firstSome f is).Always C fun o => ∀ a ∈ o, P a
  | [], _ => by simp [Query.firstSome, always_pure]
  | i :: is, h => by
    rw [List.forall_mem_cons] at h
    refine h.1.bind fun o ho => ?_
    cases o with
    | none => exact Always.firstSome h.2
    | some a => exact ho

variable {serve : σ → Q → R × σ}

theorem Always.asked :
    ∀ {p : Query Q R α}, p.Always C P → ∀ s : σ, ∀ q ∈ p.asked serve s, C q
  | done _, _, _ => by simp [Query.asked]
  | ask _ _, h, s => List.forall_mem_cons.2 ⟨h.1, (h.2 _).asked (serve s _).2⟩
  | diverge, _, _ => by simp [Query.asked]

/-- To a program that asks only what leaves the machine as it is, the machine is a table. -/
theorem Always.exec {ans : Q → R} {s : σ} (hserve : ∀ q, C q → serve s q = (ans q, s)) :
    ∀ {p : Query Q R α}, p.Always C P → p.exec serve s = (p.run ans).map fun a => (a, s)
  | done _, _ => rfl
  | ask q k, h => by
    rw [Query.exec_ask, hserve q h.1, Query.run]
    exact (h.2 _).exec hserve
  | diverge, _ => rfl

end Always

end Query
