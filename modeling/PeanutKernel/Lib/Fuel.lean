import PeanutKernel.Lib.Query

/-!
# Programs with fuel

A program whose loops take fuel stands for the program without: it yields what it returns with
enough fuel. If more fuel never changes a result (`FuelMono`), there is one result at most, and a
sequence of two programs finishes when the first does and the second does on its result
(`finishes_bind`). If more fuel changes neither the result nor the questions (`Steady`), the same
holds of the questions asked on the way to the result (`settles_bind`).
-/

namespace Query

variable {Q R α β : Type} (ans : Q → R)

def Yields (p : ℕ → Query Q R α) (a : α) : Prop := ∃ fuel, (p fuel).run ans = some a

def Finishes (p : ℕ → Query Q R α) : Prop := ∃ a, Yields ans p a

def FuelMono (p : ℕ → Query Q R α) : Prop :=
  ∀ fuel a, (p fuel).run ans = some a → (p (fuel + 1)).run ans = some a

variable {ans} {p : ℕ → Query Q R α} {f : ℕ → α → Query Q R β} {a b : α}

theorem isSome_run_bind {q : Query Q R α} {g : α → Query Q R β} (hq : (q.run ans).isSome)
    (hg : ∀ a, ((g a).run ans).isSome) : ((q >>= g).run ans).isSome := by
  obtain ⟨a, ha⟩ := Option.isSome_iff_exists.1 hq
  rw [run_bind_some ans ha]
  exact hg a

theorem finishes_iff : Finishes ans p ↔ ∃ fuel, ((p fuel).run ans).isSome := by
  simp only [Finishes, Yields, Option.isSome_iff_exists]
  exact exists_comm

theorem FuelMono.le (h : FuelMono ans p) {fuel fuel' : ℕ} (hle : fuel ≤ fuel')
    (ha : (p fuel).run ans = some a) : (p fuel').run ans = some a := by
  induction hle with
  | refl => exact ha
  | step _ ih => exact h _ _ ih

theorem Yields.unique (h : FuelMono ans p) (ha : Yields ans p a) (hb : Yields ans p b) : a = b := by
  obtain ⟨n, hn⟩ := ha
  obtain ⟨k, hk⟩ := hb
  have := (h.le (Nat.le_max_left n k) hn).symm.trans (h.le (Nat.le_max_right n k) hk)
  exact Option.some_inj.1 this

theorem fuelMono_const (q : Query Q R α) : FuelMono ans fun _ => q := fun _ _ h => h

theorem yields_const {q : Query Q R α} : Yields ans (fun _ => q) a ↔ q.run ans = some a :=
  ⟨fun ⟨_, h⟩ => h, fun h => ⟨0, h⟩⟩

theorem finishes_const {q : Query Q R α} : Finishes ans (fun _ => q) ↔ (q.run ans).isSome := by
  simp only [Finishes, yields_const, Option.isSome_iff_exists]

section

variable (hp : FuelMono ans p) (hf : ∀ a, FuelMono ans (f · a))

include hp hf

theorem fuelMono_bind : FuelMono ans fun fuel => p fuel >>= f fuel := by
  intro fuel b h
  rw [run_bind, Option.bind_eq_some_iff] at h ⊢
  obtain ⟨a, ha, hb⟩ := h
  exact ⟨a, hp fuel a ha, hf a fuel b hb⟩

theorem yields_bind {b : β} :
    Yields ans (fun fuel => p fuel >>= f fuel) b ↔ ∃ a, Yields ans p a ∧ Yields ans (f · a) b := by
  constructor
  · rintro ⟨fuel, h⟩
    rw [run_bind, Option.bind_eq_some_iff] at h
    obtain ⟨a, ha, hb⟩ := h
    exact ⟨a, ⟨fuel, ha⟩, ⟨fuel, hb⟩⟩
  · rintro ⟨a, ⟨n, hn⟩, ⟨k, hk⟩⟩
    refine ⟨max n k, ?_⟩
    rw [run_bind, hp.le (Nat.le_max_left n k) hn, Option.bind_some]
    exact (hf a).le (Nat.le_max_right n k) hk

theorem finishes_bind :
    Finishes ans (fun fuel => p fuel >>= f fuel)
      ↔ Finishes ans p ∧ ∀ a, Yields ans p a → Finishes ans (f · a) := by
  simp only [Finishes, yields_bind hp hf]
  constructor
  · rintro ⟨b, a, ha, hb⟩
    refine ⟨⟨a, ha⟩, fun a' ha' => ?_⟩
    rw [ha'.unique hp ha]
    exact ⟨b, hb⟩
  · rintro ⟨⟨a, ha⟩, h⟩
    obtain ⟨b, hb⟩ := h a ha
    exact ⟨b, a, ha, hb⟩

end

theorem finishes_bind_const {g : α → Query Q R β} (hp : FuelMono ans p) :
    Finishes ans (fun fuel => p fuel >>= g)
      ↔ Finishes ans p ∧ ∀ a, Yields ans p a → ((g a).run ans).isSome := by
  rw [finishes_bind (f := fun _ => g) hp fun a => fuelMono_const (g a)]
  simp only [finishes_const]

section AndThen

/-- The second program on the result of the first, unless that is an error. -/
def andThen (q : Query Q R (Option α)) (g : α → Query Q R (Option β)) : Query Q R (Option β) :=
  q >>= fun
    | none => pure none
    | some a => g a

theorem bind_eq_andThen {q : Query Q R (Option α)} {h : Option α → Query Q R (Option β)}
    {g : α → Query Q R (Option β)} (hnone : h none = pure none) (hsome : ∀ a, h (some a) = g a) :
    q >>= h = q.andThen g := by
  unfold andThen
  congr 1
  funext o
  rcases o with _ | a
  · exact hnone
  · exact hsome a

variable {q : ℕ → Query Q R (Option α)} {g : ℕ → α → Query Q R (Option β)}

theorem fuelMono_arms (hg : ∀ a, FuelMono ans (g · a)) (o : Option α) :
    FuelMono ans fun fuel => (match o with
      | none => pure none
      | some a => g fuel a : Query Q R (Option β)) := by
  rcases o with _ | a
  · exact fuelMono_const _
  · exact hg a

variable (hq : FuelMono ans q)

include hq

theorem fuelMono_andThen (hg : ∀ a, FuelMono ans (g · a)) :
    FuelMono ans fun fuel => (q fuel).andThen (g fuel) :=
  fuelMono_bind hq (fuelMono_arms hg)

theorem finishes_andThen (hg : ∀ a, FuelMono ans (g · a)) :
    Finishes ans (fun fuel => (q fuel).andThen (g fuel))
      ↔ Finishes ans q ∧ ∀ a, Yields ans q (some a) → Finishes ans (g · a) := by
  unfold andThen
  rw [finishes_bind hq (fuelMono_arms hg)]
  refine and_congr_right fun _ => ⟨fun h a ha => h (some a) ha, fun h o ho => ?_⟩
  rcases o with _ | a
  · exact finishes_const.2 rfl
  · exact h a ho

theorem finishes_andThen_const {g : α → Query Q R (Option β)} :
    Finishes ans (fun fuel => (q fuel).andThen g)
      ↔ Finishes ans q ∧ ∀ a, Yields ans q (some a) → ((g a).run ans).isSome := by
  rw [finishes_andThen (g := fun _ => g) hq fun a => fuelMono_const (g a)]
  simp only [finishes_const]

theorem yields_andThen (hg : ∀ a, FuelMono ans (g · a)) {r : Option β} :
    Yields ans (fun fuel => (q fuel).andThen (g fuel)) r
      ↔ Yields ans q none ∧ r = none ∨ ∃ a, Yields ans q (some a) ∧ Yields ans (g · a) r := by
  unfold andThen
  rw [yields_bind hq (fuelMono_arms hg)]
  constructor
  · rintro ⟨_ | a, ha, hr⟩
    · obtain ⟨_, hr⟩ := hr
      exact .inl ⟨ha, (Option.some_inj.1 hr).symm⟩
    · exact .inr ⟨a, ha, hr⟩
  · rintro (⟨hnone, rfl⟩ | ⟨a, ha, hr⟩)
    · exact ⟨none, hnone, 0, rfl⟩
    · exact ⟨some a, ha, hr⟩

end AndThen

section Settles

variable (ans) (P : Q → Prop)

/-- With enough fuel the program returns `a`, having asked only what `P` allows. -/
def Settles (p : ℕ → Query Q R α) (a : α) : Prop :=
  ∃ fuel, (p fuel).run ans = some a ∧ AsksOnly ans P (p fuel)

def Steady (p : ℕ → Query Q R α) : Prop :=
  ∀ fuel a, (p fuel).run ans = some a →
    (p (fuel + 1)).run ans = some a ∧ (p (fuel + 1)).trace ans = (p fuel).trace ans

variable {ans} {P}

theorem Settles.yields (h : Settles ans P p a) : Yields ans p a := by
  obtain ⟨fuel, hrun, -⟩ := h
  exact ⟨fuel, hrun⟩

theorem Steady.fuelMono (h : Steady ans p) : FuelMono ans p := fun fuel a ha => (h fuel a ha).1

theorem Steady.le (h : Steady ans p) {fuel fuel' : ℕ} (hle : fuel ≤ fuel')
    (ha : (p fuel).run ans = some a) :
    (p fuel').run ans = some a ∧ (p fuel').trace ans = (p fuel).trace ans := by
  induction hle with
  | refl => exact ⟨ha, rfl⟩
  | step _ ih =>
    obtain ⟨hrun, htrace⟩ := h _ _ ih.1
    exact ⟨hrun, htrace.trans ih.2⟩

theorem steady_const (q : Query Q R α) : Steady ans fun _ => q := fun _ _ h => ⟨h, rfl⟩

theorem settles_const {q : Query Q R α} :
    Settles ans P (fun _ => q) a ↔ q.run ans = some a ∧ AsksOnly ans P q :=
  ⟨fun ⟨_, h⟩ => h, fun h => ⟨0, h⟩⟩

theorem settles_pure : Settles ans P (fun _ => pure b) a ↔ a = b := by
  rw [settles_const, asksOnly_pure, run_pure, Option.some_inj, and_true]
  exact eq_comm

theorem steady_bind (hp : Steady ans p) (hf : ∀ a, Steady ans (f · a)) :
    Steady ans fun fuel => p fuel >>= f fuel := by
  intro fuel b h
  rw [run_bind, Option.bind_eq_some_iff] at h
  obtain ⟨a, ha, hb⟩ := h
  obtain ⟨ha', htrace⟩ := hp fuel a ha
  obtain ⟨hb', htrace'⟩ := hf a fuel b hb
  rw [run_bind, ha', trace_bind_some ans ha', trace_bind_some ans ha, htrace, htrace']
  exact ⟨hb', rfl⟩

theorem settles_bind (hp : Steady ans p) (hf : ∀ a, Steady ans (f · a)) {b : β} :
    Settles ans P (fun fuel => p fuel >>= f fuel) b
      ↔ ∃ a, Settles ans P p a ∧ Settles ans P (f · a) b := by
  constructor
  · rintro ⟨fuel, h, hP⟩
    rw [run_bind, Option.bind_eq_some_iff] at h
    obtain ⟨a, ha, hb⟩ := h
    obtain ⟨hPa, hPb⟩ := (asksOnly_bind ha _).1 hP
    exact ⟨a, ⟨fuel, ha, hPa⟩, ⟨fuel, hb, hPb⟩⟩
  · rintro ⟨a, ⟨n, hn, hPn⟩, ⟨k, hk, hPk⟩⟩
    obtain ⟨hn', htrace⟩ := hp.le (Nat.le_max_left n k) hn
    obtain ⟨hk', htrace'⟩ := (hf a).le (Nat.le_max_right n k) hk
    refine ⟨max n k, ?_, ?_⟩
    · rw [run_bind, hn']
      exact hk'
    · rw [asksOnly_bind hn', AsksOnly, AsksOnly, htrace, htrace']
      exact ⟨hPn, hPk⟩

section

variable {q : ℕ → Query Q R (Option α)} {g : ℕ → α → Query Q R (Option β)} (hq : Steady ans q)
  (hg : ∀ a, Steady ans (g · a))

include hq hg

theorem steady_andThen : Steady ans fun fuel => (q fuel).andThen (g fuel) := by
  refine steady_bind hq fun o => ?_
  rcases o with _ | a
  · exact steady_const _
  · exact hg a

theorem settles_andThen {r : Option β} :
    Settles ans P (fun fuel => (q fuel).andThen (g fuel)) r
      ↔ Settles ans P q none ∧ r = none
        ∨ ∃ a, Settles ans P q (some a) ∧ Settles ans P (g · a) r := by
  unfold andThen
  rw [settles_bind hq]
  · constructor
    · rintro ⟨_ | a, ha, hr⟩
      · exact .inl ⟨ha, settles_pure.1 hr⟩
      · exact .inr ⟨a, ha, hr⟩
    · rintro (⟨hnone, rfl⟩ | ⟨a, ha, hr⟩)
      · exact ⟨none, hnone, settles_pure.2 rfl⟩
      · exact ⟨some a, ha, hr⟩
  · rintro (_ | a)
    · exact steady_const _
    · exact hg a

end

theorem Settles.unique (h : Steady ans p) (ha : Settles ans P p a) (hb : Settles ans P p b) :
    a = b :=
  ha.yields.unique h.fuelMono hb.yields

theorem Steady.not_settles (h : Steady ans p) {fuel : ℕ} (hrun : (p fuel).run ans = some a) {q : Q}
    (hq : q ∈ (p fuel).trace ans) (hP : ¬ P q) : ¬ Settles ans P p b := by
  rintro ⟨fuel', hrun', hP'⟩
  have htrace := (h.le (Nat.le_max_left fuel fuel') hrun).2
  have htrace' := (h.le (Nat.le_max_right fuel fuel') hrun').2
  refine hP (hP' q ?_)
  rwa [← htrace', htrace]

end Settles

end Query
