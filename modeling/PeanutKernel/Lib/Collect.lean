import Mathlib.Order.Preorder.Finite
import Mathlib.Logic.Function.Iterate

/-!
# Collecting along links

A loop follows links from a node to the next and collects what each node shows, up to a bound on
the number of elements. It stops at a node it does not enter, one it cannot look at, or one that
shows an end. Nothing bounds the number of links, so the loop takes `fuel`.

If the links lead to an end, the loop collects all that is shown on the way, cut at the bound
(`collect_of_shows`). It fails to return just when the links go round through nodes that show
nothing before the bound is reached (`collect_returns_iff`). Along links some of which are cut it
collects where it would have begun (`Cut.collect`).
-/

structure Links (C E : Type*) where
  /-- The loop goes on with this node. -/
  enters : C → Bool
  /-- The elements a node shows and whether they end there; `none` if it cannot be looked at. -/
  view : C → Option (List E × Bool)
  next : C → C

namespace Links

variable {C E : Type*} (S : Links C E) (bound : ℕ)

/-- The loop from node `c` with the elements collected so far. An end behind more elements than
there is room for is not seen. -/
def collect : ℕ → C → List E → Option (List E)
  | 0, _, _ => none
  | fuel + 1, c, es =>
    if S.enters c ∧ es.length < bound then
      match S.view c with
      | none => some es
      | some (found, stop) =>
        if stop ∧ es.length + found.length < bound then some ((es ++ found).take bound)
        else collect fuel (S.next c) ((es ++ found).take bound)
    else some es

/-- The node `k` links from `c`. -/
def node (c : C) (k : ℕ) : C := S.next^[k] c

/-- From `c` on, `k` nodes are entered and show `l` without an end. -/
inductive Passes : C → ℕ → List E → Prop
  | zero (c : C) : Passes c 0 []
  | succ {c : C} {k : ℕ} {found l : List E} : S.enters c = true →
      S.view c = some (found, false) → Passes (S.next c) k l → Passes c (k + 1) (found ++ l)

/-- The links from `c` lead to an end, which the loop sees within `n` rounds, and the nodes on the
way show `l` in all. -/
inductive Shows : C → ℕ → List E → Prop
  | out {c : C} : S.enters c = false → Shows c 1 []
  | unseen {c : C} : S.view c = none → Shows c 1 []
  | stop {c : C} {l : List E} : S.enters c = true → S.view c = some (l, true) → Shows c 2 l
  | next {c : C} {n : ℕ} {found l : List E} : S.enters c = true →
      S.view c = some (found, false) → Shows (S.next c) n l → Shows c (n + 1) (found ++ l)

variable {S bound} {c : C} {es l : List E}

theorem node_add (c : C) (i k : ℕ) : S.node c (i + k) = S.node (S.node c i) k := by
  rw [node, Nat.add_comm, Function.iterate_add_apply]
  rfl

section Collect

theorem take_take_append (A B : List E) (n : ℕ) : (A.take n ++ B).take n = (A ++ B).take n := by
  rcases Nat.le_total A.length n with h | h
  · rw [List.take_of_length_le h]
  · rw [List.take_append_of_le_length h, List.take_append_of_le_length (by simpa using h),
      List.take_take, Nat.min_self]

theorem collect_full (h : bound ≤ es.length) (fuel : ℕ) (c : C) :
    S.collect bound (fuel + 1) c es = some es := by
  rw [collect, if_neg fun hc => Nat.not_lt.2 h hc.2]

theorem collect_mono (fuel : ℕ) :
    ∀ (c : C) (es : List E) {r : List E}, S.collect bound fuel c es = some r →
      S.collect bound (fuel + 1) c es = some r := by
  induction fuel with
  | zero =>
    intro c es r h
    cases h
  | succ fuel ih =>
    intro c es r h
    rw [collect] at h ⊢
    by_cases hgo : S.enters c ∧ es.length < bound
    · rw [if_pos hgo] at h ⊢
      rcases hv : S.view c with _ | ⟨found, stop⟩
      · simpa only [hv] using h
      · simp only [hv] at h ⊢
        by_cases hstop : stop = true ∧ es.length + found.length < bound
        · rwa [if_pos hstop] at h ⊢
        · rw [if_neg hstop] at h ⊢
          exact ih _ _ h
    · rwa [if_neg hgo] at h ⊢

theorem collect_mono_le {fuel fuel' : ℕ} {r : List E} (h : S.collect bound fuel c es = some r)
    (hle : fuel ≤ fuel') : S.collect bound fuel' c es = some r := by
  induction fuel', hle using Nat.le_induction with
  | base => exact h
  | succ n _ ih => exact collect_mono n c es ih

/-- Links that lead to an end: all that is shown is collected, up to the bound. -/
theorem collect_of_shows {n : ℕ} (h : S.Shows c n l) :
    ∀ (fuel : ℕ) (es : List E), n ≤ fuel → es.length ≤ bound →
      S.collect bound fuel c es = some ((es ++ l).take bound) := by
  have hfull : ∀ (fuel : ℕ) (c : C) (es l : List E), 1 ≤ fuel → es.length = bound →
      S.collect bound fuel c es = some ((es ++ l).take bound) := by
    intro fuel c es l hfuel heq
    obtain ⟨fuel, rfl⟩ : ∃ f, fuel = f + 1 := ⟨fuel - 1, by omega⟩
    rw [collect_full heq.ge, ← heq, List.take_left]
  induction h with
  | out hout =>
    intro fuel es hfuel hes
    obtain ⟨fuel, rfl⟩ : ∃ f, fuel = f + 1 := ⟨fuel - 1, by omega⟩
    rw [collect, if_neg (by simp [hout]), List.append_nil, List.take_of_length_le hes]
  | unseen hview =>
    intro fuel es hfuel hes
    obtain ⟨fuel, rfl⟩ : ∃ f, fuel = f + 1 := ⟨fuel - 1, by omega⟩
    rw [collect, List.append_nil, List.take_of_length_le hes]
    split_ifs
    · simp only [hview]
    · rfl
  | stop henter hview =>
    intro fuel es hfuel hes
    obtain ⟨fuel, rfl⟩ : ∃ f, fuel = f + 1 + 1 := ⟨fuel - 2, by omega⟩
    rcases hes.lt_or_eq with hlt | heq
    · rw [collect, if_pos ⟨henter, hlt⟩]
      simp only [hview, true_and]
      split_ifs with hroom
      · rfl
      · exact collect_full (by rw [List.length_take, List.length_append]; omega) _ _
    · exact hfull _ _ _ _ (by omega) heq
  | next henter hview _ ih =>
    intro fuel es hfuel hes
    obtain ⟨fuel, rfl⟩ : ∃ f, fuel = f + 1 := ⟨fuel - 1, by omega⟩
    rcases hes.lt_or_eq with hlt | heq
    · rw [collect, if_pos ⟨henter, hlt⟩]
      simp only [hview, Bool.false_eq_true, false_and, if_false]
      rw [ih fuel _ (by omega) (List.length_take_le _ _), take_take_append, List.append_assoc]
    · exact hfull _ _ _ _ (by omega) heq

end Collect

section Returns

variable (S bound)

/-- However far the links are followed, every node is entered and shows no end, and all of them
together show fewer elements than the bound. -/
def Endless (c : C) : Prop := ∀ k, ∃ l, S.Passes c k l ∧ l.length < bound

/-- After `l` elements, fewer than the bound, the links go round through nodes that show nothing. -/
def Circles (c : C) : Prop :=
  ∃ i d l, 0 < d ∧ S.Passes c i l ∧ l.length < bound ∧ S.Passes (S.node c i) d [] ∧
    S.node c (i + d) = S.node c i

variable {S bound}

theorem Passes.enters {k : ℕ} (h : S.Passes c (k + 1) l) :
    ∃ found rest, S.enters c = true ∧ S.view c = some (found, false) ∧
      S.Passes (S.next c) k rest ∧ l = found ++ rest := by
  cases h with
  | succ henter hview hrest => exact ⟨_, _, henter, hview, hrest, rfl⟩

theorem Passes.unique {k : ℕ} {l' : List E} (h : S.Passes c k l) :
    S.Passes c k l' → l = l' := by
  induction h generalizing l' with
  | zero c =>
    intro h'
    cases h'
    rfl
  | succ _ hview _ ih =>
    intro h'
    obtain ⟨found, rest, -, hview', hrest, rfl⟩ := h'.enters
    rw [hview, Option.some_inj, Prod.mk.injEq] at hview'
    rw [hview'.1, ih hrest]

theorem Passes.append {i k : ℕ} {l' : List E} (h : S.Passes c i l) :
    S.Passes (S.node c i) k l' → S.Passes c (i + k) (l ++ l') := by
  induction h with
  | zero c =>
    intro h'
    rwa [Nat.zero_add]
  | succ henter hview _ ih =>
    intro h'
    rw [Nat.add_right_comm, List.append_assoc]
    exact .succ henter hview (ih h')

theorem Passes.split {k : ℕ} (i : ℕ) :
    ∀ {c : C} {l : List E}, S.Passes c (i + k) l →
      ∃ l₁ l₂, S.Passes c i l₁ ∧ S.Passes (S.node c i) k l₂ ∧ l = l₁ ++ l₂ := by
  induction i with
  | zero =>
    intro c l h
    rw [Nat.zero_add] at h
    exact ⟨[], l, .zero c, h, rfl⟩
  | succ i ih =>
    intro c l h
    rw [Nat.add_right_comm] at h
    obtain ⟨found, rest, henter, hview, hrest, rfl⟩ := h.enters
    obtain ⟨l₁, l₂, h₁, h₂, rfl⟩ := ih hrest
    exact ⟨found ++ l₁, l₂, .succ henter hview h₁, h₂, (List.append_assoc _ _ _).symm⟩

/-- An endless loop never returns. -/
theorem collect_endless (fuel : ℕ) :
    ∀ (c : C) (es : List E), (∀ k, ∃ l, S.Passes c k l ∧ es.length + l.length < bound) →
      S.collect bound fuel c es = none := by
  induction fuel with
  | zero => exact fun _ _ _ => rfl
  | succ fuel ih =>
    intro c es h
    obtain ⟨l, hl, hlen⟩ := h 1
    obtain ⟨found, rest, henter, hview, -, rfl⟩ := hl.enters
    rw [List.length_append] at hlen
    rw [collect, if_pos ⟨henter, by omega⟩]
    simp only [hview, Bool.false_eq_true, false_and, if_false]
    rw [List.take_of_length_le (by rw [List.length_append]; omega)]
    refine ih _ _ fun k => ?_
    obtain ⟨l, hl, hlen⟩ := h (k + 1)
    obtain ⟨found', rest', -, hview', hrest, rfl⟩ := hl.enters
    rw [hview, Option.some_inj, Prod.mk.injEq] at hview'
    rw [hview'.1]
    exact ⟨rest', hrest, by rw [List.length_append] at hlen ⊢; omega⟩

/-- A loop that cannot pass `k` nodes with room left has returned by then. -/
theorem collect_isSome (k : ℕ) :
    ∀ (c : C) (es : List E), (∀ l, S.Passes c k l → bound ≤ es.length + l.length) →
      (S.collect bound (k + 1) c es).isSome := by
  induction k with
  | zero =>
    intro c es h
    have := h [] (.zero c)
    rw [List.length_nil, Nat.add_zero] at this
    rw [collect_full this]
    rfl
  | succ k ih =>
    intro c es h
    rw [collect]
    split_ifs with hgo
    · rcases hv : S.view c with _ | ⟨found, stop⟩
      · rfl
      · simp only
        split_ifs with hstop
        · rfl
        · rcases stop with _ | _
          · refine ih _ _ fun l hl => ?_
            have := h _ (.succ hgo.1 hv hl)
            rw [List.length_append] at this
            rw [List.length_take, List.length_append]
            omega
          · have hfull : ¬ es.length + found.length < bound := fun hlt => hstop ⟨rfl, hlt⟩
            rw [collect_full (by rw [List.length_take, List.length_append]; omega)]
            rfl
    · rfl

theorem collect_returns_iff_not_endless :
    (∃ fuel, (S.collect bound fuel c []).isSome) ↔ ¬ S.Endless bound c := by
  constructor
  · rintro ⟨fuel, hsome⟩ h
    rw [collect_endless fuel c [] (by simpa [Endless] using h)] at hsome
    cases hsome
  · intro h
    obtain ⟨k, hk⟩ := not_forall.1 h
    refine ⟨k + 1, collect_isSome k c [] fun l hl => ?_⟩
    by_contra hlt
    exact hk ⟨l, hl, by rw [List.length_nil] at hlt; omega⟩

theorem Passes.circle {d : ℕ} (h : S.Passes c d []) (hc : S.node c d = c) :
    ∀ t, S.Passes c (d * t) [] ∧ S.node c (d * t) = c
  | 0 => ⟨.zero c, rfl⟩
  | t + 1 => by
    obtain ⟨hpass, hnode⟩ := h.circle hc t
    refine ⟨hpass.append (hnode.symm ▸ h), ?_⟩
    rw [Nat.mul_succ, node_add, hnode, hc]

theorem Circles.endless (h : S.Circles bound c) : S.Endless bound c := by
  obtain ⟨i, d, l, hd, hpass, hlen, hround, hback⟩ := h
  intro k
  rw [node_add] at hback
  have hall := hpass.append (hround.circle hback k).1
  have hle : k ≤ i + d * k := (Nat.le_mul_of_pos_left k hd).trans (Nat.le_add_left _ _)
  rw [show i + d * k = k + (i + d * k - k) by omega] at hall
  obtain ⟨l₁, l₂, h₁, -, heq⟩ := hall.split k
  refine ⟨l₁, h₁, ?_⟩
  have := congrArg List.length heq
  rw [List.append_nil, List.length_append] at this
  omega

theorem Endless.circles (h : S.Endless bound c) (hfin : {c | S.enters c = true}.Finite) :
    S.Circles bound c := by
  choose L hpass hlen using h
  have hsplit : ∀ i k, ∃ l, S.Passes (S.node c i) k l ∧ L (i + k) = L i ++ l := by
    intro i k
    obtain ⟨l₁, l₂, h₁, h₂, heq⟩ := (hpass (i + k)).split i
    exact ⟨l₂, h₂, by rw [heq, h₁.unique (hpass i)]⟩
  -- from some node on nothing more is shown
  obtain ⟨K, hK⟩ : ∃ K, ∀ k, (L k).length ≤ (L K).length := by
    by_contra hno
    push Not at hno
    have hgrow : ∀ n, ∃ k, n ≤ (L k).length := by
      intro n
      induction n with
      | zero => exact ⟨0, Nat.zero_le _⟩
      | succ n ih =>
        obtain ⟨k, hk⟩ := ih
        obtain ⟨k', hk'⟩ := hno k
        exact ⟨k', by omega⟩
    obtain ⟨k, hk⟩ := hgrow bound
    have := hlen k
    omega
  have henters : ∀ j, S.node c (K + j) ∈ {c | S.enters c = true} := by
    intro j
    obtain ⟨l, hl, -⟩ := hsplit (K + j) 1
    obtain ⟨-, -, henter, -⟩ := hl.enters
    exact henter
  obtain ⟨j, j', hjj, heq⟩ := Set.Finite.exists_lt_map_eq_of_forall_mem henters hfin
  obtain ⟨l, hl, hadd⟩ := hsplit (K + j) (j' - j)
  obtain ⟨l', -, hadd'⟩ := hsplit K j
  have hnil : l = [] := by
    have h1 := congrArg List.length hadd
    have h2 := congrArg List.length hadd'
    have h3 := hK (K + j + (j' - j))
    rw [List.length_append] at h1 h2
    exact List.length_eq_zero_iff.1 (by omega)
  refine ⟨K + j, j' - j, L (K + j), by omega, hpass _, hlen _, hnil ▸ hl, ?_⟩
  rw [heq, show K + j + (j' - j) = K + j' by omega]

/-- The loop returns unless the links go round through nodes that show nothing. -/
theorem collect_returns_iff (hfin : {c | S.enters c = true}.Finite) :
    (∃ fuel, (S.collect bound fuel c []).isSome) ↔ ¬ S.Circles bound c := by
  rw [collect_returns_iff_not_endless, not_iff_not]
  exact ⟨fun h => h.circles hfin, Circles.endless⟩

end Returns

section Cut

variable (S bound) in
/-- After `n` elements the loop goes on behind a node of `X`, with room left. -/
def ComesBehind (X : C → Prop) (n : ℕ) (c : C) : Prop :=
  ∃ k l, S.Passes c (k + 1) l ∧ n + l.length < bound ∧ X (S.node c k)

/-- `S'` is `S` with nodes that cannot be looked at and links that lead nowhere, but for the links
of the nodes of `X`. -/
structure Cut (S S' : Links C E) (X : C → Prop) : Prop where
  enters : ∀ c, S'.enters c = S.enters c
  view : ∀ c, S'.view c = none ∨ S'.view c = S.view c
  next : ∀ c, ¬ X c → S'.enters (S'.next c) = false ∨ S'.next c = S.next c

variable {S' : Links C E} {X : C → Prop}

theorem ComesBehind.next {n : ℕ} {found : List E} (henter : S.enters c = true)
    (hview : S.view c = some (found, false))
    (h : S.ComesBehind bound X (n + found.length) (S.next c)) : S.ComesBehind bound X n c := by
  obtain ⟨k, l, hpass, hlen, hX⟩ := h
  refine ⟨k + 1, found ++ l, .succ henter hview hpass, ?_, hX⟩
  rw [List.length_append]
  omega

theorem prefix_take_append (found : List E) (h : es.length ≤ bound) :
    es <+: (es ++ found).take bound :=
  List.prefix_take_iff.2 ⟨List.prefix_append _ _, h⟩

theorem collect_extends (fuel : ℕ) :
    ∀ (c : C) (es : List E) {r : List E}, S.collect bound fuel c es = some r → es <+: r := by
  induction fuel with
  | zero =>
    intro c es r h
    cases h
  | succ fuel ih =>
    intro c es r h
    rw [collect] at h
    split_ifs at h with hgo
    · rcases hv : S.view c with _ | ⟨found, stop⟩
      · simp only [hv, Option.some_inj] at h
        rw [h]
      · have hext := prefix_take_append found hgo.2.le
        simp only [hv] at h
        split_ifs at h with hstop
        · rw [Option.some_inj] at h
          rwa [← h]
        · exact hext.trans (ih _ _ h)
    · rw [Option.some_inj] at h
      rw [h]

theorem collect_out (fuel : ℕ) {r : List E} (hout : ¬ (S.enters c = true ∧ es.length < bound))
    (h : S.collect bound fuel c es = some r) : r = es := by
  cases fuel with
  | zero => cases h
  | succ fuel =>
    rw [collect, if_neg hout, Option.some_inj] at h
    exact h.symm

/-- What the loop collects along links that are cut is where the other one begins, if it does not
come behind a node of `X`. -/
theorem Cut.collect (hcut : Cut S S' X) (fuel' : ℕ) :
    ∀ (fuel : ℕ) (c : C) (es : List E) {r r' : List E},
      ¬ S'.ComesBehind bound X es.length c → S.collect bound fuel c es = some r →
      S'.collect bound fuel' c es = some r' → r' <+: r := by
  induction fuel' with
  | zero =>
    intro fuel c es r r' _ _ h'
    cases h'
  | succ fuel' ih =>
    intro fuel c es r r' hns h h'
    have hext := collect_extends fuel c es h
    by_cases hgo : S'.enters c = true ∧ es.length < bound
    · rw [Links.collect, if_pos hgo] at h'
      rcases hv' : S'.view c with _ | ⟨found, stop⟩
      · simp only [hv', Option.some_inj] at h'
        rwa [← h']
      · have hv : S.view c = some (found, stop) := by
          rcases hcut.view c with hnone | hsame
          · rw [hnone] at hv'
            cases hv'
          · rw [← hsame, hv']
        rcases fuel with _ | fuel
        · cases h
        · rw [Links.collect, if_pos (by rwa [← hcut.enters])] at h
          simp only [hv, hv'] at h h'
          split_ifs at h h' with hstop
          · rw [← Option.some_inj.1 h, ← Option.some_inj.1 h']
          · rcases Nat.lt_or_ge (es.length + found.length) bound with hroom | hfull
            · obtain rfl : stop = false := by simpa [hroom] using hstop
              have hlen : ((es ++ found).take bound).length = es.length + found.length := by
                rw [List.length_take, List.length_append]
                omega
              have hX : ¬ X c := fun hX =>
                hns ⟨0, found ++ [], .succ hgo.1 hv' (.zero _), by simpa using hroom, hX⟩
              rcases hcut.next c hX with hout | hsame
              · rw [collect_out fuel' (by simp [hout]) h']
                exact collect_extends fuel _ _ h
              · refine ih fuel _ _ (fun hb => hns (.next hgo.1 hv' ?_)) h (hsame ▸ h')
                rw [hlen] at hb
                rwa [hsame]
            · have hlen : bound ≤ ((es ++ found).take bound).length := by
                rw [List.length_take, List.length_append]
                omega
              rw [collect_out fuel' (fun hc => Nat.not_lt.2 hlen hc.2) h']
              exact collect_extends fuel _ _ h
    · rwa [collect_out _ hgo h']

end Cut

end Links
