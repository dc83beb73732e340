import Mathlib.Algebra.BigOperators.Group.Finset.Basic
import Mathlib.Algebra.Order.BigOperators.Group.Finset
import Mathlib.Data.Fintype.BigOperators
import Mathlib.Data.Fintype.Vector

/-!
# Trees of tables

A store holds tables of entries, and an entry may name another table. From a root a path of indices
leads to a table, or to none (`walk`). While different paths of up to `depth` indices lead to
different tables (`Distinct`), a store into a table at that depth moves no table (`walk_store`), and
an entry that names a fresh table adds this one and moves no other (`walk_grow`).
-/

namespace TableTree

variable {T ι E : Type*} (child : E → Option T)

/-- The table at the end of the path. -/
def walk (cells : T → ι → E) : T → List ι → Option T
  | t, [] => some t
  | t, i :: p => (child (cells t i)).bind fun t' => walk cells t' p

/-- Different paths of at most `depth` indices lead to different tables. -/
def Distinct (cells : T → ι → E) (root : T) (depth : ℕ) : Prop :=
  ∀ p q t, p.length ≤ depth → q.length ≤ depth → walk child cells root p = some t →
    walk child cells root q = some t → p = q

variable {child} {cells cells' : T → ι → E} {root t u f : T} {p q : List ι} {i j : ι} {e : E}
  {depth : ℕ}

theorem walk_concat (cells : T → ι → E) (i : ι) :
    ∀ (t : T) (p : List ι),
      walk child cells t (p ++ [i]) = (walk child cells t p).bind fun u => child (cells u i)
  | t, [] => by
    rw [List.nil_append, walk, walk, Option.bind_some]
    exact Option.bind_fun_some (child (cells t i))
  | t, j :: p => by
    rw [List.cons_append, walk, walk, Option.bind_assoc]
    exact congrArg (Option.bind _) (funext fun u => walk_concat cells i u p)

theorem walk_concat_of_some (hp : walk child cells root p = some t) (i : ι) :
    walk child cells root (p ++ [i]) = child (cells t i) := by
  rw [walk_concat, hp, Option.bind_some]

/-- Only the entries of the tables on the way count. -/
theorem walk_congr (h : ∀ p i u, p.length < depth → walk child cells root p = some u →
      child (cells' u i) = child (cells u i)) :
    ∀ q, q.length ≤ depth → walk child cells' root q = walk child cells root q := by
  intro q
  induction q using List.reverseRecOn with
  | nil => exact fun _ => rfl
  | append_singleton q j ih =>
    intro hq
    rw [List.length_append, List.length_singleton] at hq
    rw [walk_concat, walk_concat, ih (by omega)]
    rcases hu : walk child cells root q with _ | u
    · rfl
    · exact h q j u (by omega) hu

section Store

variable [DecidableEq T] [DecidableEq ι]

def store (cells : T → ι → E) (t : T) (i : ι) (e : E) : T → ι → E :=
  Function.update cells t (Function.update (cells t) i e)

@[simp] theorem store_same (cells : T → ι → E) (t : T) (i : ι) (e : E) :
    store cells t i e t i = e := by
  simp [store]

theorem store_of_ne (h : u = t → j ≠ i) : store cells t i e u j = cells u j := by
  unfold store
  by_cases hu : u = t
  · subst hu
    rw [Function.update_self, Function.update_of_ne (h rfl)]
  · rw [Function.update_of_ne hu]

theorem walk_store (h : Distinct child cells root depth) (hp : p.length = depth)
    (ht : walk child cells root p = some t) :
    ∀ q, q.length ≤ depth → walk child (store cells t i e) root q = walk child cells root q := by
  refine walk_congr fun q j u hq hu => ?_
  rw [store_of_ne]
  rintro rfl
  rw [h q p u hq.le hp.le hu ht] at hq
  omega

/-- The fresh table `f` with the entries `row`, named by entry `i` of `t`. -/
def grow (cells : T → ι → E) (t : T) (i : ι) (e : E) (f : T) (row : ι → E) : T → ι → E :=
  store (Function.update cells f row) t i e

variable {row : ι → E}

theorem grow_fresh (h : f ≠ t) (j : ι) : grow cells t i e f row f j = row j := by
  rw [grow, store_of_ne (fun hf => absurd hf h), Function.update_self]

theorem grow_of_ne (hf : u ≠ f) (h : u = t → j ≠ i) : grow cells t i e f row u j = cells u j := by
  rw [grow, store_of_ne h, Function.update_of_ne hf]

/-- The new table hangs below `p`, where there was none, and nothing hangs below it. -/
structure Fresh (child : E → Option T) (cells : T → ι → E) (root : T) (depth : ℕ) (p : List ι)
    (t : T) (i : ι) (e : E) (f : T) (row : ι → E) : Prop where
  path : p.length < depth
  walk : walk child cells root p = some t
  none : child (cells t i) = none
  entry : child e = some f
  unused : ∀ q, q.length ≤ depth → TableTree.walk child cells root q ≠ some f
  empty : ∀ j, child (row j) = .none

theorem walk_grow (h : Distinct child cells root depth)
    (hf : Fresh child cells root depth p t i e f row) :
    ∀ q, q.length ≤ depth → walk child (grow cells t i e f row) root q
      = if q = p ++ [i] then some f else walk child cells root q := by
  have htf : f ≠ t := by
    rintro rfl
    exact hf.unused p hf.path.le hf.walk
  intro q
  induction q using List.reverseRecOn with
  | nil =>
    intro _
    rw [if_neg (by simp)]
    rfl
  | append_singleton q j ih =>
    intro hq
    rw [List.length_append, List.length_singleton] at hq
    rw [walk_concat, ih (by omega)]
    by_cases hnew : q = p ++ [i]
    · have hlen : q ++ [j] ≠ p ++ [i] := by
        rw [hnew]
        simp
      rw [if_pos hnew, if_neg hlen, walk_concat, hnew, walk_concat_of_some hf.walk, hf.none,
        Option.bind_some, grow_fresh htf, hf.empty]
      rfl
    · rw [if_neg hnew, walk_concat]
      rcases hu : walk child cells root q with _ | u
      · have hlen : q ++ [j] ≠ p ++ [i] := by
          intro heq
          obtain ⟨rfl, -⟩ := List.append_inj' heq rfl
          rw [hf.walk] at hu
          cases hu
        rw [if_neg hlen]
        rfl
      · rw [Option.bind_some, Option.bind_some]
        by_cases hhere : u = t ∧ j = i
        · obtain ⟨rfl, rfl⟩ := hhere
          have hqp := h q p u (by omega) hf.path.le hu hf.walk
          rw [if_pos (by rw [hqp]), grow, store_same, hf.entry]
        · have huf : u ≠ f := by
            rintro rfl
            exact hf.unused q (by omega) hu
          have hne : q ++ [j] ≠ p ++ [i] := by
            intro heq
            obtain ⟨rfl, hji⟩ := List.append_inj' heq rfl
            rw [hf.walk, Option.some_inj] at hu
            exact hhere ⟨hu.symm, List.singleton_inj.1 hji⟩
          rw [if_neg hne, grow_of_ne huf fun hut hji => hhere ⟨hut, hji⟩]

theorem Distinct.grow (h : Distinct child cells root depth)
    (hf : Fresh child cells root depth p t i e f row) :
    Distinct child (grow cells t i e f row) root depth := by
  intro q q' u hq hq' hu hu'
  rw [walk_grow h hf q hq] at hu
  rw [walk_grow h hf q' hq'] at hu'
  split_ifs at hu hu' with h1 h2 h2
  · rw [h1, h2]
  · rw [Option.some_inj] at hu
    exact absurd (hu ▸ hu') (hf.unused q' hq')
  · rw [Option.some_inj] at hu'
    exact absurd (hu' ▸ hu) (hf.unused q hq)
  · exact h q q' u hq hq' hu hu'

end Store

/-- There are no more tables than paths. -/
theorem card_le [Fintype ι] {tables : Finset T}
    (h : ∀ t ∈ tables, ∃ p, p.length ≤ depth ∧ walk child cells root p = some t) :
    tables.card ≤ ∑ l ∈ Finset.range (depth + 1), Fintype.card ι ^ l := by
  classical
  set paths : Finset (List ι) := (Finset.range (depth + 1)).biUnion fun l =>
    (Finset.univ : Finset (List.Vector ι l)).image List.Vector.toList
  have hsub : tables ⊆ paths.image fun p => (walk child cells root p).getD root := by
    intro t ht
    obtain ⟨p, hp, hwalk⟩ := h t ht
    refine Finset.mem_image.2 ⟨p, ?_, by rw [hwalk]; rfl⟩
    refine Finset.mem_biUnion.2 ⟨p.length, Finset.mem_range.2 (by omega), ?_⟩
    exact Finset.mem_image.2 ⟨⟨p, rfl⟩, Finset.mem_univ _, rfl⟩
  calc tables.card ≤ (paths.image _).card := Finset.card_le_card hsub
    _ ≤ paths.card := Finset.card_image_le
    _ ≤ ∑ l ∈ Finset.range (depth + 1), _ := Finset.card_biUnion_le
    _ ≤ ∑ l ∈ Finset.range (depth + 1), Fintype.card ι ^ l :=
      Finset.sum_le_sum fun l _ => Finset.card_image_le.trans (card_vector l).le

end TableTree
