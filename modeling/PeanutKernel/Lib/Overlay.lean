import Mathlib.Data.List.GetD
import Mathlib.Data.List.OfFn
import Mathlib.Logic.Function.Basic
import Mathlib.Tactic.SplitIfs

/-!
# Writing a list of values over scattered places

`place i` is the address of the `i`-th value of a sequence stored in a memory `m`. A memory `m'` is
`m` `Overlaid` with a list at those places when it holds the list there and is `m` everywhere else.
Pieces written one after another add up (`Overlaid.append`), and what was stored in distinct places
then reads as the new list followed by what it did not reach (`Overlaid.stored`).

A sequence cut into pieces of `c` values, value `r` of piece `k` lying at `piece k r`, is stored at
`pieced piece c`; its first piece and the rest are read and overlaid apart (`stored_pieced`,
`Overlaid.pieces`).

Values in a row, at the addresses from a number on, are an `overlay`.
-/

variable {A V : Type*}

/-- The first `n` values stored at `place`. -/
def stored (m : A → V) (place : ℕ → A) (n : ℕ) : List V := (List.range n).map fun i => m (place i)

section

variable (m : A → V) (place : ℕ → A)

include m place

@[simp] theorem length_stored (n : ℕ) : (stored m place n).length = n := by
  simp [stored]

theorem getElem_stored {n i : ℕ} (h : i < (stored m place n).length) :
    (stored m place n)[i] = m (place i) := by
  simp [stored]

theorem stored_add (k n : ℕ) :
    stored m place (k + n) = stored m place k ++ stored m (fun i => place (k + i)) n := by
  simp [stored, List.range_add, Function.comp_def]

end

theorem stored_congr {m m' : A → V} {place place' : ℕ → A} {n : ℕ}
    (h : ∀ i < n, m' (place' i) = m (place i)) : stored m' place' n = stored m place n := by
  simp only [stored, List.map_inj_left, List.mem_range]
  exact h

/-- `m'` holds `l` at the first places and is `m` elsewhere. -/
structure Overlaid (m m' : A → V) (place : ℕ → A) (l : List V) : Prop where
  written : ∀ i (h : i < l.length), m' (place i) = l[i]
  frame : ∀ a, (∀ i < l.length, a ≠ place i) → m' a = m a

theorem overlaid_nil (m : A → V) (place : ℕ → A) : Overlaid m m place [] :=
  ⟨fun _ h => absurd h (Nat.not_lt_zero _), fun _ _ => rfl⟩

variable {m m' m'' : A → V} {place : ℕ → A} {l l' : List V}

section

variable (h : Overlaid m m' place l)

include h

theorem Overlaid.congr {place' : ℕ → A} (hplace : ∀ i < l.length, place' i = place i) :
    Overlaid m m' place' l := by
  constructor
  · intro i hi
    rw [hplace i hi]
    exact h.written i hi
  · intro a ha
    refine h.frame a fun i hi => ?_
    rw [← hplace i hi]
    exact ha i hi

theorem Overlaid.append (h' : Overlaid m' m'' (fun i => place (l.length + i)) l')
    (hinj : ∀ i < l.length, ∀ j < l'.length, place i ≠ place (l.length + j)) :
    Overlaid m m'' place (l ++ l') := by
  constructor
  · intro i hi
    rcases Nat.lt_or_ge i l.length with hlt | hge
    · rw [List.getElem_append_left hlt, h'.frame _ (fun j hj => hinj i hlt j hj)]
      exact h.written i hlt
    · have hi' : i - l.length < l'.length := by
        rw [List.length_append] at hi
        omega
      rw [List.getElem_append_right hge, ← h'.written (i - l.length) hi']
      simp only [Nat.add_sub_cancel' hge]
  · intro a ha
    rw [List.length_append] at ha
    rw [h'.frame a (fun i hi => ha _ (by omega)), h.frame a (fun i hi => ha i (by omega))]

/-- What an overlay leaves as it was need not be counted as overlaid. -/
theorem Overlaid.take (k : ℕ) (hsame : ∀ i (hi : i < l.length), k ≤ i → l[i] = m (place i)) :
    Overlaid m m' place (l.take k) := by
  constructor
  · intro i hi
    rw [List.length_take] at hi
    rw [List.getElem_take]
    exact h.written i (by omega)
  · intro a ha
    by_cases hex : ∃ i < l.length, a = place i
    · obtain ⟨i, hi, rfl⟩ := hex
      rw [h.written i hi]
      refine hsame i hi ?_
      by_contra hlt
      exact ha i (by rw [List.length_take]; omega) rfl
    · push Not at hex
      exact h.frame a hex

/-- What is stored at distinct places after an overlay: the list, then what it did not reach. -/
theorem Overlaid.stored {n : ℕ} (hn : l.length ≤ n)
    (hinj : ∀ i < n, ∀ j < n, place i = place j → i = j) :
    stored m' place n = l ++ (stored m place n).drop l.length := by
  apply List.ext_getElem
  · simp
    omega
  · intro i h1 h2
    rw [length_stored] at h1
    rw [getElem_stored]
    rcases Nat.lt_or_ge i l.length with hlt | hge
    · rw [List.getElem_append_left hlt]
      exact h.written i hlt
    · rw [List.getElem_append_right hge, List.getElem_drop, getElem_stored,
        Nat.add_sub_cancel' hge]
      apply h.frame
      intro j hj heq
      have := hinj i h1 j (by omega) heq
      omega

end

section Pieces

variable {piece : ℕ → ℕ → A} {c : ℕ}

def pieced (piece : ℕ → ℕ → A) (c : ℕ) (i : ℕ) : A := piece (i / c) (i % c)

theorem pieced_of_lt {i : ℕ} (h : i < c) : pieced piece c i = piece 0 i := by
  simp [pieced, Nat.div_eq_of_lt h, Nat.mod_eq_of_lt h]

theorem pieced_add (hc : 0 < c) (i : ℕ) :
    pieced piece c (c + i) = pieced (fun k => piece (k + 1)) c i := by
  simp [pieced, Nat.add_div_left i hc]

theorem pieced_congr {piece' : ℕ → ℕ → A} {n i : ℕ} (h : ∀ k, k * c < n → piece' k = piece k)
    (hi : i < n) : pieced piece' c i = pieced piece c i := by
  have hk : i / c * c < n := (Nat.div_mul_le_self i c).trans_lt hi
  simp only [pieced, h _ hk]

/-- Places in pieces that do not overlap are distinct. -/
theorem pieced_inj (hc : 0 < c) {n : ℕ}
    (hin : ∀ k, k * c < n → ∀ r < c, ∀ r' < c, piece k r = piece k r' → r = r')
    (hdisj : ∀ k l, k * c < n → l * c < n → k ≠ l → ∀ r < c, ∀ r' < c, piece k r ≠ piece l r') :
    ∀ i < n, ∀ j < n, pieced piece c i = pieced piece c j → i = j := by
  intro i hi j hj h
  have hki : i / c * c < n := (Nat.div_mul_le_self i c).trans_lt hi
  have hkj : j / c * c < n := (Nat.div_mul_le_self j c).trans_lt hj
  have hri := Nat.mod_lt i hc
  have hrj := Nat.mod_lt j hc
  simp only [pieced] at h
  by_cases hk : i / c = j / c
  · rw [hk] at h
    rw [← Nat.div_add_mod i c, ← Nat.div_add_mod j c, hk, hin _ hkj _ hri _ hrj h]
  · exact absurd h (hdisj _ _ hki hkj hk _ hri _ hrj)

theorem stored_pieced (hc : 0 < c) (m : A → V) (n : ℕ) :
    stored m (pieced piece c) n = stored m (piece 0) (min n c)
      ++ stored m (pieced (fun k => piece (k + 1)) c) (n - min n c) := by
  rcases Nat.le_total n c with h | h
  · rw [Nat.min_eq_left h, Nat.sub_self]
    simp only [stored, List.range_zero, List.map_nil, List.append_nil, List.map_inj_left,
      List.mem_range]
    intro i hi
    rw [pieced_of_lt (by omega)]
  · rw [Nat.min_eq_right h]
    conv_lhs => rw [show n = c + (n - c) by omega, stored_add]
    congr 1
    · refine stored_congr fun i hi => ?_
      rw [pieced_of_lt hi]
    · refine stored_congr fun i _ => ?_
      rw [pieced_add hc]

/-- The first piece written at its place and then the rest at theirs overlay the whole. -/
theorem Overlaid.pieces (hc : 0 < c) (h : Overlaid m m' (piece 0) (l.take c))
    (h' : Overlaid m' m'' (pieced (fun k => piece (k + 1)) c) (l.drop c))
    (hinj : ∀ i < l.length, ∀ j < l.length, pieced piece c i = pieced piece c j → i = j) :
    Overlaid m m'' (pieced piece c) l := by
  have hlen : (l.take c).length = min c l.length := List.length_take
  have h1 : Overlaid m m' (pieced piece c) (l.take c) := by
    constructor
    · intro i hi
      rw [pieced_of_lt (by omega)]
      exact h.written i hi
    · intro a ha
      refine h.frame a fun i hi => ?_
      have := ha i hi
      rwa [pieced_of_lt (by omega)] at this
  rcases Nat.lt_or_ge c l.length with hlt | hge
  · have hlc : (l.take c).length = c := by omega
    have h2 : Overlaid m' m'' (fun i => pieced piece c ((l.take c).length + i)) (l.drop c) := by
      simpa only [hlc, pieced_add hc] using h'
    have happ := h1.append h2 fun i hi j hj heq => by
      have := hinj i (by omega) _ (by rw [List.length_drop] at hj; omega) heq
      omega
    rwa [List.take_append_drop] at happ
  · have hdrop : l.drop c = [] := List.drop_eq_nil_of_le hge
    rw [hdrop] at h'
    have : m'' = m' := by
      funext a
      exact h'.frame a (by simp)
    rw [this]
    rwa [List.take_of_length_le hge] at h1

end Pieces

section Rows

variable {start n i a : ℕ} {f m : ℕ → V}

/-- The memory with `n` values stored from `start` on. -/
def overlay (start n : ℕ) (f m : ℕ → V) : ℕ → V := fun a =>
  if start ≤ a ∧ a < start + n then f (a - start) else m a

theorem overlay_of_mem (h : i < n) : overlay start n f m (start + i) = f i := by
  rw [overlay, if_pos (by omega), Nat.add_sub_cancel_left]

theorem overlay_of_not_mem (h : ¬ (start ≤ a ∧ a < start + n)) : overlay start n f m a = m a :=
  if_neg h

theorem overlay_zero : overlay start 0 f m = m :=
  funext fun _ => overlay_of_not_mem (by omega)

theorem update_overlay (start n : ℕ) (f m : ℕ → V) :
    Function.update (overlay start n f m) (start + n) (f n) = overlay start (n + 1) f m := by
  funext a
  by_cases ha : a = start + n
  · rw [ha, Function.update_self, overlay_of_mem n.lt_succ_self]
  · rw [Function.update_of_ne ha, overlay, overlay]
    split_ifs <;> first | rfl | omega

/-- Storing one value after the other. -/
theorem foldl_update_eq_overlay (start : ℕ) (f m : ℕ → V) : ∀ n,
    (List.range n).foldl (fun m i => Function.update m (start + i) (f i)) m = overlay start n f m
  | 0 => overlay_zero.symm
  | n + 1 => by
    rw [List.range_succ, List.foldl_append, foldl_update_eq_overlay start f m n]
    exact update_overlay start n f m

end Rows
