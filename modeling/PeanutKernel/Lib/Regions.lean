import Mathlib.Data.List.Perm.Basic
import Mathlib.Data.List.Pairwise

/-!
# Regions of a memory

A memory is a function of the address. A `Kind` of regions says where each region lies, how long it
is and what it asks of the bytes in it. A memory holds a list of regions (`Hold`) when they lie
apart from one another and each finds in it what it asks for.

The order of the list does not matter (`Hold.perm`). The bytes of one region can be changed, and
what it asks for with them (`Hold.change`), and new regions cut out of bytes that belong to none
(`Hold.add`); the other regions do not notice.
-/

namespace Regions

structure Kind (κ β : Type*) where
  addr : κ → ℕ
  len : κ → ℕ
  Ok : κ → (ℕ → β) → Prop
  congr : ∀ c m m', (∀ a, addr c ≤ a → a < addr c + len c → m' a = m a) → Ok c m → Ok c m'

namespace Kind

variable {κ β ρ : Type*} (K : Kind κ β)

def Inside (c : κ) (a : ℕ) : Prop := K.addr c ≤ a ∧ a < K.addr c + K.len c

def Apart (c d : κ) : Prop := K.addr c + K.len c ≤ K.addr d ∨ K.addr d + K.len d ≤ K.addr c

structure Hold (m : ℕ → β) (cs : List κ) : Prop where
  ok : ∀ c ∈ cs, K.Ok c m
  apart : cs.Pairwise K.Apart

variable {K} {m m' : ℕ → β} {c c' d : κ} {cs cs' rest new : List κ}

theorem Apart.symm (h : K.Apart c d) : K.Apart d c := Or.symm h

theorem Apart.not_inside (h : K.Apart c d) {a : ℕ} (ha : K.Inside d a) : ¬ K.Inside c a := by
  rintro ⟨hge, hlt⟩
  obtain ⟨hge', hlt'⟩ := ha
  rcases h with h | h <;> omega

theorem Hold.perm (h : K.Hold m cs) (hp : cs.Perm cs') : K.Hold m cs' :=
  ⟨fun c hc => h.ok c (hp.mem_iff.2 hc), (hp.pairwise_iff fun h => h.symm).1 h.apart⟩

theorem Hold.tail (h : K.Hold m (c :: cs)) : K.Hold m cs :=
  ⟨fun d hd => h.ok d (List.mem_cons_of_mem _ hd), (List.pairwise_cons.1 h.apart).2⟩

theorem Hold.apart_of_ne (h : K.Hold m cs) (hc : c ∈ cs) (hd : d ∈ cs) (hne : c ≠ d) :
    K.Apart c d := by
  have : Std.Symm K.Apart := ⟨fun _ _ h => h.symm⟩
  exact h.apart.forall hc hd hne

/-- A region gives way to one in its place. -/
theorem Hold.change (h : K.Hold m cs) (hp : cs.Perm (c :: rest)) (hp' : cs'.Perm (c' :: rest))
    (haddr : K.addr c' = K.addr c) (hlen : K.len c' = K.len c)
    (hm : ∀ a, ¬ K.Inside c a → m' a = m a) (hok : K.Ok c' m') : K.Hold m' cs' := by
  have hc := h.perm hp
  obtain ⟨hhead, htail⟩ := List.pairwise_cons.1 hc.apart
  refine Hold.perm ⟨fun d hd => ?_, List.pairwise_cons.2 ⟨fun d hd => ?_, htail⟩⟩ hp'.symm
  · rcases List.mem_cons.1 hd with rfl | hd
    · exact hok
    · refine K.congr d m m' (fun a hge hlt => hm a ?_) (hc.ok d (List.mem_cons_of_mem _ hd))
      exact (hhead d hd).not_inside ⟨hge, hlt⟩
  · unfold Apart
    rw [haddr, hlen]
    exact hhead d hd

/-- New regions in bytes that belong to none. -/
theorem Hold.add (h : K.Hold m cs) (hm : ∀ c ∈ cs, ∀ a, K.Inside c a → m' a = m a)
    (hnew : K.Hold m' new) (hapart : ∀ c ∈ new, ∀ d ∈ cs, K.Apart c d) :
    K.Hold m' (new ++ cs) := by
  refine ⟨fun c hc => ?_, List.pairwise_append.2 ⟨hnew.apart, h.apart, hapart⟩⟩
  rcases List.mem_append.1 hc with hc | hc
  · exact hnew.ok c hc
  · exact K.congr c m m' (fun a hge hlt => hm c hc a ⟨hge, hlt⟩) (h.ok c hc)

/-- What holds between the parts of a region and between parts of regions that lie apart. -/
theorem Hold.pairwise_flatMap {R : ρ → ρ → Prop} (f : κ → List ρ) (h : K.Hold m cs)
    (hin : ∀ c ∈ cs, (f c).Pairwise R)
    (hR : ∀ c ∈ cs, ∀ d ∈ cs, K.Apart c d → ∀ r ∈ f c, ∀ r' ∈ f d, R r r') :
    (cs.flatMap f).Pairwise R := by
  refine List.pairwise_flatMap.2 ⟨hin, List.Pairwise.imp_of_mem ?_ h.apart⟩
  intro c d hc hd hapart r hr r' hr'
  exact hR c hc d hd hapart r hr r' hr'

end Kind

end Regions
