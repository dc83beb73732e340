import Mathlib.Data.List.Basic

/-!
# Linked lists

Nodes point to one another by `next`, and a list of them ends at `null`. `Linked p as` says that
going from `p` on meets the nodes `as`, in this order, and then ends. There is at most one such list
(`Linked.unique`), so none of its nodes comes twice (`Linked.nodup`).
-/

namespace Links

variable {α : Type*} (null : α) (next : α → α)

def Linked : α → List α → Prop
  | p, [] => p = null
  | p, a :: as => p = a ∧ a ≠ null ∧ Linked (next a) as

variable {null next}

theorem Linked.unique : ∀ {p : α} {as bs : List α}, Linked null next p as → Linked null next p bs →
    as = bs
  | _, [], [], _, _ => rfl
  | _, [], _ :: _, hnull, ⟨hb, hne, _⟩ => absurd (hb.symm.trans hnull) hne
  | _, _ :: _, [], ⟨ha, hne, _⟩, hnull => absurd (ha.symm.trans hnull) hne
  | _, _ :: _, _ :: _, ⟨ha, _, has⟩, ⟨hb, _, hbs⟩ => by
    obtain rfl := ha.symm.trans hb
    rw [has.unique hbs]

/-- The list from one of its nodes on. -/
theorem Linked.from_mem {a : α} {bs : List α} :
    ∀ {p : α} {as : List α}, Linked null next p (as ++ a :: bs) → Linked null next a (a :: bs)
  | _, [], ⟨_, hne, hbs⟩ => ⟨rfl, hne, hbs⟩
  | _, _ :: _, ⟨_, _, has⟩ => has.from_mem

theorem Linked.nodup : ∀ {p : α} {as : List α}, Linked null next p as → as.Nodup
  | _, [], _ => List.nodup_nil
  | _, a :: as, ⟨_, hne, has⟩ => by
    refine List.nodup_cons.2 ⟨fun hmem => ?_, has.nodup⟩
    obtain ⟨l, r, rfl⟩ := List.append_of_mem hmem
    have hself : Linked null next a (a :: (l ++ a :: r)) := ⟨rfl, hne, has⟩
    have heq := congrArg List.length (hself.unique has.from_mem)
    simp only [List.length_cons, List.length_append] at heq
    omega

end Links
