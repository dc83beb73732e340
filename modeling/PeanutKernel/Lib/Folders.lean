import PeanutKernel.Lib.Query

/-!
# Looking names up in nested folders

A folder is listed, which may not return; `list fuel` is the listing cut off by fuel. A lookup goes
through a list of names, each to be found in the folder the one before it names. It returns just
when every folder it comes to can be listed (`find_returns_iff`).
-/

structure Folders (D E N : Type*) where
  /-- The elements of a folder, `none` without enough fuel. -/
  list : ℕ → D → Option (List E)
  /-- The element has this name. -/
  same : E → N → Bool
  /-- The name is looked for. -/
  accepts : N → Bool
  isDir : E → Bool
  /-- The folder an element stands for. -/
  sub : E → D
  mono : ∀ {fuel fuel' : ℕ} {d : D} {es : List E}, fuel ≤ fuel' → list fuel d = some es →
    list fuel' d = some es

namespace Folders

variable {D E N : Type*} (F : Folders D E N)

def find (fuel : ℕ) : D → List N → Option (Option E)
  | _, [] => some none
  | d, n :: ns =>
    if F.accepts n then
      (F.list fuel d).bind fun es =>
        match es.find? (F.same · n) with
        | none => some none
        | some e =>
          if ns.isEmpty then some (some e)
          else if F.isDir e then find fuel (F.sub e) ns
          else some none
    else some none

/-- The names lead from one folder to another. -/
inductive Leads (fuel : ℕ) : D → List N → D → Prop
  | here (d : D) : Leads fuel d [] d
  | down {d d' : D} {n : N} {ns : List N} {es : List E} {e : E} : F.accepts n = true →
      F.list fuel d = some es → es.find? (F.same · n) = some e → F.isDir e = true →
      Leads fuel (F.sub e) ns d' → Leads fuel d (n :: ns) d'

variable {F} {fuel fuel' : ℕ} {d d' : D} {n : N} {ns ns' : List N} {es : List E} {e : E}

section Find

/-- What a program does that goes through folders once it has found an element. -/
theorem run_found {Q R : Type} {ans : Q → R} {E : Type} {F : Folders D E N} {e : E}
    {p : Query Q R (Option E)} {c : Prop} [Decidable c] [Decidable (ns = [])]
    (hdir : F.isDir e = true ↔ ¬ c) (hp : p.run ans = F.find fuel (F.sub e) ns) :
    (if ns = [] then pure (some e) else if c then pure none else p : Query Q R (Option E)).run ans
      = if ns.isEmpty then some (some e)
        else if F.isDir e then F.find fuel (F.sub e) ns else some none := by
  by_cases hns : ns = []
  · rw [if_pos hns, if_pos (List.isEmpty_iff.2 hns)]
    rfl
  · rw [if_neg hns, if_neg (mt List.isEmpty_iff.1 hns)]
    by_cases hc : c
    · rw [if_pos hc, if_neg fun h => hdir.1 h hc]
      rfl
    · rw [if_neg hc, if_pos (hdir.2 hc), hp]

theorem find_rejected (h : F.accepts n = false) : F.find fuel d (n :: ns) = some none := by
  rw [find, if_neg (by simp [h])]

theorem find_unlisted (hn : F.accepts n = true) (hlist : F.list fuel d = none) :
    F.find fuel d (n :: ns) = none := by
  rw [find, if_pos hn, hlist]
  rfl

theorem find_missing (hlist : F.list fuel d = some es)
    (hfind : es.find? (F.same · n) = none) : F.find fuel d (n :: ns) = some none := by
  rw [find, hlist, Option.bind_some, hfind, ite_self]

theorem find_last (hn : F.accepts n = true) (hlist : F.list fuel d = some es) :
    F.find fuel d [n] = some (es.find? (F.same · n)) := by
  rw [find, if_pos hn, hlist, Option.bind_some]
  rcases es.find? (F.same · n) with _ | e
  · rfl
  · rfl

theorem find_through (hn : F.accepts n = true) (hlist : F.list fuel d = some es)
    (hfind : es.find? (F.same · n) = some e) (hdir : F.isDir e = true) (hns : ns ≠ []) :
    F.find fuel d (n :: ns) = F.find fuel (F.sub e) ns := by
  rw [find, if_pos hn, hlist, Option.bind_some, hfind]
  simp only
  rw [if_neg (by simpa using hns), if_pos hdir]

theorem find_file (hlist : F.list fuel d = some es) (hfind : es.find? (F.same · n) = some e)
    (hdir : F.isDir e = false) (hns : ns ≠ []) : F.find fuel d (n :: ns) = some none := by
  have hempty : ns.isEmpty = false := by simpa using hns
  rw [find, hlist, Option.bind_some, hfind]
  simp only [hempty, hdir, Bool.false_eq_true, if_false, ite_self]

/-- How the lookup of a name in a folder can go. -/
theorem find_cases (F : Folders D E N) (fuel : ℕ) (d : D) (n : N) :
    F.accepts n = false ∨ (F.accepts n = true ∧ F.list fuel d = none) ∨
      (∃ es, F.accepts n = true ∧ F.list fuel d = some es ∧ es.find? (F.same · n) = none) ∨
      ∃ es e, F.accepts n = true ∧ F.list fuel d = some es ∧ es.find? (F.same · n) = some e := by
  rcases hn : F.accepts n with _ | _
  · exact Or.inl rfl
  · rcases hlist : F.list fuel d with _ | es
    · exact Or.inr (Or.inl ⟨rfl, rfl⟩)
    · rcases hfind : es.find? (F.same · n) with _ | e
      · exact Or.inr (Or.inr (Or.inl ⟨es, rfl, rfl, hfind⟩))
      · exact Or.inr (Or.inr (Or.inr ⟨es, e, rfl, rfl, hfind⟩))

theorem find_mono (hle : fuel ≤ fuel') :
    ∀ (d : D) (ns : List N) {r : Option E}, F.find fuel d ns = some r →
      F.find fuel' d ns = some r
  | _, [], _, h => h
  | d, n :: ns, r, h => by
    rcases find_cases F fuel d n with hn | ⟨hn, hlist⟩ | ⟨es, hn, hlist, hfind⟩ |
      ⟨es, e, hn, hlist, hfind⟩
    · rwa [find_rejected hn] at h ⊢
    · rw [find_unlisted hn hlist] at h
      cases h
    · rwa [find_missing hlist hfind, ← find_missing (F.mono hle hlist) hfind] at h
    · have hlist' := F.mono hle hlist
      rcases ns with _ | ⟨n', ns⟩
      · rwa [find_last hn hlist, ← find_last hn hlist'] at h
      · have hns : n' :: ns ≠ [] := by simp
        rcases hdir : F.isDir e with _ | _
        · rwa [find_file hlist hfind hdir hns, ← find_file hlist' hfind hdir hns] at h
        · rw [find_through hn hlist hfind hdir hns] at h
          rw [find_through hn hlist' hfind hdir hns]
          exact find_mono hle _ _ h

/-- Behind names that are found and stand for a folder the lookup goes on in that folder. -/
theorem find_append (hdir : F.isDir e = true) (hns' : ns' ≠ []) :
    ∀ (d : D) (ns : List N), F.find fuel d ns = some (some e) →
      F.find fuel d (ns ++ ns') = F.find fuel (F.sub e) ns'
  | _, [], h => by cases h
  | d, n :: ns, h => by
    rcases find_cases F fuel d n with hn | ⟨hn, hlist⟩ | ⟨es, hn, hlist, hfind⟩ |
      ⟨es, e', hn, hlist, hfind⟩
    · rw [find_rejected hn] at h
      cases h
    · rw [find_unlisted hn hlist] at h
      cases h
    · rw [find_missing hlist hfind] at h
      cases h
    · rcases ns with _ | ⟨n', ns⟩
      · rw [find_last hn hlist, hfind, Option.some_inj, Option.some_inj] at h
        subst h
        exact find_through hn hlist hfind hdir hns'
      · have hns : n' :: ns ≠ [] := by simp
        rcases hdir' : F.isDir e' with _ | _
        · rw [find_file hlist hfind hdir' hns] at h
          cases h
        · rw [find_through hn hlist hfind hdir' hns] at h
          rw [List.cons_append, find_through hn hlist hfind hdir' (by simp)]
          exact find_append hdir hns' _ _ h

end Find

section Returns

theorem Leads.mono (hle : fuel ≤ fuel') (h : F.Leads fuel d ns d') : F.Leads fuel' d ns d' := by
  induction h with
  | here d => exact .here d
  | down hn hlist hfind hdir _ ih => exact .down hn (F.mono hle hlist) hfind hdir ih

theorem Leads.find (h : F.Leads fuel d ns d') (hns' : ns' ≠ []) :
    F.find fuel d (ns ++ ns') = F.find fuel d' ns' := by
  induction h with
  | here d => rfl
  | down hn hlist hfind hdir _ ih =>
    rw [List.cons_append, find_through hn hlist hfind hdir (by simp [hns']), ih]

variable (F) in
/-- The lookup of the names comes to list a folder. -/
def Visits (d : D) (ns : List N) (d' : D) : Prop :=
  ∃ fuel pre n rest, ns = pre ++ n :: rest ∧ F.accepts n = true ∧ F.Leads fuel d pre d'

theorem Visits.head (hn : F.accepts n = true) : F.Visits d (n :: ns) d :=
  ⟨0, [], n, ns, rfl, hn, .here d⟩

theorem Visits.down (hn : F.accepts n = true) (hlist : F.list fuel d = some es)
    (hfind : es.find? (F.same · n) = some e) (hdir : F.isDir e = true)
    (h : F.Visits (F.sub e) ns d') : F.Visits d (n :: ns) d' := by
  obtain ⟨fuel', pre, n', rest, rfl, hn', hlead⟩ := h
  refine ⟨max fuel fuel', n :: pre, n', rest, rfl, hn', ?_⟩
  exact .down hn (F.mono (Nat.le_max_left _ _) hlist) hfind hdir
    (hlead.mono (Nat.le_max_right _ _))

theorem find_returns :
    ∀ (ns : List N) (d : D), (∀ d', F.Visits d ns d' → ∃ fuel, (F.list fuel d').isSome) →
      ∃ fuel, (F.find fuel d ns).isSome
  | [], _, _ => ⟨0, rfl⟩
  | n :: ns, d, hall => by
    rcases hn : F.accepts n with _ | _
    · exact ⟨0, by rw [find_rejected hn]; rfl⟩
    · obtain ⟨f, hf⟩ := hall d (.head hn)
      obtain ⟨es, hlist⟩ := Option.isSome_iff_exists.1 hf
      rcases hfind : es.find? (F.same · n) with _ | e
      · exact ⟨f, by rw [find_missing hlist hfind]; rfl⟩
      · by_cases hlast : ns = []
        · subst hlast
          exact ⟨f, by rw [find_last hn hlist]; rfl⟩
        · rcases hdir : F.isDir e with _ | _
          · exact ⟨f, by rw [find_file hlist hfind hdir hlast]; rfl⟩
          · obtain ⟨f', hf'⟩ := find_returns ns (F.sub e) fun d' h =>
              hall d' (h.down hn hlist hfind hdir)
            obtain ⟨r, hr⟩ := Option.isSome_iff_exists.1 hf'
            refine ⟨max f f', ?_⟩
            rw [find_through hn (F.mono (Nat.le_max_left f f') hlist) hfind hdir hlast,
              find_mono (Nat.le_max_right f f') _ _ hr]
            rfl

/-- A lookup returns just when every folder it comes to can be listed. -/
theorem find_returns_iff :
    (∃ fuel, (F.find fuel d ns).isSome)
      ↔ ∀ d', F.Visits d ns d' → ∃ fuel, (F.list fuel d').isSome := by
  constructor
  · rintro ⟨f, hf⟩ d' ⟨fuel, pre, n, rest, rfl, hn, hlead⟩
    obtain ⟨r, hr⟩ := Option.isSome_iff_exists.1 hf
    have hmax := find_mono (Nat.le_max_right fuel f) _ _ hr
    rw [(hlead.mono (Nat.le_max_left fuel f)).find (by simp)] at hmax
    refine ⟨max fuel f, ?_⟩
    rcases hlist : F.list (max fuel f) d' with _ | es
    · rw [find_unlisted hn hlist] at hmax
      cases hmax
    · rfl
  · exact find_returns ns d

end Returns

section Prefix

variable {G : Folders D E N}

/-- A lookup that lists less of each folder it comes to finds the same element, if any. -/
theorem find_of_prefix (hsame : G.same = F.same) (haccepts : G.accepts = F.accepts)
    (hisDir : G.isDir = F.isDir) (hsub : G.sub = F.sub) :
    ∀ (ns : List N) (d : D) {r : Option E},
      (∀ d' es es', G.Visits d ns d' → F.list fuel d' = some es → G.list fuel' d' = some es' →
        es' <+: es) →
      F.find fuel d ns = some r → G.find fuel' d ns = some (some e) → r = some e
  | [], _, _, _, _, h' => by cases h'
  | n :: ns, d, r, hall, h, h' => by
    rcases find_cases G fuel' d n with hn | ⟨hn, hlist'⟩ | ⟨es', hn, hlist', hfind'⟩ |
      ⟨es', e', hn, hlist', hfind'⟩
    · rw [find_rejected hn] at h'
      cases h'
    · rw [find_unlisted hn hlist'] at h'
      cases h'
    · rw [find_missing hlist' hfind'] at h'
      cases h'
    · have hacc : F.accepts n = true := haccepts ▸ hn
      rcases hlist : F.list fuel d with _ | es
      · rw [find_unlisted hacc hlist] at h
        cases h
      · have hfind : es.find? (F.same · n) = some e' :=
          hsame ▸ (hall d es es' (.head hn) hlist hlist').find?_eq_some hfind'
        rcases ns with _ | ⟨n', ns⟩
        · rw [find_last hacc hlist, hfind, Option.some_inj] at h
          rw [find_last hn hlist', hfind', Option.some_inj] at h'
          rw [← h, h']
        · have hns : n' :: ns ≠ [] := by simp
          rcases hdir' : G.isDir e' with _ | _
          · rw [find_file hlist' hfind' hdir' hns] at h'
            cases h'
          · rw [find_through hacc hlist hfind (hisDir ▸ hdir') hns] at h
            rw [find_through hn hlist' hfind' hdir' hns, hsub] at h'
            refine find_of_prefix hsame haccepts hisDir hsub _ _ (fun d' es es' hv => ?_) h h'
            exact hall d' es es' (.down hn hlist' hfind' hdir' (hsub ▸ hv))

end Prefix

section Cut

/-- In a list that is cut off an element is found if it stands before the cut, when no other one
before it matches. -/
theorem find?_take_iff {L : List E} {p : E → Bool} {k bound : ℕ} (he : L[k]? = some e)
    (hp : p e = true) (hbefore : ∀ j < k, ∀ e', L[j]? = some e' → p e' = false) :
    (L.take bound).find? p = some e ↔ k < bound := by
  constructor
  · intro hfind
    obtain ⟨hsame, j, hj, rfl, -⟩ := List.find?_eq_some_iff_getElem.1 hfind
    rw [List.length_take] at hj
    by_contra hge
    have hget : L[j]? = some ((L.take bound)[j]) := by
      rw [List.getElem_take]
      exact List.getElem?_eq_getElem (by omega)
    rw [hbefore j (by omega) _ hget] at hsame
    cases hsame
  · intro hlt
    obtain ⟨hk, rfl⟩ := List.getElem?_eq_some_iff.1 he
    refine List.find?_eq_some_iff_getElem.2
      ⟨hp, k, by rw [List.length_take]; omega, List.getElem_take, fun j hj => ?_⟩
    rw [List.getElem_take, hbefore j hj _ (List.getElem?_eq_getElem (by omega))]
    rfl

end Cut

end Folders
