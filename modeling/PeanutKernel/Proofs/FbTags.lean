import PeanutKernel.Fb
import PeanutKernel.Proofs.Block

/-!
# When the walk over the multiboot tags ends in bounds

`fb_init_from_multiboot` goes from tag to tag by the sizes the loader left, rounded up and added in
32 bits, and takes a framebuffer tag's word for its size. It comes to an end if it does not come
back to an offset, and stays inside the information if no framebuffer tag on its way is cut off
before the last field it looks at.
-/

namespace PeanutKernel

namespace Fb

open StateTransition

section Fields

variable (mbi : Buf) (off : ℕ)

/-- What a framebuffer tag at `off` describes. -/
def framebufferAt : Option Framebuffer :=
  if le64 mbi (off + 8) = 0 then none
  else if le32 mbi (off + 16) = 0 then none
  else if le32 mbi (off + 20) = 0 then none
  else if le32 mbi (off + 24) = 0 then none
  else if (mbi (off + 28)).toNat ≠ 32 then none
  else if (mbi (off + 29)).toNat = 1 ∨ (mbi (off + 29)).toNat = 2 then
    some ⟨le64 mbi (off + 8), le32 mbi (off + 16) / 4, le32 mbi (off + 20), le32 mbi (off + 24)⟩
  else none

/-- Where the last field ends that has to be looked at to tell what the tag describes. -/
def fieldsEnd : ℕ :=
  if le64 mbi (off + 8) = 0 then 16
  else if le32 mbi (off + 16) = 0 then 20
  else if le32 mbi (off + 20) = 0 then 24
  else if le32 mbi (off + 24) = 0 then 28
  else if (mbi (off + 28)).toNat ≠ 32 then 29
  else 30

end Fields

section Walk

variable (mbi : Buf) (total : ℕ)

/-- The tag is a framebuffer tag by its type and its size. -/
def IsFramebuffer (off : ℕ) : Prop := le32 mbi off = 8 ∧ 32 ≤ le32 mbi (off + 4)

instance (off : ℕ) : Decidable (IsFramebuffer mbi off) := inferInstanceAs (Decidable (_ ∧ _))

/-- The tag after the one at `off`, if that is there, is not the last and is not the framebuffer. -/
def nextTag (off : ℕ) : Option ℕ :=
  if off + 8 ≤ total ∧ le32 mbi off ≠ 0 ∧
      ¬ (IsFramebuffer mbi off ∧ (framebufferAt mbi off).isSome) then
    some ((off + align8 (le32 mbi (off + 4))) % 2 ^ 32)
  else none

/-- The tags do not come back to one of them, and the framebuffer tags among them have the fields
that are looked at. -/
structure TagsSound : Prop where
  ends : ¬ GoesRound (nextTag mbi total) 8
  whole : ∀ off, Reaches (nextTag mbi total) 8 off → off + 8 ≤ total → IsFramebuffer mbi off →
    off + fieldsEnd mbi off ≤ total

end Walk

section Reads

variable {mbi : Buf} {total off : ℕ} {α β : Type}

/-- The program reads below `total` only. -/
def Below (mbi : Buf) (total : ℕ) (p : MbM α) : Prop := ∀ a ∈ p.trace mbi, a < total

theorem below_pure (a : α) : Below mbi total (pure a : MbM α) ↔ True := Query.asksOnly_pure a

theorem below_bind {p : MbM α} {a : α} (h : p.run mbi = some a) (g : α → MbM β) :
    Below mbi total (p >>= g) ↔ Below mbi total p ∧ Below mbi total (g a) :=
  Query.asksOnly_bind h g

@[simp] theorem run_readU32 : (readU32 off).run mbi = some (le32 mbi off) := rfl

@[simp] theorem run_readU64 : (readU64 off).run mbi = some (le64 mbi off) := rfl

section

variable (g : ℕ → MbM β)

include g

theorem below_readU8_bind :
    Below mbi total (readU8 off >>= g) ↔ off + 1 ≤ total ∧ Below mbi total (g (mbi off).toNat) := by
  rw [below_bind run_readU8, Below, trace_readU8, List.forall_mem_singleton, Nat.lt_iff_add_one_le]

theorem below_readU32_bind :
    Below mbi total (readU32 off >>= g) ↔ off + 4 ≤ total ∧ Below mbi total (g (le32 mbi off)) := by
  have htrace : (readU32 off).trace mbi = [off, off + 1, off + 2, off + 3] := rfl
  have hbelow : Below mbi total (readU32 off) ↔ off + 4 ≤ total := by
    simp only [Below, htrace, List.mem_cons, List.not_mem_nil, or_false, forall_eq_or_imp,
      forall_eq]
    omega
  rw [below_bind run_readU32, hbelow]

theorem below_readU64_bind :
    Below mbi total (readU64 off >>= g) ↔ off + 8 ≤ total ∧ Below mbi total (g (le64 mbi off)) := by
  have hbelow : Below mbi total (readU64 off) ↔ off + 8 ≤ total := by
    rw [readU64, below_readU32_bind, below_readU32_bind, below_pure, and_true]
    omega
  rw [below_bind run_readU64, hbelow]

theorem run_readU32_bind : (readU32 off >>= g).run mbi = (g (le32 mbi off)).run mbi :=
  Query.run_bind_some mbi run_readU32 g

theorem run_readU8_bind : (readU8 off >>= g).run mbi = (g (mbi off).toNat).run mbi :=
  Query.run_bind_some mbi run_readU8 g

end

theorem run_framebufferTag : (framebufferTag off).run mbi = some (framebufferAt mbi off) := by
  rw [framebufferTag, framebufferAt, Query.run_bind_some mbi run_readU64]
  simp only [apply_ite (Query.run mbi), run_readU32_bind, run_readU8_bind, Query.run_pure,
    apply_ite some]

theorem below_framebufferTag :
    Below mbi total (framebufferTag off) ↔ off + fieldsEnd mbi off ≤ total := by
  unfold fieldsEnd framebufferTag
  rw [below_readU64_bind]
  split_ifs with h₁ h₂ h₃ h₄ h₅
  · simp only [below_pure, and_true]
  · simp only [below_readU32_bind, if_pos h₂, below_pure, and_true]
    omega
  · simp only [below_readU32_bind, if_neg h₂, if_pos h₃, below_pure, and_true]
    omega
  · simp only [below_readU32_bind, if_neg h₂, if_neg h₃, if_pos h₄, below_pure, and_true]
    omega
  · simp only [below_readU32_bind, below_readU8_bind, if_neg h₂, if_neg h₃, if_neg h₄, if_pos h₅,
      below_pure, and_true]
    omega
  · simp only [below_readU32_bind, below_readU8_bind, if_neg h₂, if_neg h₃, if_neg h₄, if_neg h₅]
    have hlast : ∀ b : Prop, [Decidable b] → ∀ fb : Option Framebuffer,
        Below mbi total (if b then pure fb else pure none : MbM (Option Framebuffer)) ↔ True := by
      intro b _ fb
      split_ifs <;> exact below_pure _
    simp only [hlast, and_true]
    omega

theorem run_tagRound : (tagRound total off).run mbi = some (
    match nextTag mbi total off with
    | some next => .inl next
    | none =>
      .inr (if off + 8 ≤ total ∧ le32 mbi off ≠ 0 then framebufferAt mbi off else none)) := by
  unfold tagRound nextTag
  by_cases hoff : off + 8 ≤ total
  · by_cases htype : le32 mbi off = 0
    · simp [hoff, htype]
    · by_cases hfb : IsFramebuffer mbi off
      · have hfb' : le32 mbi off = 8 ∧ 32 ≤ le32 mbi (off + 4) := hfb
        rcases hat : framebufferAt mbi off with _ | fb <;>
          simp [hoff, hfb, hfb', run_framebufferTag, hat]
      · have hfb' : ¬ (le32 mbi off = 8 ∧ 32 ≤ le32 mbi (off + 4)) := hfb
        simp [hoff, htype, hfb, if_neg hfb']
  · simp [hoff]

theorem goesOn_tagRound : Query.goesOn mbi (tagRound total) off = nextTag mbi total off := by
  rw [Query.goesOn, run_tagRound]
  cases nextTag mbi total off <;> rfl

/-- What a round reads lies in the header of the tag, or in the framebuffer tag. -/
theorem below_tagRound : Below mbi total (tagRound total off) ↔
    (off + 8 ≤ total → IsFramebuffer mbi off → off + fieldsEnd mbi off ≤ total) := by
  unfold tagRound
  by_cases hoff : off + 8 ≤ total
  · have hheader : off + 4 ≤ total ∧ off + 4 + 4 ≤ total := by omega
    rw [if_pos hoff, below_readU32_bind]
    by_cases htype : le32 mbi off = 0
    · have hfb : ¬ IsFramebuffer mbi off := fun h => by
        have := h.1
        omega
      simp [htype, below_pure, hheader.1, hfb]
    · rw [if_neg htype, below_readU32_bind]
      by_cases hfb : IsFramebuffer mbi off
      · have hfb' : le32 mbi off = 8 ∧ 32 ≤ le32 mbi (off + 4) := hfb
        simp only [if_pos hfb', below_bind run_framebufferTag, below_framebufferTag]
        rcases framebufferAt mbi off with _ | fb <;> simp [below_pure, hoff, hfb, hheader]
      · have hfb' : ¬ (le32 mbi off = 8 ∧ 32 ≤ le32 mbi (off + 4)) := hfb
        simp only [if_neg hfb', below_bind (Query.run_pure mbi none), below_pure]
        simp [hfb, hheader]
  · simp [hoff, below_pure]

end Reads

section Walks

variable {mbi : Buf} {total : ℕ}

theorem tagRound_returns (off : ℕ) : ((tagRound total off).run mbi).isSome := by
  rw [run_tagRound]
  rfl

theorem goesOn_eq : Query.goesOn mbi (tagRound total) = nextTag mbi total :=
  funext fun _ => goesOn_tagRound

/-- The offsets have 32 bits. -/
theorem lt_of_reaches {off : ℕ} (h : Reaches (nextTag mbi total) 8 off) : off < 2 ^ 32 := by
  rcases Relation.ReflTransGen.cases_tail h with rfl | ⟨off', -, hstep⟩
  · decide
  · rw [Option.mem_def, nextTag] at hstep
    split_ifs at hstep
    rw [← Option.some_inj.1 hstep]
    exact Nat.mod_lt _ (by decide)

theorem finite_reaches : {off | Reaches (nextTag mbi total) 8 off}.Finite :=
  (Set.finite_lt_nat (2 ^ 32)).subset fun _ h => lt_of_reaches h

theorem tagLoop_finishes_iff :
    Query.Finishes mbi (tagLoop total) ↔ ¬ GoesRound (nextTag mbi total) 8 := by
  have hret : ∀ off, ((tagRound total off).run mbi).isSome := tagRound_returns
  have h := Query.finishes_rounds hret (s := 8)
  rw [goesOn_eq, dom_iff_not_goesRound finite_reaches] at h
  exact h

theorem tagLoop_below_iff : (∀ fuel, Below mbi total (tagLoop total fuel)) ↔
    ∀ off, Reaches (nextTag mbi total) 8 off → off + 8 ≤ total → IsFramebuffer mbi off →
      off + fieldsEnd mbi off ≤ total := by
  have hret : ∀ off, ((tagRound total off).run mbi).isSome := tagRound_returns
  have h := fun a => Query.mem_trace_rounds hret (s := 8) (q := a)
  rw [goesOn_eq] at h
  simp only [← below_tagRound]
  constructor
  · intro hall off hreach a ha
    obtain ⟨fuel, hfuel⟩ := (h a).2 ⟨off, hreach, ha⟩
    exact hall fuel a hfuel
  · intro hall fuel a ha
    obtain ⟨off, hreach, hoff⟩ := (h a).1 ⟨fuel, ha⟩
    exact hall off hreach a hoff

/-- The loop of `fb_init_from_multiboot` comes to an end and reads below the total size only,
exactly if the tags are sound. -/
theorem tagLoop_total_iff (mbi : Buf) (total : ℕ) :
    (Query.Finishes mbi (tagLoop total) ∧
        ∀ fuel, ∀ a ∈ (tagLoop total fuel).trace mbi, a < total) ↔ TagsSound mbi total := by
  have hbelow : (∀ fuel, ∀ a ∈ (tagLoop total fuel).trace mbi, a < total) ↔ _ := tagLoop_below_iff
  rw [tagLoop_finishes_iff, hbelow]
  exact ⟨fun h => ⟨h.1, h.2⟩, fun h => ⟨h.ends, h.whole⟩⟩

/-- A tag of size zero is its own next one. -/
theorem tagLoop_zero_size :
    ¬ Query.Finishes (fun i => [16, 0, 0, 0, 0, 0, 0, 0, 1].getD i 0) (tagLoop 16) := by
  rw [tagLoop_finishes_iff, not_not]
  exact ⟨8, .refl, .single (by decide)⟩

end Walks

end Fb

end PeanutKernel
