import PeanutKernel.Entropy

/-!
# Mixing loses nothing

From a fixed state `entropyMix` is a bijection of the value mixed in: a sum and a xor with words
that depend on the state alone, then `avalanche`. The steps of `avalanche` and of `stir` are
bijections of the state, the two multipliers being odd.
-/

namespace PeanutKernel

namespace Entropy

open WordMaps Function

theorem avalanche_eq : avalanche = xorShiftRight 31 ∘ (· * 0x94D049BB133111EB) ∘ xorShiftRight 27
    ∘ (· * 0xBF58476D1CE4E5B9) ∘ xorShiftRight 30 :=
  rfl

theorem stir_eq : stir = xorShiftLeft 17 ∘ xorShiftRight 7 ∘ xorShiftLeft 13 := rfl

theorem avalanche_injective : Injective avalanche := by
  have h₁ : Injective fun x : Word => x * 0xBF58476D1CE4E5B9 :=
    mul_injective (d := 0x96DE1B173F119089) (by decide)
  have h₂ : Injective fun x : Word => x * 0x94D049BB133111EB :=
    mul_injective (d := 0x319642B2D24D8EC3) (by decide)
  rw [avalanche_eq]
  exact (xorShiftRight_injective (by omega)).comp <| h₂.comp <|
    (xorShiftRight_injective (by omega)).comp <| h₁.comp <| xorShiftRight_injective (by omega)

theorem stir_injective : Injective stir := by
  rw [stir_eq]
  exact (xorShiftLeft_injective (by omega)).comp <|
    (xorShiftRight_injective (by omega)).comp <| xorShiftLeft_injective (by omega)

theorem entropyMix_injective (state : Word) : Injective (entropyMix state) := by
  intro value value' h
  have h := (BitVec.xor_right_inj state).1 (avalanche_injective h)
  exact add_right_cancel (add_right_cancel (add_right_cancel h))

theorem entropyRandomByte_state (src : Source) (state : Word) :
    (entropyRandomByte src state).2 = entropyMix state ((hardwareWord src).getD src.rdtsc) := by
  unfold entropyRandomByte
  cases hardwareWord src <;> rfl

/-- Neither `entropy_mix` nor the last lines of `entropy_urandom_byte` identify two words, so from
one state two calls that mix in different values leave different states. -/
theorem entropy_mixing_bijective :
    (∀ state, Bijective (entropyMix state)) ∧ Bijective stir ∧
      (∀ state value value', value ≠ value' → entropyMix state value ≠ entropyMix state value') ∧
      (∀ state src src', urandomValue src ≠ urandomValue src' →
        (entropyUrandomByte src state).2 ≠ (entropyUrandomByte src' state).2) ∧
      ∀ state src src',
        (hardwareWord src).getD src.rdtsc ≠ (hardwareWord src').getD src'.rdtsc →
        (entropyRandomByte src state).2 ≠ (entropyRandomByte src' state).2 := by
  refine ⟨fun state => bijective_of_injective (entropyMix_injective state),
    bijective_of_injective stir_injective, fun state _ _ h => (entropyMix_injective state).ne h,
    ?_, ?_⟩
  · intro state src src' h
    exact stir_injective.ne ((entropyMix_injective state).ne h)
  · intro state src src' h
    rw [entropyRandomByte_state, entropyRandomByte_state]
    exact (entropyMix_injective state).ne h

end Entropy

end PeanutKernel
