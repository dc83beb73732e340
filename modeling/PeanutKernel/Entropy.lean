import PeanutKernel.Lib.WordMaps

/-!
# The entropy pool

`drivers/entropy.c`. What the instructions `rdseed`, `rdrand` and `rdtsc` give in a call is its
`Source`; the pool is the word `entropy_state`.
-/

namespace PeanutKernel

namespace Entropy

abbrev Word := BitVec 64

/-- The processor as a call finds it: an attempt of `rdrand64` or `rdseed64` gives a word or fails,
`tscHi` and `tscLo` are the halves of the time stamp. -/
structure Source where
  hasRdrand : Bool
  hasRdseed : Bool
  rdrand64 : ℕ → Option Word
  rdseed64 : ℕ → Option Word
  tscHi : BitVec 32
  tscLo : BitVec 32

def Source.rdtsc (src : Source) : Word := (src.tscHi.setWidth 64 <<< 32) ||| src.tscLo.setWidth 64

section Mix

variable (state value : Word)

/-- What `entropy_mix` does with the state once the value is in it. -/
def avalanche (x : Word) : Word :=
  let x := x ^^^ (x >>> 30)
  let x := x * 0xBF58476D1CE4E5B9
  let x := x ^^^ (x >>> 27)
  let x := x * 0x94D049BB133111EB
  x ^^^ (x >>> 31)

def entropyMix : Word :=
  avalanche (state ^^^ (value + 0x9E3779B97F4A7C15 + (state <<< 6) + (state >>> 2)))

/-- The three lines of `entropy_urandom_byte` after the call of `entropy_mix`. -/
def stir (x : Word) : Word :=
  let x := x ^^^ (x <<< 13)
  let x := x ^^^ (x >>> 7)
  x ^^^ (x <<< 17)

end Mix

section Bytes

variable (src : Source) (state : Word)

/-- The first success among the attempts from `i` on, `n` of them. -/
def attempts (rng : ℕ → Option Word) : ℕ → ℕ → Option Word
  | 0, _ => none
  | n + 1, i =>
    match rng i with
    | some x => some x
    | none => attempts rng n (i + 1)

def entropyInit : Word := entropyMix state src.rdtsc

/-- The word of a hardware generator `entropy_random_byte` takes, if there is one. -/
def hardwareWord : Option Word :=
  match if src.hasRdseed then attempts src.rdseed64 64 0 else none with
  | some x => some x
  | none => if src.hasRdrand then attempts src.rdrand64 16 0 else none

/-- The byte returned and the state left. -/
def entropyRandomByte : BitVec 8 × Word :=
  match hardwareWord src with
  | some x => (x.setWidth 8, entropyMix state x)
  | none =>
    let state := entropyMix state src.rdtsc
    ((state >>> 56).setWidth 8, state)

/-- The value `entropy_urandom_byte` mixes in. -/
def urandomValue : Word :=
  match if src.hasRdrand then src.rdrand64 0 else none with
  | some x => x
  | none => src.rdtsc

def entropyUrandomByte : BitVec 8 × Word :=
  let state := stir (entropyMix state (urandomValue src))
  ((state >>> 56).setWidth 8, state)

end Bytes

end Entropy

end PeanutKernel
