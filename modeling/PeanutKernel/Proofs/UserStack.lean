import PeanutKernel.Proofs.Alloc
import PeanutKernel.UserStack

/-!
# What the initial user stack looks like

The strings stand 512 and 256 bytes below the top of the stack and the words are pushed from the
top down. With two arguments that is six words, and `rsp` points at `argc`; with one it is five, and
the alignment of `rsp` leaves `argc` 8 bytes above it. The second string has 208 bytes before it
runs into the words, and both are below `rsp` (`user_stack_abi_iff`).
-/

namespace PeanutKernel

namespace Elf

open Alloc

section Push

theorem foldl_push_snd : ∀ (ws : List ℕ) (mem : Buf) (sp : ℕ),
    (ws.foldl push (mem, sp)).2 = sp - 8 * ws.length
  | [], _, _ => rfl
  | w :: ws, mem, sp => by
    rw [List.foldl_cons, push, foldl_push_snd ws, List.length_cons]
    omega

theorem foldl_push_frame : ∀ (ws : List ℕ) (mem : Buf) (sp : ℕ), 8 * ws.length ≤ sp →
    ∀ x, x < sp - 8 * ws.length ∨ sp ≤ x → (ws.foldl push (mem, sp)).1 x = mem x
  | [], _, _, _, _, _ => rfl
  | w :: ws, mem, sp, hsp, x, hx => by
    rw [List.length_cons] at hsp hx
    rw [List.foldl_cons, push, foldl_push_frame ws _ _ (by omega) x (by omega)]
    exact storeLe_outside (by omega)

theorem foldl_push_word : ∀ (ws : List ℕ) (mem : Buf) (sp : ℕ), 8 * ws.length ≤ sp →
    ∀ i w, ws[i]? = some w → w < 2 ^ 64 →
      le64 (ws.foldl push (mem, sp)).1 (sp - 8 * (i + 1)) = w
  | [], _, _, _, _, _, hi, _ => by simp at hi
  | v :: ws, mem, sp, hsp, 0, w, hi, hw => by
    rw [List.length_cons] at hsp
    rw [List.getElem?_cons_zero, Option.some_inj] at hi
    subst hi
    rw [List.foldl_cons, push, le64_congr fun x hge hlt =>
      foldl_push_frame ws _ _ (by omega) x (by omega)]
    exact le64_storeLe hw
  | v :: ws, mem, sp, hsp, i + 1, w, hi, hw => by
    rw [List.length_cons] at hsp
    rw [List.getElem?_cons_succ] at hi
    rw [List.foldl_cons, push, show sp - 8 * (i + 1 + 1) = sp - 8 - 8 * (i + 1) by omega]
    exact foldl_push_word ws _ _ (by omega) i w hi hw

end Push

section Strings

variable {m m' : Buf} {p : ℕ} {s : List UInt8}

theorem holdsString_iff :
    HoldsString m p s ↔ ∀ i ≤ s.length, m (p + i) = (s ++ [0]).getD i 0 := by
  unfold HoldsString bytesOf
  constructor
  · intro h i hi
    rw [← h]
    simp [List.getD, Nat.lt_succ_of_le hi]
  · intro h
    refine List.ext_getElem (by simp) fun i hi hi' => ?_
    rw [List.length_map, List.length_range] at hi
    rw [List.getElem_map, List.getElem_range, h i (by omega), List.getD_eq_getElem _ _ hi']

theorem holdsString_kstrlcpy (h : s.length < 256) : HoldsString (kstrlcpy m p s 256) p s := by
  rw [holdsString_iff]
  intro i hi
  rw [kstrlcpy, List.take_of_length_le (by omega),
    storeBytes_of_mem _ _ (by rw [List.length_append, List.length_singleton]; omega)]

theorem kstrlcpy_outside {x : ℕ} (h : s.length < 256) (hx : x < p ∨ p + s.length < x) :
    kstrlcpy m p s 256 x = m x := by
  rw [kstrlcpy, List.take_of_length_le (by omega),
    storeBytes_of_not_mem _ (by rw [List.length_append, List.length_singleton]; omega)]

theorem HoldsString.congr (h : HoldsString m p s) (hmem : ∀ i ≤ s.length, m' (p + i) = m (p + i)) :
    HoldsString m' p s := by
  rw [holdsString_iff] at h ⊢
  intro i hi
  rw [hmem i hi, h i hi]

end Strings

section Stack

variable {stack : ℕ} {m : Buf} {argv0 s : List UInt8} {argv1Opt : Option (List UInt8)}

theorem stackTop_spec (stack : ℕ) :
    stackTop stack % 16 = 0 ∧ 4081 ≤ stackTop stack ∧ stackTop stack ≤ stack + 4096 := by
  unfold stackTop
  omega

/-- One argument: `rsp` is 8 bytes below `argc`. -/
theorem userStack_one (h : secondArg argv1Opt = none) :
    userStack stack m argv0 argv1Opt
      = (([0, 0, 0, stackTop stack - 512, 1].foldl push
        (kstrlcpy m (stackTop stack - 512) argv0 256, stackTop stack)).1, stackTop stack - 48) := by
  simp only [userStack, h]
  refine Prod.ext rfl ?_
  have := stackTop_spec stack
  simp only [foldl_push_snd, List.length_cons, List.length_nil]
  omega

/-- Two arguments: `rsp` is the address of `argc`. -/
theorem userStack_two (h : secondArg argv1Opt = some s) :
    userStack stack m argv0 argv1Opt
      = (([0, 0, 0, stackTop stack - 256, stackTop stack - 512, 2].foldl push
        (kstrlcpy (kstrlcpy m (stackTop stack - 512) argv0 256) (stackTop stack - 256) s 256,
          stackTop stack)).1, stackTop stack - 48) := by
  have htop := stackTop_spec stack
  have hp1 : stackTop stack - 512 + 256 = stackTop stack - 256 := by omega
  simp only [userStack, h, hp1]
  refine Prod.ext rfl ?_
  simp only [foldl_push_snd, List.length_cons, List.length_nil]
  omega

/-- With one argument the word behind the pointers is the pointer to it. -/
theorem not_abiWords_one (m : Buf) (argv0 : List UInt8) (hstack : stack + 4096 < 2 ^ 64)
    (h : secondArg argv1Opt = none) :
    ¬ AbiWords (userStack stack m argv0 argv1Opt).1 (userStack stack m argv0 argv1Opt).2
      (args argv0 argv1Opt) := by
  intro habi
  have htop := stackTop_spec stack
  have hnull := habi.null
  have hargs : (args argv0 argv1Opt).length = 1 := by simp [args, h]
  rw [hargs, userStack_one h, argPtr,
    show stackTop stack - 48 + 8 + 8 * 1 = stackTop stack - 8 * (3 + 1) by omega,
    foldl_push_word _ _ _ (by simp; omega) 3 (stackTop stack - 512) rfl (by omega)] at hnull
  omega

/-- The words of the stack with two arguments. -/
theorem words_two (m : Buf) (argv0 : List UInt8) (hstack : stack + 4096 < 2 ^ 64)
    (h : secondArg argv1Opt = some s) :
    let st := userStack stack m argv0 argv1Opt
    st.2 = stackTop stack - 48 ∧ le64 st.1 st.2 = 2 ∧ argPtr st.1 st.2 0 = stackTop stack - 512 ∧
      argPtr st.1 st.2 1 = stackTop stack - 256 ∧ argPtr st.1 st.2 2 = 0 := by
  have htop := stackTop_spec stack
  rw [userStack_two h]
  set words := [0, 0, 0, stackTop stack - 256, stackTop stack - 512, 2]
  have hword := foldl_push_word words
    (kstrlcpy (kstrlcpy m (stackTop stack - 512) argv0 256) (stackTop stack - 256) s 256)
    (stackTop stack) (by simp [words]; omega)
  refine ⟨rfl, ?_, ?_, ?_, ?_⟩
  · exact hword 5 2 rfl (by decide)
  · rw [argPtr, show stackTop stack - 48 + 8 + 8 * 0 = stackTop stack - 8 * (4 + 1) by omega]
    exact hword 4 (stackTop stack - 512) rfl (by omega)
  · rw [argPtr, show stackTop stack - 48 + 8 + 8 * 1 = stackTop stack - 8 * (3 + 1) by omega]
    exact hword 3 (stackTop stack - 256) rfl (by omega)
  · rw [argPtr, show stackTop stack - 48 + 8 + 8 * 2 = stackTop stack - 8 * (2 + 1) by omega]
    exact hword 2 0 rfl (by decide)

/-- The strings of the stack with two arguments. -/
theorem strings_two (stack : ℕ) (m : Buf) (h0 : argv0.length < 256) (hs : s.length ≤ 207)
    (h : secondArg argv1Opt = some s) :
    HoldsString (userStack stack m argv0 argv1Opt).1 (stackTop stack - 512) argv0 ∧
      HoldsString (userStack stack m argv0 argv1Opt).1 (stackTop stack - 256) s := by
  have htop := stackTop_spec stack
  have hframe : ∀ x, x < stackTop stack - 48 → (userStack stack m argv0 argv1Opt).1 x
      = kstrlcpy (kstrlcpy m (stackTop stack - 512) argv0 256) (stackTop stack - 256) s 256 x := by
    intro x hx
    rw [userStack_two h]
    exact foldl_push_frame _ _ _ (by simp; omega) x (by simp; omega)
  constructor
  · refine (holdsString_kstrlcpy (m := m) h0).congr fun i hi => ?_
    rw [hframe _ (by omega), kstrlcpy_outside (by omega) (by omega)]
  · refine (holdsString_kstrlcpy (m := kstrlcpy m (stackTop stack - 512) argv0 256)
      (by omega)).congr fun i hi => ?_
    exact hframe _ (by omega)

theorem secondArg_eq_some : secondArg argv1Opt = some s ↔ argv1Opt = some s ∧ s ≠ [] := by
  simp [secondArg]

/-- The initial stack never follows the ABI: the strings are below `rsp`. Apart from that it does
just when there is a second argument of 1 to 207 bytes. -/
theorem user_stack_abi_iff {st : Buf × ℕ} (hst : userStack stack m argv0 argv1Opt = st)
    (hstack : stack + 4096 < 2 ^ 64) (h0 : argv0.length < 256) :
    ¬ (AbiWords st.1 st.2 (args argv0 argv1Opt) ∧ StringsAbove st.1 st.2 (args argv0 argv1Opt)) ∧
    (AbiWords st.1 st.2 (args argv0 argv1Opt)
      ↔ ∃ s, argv1Opt = some s ∧ s ≠ [] ∧ s.length ≤ 207) := by
  subst hst
  have htop := stackTop_spec stack
  rcases h : secondArg argv1Opt with _ | s
  · have hno := not_abiWords_one m argv0 hstack h
    refine ⟨fun habi => hno habi.1, fun habi => absurd habi hno, ?_⟩
    rintro ⟨s, hs, hne, -⟩
    rw [secondArg_eq_some.2 ⟨hs, hne⟩] at h
    cases h
  · obtain ⟨hrsp, hargc, hptr0, hptr1, hnull⟩ := words_two m argv0 hstack h
    obtain ⟨hsome, hne⟩ := secondArg_eq_some.1 h
    have hargs : args argv0 argv1Opt = [argv0, s] := by simp [args, h]
    rw [hargs]
    refine ⟨fun ⟨_, habove⟩ => ?_, fun habi => ⟨s, hsome, hne, ?_⟩, ?_⟩
    · have := habove 1 s rfl 0 (List.length_pos_iff.2 hne)
      rw [hptr1, hrsp] at this
      omega
    · by_contra hlong
      refine habi.apart 1 s rfl 208 (by omega) ?_
      rw [hptr1, hrsp]
      simp only [List.length_cons, List.length_nil]
      omega
    · rintro ⟨s', hs', -, hlen⟩
      rw [hsome, Option.some_inj] at hs'
      subst hs'
      obtain ⟨hhold0, hhold1⟩ := strings_two stack m h0 hlen h
      have hcase : ∀ i s', [argv0, s][i]? = some s' → (i = 0 ∧ s' = argv0) ∨ (i = 1 ∧ s' = s) := by
        intro i s' hi
        rcases i with _ | _ | i
        · exact Or.inl ⟨rfl, (Option.some_inj.1 hi).symm⟩
        · exact Or.inr ⟨rfl, (Option.some_inj.1 hi).symm⟩
        · simp at hi
      refine ⟨by rw [hrsp]; omega, hargc, fun i s' hi => ?_, hnull, fun i s' hi j hj => ?_⟩
      · rcases hcase i s' hi with ⟨rfl, rfl⟩ | ⟨rfl, rfl⟩
        · rw [hptr0]
          exact hhold0
        · rw [hptr1]
          exact hhold1
      · rcases hcase i s' hi with ⟨rfl, rfl⟩ | ⟨rfl, rfl⟩
        · rw [hptr0, hrsp]
          omega
        · rw [hptr1, hrsp]
          omega

theorem user_stack_abi_iff_two :
    AbiWords (userStack 0x200000 (fun _ => 0) [65] (some [66])).1
      (userStack 0x200000 (fun _ => 0) [65] (some [66])).2 [[65], [66]] :=
  (user_stack_abi_iff rfl (by decide) (by decide)).2.2 ⟨[66], rfl, by decide, by decide⟩

/-- Without a second argument the word at `rsp` is not `argc`, and with one the string is below
`rsp`. -/
theorem user_stack_off :
    let one := userStack 0x200000 (fun _ => 0) [65] none
    let two := userStack 0x200000 (fun _ => 0) [65] (some [66])
    (one.2 = 0x200FD0 ∧ le64 one.1 one.2 = 0 ∧ ¬ AbiWords one.1 one.2 [[65]]) ∧
      argPtr two.1 two.2 1 = 0x200F00 ∧ ¬ StringsAbove two.1 two.2 [[65], [66]] := by
  have hargc : le64 (userStack 0x200000 (fun _ => 0) [65] none).1
      (userStack 0x200000 (fun _ => 0) [65] none).2 = 0 := by
    decide +kernel
  refine ⟨⟨by decide +kernel, hargc, fun h => ?_⟩, by decide +kernel, fun h => ?_⟩
  · exact absurd (hargc.symm.trans h.argc) (by decide)
  · exact absurd (h 1 [66] rfl 0 (by decide)) (by decide +kernel)

end Stack

end Elf

end PeanutKernel
