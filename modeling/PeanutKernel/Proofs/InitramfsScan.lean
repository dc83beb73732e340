import PeanutKernel.Lib.Rounds
import PeanutKernel.Proofs.Initramfs
import Mathlib.Order.Interval.Finset.Nat

/-!
# Where the scan of the initramfs reads

The sizes in a header are padded and added to the offset modulo `2 ^ 32`, and one comparison of the
sum is all the code checks. The scan is a walk along offsets, none above the size of the section.
`initramfs_find_safe_iff` says when it comes to an end, reads the section alone and returns a part
of it; it does if no sum wraps. The archives at the end break each of the three. What it returns is
never the data of a member (`initramfs_reads_iff`).
-/

namespace PeanutKernel

namespace Initramfs

open StateTransition

section Round

/-- The header at `off` as the scan takes it up: the sizes of its name and of its data, unless the
scan ends there. -/
def scanHeader (total off : ℕ) : ByteM (Option (ℕ × ℕ)) :=
  if (off + 110) % 2 ^ 32 ≤ total then do
    if (← cpioIsNewc off ((total + 2 ^ 32 - off) % 2 ^ 32)) = false then pure none
    else do
      let namesz ← cpioHex 8 (off + 54) 0
      let filesz ← cpioHex 8 (off + 54 + 8) 0
      if namesz = 0 ∧ filesz = 0 then pure none
      else if total < (off + 110 + pad4 namesz + pad4 filesz) % 2 ^ 32 then pure none
      else pure (some (namesz, filesz))
  else pure none

/-- The rest of the round, for a header with these sizes. -/
def scanName (path : List UInt8) (off namesz filesz : ℕ) : ByteM (ℕ ⊕ Option (ℕ × ℕ)) := do
  if ← isTrailer (off + 110) namesz then pure (.inr none)
  else if ← nameMatchesExecPath path (off + 110) namesz then
    pure (.inr (some (off + 110 + pad4 namesz, filesz)))
  else pure (.inl ((off + (110 + pad4 namesz + pad4 filesz)) % 2 ^ 32))

def scanRound (path : List UInt8) (total off : ℕ) : ByteM (ℕ ⊕ Option (ℕ × ℕ)) := do
  match ← scanHeader total off with
  | none => pure (.inr none)
  | some (namesz, filesz) => scanName path off namesz filesz

theorem findLoop_eq (path : List UInt8) (total : ℕ) :
    ∀ fuel off, findLoop path total fuel off = Query.rounds (scanRound path total) fuel off
  | 0, _ => rfl
  | fuel + 1, off => by
    rw [findLoop, Query.rounds, scanRound, scanHeader]
    split_ifs with hroom
    · simp only [Query.bind_bind]
      refine congrArg _ (funext fun newc => ?_)
      rcases newc with _ | _
      · rfl
      · simp only [Bool.true_eq_false, if_false, Query.bind_bind]
        refine congrArg _ (funext fun namesz => congrArg _ (funext fun filesz => ?_))
        split_ifs
        · rfl
        · rfl
        · simp only [Query.pure_bind, scanName, Query.bind_bind]
          refine congrArg _ (funext fun trailer => ?_)
          rcases trailer with _ | _
          · simp only [Bool.false_eq_true, if_false, Query.bind_bind]
            refine congrArg _ (funext fun same => ?_)
            rcases same with _ | _
            · simp only [Bool.false_eq_true, if_false, Query.pure_bind, Sum.elim_inl]
              exact findLoop_eq path total fuel _
            · rfl
          · rfl
    · rfl

end Round

section Reads

variable {mem : Buf}

theorem run_readByte (p : ℕ) : (readByte p).run mem = some (mem p) := rfl

theorem trace_readByte_bind {α : Type} (p : ℕ) (f : UInt8 → ByteM α) :
    (readByte p >>= f).trace mem = p :: (f (mem p)).trace mem := rfl

theorem mem_trace_matchBytes {q : ℕ} :
    ∀ (bs : List UInt8) (off : ℕ), q ∈ (matchBytes bs off).trace mem →
      off ≤ q ∧ q < off + bs.length
  | [], _, h => by cases h
  | b :: bs, off, h => by
    rw [matchBytes, trace_readByte_bind, List.mem_cons] at h
    rw [List.length_cons]
    rcases h with rfl | h
    · omega
    · split_ifs at h
      · have := mem_trace_matchBytes bs (off + 1) h
        omega
      · cases h

/-- Bytes that are all the same have all been read. -/
theorem trace_matchBytes_of_true :
    ∀ (bs : List UInt8) (off : ℕ), (matchBytes bs off).run mem = some true → ∀ i < bs.length,
      off + i ∈ (matchBytes bs off).trace mem
  | [], _, _, _, h => by cases h
  | b :: bs, off, hrun, i, hi => by
    rw [matchBytes, Query.run_bind, run_readByte, Option.bind_some] at hrun
    rw [matchBytes, trace_readByte_bind, List.mem_cons]
    split_ifs at hrun ⊢ with hb
    · rcases i with _ | i
      · exact Or.inl rfl
      · have := trace_matchBytes_of_true bs (off + 1) hrun i (by simpa using hi)
        rw [Nat.add_right_comm] at this
        exact Or.inr this
    · cases hrun

/-- The number of bytes `cpio_hex` reads: up to the first that is not a digit. -/
def digitsRead (mem : Buf) : ℕ → ℕ → ℕ
  | 0, _ => 0
  | n + 1, p => if (hexDigit (mem p)).isSome then digitsRead mem n (p + 1) + 1 else 1

theorem digitsRead_le (mem : Buf) : ∀ n p, digitsRead mem n p ≤ n
  | 0, _ => le_rfl
  | n + 1, p => by
    have := digitsRead_le mem n (p + 1)
    rw [digitsRead]
    split_ifs <;> omega

theorem cpioHex_isSome (mem : Buf) : ∀ n p v, ((cpioHex n p v).run mem).isSome
  | 0, _, _ => rfl
  | n + 1, p, v => by
    rw [cpioHex, Query.run_bind, run_readByte, Option.bind_some]
    rcases hexDigit (mem p) with _ | d
    · rfl
    · exact cpioHex_isSome mem n (p + 1) _

theorem mem_trace_cpioHex {q : ℕ} :
    ∀ n p v, q ∈ (cpioHex n p v).trace mem ↔ p ≤ q ∧ q < p + digitsRead mem n p
  | 0, p, v => by
    simp [cpioHex, digitsRead]
  | n + 1, p, v => by
    rw [cpioHex, trace_readByte_bind, List.mem_cons, digitsRead]
    rcases hd : hexDigit (mem p) with _ | d
    · simp
      omega
    · simp only [Option.isSome_some, if_true]
      rw [mem_trace_cpioHex n (p + 1)]
      omega

theorem mem_trace_matchName {q : ℕ} :
    ∀ (w : List UInt8) (off : ℕ), q ∈ (matchName w off).trace mem → off ≤ q ∧ q < off + w.length
  | [], _, h => by cases h
  | a :: w, off, h => by
    rw [matchName, trace_readByte_bind, List.mem_cons] at h
    rw [List.length_cons]
    rcases h with rfl | h
    · omega
    · split_ifs at h
      · have := mem_trace_matchName w (off + 1) h
        omega
      · cases h

theorem matchName_isSome (mem : Buf) : ∀ w off, ((matchName w off).run mem).isSome
  | [], _ => rfl
  | a :: w, off => by
    rw [matchName, Query.run_bind, run_readByte, Option.bind_some]
    split_ifs
    · exact matchName_isSome mem w (off + 1)
    · rfl

theorem isTrailer_isSome (mem : Buf) (name namesz : ℕ) :
    ((isTrailer name namesz).run mem).isSome := by
  rw [isTrailer]
  split_ifs
  · rfl
  · obtain ⟨b, hrun, -⟩ := matchBytes_run mem (trailer ++ [0]) name
    rw [hrun]
    rfl

theorem nameMatches_isSome (mem : Buf) (path : List UInt8) (name namesz : ℕ) :
    ((nameMatchesExecPath path name namesz).run mem).isSome := by
  simp only [nameMatchesExecPath]
  split_ifs
  · rfl
  · rw [Query.run_bind, run_readByte, Option.bind_some]
    split_ifs <;> rfl
  · rw [Query.run_bind, run_readByte, Option.bind_some]
    split_ifs
    · rfl
    · exact matchName_isSome mem _ _

variable {name namesz : ℕ}

theorem mem_trace_isTrailer {q : ℕ} (h : q ∈ (isTrailer name namesz).trace mem) :
    2 ≤ namesz ∧ q < name + namesz := by
  rw [isTrailer] at h
  split_ifs at h with hlen
  · cases h
  · have hlt := (mem_trace_matchBytes _ _ h).2
    rw [List.length_append, List.length_singleton] at hlt
    rw [not_not.1 hlen]
    exact ⟨by decide, hlt⟩

theorem trace_isTrailer_of_true (h : (isTrailer name namesz).run mem = some true) :
    name + (namesz - 1) ∈ (isTrailer name namesz).trace mem := by
  rw [isTrailer] at h ⊢
  split_ifs at h ⊢ with hlen
  · cases h
  · rw [not_not.1 hlen]
    exact trace_matchBytes_of_true _ _ h trailer.length (by decide)

theorem trace_nameMatches {path : List UInt8} (h : 2 ≤ namesz) :
    name + (namesz - 1) ∈ (nameMatchesExecPath path name namesz).trace mem := by
  simp only [nameMatchesExecPath]
  rw [if_neg (by omega)]
  exact List.mem_cons_self

theorem mem_trace_nameMatches {path : List UInt8} {q : ℕ}
    (h : q ∈ (nameMatchesExecPath path name namesz).trace mem) :
    2 ≤ namesz ∧ q < name + namesz := by
  simp only [nameMatchesExecPath] at h
  by_cases hn : namesz < 2
  · rw [if_pos hn] at h
    cases h
  · rw [if_neg hn, trace_readByte_bind, List.mem_cons] at h
    refine ⟨by omega, ?_⟩
    rcases h with rfl | h
    · omega
    · split_ifs at h with hzero hlen
      · cases h
      · cases h
      · have := (mem_trace_matchName _ _ h).2
        omega

/-- If a member has a name, its last byte is read and none behind it. -/
theorem scanName_inside_iff {path : List UInt8} {total off filesz : ℕ} :
    (∀ q ∈ (scanName path off namesz filesz).trace mem, q < total)
      ↔ (2 ≤ namesz → off + 110 + namesz ≤ total) := by
  obtain ⟨tr, htr⟩ := Option.isSome_iff_exists.1 (isTrailer_isSome mem (off + 110) namesz)
  have htrace : (scanName path off namesz filesz).trace mem
      = (isTrailer (off + 110) namesz).trace mem
        ++ if tr = true then [] else (nameMatchesExecPath path (off + 110) namesz).trace mem := by
    rw [scanName, Query.trace_bind_some mem htr]
    rcases tr with _ | _
    · obtain ⟨same, hsame⟩ :=
        Option.isSome_iff_exists.1 (nameMatches_isSome mem path (off + 110) namesz)
      simp only [Bool.false_eq_true, if_false]
      rw [Query.trace_bind_some mem hsame]
      rcases same with _ | _ <;> simp
    · rfl
  rw [htrace]
  constructor
  · intro h hn
    have hlast : off + 110 + (namesz - 1) ∈ (isTrailer (off + 110) namesz).trace mem
        ++ if tr = true then [] else (nameMatchesExecPath path (off + 110) namesz).trace mem := by
      rw [List.mem_append]
      rcases tr with _ | _
      · exact Or.inr (trace_nameMatches hn)
      · exact Or.inl (trace_isTrailer_of_true htr)
    have := h _ hlast
    omega
  · intro h q hq
    have hq' : 2 ≤ namesz ∧ q < off + 110 + namesz := by
      rcases List.mem_append.1 hq with hq | hq
      · exact mem_trace_isTrailer hq
      · split_ifs at hq
        · cases hq
        · exact mem_trace_nameMatches hq
    exact hq'.2.trans_le (h hq'.1)

end Reads

section Header

variable {mem : Buf} {total off : ℕ}

def namesz (mem : Buf) (off : ℕ) : ℕ := ((cpioHex 8 (off + 54) 0).run mem).getD 0

def filesz (mem : Buf) (off : ℕ) : ℕ := ((cpioHex 8 (off + 54 + 8) 0).run mem).getD 0

/-- The scan takes the bytes at `off` for a header. -/
structure Newc (mem : Buf) (total off : ℕ) : Prop where
  room : (off + 110) % 2 ^ 32 ≤ total
  magic : (cpioIsNewc off ((total + 2 ^ 32 - off) % 2 ^ 32)).run mem = some true

/-- The header passes the checks. -/
structure Passes (mem : Buf) (total off : ℕ) : Prop extends Newc mem total off where
  sizes : ¬ (namesz mem off = 0 ∧ filesz mem off = 0)
  sum : (off + 110 + pad4 (namesz mem off) + pad4 (filesz mem off)) % 2 ^ 32 ≤ total

theorem run_namesz (mem : Buf) (off : ℕ) :
    (cpioHex 8 (off + 54) 0).run mem = some (namesz mem off) := by
  obtain ⟨n, hn⟩ := Option.isSome_iff_exists.1 (cpioHex_isSome mem 8 (off + 54) 0)
  rw [namesz, hn, Option.getD_some]

theorem run_filesz (mem : Buf) (off : ℕ) :
    (cpioHex 8 (off + 54 + 8) 0).run mem = some (filesz mem off) := by
  obtain ⟨n, hn⟩ := Option.isSome_iff_exists.1 (cpioHex_isSome mem 8 (off + 54 + 8) 0)
  rw [filesz, hn, Option.getD_some]

theorem cpioIsNewc_isSome (mem : Buf) (p remain : ℕ) :
    ((cpioIsNewc p remain).run mem).isSome := by
  rw [cpioIsNewc]
  split_ifs
  · rfl
  · obtain ⟨b, hrun, -⟩ := matchBytes_run mem magic p
    rw [hrun]
    rfl

theorem newc_or (mem : Buf) (hroom : (off + 110) % 2 ^ 32 ≤ total) :
    Newc mem total off ∨ ¬ Newc mem total off ∧
      (cpioIsNewc off ((total + 2 ^ 32 - off) % 2 ^ 32)).run mem = some false := by
  obtain ⟨b, hb⟩ := Option.isSome_iff_exists.1
    (cpioIsNewc_isSome mem off ((total + 2 ^ 32 - off) % 2 ^ 32))
  rcases b with _ | _
  · refine Or.inr ⟨fun h => ?_, hb⟩
    have := h.magic
    rw [hb] at this
    cases this
  · exact Or.inl ⟨hroom, hb⟩

theorem scanHeader_passes (h : Passes mem total off) :
    (scanHeader total off).run mem = some (some (namesz mem off, filesz mem off)) := by
  rw [scanHeader, if_pos h.room]
  simp only [Query.run_bind, h.magic, Option.bind_some, Bool.true_eq_false, if_false,
    run_namesz mem off, run_filesz mem off]
  rw [if_neg h.sizes, if_neg (Nat.not_lt.2 h.sum)]
  rfl

theorem scanHeader_stops (h : ¬ Passes mem total off) :
    (scanHeader total off).run mem = some none := by
  rw [scanHeader]
  split_ifs with hroom
  · rcases newc_or mem hroom with hnewc | ⟨-, hnewc⟩
    · simp only [Query.run_bind, hnewc.magic, Option.bind_some, Bool.true_eq_false, if_false,
        run_namesz mem off, run_filesz mem off]
      split_ifs with hsizes hsum
      · rfl
      · rfl
      · exact absurd ⟨hnewc, hsizes, Nat.not_lt.1 hsum⟩ h
    · simp only [Query.run_bind, hnewc, Option.bind_some, if_true, Query.run_pure]
  · rfl

/-- The bytes of a header that are read lie in the section, unless the header is so near to
`2 ^ 32` that its end wraps. -/
theorem scanHeader_inside_iff (htotal : total < 2 ^ 32) (hoff : off ≤ total) :
    (∀ q ∈ (scanHeader total off).trace mem, q < total)
      ↔ (Newc mem total off → off + 54 + digitsRead mem 8 (off + 54) ≤ total ∧
        off + 54 + 8 + digitsRead mem 8 (off + 54 + 8) ≤ total) := by
  have hmagic : ∀ q ∈ (cpioIsNewc off ((total + 2 ^ 32 - off) % 2 ^ 32)).trace mem,
      q < total := by
    intro q hq
    rw [cpioIsNewc] at hq
    split_ifs at hq with hremain
    · cases hq
    · have hlt : q < off + 6 := (mem_trace_matchBytes _ _ hq).2
      omega
  have hdigits : ∀ p, (∀ q ∈ (cpioHex 8 p 0).trace mem, q < total)
      ↔ p + digitsRead mem 8 p ≤ total := by
    intro p
    have hpos : 0 < digitsRead mem 8 p := by
      rw [digitsRead]
      split_ifs <;> omega
    simp only [mem_trace_cpioHex]
    constructor
    · intro h
      have := h (p + digitsRead mem 8 p - 1) (by omega)
      omega
    · intro h q hq
      omega
  by_cases hroom : (off + 110) % 2 ^ 32 ≤ total
  · rcases newc_or mem hroom with hnewc | ⟨hnot, hnewc⟩
    · have htrace : (scanHeader total off).trace mem
          = (cpioIsNewc off ((total + 2 ^ 32 - off) % 2 ^ 32)).trace mem
            ++ ((cpioHex 8 (off + 54) 0).trace mem ++ (cpioHex 8 (off + 54 + 8) 0).trace mem) := by
        rw [scanHeader, if_pos hroom, Query.trace_bind_some mem hnewc.magic]
        simp only [Bool.true_eq_false, if_false]
        rw [Query.trace_bind_some mem (run_namesz mem off),
          Query.trace_bind_some mem (run_filesz mem off)]
        split_ifs <;> simp
      rw [htrace]
      simp only [List.forall_mem_append, hdigits, hnewc, true_implies]
      exact ⟨fun h => h.2, fun h => ⟨hmagic, h⟩⟩
    · have htrace : (scanHeader total off).trace mem
          = (cpioIsNewc off ((total + 2 ^ 32 - off) % 2 ^ 32)).trace mem := by
        rw [scanHeader, if_pos hroom, Query.trace_bind_some mem hnewc]
        simp
      rw [htrace]
      exact ⟨fun _ h => absurd h hnot, fun _ => hmagic⟩
  · rw [scanHeader, if_neg hroom]
    exact ⟨fun _ h => absurd h.room hroom, fun _ q hq => by cases hq⟩

end Header

section Scan

variable {mem : Buf} {path : List UInt8} {total off : ℕ}

/-- The header is that of the member `initramfs_find` returns. -/
structure Found (mem : Buf) (path : List UInt8) (total off : ℕ) : Prop
    extends Passes mem total off where
  last : (isTrailer (off + 110) (namesz mem off)).run mem = some false
  same : (nameMatchesExecPath path (off + 110) (namesz mem off)).run mem = some true

theorem scanName_run (mem : Buf) (path : List UInt8) (off namesz filesz : ℕ) :
    ∃ tr same, (isTrailer (off + 110) namesz).run mem = some tr ∧
      (nameMatchesExecPath path (off + 110) namesz).run mem = some same ∧
      (scanName path off namesz filesz).run mem = some (if tr = true then .inr none
        else if same = true then .inr (some (off + 110 + pad4 namesz, filesz))
        else .inl ((off + (110 + pad4 namesz + pad4 filesz)) % 2 ^ 32)) := by
  obtain ⟨tr, htr⟩ := Option.isSome_iff_exists.1 (isTrailer_isSome mem (off + 110) namesz)
  obtain ⟨same, hsame⟩ :=
    Option.isSome_iff_exists.1 (nameMatches_isSome mem path (off + 110) namesz)
  refine ⟨tr, same, htr, hsame, ?_⟩
  rw [scanName, Query.run_bind, htr, Option.bind_some]
  rcases tr with _ | _
  · simp only [Bool.false_eq_true, if_false]
    rw [Query.run_bind, hsame, Option.bind_some]
    rcases same with _ | _ <;> rfl
  · rfl

theorem scanRound_stops (h : ¬ Passes mem total off) :
    (scanRound path total off).run mem = some (.inr none) := by
  rw [scanRound, Query.run_bind, scanHeader_stops h]
  rfl

theorem scanRound_passes (h : Passes mem total off) :
    (scanRound path total off).run mem
      = (scanName path off (namesz mem off) (filesz mem off)).run mem := by
  rw [scanRound, Query.run_bind, scanHeader_passes h]
  rfl

theorem scanRound_isSome (mem : Buf) (path : List UInt8) (total off : ℕ) :
    ((scanRound path total off).run mem).isSome := by
  by_cases h : Passes mem total off
  · obtain ⟨tr, same, -, -, hrun⟩ := scanName_run mem path off (namesz mem off)
      (filesz mem off)
    rw [scanRound_passes h, hrun]
    rfl
  · rw [scanRound_stops h]
    rfl

theorem scanRound_next {off' : ℕ} (h : (scanRound path total off).run mem = some (.inl off')) :
    Passes mem total off ∧
      off' = (off + (110 + pad4 (namesz mem off) + pad4 (filesz mem off))) % 2 ^ 32 := by
  by_cases hp : Passes mem total off
  · obtain ⟨tr, same, -, -, hrun⟩ := scanName_run mem path off (namesz mem off)
      (filesz mem off)
    rw [scanRound_passes hp, hrun, Option.some_inj] at h
    split_ifs at h
    exact ⟨hp, (Sum.inl.inj h).symm⟩
  · rw [scanRound_stops hp] at h
    cases h

theorem scanRound_found_iff {start size : ℕ} :
    (scanRound path total off).run mem = some (.inr (some (start, size)))
      ↔ Found mem path total off ∧ start = off + 110 + pad4 (namesz mem off) ∧
        size = filesz mem off := by
  by_cases hp : Passes mem total off
  · obtain ⟨tr, same, htr, hsame, hrun⟩ := scanName_run mem path off (namesz mem off)
      (filesz mem off)
    rw [scanRound_passes hp, hrun]
    constructor
    · intro h
      rw [Option.some_inj] at h
      split_ifs at h with h1 h2
      · cases h
      · rw [Sum.inr.injEq, Option.some_inj, Prod.mk.injEq] at h
        rw [Bool.not_eq_true] at h1
        exact ⟨⟨hp, h1 ▸ htr, h2 ▸ hsame⟩, h.1.symm, h.2.symm⟩
    · rintro ⟨hf, rfl, rfl⟩
      obtain rfl : tr = false := Option.some_inj.1 (htr.symm.trans hf.last)
      obtain rfl : same = true := Option.some_inj.1 (hsame.symm.trans hf.same)
      rfl
  · rw [scanRound_stops hp]
    constructor
    · intro h
      cases h
    · exact fun h => absurd h.1.toPasses hp

/-- What the scan reads for the header at `off` lies in the section, and so does the data it
returns. -/
structure InSection (mem : Buf) (path : List UInt8) (total off : ℕ) : Prop where
  digits : Newc mem total off → off + 54 + digitsRead mem 8 (off + 54) ≤ total ∧
    off + 54 + 8 + digitsRead mem 8 (off + 54 + 8) ≤ total
  name : Passes mem total off → 2 ≤ namesz mem off → off + 110 + namesz mem off ≤ total
  data : Found mem path total off → off + 110 + pad4 (namesz mem off) + filesz mem off ≤ total

theorem scanRound_inside_iff (htotal : total < 2 ^ 32) (hoff : off ≤ total) :
    ((∀ q ∈ (scanRound path total off).trace mem, q < total) ∧ ∀ start size,
        (scanRound path total off).run mem = some (.inr (some (start, size))) →
        start + size ≤ total)
      ↔ InSection mem path total off := by
  have hdata : (∀ start size, (scanRound path total off).run mem
      = some (.inr (some (start, size))) → start + size ≤ total)
      ↔ (Found mem path total off →
        off + 110 + pad4 (namesz mem off) + filesz mem off ≤ total) := by
    simp only [scanRound_found_iff]
    constructor
    · exact fun h hf => h _ _ ⟨hf, rfl, rfl⟩
    · rintro h start size ⟨hf, rfl, rfl⟩
      exact h hf
  have hreads : (∀ q ∈ (scanRound path total off).trace mem, q < total)
      ↔ (Newc mem total off → off + 54 + digitsRead mem 8 (off + 54) ≤ total ∧
        off + 54 + 8 + digitsRead mem 8 (off + 54 + 8) ≤ total) ∧
        (Passes mem total off → 2 ≤ namesz mem off → off + 110 + namesz mem off ≤ total) := by
    rw [← scanHeader_inside_iff htotal hoff]
    by_cases hp : Passes mem total off
    · rw [scanRound, Query.trace_bind_some mem (scanHeader_passes hp), List.forall_mem_append]
      simp only [hp, true_implies, scanName_inside_iff]
    · rw [scanRound, Query.trace_bind_some mem (scanHeader_stops hp), List.forall_mem_append]
      simp [hp]
  rw [hdata, hreads]
  exact ⟨fun h => ⟨h.1.1, h.1.2, h.2⟩, fun h => ⟨⟨h.digits, h.name⟩, h.data⟩⟩

/-- The scan comes to take the bytes at `off` for a header. -/
def ComesTo (mem : Buf) (path : List UInt8) (total off : ℕ) : Prop :=
  Reaches (Query.goesOn mem (scanRound path total)) 0 off

theorem ComesTo.le (h : ComesTo mem path total off) : off ≤ total := by
  induction h with
  | refl => exact Nat.zero_le _
  | tail _ hstep _ =>
    obtain ⟨hp, rfl⟩ := scanRound_next (Query.goesOn_eq_some.1 hstep)
    have := hp.sum
    rwa [Nat.add_assoc, Nat.add_assoc, ← Nat.add_assoc 110] at this

/-- `initramfs_find` returns, what it reads lies in the section, and so does what it returns. -/
structure Safe (mem : Buf) (path : List UInt8) (total : ℕ) : Prop where
  returns : ∃ fuel, ((initramfsFind fuel total path).run mem).isSome
  reads : ∀ fuel, ∀ q ∈ (initramfsFind fuel total path).trace mem, q < total
  slice : ∀ fuel start size, (initramfsFind fuel total path).run mem = some (some (start, size)) →
    start + size ≤ total

/-- The sums for the header at `off` do not wrap. -/
structure Exact (mem : Buf) (total off : ℕ) : Prop where
  header : Newc mem total off → off + 110 ≤ total
  member : Passes mem total off →
    off + 110 + align4 (namesz mem off) + align4 (filesz mem off) ≤ total

theorem initramfsFind_eq (htotal : total < 2 ^ 32) (hpos : total ≠ 0) (fuel : ℕ) :
    initramfsFind fuel total path = Query.rounds (scanRound path total) fuel 0 := by
  rw [initramfsFind, if_neg hpos, Nat.mod_eq_of_lt htotal, findLoop_eq]

theorem returns_iff (mem : Buf) (path : List UInt8) (htotal : total < 2 ^ 32)
    (hpos : total ≠ 0) :
    (∃ fuel, ((initramfsFind fuel total path).run mem).isSome)
      ↔ ¬ GoesRound (Query.goesOn mem (scanRound path total)) 0 := by
  have hfin : {off | ComesTo mem path total off}.Finite :=
    (Set.finite_le_nat total).subset fun off h => h.le
  rw [← dom_iff_not_goesRound hfin, ← Query.finishes_rounds (scanRound_isSome mem path total),
    Query.finishes_iff]
  simp only [initramfsFind_eq htotal hpos]

/-- What the scan returns is told by the header it ends at. -/
theorem returns_some_iff (htotal : total < 2 ^ 32) (hpos : total ≠ 0) {start size : ℕ} :
    (∃ fuel, (initramfsFind fuel total path).run mem = some (some (start, size)))
      ↔ ∃ off, ComesTo mem path total off ∧ Found mem path total off ∧
        start = off + 110 + pad4 (namesz mem off) ∧ size = filesz mem off := by
  simp only [initramfsFind_eq htotal hpos, ← scanRound_found_iff]
  exact Query.yields_rounds (scanRound_isSome mem path total)

theorem safe_iff (htotal : total < 2 ^ 32) (hpos : total ≠ 0) :
    Safe mem path total ↔ ¬ GoesRound (Query.goesOn mem (scanRound path total)) 0 ∧
      ∀ off, ComesTo mem path total off → InSection mem path total off := by
  have hret := scanRound_isSome mem path total
  have hreturns := returns_iff mem path htotal hpos
  have hreads : (∀ fuel, ∀ q ∈ (initramfsFind fuel total path).trace mem, q < total)
      ↔ ∀ off, ComesTo mem path total off →
        ∀ q ∈ (scanRound path total off).trace mem, q < total := by
    simp only [initramfsFind_eq htotal hpos]
    constructor
    · intro h off hoff q hq
      obtain ⟨fuel, hmem⟩ := (Query.mem_trace_rounds hret).2 ⟨off, hoff, hq⟩
      exact h fuel q hmem
    · intro h fuel q hq
      obtain ⟨off, hoff, hmem⟩ := (Query.mem_trace_rounds hret).1 ⟨fuel, hq⟩
      exact h off hoff q hmem
  have hslice : (∀ fuel start size, (initramfsFind fuel total path).run mem
      = some (some (start, size)) → start + size ≤ total)
      ↔ ∀ off, ComesTo mem path total off → ∀ start size,
        (scanRound path total off).run mem = some (.inr (some (start, size))) →
        start + size ≤ total := by
    simp only [initramfsFind_eq htotal hpos]
    constructor
    · intro h off hoff start size hrun
      obtain ⟨fuel, hmem⟩ := (Query.yields_rounds hret).2 ⟨off, hoff, hrun⟩
      exact h fuel start size hmem
    · intro h fuel start size hrun
      obtain ⟨off, hoff, hmem⟩ := (Query.yields_rounds hret).1 ⟨fuel, hrun⟩
      exact h off hoff start size hmem
  constructor
  · intro h
    refine ⟨hreturns.1 h.returns, fun off hoff => ?_⟩
    exact (scanRound_inside_iff htotal hoff.le).1
      ⟨hreads.1 h.reads off hoff, hslice.1 h.slice off hoff⟩
  · rintro ⟨hround, hall⟩
    have hboth := fun off hoff => (scanRound_inside_iff htotal (ComesTo.le hoff)).2 (hall off hoff)
    exact ⟨hreturns.2 hround, hreads.2 fun off hoff => (hboth off hoff).1,
      hslice.2 fun off hoff => (hboth off hoff).2⟩

/-- Where the sums do not wrap the next header lies behind the last. -/
theorem Exact.next {off' : ℕ} (htotal : total < 2 ^ 32) (h : Exact mem total off)
    (hstep : Query.goesOn mem (scanRound path total) off = some off') : off < off' := by
  obtain ⟨hp, rfl⟩ := scanRound_next (Query.goesOn_eq_some.1 hstep)
  have hsum := h.member hp
  unfold align4 at hsum
  unfold pad4
  omega

theorem Exact.inSection (h : Exact mem total off) :
    InSection mem path total off := by
  refine ⟨fun hnewc => ?_, fun hp _ => ?_, fun hf => ?_⟩
  · have hroom := h.header hnewc
    have h1 := digitsRead_le mem 8 (off + 54)
    have h2 := digitsRead_le mem 8 (off + 54 + 8)
    omega
  · have hsum := h.member hp
    unfold align4 at hsum
    omega
  · have hsum := h.member hf.toPasses
    unfold align4 at hsum
    unfold pad4
    omega

theorem not_goesRound_of_exact (htotal : total < 2 ^ 32)
    (h : ∀ off, ComesTo mem path total off → Exact mem total off) :
    ¬ GoesRound (Query.goesOn mem (scanRound path total)) 0 := by
  rintro ⟨off, hoff, hround⟩
  have hlt : ∀ off', Reaches₁ (Query.goesOn mem (scanRound path total)) off off' →
      off < off' := by
    intro off' hreach
    induction hreach with
    | single hstep => exact (h _ hoff).next htotal hstep
    | tail hreach hstep ih =>
      exact ih.trans ((h _ (hoff.trans hreach.to_reflTransGen)).next htotal hstep)
  exact lt_irrefl _ (hlt off hround)

/-- The scan comes to an end, reads the section alone and returns a part of it just when no header
it comes to is one it came to before, and the digits, the name and the data of each lie in the
section; they do if no sum wraps. -/
theorem initramfs_find_safe_iff (mem : Buf) (path : List UInt8) (htotal : total < 2 ^ 32) :
    (Safe mem path total ↔ ¬ GoesRound (Query.goesOn mem (scanRound path total)) 0 ∧
      ∀ off, ComesTo mem path total off → InSection mem path total off) ∧
    ((∀ off, ComesTo mem path total off → Exact mem total off) → Safe mem path total) := by
  have hiff : Safe mem path total ↔ ¬ GoesRound (Query.goesOn mem (scanRound path total)) 0 ∧
      ∀ off, ComesTo mem path total off → InSection mem path total off := by
    rcases Nat.eq_zero_or_pos total with rfl | hpos
    · have hempty : ∀ off, ComesTo mem path 0 off → Exact mem 0 off := by
        intro off hoff
        obtain rfl : off = 0 := Nat.le_zero.1 hoff.le
        exact ⟨fun h => absurd h.room (by decide), fun h => absurd h.room (by decide)⟩
      refine ⟨fun _ => ⟨not_goesRound_of_exact htotal hempty, fun off hoff =>
        (hempty off hoff).inSection⟩, fun _ => ⟨⟨0, rfl⟩, fun fuel q hq => ?_,
        fun fuel start size h => ?_⟩⟩
      · rw [initramfsFind, if_pos rfl] at hq
        cases hq
      · rw [initramfsFind, if_pos rfl] at h
        cases h
    · exact safe_iff htotal hpos.ne'
  exact ⟨hiff, fun h => hiff.2 ⟨not_goesRound_of_exact htotal h, fun off hoff =>
    (h off hoff).inSection⟩⟩

end Scan

section Reads

variable {mem : Buf} {path : List UInt8} {total : ℕ} {members : List Member}

/-- No header the scan stops at has its data where the data of a member is stored. -/
theorem WellFormed.stored_ne (hwf : WellFormed mem total members) {off start size : ℕ}
    (hstored : storedAt path 0 members = some (start, size)) (hf : Found mem path total off) :
    start ≠ off + 110 + pad4 (namesz mem off) := by
  obtain ⟨m, off', hentry, hnext, hlen, rfl⟩ := hwf.archive.stored hstored
  have hsmall := hwf.small
  rw [nameMatches_length hf.same, ← hlen]
  intro h
  rw [Member.next] at hnext
  rw [Member.dataAt] at h hnext
  have hle : 110 + (m.name.length + 1) ≤ align4 (110 + (m.name.length + 1)) := by
    unfold align4
    omega
  obtain rfl | rfl := header_of_dataAt (by omega) h
  · exact not_magic_two hentry.magic (cpioIsNewc_true hf.magic)
  · exact not_magic_two (cpioIsNewc_true hf.magic) hentry.magic

/-- `initramfs_find` never reads a member. For a path that names none it returns what it should
just when the scan comes to an end and the name at no header it comes to is the path. -/
theorem initramfs_reads_iff (path : List UInt8) (hwf : WellFormed mem total members) :
    Reads mem total members path
      ↔ storedAt path 0 members = none ∧
        ¬ GoesRound (Query.goesOn mem (scanRound path total)) 0 ∧
        ∀ off, ComesTo mem path total off → ¬ Found mem path total off := by
  have htotal := hwf.small
  have hpos : total ≠ 0 := hwf.total_ne_zero
  constructor
  · intro hreads
    rcases hstored : storedAt path 0 members with _ | ⟨start, size⟩
    · rw [Reads, hstored] at hreads
      refine ⟨rfl, (returns_iff mem path htotal hpos).1 ?_, fun off hoff hf => ?_⟩
      · obtain ⟨fuel, h⟩ := hreads
        exact ⟨fuel, by rw [h]; rfl⟩
      · have hsome := (returns_some_iff htotal hpos).2 ⟨off, hoff, hf, rfl, rfl⟩
        simp only [initramfsFind_eq htotal hpos] at hreads hsome
        cases Query.Yields.unique (Query.steady_rounds
          (scanRound_isSome mem path total)).fuelMono hreads hsome
    · rw [Reads, hstored, returns_some_iff htotal hpos] at hreads
      obtain ⟨off, -, hf, hstart, -⟩ := hreads
      exact absurd hstart (hwf.stored_ne hstored hf)
  · rintro ⟨hstored, hround, hnot⟩
    obtain ⟨fuel, h⟩ := (returns_iff mem path htotal hpos).2 hround
    rcases hrun : (initramfsFind fuel total path).run mem with _ | _ | ⟨start, size⟩
    · rw [hrun] at h
      cases h
    · exact ⟨fuel, by rw [hrun, hstored]⟩
    · obtain ⟨off, hoff, hf, -⟩ := (returns_some_iff htotal hpos).1 ⟨fuel, hrun⟩
      exact absurd hf (hnot off hoff)

end Reads

section Sample

/-- A header with these sizes where the code looks for them. -/
def headerBytes (namesz filesz : ℕ) : List UInt8 :=
  magic ++ (List.replicate 6 (hex8 0)).flatten ++ hex8 namesz ++ hex8 filesz
    ++ (List.replicate 5 (hex8 0)).flatten

variable {mem : Buf} {path : List UInt8} {total off : ℕ}

/-- The scan has two headers to look at. -/
theorem comesTo_two (next : ℕ) (h0 : Query.goesOn mem (scanRound path total) 0 = some next)
    (h1 : Query.goesOn mem (scanRound path total) next = none) (h : ComesTo mem path total off) :
    off = 0 ∨ off = next := by
  rcases Relation.ReflTransGen.cases_head h with h | ⟨c, hc, h⟩
  · exact Or.inl h.symm
  · obtain rfl : next = c := Option.some_inj.1 (h0.symm.trans hc)
    rcases Relation.ReflTransGen.cases_head h with h | ⟨c, hc, -⟩
    · exact Or.inr h.symm
    · rw [h1] at hc
      cases hc

/-- No member of `initArchive` is named `x`. The size 2 of the data of its one member is taken for
the size of a name, and the scan ends at offset 114, where there is no header. -/
theorem initramfs_reads_iff_absent : Reads initArchive 244 [⟨initName, 2⟩] [47, 120] := by
  have h0 : Query.goesOn initArchive (scanRound [47, 120] 244) 0 = some 114 := by decide +kernel
  have h1 : Query.goesOn initArchive (scanRound [47, 120] 244) 114 = none := by decide +kernel
  refine (initramfs_reads_iff [47, 120] initArchive_wellFormed).2
    ⟨by decide +kernel, fun h => h.not_dom (dom_eval_iff.2 ⟨114, .single h0, h1⟩),
      fun off hoff hf => ?_⟩
  obtain rfl | rfl := comesTo_two 114 h0 h1 hoff
  · exact absurd hf.same (by decide +kernel)
  · exact absurd hf.magic (by decide +kernel)

/-- The same happens for its name. The data is at offset 116. -/
theorem init_not_found :
    WellFormed initArchive 244 [⟨initName, 2⟩] ∧
      storedAt (47 :: initName) 0 [⟨initName, 2⟩] = some (116, 2) ∧
      (initramfsFind 2 244 (47 :: initName)).run initArchive = some none :=
  ⟨initArchive_wellFormed, by decide +kernel, by decide +kernel⟩

/-- Members `b` and `a`, the second with four bytes of data. -/
def twoMembers : Buf := fun i =>
  (headerBytes 2 0 ++ [98, 0, 0, 0] ++ headerBytes 2 4 ++ [97, 0, 0, 0, 1, 2, 3, 4]).getD i 0

theorem initramfs_find_safe_iff_two :
    Safe twoMembers [97] 232 ∧
      (initramfsFind 2 232 [97]).run twoMembers = some (some (228, 4)) := by
  refine ⟨(initramfs_find_safe_iff twoMembers [97] (by decide)).2 fun off hoff => ?_,
    by decide +kernel⟩
  obtain rfl | rfl := comesTo_two 114 (by decide +kernel) (by decide +kernel) hoff
  · exact ⟨fun _ => by decide, fun _ => by decide +kernel⟩
  · exact ⟨fun _ => by decide, fun _ => by decide +kernel⟩

/-- Two members, the sum of the second wrapping back to the first. -/
def roundArchive : Buf := fun i =>
  (headerBytes 2 0 ++ [98, 0, 0, 0] ++ headerBytes 2 (2 ^ 32 - 228) ++ [98, 0, 0, 0]).getD i 0

/-- A member whose name is padded to nothing. -/
def longName : Buf := fun i => (headerBytes (2 ^ 32 - 2) 4 ++ [0, 0, 0, 0]).getD i 0

/-- A member `a` with data past the section. -/
def longData : Buf := fun i =>
  (headerBytes 2 (2 ^ 32 - 114) ++ [97, 0, 0, 0]).getD i 0

/-- The scan of `roundArchive` goes from offset 0 to 114 and back and never returns; for `longName`
a byte far behind the section is read; of `longData` a slice behind the section is returned. -/
theorem scan_leaves_section :
    (∀ fuel, (initramfsFind fuel 228 [97]).run roundArchive = none) ∧
      110 + (2 ^ 32 - 3) ∈ (initramfsFind 2 114 [97]).trace longName ∧
      (initramfsFind 1 114 [97]).run longData = some (some (114, 2 ^ 32 - 114)) := by
  refine ⟨fun fuel => ?_, by decide +kernel, by decide +kernel⟩
  have h1 : Query.goesOn roundArchive (scanRound [97] 228) 0 = some 114 := by decide +kernel
  have h2 : Query.goesOn roundArchive (scanRound [97] 228) 114 = some 0 := by decide +kernel
  have hround : GoesRound (Query.goesOn roundArchive (scanRound [97] 228)) 0 :=
    ⟨0, .refl, .tail (.single h1) h2⟩
  have hnot := mt (Query.finishes_rounds (scanRound_isSome roundArchive [97] 228)).1 hround.not_dom
  rw [Query.finishes_iff, not_exists] at hnot
  rw [initramfsFind_eq (by decide) (by decide), ← Option.not_isSome_iff_eq_none]
  exact hnot fuel

end Sample

end Initramfs

end PeanutKernel
