import PeanutKernel.Shebang
import PeanutKernel.Proofs.Block
import Mathlib.Data.List.TakeWhile

/-!
# The grammar of a script's first line

A copying loop takes the longest run of bytes it does not stop at, or as much of it as fits
(`copyUntil_spec`). So the four loops take the line apart as the grammar does: they succeed just
when the line has an interpreter that fits its array, and leave it and what fits of the rest of the
line in the two arrays. The strings there are what the loader's model takes from the bytes of the
file (`parseShebangLine_strings`).
-/

namespace PeanutKernel.Elf.Shebang

open MemM

section Grammar

/-- A script's first line taken apart: after the mark, blanks, the interpreter, more blanks, the
rest of the line, and what follows the line. The interpreter and the rest of the line each end where
something they cannot hold stands. -/
structure Line (file : List UInt8) where
  blanks : List UInt8
  interp : List UInt8
  gap : List UInt8
  rest : List UInt8
  tail : List UInt8
  file_eq : file = ascii "#!" ++ (blanks ++ (interp ++ (gap ++ (rest ++ tail))))
  blanks_blank : ∀ c ∈ blanks, isBlank c
  interp_ne_nil : interp ≠ []
  interp_token : ∀ c ∈ interp, !(isLineEnd c || isBlank c)
  interp_ends : ∀ c ∈ (gap ++ (rest ++ tail)).head?, isLineEnd c || isBlank c
  gap_blank : ∀ c ∈ gap, isBlank c
  rest_starts : ∀ c ∈ rest.head?, !isBlank c
  rest_inside : ∀ c ∈ rest, !isLineEnd c
  rest_ends : ∀ c ∈ tail.head?, isLineEnd c

/-- The interpreter in what follows the mark. -/
def tokenOf (body : List UInt8) : List UInt8 :=
  (body.dropWhile isBlank).takeWhile fun c => !(isLineEnd c || isBlank c)

/-- What is left from the interpreter's end on, without the blanks. -/
def afterToken (body : List UInt8) : List UInt8 :=
  ((body.dropWhile isBlank).drop (tokenOf body).length).dropWhile isBlank

def restOf (body : List UInt8) : List UInt8 := (afterToken body).takeWhile fun c => !isLineEnd c

variable {p : UInt8 → Bool} {run rest : List UInt8}

theorem takeWhile_run (hrun : ∀ c ∈ run, p c) (hrest : ∀ c ∈ rest.head?, ¬ p c) :
    (run ++ rest).takeWhile p = run := by
  rw [List.takeWhile_append_of_pos hrun]
  rcases rest with _ | ⟨c, rest⟩
  · simp
  · simp [hrest c rfl]

theorem dropWhile_run (hrun : ∀ c ∈ run, p c) (hrest : ∀ c ∈ rest.head?, ¬ p c) :
    (run ++ rest).dropWhile p = rest := by
  rw [List.dropWhile_append_of_pos hrun]
  rcases rest with _ | ⟨c, rest⟩
  · rfl
  · simp [hrest c rfl]

theorem head?_dropWhile (p : UInt8 → Bool) (l : List UInt8) :
    ∀ c ∈ (l.dropWhile p).head?, p c = false := by
  intro c hc
  have h := List.head?_dropWhile_not p l
  rwa [Option.mem_def.1 hc] at h

theorem drop_takeWhile (p : UInt8 → Bool) (l : List UInt8) :
    l.drop (l.takeWhile p).length = l.dropWhile p := by
  nth_rewrite 2 [← List.takeWhile_append_dropWhile (p := p) (l := l)]
  exact List.drop_left

theorem not_isBlank_of_isLineEnd {c : UInt8} (h : isLineEnd c) : ¬ isBlank c := by
  simp only [isLineEnd, isBlank, Bool.or_eq_true, decide_eq_true_eq] at h ⊢
  rcases h with rfl | rfl <;> decide

namespace Line

variable {file : List UInt8} (l : Line file)

theorem interp_starts : ∀ c ∈ (l.interp ++ (l.gap ++ (l.rest ++ l.tail))).head?, ¬ isBlank c := by
  obtain ⟨c, t, hcons⟩ := List.exists_cons_of_ne_nil l.interp_ne_nil
  have hc := l.interp_token c (by rw [hcons]; exact List.mem_cons_self)
  intro c' hc'
  rw [hcons, List.cons_append, List.head?_cons, Option.mem_some_iff] at hc'
  subst hc'
  simp only [Bool.not_or, Bool.and_eq_true, Bool.not_eq_true'] at hc
  simp [hc.2]

theorem line_starts : ∀ c ∈ (l.rest ++ l.tail).head?, ¬ isBlank c := by
  intro c hc
  rcases hrest : l.rest with _ | ⟨d, t⟩
  · rw [hrest, List.nil_append] at hc
    exact not_isBlank_of_isLineEnd (l.rest_ends c hc)
  · have hd := l.rest_starts d (by rw [hrest]; rfl)
    rw [hrest, List.cons_append, List.head?_cons, Option.mem_some_iff] at hc
    subst hc
    simpa using hd

theorem parts : ∃ body, file = 35 :: 33 :: body ∧ tokenOf body = l.interp
    ∧ restOf body = l.rest := by
  refine ⟨l.blanks ++ (l.interp ++ (l.gap ++ (l.rest ++ l.tail))), l.file_eq, ?_⟩
  have hstart := dropWhile_run l.blanks_blank l.interp_starts
  have htoken : tokenOf (l.blanks ++ (l.interp ++ (l.gap ++ (l.rest ++ l.tail)))) = l.interp := by
    rw [tokenOf, hstart]
    exact takeWhile_run l.interp_token fun c hc => by simp [l.interp_ends c hc]
  refine ⟨htoken, ?_⟩
  rw [restOf, afterToken, htoken, hstart, List.drop_left, dropWhile_run l.gap_blank l.line_starts]
  exact takeWhile_run l.rest_inside fun c hc => by simp [l.rest_ends c hc]

end Line

/-- A file with a token after the mark has a first line. -/
def lineOf (body : List UInt8) (h : tokenOf body ≠ []) : Line (35 :: 33 :: body) where
  blanks := body.takeWhile isBlank
  interp := tokenOf body
  gap := ((body.dropWhile isBlank).drop (tokenOf body).length).takeWhile isBlank
  rest := restOf body
  tail := (afterToken body).dropWhile fun c => !isLineEnd c
  file_eq := by
    rw [restOf, List.takeWhile_append_dropWhile, afterToken, List.takeWhile_append_dropWhile,
      tokenOf, drop_takeWhile, List.takeWhile_append_dropWhile, List.takeWhile_append_dropWhile]
    rfl
  blanks_blank _ := List.mem_takeWhile_imp
  interp_ne_nil := h
  interp_token _ := List.mem_takeWhile_imp
  interp_ends c hc := by
    rw [restOf, List.takeWhile_append_dropWhile, afterToken, List.takeWhile_append_dropWhile,
      tokenOf, drop_takeWhile] at hc
    exact (Bool.not_eq_false' _).mp (head?_dropWhile _ _ c hc)
  gap_blank _ := List.mem_takeWhile_imp
  rest_starts c hc := by
    rw [restOf, List.head?_takeWhile, Option.mem_def, Option.filter_eq_some_iff] at hc
    rw [head?_dropWhile _ _ c hc.1]
    rfl
  rest_inside _ := List.mem_takeWhile_imp
  rest_ends c hc := (Bool.not_eq_false' _).mp (head?_dropWhile _ _ c hc)

end Grammar

/-- The bytes of the file from an index on. -/
def fileFrom (mem : Cell → UInt8) (len i : ℕ) : List UInt8 :=
  (List.range' i (len - i)).map fun j => mem (.data j)

section Loops

variable {P : Access Cell → Prop} {mem : Cell → UInt8} {len i : ℕ}

theorem fileFrom_lt (h : i < len) :
    fileFrom mem len i = mem (.data i) :: fileFrom mem len (i + 1) := by
  rw [fileFrom, show len - i = len - (i + 1) + 1 by omega, List.range'_succ, List.map_cons,
    fileFrom]

theorem fileFrom_ge (h : ¬ i < len) : fileFrom mem len i = [] := by
  rw [fileFrom, show len - i = 0 by omega]
  rfl

theorem fileFrom_congr {mem' : Cell → UInt8} (h : ∀ j, mem' (.data j) = mem (.data j)) :
    fileFrom mem' len i = fileFrom mem len i := by
  simp only [fileFrom, h]

theorem skipBlanks_spec (hread : ∀ j < len, P (.read (.data j))) (mem : Cell → UInt8) :
    fileFrom mem len ((skipBlanks len i).value mem) = (fileFrom mem len i).dropWhile isBlank
      ∧ (skipBlanks len i).after mem = mem
      ∧ MemM.Within P (skipBlanks len i) mem := by
  induction i using skipBlanks.induct len with
  | case1 i hlt ih =>
    rw [skipBlanks, if_pos hlt, value_bind, after_bind, within_bind, value_load, after_load,
      within_load, fileFrom_lt hlt, List.dropWhile_cons]
    cases hc : isBlank (mem (.data i)) with
    | true =>
      obtain ⟨hvalue, hafter, hwithin⟩ := ih
      exact ⟨hvalue, hafter, hread i hlt, hwithin⟩
    | false => exact ⟨fileFrom_lt hlt, rfl, hread i hlt, (within_pure _).2 trivial⟩
  | case2 i hge =>
    rw [skipBlanks, if_neg hge, within_pure]
    simp [fileFrom_ge hge]

/-- What a copying loop does with the run of bytes before the one where it stops, started with `n`
bytes in its array. -/
structure CopiesRun (P : Access Cell → Prop) (out : ℕ → Cell) (len sz i n : ℕ)
    (run : List UInt8) (p : MemM Cell UInt8 Copied) (mem : Cell → UInt8) : Prop where
  full : (p.value mem).full = decide (sz ≤ n + run.length)
  length : (p.value mem).n = n + (run.take (sz - 1 - n)).length
  rest : fileFrom mem len (p.value mem).i
    = (fileFrom mem len i).drop (run.take (sz - 1 - n)).length
  stored : bytesOf (fun k => p.after mem (out k)) (p.value mem).n
    = bytesOf (fun k => mem (out k)) n ++ run.take (sz - 1 - n)
  kept : ∀ cell, (∀ k, cell ≠ out k) → p.after mem cell = mem cell
  within : MemM.Within P p mem

theorem copyUntil_spec {stop : UInt8 → Bool} {out : ℕ → Cell} {sz n : ℕ} (hn : n < sz)
    (hread : ∀ j < len, P (.read (.data j))) (hwrite : ∀ k, k + 1 < sz → P (.write (out k)))
    (hinj : Function.Injective out) (hout : ∀ k j, out k ≠ .data j) (mem : Cell → UInt8) :
    CopiesRun P out len sz i n ((fileFrom mem len i).takeWhile fun c => !stop c)
      (copyUntil stop out len sz i n) mem := by
  induction i, n using copyUntil.induct len sz generalizing mem with
  | case1 i n hlt ih =>
    rw [copyUntil, if_pos hlt, fileFrom_lt hlt, List.takeWhile_cons]
    cases hstop : stop (mem (.data i)) with
    | true =>
      refine ⟨?_, ?_, ?_, ?_, ?_, ?_⟩ <;>
        simp [hstop, within_bind, fileFrom_lt hlt, hread i hlt]
      exact hn
    | false =>
      by_cases hfull : sz ≤ n + 1
      · have hsz : sz - 1 - n = 0 := by omega
        refine ⟨?_, ?_, ?_, ?_, ?_, ?_⟩ <;>
          simp [hstop, hfull, hsz, within_bind, fileFrom_lt hlt, hread i hlt]
        omega
      · have hdata : ∀ j, Function.update mem (out n) (mem (.data i)) (.data j) = mem (.data j) :=
          fun j => Function.update_of_ne (hout n j).symm _ _
        have hbelow : bytesOf (fun k => Function.update mem (out n) (mem (.data i)) (out k)) (n + 1)
            = bytesOf (fun k => mem (out k)) n ++ [mem (.data i)] := by
          rw [bytesOf_concat, Function.update_self]
          congr 1
          exact bytesOf_congr fun k hk => Function.update_of_ne (fun h => hk.ne (hinj h)) _ _
        have hsz : sz - 1 - n = sz - 1 - (n + 1) + 1 := by omega
        have hrest := ih (by omega) (Function.update mem (out n) (mem (.data i)))
        rw [fileFrom_congr hdata] at hrest
        obtain ⟨hfull', hlength, hrest, hstored, hkept, hwithin⟩ := hrest
        rw [fileFrom_congr hdata, fileFrom_congr hdata] at hrest
        rw [hbelow] at hstored
        refine ⟨?_, ?_, ?_, ?_, fun cell hcell => ?_, ?_⟩ <;>
          simp only [value_bind, after_bind, within_bind, value_load, after_load, within_load,
            after_store, within_store, hstop, if_neg hfull, hsz, List.take_succ_cons,
            List.length_cons, Bool.false_eq_true, if_false, Bool.not_false, if_true]
        · rw [hfull', Nat.add_assoc, Nat.add_comm 1]
        · rw [hlength]
          omega
        · rw [hrest, fileFrom_lt hlt, List.drop_succ_cons]
        · rw [hstored, List.append_assoc, List.singleton_append]
        · rw [hkept cell hcell, Function.update_of_ne (hcell n)]
        · exact ⟨hread i hlt, hwrite n (by omega), hwithin⟩
  | case2 i n hge =>
    rw [copyUntil, if_neg hge, fileFrom_ge hge]
    refine ⟨?_, ?_, ?_, ?_, ?_, ?_⟩ <;> simp [fileFrom_ge hge, hn]

end Loops

section Parse

/-- The array holds the bytes, with a zero behind them. -/
def Holds (mem : Cell → UInt8) (out : ℕ → Cell) (s : List UInt8) : Prop :=
  bytesOf (fun k => mem (out k)) (s.length + 1) = s ++ [0]

/-- What follows the mark begins with an interpreter that fits its array. -/
def Accepts (interpSz : ℕ) (body : List UInt8) : Prop :=
  tokenOf body ≠ [] ∧ (tokenOf body).length < interpSz

/-- The accesses inside the file and the two arrays. -/
def Inside (len interpSz argSz : ℕ) : Access Cell → Prop
  | .read (.data i) => i < len
  | .write (.interp i) => i < interpSz
  | .write (.arg i) => i < argSz
  | _ => False

variable {len interpSz argSz : ℕ} {mem : Cell → UInt8} {out : ℕ → Cell} {s : List UInt8}

theorem Holds.congr {mem' : Cell → UInt8} (h : Holds mem out s)
    (heq : ∀ k, mem' (out k) = mem (out k)) : Holds mem' out s := by
  rw [Holds, ← h]
  exact bytesOf_congr fun k _ => heq k

theorem holds_terminated (hinj : Function.Injective out) {n : ℕ} (hn : n = s.length)
    (h : bytesOf (fun k => mem (out k)) n = s) : Holds (Function.update mem (out n) 0) out s := by
  have hbelow : ∀ k < n, Function.update mem (out n) 0 (out k) = mem (out k) := fun k hk =>
    Function.update_of_ne (fun heq => hk.ne (hinj heq)) _ _
  rw [Holds, ← hn, bytesOf_concat, Function.update_self, bytesOf_congr hbelow, h]

variable (len interpSz) in
theorem parseArg_spec (harg : 0 < argSz) (i : ℕ) (mem : Cell → UInt8) :
    (parseArg len argSz i).value mem = 0
      ∧ Holds ((parseArg len argSz i).after mem) .arg
        ((((fileFrom mem len i).dropWhile isBlank).takeWhile fun c => !isLineEnd c).take
          (argSz - 1))
      ∧ (∀ k, (parseArg len argSz i).after mem (.interp k) = mem (.interp k))
      ∧ MemM.Within (Inside len interpSz argSz) (parseArg len argSz i) mem := by
  obtain ⟨hskip, hsame, hwithin⟩ :=
    skipBlanks_spec (P := Inside len interpSz argSz) (i := i) (fun _ hj => hj) mem
  have hcopy : CopiesRun (Inside len interpSz argSz) .arg len argSz _ 0 _
      (copyArg len argSz ((skipBlanks len i).value mem)) mem :=
    copyUntil_spec harg (fun _ hj => hj) (fun k hk => by change k < argSz; omega)
      (fun _ _ => Cell.arg.inj) (fun _ _ => nofun) mem
  rw [hskip] at hcopy
  have hstored := hcopy.stored
  have hlength := hcopy.length
  rw [Nat.sub_zero] at hstored hlength
  rw [Nat.zero_add] at hlength
  simp only [parseArg, value_bind, after_bind, within_bind, hsame, after_store, within_store,
    value_pure, after_pure, within_pure, and_true]
  refine ⟨trivial, holds_terminated (fun _ _ => Cell.arg.inj) hlength hstored, fun k => ?_, hwithin,
    hcopy.within, ?_⟩
  · rw [Function.update_of_ne (by simp), hcopy.kept _ fun _ => by simp]
  · change _ < argSz
    rw [hlength, List.length_take]
    omega

variable (len argSz) in
theorem parseInterp_spec (hinterp : 0 < interpSz) (mem : Cell → UInt8) :
    MemM.Within (Inside len interpSz argSz) (parseInterp len interpSz) mem
      ∧ (¬ Accepts interpSz (fileFrom mem len 2) → (parseInterp len interpSz).value mem = none)
      ∧ (Accepts interpSz (fileFrom mem len 2) → ∃ i,
        (parseInterp len interpSz).value mem = some i
          ∧ (fileFrom mem len i).dropWhile isBlank = afterToken (fileFrom mem len 2)
          ∧ Holds ((parseInterp len interpSz).after mem) .interp (tokenOf (fileFrom mem len 2))
          ∧ ∀ j, (parseInterp len interpSz).after mem (.data j) = mem (.data j)) := by
  obtain ⟨hskip, hsame, hwithin⟩ :=
    skipBlanks_spec (P := Inside len interpSz argSz) (i := 2) (fun _ hj => hj) mem
  have hcopy : CopiesRun (Inside len interpSz argSz) .interp len interpSz _ 0 _
      (copyInterp len interpSz ((skipBlanks len 2).value mem)) mem :=
    copyUntil_spec hinterp (fun _ hj => hj) (fun k hk => by change k < interpSz; omega)
      (fun _ _ => Cell.interp.inj) (fun _ _ => nofun) mem
  rw [hskip] at hcopy
  change CopiesRun _ _ _ _ _ _ (tokenOf (fileFrom mem len 2)) _ _ at hcopy
  have hfull := hcopy.full
  rw [Nat.zero_add] at hfull
  rw [parseInterp, value_bind, after_bind, within_bind, hsame, value_bind, after_bind, within_bind,
    hfull]
  by_cases hlong : interpSz ≤ (tokenOf (fileFrom mem len 2)).length
  · rw [decide_eq_true hlong, if_pos rfl]
    exact ⟨⟨hwithin, hcopy.within, (within_pure _).2 trivial⟩, fun _ => rfl,
      fun h => absurd hlong h.2.not_ge⟩
  · have htake : (tokenOf (fileFrom mem len 2)).take (interpSz - 1 - 0)
        = tokenOf (fileFrom mem len 2) := List.take_of_length_le (by omega)
    have hlength := hcopy.length
    have hrest := hcopy.rest
    have hstored := hcopy.stored
    rw [htake, hskip] at hrest
    rw [htake] at hstored
    rw [htake, Nat.zero_add] at hlength
    have hinside : (tokenOf (fileFrom mem len 2)).length < interpSz := Nat.not_le.1 hlong
    have hheld := holds_terminated (fun _ _ => Cell.interp.inj) hlength hstored
    rw [decide_eq_false hlong, if_neg Bool.false_ne_true, value_bind, after_bind, within_bind,
      after_store, within_store]
    refine ⟨⟨hwithin, hcopy.within, hlength.trans_lt hinside, ?_⟩, fun h => ?_, fun h => ?_⟩
    · split_ifs <;> exact (within_pure _).2 trivial
    · have hnil : tokenOf (fileFrom mem len 2) = [] := by_contra fun hne => h ⟨hne, hinside⟩
      rw [if_pos (hlength.trans (List.length_eq_zero_iff.2 hnil))]
      rfl
    · rw [if_neg fun hzero => h.1 (List.length_eq_zero_iff.1 (hlength.symm.trans hzero))]
      refine ⟨_, rfl, congrArg _ hrest, hheld, fun j => ?_⟩
      rw [after_pure, Function.update_of_ne (by simp), hcopy.kept _ fun _ => by simp]

theorem fileFrom_mark (mem : Cell → UInt8) (hlen : 2 ≤ len) :
    fileFrom mem len 0 = mem (.data 0) :: mem (.data 1) :: fileFrom mem len 2 := by
  rw [fileFrom_lt (show 0 < len by omega), fileFrom_lt (show 0 + 1 < len by omega)]

theorem body_eq {body : List UInt8} (h : fileFrom mem len 0 = 35 :: 33 :: body) :
    2 ≤ len ∧ mem (.data 0) = 35 ∧ mem (.data 1) = 33 ∧ fileFrom mem len 2 = body := by
  have hlen := congrArg List.length h
  rw [fileFrom, List.length_map, List.length_range', List.length_cons, List.length_cons] at hlen
  have hlen : 2 ≤ len := by omega
  rw [fileFrom_mark mem hlen, List.cons.injEq, List.cons.injEq] at h
  exact ⟨hlen, h⟩

section

variable (hinterp : 0 < interpSz)

include hinterp

/-- The function with a file behind it whose first line is a script's. -/
theorem parseShebangLine_accepts (harg : 0 < argSz) {body : List UInt8}
    (hfile : fileFrom mem len 0 = 35 :: 33 :: body) (haccepts : Accepts interpSz body) :
    (parseShebangLine len interpSz argSz).value mem = 0
      ∧ Holds ((parseShebangLine len interpSz argSz).after mem) .interp (tokenOf body)
      ∧ Holds ((parseShebangLine len interpSz argSz).after mem) .arg
        ((restOf body).take (argSz - 1)) := by
  obtain ⟨hlen, h0, h1, rfl⟩ := body_eq hfile
  obtain ⟨-, -, hspec⟩ := parseInterp_spec len argSz hinterp mem
  obtain ⟨i, hvalue, hrest, hheld, hdata⟩ := hspec haccepts
  obtain ⟨hzero, harg, hkept, -⟩ :=
    parseArg_spec len interpSz harg i ((parseInterp len interpSz).after mem)
  rw [fileFrom_congr hdata, hrest] at harg
  simp only [parseShebangLine, if_neg hlen.not_gt, value_bind, after_bind, value_load, after_load,
    h0, h1, hvalue, ne_eq, not_true, if_false]
  exact ⟨hzero, hheld.congr hkept, harg⟩

theorem parseShebangLine_refuses
    (h : ∀ body, fileFrom mem len 0 = 35 :: 33 :: body → ¬ Accepts interpSz body) :
    (parseShebangLine len interpSz argSz).value mem = -1 := by
  rw [parseShebangLine]
  split_ifs with hlen
  · rfl
  · rw [value_bind, value_load, after_load]
    split_ifs with h0
    · rfl
    · rw [value_bind, value_load, after_load]
      split_ifs with h1
      · rfl
      · have hfile := fileFrom_mark mem (Nat.not_lt.1 hlen)
        rw [not_not.1 h0, not_not.1 h1] at hfile
        rw [value_bind, (parseInterp_spec len argSz hinterp mem).2.1 (h _ hfile)]
        rfl

theorem parseShebangLine_within (harg : 0 < argSz) (mem : Cell → UInt8) :
    MemM.Within (Inside len interpSz argSz) (parseShebangLine len interpSz argSz) mem := by
  rw [parseShebangLine]
  split_ifs with hlen
  · exact (within_pure _).2 trivial
  · rw [within_bind, within_load, value_load, after_load]
    refine ⟨show 0 < len by omega, ?_⟩
    split_ifs with h0
    · exact (within_pure _).2 trivial
    · rw [within_bind, within_load, value_load, after_load]
      refine ⟨show 1 < len by omega, ?_⟩
      split_ifs with h1
      · exact (within_pure _).2 trivial
      · rw [within_bind]
        refine ⟨(parseInterp_spec len argSz hinterp mem).1, ?_⟩
        rcases (parseInterp len interpSz).value mem with _ | i
        · exact (within_pure _).2 trivial
        · exact (parseArg_spec len interpSz harg i _).2.2.2

theorem parseShebangLine_zero_iff (harg : 0 < argSz) :
    (parseShebangLine len interpSz argSz).value mem = 0
      ↔ ∃ l : Line (fileFrom mem len 0), l.interp.length < interpSz := by
  constructor
  · intro hzero
    by_contra hnone
    have hrefuses : (parseShebangLine len interpSz argSz).value mem = -1 := by
      refine parseShebangLine_refuses hinterp fun body hfile haccepts => hnone ?_
      rw [hfile]
      exact ⟨lineOf body haccepts.1, haccepts.2⟩
    rw [hrefuses] at hzero
    exact absurd hzero (by decide)
  · rintro ⟨l, hlength⟩
    obtain ⟨body, hfile, htoken, -⟩ := l.parts
    refine (parseShebangLine_accepts hinterp harg hfile ⟨?_, ?_⟩).1
    · rw [htoken]
      exact l.interp_ne_nil
    · rwa [htoken]

theorem parseShebangLine_line (harg : 0 < argSz) {file : List UInt8}
    (hmem : fileFrom mem len 0 = file) (l : Line file) (hlength : l.interp.length < interpSz) :
    (parseShebangLine len interpSz argSz).value mem = 0
      ∧ Holds ((parseShebangLine len interpSz argSz).after mem) .interp l.interp
      ∧ Holds ((parseShebangLine len interpSz argSz).after mem) .arg
        (l.rest.take (argSz - 1)) := by
  obtain ⟨body, hfile, htoken, hrest⟩ := l.parts
  rw [← htoken, ← hrest]
  exact parseShebangLine_accepts hinterp harg (hmem.trans hfile)
    ⟨by rw [htoken]; exact l.interp_ne_nil, by rwa [htoken]⟩

end

/-- A file with one blank between the interpreter and the rest of the line. -/
def lineWith {interp arg : List UInt8} (hne : interp ≠ [])
    (htoken : ∀ c ∈ interp, !(isLineEnd c || isBlank c)) (hstarts : ∀ c ∈ arg.head?, !isBlank c)
    (hinside : ∀ c ∈ arg, !isLineEnd c) :
    Line (ascii "#!" ++ (interp ++ (ascii " " ++ (arg ++ ascii "\n")))) where
  blanks := []
  interp := interp
  gap := ascii " "
  rest := arg
  tail := ascii "\n"
  file_eq := rfl
  blanks_blank := by simp
  interp_ne_nil := hne
  interp_token := htoken
  interp_ends c hc := by
    obtain rfl : (32 : UInt8) = c := Option.some.inj hc
    rfl
  gap_blank := List.all_eq_true.1 rfl
  rest_starts := hstarts
  rest_inside := hinside
  rest_ends c hc := by
    obtain rfl : (10 : UInt8) = c := Option.some.inj hc
    rfl

/-- The function succeeds just on a script's first line whose interpreter has at most 127 bytes,
and leaves the interpreter and the first 127 bytes of the rest of the line in its arrays. -/
theorem parseShebangLine_grammar (len : ℕ) (mem : Cell → UInt8) :
    ((parseShebangLine len 128 128).value mem = 0
        ↔ ∃ l : Line (fileFrom mem len 0), l.interp.length ≤ 127)
      ∧ (∀ l : Line (fileFrom mem len 0), l.interp.length ≤ 127 →
        Holds ((parseShebangLine len 128 128).after mem) .interp l.interp
          ∧ Holds ((parseShebangLine len 128 128).after mem) .arg (l.rest.take 127))
      ∧ MemM.Within (Inside len 128 128) (parseShebangLine len 128 128) mem
      ∧ ∀ interp arg : List UInt8, interp ≠ [] → interp.length ≤ 127 →
        (∀ c ∈ interp, !(isLineEnd c || isBlank c)) → arg.length ≤ 127 →
        (∀ c ∈ arg.head?, !isBlank c) → (∀ c ∈ arg, !isLineEnd c) →
        fileFrom mem len 0 = ascii "#!" ++ (interp ++ (ascii " " ++ (arg ++ ascii "\n"))) →
        (parseShebangLine len 128 128).value mem = 0
          ∧ Holds ((parseShebangLine len 128 128).after mem) .interp interp
          ∧ Holds ((parseShebangLine len 128 128).after mem) .arg arg := by
  have hsz : 0 < 128 := by decide
  refine ⟨?_, fun l hlength => ?_, parseShebangLine_within hsz hsz mem, ?_⟩
  · rw [parseShebangLine_zero_iff hsz hsz]
    exact exists_congr fun l => Nat.lt_succ_iff
  · exact (parseShebangLine_line hsz hsz rfl l (Nat.lt_succ_of_le hlength)).2
  · intro interp arg hne hlength htoken harg hstarts hinside hfile
    have hparse := parseShebangLine_line hsz hsz hfile (lineWith hne htoken hstarts hinside)
      (Nat.lt_succ_of_le hlength)
    rwa [show (lineWith hne htoken hstarts hinside).rest.take (128 - 1) = arg from
      List.take_of_length_le harg] at hparse

theorem parseShebangLine_grammar_sh :
    (parseShebangLine 13 128 128).value
        (fun | .data i => (ascii "#!/bin/sh -e\n").getD i 0 | _ => 170) = 0
      ∧ Holds ((parseShebangLine 13 128 128).after
        fun | .data i => (ascii "#!/bin/sh -e\n").getD i 0 | _ => 170) .interp (ascii "/bin/sh")
      ∧ Holds ((parseShebangLine 13 128 128).after
        fun | .data i => (ascii "#!/bin/sh -e\n").getD i 0 | _ => 170) .arg (ascii "-e") :=
  (parseShebangLine_grammar 13 _).2.2.2 (ascii "/bin/sh") (ascii "-e") (by decide) (by decide)
    (List.all_eq_true.1 rfl) (by decide) (by simp [ascii, isBlank]) (List.all_eq_true.1 rfl)
    (by decide)

end Parse

section Strings

variable {len interpSz argSz : ℕ} {mem : Cell → UInt8} {out : ℕ → Cell} {s : List UInt8}

theorem cstr_of_holds {sz : ℕ} (h : Holds mem out s) (hlt : s.length < sz) :
    cstr (bytesOf (fun k => mem (out k)) sz) = cstr s := by
  obtain ⟨k, rfl⟩ := Nat.exists_eq_add_of_le (Nat.succ_le_of_lt hlt)
  rw [bytesOf, List.range_add, List.map_append, ← bytesOf, Nat.succ_eq_add_one, h,
    List.append_assoc, cstr, List.takeWhile_append, cstr]
  split_ifs with hall
  · rw [(List.takeWhile_prefix _).eq_of_length hall]
    exact List.append_nil s
  · rfl

theorem elf_parseShebangLine (body : List UInt8) (interpSz argSz : ℕ) :
    Elf.parseShebangLine (35 :: 33 :: body) interpSz argSz
      = if interpSz ≤ (tokenOf body).length then none
        else if tokenOf body = [] then none
        else some (cstr (tokenOf body), cstr ((restOf body).take (argSz - 1))) := rfl

/-- What the loader goes on with, the strings in the two arrays, is what it takes from the bytes of
the file. -/
theorem parseShebangLine_strings (hinterp : 0 < interpSz) (harg : 0 < argSz) :
    Elf.parseShebangLine (fileFrom mem len 0) interpSz argSz
      = if (parseShebangLine len interpSz argSz).value mem = 0 then
          some (cstr (bytesOf
              (fun k => (parseShebangLine len interpSz argSz).after mem (.interp k)) interpSz),
            cstr (bytesOf
              (fun k => (parseShebangLine len interpSz argSz).after mem (.arg k)) argSz))
        else none := by
  by_cases h : ∃ body, fileFrom mem len 0 = 35 :: 33 :: body ∧ Accepts interpSz body
  · obtain ⟨body, hfile, haccepts⟩ := h
    obtain ⟨hzero, hinterp', harg'⟩ := parseShebangLine_accepts hinterp harg hfile haccepts
    have hcut : ((restOf body).take (argSz - 1)).length < argSz := by
      rw [List.length_take]
      omega
    rw [hfile, elf_parseShebangLine, if_neg haccepts.2.not_ge, if_neg haccepts.1, if_pos hzero,
      cstr_of_holds hinterp' haccepts.2, cstr_of_holds harg' hcut]
  · have hrefuses : ∀ body, fileFrom mem len 0 = 35 :: 33 :: body → ¬ Accepts interpSz body :=
      fun body hfile haccepts => h ⟨body, hfile, haccepts⟩
    rw [parseShebangLine_refuses hinterp hrefuses, if_neg (by decide)]
    by_cases hmark : ∃ body, fileFrom mem len 0 = 35 :: 33 :: body
    · obtain ⟨body, hfile⟩ := hmark
      rw [hfile, elf_parseShebangLine]
      split_ifs with hlong hnil
      · rfl
      · rfl
      · exact absurd ⟨hnil, Nat.not_le.1 hlong⟩ (hrefuses body hfile)
    · rw [Elf.parseShebangLine.eq_def]
      split
      · next body hfile => exact absurd ⟨body, hfile⟩ hmark
      · rfl

end Strings

end PeanutKernel.Elf.Shebang
