import PeanutKernel.Ahci
import PeanutKernel.Proofs.Alloc

/-!
# Transfers through the adapter

The adapter finds in memory the command the driver was asked for, as long as the disk is addressed
by 48 bits and memory by 32 (`decode_built`).
-/

namespace PeanutKernel

namespace Ahci

open Alloc (storeLe storeLe_outside storeLe_inside le32_bytes le32_storeLe)

section Memory

/-- What an access does to memory. -/
def Access.onMem (mem : Buf) : Access → Buf
  | .store bytes a value => storeLe bytes mem a value
  | .setBits a mask value => Function.update mem a (mem a &&& ~~~mask ||| value)
  | .readReg _ => mem
  | .writeReg _ _ => mem

def Access.IsMem : Access → Prop
  | .store _ _ _ => True
  | .setBits _ _ _ => True
  | .readReg _ => False
  | .writeReg _ _ => False

theorem foldl_serve :
    ∀ {qs : List Access} {p : Port}, (∀ q ∈ qs, q.IsMem) →
      qs.foldl (fun p q => (p.serve q).2) p = { p with mem := qs.foldl Access.onMem p.mem }
  | [], _, _ => rfl
  | q :: qs, p, h => by
    rw [List.forall_mem_cons] at h
    rw [List.foldl_cons, foldl_serve h.2]
    cases q with
    | store bytes a value => rfl
    | setBits a mask value => rfl
    | readReg r => exact h.1.elim
    | writeReg r value => exact h.1.elim

theorem memzero_isMem (ptr len : ℕ) : ∀ q ∈ memzero ptr len, q.IsMem := by
  simp only [memzero, List.forall_mem_map]
  exact fun _ _ => trivial

theorem memzero_apply (mem : Buf) (ptr x : ℕ) :
    ∀ len : ℕ, (memzero ptr len).foldl Access.onMem mem x
      = if ptr ≤ x ∧ x < ptr + len then 0 else mem x
  | 0 => (if_neg (by omega)).symm
  | len + 1 => by
    have ih := memzero_apply mem ptr x len
    rw [memzero, List.range_succ, List.map_append, List.foldl_append]
    change storeLe 1 ((memzero ptr len).foldl Access.onMem mem) (ptr + len) 0 x = _
    by_cases hx : x = ptr + len
    · subst hx
      rw [if_pos (by omega)]
      exact storeLe_inside (i := 0) (by omega)
    · rw [storeLe_outside (by omega), ih]
      split_ifs <;> first | rfl | omega

theorem storeLe_self {n a v : ℕ} {m : Buf} (h : 0 < n) : storeLe n m a v a = UInt8.ofNat v := by
  simpa using storeLe_inside (m := m) (a := a) (v := v) h

theorem le32_of_bytes {m : Buf} {a v : ℕ} (h : ∀ i < 4, m (a + i) = UInt8.ofNat (v / 256 ^ i)) :
    le32 m a = v % 2 ^ 32 :=
  le32_bytes (by simpa using h 0 (by omega)) (by simpa using h 1 (by omega)) (h 2 (by omega))
    (h 3 (by omega))

theorem le64_of_bytes {m : Buf} {a v : ℕ} (hv : v < 2 ^ 32)
    (hlow : ∀ i < 4, m (a + i) = UInt8.ofNat (v / 256 ^ i))
    (hhigh : ∀ i < 4, m (a + 4 + i) = UInt8.ofNat (0 / 256 ^ i)) : le64 m a = v := by
  rw [le64, le32_of_bytes hlow, le32_of_bytes hhigh, Nat.mod_eq_of_lt hv, Nat.zero_mod,
    Nat.mul_zero, Nat.add_zero]

end Memory

section Build

structure Request where
  lba : ℕ
  count : ℕ
  buffer : ℕ
  write : Bool
  deriving DecidableEq, Repr

variable {pd : ℕ} {r : Request} {mem : Buf}

def build (pd : ℕ) (r : Request) : List Access := buildCommand pd r.lba r.count r.buffer r.write

/-- Memory once a command is built. -/
@[irreducible] def built (pd : ℕ) (r : Request) (mem : Buf) : Buf :=
  (build pd r).foldl Access.onMem mem

theorem build_isMem (pd : ℕ) (r : Request) : ∀ q ∈ build pd r, q.IsMem := by
  simp only [build, buildCommand, List.forall_mem_append, buildHeader, buildPrdt, buildFis,
    List.forall_mem_cons, Access.IsMem, List.not_mem_nil, false_imp_iff, implies_true, and_true]
  exact memzero_isMem _ _

/-- The stores, the last one outermost. -/
theorem built_eq (x : ℕ) :
    built pd r mem x
      = (buildFis pd r.lba r.count r.write).foldl Access.onMem
          ((buildPrdt pd r.count r.buffer).foldl Access.onMem
            ((buildHeader pd r.write).foldl Access.onMem
              ((memzero (pd + 2304) 144).foldl Access.onMem mem))) x := by
  simp only [built, build, buildCommand, List.foldl_append, commandTableOff, commandTableBytes]

variable {x : ℕ}

theorem buildFis_outside (h : x < pd + 2304 ∨ pd + 2318 ≤ x) :
    (buildFis pd r.lba r.count r.write).foldl Access.onMem mem x = mem x := by
  simp only [buildFis, List.foldl_cons, List.foldl_nil, Access.onMem, commandTableOff]
  simp (disch := omega) only [storeLe_outside, Function.update_of_ne]

theorem buildPrdt_outside (h : x < pd + 2432 ∨ pd + 2448 ≤ x) :
    (buildPrdt pd r.count r.buffer).foldl Access.onMem mem x = mem x := by
  simp only [buildPrdt, List.foldl_cons, List.foldl_nil, Access.onMem, commandTableOff]
  simp (disch := omega) only [storeLe_outside]

theorem foldl_buildHeader {write : Bool} :
    (buildHeader pd write).foldl Access.onMem mem
      = storeLe 4 (storeLe 4 (storeLe 2 (Function.update mem (pd + 1024)
          ((mem (pd + 1024) &&& ~~~0x1F ||| 5) &&& ~~~0x40 ||| if write then 0x40 else 0))
        (pd + 1026) 1) (pd + 1032) (pd + 2304)) (pd + 1036) 0 := by
  simp [buildHeader, Access.onMem, commandListOff, commandTableOff]

theorem buildHeader_outside (h : x < pd + 1024 ∨ pd + 1040 ≤ x) :
    (buildHeader pd r.write).foldl Access.onMem mem x = mem x := by
  rw [foldl_buildHeader]
  simp (disch := omega) only [storeLe_outside, Function.update_of_ne]

/-- Outside the header and the table nothing changes. -/
theorem built_outside (hheader : x < pd + 1024 ∨ pd + 1040 ≤ x)
    (htable : x < pd + 2304 ∨ pd + 2448 ≤ x) : built pd r mem x = mem x := by
  rw [built_eq, buildFis_outside (by omega), buildPrdt_outside (by omega),
    buildHeader_outside hheader, memzero_apply, if_neg (by omega)]

/-- In the header only its own stores matter. -/
theorem built_header (h : x < pd + 1040) :
    built pd r mem x
      = (buildHeader pd r.write).foldl Access.onMem
          ((memzero (pd + 2304) 144).foldl Access.onMem mem) x := by
  rw [built_eq, buildFis_outside (by omega), buildPrdt_outside (by omega)]

/-- In the table of regions only the stores to its entry matter. -/
theorem built_prdt (h : pd + 2432 ≤ x) :
    ∃ mem', built pd r mem x
      = storeLe 4 (storeLe 4 (storeLe 4 mem' (pd + 2432) r.buffer) (pd + 2436) 0) (pd + 2444)
          (r.count * 512 - 1) x :=
  ⟨_, by rw [built_eq, buildFis_outside (by omega)]; rfl⟩

/-- The flags of the header. -/
theorem built_flags :
    built pd r mem (pd + 1024)
      = (mem (pd + 1024) &&& ~~~0x1F ||| 5) &&& ~~~0x40 ||| if r.write then 0x40 else 0 := by
  rw [built_header (by omega), foldl_buildHeader]
  simp (disch := omega) only [storeLe_outside, Function.update_self, memzero_apply, if_neg]

theorem built_prdtl : le16 (built pd r mem) (pd + 1026) = 1 := by
  rw [le16, built_header (by omega), built_header (by omega), foldl_buildHeader]
  simp (disch := omega) only [storeLe_outside, storeLe_self, storeLe_inside]
  decide

theorem built_ctba (h : pd + 2304 < 2 ^ 32) : le64 (built pd r mem) (pd + 1032) = pd + 2304 := by
  refine le64_of_bytes h (fun i hi => ?_) fun i hi => ?_
  · rw [built_header (by omega), foldl_buildHeader, storeLe_outside (by omega), storeLe_inside hi]
  · rw [built_header (by omega), foldl_buildHeader]
    exact storeLe_inside hi

theorem built_dba (h : r.buffer < 2 ^ 32) : le64 (built pd r mem) (pd + 2432) = r.buffer := by
  refine le64_of_bytes h (fun i hi => ?_) fun i hi => ?_
  · obtain ⟨mem', hmem⟩ := built_prdt (show pd + 2432 ≤ pd + 2432 + i by omega)
    rw [hmem, storeLe_outside (by omega), storeLe_outside (by omega), storeLe_inside hi]
  · obtain ⟨mem', hmem⟩ := built_prdt (show pd + 2432 ≤ pd + 2436 + i by omega)
    exact hmem.trans ((storeLe_outside (by omega)).trans (storeLe_inside hi))

theorem built_dbc (h : r.count ≤ 128) :
    le32 (built pd r mem) (pd + 2444) = r.count * 512 - 1 := by
  have hbytes : le32 (built pd r mem) (pd + 2444) = (r.count * 512 - 1) % 2 ^ 32 := by
    refine le32_of_bytes fun i hi => ?_
    obtain ⟨mem', hmem⟩ := built_prdt (show pd + 2432 ≤ pd + 2444 + i by omega)
    exact hmem.trans (storeLe_inside hi)
  rw [hbytes, Nat.mod_eq_of_lt (by omega)]

/-- The bytes of the command the adapter looks at. -/
theorem built_fis :
    built pd r mem (pd + 2304) = UInt8.ofNat fisTypeRegH2D ∧
    built pd r mem (pd + 2305) = 0x80 ∧
    built pd r mem (pd + 2306)
      = UInt8.ofNat (if r.write then ataCmdWriteDmaExt else ataCmdReadDmaExt) ∧
    built pd r mem (pd + 2311) = UInt8.ofNat (1 <<< 6) := by
  simp only [built_eq, buildFis, List.foldl_cons, List.foldl_nil, Access.onMem, commandTableOff]
  simp (disch := omega) only [storeLe_outside, storeLe_self, Function.update_of_ne,
    Function.update_self, buildPrdt_outside, buildHeader_outside, memzero_apply, if_pos]
  decide

theorem built_lba (h : r.lba < 2 ^ 48) : fisLba (built pd r mem) (pd + 2304) = r.lba := by
  simp only [fisLba, built_eq, buildFis, List.foldl_cons, List.foldl_nil, Access.onMem,
    commandTableOff]
  simp (disch := omega) only [storeLe_outside, storeLe_self]
  simp only [UInt8.toNat_ofNat', Nat.shiftRight_eq_div_pow]
  omega

theorem built_count (h : r.count ≤ 128) : le16 (built pd r mem) (pd + 2316) = r.count := by
  simp only [le16, built_eq, buildFis, List.foldl_cons, List.foldl_nil, Access.onMem,
    commandTableOff]
  simp (disch := omega) only [storeLe_outside, storeLe_self]
  simp only [UInt8.toNat_ofNat', Nat.shiftRight_eq_div_pow]
  omega

/-- What the assignments to the flags leave of the byte that held them. -/
theorem flags_bits (b : UInt8) (write : Bool) :
    let flags := (b &&& ~~~0x1F ||| 5) &&& ~~~0x40 ||| if write then 0x40 else 0
    flags.toNat % 32 = 5 ∧ bit flags 5 = bit b 5 ∧ bit flags 6 = write := by
  have hall : ((List.range 256).all fun n => [true, false].all fun write =>
      let b := UInt8.ofNat n
      let flags := (b &&& ~~~0x1F ||| 5) &&& ~~~0x40 ||| if write then 0x40 else 0
      flags.toNat % 32 = 5 && bit flags 5 = bit b 5 && bit flags 6 = write) = true := by
    decide +kernel
  have hb := List.all_eq_true.1 hall b.toNat (List.mem_range.2 b.toNat_lt)
  have hw := List.all_eq_true.1 hb write (by cases write <;> simp)
  simpa [and_assoc] using hw

def Request.command (r : Request) : Command :=
  ⟨r.write, ⟨r.lba, r.count⟩, placeOf [(r.buffer, 512 * r.count)]⟩

/-- The adapter takes from memory the command the driver was asked for. -/
theorem decode_built (hpd : pd + 2304 < 2 ^ 32) (hbit : bit (mem (pd + 1024)) 5 = false)
    (hlba : r.lba < 2 ^ 48) (hpos : 0 < r.count) (hcount : r.count ≤ 128)
    (hbuffer : r.buffer < 2 ^ 32) :
    decodeCommand (built pd r mem) (pd + 1024) = some r.command := by
  obtain ⟨hlen, hpacket, hwrite⟩ := flags_bits (mem (pd + 1024)) r.write
  have hflags := @built_flags pd r mem
  rw [← hflags] at hlen hpacket hwrite
  obtain ⟨htype, hc, hcommand, hdevice⟩ := @built_fis pd r mem
  have hbytes : (r.count * 512 - 1) % 2 ^ 22 + 1 = 512 * r.count := by omega
  simp only [decodeCommand, Nat.add_assoc, Nat.reduceAdd, built_ctba hpd, built_prdtl,
    built_count hcount, built_lba hlba, List.range_one, List.map_cons, List.map_nil, Nat.mul_zero,
    built_dba hbuffer, built_dbc hcount, hbytes, hlen, hpacket, hwrite, hbit, htype, hc, hcommand,
    hdevice, if_neg hpos.ne', List.sum_singleton, le_refl]
  rw [Request.command]
  cases r.write <;> simp [bit, fisTypeRegH2D, ataCmdWriteDmaExt, ataCmdReadDmaExt]

end Build

section Wait

variable {p : Port}

theorem and_twoPow_eq_zero {w i : ℕ} (x : BitVec w) (h : i < w) :
    x &&& BitVec.twoPow w i = 0 ↔ x.getLsbD i = false := by
  constructor
  · intro hzero
    have hbit := congrArg (·.getLsbD i) hzero
    simpa [h] using hbit
  · intro hbit
    rw [BitVec.and_twoPow, hbit]
    rfl

theorem and_one_eq_zero (x : BitVec 32) : x &&& 1#32 = 0 ↔ x.getLsbD 0 = false :=
  and_twoPow_eq_zero (i := 0) x (by decide)

def Port.withPolls (p : Port) (polls : ℕ) : Port := { p with polls := polls }

def Port.withWait (p : Port) (wait : ℕ) : Port := { p with wait := wait }

@[simp] theorem withPolls_regs (p : Port) (polls : ℕ) : (p.withPolls polls).regs = p.regs := rfl

@[simp] theorem withWait_regs (p : Port) (wait : ℕ) : (p.withWait wait).regs = p.regs := rfl

/-- The disk lets the driver go on within so many reads of `tfd`. -/
def Idles (p : Port) (n : ℕ) : Prop := ∃ k < n, p.tfd (p.polls + k) &&& 0x88#32 = 0

theorem exec_waitIdle_succ (n : ℕ) (p : Port) :
    (waitIdle (n + 1)).exec Port.serve p
      = if p.tfd p.polls &&& 0x88#32 = 0 then some (true, p.withPolls (p.polls + 1))
        else (waitIdle n).exec Port.serve (p.withPolls (p.polls + 1)) := by
  change (if p.tfd p.polls &&& 0x88#32 = 0 then pure true else waitIdle n : AhciM Bool).exec
    Port.serve (p.withPolls (p.polls + 1)) = _
  split_ifs
  · rfl
  · rfl

theorem exec_waitIdle :
    ∀ {n : ℕ} {p : Port}, Idles p n →
      ∃ polls, (waitIdle n).exec Port.serve p = some (true, p.withPolls polls)
  | 0, _, ⟨k, hk, _⟩ => absurd hk (Nat.not_lt_zero k)
  | n + 1, p, ⟨k, hk, hidle⟩ => by
    rw [exec_waitIdle_succ]
    by_cases hnow : p.tfd p.polls &&& 0x88#32 = 0
    · exact ⟨p.polls + 1, if_pos hnow⟩
    rw [if_neg hnow]
    cases k with
    | zero => exact absurd hidle hnow
    | succ k =>
      have hlater : Idles (p.withPolls (p.polls + 1)) n :=
        ⟨k, by omega, by rwa [Port.withPolls, Nat.add_assoc, Nat.add_comm 1 k]⟩
      exact exec_waitIdle hlater

theorem exec_waitDone_succ (fuel : ℕ) (p : Port) :
    (waitDone (fuel + 1)).exec Port.serve p
      = if p.tick.regs .ci &&& 1#32 = 0 then
          some (decide (p.tick.regs .is &&& 1#32 <<< 30 = 0), p.tick)
        else if p.tick.regs .is &&& 1#32 <<< 30 ≠ 0 then some (false, p.tick)
        else (waitDone fuel).exec Port.serve p.tick := by
  change (if p.tick.regs .ci &&& 1#32 = 0 then pure (p.tick.regs .is &&& 1#32 <<< 30 = 0)
    else if p.tick.regs .is &&& 1#32 <<< 30 ≠ 0 then pure false
    else waitDone fuel : AhciM Bool).exec Port.serve p.tick = _
  split_ifs
  · rfl
  · rfl
  · rfl

/-- While a command is in progress. -/
structure InProgress (p : Port) : Prop where
  ci : p.regs .ci &&& 1#32 ≠ 0
  running : p.regs .cmd &&& 0x8000#32 ≠ 0
  noError : p.regs .is &&& 1#32 <<< 30 = 0

/-- The driver goes on once the command has been carried out. -/
theorem exec_waitDone :
    ∀ {wait fuel : ℕ} {p : Port}, InProgress p → p.wait = wait → wait < fuel →
      ∃ fuel', (waitDone fuel).exec Port.serve p
        = (waitDone (fuel' + 1)).exec Port.serve (p.withWait 0)
  | 0, fuel + 1, p, _, hwait, _ => ⟨fuel, by rw [Port.withWait, ← hwait]⟩
  | wait + 1, fuel + 1, p, h, hwait, hfuel => by
    have htick : p.tick = p.withWait wait := by
      rw [Port.tick, if_neg (not_or.2 ⟨h.ci, h.running⟩), hwait]
      rfl
    rw [exec_waitDone_succ, htick, withWait_regs, if_neg h.ci, if_neg (not_not.2 h.noError)]
    exact exec_waitDone (p := p.withWait wait) ⟨h.ci, h.running, h.noError⟩ rfl
      (Nat.lt_of_succ_lt_succ hfuel)

end Wait

section Transfer

/-- Memory and the disk, without the adapter between them. -/
structure Disk where
  mem : Buf
  medium : Medium

/-- Memory with the bytes of a sector buffer stored at `buffer`. -/
def fill (mem : Buf) (buffer n : ℕ) (data : Buf) : Buf := fun x =>
  if buffer ≤ x ∧ x < buffer + n then data (x - buffer) else mem x

/-- What a transfer is for. -/
def Disk.step (d : Disk) (r : Request) : Bool × Disk :=
  if r.write then
    match blockWrite d.medium r.lba r.count fun k => d.mem (r.buffer + k) with
    | some medium => (true, { d with medium := medium })
    | none => (false, d)
  else
    match d.medium.read ⟨r.lba, r.count⟩ with
    | some data => (true, { d with mem := fill d.mem r.buffer (512 * r.count) data })
    | none => (false, d)

/-- The port takes commands. -/
structure Ready (pd : ℕ) (p : Port) : Prop where
  clb : p.regs .clb = BitVec.ofNat 32 (pd + 1024)
  clbu : p.regs .clbu = 0
  idle : p.regs .ci = 0
  running : p.regs .cmd &&& 0x8000#32 ≠ 0
  flags : bit (p.mem (pd + 1024)) 5 = false

/-- The sectors can be addressed, and the buffer is apart from the port's own data. -/
structure Request.Fits (pd : ℕ) (r : Request) : Prop where
  pos : 0 < r.count
  le : r.count ≤ 128
  lba : r.lba < 2 ^ 48
  buffer : r.buffer + 512 * r.count ≤ 2 ^ 32
  apart : r.buffer + 512 * r.count ≤ pd ∨ pd + 3072 ≤ r.buffer

/-- The port has this disk, and this memory but for its own data. -/
structure Shows (pd : ℕ) (p : Port) (d : Disk) : Prop where
  medium : p.medium = d.medium
  mem : ∀ x, x < pd ∨ pd + 3072 ≤ x → p.mem x = d.mem x

theorem scatter_eq (buffer n x : ℕ) (data mem : Buf) :
    ∀ k ≤ n, scatter (placeOf [(buffer, n)]) data k mem x = fill mem buffer k data x
  | 0, _ => (if_neg (by omega)).symm
  | k + 1, hk => by
    have ih := scatter_eq buffer n x data mem k (by omega)
    have hplace : placeOf [(buffer, n)] k = buffer + k := if_pos (by omega)
    rw [scatter, List.range_succ, List.foldl_append, List.foldl_cons, List.foldl_nil, hplace]
    rw [scatter] at ih
    by_cases hx : x = buffer + k
    · subst hx
      rw [Function.update_self, fill, if_pos (by omega), Nat.add_sub_cancel_left]
    · rw [Function.update_of_ne hx, ih, fill, fill]
      split_ifs <;> first | rfl | omega

variable {pd : ℕ} {p : Port} {r : Request}

/-- The port once the command is in memory. -/
def prepared (pd : ℕ) (r : Request) (p : Port) : Port :=
  { p.setReg .is 0 with mem := built pd r p.mem }

theorem foldl_build :
    (Access.writeReg .is 0xFFFFFFFF
        :: buildCommand pd r.lba r.count r.buffer r.write).foldl (fun p q => (p.serve q).2) p
      = prepared pd r p := by
  have hclear : (p.serve (.writeReg .is 0xFFFFFFFF)).2 = p.setReg .is 0 :=
    congrArg (p.setReg .is) BitVec.and_zero
  rw [List.foldl_cons, ← build, foldl_serve (build_isMem pd r), hclear, prepared, built]
  rfl

/-- The port with a command in progress. -/
def Port.taking (p : Port) (wait : ℕ) : Port :=
  { p.setReg .ci 1 with wait := wait, commands := p.commands + 1 }

theorem taking_withWait (p : Port) (wait wait' : ℕ) :
    (p.taking wait).withWait wait' = p.taking wait' := rfl

theorem write_ci (h : p.regs .ci = 0) : p.write .ci 1 = p.taking (p.delay p.commands) := by
  have hor : p.regs .ci ||| 1 = 1 := by
    rw [h]
    rfl
  rw [Port.write, hor]
  rfl

/-- The port when the driver polls `ci` and the command is about to be carried out. -/
def issued (pd : ℕ) (r : Request) (polls : ℕ) (p : Port) : Port :=
  ((prepared pd r p).withPolls polls).taking 0

theorem inProgress_taking (hrunning : p.regs .cmd &&& 0x8000#32 ≠ 0) (polls wait : ℕ) :
    InProgress (((prepared pd r p).withPolls polls).taking wait) :=
  ⟨by simp [Port.taking, Port.setReg], hrunning, by simp [Port.taking, Port.setReg, prepared]⟩

/-- A transfer up to the polls of `ci`. -/
theorem exec_transfer (hpos : 0 < r.count) (hle : r.count ≤ 128) (hidles : Idles p 100000)
    (fuel : ℕ) :
    ∃ polls, (ahciTransfer fuel pd r.lba r.count r.buffer r.write).exec Port.serve p
      = (waitDone fuel).exec Port.serve (((prepared pd r p).withPolls polls).write .ci 1) := by
  have hidles' : Idles (prepared pd r p) 100000 := hidles
  obtain ⟨polls, hwait⟩ := exec_waitIdle hidles'
  refine ⟨polls, ?_⟩
  rw [ahciTransfer, if_neg (by omega), Query.exec_bind, Query.exec_askAll, foldl_build,
    Option.bind_some, Query.exec_bind, hwait, Option.bind_some]
  rfl

/-- A transfer up to the poll that finds the command carried out. -/
theorem exec_issue (hready : Ready pd p) (hpos : 0 < r.count) (hle : r.count ≤ 128)
    (hidles : Idles p 100000) {fuel : ℕ} (hfuel : p.delay p.commands < fuel) :
    ∃ polls fuel', (ahciTransfer fuel pd r.lba r.count r.buffer r.write).exec Port.serve p
      = (waitDone (fuel' + 1)).exec Port.serve (issued pd r polls p) := by
  obtain ⟨polls, hexec⟩ := @exec_transfer pd p r hpos hle hidles fuel
  have hidle : ((prepared pd r p).withPolls polls).regs .ci = 0 := hready.idle
  obtain ⟨fuel', hdone⟩ := exec_waitDone
    (@inProgress_taking pd p r hready.running polls (p.delay p.commands)) rfl hfuel
  rw [taking_withWait] at hdone
  rw [write_ci hidle] at hexec
  exact ⟨polls, fuel', hexec.trans hdone⟩

/-- What the adapter does once it is at the command. -/
theorem tick_issued (hready : Ready pd p) (hpd : pd + 3072 ≤ 2 ^ 32) (hfits : r.Fits pd)
    (polls : ℕ) :
    (issued pd r polls p).tick
      = (issued pd r polls p).finish ((issued pd r polls p).move r.command) := by
  have hprogress : InProgress (issued pd r polls p) := inProgress_taking hready.running polls 0
  have hclb : ((issued pd r polls p).regs .clb).toNat = pd + 1024 := by
    rw [show (issued pd r polls p).regs .clb = p.regs .clb from rfl, hready.clb,
      BitVec.toNat_ofNat, Nat.mod_eq_of_lt (by omega)]
  have hclbu : ((issued pd r polls p).regs .clbu).toNat = 0 := by
    rw [show (issued pd r polls p).regs .clbu = p.regs .clbu from rfl, hready.clbu]
    rfl
  have hbuffer : r.buffer < 2 ^ 32 := by
    have := hfits.buffer
    have := hfits.pos
    omega
  rw [Port.tick, if_neg (not_or.2 ⟨hprogress.ci, hprogress.running⟩)]
  change (issued pd r polls p).execute = _
  rw [Port.execute, hclb, hclbu]
  change (issued pd r polls p).finish ((decodeCommand
    (built pd r p.mem) (pd + 1024)).bind _) = _
  rw [decode_built (by omega) hready.flags hfits.lba hfits.pos hfits.le hbuffer]
  rfl

variable {d : Disk}

/-- A byte of the caller's buffer is where the driver found it. -/
theorem issued_buffer (hfits : r.Fits pd) (polls : ℕ) (hshows : Shows pd p d) {k : ℕ}
    (hk : k < 512 * r.count) :
    (issued pd r polls p).mem (placeOf [(r.buffer, 512 * r.count)] k) = d.mem (r.buffer + k) := by
  have hapart := hfits.apart
  rw [show placeOf [(r.buffer, 512 * r.count)] k = r.buffer + k from if_pos hk]
  exact (built_outside (by omega) (by omega)).trans (hshows.mem _ (by omega))

theorem issued_mem (polls : ℕ) (hshows : Shows pd p d) {x : ℕ} (hx : x < pd ∨ pd + 3072 ≤ x) :
    (issued pd r polls p).mem x = d.mem x :=
  (built_outside (by omega) (by omega)).trans (hshows.mem x hx)

/-- The flag that makes a command one for a packet device stays clear. -/
theorem issued_flags (hready : Ready pd p) (polls : ℕ) :
    bit ((issued pd r polls p).mem (pd + 1024)) 5 = false := by
  have hflags : (issued pd r polls p).mem (pd + 1024) = _ := built_flags
  rw [hflags]
  exact (flags_bits _ _).2.1.trans hready.flags

theorem storeByte_congr {byte : ℕ → UInt8} {t : Transfer} {buf buf' : Buf}
    (h : ∀ k < 512 * t.count, buf k = buf' k) : storeByte byte t buf = storeByte byte t buf' := by
  funext a
  rw [storeByte, storeByte]
  split_ifs with ha
  · exact h _ (by omega)
  · rfl

theorem blockWrite_congr {m : Medium} {lba count : ℕ} {buf buf' : Buf}
    (h : ∀ k < 512 * count, buf k = buf' k) :
    blockWrite m lba count buf = blockWrite m lba count buf' := by
  rw [blockWrite, blockWrite, storeByte_congr (t := ⟨lba, count⟩) h]

/-- The command moves what the transfer is to move. -/
theorem move_issued (hready : Ready pd p) (hfits : r.Fits pd) (hshows : Shows pd p d) (polls : ℕ) :
    match (issued pd r polls p).move r.command with
    | some p' => (d.step r).1 = true ∧ Shows pd p' (d.step r).2 ∧
        p'.regs = (issued pd r polls p).regs ∧ p'.delay = p.delay ∧ p'.tfd = p.tfd ∧
        bit (p'.mem (pd + 1024)) 5 = false
    | none => (d.step r).1 = false ∧ (d.step r).2 = d := by
  have hmedium : (issued pd r polls p).medium = d.medium := hshows.medium
  rw [Port.move, Disk.step, Request.command]
  by_cases hwrite : r.write = true
  · rw [if_pos hwrite, if_pos hwrite, hmedium,
      blockWrite_congr fun k hk => issued_buffer hfits polls hshows hk]
    cases blockWrite d.medium r.lba r.count fun k => d.mem (r.buffer + k) with
    | none => exact ⟨rfl, rfl⟩
    | some medium =>
      exact ⟨rfl, ⟨rfl, fun x hx => issued_mem polls hshows hx⟩, rfl, rfl, rfl,
        issued_flags hready polls⟩
  · rw [if_neg hwrite, if_neg hwrite, hmedium]
    cases d.medium.read ⟨r.lba, r.count⟩ with
    | none => exact ⟨rfl, rfl⟩
    | some data =>
      have hapart := hfits.apart
      refine ⟨rfl, ⟨rfl, fun x hx => ?_⟩, rfl, rfl, rfl, ?_⟩
      · change scatter _ _ _ _ x = fill _ _ _ _ x
        rw [scatter_eq _ _ _ _ _ _ le_rfl, fill, fill, issued_mem polls hshows hx]
      · change bit (scatter _ _ _ _ _) 5 = false
        rw [scatter_eq _ _ _ _ _ _ le_rfl, fill, if_neg (by omega)]
        exact issued_flags hready polls

theorem regs_issued (polls : ℕ) :
    (issued pd r polls p).regs .ci = 1 ∧ (issued pd r polls p).regs .is = 0 :=
  ⟨by simp [issued, Port.taking, Port.setReg],
    by simp [issued, Port.taking, Port.setReg, prepared]⟩

/-- A transfer through the adapter is the transfer: it returns what the disk returns and moves what
is to be moved, and after one that went well the port takes the next. -/
theorem transfer_refines (hready : Ready pd p) (hshows : Shows pd p d) (hpd : pd + 3072 ≤ 2 ^ 32)
    (hfits : r.Fits pd) (hidles : Idles p 100000) {fuel : ℕ} (hfuel : p.delay p.commands < fuel) :
    ∃ p', (ahciTransfer fuel pd r.lba r.count r.buffer r.write).exec Port.serve p
        = some ((d.step r).1, p') ∧ Shows pd p' (d.step r).2 ∧ p'.delay = p.delay ∧
      p'.tfd = p.tfd ∧ ((d.step r).1 = true → Ready pd p') ∧
      ((d.step r).1 = false → p'.regs .cmd &&& 0x8000#32 = 0) := by
  obtain ⟨polls, fuel', hexec⟩ := exec_issue hready hfits.pos hfits.le hidles hfuel
  obtain ⟨hci, his⟩ := @regs_issued pd p r polls
  have hmove := move_issued hready hfits hshows polls
  rw [hexec, exec_waitDone_succ, tick_issued hready hpd hfits]
  cases hcase : (issued pd r polls p).move r.command with
  | some p' =>
    rw [hcase] at hmove
    obtain ⟨hok, hshows', hregs, hdelay, htfd, hflags⟩ := hmove
    have hci' : ((issued pd r polls p).finish (some p')).regs .ci = 0 := by
      simp [Port.finish, Port.setReg, hregs, hci]
    have his' : ((issued pd r polls p).finish (some p')).regs .is = 1 := by
      simp [Port.finish, Port.setReg, hregs, his]
    refine ⟨(issued pd r polls p).finish (some p'), ?_, ⟨hshows'.medium, hshows'.mem⟩, hdelay,
      htfd, fun _ => ?_, fun hfail => absurd (hok.symm.trans hfail) (by decide)⟩
    · rw [hci', his', hok]
      rfl
    · exact ⟨(congrFun hregs _).trans hready.clb, (congrFun hregs _).trans hready.clbu, hci',
        fun h => hready.running ((congrArg (· &&& 0x8000#32) (congrFun hregs _)).symm.trans h),
        hflags⟩
  | none =>
    rw [hcase] at hmove
    obtain ⟨hfail, hsame⟩ := hmove
    have hci' : ((issued pd r polls p).finish none).regs .ci = 1 := by
      simp [Port.finish, Port.setReg, hci]
    have his' : ((issued pd r polls p).finish none).regs .is = 1#32 <<< 30 := by
      simp [Port.finish, Port.setReg, his]
    have hcmd' : ((issued pd r polls p).finish none).regs .cmd &&& 0x8000#32 = 0 := by
      simp [Port.finish, Port.setReg, BitVec.and_assoc]
    refine ⟨(issued pd r polls p).finish none, ?_, ?_, rfl, rfl,
      fun hok => absurd (hok.symm.trans hfail) (by decide), fun _ => hcmd'⟩
    · rw [hci', his', hfail]
      rfl
    · rw [hsame]
      exact ⟨hshows.medium, fun x hx => issued_mem polls hshows hx⟩

theorem waitDone_stopped (hcmd : p.regs .cmd &&& 0x8000#32 = 0) (hci : p.regs .ci &&& 1#32 ≠ 0)
    (his : p.regs .is &&& 1#32 <<< 30 = 0) :
    ∀ fuel : ℕ, (waitDone fuel).exec Port.serve p = none
  | 0 => rfl
  | fuel + 1 => by
    have htick : p.tick = p := if_pos (.inr hcmd)
    rw [exec_waitDone_succ, htick, if_neg hci, if_neg (not_not.2 his)]
    exact waitDone_stopped hcmd hci his fuel

/-- A port that runs no commands is not started again: the next transfer waits for ever. -/
theorem transfer_stopped (hcmd : p.regs .cmd &&& 0x8000#32 = 0) (hpos : 0 < r.count)
    (hle : r.count ≤ 128) (hidles : Idles p 100000) (fuel : ℕ) :
    (ahciTransfer fuel pd r.lba r.count r.buffer r.write).exec Port.serve p = none := by
  obtain ⟨polls, hexec⟩ := @exec_transfer pd p r hpos hle hidles fuel
  have hci : (((prepared pd r p).withPolls polls).write .ci 1).regs .ci &&& 1#32 ≠ 0 := by
    have hset : (((prepared pd r p).withPolls polls).write .ci 1).regs .ci
        = (prepared pd r p).regs .ci ||| 1#32 := by simp [Port.write, Port.setReg]
    rw [hset, ne_eq, and_one_eq_zero]
    simp
  have his : (((prepared pd r p).withPolls polls).write .ci 1).regs .is &&& 1#32 <<< 30 = 0 := by
    simp [Port.write, Port.setReg, prepared]
  rw [hexec]
  exact waitDone_stopped (p := ((prepared pd r p).withPolls polls).write .ci 1) hcmd hci his fuel

end Transfer

end Ahci

end PeanutKernel
