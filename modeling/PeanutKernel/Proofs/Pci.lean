import PeanutKernel.Pci
import Mathlib.Data.List.Find

/-!
# Configuration space and its scans

The value that names a register decodes to that register (`decode_pciAddress`), so a program over
the registers does the same through the ports as on the registers themselves (`throughPorts_eq`). A
scan stops at the first function, in the order of its loops, that can be seen and is wanted:
function 0 of a slot has to answer, and for the others its header has to say that there are any.
-/

namespace PeanutKernel

namespace Pci

section Ports

variable {addr : PciAddress}

theorem getLsbD_of_toNat_lt {w n i : ℕ} {x : BitVec w} (h : x.toNat < 2 ^ n) (hi : n ≤ i) :
    x.getLsbD i = false := by
  rw [← BitVec.testBit_toNat]
  exact Nat.testBit_lt_two_pow (h.trans_le (Nat.pow_le_pow_right (by omega) hi))

theorem getLsbD_pciAddress (addr : PciAddress) (offset : BitVec 8) {i : ℕ} (hi : i < 32) :
    (pciAddress addr offset).getLsbD i
      = (i = 31 || (16 ≤ i && addr.bus.getLsbD (i - 16))
        || (11 ≤ i && addr.slot.getLsbD (i - 11)) || (8 ≤ i && addr.function.getLsbD (i - 8))
        || (2 ≤ i && offset.getLsbD i)) := by
  have htop : 0x80000000#32 = BitVec.twoPow 32 31 := rfl
  have hmask : 0xFC#8 = BitVec.allOnes 8 <<< 2 := rfl
  have hsub : ∀ n, i - n < 32 := fun n => by omega
  have hlt : ∀ n, decide (i < n) = !decide (n ≤ i) := fun n => by grind
  have hoff : (offset.getLsbD i && decide (i < 8)) = offset.getLsbD i := by
    by_cases h8 : i < 8
    · simp [h8]
    · simp [h8, BitVec.getLsbD_of_ge offset i (by omega)]
  simp only [pciAddress, htop, hmask, BitVec.getLsbD_or, BitVec.getLsbD_twoPow,
    BitVec.getLsbD_shiftLeft, BitVec.getLsbD_setWidth, BitVec.getLsbD_and,
    BitVec.getLsbD_allOnes, hi, hsub, decide_true, Bool.true_and, hlt, Bool.not_not, eq_comm]
  grind

theorem decode_pciAddress (h : addr.Valid) (offset : BitVec 8) :
    decode (pciAddress addr offset) = registerOf addr offset := by
  obtain ⟨hslot, hfunction⟩ := h
  have hslot' := fun i => getLsbD_of_toNat_lt (n := 5) (i := i) hslot
  have hfunction' := fun i => getLsbD_of_toNat_lt (n := 3) (i := i) hfunction
  have hwide := fun (x : BitVec 8) i (hi : 8 ≤ i) => BitVec.getLsbD_of_ge x i hi
  simp only [decode, registerOf, Register.mk.injEq]
  refine ⟨?_, ?_, ?_, ?_⟩ <;> refine BitVec.eq_of_getLsbD_eq fun i hi => ?_
  · rw [BitVec.getLsbD_extractLsb', getLsbD_pciAddress _ _ (by omega)]
    grind
  · rw [BitVec.getLsbD_extractLsb', getLsbD_pciAddress _ _ (by omega), BitVec.getLsbD_setWidth]
    grind
  · rw [BitVec.getLsbD_extractLsb', getLsbD_pciAddress _ _ (by omega), BitVec.getLsbD_setWidth]
    grind
  · rw [BitVec.getLsbD_extractLsb', getLsbD_pciAddress _ _ (by omega), BitVec.getLsbD_extractLsb']
    grind

theorem enabled_pciAddress (addr : PciAddress) (offset : BitVec 8) :
    (pciAddress addr offset).getLsbD 31 = true := by
  rw [getLsbD_pciAddress _ _ (by omega)]
  simp

theorem exec_ports (keeps : Keeps) {q : ConfigAccess} (h : q.addr.Valid) (b : Bridge) :
    ∃ b', q.ports.exec (Bridge.serve keeps) b = some ((b.config.serve keeps q).1, b') ∧
      (b.config.serve keeps q).2 = b'.config := by
  cases q with
  | read addr offset =>
    have hvalid : addr.Valid := h
    refine ⟨{ b with address := pciAddress addr offset }, ?_, rfl⟩
    simp [ConfigAccess.ports, pciRead32, Bridge.serve, Config.serve, enabled_pciAddress,
      decode_pciAddress hvalid]
  | write addr offset value =>
    have hvalid : addr.Valid := h
    have hne : pciConfigData ≠ pciConfigAddress := by decide
    refine ⟨⟨pciAddress addr offset, b.config.write keeps (registerOf addr offset) value⟩, ?_, rfl⟩
    simp [ConfigAccess.ports, pciWrite32, Bridge.serve, Config.serve, hne, enabled_pciAddress,
      decode_pciAddress hvalid]

/-- Whatever a program does with the registers of functions the bus has, it does through the ports
as well: it gets the same values and leaves the registers the same. -/
theorem throughPorts_eq {α : Type} (keeps : Keeps) (p : PciM α) (b : Bridge)
    (h : ∀ q ∈ p.asked (Config.serve keeps) b.config, q.addr.Valid) :
    throughPorts keeps b p = p.exec (Config.serve keeps) b.config := by
  have hrel := Query.exec_translate (S := fun config (b : Bridge) => config = b.config)
    (P := fun q => q.addr.Valid) (f := ConfigAccess.ports)
    (fun q config b hq hconfig => hconfig ▸ exec_ports keeps hq b) p rfl h
  rw [throughPorts]
  generalize p.exec (Config.serve keeps) b.config = x at hrel ⊢
  generalize (p.translate ConfigAccess.ports).exec (Bridge.serve keeps) b = y at hrel ⊢
  cases hrel with
  | none => rfl
  | some hxy => exact congrArg some (Prod.ext hxy.1.symm hxy.2.symm)

end Ports

section Scan

variable (config : Config)

/-- The functions of the bus in the order of the loops. -/
def functionsOf (bus slot : ℕ) : List PciAddress := (List.range 8).map (addressOf bus slot)

def allFunctions : List PciAddress :=
  (List.range 256).flatMap fun bus => (List.range 32).flatMap (functionsOf bus)

def vendorDevice (addr : PciAddress) : BitVec 32 := config (registerOf addr 0x00)

/-- A function answers: its vendor is not the one an empty bus reads as. -/
def Present (addr : PciAddress) : Bool := vendorDevice config addr &&& 0xFFFF#32 ≠ 0xFFFF#32

/-- Function 0 of the same slot. -/
def PciAddress.first (addr : PciAddress) : PciAddress := { addr with function := 0 }

def MultiFunction (addr : PciAddress) : Bool :=
  config (registerOf addr 0x0C) >>> 16 &&& 0x80#32 ≠ 0

/-- The function is one a scan looks at. -/
def Visible (addr : PciAddress) : Bool :=
  Present config addr.first &&
    (addr.function = 0 || (MultiFunction config addr.first && Present config addr))

variable {config} {isWanted : PciAddress → BitVec 32 → PciM Bool} {wanted : PciAddress → Bool}
  {bus slot : ℕ}

theorem run_pciProbe {addr : PciAddress}
    (hwanted : (isWanted addr (vendorDevice config addr)).run config.answer
      = some (wanted addr)) :
    (pciProbe isWanted addr).run config.answer
      = some (if Present config addr = false then
            if addr.function = 0 then .nextSlot else .nextFunction
          else if wanted addr = true then .found
          else if addr.function = 0 ∧ MultiFunction config addr = false then .nextSlot
          else .nextFunction) := by
  have hvendor : (readReg addr 0x00).run config.answer = some (vendorDevice config addr) := rfl
  have hheader : (readReg addr 0x0C).run config.answer
      = some (config (registerOf addr 0x0C)) := rfl
  have hpresent : Present config addr = false ↔
      vendorDevice config addr &&& 0xFFFF#32 = 0xFFFF#32 := by simp [Present]
  have hmulti : MultiFunction config addr = false ↔
      config (registerOf addr 0x0C) >>> 16 &&& 0x80#32 = 0 := by simp [MultiFunction]
  simp only [hpresent, hmulti]
  rw [pciProbe, Query.run_bind_some _ hvendor]
  by_cases hp : vendorDevice config addr &&& 0xFFFF#32 = 0xFFFF#32
  · simp only [hp, if_true, Query.run_pure]
  simp only [hp, if_false, Query.run_bind_some _ hwanted]
  by_cases hw : wanted addr = true
  · simp only [hw, if_true, Query.run_pure]
  simp only [hw, Bool.false_eq_true, if_false]
  by_cases hzero : addr.function = 0
  · simp only [hzero, if_true, true_and, Query.run_bind_some _ hheader, Query.run_pure]
  · simp only [hzero, if_false, false_and, Query.run_pure]

theorem addressOf_function_ne_zero (bus slot : ℕ) {function : ℕ} (hpos : 0 < function)
    (hlt : function < 256) : (addressOf bus slot function).function ≠ 0 := by
  intro h
  have hnat := congrArg BitVec.toNat h
  simp [addressOf, Nat.mod_eq_of_lt hlt] at hnat
  omega

variable (hwanted : ∀ addr, (isWanted addr (vendorDevice config addr)).run config.answer
  = some (wanted addr))
include hwanted

/-- Past function 0 every function is looked at. -/
theorem run_functionLoop_rest (bus slot : ℕ) :
    ∀ n function : ℕ, 0 < function → function + n ≤ 8 →
      (functionLoop isWanted bus slot n function).run config.answer
        = some (((List.range' function n).map (addressOf bus slot)).find?
            fun addr => Present config addr && wanted addr)
  | 0, _, _, _ => rfl
  | n + 1, function, hpos, hle => by
    have hzero := addressOf_function_ne_zero bus slot hpos (by omega)
    have ih := run_functionLoop_rest bus slot n (function + 1) (by omega) (by omega)
    rw [functionLoop, Query.run_bind_some _ (run_pciProbe (hwanted _)), List.range'_succ,
      List.map_cons]
    by_cases hpresent : Present config (addressOf bus slot function) = false
    · rw [List.find?_cons_of_neg (by simp [hpresent])]
      simp only [hpresent, if_true, if_neg hzero]
      exact ih
    simp only [hpresent, reduceCtorEq, if_false]
    by_cases hw : wanted (addressOf bus slot function) = true
    · rw [List.find?_cons_of_pos (by simp [hpresent, hw])]
      simp only [hw, if_true, Query.run_pure]
    · rw [List.find?_cons_of_neg (by simp [hw])]
      simp only [hw, hzero, Bool.false_eq_true, false_and, if_false]
      exact ih

theorem run_functionLoop :
    (functionLoop isWanted bus slot 8 0).run config.answer
      = some ((functionsOf bus slot).find? fun addr => Visible config addr && wanted addr) := by
  have hrest := run_functionLoop_rest hwanted bus slot 7 1 (by omega) (by omega)
  have hzero : (addressOf bus slot 0).function = 0 := rfl
  have hfirst : ∀ addr ∈ functionsOf bus slot, addr.first = addressOf bus slot 0 := by
    simp only [functionsOf, List.forall_mem_map]
    exact fun _ _ => rfl
  have hfunctions : functionsOf bus slot
      = addressOf bus slot 0 :: (List.range' 1 7).map (addressOf bus slot) := rfl
  rw [functionLoop, Query.run_bind_some _ (run_pciProbe (hwanted _))]
  by_cases hpresent : Present config (addressOf bus slot 0) = false
  · have hnone : ∀ addr ∈ functionsOf bus slot, ¬ (Visible config addr && wanted addr) = true := by
      intro addr haddr
      simp [Visible, hfirst addr haddr, hpresent]
    rw [List.find?_eq_none.2 hnone]
    simp only [hpresent, if_true, if_pos hzero, Query.run_pure]
  have hseen : Visible config (addressOf bus slot 0) = true := by
    rw [Visible, hfirst _ (by rw [hfunctions]; exact List.mem_cons_self)]
    simp [hpresent, hzero]
  simp only [hpresent, reduceCtorEq, if_false]
  by_cases hw : wanted (addressOf bus slot 0) = true
  · rw [hfunctions, List.find?_cons_of_pos (by simp [hseen, hw])]
    simp only [hw, if_true, Query.run_pure]
  rw [hfunctions, List.find?_cons_of_neg (by simp [hw])]
  simp only [hw, hzero, Bool.false_eq_true, true_and, if_false]
  -- the other functions are seen if they answer, and only if the first one says so
  have hothers : ∀ addr ∈ (List.range' 1 7).map (addressOf bus slot),
      Visible config addr
        = (MultiFunction config (addressOf bus slot 0) && Present config addr) := by
    intro addr haddr
    rw [Visible, hfirst addr (hfunctions ▸ List.mem_cons_of_mem _ haddr)]
    obtain ⟨function, hfunction, rfl⟩ := List.mem_map.1 haddr
    rw [List.mem_range'_1] at hfunction
    rw [decide_eq_false (addressOf_function_ne_zero bus slot hfunction.1 (by omega))]
    simp [hpresent]
  by_cases hmulti : MultiFunction config (addressOf bus slot 0) = false
  · have hnone : ∀ addr ∈ (List.range' 1 7).map (addressOf bus slot),
        ¬ (Visible config addr && wanted addr) = true := by
      intro addr haddr
      simp [hothers addr haddr, hmulti]
    rw [List.find?_eq_none.2 hnone]
    simp only [hmulti, if_true, Query.run_pure]
  · simp only [hmulti, reduceCtorEq, if_false]
    rw [hrest]
    refine congrArg some (List.find?_congr fun addr haddr => ?_)
    simp [hothers addr haddr, hmulti]

/-- A scan returns the first function it sees that is wanted. -/
theorem run_pciFind :
    (pciFind isWanted).run config.answer
      = some (allFunctions.find? fun addr => Visible config addr && wanted addr) := by
  have hslots : ∀ bus ∈ List.range 256,
      (Query.firstSome (fun slot => functionLoop isWanted bus slot 8 0) (List.range 32)).run
          config.answer
        = some (((List.range 32).flatMap (functionsOf bus)).find?
            fun addr => Visible config addr && wanted addr) := by
    intro bus _
    rw [Query.run_firstSome _ fun slot _ => run_functionLoop hwanted, List.find?_flatMap]
  rw [pciFind, Query.run_firstSome _ hslots, allFunctions, List.find?_flatMap]

end Scan

section Reads

/-- The access reads a register of a function the bus has. -/
def ConfigAccess.IsRead : ConfigAccess → Prop
  | .read addr _ => addr.Valid
  | .write _ _ _ => False

theorem valid_of_isRead {q : ConfigAccess} (h : q.IsRead) : q.addr.Valid := by
  cases q with
  | read addr offset => exact h
  | write addr offset value => exact h.elim

theorem readReg_always {addr : PciAddress} (h : addr.Valid) (offset : BitVec 8) :
    (readReg addr offset).Always ConfigAccess.IsRead fun _ => True :=
  ⟨h, fun _ => trivial⟩

theorem addressOf_valid (bus : ℕ) {slot function : ℕ} (hslot : slot < 32)
    (hfunction : function < 8) : (addressOf bus slot function).Valid := by
  have hs : slot % 256 = slot := Nat.mod_eq_of_lt (by omega)
  have hf : function % 256 = function := Nat.mod_eq_of_lt (by omega)
  simp [addressOf, PciAddress.Valid, hs, hf, hslot, hfunction]

/-- Whether the register holds a port or an address, its low bit is not part of the result. -/
theorem pciBar_always {addr : PciAddress} (h : addr.Valid) (barIndex : BitVec 8) :
    (pciBar addr barIndex).Always ConfigAccess.IsRead fun bar => bar.getLsbD 0 = false := by
  rw [pciBar]
  by_cases hindex : 6 ≤ barIndex.toNat
  · simp [hindex, Query.always_pure]
  rw [if_neg hindex]
  refine (readReg_always h _).bind fun lo _ => ?_
  split_ifs
  · simp [Query.always_pure]
  · refine (readReg_always h _).bind fun hi _ => ?_
    simp [Query.always_pure]
  · simp [Query.always_pure]

/-- A program that only reads finds through the ports what the registers hold, and leaves them. -/
theorem throughPorts_of_always {α : Type} {P : α → Prop} {p : PciM α} (keeps : Keeps) (b : Bridge)
    (h : p.Always ConfigAccess.IsRead P) :
    throughPorts keeps b p = (p.run b.config.answer).map fun a => (a, b.config) := by
  have hserve : ∀ q : ConfigAccess, q.IsRead →
      b.config.serve keeps q = (b.config.answer q, b.config) := by
    intro q hq
    cases q with
    | read addr offset => rfl
    | write addr offset value => exact hq.elim
  rw [throughPorts_eq keeps p b fun q hq => valid_of_isRead (h.asked _ q hq), h.exec hserve]

variable {isWanted : PciAddress → BitVec 32 → PciM Bool}
  (hwanted : ∀ addr r, addr.Valid → (isWanted addr r).Always ConfigAccess.IsRead fun _ => True)
include hwanted

theorem pciProbe_always {addr : PciAddress} (h : addr.Valid) :
    (pciProbe isWanted addr).Always ConfigAccess.IsRead fun _ => True := by
  refine (readReg_always h _).bind fun r _ => ?_
  by_cases habsent : r &&& 0xFFFF#32 = 0xFFFF#32
  · simp [habsent, Query.always_pure]
  rw [if_neg habsent]
  refine (hwanted addr r h).bind fun found _ => ?_
  split_ifs
  · exact trivial
  · refine (readReg_always h _).bind fun header _ => ?_
    exact trivial
  · exact trivial

theorem functionLoop_always (bus : ℕ) {slot : ℕ} (hslot : slot < 32) :
    ∀ n function : ℕ, function + n ≤ 8 →
      (functionLoop isWanted bus slot n function).Always ConfigAccess.IsRead
        fun o => ∀ addr ∈ o, addr.Valid
  | 0, _, _ => by simp [functionLoop, Query.always_pure]
  | n + 1, function, hle => by
    have hvalid := addressOf_valid bus hslot (show function < 8 by omega)
    refine (pciProbe_always hwanted hvalid).bind fun probe _ => ?_
    cases probe with
    | found => simpa [Query.always_pure] using hvalid
    | nextFunction => exact functionLoop_always bus hslot n (function + 1) (by omega)
    | nextSlot => simp [Query.always_pure]

/-- A scan only reads, and what it returns is an address of the bus. -/
theorem pciFind_always :
    (pciFind isWanted).Always ConfigAccess.IsRead fun o => ∀ addr ∈ o, addr.Valid := by
  refine Query.Always.firstSome fun bus _ => Query.Always.firstSome fun slot hslot => ?_
  exact functionLoop_always hwanted bus (List.mem_range.1 hslot) 8 0 le_rfl

omit hwanted in
theorem pciFindDevice_always (vendorId deviceId : BitVec 16) :
    (pciFindDevice vendorId deviceId).Always ConfigAccess.IsRead
      fun o => ∀ addr ∈ o, addr.Valid :=
  pciFind_always fun _ _ _ => trivial

variable {wanted : PciAddress → Bool}

theorem pciFind_throughPorts (keeps : Keeps) (b : Bridge)
    (hrun : ∀ addr, (isWanted addr (vendorDevice b.config addr)).run b.config.answer
      = some (wanted addr)) :
    throughPorts keeps b (pciFind isWanted)
      = some (allFunctions.find? (fun addr => Visible b.config addr && wanted addr),
          b.config) := by
  rw [throughPorts_of_always keeps b (pciFind_always hwanted), run_pciFind hrun]
  rfl

end Reads

section Scans

variable (config : Config) (addr : PciAddress)

/-- Class, subclass and programming interface. -/
def classOf : BitVec 8 × BitVec 8 × BitVec 8 :=
  let classReg := config (registerOf addr 0x08)
  (classReg.extractLsb' 24 8, classReg.extractLsb' 16 8, classReg.extractLsb' 8 8)

def vendorOf : BitVec 16 := (vendorDevice config addr).extractLsb' 0 16

def deviceOf : BitVec 16 := (vendorDevice config addr).extractLsb' 16 16

/-- Through the ports, on every bus: a scan returns the first function that can be seen and has the
class, or the vendor and device, fails if there is none, and leaves every register as it is. -/
theorem scans_first (keeps : Keeps) (b : Bridge) :
    (∀ classCode subclass progIf,
      throughPorts keeps b (pciFindClass classCode subclass progIf)
        = some (allFunctions.find? (fun addr => Visible b.config addr &&
            classOf b.config addr = (classCode, subclass, progIf)), b.config)) ∧
    (∀ classCode subclass,
      throughPorts keeps b (pciFindClassAnyProgIf classCode subclass)
        = some (allFunctions.find? (fun addr => Visible b.config addr &&
            ((classOf b.config addr).1 = classCode ∧ (classOf b.config addr).2.1 = subclass)),
          b.config)) ∧
    ∀ vendorId deviceId,
      throughPorts keeps b (pciFindDevice vendorId deviceId)
        = some (allFunctions.find? (fun addr => Visible b.config addr &&
            (vendorOf b.config addr = vendorId ∧ deviceOf b.config addr = deviceId)),
          b.config) := by
  refine ⟨?_, ?_, ?_⟩
  · intro classCode subclass progIf
    refine pciFind_throughPorts ?_ keeps b ?_
    · intro addr _ h
      exact ⟨h, fun _ => trivial⟩
    · intro addr
      simp [readReg, Config.answer, classOf]
  · intro classCode subclass
    refine pciFind_throughPorts ?_ keeps b fun addr => rfl
    intro addr _ h
    exact ⟨h, fun _ => trivial⟩
  · intro vendorId deviceId
    refine pciFind_throughPorts ?_ keeps b fun addr => rfl
    intro _ _ _
    exact trivial

end Scans

end Pci

end PeanutKernel
