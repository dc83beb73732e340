import PeanutKernel.Proofs.Ahci

/-!
# Sessions with a disk

A port that `ahci_init` has set up is ready, and from then on what the driver does through the
adapter is what is to be done with memory and the disk (`session_refines`), up to the first transfer
the disk fails.
-/

namespace PeanutKernel

namespace Ahci

open Alloc (storeLe storeLe_outside)

section Init

variable {pd : ℕ} {p : Port}

theorem followed_running (value : BitVec 32) :
    followed value &&& 0x8000#32 = 0 ↔ value &&& 0x0001#32 = 0 := by
  have hrun := and_twoPow_eq_zero (followed value) (show 15 < 32 by decide)
  rw [show (0x8000#32 : BitVec 32) = BitVec.twoPow 32 15 by decide, hrun, and_one_eq_zero]
  simp [followed]

/-- However long it takes, waiting changes nothing. -/
theorem exec_waitStopped (p : Port) :
    ∀ n : ℕ, (waitStopped n).exec Port.serve p = some ((), p)
  | 0 => rfl
  | n + 1 => by
    change (if p.regs .cmd &&& 0xC000#32 = 0 then pure () else waitStopped n : AhciM Unit).exec
      Port.serve p = _
    split_ifs
    · rfl
    · exact exec_waitStopped p n

/-- The port with other values of `cmd` and `ci`. -/
def Port.withCmd (p : Port) (cmd ci : BitVec 32) : Port := (p.setReg .cmd cmd).setReg .ci ci

theorem regs_withCmd (p : Port) (cmd ci : BitVec 32) :
    (p.withCmd cmd ci).regs .cmd = cmd ∧ (p.withCmd cmd ci).regs .ci = ci ∧
      ∀ r, r ≠ .cmd → r ≠ .ci → (p.withCmd cmd ci).regs r = p.regs r := by
  refine ⟨by simp [Port.withCmd, Port.setReg], by simp [Port.withCmd, Port.setReg], ?_⟩
  intro r hcmd hci
  simp [Port.withCmd, Port.setReg, hcmd, hci]

/-- The second of two writes of `cmd` counts. -/
theorem write_write_cmd (p : Port) (v₁ v₂ : BitVec 32) :
    (p.write .cmd v₁).write .cmd v₂ = p.withCmd (followed v₂)
      (if v₂ &&& 0x0001#32 = 0 then 0 else if v₁ &&& 0x0001#32 = 0 then 0 else p.regs .ci) := by
  have hne : PortReg.cmd ≠ PortReg.ci := by decide
  simp [Port.write, Port.withCmd, Port.setReg, Function.update_comm hne]

theorem exec_stopPort (p : Port) :
    ∃ cmd, stopPort.exec Port.serve p = some ((), p.withCmd cmd 0) ∧ cmd &&& 0x8000#32 = 0 := by
  set v₁ := p.regs .cmd &&& ~~~0x0001#32 ||| 0 with hv₁
  set v₂ := followed v₁ &&& ~~~0x0010#32 ||| 0 with hv₂
  have hoff : v₂ &&& 0x0001#32 = 0 := by
    rw [hv₂, hv₁, and_one_eq_zero]
    simp [followed]
  refine ⟨followed v₂, ?_, (followed_running v₂).2 hoff⟩
  have hwrites := write_write_cmd p v₁ v₂
  rw [if_pos hoff] at hwrites
  rw [← hwrites]
  exact exec_waitStopped _ _

theorem exec_startPort {fuel : ℕ} (hfuel : 0 < fuel) (hstopped : p.regs .cmd &&& 0x8000#32 = 0)
    (hci : p.regs .ci = 0) :
    ∃ cmd, (startPort fuel).exec Port.serve p = some ((), p.withCmd cmd 0) ∧
      cmd &&& 0x8000#32 ≠ 0 := by
  obtain ⟨fuel, rfl⟩ := Nat.exists_eq_add_of_lt hfuel
  set v₁ := p.regs .cmd &&& ~~~0#32 ||| 0x0010#32
  set v₂ := followed v₁ &&& ~~~0#32 ||| 0x0001#32 with hv₂
  have hon : v₂ &&& 0x0001#32 ≠ 0 := by
    rw [hv₂, ne_eq, and_one_eq_zero]
    simp
  have hfree : (waitStartable (0 + fuel + 1)).exec Port.serve p = some ((), p) := by
    change (if p.regs .cmd &&& 0x8000#32 = 0 then pure () else waitStartable (0 + fuel) :
      AhciM Unit).exec Port.serve p = _
    rw [if_pos hstopped]
    rfl
  refine ⟨followed v₂, ?_, (followed_running v₂).not.2 hon⟩
  have hwrites := write_write_cmd p v₁ v₂
  rw [hci, ite_self, ite_self] at hwrites
  rw [startPort, Query.exec_bind, hfree, ← hwrites]
  rfl

theorem clearing_isMem (pd abar index : ℕ) : ∀ q ∈ clearing pd abar index, q.IsMem := by
  simp only [clearing, List.forall_mem_append, List.forall_mem_cons, Access.IsMem,
    List.not_mem_nil, false_imp_iff, implies_true, and_true]
  exact ⟨⟨memzero_isMem _ _, memzero_isMem _ _⟩, memzero_isMem _ _⟩

theorem clearing_outside {abar index x : ℕ} {mem : Buf} (h : x < pd ∨ pd + 3072 ≤ x) :
    (clearing pd abar index).foldl Access.onMem mem x = mem x := by
  simp only [clearing, List.foldl_append, List.foldl_cons, List.foldl_nil, Access.onMem,
    memzero_apply, commandListOff, fisAreaOff, portDataBytes]
  simp (disch := omega) only [storeLe_outside, memzero_apply, if_neg]

theorem clearing_flags {abar index : ℕ} {mem : Buf} :
    (clearing pd abar index).foldl Access.onMem mem (pd + 1024) = 0 := by
  simp only [clearing, List.foldl_append, memzero_apply, commandListOff, fisAreaOff]
  rw [if_neg (by omega), if_pos (by omega)]

def Port.withMem (p : Port) (mem : Buf) : Port := { p with mem := mem }

@[simp] theorem withMem_mem (p : Port) (mem : Buf) : (p.withMem mem).mem = mem := rfl

theorem foldl_clearing (p : Port) (pd abar index : ℕ) :
    ∃ mem, (clearing pd abar index).foldl (fun p q => (p.serve q).2) p = p.withMem mem ∧
      mem (pd + 1024) = 0 ∧ ∀ x, x < pd ∨ pd + 3072 ≤ x → mem x = p.mem x :=
  ⟨_, foldl_serve (clearing_isMem pd abar index), clearing_flags, fun _ hx => clearing_outside hx⟩

def Port.configured (p : Port) (pd : ℕ) : Port :=
  (configuring pd).foldl (fun p q => (p.serve q).2) p

theorem configured_mem {x : ℕ} (h : x < pd + 1032 ∨ pd + 1040 ≤ x) :
    (p.configured pd).mem x = p.mem x := by
  change storeLe 4 (storeLe 4 p.mem (pd + 1024 + 8) _) (pd + 1024 + 12) 0 x = _
  rw [storeLe_outside (by omega), storeLe_outside (by omega)]

theorem configured_regs (p : Port) (pd : ℕ) :
    (p.configured pd).regs .clb = BitVec.ofNat 32 (pd + 1024) ∧
      (p.configured pd).regs .clbu = 0 ∧ (p.configured pd).regs .cmd = p.regs .cmd ∧
      (p.configured pd).regs .ci = p.regs .ci := by
  simp [Port.configured, configuring, Port.serve, Port.write, Port.setReg, commandListOff]

/-- A port is ready once it is set up, whatever it was before, and everything outside its data is as
it was. -/
theorem exec_initPort {fuel abar index : ℕ} (hfuel : 0 < fuel) (p : Port) :
    ∃ p', (initPort fuel pd abar index).exec Port.serve p = some ((), p') ∧ Ready pd p' ∧
      Shows pd p' ⟨p.mem, p.medium⟩ ∧ p'.delay = p.delay ∧ p'.tfd = p.tfd := by
  obtain ⟨cmd₁, hstop, hstopped⟩ := exec_stopPort p
  obtain ⟨hcmd₁, hci₁, -⟩ := regs_withCmd p cmd₁ 0
  obtain ⟨mem, hclear, hzero, hkept⟩ := foldl_clearing (p.withCmd cmd₁ 0) pd abar index
  set p₁ := (p.withCmd cmd₁ 0).withMem mem
  obtain ⟨hclb, hclbu, hcmd, hci⟩ := configured_regs p₁ pd
  obtain ⟨cmd, hstart, hrunning⟩ := exec_startPort hfuel
    ((congrArg (· &&& 0x8000#32) (hcmd.trans hcmd₁)).trans hstopped) (hci.trans hci₁)
  obtain ⟨hcmd₂, hci₂, hregs⟩ := regs_withCmd (p₁.configured pd) cmd 0
  have hmem : ∀ x, x < pd + 1032 ∨ pd + 1040 ≤ x →
      ((p₁.configured pd).withCmd cmd 0).mem x = mem x := fun x hx => configured_mem hx
  refine ⟨(p₁.configured pd).withCmd cmd 0, ?_, ⟨?_, ?_, hci₂, ?_, ?_⟩, ⟨rfl, fun x hx => ?_⟩, rfl,
    rfl⟩
  · rw [initPort, Query.exec_bind, hstop, Option.bind_some, Query.exec_bind, Query.exec_askAll,
      Option.bind_some, Query.exec_bind, Query.exec_askAll, Option.bind_some, hclear]
    exact hstart
  · rw [hregs _ (by decide) (by decide), hclb]
  · rw [hregs _ (by decide) (by decide), hclbu]
  · rwa [hcmd₂]
  · rw [hmem _ (by omega), hzero]
    decide
  · exact (hmem x (by omega)).trans (hkept x hx)

end Init

section Sessions

/-- What happens between the kernel and the disk: transfers, and stores of the kernel elsewhere. -/
inductive Event
  | transfer (r : Request)
  | store (bytes a value : ℕ)
  deriving DecidableEq, Repr

/-- The transfers one after the other up to the first that fails, with their return values. -/
def session (fuel pd : ℕ) : List Event → AhciM (List Bool)
  | [] => pure []
  | .store bytes a value :: es => do
    Query.askAll [.store bytes a value]
    session fuel pd es
  | .transfer r :: es => do
    if ← ahciTransfer fuel pd r.lba r.count r.buffer r.write then do
      let oks ← session fuel pd es
      pure (true :: oks)
    else pure [false]

/-- The same with nothing between memory and the disk. -/
def Disk.session (d : Disk) : List Event → List Bool × Disk
  | [] => ([], d)
  | .store bytes a value :: es => { d with mem := storeLe bytes d.mem a value }.session es
  | .transfer r :: es =>
    match d.step r with
    | (true, d) => (true :: (d.session es).1, (d.session es).2)
    | (false, d) => ([false], d)

/-- The event has nothing to do with the port's own data. -/
def Event.Fits (pd : ℕ) : Event → Prop
  | .transfer r => r.Fits pd
  | .store bytes a _ => a + bytes ≤ pd ∨ pd + 3072 ≤ a

variable {fuel pd : ℕ}

theorem session_of_ready (hpd : pd + 3072 ≤ 2 ^ 32) :
    ∀ {es : List Event} {p : Port} {d : Disk}, Ready pd p → Shows pd p d →
      (∀ i, p.delay i < fuel) → (∀ polls, ∃ k < 100000, p.tfd (polls + k) &&& 0x88#32 = 0) →
      (∀ e ∈ es, e.Fits pd) →
      ∃ p', (session fuel pd es).exec Port.serve p = some ((d.session es).1, p') ∧
        Shows pd p' (d.session es).2
  | [], p, d, _, hshows, _, _, _ => ⟨p, rfl, hshows⟩
  | .store bytes a value :: es, p, d, hready, hshows, hdelay, htfd, hfits => by
    rw [List.forall_mem_cons] at hfits
    have hapart : a + bytes ≤ pd ∨ pd + 3072 ≤ a := hfits.1
    have hready₁ : Ready pd (p.withMem (storeLe bytes p.mem a value)) := by
      refine ⟨hready.clb, hready.clbu, hready.idle, hready.running, ?_⟩
      rw [withMem_mem, storeLe_outside (by omega)]
      exact hready.flags
    have hshows₁ : Shows pd (p.withMem (storeLe bytes p.mem a value))
        ⟨storeLe bytes d.mem a value, d.medium⟩ := by
      refine ⟨hshows.medium, fun x hx => ?_⟩
      simp only [withMem_mem, storeLe, hshows.mem x hx]
    exact session_of_ready (p := p.withMem (storeLe bytes p.mem a value)) hpd hready₁ hshows₁
      hdelay htfd hfits.2
  | .transfer r :: es, p, d, hready, hshows, hdelay, htfd, hfits => by
    rw [List.forall_mem_cons] at hfits
    obtain ⟨p₁, hexec, hshows₁, hdelay₁, htfd₁, hready₁, -⟩ :=
      transfer_refines hready hshows hpd hfits.1 (htfd p.polls) (hdelay p.commands)
    rw [session, Query.exec_bind, hexec, Option.bind_some, Disk.session]
    generalize d.step r = x at hshows₁ hready₁ ⊢
    obtain ⟨ok, d₁⟩ := x
    cases ok with
    | false => exact ⟨p₁, rfl, hshows₁⟩
    | true =>
      obtain ⟨p₂, hrest, hshows₂⟩ := session_of_ready hpd (hready₁ rfl) hshows₁
        (hdelay₁ ▸ hdelay) (htfd₁ ▸ htfd) hfits.2
      refine ⟨p₂, ?_, hshows₂⟩
      change ((session fuel pd es) >>= fun oks => pure (true :: oks)).exec Port.serve p₁ = _
      rw [Query.exec_bind, hrest]
      rfl

/-- Whatever state the port is in and however long its commands take: once `ahci_init` has set it
up, the driver's transfers return what the disk returns and move the sectors they were asked for,
between the disk and the buffers and nowhere else, up to the first that fails. -/
theorem session_refines (p : Port) (abar index : ℕ) (es : List Event) (hpd : pd + 3072 ≤ 2 ^ 32)
    (hdelay : ∀ i, p.delay i < fuel)
    (htfd : ∀ polls, ∃ k < 100000, p.tfd (polls + k) &&& 0x88#32 = 0)
    (hfits : ∀ e ∈ es, e.Fits pd) :
    ∃ p', (do initPort fuel pd abar index; session fuel pd es : AhciM (List Bool)).exec Port.serve p
        = some ((Disk.session ⟨p.mem, p.medium⟩ es).1, p') ∧
      Shows pd p' (Disk.session ⟨p.mem, p.medium⟩ es).2 := by
  have hfuel : 0 < fuel := (Nat.zero_le _).trans_lt (hdelay 0)
  obtain ⟨p₁, hinit, hready, hshows, hdelay₁, htfd₁⟩ := @exec_initPort pd fuel abar index hfuel p
  rw [Query.exec_bind, hinit, Option.bind_some]
  exact session_of_ready hpd hready hshows (hdelay₁ ▸ hdelay) (htfd₁ ▸ htfd) hfits

/-- A port none of whose commands takes longer than three polls. -/
def idlePort (medium : Medium) : Port where
  mem := fun _ => 0
  medium := medium
  regs := fun _ => 0
  tfd := fun _ => 0
  polls := 0
  delay := fun i => i % 4
  commands := 0
  wait := 0

/-- Two sectors read to `0x8000`, a byte of them changed and one of them written elsewhere. -/
def copySession : List Event :=
  [.transfer ⟨5, 2, 0x8000, false⟩, .store 1 0x8003 7, .transfer ⟨2 ^ 40, 1, 0x8000, true⟩]

theorem copySession_fits : ∀ e ∈ copySession, e.Fits 0x100000 := by
  intro e he
  simp only [copySession, List.mem_cons, List.not_mem_nil, or_false] at he
  obtain rfl | rfl | rfl := he
  · exact ⟨by decide, by decide, by decide, by decide, .inl (by decide)⟩
  · exact .inl (by decide)
  · exact ⟨by decide, by decide, by decide, by decide, .inl (by decide)⟩

theorem session_refines_copy :
    ∃ p', (do initPort 4 0x100000 0xFEBF0000 0; session 4 0x100000 copySession :
          AhciM (List Bool)).exec Port.serve (idlePort ⟨fun a => UInt8.ofNat a, fun _ => false⟩)
        = some ((Disk.session ⟨fun _ => 0, fun a => UInt8.ofNat a, fun _ => false⟩ copySession).1,
          p') ∧
      Shows 0x100000 p'
        (Disk.session ⟨fun _ => 0, fun a => UInt8.ofNat a, fun _ => false⟩ copySession).2 :=
  session_refines (idlePort ⟨fun a => UInt8.ofNat a, fun _ => false⟩) 0xFEBF0000 0 copySession
    (by decide) (fun _ => Nat.mod_lt _ (by decide)) (fun _ => ⟨0, by decide, BitVec.zero_and⟩)
    copySession_fits

/-- After a transfer that failed the driver hangs: the port has stopped, and `ahci_transfer` never
starts it again. -/
theorem transfer_after_error {pd fuel : ℕ} {p : Port} {d : Disk} {r : Request}
    (hready : Ready pd p) (hshows : Shows pd p d) (hpd : pd + 3072 ≤ 2 ^ 32) (hfits : r.Fits pd)
    (hfail : (d.step r).1 = false) (hdelay : ∀ i, p.delay i < fuel)
    (htfd : ∀ polls, ∃ k < 100000, p.tfd (polls + k) &&& 0x88#32 = 0) :
    ∃ p', (ahciTransfer fuel pd r.lba r.count r.buffer r.write).exec Port.serve p
        = some (false, p') ∧
      ∀ r' : Request, 0 < r'.count → r'.count ≤ 128 → ∀ fuel',
        (ahciTransfer fuel' pd r'.lba r'.count r'.buffer r'.write).exec Port.serve p' = none := by
  obtain ⟨p', hexec, -, -, htfd', -, hstopped⟩ :=
    transfer_refines hready hshows hpd hfits (htfd p.polls) (hdelay p.commands)
  rw [hfail] at hexec
  have hidles : Idles p' 100000 := by
    rw [Idles, htfd']
    exact htfd p'.polls
  exact ⟨p', hexec, fun _ hpos hle => transfer_stopped (hstopped hfail) hpos hle hidles⟩

/-- A port that is set up, with a disk whose sector 7 cannot be read. -/
def readyPort : Port :=
  { idlePort ⟨fun _ => 0, fun s => s = 7⟩ with
    regs := fun r => if r = .clb then 0x100400 else if r = .cmd then 0xC011 else 0 }

theorem readyPort_ready : Ready 0x100000 readyPort :=
  ⟨by decide, by decide, by decide, by decide, by decide⟩

theorem transfer_after_error_sample :
    ∃ p', (ahciTransfer 4 0x100000 5 4 0x8000 false).exec Port.serve readyPort
        = some (false, p') ∧
      ∀ r' : Request, 0 < r'.count → r'.count ≤ 128 → ∀ fuel',
        (ahciTransfer fuel' 0x100000 r'.lba r'.count r'.buffer r'.write).exec Port.serve p'
          = none :=
  transfer_after_error (r := ⟨5, 4, 0x8000, false⟩) (d := ⟨readyPort.mem, readyPort.medium⟩)
    readyPort_ready ⟨rfl, fun _ _ => rfl⟩ (by decide)
    ⟨by decide, by decide, by decide, by decide, .inl (by decide)⟩ (by decide)
    (fun _ => Nat.mod_lt _ (by decide)) (fun _ => ⟨0, by decide, BitVec.zero_and⟩)

end Sessions

end Ahci

end PeanutKernel
