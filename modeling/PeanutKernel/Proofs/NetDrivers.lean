import PeanutKernel.NetDrivers
import PeanutKernel.Proofs.Pci

/-!
# Which network devices there are

`pci_bar` takes the low bit off the address it returns, and `rtl8139_init` goes by that bit to tell
a card behind ports from one behind memory. It takes every card for one behind memory.
-/

namespace PeanutKernel

namespace NetDrivers

open Pci

section Quiet

/-- The access reads a register on the bus or prints. -/
def Access.IsQuiet : Access → Prop
  | .config q => q.IsRead
  | .kprint _ => True
  | _ => False

theorem onBus_always {α : Type} {P : α → Prop} {p : PciM α}
    (h : p.Always ConfigAccess.IsRead P) : (onBus p).Always Access.IsQuiet P := by
  refine h.translate fun q hq => ?_
  exact ⟨hq, fun _ => trivial⟩

theorem print_always (text : String) :
    (print text).Always Access.IsQuiet fun _ => True :=
  ⟨trivial, fun _ => trivial⟩

theorem findAny_always (vendorId : BitVec 16) (ids : List (BitVec 16)) :
    (findAny vendorId ids).Always ConfigAccess.IsRead fun o => ∀ addr ∈ o, addr.Valid :=
  Query.Always.firstSome fun id _ => pciFindDevice_always vendorId id

theorem rtl8139Setup_always : rtl8139Setup.Always Access.IsQuiet fun ok => ok = false := by
  refine (onBus_always (pciFindDevice_always _ _)).bind fun found hvalid => ?_
  cases found with
  | none =>
    refine (print_always _).bind fun _ _ => ?_
    rfl
  | some addr =>
    refine (onBus_always (pciBar_always (hvalid addr rfl) 0)).bind fun bar hbar => ?_
    have hzero : bar &&& 1#64 = 0 := by
      rw [BitVec.and_one_eq_setWidth_ofBool_getLsbD, hbar]
      rfl
    rw [if_pos hzero]
    refine (print_always _).bind fun _ _ => ?_
    rfl

theorem rtl8139Init_always : rtl8139Init.Always Access.IsQuiet fun _ => True := by
  refine rtl8139Setup_always.bind fun ok hok => ?_
  rw [hok]
  exact trivial

theorem rtl8169Init_always : rtl8169Init.Always Access.IsQuiet fun _ => True := by
  refine (onBus_always (findAny_always _ _)).bind fun found _ => ?_
  cases found with
  | none => exact print_always _
  | some addr => exact print_always _

theorem virtioNetInit_always : virtioNetInit.Always Access.IsQuiet fun _ => True := by
  refine (onBus_always (findAny_always _ _)).bind fun found _ => ?_
  cases found with
  | none => exact print_always _
  | some addr => exact print_always _

theorem otherDrivers_always : otherDrivers.Always Access.IsQuiet fun _ => True :=
  rtl8139Init_always.bind fun _ _ => rtl8169Init_always.bind fun _ _ => virtioNetInit_always

end Quiet

section Register

theorem netDevices_append (accesses accesses' : List Access) :
    netDevices (accesses ++ accesses') = netDevices accesses' ++ netDevices accesses := by
  induction accesses with
  | nil => simp [netDevices]
  | cons q accesses ih => cases q <;> simp [netDevices, ih]

theorem netDevices_eq_nil :
    ∀ {accesses : List Access}, (∀ q ∈ accesses, q.IsQuiet) → netDevices accesses = []
  | [], _ => rfl
  | q :: accesses, h => by
    rw [List.forall_mem_cons] at h
    have ih := netDevices_eq_nil h.2
    cases q with
    | register dev => exact h.1.elim
    | _ => exact ih

/-- Whatever the machine answers: the drivers behind `e1000_init` read registers on the bus, print
and do nothing else, and the network devices are those that `e1000_init` has registered. -/
theorem networkUp_devices {σ : Type} (serve : σ → Access → BitVec 64 × σ) (s : σ)
    (e1000Init : NetM Unit) :
    (∀ q ∈ otherDrivers.asked serve s, q.IsQuiet) ∧
      netDevices ((networkUp e1000Init).asked serve s)
        = netDevices ((networkStart e1000Init).asked serve s) := by
  refine ⟨otherDrivers_always.asked s, ?_⟩
  rw [networkUp, Query.asked_bind, netDevices_append]
  cases (networkStart e1000Init).exec serve s with
  | none => rfl
  | some x =>
    rw [Option.elim_some, netDevices_eq_nil (otherDrivers_always.asked _), List.nil_append]

end Register

end NetDrivers

end PeanutKernel
