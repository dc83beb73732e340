import PeanutKernel.Mounts
import PeanutKernel.Proofs.Iso9660

/-!
# After a mount that failed

`fat12_init` and `iso9660_init` fail before the pointer is set, and leave the module as it was, or
fail at the check of the sector, and leave a pointer to memory that is freed. From then on, until an
init succeeds, `fat12_read` and `fat12_stat` look at that memory, and `iso9660_stat` takes the disc
for mounted.
-/

namespace PeanutKernel

namespace Mounts

open Query
open Fat (Fat12Bpb fat12Bpb fat12MakeName)
open Iso (Disc)

section Inits

variable {σ τ : Type} (init : τ → σ → Option (ℤ × σ))

/-- The init calls of the list return -1, and lead from one state to the other. -/
inductive FailedInits : σ → List τ → σ → Prop
  | nil (s : σ) : FailedInits s [] s
  | cons {s s' s'' : σ} {t : τ} {ts : List τ} :
    init t s = some (-1, s') → FailedInits s' ts s'' → FailedInits s (t :: ts) s''

variable {init} {bad : τ → Prop} {d : σ → σ}

/-- If an init that fails at its check leaves a dangling pointer and one that fails before changes
nothing, the pointer dangles after a failure at the check and whatever failures come then. -/
theorem failedInits_cases (hidem : ∀ s, d (d s) = d s)
    (hinit : ∀ t s s', init t s = some (-1, s') → ¬ bad t ∧ s' = s ∨ bad t ∧ s' = d s)
    {s s' : σ} {ts : List τ} (h : FailedInits init s ts s') :
    (∀ t ∈ ts, ¬ bad t) ∧ s' = s ∨ (∃ t ∈ ts, bad t) ∧ s' = d s := by
  induction h with
  | nil s => exact .inl ⟨by simp, rfl⟩
  | @cons s s' s'' t ts ht _ ih =>
    rcases hinit t s s' ht with ⟨hgood, rfl⟩ | ⟨hbad, rfl⟩
    · rcases ih with ⟨hall, rfl⟩ | ⟨⟨u, hu, hbad⟩, rfl⟩
      · exact .inl ⟨List.forall_mem_cons.2 ⟨hgood, hall⟩, rfl⟩
      · exact .inr ⟨⟨u, List.mem_cons_of_mem t hu, hbad⟩, rfl⟩
    · refine .inr ⟨⟨t, List.mem_cons_self, hbad⟩, ?_⟩
      rcases ih with ⟨_, rfl⟩ | ⟨_, rfl⟩
      · rfl
      · exact hidem s

/-- There is a buffer and a sector in it, which fails the check. -/
def FailsCheck (allocated : Bool) (sector : Option Buf) (ok : Buf → Prop) : Prop :=
  allocated = true ∧ ∃ b, sector = some b ∧ ¬ ok b

/-- What both init functions do: without a buffer or a sector nothing, otherwise the pointer is set
and, if the sector fails the check, left to dangle. -/
def tryInit (allocated : Bool) (sector : Option Buf) (ok : Buf → Prop) [DecidablePred ok]
    (mounted : Buf → σ) (d : σ → σ) (s : σ) : ℤ × σ :=
  if allocated = false then (-1, s)
  else match sector with
  | none => (-1, s)
  | some b => if ok b then (0, mounted b) else (-1, d s)

theorem tryInit_failed {allocated : Bool} {sector : Option Buf} {ok : Buf → Prop}
    [DecidablePred ok] {mounted : Buf → σ} {s s' : σ}
    (h : tryInit allocated sector ok mounted d s = (-1, s')) :
    ¬ FailsCheck allocated sector ok ∧ s' = s ∨ FailsCheck allocated sector ok ∧ s' = d s := by
  rcases allocated with _ | _
  · exact .inl ⟨by simp [FailsCheck], (congrArg Prod.snd h).symm⟩
  · rcases sector with _ | b
    · exact .inl ⟨by simp [FailsCheck], (congrArg Prod.snd h).symm⟩
    · by_cases hok : ok b
      · simp [tryInit, hok] at h
      · simp only [tryInit, Bool.true_eq_false, if_false, if_neg hok] at h
        exact .inr ⟨⟨rfl, b, rfl, hok⟩, (congrArg Prod.snd h).symm⟩

end Inits

section Fat12

/-- A call of `fat12_init`: what `kalloc` and the floppy are like. -/
structure FloppyTry where
  allocated : Bool
  floppy : Medium

namespace FloppyTry

def init (t : FloppyTry) (bpb : HeapPtr Fat12Bpb) : Option (ℤ × HeapPtr Fat12Bpb) :=
  (fat12Init t.allocated bpb).run t.floppy.read

/-- The sector size in the boot sector is not 512. -/
def FailsCheck (t : FloppyTry) : Prop :=
  Mounts.FailsCheck t.allocated (t.floppy.read ⟨0, 1⟩) fun b => (fat12Bpb b).bytesPerSector = 512

theorem init_eq (t : FloppyTry) (bpb : HeapPtr Fat12Bpb) :
    t.init bpb = some (tryInit t.allocated (t.floppy.read ⟨0, 1⟩)
      (fun b => (fat12Bpb b).bytesPerSector = 512) (fun b => .live (fat12Bpb b))
      (fun _ => .freed) bpb) := by
  obtain ⟨allocated, floppy⟩ := t
  cases allocated
  · rfl
  · rcases hread : floppy.read ⟨0, 1⟩ with _ | b
    · simp [init, fat12Init, tryInit, Fat.floppyRead, blockRead, hread]
    · by_cases hok : (fat12Bpb b).bytesPerSector = 512 <;>
        simp [init, fat12Init, tryInit, Fat.floppyRead, blockRead, hread, hok]

/-- The init of `Fat12` is this one without the pointer. -/
theorem init_eq_live_iff (t : FloppyTry) (bpb : HeapPtr Fat12Bpb) (b : Fat12Bpb) :
    t.init bpb = some (0, .live b)
      ↔ (Fat.fat12Init t.allocated).run t.floppy.read = some (some b) := by
  obtain ⟨allocated, floppy⟩ := t
  rw [init_eq]
  cases allocated
  · simp [tryInit, Fat.fat12Init]
  · rcases hread : floppy.read ⟨0, 1⟩ with _ | sector
    · simp [Fat.fat12Init, tryInit, Fat.floppyRead, blockRead, hread]
    · by_cases hok : (fat12Bpb sector).bytesPerSector = 512 <;>
        simp [Fat.fat12Init, tryInit, Fat.floppyRead, blockRead, hread, hok]

end FloppyTry

/-- Whatever is read or asked for, from whatever floppy, the return value is -1, and memory that was
freed is not looked at. -/
def Fat12Unmounted (bpb : HeapPtr Fat12Bpb) : Prop :=
  ∀ (floppy : Medium) (path : Option (List UInt8)),
    (fat12Stat bpb path).run floppy.read = some (.returns none)
      ∧ ∀ fuel buffer len,
        (fat12Read fuel bpb path buffer len).run floppy.read = some (.returns ⟨-1, []⟩)

theorem fat12Unmounted_null : Fat12Unmounted .null := by
  intro floppy path
  refine ⟨rfl, fun fuel buffer len => ?_⟩
  rw [fat12Read]
  split_ifs <;> rfl

theorem not_fat12Unmounted_freed : ¬ Fat12Unmounted .freed := by
  intro h
  have hstat := (h ⟨fun _ => 0, fun _ => false⟩ (some (ascii "A"))).1
  have huse : fat12Stat .freed (some (ascii "A")) = pure .usesFreed := by
    rw [fat12Stat, withRoot, if_neg (by decide)]
  rw [huse, run_pure, Option.some_inj] at hstat
  cases hstat

end Fat12

section Iso9660

/-- A call of `iso9660_init`: what `kalloc` and the disc are like. -/
structure DiscTry where
  allocated : Bool
  disc : Disc

namespace DiscTry

def init (t : DiscTry) (s : IsoState) : Option (ℤ × IsoState) :=
  (iso9660Init t.allocated s).run t.disc.answer

/-- Sector 16 does not start as a primary volume descriptor. -/
def FailsCheck (t : DiscTry) : Prop :=
  Mounts.FailsCheck t.allocated (t.disc 16) fun b => bytesOf b 6 = pvdSignature

theorem run_bytesAre {disc : Disc} {lba : ℕ} {sector : Buf}
    (hsector : Iso.loaded disc lba = sector) (cs : List UInt8) (i : ℕ) :
    (bytesAre lba cs i).run disc.answer
      = some (decide (bytesOf (fun j => sector (i + j)) cs.length = cs)) := by
  induction cs generalizing i with
  | nil => rfl
  | cons c cs ih =>
    rw [bytesAre, Iso.run_readByte_bind hsector, List.length_cons, Iso.bytesOf_from]
    split_ifs with hne
    · simp [hne]
    · simp [ih, not_not.1 hne]

theorem init_eq (t : DiscTry) (s : IsoState) :
    t.init s = some (tryInit t.allocated (t.disc 16) (fun b => bytesOf b 6 = pvdSignature)
      (fun b => ⟨.live (), le32 b 158, le32 b 166⟩) (fun s => { s with isoPvd := .freed }) s) := by
  obtain ⟨allocated, disc⟩ := t
  cases allocated
  · rfl
  · rcases hread : disc 16 with _ | b
    · simp [init, iso9660Init, tryInit, Iso.cdromRead, Disc.answer, hread]
    · have hloaded : Iso.loaded disc 16 = b := by rw [Iso.loaded, hread, Option.getD_some]
      have hcd : (Iso.cdromRead 16).run disc.answer = some true := by
        simp [Iso.cdromRead, Disc.answer, hread]
      have hsigned : (bytesAre 16 pvdSignature 0).run disc.answer
          = some (decide (bytesOf b 6 = pvdSignature)) := by
        rw [run_bytesAre hloaded]
        simp only [Nat.zero_add]
        rfl
      by_cases hok : bytesOf b 6 = pvdSignature <;>
        simp [init, iso9660Init, tryInit, hcd, hsigned, hread, hok, Iso.run_isoLe32 hloaded]

end DiscTry

/-- Whatever is read or asked for, from whatever disc, the return value is -1. Memory that was freed
is not looked at in any state. -/
def IsoUnmounted (s : IsoState) : Prop :=
  ∀ (disc : Disc) (path : Option (List UInt8)) (fuel : ℕ),
    (iso9660Stat fuel s path).run disc.answer = some none
      ∧ ∀ buffer len, (iso9660Read fuel s path buffer len).run disc.answer = some ⟨-1, []⟩

theorem isoUnmounted_iff (s : IsoState) : IsoUnmounted s ↔ s.isoPvd = .null := by
  constructor
  · intro h
    by_contra hpvd
    have hstat := (h (fun _ => none) (some (ascii "/")) 0).1
    have hfind : Iso.isoFindInDir 0 (ascii "/") s.isoRootLba s.isoRootSize
        = pure (some ⟨s.isoRootLba, s.isoRootSize, true⟩) :=
      Iso.isoFindInDir_nil (by decide) _ _ _
    simp [iso9660Stat, hpvd, hfind] at hstat
  · intro hpvd disc path fuel
    rcases path with _ | path
    · exact ⟨rfl, fun _ _ => rfl⟩
    · rw [iso9660Stat, if_pos hpvd]
      refine ⟨rfl, fun buffer len => ?_⟩
      rw [iso9660Read, if_pos (.inl hpvd)]
      rfl

end Iso9660

/-- After calls of init that failed, the modules are unmounted just if none failed at its check. -/
theorem failed_inits_unmounted_iff {floppies : List FloppyTry} {discs : List DiscTry}
    {bpb : HeapPtr Fat12Bpb} {s s' : IsoState}
    (hfat : FailedInits FloppyTry.init .null floppies bpb) (hnull : s.isoPvd = .null)
    (hiso : FailedInits DiscTry.init s discs s') :
    (Fat12Unmounted bpb ↔ ∀ t ∈ floppies, ¬ t.FailsCheck)
      ∧ (IsoUnmounted s' ↔ ∀ t ∈ discs, ¬ t.FailsCheck) := by
  have hfloppy : ∀ (t : FloppyTry) (p p' : HeapPtr Fat12Bpb), t.init p = some (-1, p') →
      ¬ t.FailsCheck ∧ p' = p ∨ t.FailsCheck ∧ p' = .freed := fun t p p' h =>
    tryInit_failed (Option.some_inj.1 ((t.init_eq p).symm.trans h))
  have hdisc : ∀ (t : DiscTry) (r r' : IsoState), t.init r = some (-1, r') →
      ¬ t.FailsCheck ∧ r' = r ∨ t.FailsCheck ∧ r' = { r with isoPvd := .freed } := fun t r r' h =>
    tryInit_failed (Option.some_inj.1 ((t.init_eq r).symm.trans h))
  constructor
  · rcases failedInits_cases (d := fun _ => .freed) (fun _ => rfl) hfloppy hfat
      with ⟨hall, rfl⟩ | ⟨⟨t, ht, hbad⟩, rfl⟩
    · exact iff_of_true fat12Unmounted_null hall
    · exact iff_of_false not_fat12Unmounted_freed fun h => h t ht hbad
  · rw [isoUnmounted_iff]
    rcases failedInits_cases (d := fun r => { r with isoPvd := .freed }) (fun _ => rfl) hdisc hiso
      with ⟨hall, rfl⟩ | ⟨⟨t, ht, hbad⟩, rfl⟩
    · exact iff_of_true hnull hall
    · exact iff_of_false (by simp) fun h => h t ht hbad

theorem failed_inits_unmounted_unreadable :
    (Fat12Unmounted .null
        ↔ ∀ t ∈ [FloppyTry.mk false ⟨fun _ => 0, fun _ => false⟩,
            FloppyTry.mk true ⟨fun _ => 0, fun _ => true⟩], ¬ t.FailsCheck)
      ∧ (IsoUnmounted ⟨.freed, 0, 0⟩
        ↔ ∀ t ∈ [DiscTry.mk true fun _ => some fun _ => 0, DiscTry.mk true fun _ => none],
            ¬ t.FailsCheck) :=
  failed_inits_unmounted_iff (s := ⟨.null, 0, 0⟩) (.cons rfl (.cons rfl (.nil _))) rfl
    (.cons rfl (.cons rfl (.nil _)))

/-- A floppy and a disc of zeros fail the checks. Then `fat12_stat` looks at freed memory, and
`iso9660_stat` returns 0. -/
theorem failed_init_dangles :
    FloppyTry.init ⟨true, ⟨fun _ => 0, fun _ => false⟩⟩ .null = some (-1, .freed)
      ∧ (fat12Stat .freed (some (ascii "A"))).run (Medium.read ⟨fun _ => 0, fun _ => false⟩)
        = some .usesFreed
      ∧ DiscTry.init ⟨true, fun _ => some fun _ => 0⟩ ⟨.null, 0, 0⟩ = some (-1, ⟨.freed, 0, 0⟩)
      ∧ (iso9660Stat 0 ⟨.freed, 0, 0⟩ (some (ascii "/"))).run
        (Disc.answer fun _ => some fun _ => 0) = some (some (0, true)) := by
  refine ⟨rfl, ?_, rfl, ?_⟩
  · rw [fat12Stat, withRoot, if_neg (by decide), run_pure]
  · have hfind : Iso.isoFindInDir 0 (ascii "/") 0 0 = pure (some ⟨0, 0, true⟩) :=
      Iso.isoFindInDir_nil (by decide) _ _ _
    rw [iso9660Stat, if_neg (by decide), run_bind, hfind]
    rfl

end Mounts

end PeanutKernel
