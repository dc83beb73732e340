import PeanutKernel.ElfLoad
import PeanutKernel.Lib.Halting
import PeanutKernel.Proofs.ExfatLookup
import PeanutKernel.Proofs.ExtfsVisits
import PeanutKernel.Proofs.Fat32Lookup
import Mathlib.Data.FinEnum
import Mathlib.Data.Set.Finite.List

/-!
# Interpreters of interpreters

A script or a program with `PT_INTERP` has its interpreter loaded in its place, and nothing counts
the loads. A path that is passed on has 255 bytes at most, so there are finitely many; the loads
come to an end, whatever memory they find, just when no path comes back and the file system lets
each load return (`interpreter_resolution_iff`).
-/

namespace PeanutKernel

namespace Elf

open Query Relation

variable {vol : PeanutVolume} {m : Medium} {around : Surroundings} {path : List UInt8}

section Mono

theorem fat32FindRoot_mono (v : Fat.Fat32Volume) (m : Medium) (path : List UInt8) :
    FuelMono m.read (Fat.fat32FindRoot · v path) := by
  intro fuel r h
  rw [Fat.fat32FindRoot_run] at h ⊢
  exact Folders.find_mono (Nat.le_succ fuel) _ _ h

theorem exfatFindRoot_mono (v : Exfat.ExfatVolume) (m : Medium) (path : List UInt8) :
    FuelMono m.read (Exfat.exfatFindRoot · v path) := by
  intro fuel r h
  rw [Exfat.exfatFindRoot_run] at h ⊢
  exact Folders.find_mono (Nat.le_succ fuel) _ _ h

theorem loadSize_mono (vol : PeanutVolume) (m : Medium) (name : List UInt8) :
    FuelMono m.read (loadSize · name vol) := by
  rcases vol with v | v | v
  · exact fuelMono_bind (fat32FindRoot_mono v m name) fun _ => fuelMono_const _
  · exact fuelMono_bind (exfatFindRoot_mono v m name) fun _ => fuelMono_const _
  · exact fuelMono_bind (fuelMono_bind (Ext.extfsFindRoot_mono name) fun _ =>
      fuelMono_const _) fun _ => fuelMono_const _

theorem readFile_mono (vol : PeanutVolume) (m : Medium) (name : List UInt8) (size : ℕ) :
    FuelMono m.read (vol.readFile · name size) := by
  rcases vol with v | v | v
  · exact fuelMono_bind (fat32FindRoot_mono v m name) fun _ => fuelMono_const _
  · exact fuelMono_bind (exfatFindRoot_mono v m name) fun _ => fuelMono_const _
  · simp only [PeanutVolume.readFile, Ext.extfsReadFile_eq]
    exact fuelMono_andThen (Ext.openRegular_mono name) (Ext.readOpened_mono size)

theorem loadFile_mono (vol : PeanutVolume) (m : Medium) (around : Surroundings)
    (path : List UInt8) : FuelMono m.read (loadFile vol around path) := by
  refine fuelMono_bind (loadSize_mono vol m _) fun size => ?_
  rcases size with _ | size
  · exact fuelMono_const _
  · dsimp only
    split_ifs
    · exact fuelMono_const _
    · rcases around.elfBuffer with _ | elfBuffer
      · exact fuelMono_const _
      · exact fuelMono_bind (readFile_mono vol m _ _) fun _ => fuelMono_const _

theorem elfLoadAndRunInner_mono (vol : PeanutVolume) (m : Medium) (env : ℕ → Surroundings)
    (path argv0 : List UInt8) (argv1Opt : Option (List UInt8)) :
    FuelMono m.read (elfLoadAndRunInner vol · env path argv0 argv1Opt) := by
  intro fuel
  induction fuel generalizing env path argv0 argv1Opt with
  | zero =>
    intro r h
    cases h
  | succ fuel ih =>
    intro r h
    dsimp only at h ⊢
    rw [elfLoadAndRunInner, run_bind, Option.bind_eq_some_iff] at h ⊢
    obtain ⟨x, hx, h⟩ := h
    refine ⟨x, loadFile_mono vol m _ _ _ _ hx, ?_⟩
    rcases x with _ | ⟨interp, argv1⟩ | entryPoint
    · exact h
    · exact ih _ _ _ _ _ h
    · exact h

end Mono

section Names

/-- A load of the first path, with some memory around it, calls for the second. -/
def Names (vol : PeanutVolume) (m : Medium) (path interp : List UInt8) : Prop :=
  ∃ around argv1, Yields m.read (loadFile vol around path) (.interpreter interp argv1)

theorem length_fatPathFromFs (path : List UInt8) (outSz : ℕ) :
    (fatPathFromFs path outSz).length ≤ outSz - 1 := by
  rw [fatPathFromFs, List.length_map]
  exact List.length_take_le _ _

theorem length_passedOn (h : path.length ≤ 255) : (passedOn path vol).length ≤ 255 := by
  have hfat := length_fatPathFromFs path 144
  rcases vol with v | v | v
  · exact hfat.trans (by decide)
  · exact hfat.trans (by decide)
  · exact h

theorem length_readString (mem : Buf) :
    ∀ n s, ((readString n s).value mem).length ≤ n
  | 0, _ => le_rfl
  | n + 1, s => by
    rw [readString, MemM.value_bind]
    split_ifs
    · exact Nat.zero_le _
    · rw [MemM.value_bind]
      exact Nat.succ_le_succ (length_readString _ n (s + 1))

variable {interp : List UInt8}

theorem length_parseShebangLine {file arg : List UInt8}
    (h : parseShebangLine file 128 128 = some (interp, arg)) : interp.length ≤ 255 := by
  unfold parseShebangLine at h
  split at h
  · dsimp only at h
    split_ifs at h with hlong
    rw [Option.some_inj, Prod.mk.injEq] at h
    rw [← h.1]
    exact (List.takeWhile_sublist _).length_le.trans (by omega)
  · cases h

theorem length_loadImage {mem : Buf} {elfBuffer : ℕ}
    (h : (loadImage elfBuffer).value mem = .interpreter interp) : interp.length ≤ 255 := by
  rw [loadImage, MemM.value_bind] at h
  split_ifs at h
  · cases h
  · simp only [MemM.value_bind, loadRest] at h
    split_ifs at h
    · rw [MemM.value_bind] at h
      rw [← Image.interpreter.inj h]
      exact length_readString _ _ _
    · rw [MemM.value_bind, MemM.value_bind] at h
      cases h

theorem length_afterRead {mem : Buf} {elfBuffer : ℕ} {file argv1 : List UInt8}
    (h : afterRead vol mem elfBuffer path file = .interpreter interp argv1) :
    interp.length ≤ 255 := by
  unfold afterRead at h
  split_ifs at h
  · split at h
    · cases h
    · rename_i hparse
      rw [← (Loaded.interpreter.inj h).1]
      exact length_passedOn (length_parseShebangLine hparse)
  · split at h
    · cases h
    · rename_i himage
      rw [← (Loaded.interpreter.inj h).1]
      exact length_passedOn (length_loadImage himage)
    · cases h

theorem Names.length_le (h : Names vol m path interp) : interp.length ≤ 255 := by
  obtain ⟨around, argv1, fuel, h⟩ := h
  rw [loadFile, run_bind, Option.bind_eq_some_iff] at h
  obtain ⟨size, -, h⟩ := h
  rcases size with _ | size
  · cases h
  · dsimp only at h
    split_ifs at h
    · cases h
    · rcases hbuf : around.elfBuffer with _ | elfBuffer
      · rw [hbuf] at h
        cases h
      · simp only [hbuf] at h
        rw [run_bind, Option.bind_eq_some_iff] at h
        obtain ⟨file, -, h⟩ := h
        rcases file with _ | file
        · cases h
        · dsimp only at h
          split_ifs at h
          · cases h
          · exact length_afterRead (Option.some_inj.1 h)

theorem finite_named (vol : PeanutVolume) (m : Medium) (path : List UInt8) :
    {p | ReflTransGen (Names vol m) path p}.Finite := by
  refine ((List.finite_length_le UInt8 255).insert path).subset fun p hp => ?_
  rcases ReflTransGen.cases_tail hp with h | ⟨q, -, hq⟩
  · exact Or.inl h
  · exact Or.inr hq.length_le

end Names

section Resolution

variable {argv0 : List UInt8} {argv1Opt : Option (List UInt8)} {env : ℕ → Surroundings}

/-- The loads of a path come to an end if the first does and those of the interpreter do. -/
theorem finishes_elfLoad_iff :
    Finishes m.read (elfLoadAndRunInner vol · env path argv0 argv1Opt)
      ↔ Finishes m.read (loadFile vol (env 0) path) ∧ ∀ interp argv1,
        Yields m.read (loadFile vol (env 0) path) (.interpreter interp argv1) →
        Finishes m.read (elfLoadAndRunInner vol · (fun k => env (k + 1)) interp interp
          (some argv1)) := by
  constructor
  · rintro ⟨r, fuel, h⟩
    rcases fuel with _ | fuel
    · cases h
    · dsimp only at h
      rw [elfLoadAndRunInner, run_bind, Option.bind_eq_some_iff] at h
      obtain ⟨x, hx, h⟩ := h
      refine ⟨⟨x, fuel, hx⟩, fun interp argv1 hy => ?_⟩
      obtain rfl := Yields.unique (loadFile_mono vol m _ _) ⟨fuel, hx⟩ hy
      exact ⟨r, fuel, h⟩
  · rintro ⟨⟨x, hx⟩, hall⟩
    rcases x with _ | ⟨interp, argv1⟩ | entryPoint
    · obtain ⟨fuel, hx⟩ := hx
      refine ⟨none, fuel + 1, ?_⟩
      dsimp only
      rw [elfLoadAndRunInner, run_bind, hx]
      rfl
    · obtain ⟨r, fuel', hr⟩ := hall interp argv1 hx
      obtain ⟨fuel, hx⟩ := hx
      refine ⟨r, max fuel fuel' + 1, ?_⟩
      dsimp only
      rw [elfLoadAndRunInner, run_bind,
        (loadFile_mono vol m _ _).le (Nat.le_max_left fuel fuel') hx]
      exact (elfLoadAndRunInner_mono vol m _ _ _ _).le (Nat.le_max_right fuel fuel') hr
    · obtain ⟨fuel, hx⟩ := hx
      refine ⟨some ⟨entryPoint, argv0, argv1Opt⟩, fuel + 1, ?_⟩
      dsimp only
      rw [elfLoadAndRunInner, run_bind, hx]
      rfl

/-- However the memory around the loads looks, they come to an end. -/
def Resolves (vol : PeanutVolume) (m : Medium) (path argv0 : List UInt8)
    (argv1Opt : Option (List UInt8)) : Prop :=
  ∀ env : ℕ → Surroundings, Finishes m.read (elfLoadAndRunInner vol · env path argv0 argv1Opt)

section

variable (h : Resolves vol m path argv0 argv1Opt)

include h

theorem Resolves.load (around : Surroundings) : Finishes m.read (loadFile vol around path) :=
  (finishes_elfLoad_iff.1 (h fun _ => around)).1

theorem Resolves.next {interp : List UInt8} (hnames : Names vol m path interp) :
    ∃ argv1, Resolves vol m interp interp (some argv1) := by
  obtain ⟨around, argv1, hyields⟩ := hnames
  refine ⟨argv1, fun env => ?_⟩
  -- the load finds `around`, those after it what `env` holds
  exact (finishes_elfLoad_iff.1 (h fun k => k.casesOn around env)).2 interp argv1 hyields

theorem Resolves.reaches {p : List UInt8} (hp : ReflTransGen (Names vol m) path p) :
    ∃ argv0 argv1Opt, Resolves vol m p argv0 argv1Opt := by
  induction hp with
  | refl => exact ⟨argv0, argv1Opt, h⟩
  | tail _ hnames ih =>
    obtain ⟨argv0, argv1Opt, h⟩ := ih
    obtain ⟨argv1, h⟩ := h.next hnames
    exact ⟨_, _, h⟩

end

/-- Loads that name one path after the other for ever never return. -/
theorem elfLoad_endless (s arg : ℕ → List UInt8)
    (h : ∀ n, Yields m.read (loadFile vol (env n) (s n)) (.interpreter (s (n + 1)) (arg n)))
    (fuel : ℕ) :
    ∀ n argv0 argv1Opt, (elfLoadAndRunInner vol fuel (fun k => env (n + k)) (s n) argv0
      argv1Opt).run m.read = none := by
  induction fuel with
  | zero => exact fun _ _ _ => rfl
  | succ fuel ih =>
    intro n argv0 argv1Opt
    rw [elfLoadAndRunInner, run_bind]
    rcases hx : (loadFile vol (env (n + 0)) (s n) fuel).run m.read with _ | x
    · rfl
    · obtain rfl := Yields.unique (loadFile_mono vol m _ _) ⟨fuel, hx⟩ (h n)
      have hnext := ih (n + 1) (s (n + 1)) (some (arg n))
      simp only [Nat.add_right_comm n 1] at hnext
      exact hnext

theorem Resolves.acc (h : Resolves vol m path argv0 argv1Opt) :
    Acc (fun c b => Names vol m b c) path := by
  refine acc_iff_isEmpty_descending_chain.2 ⟨fun ⟨s, hs, hstep⟩ => ?_⟩
  choose env arg hload using hstep
  obtain ⟨r, fuel, hrun⟩ := h env
  have := elfLoad_endless s arg hload fuel 0 argv0 argv1Opt
  simp only [Nat.zero_add, hs] at this
  rw [hrun] at this
  cases this

theorem resolves_of_acc (hacc : Acc (fun c b => Names vol m b c) path)
    (hload : ∀ p, ReflTransGen (Names vol m) path p → ∀ around,
      Finishes m.read (loadFile vol around p)) :
    ∀ argv0 argv1Opt, Resolves vol m path argv0 argv1Opt := by
  induction hacc with
  | intro path _ ih =>
    intro argv0 argv1Opt env
    refine finishes_elfLoad_iff.2 ⟨hload path .refl _, fun interp argv1 hyields => ?_⟩
    have hnames : Names vol m path interp := ⟨_, _, hyields⟩
    exact ih interp hnames (fun p hp => hload p (.head hnames hp)) _ _ _

/-- The loads of a path come to an end, whatever memory they find, just when no path the loads come
to comes back and the load of each returns. -/
theorem interpreter_resolution_iff (vol : PeanutVolume) (m : Medium) (path argv0 : List UInt8)
    (argv1Opt : Option (List UInt8)) :
    Resolves vol m path argv0 argv1Opt
      ↔ (∀ p, ReflTransGen (Names vol m) path p → ¬ TransGen (Names vol m) p p) ∧
        ∀ p, ReflTransGen (Names vol m) path p → ∀ around,
          Finishes m.read (loadFile vol around p) := by
  rw [← acc_iff_forall_not_transGen (finite_named vol m path)]
  constructor
  · intro h
    refine ⟨h.acc, fun p hp around => ?_⟩
    obtain ⟨argv0, argv1Opt, h⟩ := h.reaches hp
    exact h.load around
  · rintro ⟨hacc, hload⟩
    exact resolves_of_acc hacc hload argv0 argv1Opt

end Resolution

section Sample

/-- A FAT12 volume with one file, the script `A`, whose line is `#!A`. -/
def scriptMedium : Medium := sparseMedium
  (Fat.sampleFat ++ (1024, 65) :: ((List.range 10).map fun i => (1025 + i, 32)) ++
    [(1024 + 11, 0x20), (1024 + 26, 2), (1024 + 28, 3), (1536, 35), (1537, 33), (1538, 65)])

theorem scriptMedium_load {around : Surroundings} (h : around.elfBuffer.isSome) :
    Yields scriptMedium.read (loadFile (.fat32 Fat.sampleVolume) around [65])
      (.interpreter [65] [65]) := by
  have hsize : (loadSize 0 [65] (.fat32 Fat.sampleVolume)).run scriptMedium.read
      = some (some 3) := by
    decide +kernel
  have hread : (PeanutVolume.readFile 0 [65] 3 (.fat32 Fat.sampleVolume)).run scriptMedium.read
      = some (some [35, 33, 65]) := by
    decide +kernel
  have hname : loadName [65] (.fat32 Fat.sampleVolume) = [65] := by decide
  obtain ⟨elfBuffer, hbuf⟩ := Option.isSome_iff_exists.1 h
  refine ⟨0, ?_⟩
  rw [loadFile, hname, run_bind, hsize]
  simp only [Option.bind_some, hbuf]
  rw [if_neg (by decide), run_bind, hread]
  rfl

/-- The script that names itself is loaded again and again, as long as there is memory for it. -/
theorem script_never_resolves :
    (Fat.fat32Mount Fat.samplePartition).run scriptMedium.read = some (some Fat.sampleVolume) ∧
    ∀ env : ℕ → Surroundings, (∀ n, (env n).elfBuffer.isSome) → ∀ fuel,
      (elfLoadAndRunInner (.fat32 Fat.sampleVolume) fuel env [65] [65] none).run
        scriptMedium.read = none := by
  refine ⟨by decide +kernel, fun env henv fuel => ?_⟩
  have h := elfLoad_endless (fun _ => [65]) (fun _ => [65])
    (fun n => scriptMedium_load (henv n)) fuel 0 [65] none
  simpa only [Nat.zero_add] using h

end Sample

end Elf

end PeanutKernel
