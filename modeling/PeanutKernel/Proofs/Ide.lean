import PeanutKernel.Ide

/-!
# Which sectors an IDE transfer moves

For each sector of a call the driver writes 28 bits of its number to the drive, so a call that
completes moves the sectors `lba`, `lba + 1`, … modulo `2 ^ 28`. It moves what it was asked to
exactly if it does not reach past the last sector a drive can have.
-/

namespace PeanutKernel

namespace Ide

variable {d d' : Drive} {slave command : UInt8} {lba currentLba sector : ℕ}

section Commands

variable {wantDrq : Bool}

theorem waitLoop_keeps (wantDrq : Bool) : ∀ (n : ℕ) (d : Drive), ∃ polls,
    (waitLoop wantDrq n d).2 = { d with polls := polls }
  | 0, d => ⟨d.polls, rfl⟩
  | n + 1, d => by
    rw [waitLoop]
    split_ifs
    · exact ⟨d.polls + 1, rfl⟩
    · exact ⟨d.polls + 1, rfl⟩
    · exact waitLoop_keeps wantDrq n _

theorem devSel_mod (slave : UInt8) (n : ℕ) :
    ((0xE0 : UInt8) ||| slave <<< 4 ||| .ofNat (n % 2 ^ 4)).toNat % 2 ^ 4 = n % 2 ^ 4 := by
  have hslave : (slave <<< 4).toNat % 2 ^ 4 = 0 := by
    rw [UInt8.toNat_shiftLeft, Nat.shiftLeft_eq]
    simp only [UInt8.reduceToNat, Nat.reduceMod, Nat.reducePow]
    omega
  rw [UInt8.toNat_or, UInt8.toNat_or, Nat.or_mod_two_pow, Nat.or_mod_two_pow, hslave,
    UInt8.toNat_ofNat']
  simp only [UInt8.reduceToNat, Nat.reducePow, Nat.reduceMod, Nat.zero_or]
  omega

/-- The registers of a command address the low 28 bits of the sector number. -/
theorem transfer_issue (slave : UInt8) (currentLba : ℕ) (command : UInt8) (d : Drive) :
    (issue slave currentLba command d).transfer = ⟨command, currentLba % 2 ^ 28, 1⟩ := by
  have hsel := devSel_mod slave (currentLba / 2 ^ 24)
  simp only [issue, Drive.outb, reduceCtorEq, if_false, if_true, Drive.start, Drive.addressed,
    Transfer.mk.injEq, true_and]
  refine ⟨?_, rfl⟩
  simp only [Function.update, reduceCtorEq, dite_false, dite_true, hsel, UInt8.toNat_ofNat']
  omega

theorem ideWait_keeps {ok : Bool} (h : ideWait wantDrq d = (ok, d')) :
    d'.transfer = d.transfer ∧ d'.sectors = d.sectors ∧ d'.log = d.log := by
  obtain ⟨polls, hpolls⟩ := waitLoop_keeps wantDrq 100000 d
  obtain rfl : d' = { d with polls := polls } := (congrArg Prod.snd h).symm.trans hpolls
  exact ⟨rfl, rfl, rfl⟩

/-- A command for sector `n` that the drive has accepted, with no data moved yet. -/
theorem prepare_eq {n : ℕ} (h : prepare slave (n % 2 ^ 32) command d = (true, d')) :
    d'.transfer = ⟨command, n % 2 ^ 28, 1⟩ ∧ d'.sectors = d.sectors ∧ d'.log = d.log := by
  have hmod : n % 2 ^ 32 % 2 ^ 28 = n % 2 ^ 28 := Nat.mod_mod_of_dvd _ (by decide)
  unfold prepare at h
  split at h
  · simp at h
  · rename_i d₁ hwait
    obtain ⟨-, hsectors₁, hlog₁⟩ := ideWait_keeps hwait
    obtain ⟨htransfer, hsectors, hlog⟩ := ideWait_keeps h
    refine ⟨?_, hsectors.trans hsectors₁, hlog.trans hlog₁⟩
    rw [htransfer, transfer_issue, hmod]

end Commands

section Loops

variable {input : Buf} {a : ℕ}

theorem outsw_eq (h : d.transfer = ⟨cmdWriteSectors, a, 1⟩) (data : Sector) :
    (d.outsw data).log = d.log ++ [.write a data] ∧
      (d.outsw data).sectors = Function.update d.sectors a data := by
  unfold Drive.outsw
  rw [h, if_pos ⟨rfl, Nat.one_pos⟩]
  exact ⟨rfl, rfl⟩

theorem insw_eq (h : d.transfer = ⟨cmdReadSectors, a, 1⟩) : ∃ transfer, d.insw =
    (some (d.sectors a),
      { d with transfer := transfer, log := d.log ++ [.read a (d.sectors a)] }) := by
  unfold Drive.insw
  rw [h, if_pos ⟨rfl, Nat.one_pos⟩]
  exact ⟨_, rfl⟩

/-- What the rounds of `ide_write` from `sector` on move, and where. -/
def writes (lba : ℕ) (input : Buf) (n sector : ℕ) : List (ℕ × Sector) :=
  (List.range n).map fun i => ((lba + (sector + i)) % 2 ^ 28, piece input (sector + i))

theorem writes_succ (lba : ℕ) (input : Buf) (n sector : ℕ) : writes lba input (n + 1) sector =
    ((lba + sector) % 2 ^ 28, piece input sector) :: writes lba input n (sector + 1) := by
  rw [writes, List.range_succ_eq_map, List.map_cons, List.map_map, Nat.add_zero]
  refine congrArg _ (List.map_congr_left fun i _ => ?_)
  simp only [Function.comp_apply]
  rw [Nat.add_right_comm, Nat.add_assoc]

def applyWrites (ws : List (ℕ × Sector)) (sectors : ℕ → Sector) : ℕ → Sector :=
  ws.foldl (fun sectors w => Function.update sectors w.1 w.2) sectors

theorem writeLoop_eq : ∀ (n : ℕ) {sector : ℕ} {d : Drive},
    writeLoop slave lba input n sector d = (true, d') →
    d'.log = d.log ++ (writes lba input n sector).map (fun w => .write w.1 w.2) ∧
      d'.sectors = applyWrites (writes lba input n sector) d.sectors
  | 0, sector, d, h => by
    obtain rfl : d = d' := congrArg Prod.snd h
    exact ⟨(List.append_nil _).symm, rfl⟩
  | n + 1, sector, d, h => by
    rw [writeLoop] at h
    split at h
    · simp at h
    · rename_i d₁ hprepare
      obtain ⟨htransfer, hsectors₁, hlog₁⟩ := prepare_eq hprepare
      obtain ⟨hlog₂, hsectors₂⟩ := outsw_eq htransfer (piece input sector)
      obtain ⟨hlog, hsectors⟩ := writeLoop_eq n h
      rw [writes_succ, hlog, hsectors, hlog₂, hsectors₂, hlog₁, hsectors₁, List.append_assoc]
      exact ⟨rfl, rfl⟩

/-- Writes to sectors that follow each other. -/
theorem applyWrites_range (sectors : ℕ → Sector) (f : ℕ → Sector) (base s : ℕ) : ∀ n,
    applyWrites ((List.range n).map fun i => (base + i, f i)) sectors s =
      if base ≤ s ∧ s < base + n then f (s - base) else sectors s
  | 0 => by
    rw [if_neg (by omega)]
    rfl
  | n + 1 => by
    have ih := applyWrites_range sectors f base s n
    rw [List.range_succ, List.map_append, applyWrites, List.foldl_append, ← applyWrites]
    by_cases hs : s = base + n
    · subst hs
      rw [if_pos (by omega), Nat.add_sub_cancel_left]
      exact Function.update_self _ _ _
    · refine (Function.update_of_ne hs _ _).trans (ih.trans ?_)
      exact if_congr (by omega) rfl rfl

theorem piece_fill (buf : Buf) (data : Sector) (sector i : ℕ) :
    piece (fill buf sector data) i = if i = sector then data else piece buf i := by
  funext j
  have hj := j.isLt
  unfold sectorBytes at hj
  by_cases hi : i = sector
  · subst hi
    rw [if_pos rfl]
    unfold piece fill
    rw [dif_pos ⟨by unfold sectorBytes; omega, Nat.le_add_right _ _⟩]
    exact congrArg data (Fin.ext (Nat.add_sub_cancel_left ..))
  · rw [if_neg hi]
    unfold piece fill
    rw [dif_neg]
    unfold sectorBytes
    omega

theorem readLoop_eq : ∀ (n : ℕ) {sector : ℕ} {out out' : Buf} {d : Drive},
    readLoop slave lba n sector out d = (true, out', d') →
    d'.log = d.log ++ ((List.range n).map fun i =>
        .read ((lba + (sector + i)) % 2 ^ 28) (d.sectors ((lba + (sector + i)) % 2 ^ 28))) ∧
      d'.sectors = d.sectors ∧
      ∀ i, piece out' i = if sector ≤ i ∧ i < sector + n then
        d.sectors ((lba + i) % 2 ^ 28) else piece out i
  | 0, sector, out, out', d, h => by
    rw [readLoop, Prod.mk.injEq, Prod.mk.injEq] at h
    obtain ⟨-, rfl, rfl⟩ := h
    refine ⟨(List.append_nil _).symm, rfl, fun i => ?_⟩
    rw [if_neg (by omega)]
  | n + 1, sector, out, out', d, h => by
    rw [readLoop] at h
    split at h
    · simp at h
    · rename_i d₁ hprepare
      obtain ⟨htransfer, hsectors₁, hlog₁⟩ := prepare_eq hprepare
      obtain ⟨transfer, hinsw⟩ := insw_eq htransfer
      rw [hinsw] at h
      obtain ⟨hlog, hsectors, hpieces⟩ := readLoop_eq n h
      simp only [hsectors₁, hlog₁] at hlog hsectors hpieces
      refine ⟨?_, hsectors, fun i => ?_⟩
      · rw [hlog, List.append_assoc, List.range_succ_eq_map, List.map_cons, List.map_map,
          Nat.add_zero]
        refine congrArg _ (congrArg _ (List.map_congr_left fun i _ => ?_))
        simp only [Function.comp_apply]
        rw [Nat.add_right_comm, Nat.add_assoc]
      · rw [hpieces i, piece_fill]
        by_cases hi : i = sector
        · subst hi
          rw [if_neg (by omega), if_pos rfl, if_pos (by omega)]
        · rw [if_neg hi]
          exact if_congr (by omega) rfl rfl

end Loops

section Exact

variable {count : ℕ} {input out out' : Buf}

theorem ideWrite_eq (h : ideWrite slave lba count input d = (true, d')) : lba < 2 ^ 28 ∧
    d'.log = d.log ++ (writes lba input count 0).map (fun w => .write w.1 w.2) ∧
    d'.sectors = applyWrites (writes lba input count 0) d.sectors := by
  unfold ideWrite at h
  split_ifs at h with hrange
  · simp at h
  split at h
  · simp at h
  · rename_i d₁ hloop
    obtain ⟨hlog, hsectors⟩ := writeLoop_eq count hloop
    obtain ⟨-, hsectors', hlog'⟩ := ideWait_keeps h
    exact ⟨by omega, hlog'.trans hlog, hsectors'.trans hsectors⟩

theorem mod_of_fits {i : ℕ} (hfits : lba + count ≤ 2 ^ 28) (hi : i < count) :
    (lba + (0 + i)) % 2 ^ 28 = lba + i := by
  rw [Nat.zero_add, Nat.mod_eq_of_lt (by omega)]

/-- The sectors after the last one are moved as others. -/
theorem fits_of_mod (hlba : lba < 2 ^ 28)
    (hcount : ∀ i < count, (lba + (0 + i)) % 2 ^ 28 = lba + i) :
    lba + count ≤ 2 ^ 28 := by
  rcases count with _ | count
  · omega
  · have hlast := hcount count (Nat.lt_succ_self _)
    omega

theorem writesExactly_iff (h : ideWrite slave lba count input d = (true, d')) :
    WritesExactly lba count d input d' ↔ lba + count ≤ 2 ^ 28 := by
  obtain ⟨hlba, hlog, hsectors⟩ := ideWrite_eq h
  constructor
  · intro hexact
    refine fits_of_mod hlba fun i hi => ?_
    have hsame := hlog.symm.trans hexact.log
    rw [List.append_cancel_left_eq, writes, List.map_map, List.map_inj_left] at hsame
    exact (Access.write.inj (hsame i (List.mem_range.2 hi))).1
  · intro hfits
    have hwrites : writes lba input count 0 =
        (List.range count).map fun i => (lba + i, piece input i) := by
      refine List.map_congr_left fun i hi => ?_
      rw [mod_of_fits hfits (List.mem_range.1 hi), Nat.zero_add]
    rw [hwrites] at hlog hsectors
    have hafter := applyWrites_range d.sectors (piece input) lba
    refine ⟨?_, fun i hi => ?_, fun s hs => ?_⟩
    · rw [hlog, List.map_map]
      rfl
    · rw [hsectors, hafter, if_pos (by omega), Nat.add_sub_cancel_left]
    · rw [hsectors, hafter, if_neg (by omega)]

theorem readsExactly_iff (h : ideRead slave lba count out d = (true, out', d')) :
    ReadsExactly lba count d out' d' ↔ lba + count ≤ 2 ^ 28 := by
  unfold ideRead at h
  split_ifs at h with hrange
  · simp at h
  obtain ⟨hlog, hsectors, hpieces⟩ := readLoop_eq count h
  constructor
  · intro hexact
    refine fits_of_mod (by omega) fun i hi => ?_
    have hsame := hlog.symm.trans hexact.log
    rw [List.append_cancel_left_eq, List.map_inj_left] at hsame
    exact (Access.read.inj (hsame i (List.mem_range.2 hi))).1
  · intro hfits
    refine ⟨?_, hsectors, fun i hi => ?_⟩
    · rw [hlog]
      refine congrArg _ (List.map_congr_left fun i hi => ?_)
      rw [mod_of_fits hfits (List.mem_range.1 hi)]
    · rw [hpieces i, if_pos (by omega), ← Nat.zero_add i, mod_of_fits hfits hi, Nat.zero_add]

/-- A call that completes moves the sectors it was asked for exactly if they all exist. -/
theorem ide_transfers_iff (slave : UInt8) (lba count : ℕ) (d : Drive) :
    (∀ input d', ideWrite slave lba count input d = (true, d') →
      (WritesExactly lba count d input d' ↔ lba + count ≤ 2 ^ 28)) ∧
    (∀ out out' d', ideRead slave lba count out d = (true, out', d') →
      (ReadsExactly lba count d out' d' ↔ lba + count ≤ 2 ^ 28)) :=
  ⟨fun _ _ h => writesExactly_iff h, fun _ _ _ h => readsExactly_iff h⟩

end Exact

section Sample

/-- A drive that is always ready for data. -/
def readyDrive : Drive where
  sectors _ := fun _ => 0
  registers _ := 0
  transfer := ⟨0, 0, 0⟩
  status _ := 0x58
  polls := 0
  log := []

theorem ide_transfers_iff_sample :
    WritesExactly 7 3 readyDrive (fun _ => 1) (ideWrite 0 7 3 (fun _ => 1) readyDrive).2 ∧
      ReadsExactly 7 3 readyDrive (ideRead 0 7 3 (fun _ => 1) readyDrive).2.1
        (ideRead 0 7 3 (fun _ => 1) readyDrive).2.2 := by
  have hwrite : ∀ {p : Bool × Drive}, p.1 = true → p = (true, p.2) := by
    rintro ⟨_, _⟩ rfl
    rfl
  have hread : ∀ {p : Bool × Buf × Drive}, p.1 = true → p = (true, p.2.1, p.2.2) := by
    rintro ⟨_, _, _⟩ rfl
    rfl
  obtain ⟨hwrites, hreads⟩ := ide_transfers_iff 0 7 3 readyDrive
  exact ⟨(hwrites _ _ (hwrite rfl)).2 (by decide), (hreads _ _ _ (hread rfl)).2 (by decide)⟩

/-- Of two sectors from the last one on, the second one written is sector 0. -/
theorem last_sector_wraps : (ideWrite 0 0x0FFFFFFF 2 (fun _ => 1) readyDrive).1 = true ∧
    ¬ WritesExactly 0x0FFFFFFF 2 readyDrive (fun _ => 1)
      (ideWrite 0 0x0FFFFFFF 2 (fun _ => 1) readyDrive).2 := by
  have hcompletes : (ideWrite 0 0x0FFFFFFF 2 (fun _ => 1) readyDrive).1 = true := rfl
  refine ⟨hcompletes, fun h => ?_⟩
  exact absurd ((writesExactly_iff (Prod.ext hcompletes rfl)).1 h) (by decide)

end Sample

end Ide

end PeanutKernel
