import PeanutKernel.Proofs.Fat32

/-!
# Decoding the entries of a table

A table of cluster values as it lies on a disk: entries of 12 bits two in three bytes, of 16 and 32
bits low byte first, the highest four bits of a 32 bit entry free. `next_cluster` finds the bytes of
an entry with 32 bit arithmetic. Where that does not wrap it returns the value of the entry, with
the marks for the end of a chain of all widths brought to the one of FAT32.
-/

namespace PeanutKernel

namespace Fat

section Packing

variable (ty : FatType)

def valueBits : ℕ :=
  match ty with
  | .fat12 => 12
  | .fat16 => 16
  | .fat32 => 28

/-- From this value on an entry ends its chain. -/
def endMark : ℕ :=
  match ty with
  | .fat12 => fat12Eoc
  | .fat16 => fat16Eoc
  | .fat32 => fat32Eoc

/-- The first byte of the table that holds a part of entry `n`. -/
def entryFirst (n : ℕ) : ℕ :=
  match ty with
  | .fat12 => n + n / 2
  | .fat16 => 2 * n
  | .fat32 => 4 * n

/-- The last one. -/
def entryLast (n : ℕ) : ℕ :=
  match ty with
  | .fat12 => n + n / 2 + 1
  | .fat16 => 2 * n + 1
  | .fat32 => 4 * n + 3

/-- Byte `k` of the table with the values `t`; `top` are the highest bits of 32 bit entries. -/
def tableByte (t top : ℕ → ℕ) (k : ℕ) : ℕ :=
  match ty with
  | .fat12 =>
    let even := t (2 * (k / 3))
    let odd := t (2 * (k / 3) + 1)
    if k % 3 = 0 then even % 2 ^ 8
    else if k % 3 = 1 then even / 2 ^ 8 + 2 ^ 4 * (odd % 2 ^ 4)
    else odd / 2 ^ 4
  | .fat16 => t (k / 2) / 2 ^ (8 * (k % 2)) % 2 ^ 8
  | .fat32 => (t (k / 4) + 2 ^ 28 * top (k / 4)) / 2 ^ (8 * (k % 4)) % 2 ^ 8

/-- The table lies on `sectors` sectors from `start` on, and all of them can be read. -/
structure TableOn (t top : ℕ → ℕ) (m : Medium) (start sectors : ℕ) : Prop where
  value : ∀ n, t n < 2 ^ valueBits ty
  good : ∀ i < sectors, m.bad (start + i) = false
  byte : ∀ k < 512 * sectors, (m.byte (512 * start + k)).toNat = tableByte ty t top k

end Packing

/-- What `next_cluster` should return for entry `n`: the value, or for a mark any mark of FAT32. -/
def Decodes (v : Fat32Volume) (m : Medium) (t : ℕ → ℕ) (n : ℕ) : Prop :=
  ∃ r, (nextCluster v n).run m.read = some r ∧ (fat32Eoc ≤ r ↔ endMark v.fatType ≤ t n) ∧
    (t n < endMark v.fatType → r = t n)

variable {ty : FatType} {t top : ℕ → ℕ} {m : Medium} {start sectors n : ℕ} {v : Fat32Volume}

section Bytes

theorem TableOn.read (h : TableOn ty t top m start sectors) {s : ℕ} (hs : s < sectors) :
    ∃ buf, (blockRead (start + s) 1).run m.read = some (some buf) ∧
      ∀ i < 512, (buf i).toNat = tableByte ty t top (512 * s + i) := by
  refine ⟨_, blockRead_run Nat.one_ne_zero ?_, fun i hi => ?_⟩
  · intro s' hs'
    obtain rfl : s' = start + s := by
      simp only [mem_sectors] at hs'
      omega
    exact h.good s hs
  · rw [if_pos (by omega), ← h.byte (512 * s + i) (by omega)]
    congr 2
    omega

/-- The sector with byte `k` of the table, and what follows in it. -/
theorem TableOn.read_at (h : TableOn ty t top m start sectors) {k : ℕ} (hk : k / 512 < sectors) :
    ∃ buf, (blockRead (start + k / 512) 1).run m.read = some (some buf) ∧
      ∀ j, k % 512 + j < 512 → (buf (k % 512 + j)).toNat = tableByte ty t top (k + j) := by
  obtain ⟨buf, hbuf, hbyte⟩ := h.read hk
  refine ⟨buf, hbuf, fun j hj => ?_⟩
  rw [hbyte (k % 512 + j) hj, ← Nat.add_assoc, Nat.div_add_mod]

/-- The two bytes of a 12 bit entry, the parity of `n` telling which half is shared. -/
theorem tableByte_fat12 (top : ℕ → ℕ) (hval : ∀ n, t n < 2 ^ 12) (n : ℕ) :
    (if n % 2 = 1 then
      (tableByte .fat12 t top (n + n / 2) + 2 ^ 8 * tableByte .fat12 t top (n + n / 2 + 1)) / 2 ^ 4
    else (tableByte .fat12 t top (n + n / 2)
      + 2 ^ 8 * tableByte .fat12 t top (n + n / 2 + 1)) % 2 ^ 12) = t n := by
  obtain ⟨p, rfl | rfl⟩ : ∃ p, n = 2 * p ∨ n = 2 * p + 1 := ⟨n / 2, by omega⟩
  · have hfirst : 2 * p + 2 * p / 2 = 3 * p := by omega
    have hval := hval (2 * p)
    simp only [tableByte, hfirst, show 3 * p / 3 = p by omega, show 3 * p % 3 = 0 by omega,
      show (3 * p + 1) / 3 = p by omega, show (3 * p + 1) % 3 = 1 by omega,
      show ¬ 2 * p % 2 = 1 by omega, if_false, if_true, one_ne_zero]
    omega
  · have hfirst : 2 * p + 1 + (2 * p + 1) / 2 = 3 * p + 1 := by omega
    have heven := hval (2 * p)
    simp only [tableByte, hfirst, show (3 * p + 1) / 3 = p by omega,
      show (3 * p + 1) % 3 = 1 by omega, show (3 * p + 1 + 1) / 3 = p by omega,
      show (3 * p + 1 + 1) % 3 = 2 by omega, show (2 * p + 1) % 2 = 1 by omega, if_false, if_true,
      one_ne_zero, show (2 : ℕ) ≠ 0 by decide, show (2 : ℕ) ≠ 1 by decide]
    omega

theorem tableByte_fat16 (top : ℕ → ℕ) (hval : t n < 2 ^ 16) :
    tableByte .fat16 t top (2 * n) + 2 ^ 8 * tableByte .fat16 t top (2 * n + 1) = t n := by
  simp only [tableByte, show 2 * n / 2 = n by omega, show 2 * n % 2 = 0 by omega,
    show (2 * n + 1) / 2 = n by omega, show (2 * n + 1) % 2 = 1 by omega, Nat.mul_zero, Nat.mul_one,
    Nat.pow_zero, Nat.div_one]
  omega

theorem tableByte_fat32 (top : ℕ → ℕ) (hval : t n < 2 ^ 28) :
    (tableByte .fat32 t top (4 * n) + 2 ^ 8 * tableByte .fat32 t top (4 * n + 1)
      + 2 ^ 16 * tableByte .fat32 t top (4 * n + 2)
      + 2 ^ 24 * tableByte .fat32 t top (4 * n + 3)) % 2 ^ 28 = t n := by
  simp only [tableByte, show 4 * n / 4 = n by omega, show 4 * n % 4 = 0 by omega,
    show (4 * n + 1) / 4 = n by omega, show (4 * n + 1) % 4 = 1 by omega,
    show (4 * n + 2) / 4 = n by omega, show (4 * n + 2) % 4 = 2 by omega,
    show (4 * n + 3) / 4 = n by omega, show (4 * n + 3) % 4 = 3 by omega, Nat.mul_zero, Nat.mul_one,
    Nat.pow_zero, Nat.div_one]
  omega

end Bytes

section Decoding

theorem fatOffset_eq (h : entryFirst v.fatType n < 2 ^ 32) :
    fatOffset v n = entryFirst v.fatType n := by
  unfold fatOffset
  unfold entryFirst at h ⊢
  cases hty : v.fatType <;> simp only [hty] at h ⊢ <;> omega

theorem nextCluster_fat12 (hty : v.fatType = .fat12)
    (h : TableOn .fat12 t top m v.fatStartLba sectors) (hn : entryLast .fat12 n < 512 * sectors)
    (hoff : entryFirst .fat12 n < 2 ^ 32)
    (hlba : v.fatStartLba + entryLast .fat12 n / 512 < 2 ^ 32) :
    (nextCluster v n).run m.read = some (if fat12Eoc ≤ t n then fat32Eoc else t n) := by
  have ho := fatOffset_eq (hty ▸ hoff)
  simp only [hty, entryFirst, entryLast] at ho hn hlba
  have hvalue := tableByte_fat12 top h.value n
  obtain ⟨sector, hsector, hbyte⟩ := h.read_at (k := n + n / 2) (by omega)
  have hfirst : (sector ((n + n / 2) % 512)).toNat = tableByte .fat12 t top (n + n / 2) :=
    hbyte 0 (by omega)
  simp only [nextCluster, hty, ho, Query.run_bind]
  rw [Nat.mod_eq_of_lt (by omega), hsector]
  by_cases hlast : (n + n / 2) % 512 = 511
  · obtain ⟨next, hnext, hbyte'⟩ := h.read (s := (n + n / 2) / 512 + 1) (by omega)
    have hsecond := hbyte' 0 (by omega)
    rw [show 512 * ((n + n / 2) / 512 + 1) + 0 = n + n / 2 + 1 by omega] at hsecond
    rw [Option.bind_some]
    simp only [if_pos hlast, Query.run_bind]
    rw [Nat.mod_eq_of_lt (by omega), Nat.add_assoc v.fatStartLba, hnext, Option.bind_some]
    simp only [Query.run_pure, fat12Value, hfirst, hsecond, hvalue]
  · rw [Option.bind_some]
    simp only [if_neg hlast, Query.run_pure, fat12Value, le16, hfirst, hbyte 1 (by omega), hvalue]

theorem nextCluster_fat16 (hty : v.fatType = .fat16)
    (h : TableOn .fat16 t top m v.fatStartLba sectors) (hn : entryLast .fat16 n < 512 * sectors)
    (hoff : entryFirst .fat16 n < 2 ^ 32)
    (hlba : v.fatStartLba + entryLast .fat16 n / 512 < 2 ^ 32) :
    (nextCluster v n).run m.read = some (if fat16Eoc ≤ t n then fat32Eoc else t n) := by
  have ho := fatOffset_eq (hty ▸ hoff)
  simp only [hty, entryFirst, entryLast] at ho hn hlba
  have hvalue := tableByte_fat16 top (h.value n)
  obtain ⟨sector, hsector, hbyte⟩ := h.read_at (k := 2 * n) (by omega)
  have hfirst : (sector (2 * n % 512)).toNat = tableByte .fat16 t top (2 * n) := hbyte 0 (by omega)
  simp only [nextCluster, hty, ho, Query.run_bind]
  rw [Nat.mod_eq_of_lt (by omega), hsector, Option.bind_some]
  simp only [Query.run_pure, le16, hfirst, hbyte 1 (by omega), hvalue]

theorem nextCluster_fat32 (hty : v.fatType = .fat32)
    (h : TableOn .fat32 t top m v.fatStartLba sectors) (hn : entryLast .fat32 n < 512 * sectors)
    (hoff : entryFirst .fat32 n < 2 ^ 32)
    (hlba : v.fatStartLba + entryLast .fat32 n / 512 < 2 ^ 32) :
    (nextCluster v n).run m.read = some (t n) := by
  have ho := fatOffset_eq (hty ▸ hoff)
  simp only [hty, entryFirst, entryLast] at ho hn hlba
  have hvalue := tableByte_fat32 top (h.value n)
  obtain ⟨sector, hsector, hbyte⟩ := h.read_at (k := 4 * n) (by omega)
  have hfirst : (sector (4 * n % 512)).toNat = tableByte .fat32 t top (4 * n) := hbyte 0 (by omega)
  simp only [nextCluster, hty, ho, Query.run_bind]
  rw [Nat.mod_eq_of_lt (by omega), hsector, Option.bind_some]
  simp only [Query.run_pure, le32, hfirst, hbyte 1 (by omega), hbyte 2 (by omega),
    hbyte 3 (by omega), hvalue]

theorem mark_iff {mark value : ℕ} (h : mark ≤ fat32Eoc) :
    (fat32Eoc ≤ (if mark ≤ value then fat32Eoc else value) ↔ mark ≤ value) ∧
      (value < mark → (if mark ≤ value then fat32Eoc else value) = value) := by
  split_ifs with hm
  · exact ⟨⟨fun _ => hm, fun _ => le_rfl⟩, fun hlt => absurd hm (by omega)⟩
  · exact ⟨⟨fun hle => absurd (h.trans hle) hm, fun hle => absurd hle hm⟩, fun _ => rfl⟩

/-- A volume with its table from sector 32 on. -/
def bareVolume (ty : FatType) : Fat32Volume where
  partition := ⟨0x0B, 0, 2 ^ 31⟩
  fatType := ty
  fatStartLba := 32
  dataStartLba := 2 ^ 30
  rootDirLba := 2 ^ 30
  rootDirSectors := 0
  rootCluster := 2
  sectorsPerFat := 2 ^ 23 + 1
  sectorsPerCluster := 8
  rootEntryCount := 0

/-- A medium with nothing but the table of that volume. -/
def tableMedium (ty : FatType) (t : ℕ → ℕ) : Medium where
  byte a := UInt8.ofNat (tableByte ty t (fun _ => 0) (a - 512 * 32))
  bad _ := false

theorem tableByte_lt (h : ∀ n, t n < 2 ^ valueBits ty) (k : ℕ) :
    tableByte ty t top k < 2 ^ 8 := by
  unfold tableByte
  cases ty with
  | fat12 =>
    have heven : t (2 * (k / 3)) < 2 ^ 12 := h _
    have hodd : t (2 * (k / 3) + 1) < 2 ^ 12 := h _
    dsimp only
    split_ifs <;> omega
  | fat16 => exact Nat.mod_lt _ (by decide)
  | fat32 => exact Nat.mod_lt _ (by decide)

theorem tableOn_tableMedium (h : ∀ n, t n < 2 ^ valueBits ty) (sectors : ℕ) :
    TableOn ty t (fun _ => 0) (tableMedium ty t) 32 sectors := by
  refine ⟨h, fun _ _ => rfl, fun k _ => ?_⟩
  simp only [tableMedium, Nat.add_sub_cancel_left]
  exact UInt8.toNat_ofNat_of_lt' (tableByte_lt h k)

/-- Every entry that starts below byte `2 ^ 32` of the table and lies in sectors with numbers below
`2 ^ 32` is decoded. -/
theorem nextCluster_decodes (v : Fat32Volume) (t top : ℕ → ℕ) (m : Medium) (sectors n : ℕ)
    (h : TableOn v.fatType t top m v.fatStartLba sectors)
    (hn : entryLast v.fatType n < 512 * sectors) (hoff : entryFirst v.fatType n < 2 ^ 32)
    (hlba : v.fatStartLba + entryLast v.fatType n / 512 < 2 ^ 32) : Decodes v m t n := by
  unfold Decodes
  cases hty : v.fatType with
  | fat12 =>
    rw [hty] at h hn hoff hlba
    exact ⟨_, nextCluster_fat12 hty h hn hoff hlba, mark_iff (by decide)⟩
  | fat16 =>
    rw [hty] at h hn hoff hlba
    exact ⟨_, nextCluster_fat16 hty h hn hoff hlba, mark_iff (by decide)⟩
  | fat32 =>
    rw [hty] at h hn hoff hlba
    exact ⟨_, nextCluster_fat32 hty h hn hoff hlba, Iff.rfl, fun _ => rfl⟩

/-- An entry of 12 bits that lies in two sectors. -/
theorem nextCluster_decodes_straddling :
    entryFirst .fat12 341 % 512 = 511 ∧
      Decodes (bareVolume .fat12) (tableMedium .fat12 fun _ => 0xABC) (fun _ => 0xABC) 341 :=
  ⟨by decide, nextCluster_decodes (bareVolume .fat12) (fun _ => 0xABC) (fun _ => 0)
    (tableMedium .fat12 fun _ => 0xABC) 2 341 (tableOn_tableMedium (fun _ => by decide) 2)
    (by decide) (by decide) (by decide)⟩

/-- Entry `2 ^ 30` of a table of 32 bit entries starts at byte `2 ^ 32`, and entry `0` is read for
it. -/
theorem nextCluster_wraps :
    ∃ t : ℕ → ℕ, TableOn .fat32 t (fun _ => 0) (tableMedium .fat32 t) 32 (2 ^ 23 + 1) ∧
      entryLast .fat32 (2 ^ 30) < 512 * (2 ^ 23 + 1) ∧
      ¬ Decodes (bareVolume .fat32) (tableMedium .fat32 t) t (2 ^ 30) := by
  have hval : ∀ n, (if n = 2 ^ 30 then 5 else 7) < 2 ^ valueBits .fat32 := by
    intro n
    split_ifs <;> decide
  have htable := tableOn_tableMedium hval (2 ^ 23 + 1)
  refine ⟨fun n => if n = 2 ^ 30 then 5 else 7, htable, by decide, ?_⟩
  rintro ⟨r, hr, -, hvalue⟩
  have hoff : fatOffset (bareVolume .fat32) (2 ^ 30) = fatOffset (bareVolume .fat32) 0 := by decide
  have hzero := nextCluster_fat32 (v := bareVolume .fat32) (n := 0) rfl htable (by decide)
    (by decide) (by decide)
  have hsame : nextCluster (bareVolume .fat32) (2 ^ 30) = nextCluster (bareVolume .fat32) 0 := by
    simp only [nextCluster, hoff]
    rfl
  rw [hsame, hzero, Option.some_inj] at hr
  have hseven : r = 7 := hr.symm
  have hfive : r = 5 := hvalue (by decide)
  omega

end Decoding

end Fat

end PeanutKernel
