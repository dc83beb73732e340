import PeanutKernel.Block

/-!
# Reading and writing a medium

Two media that agree off a set of sectors answer a program that stays clear of that set in the same
way (`AgreeOff.run`). Writing back the extent just read, with its first bytes replaced, overlays
those bytes and nothing else (`overlaid_blockWrite`).
-/

namespace PeanutKernel

section Fields

variable {b b' : Buf} {a : ℕ}

theorem le16_lt (b : Buf) (off : ℕ) : le16 b off < 2 ^ 16 := by
  have h0 := (b off).toNat_lt
  have h1 := (b (off + 1)).toNat_lt
  unfold le16
  omega

theorem le32_lt (b : Buf) (off : ℕ) : le32 b off < 2 ^ 32 := by
  have h0 := (b off).toNat_lt
  have h1 := (b (off + 1)).toNat_lt
  have h2 := (b (off + 2)).toNat_lt
  have h3 := (b (off + 3)).toNat_lt
  unfold le32
  omega

theorem le32_congr (h : ∀ x, a ≤ x → x < a + 4 → b' x = b x) : le32 b' a = le32 b a := by
  simp only [le32, h a le_rfl (by omega), h (a + 1) (by omega) (by omega),
    h (a + 2) (by omega) (by omega), h (a + 3) (by omega) (by omega)]

theorem le64_congr (h : ∀ x, a ≤ x → x < a + 8 → b' x = b x) : le64 b' a = le64 b a := by
  unfold le64
  rw [le32_congr fun x hge hlt => h x hge (by omega),
    le32_congr fun x hge hlt => h x (by omega) (by omega)]

@[simp] theorem run_readU8 : (readU8 a).run b = some (b a).toNat := rfl

@[simp] theorem trace_readU8 : (readU8 a).trace b = [a] := rfl

theorem storeBytes_of_mem (mem : Buf) (a : ℕ) {l : List UInt8} {i : ℕ} (h : i < l.length) :
    storeBytes mem a l (a + i) = l.getD i 0 := overlay_of_mem h

theorem storeBytes_of_not_mem (mem : Buf) {l : List UInt8} {x : ℕ}
    (h : ¬ (a ≤ x ∧ x < a + l.length)) : storeBytes mem a l x = mem x := overlay_of_not_mem h

theorem length_bytesOf (b : Buf) (n : ℕ) : (bytesOf b n).length = n := by
  rw [bytesOf, List.length_map, List.length_range]

theorem bytesOf_congr {n : ℕ} (h : ∀ i < n, b' i = b i) :
    bytesOf b' n = bytesOf b n :=
  List.map_congr_left fun i hi => h i (List.mem_range.1 hi)

theorem bytesOf_concat (b : Buf) (n : ℕ) : bytesOf b (n + 1) = bytesOf b n ++ [b n] := by
  rw [bytesOf, List.range_succ, List.map_append]
  rfl

theorem ascii_ofList (cs : List Char) :
    ascii (String.ofList cs) = cs.map fun c => UInt8.ofNat c.toNat := by
  rw [ascii, String.toList_ofList]

/-- The length of a text, read off its characters. -/
theorem length_ascii (cs : List Char) : (ascii (String.ofList cs)).length = cs.length := by
  rw [ascii_ofList, List.length_map]

end Fields

/-- `m'` differs from `m` at most in the sectors of `S`. -/
structure AgreeOff (S : ℕ → Prop) (m m' : Medium) : Prop where
  bad : m'.bad = m.bad
  byte : ∀ a, ¬ S (a / 512) → m'.byte a = m.byte a

/-- No transfer of the list touches a sector of `S`. -/
def Clear (S : ℕ → Prop) (ts : List Transfer) : Prop := ∀ t ∈ ts, ∀ s ∈ t.sectors, ¬ S s

variable {S T : ℕ → Prop} {m m' m'' : Medium} {α : Type}

theorem mem_sectors {t : Transfer} {s : ℕ} :
    s ∈ t.sectors ↔ t.lba ≤ s ∧ s < t.lba + t.count := by
  simp only [Transfer.sectors, List.mem_map, List.mem_range]
  constructor
  · rintro ⟨i, hi, rfl⟩
    omega
  · rintro ⟨h1, h2⟩
    exact ⟨s - t.lba, by omega, by omega⟩

theorem AgreeOff.refl (S : ℕ → Prop) (m : Medium) : AgreeOff S m m := ⟨rfl, fun _ _ => rfl⟩

theorem AgreeOff.trans (h : AgreeOff S m m') (h' : AgreeOff S m' m'') : AgreeOff S m m'' :=
  ⟨h'.bad.trans h.bad, fun a ha => (h'.byte a ha).trans (h.byte a ha)⟩

theorem AgreeOff.mono (h : AgreeOff S m m') (hST : ∀ s, S s → T s) : AgreeOff T m m' :=
  ⟨h.bad, fun a ha => h.byte a fun hs => ha (hST _ hs)⟩

theorem Clear.mono {ts : List Transfer} (h : Clear T ts) (hST : ∀ s, S s → T s) : Clear S ts :=
  fun t ht s hs hS => h t ht s hs (hST s hS)

theorem AgreeOff.read (h : AgreeOff S m m') {t : Transfer} (ht : ∀ s ∈ t.sectors, ¬ S s) :
    m'.read t = m.read t := by
  unfold Medium.read
  rw [h.bad]
  split_ifs
  · rfl
  · congr 1
    funext i
    split_ifs with hi
    · apply h.byte
      apply ht
      rw [mem_sectors]
      omega
    · rfl

theorem AgreeOff.run (h : AgreeOff S m m') (p : BlockM α) (hc : Clear S (p.trace m.read)) :
    p.run m'.read = p.run m.read :=
  Query.run_congr p fun t ht => h.read (hc t ht)

theorem AgreeOff.trace (h : AgreeOff S m m') (p : BlockM α) (hc : Clear S (p.trace m.read)) :
    p.trace m'.read = p.trace m.read :=
  Query.trace_congr p fun t ht => h.read (hc t ht)

section Good

/-- Every transfer succeeds. -/
def Medium.Good (m : Medium) : Prop := ∀ s, m.bad s = false

theorem Medium.Good.any (h : m.Good) (t : Transfer) : t.sectors.any m.bad = false := by
  simp [h _]

theorem AgreeOff.good (h : AgreeOff S m m') (hm : m.Good) : m'.Good := by
  intro s
  rw [h.bad]
  exact hm s

theorem Medium.Good.read (h : m.Good) (t : Transfer) :
    m.read t = some fun i => if i < 512 * t.count then m.byte (512 * t.lba + i) else 0 := by
  simp [Medium.read, h.any]

theorem blockRead_run {lba count : ℕ} (hc : count ≠ 0)
    (h : ∀ s ∈ Transfer.sectors ⟨lba, count⟩, m.bad s = false) :
    (blockRead lba count).run m.read
      = some (some fun i => if i < 512 * count then m.byte (512 * lba + i) else 0) := by
  have hany : (Transfer.sectors ⟨lba, count⟩).any m.bad = false := by
    simpa only [List.any_eq_false, Bool.not_eq_true] using h
  simp [PeanutKernel.blockRead, hc, Medium.read, hany]

theorem Medium.Good.blockRead (h : m.Good) {lba count : ℕ} (hc : count ≠ 0) :
    (blockRead lba count).run m.read
      = some (some fun i => if i < 512 * count then m.byte (512 * lba + i) else 0) :=
  blockRead_run hc fun s _ => h s

theorem blockRead_returns (ans : Transfer → Option Buf) (lba count : ℕ) :
    ∃ read, (blockRead lba count).run ans = some read := by
  unfold PeanutKernel.blockRead
  split_ifs <;> exact ⟨_, rfl⟩

theorem Medium.Good.blockWrite (h : m.Good) {lba count : ℕ} (hc : count ≠ 0) (buf : Buf) :
    blockWrite m lba count buf = some { m with byte := storeByte m.byte ⟨lba, count⟩ buf } := by
  simp [PeanutKernel.blockWrite, hc, h.any]

/-- A medium with the listed bytes, all other bytes zero and every sector readable. -/
def sparseMedium (l : List (ℕ × UInt8)) : Medium := ⟨fun a => (l.lookup a).getD 0, fun _ => false⟩

theorem sparseMedium_good (l : List (ℕ × UInt8)) : (sparseMedium l).Good := fun _ => rfl

end Good

theorem agreeOff_store (m : Medium) (t : Transfer) (buf : Buf) :
    AgreeOff (· ∈ t.sectors) m { m with byte := storeByte m.byte t buf } := by
  refine ⟨rfl, fun a ha => ?_⟩
  rw [mem_sectors] at ha
  simp only [storeByte]
  rw [if_neg (by omega)]

/-- Storing an extent as it was, but for its first bytes, overlays those. -/
theorem overlaid_blockWrite (m : Medium) (t : Transfer) {buf : Buf} {data : List UInt8}
    (hlen : data.length ≤ 512 * t.count)
    (hbuf : ∀ i < 512 * t.count, buf i = m.byte (512 * t.lba + i)) :
    Overlaid m.byte (storeByte m.byte t (patch buf data)) (512 * t.lba + ·) data := by
  constructor
  · intro i hi
    simp only [storeByte]
    rw [if_pos (by omega), Nat.add_sub_cancel_left, patch, if_pos hi]
    simp [hi]
  · intro a ha
    simp only [storeByte]
    split_ifs with hin
    · have hge : data.length ≤ a - 512 * t.lba := by
        by_contra hlt
        exact ha (a - 512 * t.lba) (by omega) (by omega)
      rw [patch, if_neg (by omega), hbuf _ (by omega)]
      congr 1
      omega
    · rfl

end PeanutKernel
