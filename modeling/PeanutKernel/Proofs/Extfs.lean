import PeanutKernel.Extfs
import PeanutKernel.Proofs.Block

/-!
# Bytes of a partition

`read_bytes` and `write_bytes` go sector by sector. On a disk that transfers every sector, the
first returns the bytes at consecutive offsets of the partition (`readBytes_run`) and the second
overlays them (`writeBytes_overlaid`). Offsets past `2 ^ 64` start again at zero.
-/

namespace PeanutKernel

namespace Ext

variable {m : Medium} {firstLba : ℕ}

/-- Where the byte at an offset of the partition lies on the disk. -/
def byteAt (firstLba pos : ℕ) : ℕ := 512 * partBytesToLba firstLba pos + pos % 512

theorem byteAt_sector (firstLba pos : ℕ) :
    byteAt firstLba pos / 512 = partBytesToLba firstLba pos := by
  unfold byteAt
  omega

theorem byteAt_inj {pos pos' : ℕ} (h : pos < 2 ^ 64) (h' : pos' < 2 ^ 64)
    (heq : byteAt firstLba pos = byteAt firstLba pos') : pos = pos' := by
  unfold byteAt partBytesToLba at heq
  omega

/-- Offsets in the rest of a sector. -/
theorem byteAt_add {pos i : ℕ} (hi : pos % 512 + i < 512) :
    byteAt firstLba (pos + i) = 512 * partBytesToLba firstLba pos + (pos % 512 + i) := by
  unfold byteAt partBytesToLba
  rw [show (pos + i) / 512 = pos / 512 by omega, show (pos + i) % 512 = pos % 512 + i by omega]

/-- Where the `i`-th byte from an offset on lies. -/
def placeAt (firstLba off i : ℕ) : ℕ := byteAt firstLba ((off + i) % 2 ^ 64)

theorem placeAt_eq {off i : ℕ} (h : off + i < 2 ^ 64) :
    placeAt firstLba off i = byteAt firstLba (off + i) := by
  rw [placeAt, Nat.mod_eq_of_lt h]

theorem placeAt_mod (off k i : ℕ) :
    placeAt firstLba ((off + k) % 2 ^ 64) i = placeAt firstLba off (k + i) := by
  rw [placeAt, placeAt, Nat.mod_add_mod, Nat.add_assoc]

/-- A sector does not end past `2 ^ 64`. -/
theorem placeAt_sector {pos i : ℕ} (hpos : pos < 2 ^ 64) (hi : pos % 512 + i < 512) :
    placeAt firstLba pos i = 512 * partBytesToLba firstLba pos + (pos % 512 + i) := by
  rw [placeAt_eq (by omega), byteAt_add hi]

theorem placeAt_ne {pos i j : ℕ} (hij : i < j) (hj : j < 2 ^ 64) :
    placeAt firstLba pos i ≠ placeAt firstLba pos j := by
  intro h
  have := byteAt_inj (Nat.mod_lt _ (by decide)) (Nat.mod_lt _ (by decide)) h
  omega

theorem readLoop_run (hm : m.Good) (n : ℕ) :
    ∀ pos left : ℕ, left ≤ n → pos < 2 ^ 64 →
      (readLoop firstLba n pos left).run m.read
        = some (some (stored m.byte (placeAt firstLba pos) left)) := by
  induction n with
  | zero =>
    intro pos left hn _
    obtain rfl : left = 0 := by omega
    rfl
  | succ n ih =>
    intro pos left hn hpos
    by_cases hz : left = 0
    · subst hz
      rfl
    · set take := min (512 - pos % 512) left with htake
      have hlt : pos % 512 < 512 := Nat.mod_lt _ (by omega)
      have hbytes : bytesOf (fun i => if pos % 512 + i < 512 * 1 then
          m.byte (512 * partBytesToLba firstLba pos + (pos % 512 + i)) else 0) take
          = stored m.byte (placeAt firstLba pos) take := by
        simp only [bytesOf, stored, List.map_inj_left, List.mem_range]
        intro i hi
        rw [if_pos (by omega), placeAt_sector hpos (by omega)]
      have hsplit := stored_add m.byte (placeAt firstLba pos) take (left - take)
      rw [show take + (left - take) = left by omega] at hsplit
      rw [readLoop, if_neg hz]
      simp only [Query.run_bind, hm.blockRead Nat.one_ne_zero, Option.bind_some, ← htake, hbytes]
      rw [ih _ _ (by omega) (Nat.mod_lt _ (by decide)), hsplit, funext (placeAt_mod pos take)]
      rfl

theorem readBytes_placed (hm : m.Good) {off : ℕ} (hoff : off < 2 ^ 64) (len : ℕ) :
    (readBytes firstLba off len).run m.read
      = some (some fun i => if i < len then m.byte (placeAt firstLba off i) else 0) := by
  simp only [readBytes, Query.run_bind, readLoop_run hm len off len le_rfl hoff, Option.bind_some,
    Query.run_pure, Option.map_some]
  congr 2
  funext i
  split_ifs with hi
  · rw [List.getD_eq_getElem _ _ (by simpa using hi), getElem_stored]
  · rw [List.getD_eq_default _ _ (by simpa using hi)]

theorem readBytes_run (hm : m.Good) {off len : ℕ} (h : off + len < 2 ^ 64) :
    (readBytes firstLba off len).run m.read
      = some (some fun i => if i < len then m.byte (byteAt firstLba (off + i)) else 0) := by
  rw [readBytes_placed hm (by omega)]
  congr 2
  funext i
  split_ifs with hi
  · rw [placeAt_eq (by omega)]
  · rfl

/-- Storing a sector as it was, but for the bytes of `data` from `off` on. -/
theorem overlaid_sector (m : Medium) (lba : ℕ) (sec : Buf) (off : ℕ) (data : List UInt8)
    (hlen : off + data.length ≤ 512)
    (hsec : ∀ i < 512, i < off ∨ off + data.length ≤ i → sec i = m.byte (512 * lba + i)) :
    Overlaid m.byte (storeByte m.byte ⟨lba, 1⟩ (patchAt sec off data)) (512 * lba + off + ·)
      data := by
  constructor
  · intro i hi
    simp only [storeByte]
    rw [if_pos (by omega), patchAt, if_pos (by omega),
      show 512 * lba + off + i - 512 * lba - off = i by omega]
    simp [hi]
  · intro a ha
    simp only [storeByte]
    split_ifs with hin
    · have hout : ¬ (off ≤ a - 512 * lba ∧ a - 512 * lba < off + data.length) := fun h =>
        ha (a - 512 * lba - off) (by omega) (by omega)
      rw [patchAt, if_neg hout, hsec _ (by omega) (by omega)]
      congr 1
      omega
    · rfl

theorem writeLoop_overlaid (n : ℕ) :
    ∀ (pos : ℕ) (data : List UInt8) (m : Medium) (writes : List Transfer), m.Good →
      data.length ≤ n → data.length ≤ 2 ^ 64 → pos < 2 ^ 64 →
      ∃ (m' : Medium) (writes' : List Transfer),
        writeLoop firstLba n pos data m writes = some ⟨0, m', writes'⟩ ∧ m'.bad = m.bad ∧
        Overlaid m.byte m'.byte (placeAt firstLba pos) data := by
  induction n with
  | zero =>
    intro pos data m writes _ hn _ _
    obtain rfl : data = [] := List.length_eq_zero_iff.1 (by omega)
    exact ⟨m, writes, rfl, rfl, overlaid_nil _ _⟩
  | succ n ih =>
    intro pos data m writes hm hn hshort hpos
    by_cases hd : data = []
    · subst hd
      exact ⟨m, writes, rfl, rfl, overlaid_nil _ _⟩
    · have hlen : 0 < data.length := List.length_pos_iff.2 hd
      have hlt : pos % 512 < 512 := Nat.mod_lt _ (by omega)
      set lba := partBytesToLba firstLba pos with hlba
      set take := min (512 - pos % 512) data.length with htake
      have htl : (data.take take).length = take := by
        rw [List.length_take]
        omega
      -- the sector as it is, unless it is replaced as a whole
      obtain ⟨sec, hsec, hkeep⟩ : ∃ sec, (if take ≠ 512 then m.read ⟨lba, 1⟩
          else some fun _ => 0) = some sec ∧ ∀ i < 512, i < pos % 512 ∨ pos % 512 + take ≤ i →
            sec i = m.byte (512 * lba + i) := by
        by_cases h512 : take ≠ 512
        · rw [if_pos h512, hm.read]
          exact ⟨_, rfl, fun i hi _ => if_pos (by simpa using hi)⟩
        · rw [if_neg h512]
          exact ⟨_, rfl, fun i hi h => by omega⟩
      have hov := overlaid_sector m lba sec (pos % 512) (data.take take)
        (by omega) (by rw [htl]; exact hkeep)
      set m₁ : Medium :=
        { m with byte := storeByte m.byte ⟨lba, 1⟩ (patchAt sec (pos % 512) (data.take take)) }
      have hov₁ : Overlaid m.byte m₁.byte (placeAt firstLba pos) (data.take take) := by
        constructor
        · intro i hi
          rw [placeAt_sector hpos (by omega), ← Nat.add_assoc]
          exact hov.written i hi
        · intro a ha
          refine hov.frame a fun i hi => ?_
          have := ha i hi
          rwa [placeAt_sector hpos (by omega), ← Nat.add_assoc] at this
      have hdrop : (data.drop take).length = data.length - take := List.length_drop
      obtain ⟨m', writes', hw, hbad, hov'⟩ := ih ((pos + take) % 2 ^ 64) (data.drop take) m₁
        (writes ++ [⟨lba, 1⟩]) hm (by omega) (by omega) (Nat.mod_lt _ (by decide))
      refine ⟨m', writes', ?_, hbad, ?_⟩
      · rw [writeLoop, if_neg hd]
        simp only [← hlba, ← htake, hsec, hm.blockWrite Nat.one_ne_zero]
        exact hw
      · have hov₂ : Overlaid m₁.byte m'.byte
            (fun i => placeAt firstLba pos ((data.take take).length + i)) (data.drop take) := by
          simp only [htl, ← placeAt_mod]
          exact hov'
        have happ := hov₁.append hov₂ fun i hi j hj => placeAt_ne (by omega) (by omega)
        rwa [List.take_append_drop] at happ

theorem writeBytes_placed (firstLba : ℕ) (hm : m.Good) {off : ℕ} (hoff : off < 2 ^ 64)
    (data : List UInt8) (hlen : data.length ≤ 2 ^ 64) (writes : List Transfer) :
    ∃ (m' : Medium) (writes' : List Transfer),
      writeBytes firstLba off data m writes = some ⟨0, m', writes'⟩ ∧ m'.bad = m.bad ∧
      Overlaid m.byte m'.byte (placeAt firstLba off) data :=
  writeLoop_overlaid data.length off data m writes hm le_rfl hlen hoff

theorem writeBytes_overlaid (hm : m.Good) (off : ℕ) (data : List UInt8)
    (h : off + data.length < 2 ^ 64) (writes : List Transfer) :
    ∃ (m' : Medium) (writes' : List Transfer),
      writeBytes firstLba off data m writes = some ⟨0, m', writes'⟩ ∧ m'.bad = m.bad ∧
      Overlaid m.byte m'.byte (fun i => byteAt firstLba (off + i)) data := by
  obtain ⟨m', writes', hw, hbad, hov⟩ :=
    writeBytes_placed firstLba hm (show off < 2 ^ 64 by omega) data (by omega) writes
  exact ⟨m', writes', hw, hbad, hov.congr fun i hi => (placeAt_eq (by omega)).symm⟩

end Ext

end PeanutKernel
