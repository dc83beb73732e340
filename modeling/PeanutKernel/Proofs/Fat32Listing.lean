import PeanutKernel.Proofs.Directory
import PeanutKernel.Proofs.Fat32
import Mathlib.Data.List.TakeWhile

/-!
# What a FAT directory listing shows

The listing loops go through the slots of a directory up to an end mark, and carry a buffer for
long names from slot to slot. Of the buffer only the string in it is ever seen, and what a slot
makes of that string depends on the slot alone (`lfnName_parseLfnEntry`). So a listing shows, for
each slot of a file, the name assembled from the slots before it (`listing`), as far back as the
loop that holds the buffer: to the start of the cluster in a chain (`listChain_run`), to the start
of the directory in a fixed root (`listFixedRoot_run`).
-/

namespace PeanutKernel

namespace Fat

section Slots

/-- No more slots are in use from this one on. -/
def EndMark (raw : Buf) : Prop := ¬ isLongName raw ∧ raw 0 = 0x00

/-- The slot describes a file or a directory. -/
def IsEntry (raw : Buf) : Prop := ¬ isLongName raw ∧ raw 0 ≠ 0x00 ∧ raw 0 ≠ 0xE5

instance (raw : Buf) : Decidable (IsEntry raw) := inferInstanceAs (Decidable (_ ∧ _))

instance (raw : Buf) : Decidable (EndMark raw) := inferInstanceAs (Decidable (_ ∧ _))

theorem IsEntry.not_endMark {raw : Buf} (h : IsEntry raw) : ¬ EndMark raw := fun he => h.2.1 he.2

/-- The characters a long-name slot holds, up to a terminator. -/
def lfnChars (raw : Buf) (offs : List ℕ) : List UInt8 :=
  ((offs.map (le16 raw)).takeWhile fun ch => ¬ (ch = 0x0000 ∨ ch = 0xFFFF)).map fun ch =>
    if ch < 128 then UInt8.ofNat ch else 63

/-- What a long-name slot makes of the name so far: its characters replace the end of the name from
their place on, and are lost if the name does not reach that far. -/
def lfnStep (raw : Buf) (name : List UInt8) : List UInt8 :=
  let seq := (raw 0 &&& 0x1F).toNat
  if seq = 0 then name
  else
    let name := if raw 0 &&& 0x40 ≠ 0 then [] else name
    if (seq - 1) * 13 ≤ name.length then
      (name.take ((seq - 1) * 13) ++ lfnChars raw lfnOffsets).take (maxName - 1)
    else name

/-- The name so far after a slot. -/
def nextName (raw : Buf) (name : List UInt8) : List UInt8 :=
  if isLongName raw then lfnStep raw name else []

/-- The name so far before slot `i`, assembled from slot `start` on. -/
def assembled (slot : ℕ → Buf) (start : ℕ) : ℕ → List UInt8
  | 0 => []
  | i + 1 => if start ≤ i then nextName (slot i) (assembled slot start i) else []

/-- The entry of a slot that follows a long name, or an empty one. -/
def shownEntry (raw : Buf) (name : List UInt8) : Fat32DirEntry where
  name := if name = [] then makeShortName raw else name
  attributes := raw 11
  firstCluster := 2 ^ 16 * le16 raw 20 + le16 raw 26
  size := le32 raw 28

/-- The entry shown for slot `i`, with its name assembled from slot `start i` on. -/
def shownAt (slot : ℕ → Buf) (start : ℕ → ℕ) (i : ℕ) : Fat32DirEntry :=
  shownEntry (slot i) (assembled slot (start i) i)

/-- What the `n` slots from slot `i` on show. -/
def listing (slot : ℕ → Buf) (start : ℕ → ℕ) : ℕ → ℕ → List Fat32DirEntry
  | 0, _ => []
  | n + 1, i =>
    if EndMark (slot i) then []
    else if IsEntry (slot i) then shownAt slot start i :: listing slot start n (i + 1)
    else listing slot start n (i + 1)

/-- How many of the first `n` slots describe a file or a directory. -/
def entryCount (slot : ℕ → Buf) : ℕ → ℕ
  | 0 => 0
  | n + 1 => entryCount slot n + if IsEntry (slot n) then 1 else 0

/-- There is an end mark among the `n` slots from slot `i` on. -/
def Ended (slot : ℕ → Buf) (n i : ℕ) : Prop := ∃ r < n, EndMark (slot (i + r))

instance (slot : ℕ → Buf) (n i : ℕ) : Decidable (Ended slot n i) :=
  inferInstanceAs (Decidable (∃ r < n, EndMark (slot (i + r))))

end Slots

section Names

variable {lfn : Lfn} {name : List UInt8} {raw : Buf}

theorem cstr_bytesOf {b : Buf} {k n : ℕ} (hk : k < n) (hne : ∀ i < k, b i ≠ 0) (hz : b k = 0) :
    cstr (bytesOf b n) = bytesOf b k := by
  obtain ⟨r, rfl⟩ : ∃ r, n = k + (r + 1) := ⟨n - k - 1, by omega⟩
  have hsplit : bytesOf b (k + (r + 1))
      = bytesOf b k ++ b k :: (List.range r).map fun i => b (k + (i + 1)) := by
    simp [bytesOf, List.range_add, List.range_succ_eq_map, Function.comp_def]
  rw [cstr, hsplit, List.takeWhile_append_of_pos, List.takeWhile_cons_of_neg]
  · simp
  · simp [hz]
  · simp only [bytesOf, List.mem_map, List.mem_range]
    rintro _ ⟨i, hi, rfl⟩
    simpa using hne i hi

/-- The string in the buffer ends at the first zero, or with the room for it. -/
theorem lfnName_eq {k : ℕ} (hk : k < maxName) (hne : ∀ i < k, lfn i ≠ 0)
    (hend : k + 1 < maxName → lfn k = 0) : lfnName lfn = bytesOf lfn k := by
  unfold lfnName
  rcases Nat.lt_or_ge k (maxName - 1) with hlt | hge
  · exact cstr_bytesOf hlt hne (hend (by omega))
  · obtain rfl : k = maxName - 1 := by omega
    rw [cstr, List.takeWhile_eq_self_iff]
    simp only [bytesOf, List.mem_map, List.mem_range]
    rintro _ ⟨i, hi, rfl⟩
    simpa using hne i hi

theorem exists_lfnName (lfn : Lfn) : ∃ k < maxName, lfnName lfn = bytesOf lfn k ∧
    (∀ i < k, lfn i ≠ 0) ∧ (k + 1 < maxName → lfn k = 0) := by
  have hex : ∃ k, lfn k = 0 ∨ k + 1 = maxName := ⟨maxName - 1, Or.inr rfl⟩
  classical
  have hle : Nat.find hex ≤ maxName - 1 := Nat.find_min' hex (Or.inr rfl)
  have hne : ∀ i < Nat.find hex, lfn i ≠ 0 := fun i hi hz => Nat.find_min hex hi (Or.inl hz)
  have hk : Nat.find hex < maxName := by
    unfold maxName at hle ⊢
    omega
  have hend : Nat.find hex + 1 < maxName → lfn (Nat.find hex) = 0 := fun hlt =>
    (Nat.find_spec hex).resolve_right hlt.ne
  exact ⟨Nat.find hex, hk, lfnName_eq hk hne hend, hne, hend⟩

/-- A store behind the terminator is not seen. -/
theorem lfnName_congr {lfn' : Lfn} (h : ∀ i ≤ (lfnName lfn).length, lfn' i = lfn i) :
    lfnName lfn' = lfnName lfn := by
  obtain ⟨k, hk, heq, hne, hend⟩ := exists_lfnName lfn
  rw [heq, length_bytesOf] at h
  rw [heq, ← bytesOf_congr fun i hi => h i hi.le]
  refine lfnName_eq hk (fun i hi => ?_) fun hlt => ?_
  · rw [h i hi.le]
    exact hne i hi
  · rw [h k le_rfl]
    exact hend hlt

theorem lfnName_eq_nil_iff : lfnName lfn = [] ↔ lfn 0 = 0 := by
  obtain ⟨k, hk, heq, hne, hend⟩ := exists_lfnName lfn
  rw [heq, ← List.length_eq_zero_iff, length_bytesOf]
  constructor
  · rintro rfl
    exact hend (by decide)
  · intro hz
    by_contra hpos
    exact hne 0 (Nat.pos_of_ne_zero hpos) hz

theorem lfnName_clearLfn (lfn : Lfn) : lfnName (clearLfn lfn) = [] :=
  lfnName_eq_nil_iff.2 (Function.update_self 0 0 lfn)

theorem lfnName_emptyLfn : lfnName emptyLfn = [] := lfnName_eq_nil_iff.2 rfl

theorem storeChar_below (lfn : Lfn) (c : UInt8) {i pos : ℕ} (hi : i < pos) :
    Function.update (Function.update lfn pos c) (pos + 1) 0 i = lfn i := by
  rw [Function.update_of_ne (by omega), Function.update_of_ne hi.ne]

theorem storeUnits_below (raw : Buf) (lfnSize : ℕ) :
    ∀ (offs : List ℕ) (pos : ℕ) (lfn : Lfn),
      ∀ i < pos, storeUnits raw lfnSize offs pos lfn i = lfn i
  | [], _, _, _, _ => rfl
  | off :: offs, pos, lfn, i, hi => by
    rw [storeUnits]
    dsimp only
    by_cases hroom : pos + 1 < lfnSize
    · rw [if_pos hroom]
      by_cases hend : le16 raw off = 0x0000 ∨ le16 raw off = 0xFFFF
      · rw [if_pos hend]
        exact Function.update_of_ne hi.ne _ _
      · rw [if_neg hend, storeUnits_below raw lfnSize offs (pos + 1) _ i (by omega),
          storeChar_below _ _ hi]
    · rw [if_neg hroom]

theorem lfnChars_nil (raw : Buf) : lfnChars raw [] = [] := rfl

theorem lfnChars_cons (raw : Buf) (off : ℕ) (offs : List ℕ) :
    lfnChars raw (off :: offs) =
      if le16 raw off = 0x0000 ∨ le16 raw off = 0xFFFF then []
      else
        (if le16 raw off < 128 then UInt8.ofNat (le16 raw off) else 63) :: lfnChars raw offs := by
  unfold lfnChars
  rw [List.map_cons, List.takeWhile_cons]
  split_ifs <;> simp_all

theorem lfnChar_ne_zero {ch : ℕ} (h : ch ≠ 0) :
    (if ch < 128 then UInt8.ofNat ch else 63 : UInt8) ≠ 0 := by
  split_ifs with hlt
  · intro hz
    have hmod : ch % 2 ^ 8 = 0 := by
      simpa only [UInt8.toNat_ofNat', UInt8.toNat_zero] using congrArg UInt8.toNat hz
    omega
  · decide

/-- Characters stored right after a string go to its end. -/
theorem lfnName_storeUnits (raw : Buf) :
    ∀ (offs : List ℕ) (pos : ℕ) (lfn : Lfn), pos < maxName → (∀ i < pos, lfn i ≠ 0) →
      (offs = [] → pos + 1 < maxName → lfn pos = 0) →
      lfnName (storeUnits raw maxName offs pos lfn)
        = (bytesOf lfn pos ++ lfnChars raw offs).take (maxName - 1)
  | [], pos, lfn, hpos, hne, hnil => by
    rw [lfnChars_nil, List.append_nil, List.take_of_length_le (by rw [length_bytesOf]; omega)]
    exact lfnName_eq hpos hne (hnil rfl)
  | off :: offs, pos, lfn, hpos, hne, _ => by
    rw [storeUnits, lfnChars_cons]
    by_cases hroom : pos + 1 < maxName
    · rw [if_pos hroom]
      dsimp only
      by_cases hend : le16 raw off = 0x0000 ∨ le16 raw off = 0xFFFF
      · rw [if_pos hend, if_pos hend, List.append_nil,
          List.take_of_length_le (by rw [length_bytesOf]; omega)]
        have hbelow : ∀ i < pos, Function.update lfn pos 0 i = lfn i := fun i hi =>
          Function.update_of_ne hi.ne _ _
        rw [← bytesOf_congr hbelow]
        refine lfnName_eq hpos (fun i hi => ?_) fun _ => Function.update_self _ _ _
        rw [hbelow i hi]
        exact hne i hi
      · rw [if_neg hend, if_neg hend]
        set c : UInt8 := if le16 raw off < 128 then UInt8.ofNat (le16 raw off) else 63
        set lfn' := Function.update (Function.update lfn pos c) (pos + 1) 0
        have hbelow : ∀ i < pos, lfn' i = lfn i := fun i hi => storeChar_below lfn c hi
        have hat : lfn' pos = c :=
          (Function.update_of_ne (Nat.ne_of_lt (Nat.lt_succ_self pos)) _ _).trans
            (Function.update_self _ _ _)
        rw [lfnName_storeUnits raw offs (pos + 1) lfn' hroom (fun i hi => ?_)
          (fun _ _ => Function.update_self _ _ _), bytesOf_concat, hat, bytesOf_congr hbelow,
          List.append_assoc, List.singleton_append]
        rcases Nat.lt_succ_iff_lt_or_eq.1 hi with hlt | rfl
        · rw [hbelow i hlt]
          exact hne i hlt
        · rw [hat]
          exact lfnChar_ne_zero fun h => hend (Or.inl h)
    · rw [if_neg hroom, List.take_append_of_le_length (by rw [length_bytesOf]; omega),
        List.take_of_length_le (by rw [length_bytesOf]; omega)]
      exact lfnName_eq hpos hne fun hlt => absurd hlt hroom

/-- What a long-name slot does to the buffer, it does to the string in it. -/
theorem lfnName_parseLfnEntry (raw : Buf) (lfn : Lfn) :
    lfnName (parseLfnEntry raw lfn maxName) = lfnStep raw (lfnName lfn) := by
  unfold parseLfnEntry lfnStep
  by_cases hseq : (raw 0 &&& 0x1F).toNat = 0
  · rw [if_pos (Or.inr hseq), if_pos hseq]
  · rw [if_neg (by simpa [maxName] using hseq), if_neg hseq]
    dsimp only
    have hclear : (if raw 0 &&& 0x40 ≠ 0 then [] else lfnName lfn)
        = lfnName (if raw 0 &&& 0x40 ≠ 0 then clearLfn lfn else lfn) := by
      split_ifs
      · exact (lfnName_clearLfn lfn).symm
      · rfl
    rw [hclear]
    set buf := if raw 0 &&& 0x40 ≠ 0 then clearLfn lfn else lfn
    set pos := ((raw 0 &&& 0x1F).toNat - 1) * 13
    obtain ⟨k, hk, heq, hne, hend⟩ := exists_lfnName buf
    split_ifs with hle
    · rw [heq, length_bytesOf] at hle
      rw [lfnName_storeUnits raw lfnOffsets pos buf (by omega) (fun i hi => hne i (by omega))
        (fun h => absurd h (by decide)), heq]
      congr 2
      rw [bytesOf, bytesOf, ← List.map_take, List.take_range, Nat.min_eq_left hle]
    · exact lfnName_congr fun i hi => storeUnits_below _ _ _ _ _ _ (by omega)

theorem length_lfnStep {name : List UInt8} (h : name.length < maxName) (raw : Buf) :
    (lfnStep raw name).length < maxName := by
  have hroom : 0 < maxName := by decide
  unfold lfnStep
  dsimp only
  split_ifs
  · exact h
  · rw [List.length_take]
    omega
  · exact hroom
  · rw [List.length_take]
    omega
  · exact h

theorem length_assembled (slot : ℕ → Buf) (start : ℕ) :
    ∀ i, (assembled slot start i).length < maxName
  | 0 => Nat.zero_lt_of_lt (show 1 < maxName by decide)
  | i + 1 => by
    rw [assembled, nextName]
    split_ifs
    · exact length_lfnStep (length_assembled slot start i) _
    · decide
    · decide

theorem length_makeShortName (raw : Buf) : (makeShortName raw).length ≤ 12 := by
  have htake : ∀ (l : List UInt8) (p : UInt8 → Bool), (l.takeWhile p).length ≤ l.length :=
    fun l p => (List.takeWhile_prefix p).length_le
  unfold makeShortName cstr
  refine (htake _ _).trans ?_
  rw [List.length_append]
  have hbase := htake (bytesOf raw 8) (· ≠ 32)
  have hext := htake (bytesOf (fun i => raw (8 + i)) 3) (· ≠ 32)
  rw [length_bytesOf] at hbase hext
  split_ifs
  · rw [List.length_cons]
    omega
  · rw [List.length_nil]
    omega

theorem length_shownAt (slot : ℕ → Buf) (start : ℕ → ℕ) (i : ℕ) :
    (shownAt slot start i).name.length < maxName := by
  unfold shownAt shownEntry
  dsimp only
  split_ifs
  · exact (length_makeShortName _).trans_lt (by decide)
  · exact length_assembled slot _ i

end Names

section Scan

variable {slot : ℕ → Buf} {start : ℕ → ℕ} {maxEntries : ℕ} {buf : Buf}

variable {i : ℕ}

theorem assembled_of_le (slot : ℕ → Buf) {start : ℕ} (h : i ≤ start) :
    assembled slot start i = [] := by
  cases i with
  | zero => rfl
  | succ i => exact if_neg (Nat.not_le.2 h)

theorem assembled_succ (slot : ℕ → Buf) {start : ℕ} (h : start ≤ i) :
    assembled slot start (i + 1) = nextName (slot i) (assembled slot start i) :=
  if_pos h

/-- What one slot does to a listing. -/
theorem scanSlot_eq (raw : Buf) (s : DirScan) :
    (scanSlot raw s).stop = (s.stop || decide (EndMark raw)) ∧
    (scanSlot raw s).entries
      = s.entries ++ (if IsEntry raw then [shownEntry raw (lfnName s.lfn)] else []) ∧
    (¬ EndMark raw → lfnName (scanSlot raw s).lfn = nextName raw (lfnName s.lfn)) := by
  by_cases hlong : isLongName raw
  · have hend : ¬ EndMark raw := fun h => h.1 hlong
    have hentry : ¬ IsEntry raw := fun h => h.1 hlong
    rw [scanSlot, if_pos hlong, if_neg hentry, nextName, if_pos hlong, lfnName_parseLfnEntry]
    exact ⟨by simp [hend], (List.append_nil _).symm, fun _ => rfl⟩
  · have hnext : nextName raw (lfnName s.lfn) = [] := if_neg hlong
    rw [scanSlot, if_neg hlong, parseEntry, hnext]
    by_cases h0 : raw 0 = 0x00
    · have hend : EndMark raw := ⟨hlong, h0⟩
      rw [if_pos h0, if_neg fun h : IsEntry raw => h.2.1 h0]
      exact ⟨by simp [hend], (List.append_nil _).symm, fun h => absurd hend h⟩
    · have hend : ¬ EndMark raw := fun h => h0 h.2
      rw [if_neg h0]
      by_cases hdel : raw 0 = 0xE5
      · rw [if_pos hdel, if_neg fun h : IsEntry raw => h.2.2 hdel]
        exact ⟨by simp [hend], (List.append_nil _).symm, fun _ => lfnName_clearLfn _⟩
      · rw [if_neg hdel, if_neg hlong, if_pos (show IsEntry raw from ⟨hlong, h0, hdel⟩)]
        by_cases hname : s.lfn 0 = 0
        · have hnil := lfnName_eq_nil_iff.2 hname
          simp only [hname, ne_eq, not_true, if_false]
          exact ⟨by simp [hend], by simp [shownEntry, hnil], fun _ => hnil⟩
        · have hnil := mt lfnName_eq_nil_iff.1 hname
          simp only [hname, ne_eq, not_false_eq_true, if_true]
          exact ⟨by simp [hend], by simp [shownEntry, hnil], fun _ => lfnName_clearLfn _⟩

theorem scanSlots_stopped (buf : Buf) (maxEntries n off : ℕ) {s : DirScan} (h : s.stop = true) :
    scanSlots buf maxEntries n off s = s := by
  cases n with
  | zero => rfl
  | succ n => rw [scanSlots, if_neg (by simp [h])]

theorem ended_succ (slot : ℕ → Buf) (n i : ℕ) :
    Ended slot (n + 1) i ↔ EndMark (slot i) ∨ Ended slot n (i + 1) := by
  constructor
  · rintro ⟨r, hr, hend⟩
    rcases r with _ | r
    · exact Or.inl hend
    · exact Or.inr ⟨r, by omega, by rwa [Nat.add_right_comm]⟩
  · rintro (hend | ⟨r, hr, hend⟩)
    · exact ⟨0, by omega, hend⟩
    · exact ⟨r + 1, by omega, by rwa [Nat.add_right_comm] at hend⟩

theorem listing_live (start : ℕ → ℕ) (h : ¬ EndMark (slot i)) (n : ℕ) :
    listing slot start (n + 1) i
      = (if IsEntry (slot i) then [shownAt slot start i] else [])
        ++ listing slot start n (i + 1) := by
  rw [listing, if_neg h]
  split_ifs <;> rfl

/-- The loop over a stretch of slots in which every name starts at `st` or later. -/
theorem scanSlots_listing (slot : ℕ → Buf) (start : ℕ → ℕ) (st n : ℕ) :
    ∀ (b off : ℕ) (s : DirScan), (∀ r < n, (fun j => buf (off + 32 * r + j)) = slot (b + r)) →
      (∀ r < n, start (b + r) = st) → st ≤ b → lfnName s.lfn = assembled slot st b →
      s.stop = false → s.entries.length ≤ maxEntries →
      (scanSlots buf maxEntries n off s).entries
        = (s.entries ++ listing slot start n b).take maxEntries ∧
      ((scanSlots buf maxEntries n off s).stop = true
        ↔ Ended slot n b ∧ s.entries.length + (listing slot start n b).length < maxEntries) ∧
      ((scanSlots buf maxEntries n off s).stop = false →
        (scanSlots buf maxEntries n off s).entries.length < maxEntries →
        lfnName (scanSlots buf maxEntries n off s).lfn = assembled slot st (b + n)) := by
  induction n with
  | zero =>
    intro b off s _ _ _ hname hstop hlen
    refine ⟨?_, ?_, fun _ _ => hname⟩
    · rw [listing, List.append_nil, List.take_of_length_le hlen]
      rfl
    · rw [scanSlots, hstop]
      simp [Ended]
  | succ n ih =>
    intro b off s hslot hst hle hname hstop hlen
    rcases hlen.lt_or_eq with hroom | hfull
    · have h0 : (fun j => buf (off + j)) = slot b := hslot 0 (Nat.succ_pos n)
      rw [scanSlots, if_pos ⟨hstop, hroom⟩, h0]
      obtain ⟨hstop', hentries', hname'⟩ := scanSlot_eq (slot b) s
      by_cases hend : EndMark (slot b)
      · have hentry : ¬ IsEntry (slot b) := fun h => h.not_endMark hend
        rw [if_neg hentry, List.append_nil] at hentries'
        rw [scanSlots_stopped _ _ _ _ (by rw [hstop', hstop]; simp [hend]), listing, if_pos hend,
          List.append_nil, List.take_of_length_le hlen]
        refine ⟨hentries', ?_, fun h => absurd h (by simp [hstop', hend])⟩
        simp [hstop', hend, hroom, (ended_succ slot n b).2 (Or.inl hend)]
      · have hshown : shownEntry (slot b) (lfnName s.lfn) = shownAt slot start b := by
          rw [shownAt, hname, show start b = st from hst 0 (Nat.succ_pos n)]
        rw [hshown] at hentries'
        rw [listing_live start hend, ended_succ, ← List.append_assoc, ← hentries',
          show b + (n + 1) = b + 1 + n by omega]
        have hcount : (scanSlot (slot b) s).entries.length ≤ maxEntries := by
          rw [hentries', List.length_append]
          split_ifs <;> simp <;> omega
        obtain ⟨h1, h2, h3⟩ := ih (b + 1) (off + 32) (scanSlot (slot b) s)
          (fun r hr => by
            have := hslot (r + 1) (by omega)
            rw [show off + 32 + 32 * r = off + 32 * (r + 1) by omega, this]
            congr 1
            omega)
          (fun r hr => by
            rw [show b + 1 + r = b + (r + 1) by omega]
            exact hst (r + 1) (by omega))
          (by omega) (by rw [hname' hend, hname, assembled_succ slot hle])
          (by rw [hstop', hstop]; simp [hend]) hcount
        refine ⟨h1, ?_, h3⟩
        rw [h2, hentries', List.length_append, List.length_append]
        simp only [hend, false_or, Nat.add_assoc]
    · rw [scanSlots, if_neg (by omega)]
      refine ⟨?_, ?_, fun _ h => absurd h (by omega)⟩
      · rw [← hfull, List.take_left]
      · rw [hstop]
        refine ⟨fun h => absurd h (by simp), fun h => absurd h.2 (by omega)⟩

theorem listing_add (slot : ℕ → Buf) (start : ℕ → ℕ) (k : ℕ) :
    ∀ n i : ℕ, listing slot start (n + k) i = listing slot start n i
      ++ if Ended slot n i then [] else listing slot start k (i + n)
  | 0, i => by
    rw [if_neg (by simp [Ended]), Nat.zero_add]
    rfl
  | n + 1, i => by
    rw [Nat.add_right_comm]
    by_cases hend : EndMark (slot i)
    · rw [listing, listing, if_pos hend, if_pos hend,
        if_pos ((ended_succ slot n i).2 (Or.inl hend))]
      rfl
    · rw [listing_live start hend, listing_live start hend, listing_add slot start k n (i + 1),
        List.append_assoc]
      simp only [ended_succ, hend, false_or, Nat.add_assoc, Nat.add_comm 1 n]

theorem entryCount_mono (slot : ℕ → Buf) : Monotone (entryCount slot) :=
  monotone_nat_of_le_succ fun _ => Nat.le_add_right _ _

theorem not_ended_zero {n : ℕ} (h : ∀ i < n, ¬ EndMark (slot i)) : ¬ Ended slot n 0 := by
  rintro ⟨r, hr, hend⟩
  rw [Nat.zero_add] at hend
  exact h r hr hend

theorem length_listing (start : ℕ → ℕ) (n : ℕ) :
    (∀ i < n, ¬ EndMark (slot i)) → (listing slot start n 0).length = entryCount slot n := by
  induction n with
  | zero => exact fun _ => rfl
  | succ n ih =>
    intro h
    rw [listing_add, if_neg (not_ended_zero fun i hi => h i (by omega)), List.length_append,
      ih fun i hi => h i (by omega), Nat.zero_add, listing_live start (h n (Nat.lt_succ_self n)),
      entryCount]
    split_ifs <;> rfl

/-- The entry of a slot stands in the listing behind those of the slots before it. -/
theorem listing_getElem? (start : ℕ → ℕ) {n : ℕ} (hi : i < n) (hentry : IsEntry (slot i))
    (hlive : ∀ j < i, ¬ EndMark (slot j)) :
    (listing slot start n 0)[entryCount slot i]? = some (shownAt slot start i) := by
  obtain ⟨k, rfl⟩ : ∃ k, n = i + (k + 1) := ⟨n - i - 1, by omega⟩
  rw [listing_add, if_neg (not_ended_zero hlive), Nat.zero_add,
    listing_live start hentry.not_endMark, if_pos hentry, ← length_listing start i hlive,
    List.getElem?_append_right le_rfl, Nat.sub_self]
  rfl

/-- Every element of a listing is the entry of a slot. -/
theorem getElem?_listing (start : ℕ → ℕ) {k : ℕ} {e : Fat32DirEntry} (n : ℕ) :
    (listing slot start n 0)[k]? = some e → ∃ i < n, IsEntry (slot i) ∧
      (∀ j < i, ¬ EndMark (slot j)) ∧ entryCount slot i = k ∧ shownAt slot start i = e := by
  induction n with
  | zero =>
    intro h
    simp [listing] at h
  | succ n ih =>
    intro h
    rw [listing_add, Nat.zero_add] at h
    rcases Nat.lt_or_ge k (listing slot start n 0).length with hlt | hge
    · rw [List.getElem?_append_left hlt] at h
      obtain ⟨i, hi, hrest⟩ := ih h
      exact ⟨i, by omega, hrest⟩
    · rw [List.getElem?_append_right hge] at h
      by_cases hended : Ended slot n 0
      · simp [hended] at h
      · rw [if_neg hended, listing] at h
        have hlive : ∀ j < n, ¬ EndMark (slot j) := fun j hj hend =>
          hended ⟨j, hj, by rwa [Nat.zero_add]⟩
        rw [length_listing start n hlive] at hge h
        split_ifs at h with hend hentry
        · simp at h
        · obtain ⟨hk, heq⟩ := List.getElem?_eq_some_iff.1 h
          have hzero : k - entryCount slot n = 0 := by simpa [listing] using hk
          simp only [hzero, List.getElem_cons_zero] at heq
          exact ⟨n, Nat.lt_succ_self n, hentry, hlive, by omega, heq⟩
        · simp [listing] at h

variable {slot' : ℕ → Buf} {start' : ℕ → ℕ}

/-- A listing depends on how each slot is taken and what it shows. -/
theorem listing_congr (n : ℕ) :
    ∀ i i' : ℕ, (∀ r < n, (EndMark (slot (i + r)) ↔ EndMark (slot' (i' + r))) ∧
        (IsEntry (slot (i + r)) ↔ IsEntry (slot' (i' + r))) ∧
        shownAt slot start (i + r) = shownAt slot' start' (i' + r)) →
      listing slot start n i = listing slot' start' n i' := by
  induction n with
  | zero => exact fun _ _ _ => rfl
  | succ n ih =>
    intro i i' h
    obtain ⟨hend, hentry, hshown⟩ := h 0 (Nat.succ_pos n)
    rw [Nat.add_zero, Nat.add_zero] at hend hentry hshown
    have hrest := ih (i + 1) (i' + 1) fun r hr => by
      have := h (r + 1) (by omega)
      rwa [show i + (r + 1) = i + 1 + r by omega, show i' + (r + 1) = i' + 1 + r by omega] at this
    rw [listing, listing, hshown, hrest]
    simp only [hend, hentry]

theorem ended_congr {n i' : ℕ} (h : ∀ r < n, EndMark (slot (i + r)) ↔ EndMark (slot' (i' + r))) :
    Ended slot n i ↔ Ended slot' n i' := by
  constructor
  · rintro ⟨r, hr, hend⟩
    exact ⟨r, hr, (h r hr).1 hend⟩
  · rintro ⟨r, hr, hend⟩
    exact ⟨r, hr, (h r hr).2 hend⟩

theorem assembled_shift (slot : ℕ → Buf) (b st : ℕ) :
    ∀ i, assembled slot (b + st) (b + i) = assembled (fun r => slot (b + r)) st i
  | 0 => assembled_of_le slot (Nat.le_add_right b st)
  | i + 1 => by
    rw [← Nat.add_assoc, assembled, assembled, assembled_shift slot b st i]
    simp only [Nat.add_le_add_iff_left]

variable {raw raw' : Buf}

section

variable (h : SameSlot raw raw')

include h

theorem isLongName_congr : isLongName raw ↔ isLongName raw' := by
  rw [isLongName, isLongName, h 11 (by omega)]

theorem endMark_congr : EndMark raw ↔ EndMark raw' := by
  rw [EndMark, EndMark, isLongName_congr h, h 0 (by omega)]

theorem isEntry_congr : IsEntry raw ↔ IsEntry raw' := by
  rw [IsEntry, IsEntry, isLongName_congr h, h 0 (by omega)]

theorem nextName_congr (name : List UInt8) : nextName raw name = nextName raw' name := by
  have hchars : lfnChars raw lfnOffsets = lfnChars raw' lfnOffsets := by
    have hunits : lfnOffsets.map (le16 raw) = lfnOffsets.map (le16 raw') :=
      List.map_congr_left fun off hoff => h.le16 (by
        have : ∀ off ∈ lfnOffsets, off < 31 := by decide
        exact this off hoff)
    rw [lfnChars, hunits, lfnChars]
  simp only [nextName, lfnStep, isLongName_congr h, h 0 (by omega), hchars]

theorem shownEntry_congr (name : List UInt8) : shownEntry raw name = shownEntry raw' name := by
  have hshort : makeShortName raw = makeShortName raw' := by
    have hbase : bytesOf raw 8 = bytesOf raw' 8 := bytesOf_congr fun i hi => h i (by omega)
    have hext : bytesOf (fun i => raw (8 + i)) 3 = bytesOf (fun i => raw' (8 + i)) 3 :=
      bytesOf_congr fun i hi => h (8 + i) (by omega)
    rw [makeShortName, makeShortName, hbase, hext, h 8 (by omega)]
  have hsize : le32 raw 28 = le32 raw' 28 := le32_congr fun x _ hx => h x (by omega)
  rw [shownEntry, shownEntry, hshort, h 11 (by omega), h.le16 (by omega : 20 < 31),
    h.le16 (by omega : 26 < 31), hsize]

end

theorem assembled_of_same {slot' : ℕ → Buf} (st : ℕ) :
    ∀ i : ℕ, (∀ j < i, SameSlot (slot j) (slot' j)) → assembled slot st i = assembled slot' st i
  | 0, _ => rfl
  | i + 1, h => by
    rw [assembled, assembled, assembled_of_same st i fun j hj => h j (by omega),
      nextName_congr (h i (Nat.lt_succ_self i))]

theorem shownAt_of_same (h : ∀ j ≤ i, SameSlot (slot j) (slot' j)) (hstart : start i = start' i) :
    shownAt slot start i = shownAt slot' start' i := by
  rw [shownAt, shownAt, hstart, assembled_of_same (start' i) i fun j hj => h j hj.le,
    shownEntry_congr (h i le_rfl)]

theorem listing_of_same {n : ℕ} (h : ∀ i < n, SameSlot (slot i) (slot' i))
    (hstart : ∀ i < n, start i = start' i) : listing slot start n 0 = listing slot' start' n 0 := by
  refine listing_congr n 0 0 fun r hr => ?_
  rw [Nat.zero_add]
  exact ⟨endMark_congr (h r hr), isEntry_congr (h r hr),
    shownAt_of_same (fun j hj => h j (hj.trans_lt hr)) (hstart r hr)⟩

theorem ended_of_same {n : ℕ} (h : ∀ i < n, SameSlot (slot i) (slot' i)) :
    Ended slot n 0 ↔ Ended slot' n 0 :=
  ended_congr fun r hr => by
    rw [Nat.zero_add]
    exact endMark_congr (h r hr)

end Scan

section Chain

variable {v : Fat32Volume} {m : Medium}

/-- The slots of a cluster. -/
def slotsPerCluster (v : Fat32Volume) : ℕ := v.sectorsPerCluster * 16

/-- What the listing sees in the buffer of a cluster. -/
def clusterView (v : Fat32Volume) (buf : Buf) : List Fat32DirEntry × Bool :=
  (listing (bufSlot buf) (fun _ => 0) (slotsPerCluster v) 0,
    decide (Ended (bufSlot buf) (slotsPerCluster v) 0))

/-- A directory chain as the listing follows it. -/
def dirLinks (v : Fat32Volume) (m : Medium) : Links ℕ Fat32DirEntry :=
  v.clusters.links m (clusterView v)

theorem nextCluster_run (v : Fat32Volume) (m : Medium) (c : ℕ) :
    (nextCluster v c).run m.read = some (v.clusters.nextAt m c) :=
  v.clusters.run_next (nextCluster_isSome v m.read c)

/-- The loop over a directory chain collects what its clusters show. -/
theorem listChain_run (v : Fat32Volume) (m : Medium) (maxEntries fuel : ℕ) :
    ∀ (c : ℕ) (es : List Fat32DirEntry), es.length ≤ maxEntries →
      (listChain v maxEntries fuel c es).run m.read
        = (dirLinks v m).collect maxEntries fuel c es := by
  have hn : v.sectorsPerCluster * 16 = slotsPerCluster v := rfl
  induction fuel with
  | zero => exact fun _ _ _ => rfl
  | succ fuel ih =>
    intro c es hlen
    rw [listChain, Links.collect]
    by_cases hgo : c < fat32Eoc ∧ es.length < maxEntries
    · rw [if_pos hgo, if_pos ⟨decide_eq_true hgo.1, hgo.2⟩]
      obtain ⟨read, hread⟩ := blockRead_returns m.read (clusterLba v c) v.sectorsPerCluster
      have hrun : (readCluster v c).run m.read = some read := hread
      have hview : (dirLinks v m).view c = read.map (clusterView v) := by
        have hrun' : (v.clusters.readCluster c).run m.read = some read := hread
        simp only [dirLinks, ClusterMap.links, hrun', Option.getD_some]
      rw [hview]
      simp only [Query.run_bind, hrun, Option.bind_some]
      obtain _ | buf := read
      · rfl
      · obtain ⟨hentries, hstop, -⟩ := scanSlots_listing (bufSlot buf) (fun _ => 0) 0
          (slotsPerCluster v) 0 0 ⟨emptyLfn, es, false⟩
          (fun r _ => by rw [Nat.zero_add, Nat.zero_add]; rfl) (fun _ _ => rfl) le_rfl
          lfnName_emptyLfn rfl hlen
        simp only [Option.map_some, clusterView, decide_eq_true_eq, hn, hstop, hentries]
        split_ifs
        · rfl
        · rw [Query.run_bind, nextCluster_run, Option.bind_some, ih _ _ (List.length_take_le _ _)]
          rfl
    · rw [if_neg hgo, if_neg fun h => hgo ⟨of_decide_eq_true h.1, h.2⟩]
      rfl

/-- The slots of a directory, along its chain. -/
def dirSlot (v : Fat32Volume) (m : Medium) (first i : ℕ) : Buf := fun j =>
  v.clusters.clusterBuf m (v.clusters.chainAt m first (i / slotsPerCluster v))
    (32 * (i % slotsPerCluster v) + j)

/-- In a chain a name is assembled from the start of the cluster on. -/
def clusterStart (v : Fat32Volume) (i : ℕ) : ℕ := slotsPerCluster v * (i / slotsPerCluster v)

theorem slotsPerCluster_eq (v : Fat32Volume) :
    slotsPerCluster v = v.clusters.slotsPerCluster := rfl

theorem dirSlot_eq (v : Fat32Volume) (m : Medium) (first : ℕ) :
    dirSlot v m first = v.clusters.slotAt m first := rfl

theorem clusterStart_next (hpos : 0 < slotsPerCluster v) (r : ℕ) :
    clusterStart v (slotsPerCluster v + r) = slotsPerCluster v + clusterStart v r := by
  unfold clusterStart
  rw [Nat.add_div_left _ hpos, Nat.mul_succ, Nat.add_comm]

theorem shownAt_shift {slot slot' : ℕ → Buf} {start start' : ℕ → ℕ} {b r : ℕ}
    (hslot : (fun r => slot (b + r)) = slot') (hstart : start (b + r) = b + start' r) :
    shownAt slot start (b + r) = shownAt slot' start' r := by
  subst hslot
  rw [shownAt, shownAt, hstart, assembled_shift]

theorem shows_of_chain (hpos : 0 < v.sectorsPerCluster) (K : ℕ) :
    ∀ first : ℕ, v.clusters.ReadableChain m first K → ∃ n ≤ K + 1, (dirLinks v m).Shows first n
      (listing (dirSlot v m first) (clusterStart v) (K * slotsPerCluster v) 0) := by
  have hV := clusters_sound hpos
  have hslots : 0 < slotsPerCluster v := by
    rw [slotsPerCluster_eq]
    exact ClusterMap.slotsPerCluster_pos hV
  induction K with
  | zero =>
    intro first h
    refine ⟨1, le_rfl, ?_⟩
    rw [Nat.zero_mul]
    exact .out h.ends
  | succ K ih =>
    intro first h
    have hsame : ∀ r < slotsPerCluster v,
        SameSlot (bufSlot (v.clusters.clusterBuf m first) r) (dirSlot v m first r) := by
      intro r hr j _
      rw [slotsPerCluster_eq] at hr
      rw [dirSlot_eq, ClusterMap.slotAt_first first hr]
    have hstart : ∀ r < slotsPerCluster v, 0 = clusterStart v r := by
      intro r hr
      rw [clusterStart, Nat.div_eq_of_lt hr, Nat.mul_zero]
    have hview := h.view hV (clusterView v)
    simp only [clusterView, listing_of_same hsame hstart, ended_of_same hsame] at hview
    have hnext : ∀ r, dirSlot v m first (slotsPerCluster v + r)
        = dirSlot v m (v.clusters.nextAt m first) r := by
      intro r
      rw [dirSlot_eq, dirSlot_eq, slotsPerCluster_eq, ClusterMap.slotAt_next hV]
    obtain ⟨n, hn, hshows⟩ := ih _ h.next
    rw [Nat.succ_mul, Nat.add_comm (K * slotsPerCluster v), listing_add, Nat.zero_add]
    by_cases hend : Ended (dirSlot v m first) (slotsPerCluster v) 0
    · rw [if_pos hend, List.append_nil]
      exact ⟨2, by omega, .stop h.enters (hview.trans (by rw [decide_eq_true hend]))⟩
    · rw [if_neg hend]
      refine ⟨n + 1, by omega, .next h.enters (hview.trans (by rw [decide_eq_false hend])) ?_⟩
      have hrest : listing (dirSlot v m first) (clusterStart v) (K * slotsPerCluster v)
          (slotsPerCluster v) = listing (dirSlot v m (v.clusters.nextAt m first)) (clusterStart v)
          (K * slotsPerCluster v) 0 := by
        refine listing_congr _ _ _ fun r _ => ?_
        rw [Nat.zero_add, hnext]
        exact ⟨Iff.rfl, Iff.rfl, shownAt_shift (funext hnext) (clusterStart_next hslots r)⟩
      rw [hrest]
      exact hshows

/-- Listing a chain that ends shows what its slots show. -/
theorem listChain_listing (hpos : 0 < v.sectorsPerCluster) {first K fuel : ℕ}
    (h : v.clusters.ReadableChain m first K) (hfuel : K < fuel) (maxEntries : ℕ) :
    (listChain v maxEntries fuel first []).run m.read
      = some ((listing (dirSlot v m first) (clusterStart v) (K * slotsPerCluster v) 0).take
        maxEntries) := by
  obtain ⟨n, hn, hshows⟩ := shows_of_chain hpos K first h
  rw [listChain_run v m maxEntries fuel first [] (Nat.zero_le _),
    Links.collect_of_shows hshows fuel [] (by omega) (Nat.zero_le _), List.nil_append]

end Chain

section FixedRoot

variable {v : Fat32Volume} {m : Medium} {maxEntries : ℕ}

/-- The buffer after the read of a root directory sector. -/
def rootBuf (v : Fat32Volume) (m : Medium) (i : ℕ) : Buf := fun j =>
  if j < 512 * 1 then m.byte (512 * ((v.rootDirLba + i) % 2 ^ 32) + j) else 0

/-- The slots of a fixed root directory. -/
def rootSlot (v : Fat32Volume) (m : Medium) (i : ℕ) : Buf := fun j =>
  rootBuf v m (i / 16) (32 * (i % 16) + j)

theorem rootSlot_eq (k : ℕ) {i : ℕ} (hi : i < 16) :
    rootSlot v m (k * 16 + i) = fun j => rootBuf v m k (32 * i + j) := by
  unfold rootSlot
  rw [show (k * 16 + i) / 16 = k by omega, show (k * 16 + i) % 16 = i by omega]

/-- The sectors of the fixed root directory can be read. -/
def ReadableRoot (v : Fat32Volume) (m : Medium) : Prop :=
  ∀ k < v.rootDirSectors, m.bad ((v.rootDirLba + k) % 2 ^ 32) = false

theorem listFixedRoot_full (n i : ℕ) {s : DirScan} (h : maxEntries ≤ s.entries.length) :
    (listFixedRoot v maxEntries n i s).run m.read = some s.entries := by
  cases n with
  | zero => rfl
  | succ n =>
    rw [listFixedRoot, if_neg (Nat.not_lt.2 h)]
    rfl

/-- The loop over a fixed root directory shows what the slots from its sector on show. -/
theorem listFixedRoot_run (n : ℕ) :
    ∀ (i : ℕ) (s : DirScan), (∀ k < n, m.bad ((v.rootDirLba + (i + k)) % 2 ^ 32) = false) →
      lfnName s.lfn = assembled (rootSlot v m) 0 (i * 16) → s.stop = false →
      s.entries.length ≤ maxEntries →
      (listFixedRoot v maxEntries n i s).run m.read
        = some ((s.entries ++ listing (rootSlot v m) (fun _ => 0) (n * 16) (i * 16)).take
          maxEntries) := by
  induction n with
  | zero =>
    intro i s _ _ _ hlen
    rw [Nat.zero_mul, listing, List.append_nil, List.take_of_length_le hlen]
    rfl
  | succ n ih =>
    intro i s hgood hname hstop hlen
    rcases hlen.lt_or_eq with hroom | hfull
    · have hread : (blockRead ((v.rootDirLba + i) % 2 ^ 32) 1).run m.read
          = some (some (rootBuf v m i)) := by
        refine blockRead_run Nat.one_ne_zero fun s hs => ?_
        rw [mem_sectors] at hs
        obtain rfl : s = (v.rootDirLba + i) % 2 ^ 32 := by
          simp only at hs
          omega
        exact hgood 0 (Nat.succ_pos n)
      obtain ⟨hentries, hstop', hname'⟩ := scanSlots_listing (rootSlot v m) (fun _ => 0) 0 16
        (i * 16) 0 s (fun r hr => by rw [Nat.zero_add, rootSlot_eq i hr]) (fun _ _ => rfl)
        (Nat.zero_le _) hname hstop hlen
      rw [listFixedRoot, if_pos hroom]
      simp only [Query.run_bind, hread, Option.bind_some]
      set scan := scanSlots (rootBuf v m i) maxEntries 16 0 s
      rw [Nat.succ_mul, Nat.add_comm (n * 16), listing_add, ← List.append_assoc]
      set found := listing (rootSlot v m) (fun _ => 0) 16 (i * 16)
      rcases Nat.lt_or_ge (s.entries ++ found).length maxEntries with hlt | hge
      · rw [List.take_of_length_le hlt.le] at hentries
        rw [List.length_append] at hlt
        by_cases hend : Ended (rootSlot v m) 16 (i * 16)
        · rw [if_pos (hstop'.2 ⟨hend, hlt⟩), if_pos hend, List.append_nil, hentries,
            List.take_of_length_le (by rw [List.length_append]; exact hlt.le)]
          rfl
        · have hgo : scan.stop = false := Bool.eq_false_iff.2 fun h => hend (hstop'.1 h).1
          have hcount : scan.entries.length < maxEntries := by
            rwa [hentries, List.length_append]
          rw [hgo, if_neg Bool.false_ne_true, if_neg hend, ih (i + 1) scan (fun k hk => ?_)
            (by rw [hname' hgo hcount, Nat.succ_mul]) hgo hcount.le, hentries, Nat.succ_mul]
          rw [show i + 1 + k = i + (k + 1) by omega]
          exact hgood (k + 1) (by omega)
      · have hcount : maxEntries ≤ scan.entries.length := by
          rw [hentries, List.length_take]
          omega
        rw [List.take_append_of_le_length hge, ← hentries]
        by_cases hstopped : scan.stop = true
        · rw [if_pos hstopped]
          rfl
        · rw [if_neg hstopped]
          exact listFixedRoot_full n (i + 1) hcount
    · rw [listFixedRoot_full _ _ hfull.ge, ← hfull, List.take_left]

/-- Listing a fixed root directory shows what its slots show. -/
theorem listFixedRoot_listing (h : ReadableRoot v m) (maxEntries : ℕ) :
    (listFixedRoot v maxEntries v.rootDirSectors 0 ⟨emptyLfn, [], false⟩).run m.read
      = some ((listing (rootSlot v m) (fun _ => 0) (v.rootDirSectors * 16) 0).take maxEntries) := by
  rw [listFixedRoot_run v.rootDirSectors 0 ⟨emptyLfn, [], false⟩
    (fun k hk => by rw [Nat.zero_add]; exact h k hk) lfnName_emptyLfn rfl (Nat.zero_le _)]
  rw [List.nil_append, Nat.zero_mul]

end FixedRoot

end Fat

end PeanutKernel
