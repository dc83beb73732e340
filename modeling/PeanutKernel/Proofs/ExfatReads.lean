import PeanutKernel.ExfatReads
import PeanutKernel.Proofs.ExfatListing
import PeanutKernel.Proofs.ExtfsReads
import PeanutKernel.Proofs.Populate

/-!
# Decoding an entry set

The loops over the name entries and their units read the name as the model of the driver does
(`askUnits_run`, `askNameEntries_run`). In a standard entry set the entries hold 15 characters each,
so that after `j` of them the first `15 * j` are there, and the set is decoded as the entry it was
made of. The checks keep every read inside the cluster, whatever it holds.
-/

namespace PeanutKernel

namespace Exfat

open Query
open Ext (askBytes bufOf askBytes_run askBytes_trace bufOf_bytesOf)

variable {buf : Buf} {P : ℕ → Prop}

section Fields

theorem askByte_run (buf : Buf) (i : ℕ) : (askByte i).run buf = some (buf i) := rfl

theorem asksOnly_askByte {i : ℕ} : AsksOnly buf P (askByte i) ↔ P i := by
  simp [AsksOnly, askByte]

theorem askField_run (buf : Buf) (field : Buf → ℕ → ℕ) (n i : ℕ) :
    (askField field n i).run buf
      = some (field (bufOf (bytesOf (fun j => buf (i + j)) n)) 0) := by
  rw [askField, run_bind, askBytes_run]
  rfl

theorem asksOnly_askField {field : Buf → ℕ → ℕ} {n i b : ℕ} (h : i + n ≤ b) :
    AsksOnly buf (· < b) (askField field n i) := by
  rw [askField, asksOnly_bind (askBytes_run buf i n), AsksOnly, askBytes_trace, asksOnly_pure,
    and_true]
  intro j hj
  rw [List.mem_range'_1] at hj
  omega

theorem askLe16_run (buf : Buf) (i : ℕ) : (askField le16 2 i).run buf = some (le16 buf i) := by
  rw [askField_run]
  simp [le16, bufOf_bytesOf]

theorem askLe32_run (buf : Buf) (i : ℕ) : (askField le32 4 i).run buf = some (le32 buf i) := by
  rw [askField_run]
  simp [le32, bufOf_bytesOf]

theorem askLe64_run (buf : Buf) (i : ℕ) : (askField le64 8 i).run buf = some (le64 buf i) := by
  rw [askField_run]
  simp [le64, le32, bufOf_bytesOf, Nat.add_assoc]

end Fields

section Loops

variable {bytes off secondary nameLen e : ℕ}

theorem askUnits_run (buf : Buf) (e nameLen : ℕ) : ∀ (n k : ℕ) (nameU : List ℕ), k + n ≤ 15 →
    (askUnits e nameLen n k nameU).run buf
      = some (nameU ++ (List.range' k (min n (min nameLen (maxName - 1) - nameU.length))).map
        fun k => le16 buf (e + 2 + k * 2))
  | 0, k, nameU, _ => by simp [askUnits]
  | n + 1, k, nameU, hk => by
    rw [askUnits]
    split_ifs with hroom hend
    · omega
    · rw [run_bind_some buf (askLe16_run buf _),
        askUnits_run buf e nameLen n (k + 1) (nameU ++ [le16 buf (e + 2 + k * 2)]) (by omega)]
      have hcount : min (n + 1) (min nameLen (maxName - 1) - nameU.length)
          = min n (min nameLen (maxName - 1) - (nameU.length + 1)) + 1 := by omega
      rw [hcount, List.range'_succ, List.map_cons, List.append_assoc, List.length_append,
        List.length_singleton]
      rfl
    · have hcount : min (n + 1) (min nameLen (maxName - 1) - nameU.length) = 0 := by omega
      rw [hcount]
      simp

theorem asksOnly_askUnits (he : e + 32 ≤ bytes) : ∀ (n k : ℕ) (nameU : List ℕ), k + n ≤ 15 →
    AsksOnly buf (· < bytes) (askUnits e nameLen n k nameU)
  | 0, k, nameU, _ => (asksOnly_pure _).2 trivial
  | n + 1, k, nameU, hk => by
    rw [askUnits]
    split_ifs
    · exact (asksOnly_pure _).2 trivial
    · rw [asksOnly_bind (askLe16_run buf _)]
      exact ⟨asksOnly_askField (by omega), asksOnly_askUnits he n (k + 1) _ (by omega)⟩
    · exact (asksOnly_pure _).2 trivial

variable (buf bytes off nameLen) in
/-- In a set that has fewer than 255 secondary entries, the loop does what the model of the driver
does. -/
theorem askNameEntries_run (hsecondary : secondary < 255) (fuel : ℕ) :
    ∀ (n si : ℕ) (nameU : List ℕ), si + n = secondary + 1 →
      (askNameEntries bytes off secondary nameLen (n + 1 + fuel) si nameU).run buf
        = some (nameLoop buf bytes off nameLen n si nameU)
  | 0, si, nameU, hsi => by
    rw [Nat.add_right_comm, askNameEntries, if_neg (by omega)]
    rfl
  | n + 1, si, nameU, hsi => by
    rw [Nat.add_right_comm, askNameEntries, nameLoop]
    have hnext : (si + 1) % 2 ^ 8 = si + 1 := Nat.mod_eq_of_lt (by omega)
    have ih := fun nameU =>
      askNameEntries_run hsecondary fuel n (si + 1) nameU (by omega)
    have hiff : (si ≤ secondary ∧ nameU.length < nameLen ∧ nameU.length < maxName)
        ↔ nameU.length < nameLen ∧ nameU.length < maxName := by omega
    rw [hnext]
    simp only [hiff]
    split_ifs with hgo hout hkind
    · rfl
    · rw [run_bind_some buf (askByte_run buf _), if_pos hkind]
      exact ih nameU
    · rw [run_bind_some buf (askByte_run buf _), if_neg hkind,
        run_bind_some buf (askUnits_run buf _ _ 15 0 nameU (by omega)), ih,
        ← List.range_eq_range']
    · rfl

theorem asksOnly_askNameEntries : ∀ (fuel si : ℕ) (nameU : List ℕ),
    AsksOnly buf (· < bytes) (askNameEntries bytes off secondary nameLen fuel si nameU)
  | 0, _, _ => by simp [AsksOnly, askNameEntries]
  | fuel + 1, si, nameU => by
    rw [askNameEntries]
    split_ifs with hgo
    · dsimp only
      split_ifs with hout
      · exact (asksOnly_pure _).2 trivial
      · rw [asksOnly_bind (askByte_run buf _), asksOnly_askByte]
        refine ⟨by omega, ?_⟩
        split_ifs
        · exact asksOnly_askNameEntries fuel _ nameU
        · rw [asksOnly_bind (askUnits_run buf _ _ 15 0 nameU (by omega))]
          exact ⟨asksOnly_askUnits (by omega) 15 0 nameU (by omega),
            asksOnly_askNameEntries fuel _ _⟩
    · exact (asksOnly_pure _).2 trivial

end Loops

section Sets

variable {bytes off : ℕ}

/-- What is stored for the set at an offset. -/
def storedEntry (buf : Buf) (bytes off : ℕ) : ExfatDirEntry where
  name := ((nameLoop buf bytes off (buf (off + 32 + 3)).toNat
    ((buf (off + 1)).toNat - 1) 2 []).take (maxName - 1)).map nameByte
  attributes := buf (off + 4)
  firstCluster := le32 buf (off + 32 + 20)
  size := le64 buf (off + 32 + 24)

theorem ofNat_le16 (buf : Buf) (i : ℕ) : UInt8.ofNat (le16 buf i) = buf i := by
  rw [← UInt8.toNat_inj, UInt8.toNat_ofNat', le16]
  have := (buf i).toNat_lt
  omega

theorem askEntrySet_run (hbytes : bytes < 2 ^ 32) (hset : SetAt buf bytes off)
    (hsecondary : (buf (off + 1)).toNat < 255) {fuel : ℕ} (hfuel : 255 ≤ fuel) :
    (askEntrySet fuel bytes off).run buf = some (some (storedEntry buf bytes off)) := by
  have hpos := hset.pos
  have hfits := hset.fits
  obtain ⟨rest, rfl⟩ := Nat.exists_eq_add_of_le
    (show (buf (off + 1)).toNat - 1 + 1 ≤ fuel by omega)
  have hloop := askNameEntries_run buf bytes off (buf (off + 32 + 3)).toNat hsecondary rest
    ((buf (off + 1)).toNat - 1) 2 [] (by omega)
  rw [askEntrySet, Nat.mod_eq_of_lt (show off + 32 < 2 ^ 32 by omega), if_neg (by omega),
    run_bind_some buf (askByte_run buf _), if_neg (not_not.2 hset.file),
    Nat.mod_eq_of_lt (show off + 1 < 2 ^ 32 by omega), run_bind_some buf (askByte_run buf _),
    Nat.mod_eq_of_lt (show off + ((buf (off + 1)).toNat + 1) * 32 < 2 ^ 32 by omega),
    if_neg (by omega), askSet, run_bind_some buf (askLe16_run buf _),
    run_bind_some buf (askByte_run buf _), if_neg (not_not.2 hset.stream),
    run_bind_some buf (askByte_run buf _), run_bind_some buf (askLe32_run buf _),
    run_bind_some buf (askLe64_run buf _), run_bind_some buf hloop, ofNat_le16]
  rfl

theorem asksOnly_askEntrySet (hoff : off + 8192 < 2 ^ 32) (fuel : ℕ) :
    AsksOnly buf (· < bytes) (askEntrySet fuel bytes off) := by
  have hcount := (buf (off + 1)).toNat_lt
  rw [askEntrySet, Nat.mod_eq_of_lt (show off + 32 < 2 ^ 32 by omega),
    Nat.mod_eq_of_lt (show off + 1 < 2 ^ 32 by omega)]
  split_ifs with hshort
  · exact (asksOnly_pure _).2 trivial
  · rw [asksOnly_bind (askByte_run buf _), asksOnly_askByte]
    refine ⟨by omega, ?_⟩
    split_ifs
    · exact (asksOnly_pure _).2 trivial
    · rw [asksOnly_bind (askByte_run buf _), asksOnly_askByte,
        Nat.mod_eq_of_lt (show off + ((buf (off + 1)).toNat + 1) * 32 < 2 ^ 32 by omega)]
      refine ⟨by omega, ?_⟩
      split_ifs with hbad
      · exact (asksOnly_pure _).2 trivial
      · rw [askSet, asksOnly_bind (askLe16_run buf _), asksOnly_bind (askByte_run buf _),
          asksOnly_askByte]
        refine ⟨asksOnly_askField (by omega), by omega, ?_⟩
        split_ifs
        · exact (asksOnly_pure _).2 trivial
        · rw [asksOnly_bind (askByte_run buf _), asksOnly_askByte,
            asksOnly_bind (askLe32_run buf _), asksOnly_bind (askLe64_run buf _),
            asksOnly_bind_iff]
          exact ⟨by omega, asksOnly_askField (by omega), asksOnly_askField (by omega),
            asksOnly_askNameEntries fuel 2 [], fun _ _ => (asksOnly_pure _).2 trivial⟩

theorem askEntrySet_none (hoff : off + 8192 < 2 ^ 32) (hset : ¬ SetAt buf bytes off) (fuel : ℕ) :
    (askEntrySet fuel bytes off).run buf = some none := by
  have hcount := (buf (off + 1)).toNat_lt
  rw [askEntrySet, Nat.mod_eq_of_lt (show off + 32 < 2 ^ 32 by omega),
    Nat.mod_eq_of_lt (show off + 1 < 2 ^ 32 by omega)]
  split_ifs with hshort
  · rfl
  · rw [run_bind_some buf (askByte_run buf _)]
    split_ifs with hfile
    · rfl
    · rw [run_bind_some buf (askByte_run buf _),
        Nat.mod_eq_of_lt (show off + ((buf (off + 1)).toNat + 1) * 32 < 2 ^ 32 by omega)]
      split_ifs with hbad
      · rfl
      · rw [askSet, run_bind_some buf (askLe16_run buf _), run_bind_some buf (askByte_run buf _)]
        split_ifs with hstream
        · rfl
        · exact absurd ⟨not_not.1 hfile, by omega, by omega, not_not.1 hstream⟩ hset

/-- In a cluster of a mounted volume the function returns, with what the model of the driver has for
it but for a zero in the name, where the model ends it. -/
theorem askEntrySet_model (hbytes : bytes ≤ maxClusterSectors * 512) (hoff : off < bytes) {fuel : ℕ}
    (hfuel : 255 ≤ fuel) :
    ∃ r, (askEntrySet fuel bytes off).run buf = some r
      ∧ parseEntrySet buf bytes off = r.map fun e => { e with name := cstr e.name } := by
  rw [maxClusterSectors] at hbytes
  by_cases hset : SetAt buf bytes off
  · have hfits := hset.fits
    exact ⟨_, askEntrySet_run (by omega) hset (by omega) hfuel, parseEntrySet_of_setAt hset⟩
  · exact ⟨none, askEntrySet_none (by omega) hset fuel, parseEntrySet_eq_none hset⟩

end Sets

section RoundTrip

variable {bytes off : ℕ} {e : ExfatDirEntry}

/-- The entries that hold a name. -/
def nameEntries (e : ExfatDirEntry) : ℕ := (e.name.length + 14) / 15

/-- The standard entry set of a file stands at `off`: the file entry, the stream entry and the name
entries, with what is not named here, such as times and checksums, left open. -/
structure StandardSet (buf : Buf) (off : ℕ) (e : ExfatDirEntry) : Prop where
  file : buf off = entryFile
  secondary : (buf (off + 1)).toNat = 1 + nameEntries e
  attributes : buf (off + 4) = e.attributes
  stream : buf (off + 32) = entryStream
  nameLen : (buf (off + 32 + 3)).toNat = e.name.length
  firstCluster : le32 buf (off + 32 + 20) = e.firstCluster
  size : le64 buf (off + 32 + 24) = e.size
  nameEntry : ∀ j < nameEntries e, buf (off + 32 * (2 + j)) = entryFilename
  unit : ∀ (i : ℕ) (hi : i < e.name.length),
    le16 buf (off + 32 * (2 + i / 15) + 2 + i % 15 * 2) = (e.name[i]).toNat

theorem StandardSet.units (h : StandardSet buf off e) (j : ℕ) :
    (List.range (min 15 (e.name.length - 15 * j))).map
        (fun k => le16 buf (off + 32 * (2 + j) + 2 + k * 2))
      = ((e.name.map UInt8.toNat).drop (15 * j)).take 15 := by
  refine List.ext_getElem ?_ fun k hk hk' => ?_
  · simp
  · rw [List.length_map, List.length_range] at hk
    have hunit := h.unit (15 * j + k) (by omega)
    rw [show (15 * j + k) / 15 = j by omega, show (15 * j + k) % 15 = k by omega] at hunit
    simp only [List.getElem_map, List.getElem_range, List.getElem_take, List.getElem_drop]
    exact hunit

/-- After `j` name entries the name is there up to its first `15 * j` characters. -/
theorem StandardSet.nameLoop (h : StandardSet buf off e) (hlen : e.name.length ≤ 255)
    (hfits : off + 32 * (2 + nameEntries e) ≤ bytes) :
    ∀ r j : ℕ, j + r = nameEntries e →
      nameLoop buf bytes off e.name.length r (2 + j) ((e.name.map UInt8.toNat).take (15 * j))
        = e.name.map UInt8.toNat
  | 0, j, hj => by
    rw [nameEntries] at hj
    exact List.take_of_length_le (by rw [List.length_map]; omega)
  | r + 1, j, hj => by
    have hlt : j < nameEntries e := by omega
    have hroom : 15 * j < e.name.length := by
      rw [nameEntries] at hlt
      omega
    have hlength : ((e.name.map UInt8.toNat).take (15 * j)).length = 15 * j := by
      rw [List.length_take, List.length_map]
      omega
    rw [Exfat.nameLoop, hlength, if_pos ⟨hroom, by rw [maxName]; omega⟩]
    simp only
    rw [if_neg (by omega), if_neg (not_not.2 (h.nameEntry j hlt)),
      show min e.name.length (maxName - 1) = e.name.length by rw [maxName]; omega, h.units j,
      ← List.take_add]
    exact StandardSet.nameLoop h hlen hfits r (j + 1) (by omega)

theorem nameByte_toNat {c : UInt8} (hc : c.toNat < 128) : nameByte c.toNat = c := by
  rw [nameByte, if_pos hc, UInt8.ofNat_toNat]

theorem StandardSet.decodes (h : StandardSet buf off e) (hbytes : bytes < 2 ^ 32)
    (hlen : e.name.length ≤ 255) (hascii : ∀ c ∈ e.name, c.toNat < 128)
    (hfits : off + 32 * (2 + nameEntries e) ≤ bytes) {fuel : ℕ} (hfuel : 255 ≤ fuel) :
    (askEntrySet fuel bytes off).run buf = some (some e) := by
  have hcount := h.secondary
  have hentries : nameEntries e ≤ 17 := by
    rw [nameEntries]
    omega
  have hset : SetAt buf bytes off := ⟨h.file, by omega, by omega, h.stream⟩
  have hloop := h.nameLoop hlen hfits (nameEntries e) 0 (Nat.zero_add _)
  have hname : ((e.name.map UInt8.toNat).take (maxName - 1)).map nameByte = e.name := by
    rw [List.take_of_length_le (by rw [List.length_map, maxName]; omega), List.map_map]
    have hid : ∀ c ∈ e.name, (nameByte ∘ UInt8.toNat) c = c := fun c hc =>
      nameByte_toNat (hascii c hc)
    rw [List.map_congr_left hid, List.map_id']
  have hstored : storedEntry buf bytes off = e := by
    rw [storedEntry, h.nameLen, hcount, Nat.add_sub_cancel_left, h.attributes, h.firstCluster,
      h.size]
    rw [Nat.mul_zero, List.take_zero] at hloop
    rw [hloop, hname]
  rw [askEntrySet_run hbytes hset (by omega) hfuel, hstored]

open Populate (le32Bytes le64Bytes le32_le32Bytes le64_le64Bytes getD_behind getD_piece)

/-- The bytes of an entry set by their index in it, with zeros for what the driver does not read. -/
def setByte (e : ExfatDirEntry) (i : ℕ) : UInt8 :=
  if i < 32 then [entryFile, UInt8.ofNat (1 + nameEntries e), 0, 0, e.attributes].getD i 0
  else if i < 64 then
    ([entryStream, 3, 0, UInt8.ofNat e.name.length] ++ List.replicate 16 0
      ++ (le32Bytes e.firstCluster ++ le64Bytes e.size)).getD (i - 32) 0
  else if i % 32 = 0 then entryFilename
  else if i % 2 = 0 then e.name.getD (15 * (i / 32 - 2) + (i % 32 - 2) / 2) 0
  else 0

theorem setByte_unit {i : ℕ} (hi : i < e.name.length) :
    setByte e (32 * (2 + i / 15) + 2 + i % 15 * 2) = e.name[i]
      ∧ setByte e (32 * (2 + i / 15) + 2 + i % 15 * 2 + 1) = 0 := by
  have hindex : 15 * ((32 * (2 + i / 15) + 2 + i % 15 * 2) / 32 - 2)
      + ((32 * (2 + i / 15) + 2 + i % 15 * 2) % 32 - 2) / 2 = i := by omega
  constructor
  · rw [setByte, if_neg (by omega), if_neg (by omega), if_neg (by omega), if_pos (by omega),
      hindex, List.getD_eq_getElem _ _ hi]
  · rw [setByte, if_neg (by omega), if_neg (by omega), if_neg (by omega), if_neg (by omega)]

/-- Every entry has a standard entry set. -/
theorem standardSet_setByte (hlen : e.name.length ≤ 255) (hfirst : e.firstCluster < 2 ^ 32)
    (hsize : e.size < 2 ^ 64)
    (hbuf : ∀ i < 32 * (2 + nameEntries e), buf (off + i) = setByte e i) :
    StandardSet buf off e where
  file := hbuf 0 (by omega)
  secondary := by
    have hbyte : buf (off + 1) = UInt8.ofNat (1 + nameEntries e) := hbuf 1 (by omega)
    rw [hbyte, UInt8.toNat_ofNat', Nat.mod_eq_of_lt (by rw [nameEntries]; omega)]
  attributes := hbuf 4 (by omega)
  stream := hbuf 32 (by omega)
  nameLen := by
    have hbyte : buf (off + 32 + 3) = UInt8.ofNat e.name.length := hbuf 35 (by omega)
    rw [hbyte, UInt8.toNat_ofNat', Nat.mod_eq_of_lt (by omega)]
  firstCluster := by
    rw [← Nat.mod_eq_of_lt hfirst]
    refine le32_le32Bytes fun i hi => ?_
    rw [show off + 32 + 20 + i = off + (52 + i) by omega, hbuf _ (by omega), setByte,
      if_neg (by omega), if_pos (by omega), show 52 + i - 32 = 20 + i by omega]
    exact getD_piece rfl hi
  size := by
    refine le64_le64Bytes hsize fun i hi => ?_
    rw [show off + 32 + 24 + i = off + (56 + i) by omega, hbuf _ (by omega), setByte,
      if_neg (by omega), if_pos (by omega), show 56 + i - 32 = 24 + i by omega,
      ← List.append_assoc]
    exact getD_behind rfl i
  nameEntry j hj := by
    rw [hbuf _ (by omega), setByte, if_neg (by omega), if_neg (by omega), if_pos (by omega)]
  unit i hi := by
    have hentry : i / 15 < nameEntries e := by
      rw [nameEntries]
      omega
    obtain ⟨hlow, hhigh⟩ := setByte_unit hi
    rw [le16, Nat.add_assoc, Nat.add_assoc off, Nat.add_assoc off, ← Nat.add_assoc (32 * _),
      hbuf _ (by omega), hbuf _ (by omega), hlow, hhigh]
    rfl

/-- An entry set of the image builder with a name is a standard one. -/
theorem standardSet_of_holdsSet (h : Populate.HoldsSet buf off e) (he : Populate.Encodable e)
    (hne : e.name ≠ []) : StandardSet buf off e := by
  have hshort := he.short
  have hpos := List.length_pos_of_ne_nil hne
  have hone : nameEntries e = 1 := by
    rw [nameEntries]
    omega
  refine ⟨h.file, ?_, h 4 (by omega), h.streamHead (i := 0) (by omega), ?_, h.firstCluster he,
    h.size he, fun j hj => ?_, fun i hi => ?_⟩
  · rw [h.secondary, hone]
    rfl
  · have hbyte : buf (off + 32 + 3) = UInt8.ofNat e.name.length := h.streamHead (i := 3) (by omega)
    rw [hbyte, UInt8.toNat_ofNat', Nat.mod_eq_of_lt (by omega)]
  · obtain rfl : j = 0 := by omega
    exact h.nameEntry (i := 0) (by omega)
  · have hunit := congrArg (·[i]?) (h.units he)
    rw [show i / 15 = 0 by omega, show i % 15 = i by omega]
    simpa [hi] using hunit

/-- A standard entry set is decoded as the entry it was made of, and whatever the cluster holds,
only bytes of it are read. `list_cluster` passes a number of sectors, a `uint8_t`, times 512. -/
theorem askEntrySet_standard :
    (∀ (buf : Buf) (bytes off : ℕ) (e : ExfatDirEntry), bytes < 2 ^ 32 → e.name.length ≤ 255 →
      (∀ c ∈ e.name, c.toNat < 128) → off + 32 * (2 + nameEntries e) ≤ bytes →
      StandardSet buf off e → ∀ fuel, 255 ≤ fuel →
        (askEntrySet fuel bytes off).run buf = some (some e))
      ∧ ∀ (buf : Buf) (sectorsPerCluster : UInt8) (off : ℕ), off < sectorsPerCluster.toNat * 512 →
        ∀ fuel, AsksOnly buf (· < sectorsPerCluster.toNat * 512)
          (askEntrySet fuel (sectorsPerCluster.toNat * 512) off) := by
  constructor
  · intro buf bytes off e hbytes hlen hascii hfits hset fuel hfuel
    exact hset.decodes hbytes hlen hascii hfits hfuel
  · intro buf sectorsPerCluster off hoff fuel
    have hlt := sectorsPerCluster.toNat_lt
    exact asksOnly_askEntrySet (by omega) fuel

theorem askEntrySet_standard_two_entries :
    (askEntrySet 255 512 32).run
        (fun i => setByte ⟨ascii "notes on booting", 0x20, 5, 700⟩ (i - 32))
        = some (some ⟨ascii "notes on booting", 0x20, 5, 700⟩)
      ∧ AsksOnly (fun i => setByte ⟨ascii "notes on booting", 0x20, 5, 700⟩ (i - 32)) (· < 512)
        (askEntrySet 300 512 511) := by
  refine ⟨askEntrySet_standard.1 _ 512 32 _ (by decide) (by decide)
    (by simp [ascii]) (by decide)
    (standardSet_setByte (by decide) (by decide) (by decide) fun i _ => ?_) 255 le_rfl,
    askEntrySet_standard.2 _ 1 511 (by decide) 300⟩
  rw [Nat.add_sub_cancel_left]

end RoundTrip

end Exfat

end PeanutKernel
