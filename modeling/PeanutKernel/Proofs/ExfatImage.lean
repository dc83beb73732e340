import PeanutKernel.PopulateExfat
import PeanutKernel.Proofs.Block
import Mathlib.Tactic.Ring
import Mathlib.Tactic.SplitIfs

/-!
# An image as a volume

One level above its bytes an exFAT image is a volume: for each cluster number an entry of the FAT
and the contents of the cluster (`Volume`). `Shows` says which volume an image shows. The writes the
builder makes to the FAT and to a cluster are an update of the volume at one cluster
(`Shows.writeU32`, `Shows.setSlice`), and what it reads is an entry or a byte of the volume.
-/

namespace PeanutKernel

namespace Populate

section Slices

/-- A slice assignment inside the image. -/
theorem setSlice_eq {im : Image} {off : ℕ} {l : List UInt8} (h : off + l.length ≤ im.size) :
    im.setSlice off l = ⟨im.size, storeBytes im.byte off l⟩ := by
  simp only [Image.setSlice, Nat.min_eq_left (by omega : off ≤ im.size), Nat.min_eq_left h,
    Image.mk.injEq]
  refine ⟨by omega, funext fun i => ?_⟩
  unfold storeBytes overlay
  split_ifs <;> first | rfl | omega | skip
  congr 1
  omega

theorem set_eq {im : Image} {i : ℕ} {b : UInt8} (h : i < im.size) :
    im.set i b = some (im.setSlice i [b]) := by
  rw [Image.set, if_pos h, setSlice_eq (by rw [List.length_singleton]; omega)]
  congr 2
  funext j
  by_cases hj : j = i
  · subst hj
    rw [Function.update_self, storeBytes, overlay, if_pos ⟨le_rfl, by simp⟩, Nat.sub_self]
    rfl
  · rw [Function.update_of_ne hj, storeBytes, overlay, if_neg]
    simp only [List.length_cons, List.length_nil]
    omega

theorem le32_le32Bytes {buf : Buf} {off v : ℕ}
    (h : ∀ i < 4, buf (off + i) = (le32Bytes v).getD i 0) : le32 buf off = v % 2 ^ 32 := by
  have h0 := h 0 (by omega)
  have h1 := h 1 (by omega)
  have h2 := h 2 (by omega)
  have h3 := h 3 (by omega)
  simp only [le32Bytes, le16Bytes, List.cons_append, List.nil_append, List.getD_cons_zero,
    List.getD_cons_succ, Nat.add_zero] at h0 h1 h2 h3
  rw [le32, h0, h1, h2, h3]
  simp only [UInt8.toNat_ofNat']
  omega

theorem length_le32Bytes (v : ℕ) : (le32Bytes v).length = 4 := rfl

end Slices

section Volumes

structure Volume where
  fat : ℕ → ℕ
  data : ℕ → Buf

/-- The volume with a new entry of the FAT. -/
def Volume.link (vol : Volume) (c val : ℕ) : Volume :=
  { vol with fat := Function.update vol.fat c val }

/-- The volume with `l` from `o` on in a cluster. -/
def Volume.store (vol : Volume) (c o : ℕ) (l : List UInt8) : Volume :=
  { vol with data := Function.update vol.data c (storeBytes (vol.data c) o l) }

@[simp]
theorem link_data (vol : Volume) (c val : ℕ) : (vol.link c val).data = vol.data := rfl

@[simp]
theorem store_fat (vol : Volume) (c o : ℕ) (l : List UInt8) : (vol.store c o l).fat = vol.fat := rfl

theorem link_fat_self (vol : Volume) (c val : ℕ) : (vol.link c val).fat c = val := by
  simp [Volume.link]

variable {c : ℕ}

theorem link_fat_of_ne (vol : Volume) {d : ℕ} (val : ℕ) (h : d ≠ c) :
    (vol.link c val).fat d = vol.fat d := by
  simp [Volume.link, h]

theorem store_data_self (vol : Volume) (c o : ℕ) (l : List UInt8) :
    (vol.store c o l).data c = storeBytes (vol.data c) o l := by
  simp [Volume.store]

theorem store_data_of_ne (vol : Volume) {d : ℕ} (o : ℕ) (l : List UInt8) (h : d ≠ c) :
    (vol.store c o l).data d = vol.data d := by
  simp [Volume.store, h]

/-- The cluster numbers of the volume. -/
def Layout.Has (lay : Layout) (c : ℕ) : Prop := 2 ≤ c ∧ c < lay.clusterCount + 2

/-- The boot sector, the FAT and the clusters follow each other in an image of `size` bytes. -/
structure Layout.Fits (lay : Layout) (size : ℕ) : Prop where
  spc : 0 < lay.spc
  boot : 512 ≤ lay.fatOff
  table : lay.fatOff + 4 * (lay.clusterCount + 2) ≤ 512 * lay.heapLba
  heap : 512 * (lay.heapLba + lay.clusterCount * lay.spc) ≤ size

/-- The image shows a volume: its boot sector is `boot`, and the FAT and the clusters are those of
the volume. -/
structure Shows (lay : Layout) (boot : Buf) (im : Image) (vol : Volume) : Prop where
  fits : lay.Fits im.size
  boot : ∀ i < 512, im.byte i = boot i
  fat : ∀ c, lay.Has c → le32 im.byte (lay.fatOff + c * 4) = vol.fat c
  data : ∀ c, lay.Has c →
    vol.data c = fun r => if r < clusterBytes lay then im.byte (clusterOff lay c + r) else 0

variable {lay : Layout} {boot : Buf} {im : Image} {vol : Volume}

theorem clusterBytes_pos {size : ℕ} (h : lay.Fits size) : 0 < clusterBytes lay := by
  have := h.spc
  unfold clusterBytes
  omega

theorem clusterOff_eq (lay : Layout) (c : ℕ) :
    clusterOff lay c = 512 * lay.heapLba + (c - 2) * clusterBytes lay := by
  unfold clusterOff clusterBytes
  ring

theorem Layout.Fits.clusterOff_le {size : ℕ} (h : lay.Fits size) (hc : lay.Has c) :
    clusterOff lay c + clusterBytes lay ≤ size := by
  have hheap := h.heap
  have hmul : (c - 2 + 1) * clusterBytes lay ≤ lay.clusterCount * clusterBytes lay :=
    Nat.mul_le_mul_right _ (by have := hc.1; have := hc.2; omega)
  rw [Nat.succ_mul] at hmul
  rw [clusterOff_eq]
  have hcb : lay.clusterCount * clusterBytes lay = 512 * (lay.clusterCount * lay.spc) := by
    unfold clusterBytes
    ring
  omega

/-- Places in different clusters are different. -/
theorem clusterOff_inj {d r s : ℕ} (hc : lay.Has c) (hd : lay.Has d) (hr : r < clusterBytes lay)
    (hs : s < clusterBytes lay) (h : clusterOff lay c + r = clusterOff lay d + s) : c = d := by
  rw [clusterOff_eq, clusterOff_eq] at h
  have hdiv : ∀ k t, t < clusterBytes lay →
      (k * clusterBytes lay + t) / clusterBytes lay = k := by
    intro k t ht
    rw [Nat.add_comm, Nat.add_mul_div_right _ _ (by omega), Nat.div_eq_of_lt ht, Nat.zero_add]
  have heq : (c - 2) * clusterBytes lay + r = (d - 2) * clusterBytes lay + s := by omega
  have h1 := hdiv (c - 2) r hr
  rw [heq, hdiv (d - 2) s hs] at h1
  have := hc.1
  have := hd.1
  omega

variable (h : Shows lay boot im vol) (hc : lay.Has c)

include h hc

theorem Shows.readU32 : readU32 im (lay.fatOff + c * 4) = some (vol.fat c) := by
  have htable := h.fits.table
  have hheap := h.fits.heap
  have := hc.2
  rw [Populate.readU32, if_pos (by omega), h.fat c hc]

theorem Shows.get {r : ℕ} (hr : r < clusterBytes lay) :
    im.get (clusterOff lay c + r) = some (vol.data c r) := by
  have hle := h.fits.clusterOff_le hc
  rw [Image.get, if_pos (by omega), h.data c hc]
  simp only [if_pos hr]

theorem Shows.writeU32 {val : ℕ} {im' : Image}
    (hw : writeU32 im (lay.fatOff + c * 4) val = some im') :
    Shows lay boot im' (vol.link c val) := by
  have hboot := h.fits.boot
  have htable := h.fits.table
  have hheap := h.fits.heap
  have hcount := hc.2
  unfold Populate.writeU32 at hw
  split_ifs at hw with hval
  rw [setSlice_eq (by rw [length_le32Bytes]; omega), Option.some_inj] at hw
  subst hw
  have hoff : ∀ a, a < lay.fatOff + c * 4 ∨ lay.fatOff + c * 4 + 4 ≤ a →
      storeBytes im.byte (lay.fatOff + c * 4) (le32Bytes val) a = im.byte a := by
    intro a ha
    apply storeBytes_of_not_mem
    rw [length_le32Bytes]
    omega
  refine ⟨h.fits, fun i hi => ?_, fun d hd => ?_, fun d hd => ?_⟩
  · rw [← h.boot i hi]
    exact hoff i (by omega)
  · by_cases hdc : d = c
    · subst hdc
      rw [link_fat_self]
      have hle := le32_le32Bytes fun i hi => storeBytes_of_mem im.byte (lay.fatOff + d * 4)
        (l := le32Bytes val) hi
      rwa [Nat.mod_eq_of_lt hval.2] at hle
    · rw [link_fat_of_ne _ _ hdc, ← h.fat d hd]
      simp only [le32]
      rw [hoff _ (by omega), hoff _ (by omega), hoff _ (by omega), hoff _ (by omega)]
  · rw [link_data, h.data d hd]
    funext r
    split_ifs with hr
    · exact (hoff _ (by rw [clusterOff_eq]; omega)).symm
    · rfl

theorem Shows.setSlice {o : ℕ} {l : List UInt8} (ho : o + l.length ≤ clusterBytes lay) :
    Shows lay boot (im.setSlice (clusterOff lay c + o) l) (vol.store c o l) := by
  have hboot := h.fits.boot
  have htable := h.fits.table
  have hle := h.fits.clusterOff_le hc
  have hoff : 512 * lay.heapLba ≤ clusterOff lay c := by
    rw [clusterOff_eq]
    omega
  rw [setSlice_eq (by omega)]
  have hlow : ∀ a < 512 * lay.heapLba,
      storeBytes im.byte (clusterOff lay c + o) l a = im.byte a := fun a ha =>
    storeBytes_of_not_mem _ (by omega)
  refine ⟨h.fits, fun i hi => ?_, fun d hd => ?_, fun d hd => ?_⟩
  · rw [← h.boot i hi]
    exact hlow i (by omega)
  · have := hd.2
    rw [store_fat, ← h.fat d hd]
    simp only [le32]
    rw [hlow _ (by omega), hlow _ (by omega), hlow _ (by omega), hlow _ (by omega)]
  · funext r
    by_cases hr : r < clusterBytes lay
    · simp only [if_pos hr]
      by_cases hdc : d = c
      · subst hdc
        rw [store_data_self]
        unfold storeBytes overlay
        rw [h.data d hd]
        simp only [if_pos hr]
        split_ifs <;> first | rfl | omega | skip
        congr 1
        omega
      · rw [store_data_of_ne _ _ _ hdc, h.data d hd]
        simp only [if_pos hr]
        refine (storeBytes_of_not_mem _ fun hin => hdc ?_).symm
        exact clusterOff_inj hd hc hr (by omega : r + clusterOff lay d - clusterOff lay c < _)
          (by omega)
    · simp only [if_neg hr]
      by_cases hdc : d = c
      · subst hdc
        rw [store_data_self, storeBytes_of_not_mem _ (by omega), h.data d hd]
        simp only [if_neg hr]
      · rw [store_data_of_ne _ _ _ hdc, h.data d hd]
        simp only [if_neg hr]

end Volumes

end Populate

end PeanutKernel
