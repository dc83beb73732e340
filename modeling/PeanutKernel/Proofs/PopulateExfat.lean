import PeanutKernel.Proofs.Populate

/-!
# The kernel reads what the builder wrote

The kernel mounts the populated image as it mounted the formatted one, since the boot sector is the
same. Its clusters are those of the volume the image shows, but not all of them: `cluster_first_lba`
takes `cluster_count` for the last cluster number, and the last cluster is `cluster_count + 1`. The
builder uses that one too. So the files read back if and only if neither the root directory nor an
allocation of the builder reaches the last cluster (`populate_agrees`).
-/

namespace PeanutKernel

namespace Populate

open Exfat

/-- The disk whose contents the image is. -/
def Image.disk (im : Image) : Medium :=
  ⟨fun a => if a < im.size then im.byte a else 0, fun _ => false⟩

theorem disk_good (im : Image) : im.disk.Good := fun _ => rfl

theorem disk_byte {im : Image} {a : ℕ} (h : a < im.size) : im.disk.byte a = im.byte a := if_pos h

variable {lay : Layout} {boot : Buf} {im im' image : Image} {vol vol' : Volume} {v : ExfatVolume}
  {part : Partition}

section Mount

/-- `v` is how the kernel mounts a volume of the layout. -/
structure Mounted (v : ExfatVolume) (lay : Layout) : Prop where
  fat : 512 * v.fatStartLba = lay.fatOff
  heap : v.clusterHeapLba = lay.heapLba
  count : v.clusterCount = lay.clusterCount
  spc : v.sectorsPerCluster = lay.spc

theorem read_boot (hsize : 512 ≤ im.size) :
    im.disk.read ⟨0, 1⟩ = some fun i => if i < 512 then im.byte i else 0 := by
  rw [(disk_good im).read]
  congr 1
  funext i
  simp only [Nat.mul_one, Nat.mul_zero, Nat.zero_add]
  split_ifs
  · exact disk_byte (by omega)
  · rfl

theorem exfatMount_disk (hpart : part.firstLba = 0) (hsize : 512 ≤ im.size) :
    (exfatMount part).run im.disk.read
      = some (if hasSignature (fun i => if i < 512 then im.byte i else 0)
        then mountBoot part (fun i => if i < 512 then im.byte i else 0) else none) :=
  exfatMount_run part (by rw [hpart]; exact read_boot hsize)

theorem mounted (hpart : part.firstLba = 0) (hsize : 512 ≤ image.size)
    (h : (exfatMount part).run image.disk.read = some (some v)) :
    Mounted v (layoutOf image) ∧ v.rootCluster = rootOf image := by
  rw [exfatMount_disk hpart hsize, Option.some_inj] at h
  split_ifs at h
  obtain ⟨hfat, hheap, hroot, hcount, hspc⟩ := mountBoot_some h
  have hle : ∀ a, a + 3 < 512 →
      le32 (fun i => if i < 512 then image.byte i else 0) a = le32 image.byte a := by
    intro a ha
    simp only [le32]
    rw [if_pos (by omega), if_pos (by omega), if_pos (by omega), if_pos (by omega)]
  rw [hpart, Nat.zero_add, hle _ (by omega), Nat.mod_eq_of_lt (le32_lt _ _)] at hfat hheap
  rw [hle _ (by omega)] at hroot hcount
  refine ⟨⟨?_, hheap, hcount, hspc⟩, hroot⟩
  rw [hfat, Nat.mul_comm]
  rfl

end Mount

section Clusters

/-- The clusters the kernel reaches: those up to number `cluster_count` whose first sector has a
32-bit number. -/
def Layout.Reaches (lay : Layout) (c : ℕ) : Prop :=
  2 ≤ c ∧ c ≤ lay.clusterCount ∧ lay.heapLba + (c - 2) * lay.spc < 2 ^ 32

instance (lay : Layout) (c : ℕ) : Decidable (lay.Reaches c) := by
  unfold Layout.Reaches
  infer_instance

variable {c : ℕ}

theorem Layout.Reaches.has (h : lay.Reaches c) : lay.Has c := ⟨h.1, by have := h.2.1; omega⟩

variable {size : ℕ}

theorem Layout.Reaches.lt (h : lay.Reaches c) (hfits : lay.Fits size) : c < 0xFFFFFFF8 := by
  have hspc := hfits.spc
  have hboot := hfits.boot
  have htable := hfits.table
  have hle : c - 2 ≤ (c - 2) * lay.spc := Nat.le_mul_of_pos_right _ hspc
  obtain ⟨h2, hcount, hend⟩ := h
  omega

section

variable (hv : Mounted v lay)

include hv

theorem Mounted.lba (hfits : lay.Fits size) (hc : lay.Reaches c) :
    v.clusters.lba c = some (lay.heapLba + (c - 2) * lay.spc) := by
  have hspc := hfits.spc
  have hboot := hfits.boot
  have htable := hfits.table
  obtain ⟨h2, hcount, hend⟩ := hc
  have hfirst : clusterFirstLba v c = lay.heapLba + (c - 2) * lay.spc := by
    rw [clusterFirstLba, hv.count, hv.heap, hv.spc, if_neg (by omega), Nat.mod_eq_of_lt (by omega)]
  simp only [ExfatVolume.clusters, hfirst]
  rw [if_neg (by omega)]

theorem Mounted.lba_none (hc : lay.clusterCount < c) : v.clusters.lba c = none := by
  have hfirst : clusterFirstLba v c = 0 := if_pos (.inr (hv.count ▸ hc))
  simp [ExfatVolume.clusters, hfirst]

theorem Mounted.usable (hfits : lay.Fits size) (hc : lay.Reaches c) : v.clusters.Usable c := by
  have hlt := hc.lt hfits
  refine ⟨enters_iff.2 ⟨hc.1, ?_⟩, ?_⟩
  · rw [exfatEoc]
    omega
  · rw [hv.lba hfits hc]
    rfl

theorem Mounted.clusterBytes : v.clusters.clusterBytes = Populate.clusterBytes lay := by
  rw [ClusterMap.clusterBytes, Populate.clusterBytes, ← hv.spc, Nat.mul_comm]
  rfl

theorem Mounted.base (hfits : lay.Fits size) (hc : lay.Reaches c) :
    v.clusters.base c = clusterOff lay c := by
  rw [ClusterMap.base, hv.lba hfits hc, Option.getD_some, clusterOff, Nat.mul_comm]

end

variable (h : Shows lay boot im vol) (hv : Mounted v lay)

include h hv

/-- A byte of a cluster the kernel reaches. -/
theorem Shows.disk_byte (hc : lay.Reaches c) {r : ℕ} (hr : r < Populate.clusterBytes lay) :
    im.disk.byte (v.clusters.base c + r) = vol.data c r := by
  have hle := h.fits.clusterOff_le hc.has
  rw [hv.base h.fits hc, Populate.disk_byte (by omega), h.data c hc.has]
  simp only [if_pos hr]

theorem Shows.clusterBuf (hc : lay.Reaches c) : v.clusters.clusterBuf im.disk c = vol.data c := by
  funext r
  rw [ClusterMap.clusterBuf, hv.clusterBytes]
  split_ifs with hr
  · exact h.disk_byte hv hc hr
  · rw [h.data c hc.has]
    simp only [if_neg hr]

theorem Shows.nextAt (hc : lay.Has c) :
    v.clusters.nextAt im.disk c = if 0xFFFFFFF8 ≤ vol.fat c then exfatEoc else vol.fat c := by
  have htable := h.fits.table
  have hheap := h.fits.heap
  have hcount := hc.2
  have hfat := hv.fat
  have hread : (blockRead (v.fatStartLba + c * 4 / 512) 1).run im.disk.read = some (some _) :=
    (disk_good im).blockRead Nat.one_ne_zero
  have hentry : le32 (fun i => if i < 512 * 1 then
      im.disk.byte (512 * (v.fatStartLba + c * 4 / 512) + i) else 0) (c * 4 % 512) = vol.fat c := by
    have haddr : ∀ k < 4, 512 * (v.fatStartLba + c * 4 / 512) + (c * 4 % 512 + k)
        = lay.fatOff + c * 4 + k := by omega
    rw [← h.fat c hc]
    simp only [le32]
    rw [if_pos (by omega), if_pos (by omega), if_pos (by omega), if_pos (by omega),
      haddr 1 (by omega), haddr 2 (by omega), haddr 3 (by omega), ← Nat.add_zero (c * 4 % 512),
      haddr 0 (by omega), Populate.disk_byte (by omega), Populate.disk_byte (by omega),
      Populate.disk_byte (by omega), Populate.disk_byte (by omega)]
    rfl
  simp only [ClusterMap.nextAt, ExfatVolume.clusters, nextCluster, Query.run_bind, hread,
    Option.bind_some, Query.run_pure, hentry, Option.getD_some]

end Clusters

section Files

variable {l : List ℕ} {data : List UInt8}

theorem HoldsFile.chainAt (h : HoldsFile lay vol l data) (hshows : Shows lay boot im vol)
    (hv : Mounted v lay) (hl : ∀ c ∈ l, lay.Reaches c) :
    ∀ k (hk : k < l.length), v.clusters.chainAt im.disk (l.headD 0) k = l[k]
  | 0, hk => by
    rw [ClusterMap.chainAt, List.headD_eq_head?_getD, List.head?_eq_getElem?]
    simp [hk]
  | k + 1, hk => by
    have hk' : k < l.length := by omega
    have hmem := hl _ (List.getElem_mem hk)
    have hlt := hmem.lt hshows.fits
    have hfat : vol.fat l[k] = l[k + 1] := by
      rw [h.linked k hk', List.getD_eq_getElem _ _ hk]
    rw [ClusterMap.chainAt, h.chainAt hshows hv hl k hk',
      hshows.nextAt hv (hl _ (List.getElem_mem hk')).has, hfat, if_neg (by omega)]

/-- The kernel reads a file the volume holds in clusters it reaches. -/
theorem HoldsFile.readChain (h : HoldsFile lay vol l data) (hshows : Shows lay boot im vol)
    (hv : Mounted v lay) (hl : ∀ c ∈ l, lay.Reaches c) :
    (v.clusters.readChain data.length data.length (l.headD 0)).run im.disk.read
      = some (some data) := by
  have hspc : 0 < v.sectorsPerCluster := by
    rw [hv.spc]
    exact hshows.fits.spc
  have hcb := clusterBytes_pos hshows.fits
  have hroom := h.room
  have hindex : ∀ k, k * Populate.clusterBytes lay < data.length → k < l.length := fun k hk =>
    Nat.lt_of_mul_lt_mul_right (hk.trans_le hroom)
  rw [ClusterMap.readChain_of_chain (clusters_sound hspc) (disk_good im) _ _ _ le_rfl
    fun k hk => ?_]
  · congr 2
    refine List.ext_getElem (length_stored _ _ _) fun i hi hi' => ?_
    have hdiv := Nat.div_add_mod' i (Populate.clusterBytes lay)
    have hmod := Nat.mod_lt i hcb
    have hk := hindex (i / Populate.clusterBytes lay) (by omega)
    rw [getElem_stored, ClusterMap.filePlace, pieced, hv.clusterBytes,
      h.chainAt hshows hv hl _ hk, hshows.disk_byte hv (hl _ (List.getElem_mem hk)) hmod,
      h.bytes _ hk _ hmod, hdiv, List.getD_eq_getElem _ _ hi']
  · rw [hv.clusterBytes] at hk
    rw [h.chainAt hshows hv hl k (hindex k hk)]
    exact hv.usable hshows.fits (hl _ (List.getElem_mem _))

end Files

section Lookup

variable {c root p sbin etc dev passwdFirst fstabFirst fuel : ℕ} {rest inits : List ℕ}
  {init name : List UInt8} {es : List ExfatDirEntry} {e : ExfatDirEntry}

/-- The chain of a directory in the FAT. -/
def DirChain (vol : Volume) : ℕ → List ℕ → Prop
  | c, [] => 0xFFFFFFF8 ≤ vol.fat c
  | c, d :: rest => vol.fat c = d ∧ DirChain vol d rest

theorem DirChain.congr : ∀ {rest : List ℕ} {c : ℕ}, DirChain vol c rest →
    (∀ d ∈ c :: rest, vol'.fat d = vol.fat d) → DirChain vol' c rest
  | [], _, h, hfat => by
    rw [DirChain, hfat _ List.mem_cons_self]
    exact h
  | _ :: _, _, h, hfat =>
    ⟨(hfat _ List.mem_cons_self).trans h.1,
      h.2.congr fun d hd => hfat d (List.mem_cons_of_mem _ hd)⟩

theorem DirChain.ne_zero : ∀ {rest : List ℕ} {c : ℕ}, DirChain vol c rest →
    (∀ d ∈ rest, lay.Has d) → ∀ d ∈ c :: rest, vol.fat d ≠ 0
  | [], c, h, _, d, hd => by
    obtain rfl : d = c := by simpa using hd
    rw [DirChain] at h
    omega
  | d' :: rest, c, h, hhas, d, hd => by
    rcases List.mem_cons.1 hd with rfl | hd
    · have := (hhas d' List.mem_cons_self).1
      rw [h.1]
      omega
    · exact h.2.ne_zero (fun d hd => hhas d (List.mem_cons_of_mem _ hd)) d hd

theorem Shows.ends (h : Shows lay boot im vol) (hv : Mounted v lay) :
    ∀ (rest : List ℕ) (c : ℕ), (∀ d ∈ c :: rest, lay.Has d) → DirChain vol c rest →
      ∃ rest', rest'.length ≤ rest.length ∧ Ends v im.disk c rest'
  | [], c, hhas, hchain => by
    refine ⟨[], le_rfl, ?_⟩
    rw [Ends, h.nextAt hv (hhas c List.mem_cons_self), if_pos (by exact hchain)]
    rfl
  | d :: rest, c, hhas, hchain => by
    have hnext := h.nextAt hv (hhas c List.mem_cons_self)
    rw [hchain.1] at hnext
    split_ifs at hnext
    · exact ⟨[], Nat.zero_le _, by rw [Ends, hnext]; rfl⟩
    · obtain ⟨rest', hle, hends⟩ :=
        h.ends hv rest d (fun d hd => hhas d (List.mem_cons_of_mem _ hd)) hchain.2
      exact ⟨d :: rest', by simpa using hle, hnext, hends⟩

/-- The kernel finds an entry of a directory it reaches. -/
theorem DirBytes.find (hdir : DirBytes (vol.data c) (clusterBytes lay) p es)
    (h : Shows lay boot im vol) (hv : Mounted v lay) (hc : lay.Reaches c)
    (hends : Ends v im.disk c rest) (hfuel : rest.length + 2 ≤ fuel) (hlen : es.length < 64)
    (hfind : es.find? (fun e => streqCi e.name name) = some e) :
    (findInClusterChain fuel v c name).run im.disk.read = some (some e) := by
  have hspc : 0 < v.sectorsPerCluster := by
    rw [hv.spc]
    exact h.fits.spc
  have hholds := hdir.dirHolds
  rw [← h.clusterBuf hv hc, clusterBytes, ← hv.spc] at hholds
  obtain ⟨more, hlist⟩ := listCluster_dir (disk_good im) hspc (hv.usable h.fits hc) hholds hlen
    hends hfuel
  exact findInClusterChain_run hlist hfind

theorem HoldsDir.find (hdir : HoldsDir lay vol c es) (h : Shows lay boot im vol)
    (hv : Mounted v lay) (hc : lay.Reaches c) (hfuel : 2 ≤ fuel) (hlen : es.length < 64)
    (hfind : es.find? (fun e => streqCi e.name name) = some e) :
    (findInClusterChain fuel v c name).run im.disk.read = some (some e) := by
  have hends : Ends v im.disk c [] := by
    rw [Ends, h.nextAt hv hc.has, hdir.last]
    rfl
  exact hdir.dir.find h hv hc hends hfuel hlen hfind

variable (h : Shows lay boot im vol) (hv : Mounted v lay)
  (hpop : Populated lay vol v.rootCluster p sbin etc dev inits passwdFirst fstabFirst init)
  (hroot : lay.Reaches v.rootCluster) (hends : Ends v im.disk v.rootCluster rest)
  (hfuel : rest.length + 2 ≤ fuel)
include h hv hpop hroot hends hfuel

theorem find_init :
    (exfatFindRoot fuel v (ascii "INIT")).run im.disk.read
      = some (some (fileEntry "INIT" (inits.headD 0) init.length)) :=
  findComponents_last (by decide)
    (hpop.root.find h hv hroot hends hfuel (by simp [rootDirs]) rfl)

/-- A file in one of the directories of the root. -/
theorem find_below {dirName : List UInt8} (hdir : HoldsDir lay vol c es) (hc : lay.Reaches c)
    (hname : name.length < maxName) (hdirName : dirName.length < maxName)
    (hfindDir : ((rootDirs sbin etc dev).map dirEntry
      ++ [fileEntry "INIT" (inits.headD 0) init.length]).find? (fun e => streqCi e.name dirName)
        = some (dirEntry (dirName, c)))
    (hlen : es.length < 64) (hfind : es.find? (fun e => streqCi e.name name) = some e) :
    (findComponents fuel v v.rootCluster [dirName, name]).run im.disk.read = some (some e) := by
  have hfirst := hpop.root.find h hv hroot hends hfuel (by simp [rootDirs]) hfindDir
  have hdirectory : (dirEntry (dirName, c)).attributes &&& attrDirectory ≠ 0 := by
    simp only [dirEntry]
    decide
  rw [findComponents_dir hdirName hfirst hdirectory (List.cons_ne_nil _ _)]
  exact findComponents_last hname (hdir.find h hv hc (by omega) hlen hfind)

theorem find_sbin_init (hsbin : lay.Reaches sbin) :
    (exfatFindRoot fuel v (ascii "SBIN/INIT")).run im.disk.read
      = some (some (fileEntry "INIT" (inits.headD 0) init.length)) :=
  find_below h hv hpop hroot hends hfuel hpop.sbin hsbin (by decide) (by decide) rfl (by simp) rfl

theorem find_etc_passwd (hetc : lay.Reaches etc) :
    (exfatFindRoot fuel v (ascii "ETC/PASSWD")).run im.disk.read
      = some (some (fileEntry "PASSWD" passwdFirst passwd.length)) :=
  find_below h hv hpop hroot hends hfuel hpop.etc hetc (by decide) (by decide) rfl (by simp) rfl

theorem find_etc_fstab (hetc : lay.Reaches etc) :
    (exfatFindRoot fuel v (ascii "ETC/FSTAB")).run im.disk.read
      = some (some (fileEntry "FSTAB" fstabFirst fstab.length)) :=
  find_below h hv hpop hroot hends hfuel hpop.etc hetc (by decide) (by decide) rfl (by simp) rfl

end Lookup

section Agreement

/-- The volume an image shows. -/
def Image.volume (im : Image) (lay : Layout) : Volume where
  fat c := le32 im.byte (lay.fatOff + c * 4)
  data c r := if r < clusterBytes lay then im.byte (clusterOff lay c + r) else 0

theorem volume_shows (hfits : lay.Fits im.size) : Shows lay im.byte im (im.volume lay) :=
  ⟨hfits, fun _ _ => rfl, fun _ _ => rfl, fun _ _ => rfl⟩

/-- An image as it is after formatting: its parts follow each other, and the root directory is a
chain in the FAT without entry sets in its first cluster. -/
structure Formatted (image : Image) : Prop where
  fits : (layoutOf image).Fits image.size
  root : ∃ rest, (∀ c ∈ rootOf image :: rest, (layoutOf image).Has c) ∧
    DirChain (image.volume (layoutOf image)) (rootOf image) rest
  empty : ∀ i, 32 * i < clusterBytes (layoutOf image) →
    image.byte (clusterOff (layoutOf image) (rootOf image) + 32 * i) ≠ entryFile

/-- `exfat_read_file` returns `data` for a path on the image; `buffer_size` has 32 bits, and a
directory chain may need any number of rounds. -/
def Returns (part : Partition) (im : Image) (path data : List UInt8) : Prop :=
  data.length < 2 ^ 32 ∧ ∃ v, (exfatMount part).run im.disk.read = some (some v) ∧
    ∃ n, ∀ fuel ≥ n, ∀ bufferSize ≥ data.length,
      (exfatReadFile fuel v path bufferSize).run im.disk.read = some (some data)

/-- The kernel reads the files of the builder as the builder meant them. -/
structure Agrees (part : Partition) (im : Image) (init : List UInt8) : Prop where
  sbinInit : Returns part im (ascii "SBIN/INIT") init
  init : Returns part im (ascii "INIT") init
  passwd : Returns part im (ascii "ETC/PASSWD") passwd
  fstab : Returns part im (ascii "ETC/FSTAB") fstab

/-- The clusters the builder is going to take: three directories, those of the payload and one for
each text. -/
def taken (image : Image) (init : List UInt8) : List ℕ :=
  (freeClusters (layoutOf image) (image.volume (layoutOf image)) [rootOf image]).take
    (clustersNeeded (layoutOf image) init.length + 5)

/-- The kernel reaches the root directory and all clusters the builder is going to take. -/
def InReach (image : Image) (init : List UInt8) : Prop :=
  init.length < 2 ^ 32 ∧ ∀ c ∈ rootOf image :: taken image init, (layoutOf image).Reaches c

variable {init : List UInt8}

theorem mem_taken {c : ℕ} (h : c ∈ taken image init) :
    (layoutOf image).Has c ∧ (image.volume (layoutOf image)).fat c = 0 :=
  have hfree := mem_freeClusters.1 (List.mem_of_mem_take h)
  ⟨hfree.1, hfree.2.2⟩

theorem taken_sorted (image : Image) (init : List UInt8) : (taken image init).Pairwise (· < ·) :=
  ((List.pairwise_lt_range' 1).filter _).take

theorem returns_of_find (hmount : (exfatMount part).run im.disk.read = some (some v))
    {boot : Buf} {vol : Volume} {lay : Layout} (h : Shows lay boot im vol) (hv : Mounted v lay)
    {name : String} {l : List ℕ} {path data : List UInt8} {n : ℕ}
    (hfile : HoldsFile lay vol l data) (hl : ∀ c ∈ l, lay.Reaches c) (hdata : data.length < 2 ^ 32)
    (hfind : ∀ fuel ≥ n, (exfatFindRoot fuel v path).run im.disk.read
      = some (some (fileEntry name (l.headD 0) data.length))) : Returns part im path data :=
  ⟨hdata, v, hmount, n, fun fuel hfuel bufferSize hbuf =>
    exfatReadFile_run (hfind fuel hfuel) (by simp only [fileEntry]; decide) rfl
      (hfile.readChain h hv hl) hbuf⟩

/-- If cluster number `cluster_count` starts below sector `2 ^ 32`, the kernel reaches all clusters
but the last. -/
theorem reaches_of_le {lay : Layout} {c : ℕ}
    (hend : lay.heapLba + (lay.clusterCount - 2) * lay.spc < 2 ^ 32) (hc : 2 ≤ c)
    (hle : c ≤ lay.clusterCount) : lay.Reaches c := by
  have hmul : (c - 2) * lay.spc ≤ (lay.clusterCount - 2) * lay.spc :=
    Nat.mul_le_mul_right _ (by omega)
  exact ⟨hc, hle, by omega⟩

theorem findRoot_lba_none {fuel : ℕ} (h : v.clusters.lba v.rootCluster = none) :
    (exfatFindRoot (fuel + 1) v (ascii "ETC/FSTAB")).run im.disk.read = some none := by
  have hlist : (listCluster v 64 (fuel + 1) v.rootCluster []).run im.disk.read = some [] :=
    listCluster_lba_none h
  have hcomponents : components (ascii "ETC/FSTAB") = [ascii "ETC", ascii "FSTAB"] := by decide
  rw [exfatFindRoot, hcomponents, findComponents, if_neg (by decide)]
  simp only [findInClusterChain, Query.run_bind, hlist, Option.bind_some]
  rfl

section

variable (hpart : part.firstLba = 0)
  (hmount : (exfatMount part).run image.disk.read = some (some v)) (hformat : Formatted image)
  (hp : populate image init = some im')
include hpart hmount hformat hp

/-- What the kernel sees of the populated image. -/
theorem populated_disk :
    ∃ boot vol p sbin etc dev inits passwdFirst fstabFirst rest,
      (exfatMount part).run im'.disk.read = some (some v) ∧ Mounted v (layoutOf image) ∧
      v.rootCluster = rootOf image ∧
      taken image init = sbin :: etc :: dev :: (inits ++ [passwdFirst, fstabFirst]) ∧
      Shows (layoutOf image) boot im' vol ∧ Ends v im'.disk v.rootCluster rest ∧
      Populated (layoutOf image) vol v.rootCluster p sbin etc dev inits passwdFirst fstabFirst
        init := by
  set lay := layoutOf image
  have hsize : ∀ im : Image, lay.Fits im.size → 512 ≤ im.size := by
    intro im hfits
    have hboot := hfits.boot
    have htable := hfits.table
    have hheap := hfits.heap
    omega
  obtain ⟨hv, hroot⟩ := mounted hpart (hsize image hformat.fits) hmount
  obtain ⟨rest, hhas, hchain⟩ := hformat.root
  have hshows := volume_shows hformat.fits
  have hcb : 32 ∣ clusterBytes lay := by
    unfold clusterBytes
    omega
  obtain ⟨p, hdir⟩ :
      ∃ p, DirBytes ((image.volume lay).data (rootOf image)) (clusterBytes lay) p [] := by
    refine exists_dirBytes_nil hcb fun i hi => ?_
    simp only [Image.volume, if_pos hi]
    exact hformat.empty i hi
  obtain ⟨sbin, etc, dev, inits, passwdFirst, fstabFirst, others, vol, hfree, hlen, hshows', hkeep,
    hfat, hpop⟩ := populate_spec hshows (hhas _ List.mem_cons_self) hdir hp
  have htaken : taken image init = sbin :: etc :: dev :: (inits ++ [passwdFirst, fstabFirst]) := by
    rw [taken, hfree, ← hlen]
    simp [List.take_length_add_append]
  -- the chain of the root is as it was
  have hchain' : DirChain vol (rootOf image) rest := by
    refine hchain.congr fun d hd => ?_
    by_cases hd' : d = rootOf image
    · rw [hd', hfat]
    · refine (hkeep d fun hmem => ?_).1
      rw [← htaken] at hmem
      exact hchain.ne_zero (fun c hc => hhas c (List.mem_cons_of_mem _ hc)) d hd
        (mem_taken ((List.mem_cons.1 hmem).resolve_left hd')).2
  obtain ⟨rest', -, hends⟩ := hshows'.ends hv rest _ hhas hchain'
  refine ⟨image.byte, vol, p, sbin, etc, dev, inits, passwdFirst, fstabFirst, rest', ?_, hv, hroot,
    htaken, hshows', hroot ▸ hends, hroot ▸ hpop⟩
  have hboot : (fun i => if i < 512 then im'.byte i else 0)
      = fun i => if i < 512 then image.byte i else 0 := by
    funext i
    split_ifs with hi
    · exact hshows'.boot i hi
    · rfl
  rw [← hmount, exfatMount_disk hpart (hsize image hformat.fits),
    exfatMount_disk hpart (hsize im' hshows'.fits), hboot]

theorem agrees_of_inReach (hreach : InReach image init) : Agrees part im' init := by
  obtain ⟨boot, vol, p, sbin, etc, dev, inits, passwdFirst, fstabFirst, rest, hmount', hv, hroot,
    htaken, h, hends, hpop⟩ := populated_disk hpart hmount hformat hp
  obtain ⟨hinit, hreach⟩ := hreach
  rw [htaken, ← hroot] at hreach
  have hrootReach := hreach _ List.mem_cons_self
  have hsbin := hreach sbin (by simp)
  have hetc := hreach etc (by simp)
  have hinits : ∀ c ∈ inits, (layoutOf image).Reaches c := fun c hc => hreach c (by simp [hc])
  refine ⟨?_, ?_, ?_, ?_⟩
  · exact returns_of_find hmount' h hv hpop.init hinits hinit fun fuel hfuel =>
      find_sbin_init h hv hpop hrootReach hends hfuel hsbin
  · exact returns_of_find hmount' h hv hpop.init hinits hinit fun fuel hfuel =>
      find_init h hv hpop hrootReach hends hfuel
  · exact returns_of_find hmount' h hv hpop.passwd (by simpa using hreach passwdFirst (by simp))
      (by rw [length_passwd]; decide) fun fuel hfuel =>
        find_etc_passwd h hv hpop hrootReach hends hfuel hetc
  · exact returns_of_find hmount' h hv hpop.fstab (by simpa using hreach fstabFirst (by simp))
      (by rw [length_fstab]; decide) fun fuel hfuel =>
        find_etc_fstab h hv hpop hrootReach hends hfuel hetc

theorem inReach_of_agrees
    (hend : (layoutOf image).heapLba + ((layoutOf image).clusterCount - 2) * (layoutOf image).spc
      < 2 ^ 32) (hagrees : Agrees part im' init) : InReach image init := by
  obtain ⟨boot, vol, p, sbin, etc, dev, inits, passwdFirst, fstabFirst, rest, hmount', hv, hroot,
    htaken, h, hends, hpop⟩ := populated_disk hpart hmount hformat hp
  have hspc : 0 < v.sectorsPerCluster := by
    rw [hv.spc]
    exact h.fits.spc
  obtain ⟨hinit, -⟩ := hagrees.init
  obtain ⟨-, v', hmount'', n, hread⟩ := hagrees.fstab
  obtain rfl : v = v' := by simpa using hmount'.symm.trans hmount''
  obtain ⟨e, hfind, hlen, hchain⟩ :=
    exfatReadFile_some (hread (n + rest.length + 2) (by omega) _ le_rfl)
  -- the root is listed, so the kernel reaches it
  have hrootReach : (layoutOf image).Reaches v.rootCluster := by
    obtain ⟨_, hhas, -⟩ := hformat.root
    have hrootHas := hhas _ List.mem_cons_self
    rw [← hroot] at hrootHas
    refine reaches_of_le hend hrootHas.1 (Nat.le_of_not_lt fun hlt => ?_)
    rw [findRoot_lba_none (hv.lba_none hlt)] at hfind
    cases hfind
  -- the cluster of the last text is the last one taken
  have hsplit : taken image init
      = (sbin :: etc :: dev :: (inits ++ [passwdFirst])) ++ [fstabFirst] := by
    rw [htaken]
    simp
  have hsorted := taken_sorted image init
  rw [hsplit, List.pairwise_append] at hsorted
  have hlt : ∀ c ∈ sbin :: etc :: dev :: (inits ++ [passwdFirst]), c < fstabFirst := fun c hc =>
    hsorted.2.2 c hc fstabFirst List.mem_cons_self
  have hhas : ∀ c ∈ taken image init, (layoutOf image).Has c := fun c hc => (mem_taken hc).1
  have hetc : (layoutOf image).Reaches etc := by
    have hfstab := (hhas fstabFirst (by simp [htaken])).2
    have hetcLt := hlt etc (by simp)
    exact reaches_of_le hend (hhas etc (by simp [htaken])).1 (by omega)
  have hfstab : fstabFirst ≤ (layoutOf image).clusterCount := by
    refine Nat.le_of_not_lt fun hgt => ?_
    rw [find_etc_fstab h hv hpop hrootReach hends (by omega) hetc] at hfind
    cases hfind
    have huse := (ClusterMap.readChain_stored (clusters_sound hspc) (disk_good im') _ _ _ _ hchain
      rfl).1 0 (by rw [Nat.zero_mul, length_fstab]; exact Nat.succ_pos _)
    rw [ClusterMap.Usable, ClusterMap.chainAt, fileEntry, hv.lba_none hgt] at huse
    exact Bool.noConfusion huse.2
  refine ⟨hinit, fun c hc => ?_⟩
  rcases List.mem_cons.1 hc with rfl | hc
  · exact hroot ▸ hrootReach
  · refine reaches_of_le hend (hhas c hc).1 (Nat.le_trans ?_ hfstab)
    rw [hsplit, List.mem_append, List.mem_singleton] at hc
    exact hc.elim (fun hc => (hlt c hc).le) fun hc => hc.le

end

/-- The kernel reads the files of a populated image back if it reaches the root directory and the
clusters the builder takes. On a volume whose clusters all start below sector `2 ^ 32`, but for the
last, it does not read them otherwise: when the builder takes the last cluster of the volume, or the
root directory lies there. -/
theorem populate_agrees (hpart : part.firstLba = 0)
    (hmount : (exfatMount part).run image.disk.read = some (some v)) (hformat : Formatted image)
    (hp : populate image init = some im') :
    (InReach image init → Agrees part im' init) ∧
      ((layoutOf image).heapLba + ((layoutOf image).clusterCount - 2) * (layoutOf image).spc
          < 2 ^ 32 → Agrees part im' init → InReach image init) :=
  ⟨agrees_of_inReach hpart hmount hformat hp, inReach_of_agrees hpart hmount hformat hp⟩

/-- An image of `count` clusters of 1024 bytes as it is after formatting: the bitmap in cluster 2,
the upcase table in cluster 3 and the root directory, with a label, in cluster 4. -/
def sampleImage (count : UInt8) : Image where
  size := (2 + 2 * count.toNat) * 512
  byte a := (([(3, 69), (4, 88), (5, 70), (6, 65), (7, 84), (8, 32), (9, 32), (10, 32), (80, 1),
    (84, 1), (88, 2), (92, count), (96, 4), (108, 9), (109, 1), (110, 1), (510, 0x55), (511, 0xAA),
    (520, 0xFF), (521, 0xFF), (522, 0xFF), (523, 0xFF), (524, 0xFF), (525, 0xFF), (526, 0xFF),
    (527, 0xFF), (528, 0xFF), (529, 0xFF), (530, 0xFF), (531, 0xFF),
    (3072, 0x83), (3104, 0x81), (3136, 0x82)] : List (ℕ × UInt8)).lookup a).getD 0

def samplePart : Partition := ⟨0, 0, 0⟩

theorem sampleImage_formatted {count : UInt8} (h : count = 9 ∨ count = 10) :
    Formatted (sampleImage count) := by
  have hempty : ∀ i < 32, (sampleImage count).byte (3072 + 32 * i) ≠ entryFile := by
    rcases h with rfl | rfl <;> decide +kernel
  refine ⟨?_, ⟨[], ?_, ?_⟩, fun i hi => ?_⟩
  · rcases h with rfl | rfl <;>
      exact ⟨by decide +kernel, by decide +kernel, by decide +kernel, by decide +kernel⟩
  · rcases h with rfl | rfl <;> unfold Layout.Has <;> decide +kernel
  · rcases h with rfl | rfl <;> unfold DirChain <;> decide +kernel
  · have hi' : 32 * i < 1024 := by
      rcases h with rfl | rfl <;> exact hi
    rcases h with rfl | rfl <;> exact hempty i (by omega)

theorem populate_agrees_sample :
    ∃ im', populate (sampleImage 10) [1, 2, 3] = some im' ∧ Agrees samplePart im' [1, 2, 3] := by
  have hsome : (populate (sampleImage 10) [1, 2, 3]).isSome = true := by decide +kernel
  obtain ⟨im', hp⟩ := Option.isSome_iff_exists.1 hsome
  have hmount : (exfatMount samplePart).run (sampleImage 10).disk.read
      = some (some ⟨samplePart, 1, 2, 4, 10, 2⟩) := by decide +kernel
  have hreach : InReach (sampleImage 10) [1, 2, 3] := by
    unfold InReach
    decide +kernel
  exact ⟨im', hp,
    (populate_agrees rfl hmount (sampleImage_formatted (.inr rfl)) hp).1 hreach⟩

/-- With one cluster less the second text is stored in the last cluster, and the kernel fails to
read it. -/
theorem fstab_in_last_cluster :
    Formatted (sampleImage 9) ∧
      (exfatMount samplePart).run (sampleImage 9).disk.read
        = some (some ⟨samplePart, 1, 2, 4, 9, 2⟩) ∧
      (∃ im', populate (sampleImage 9) [1, 2, 3] = some im' ∧
        ¬ Agrees samplePart im' [1, 2, 3]) ∧
      (populate (sampleImage 9) [1, 2, 3]).map (fun im =>
        (exfatReadFile 2 ⟨samplePart, 1, 2, 4, 9, 2⟩ (ascii "ETC/FSTAB") 100).run im.disk.read)
          = some (some none) := by
  have hread : (populate (sampleImage 9) [1, 2, 3]).map (fun im =>
      (exfatReadFile 2 ⟨samplePart, 1, 2, 4, 9, 2⟩ (ascii "ETC/FSTAB") 100).run im.disk.read)
        = some (some none) := by decide +kernel
  obtain ⟨im', hp, -⟩ := Option.map_eq_some_iff.1 hread
  have hmount : (exfatMount samplePart).run (sampleImage 9).disk.read
      = some (some ⟨samplePart, 1, 2, 4, 9, 2⟩) := by decide +kernel
  have hformat := sampleImage_formatted (.inl rfl)
  have hreach : ¬ InReach (sampleImage 9) [1, 2, 3] := by
    unfold InReach
    decide +kernel
  refine ⟨hformat, hmount, ⟨im', hp, fun hagrees => hreach ?_⟩, hread⟩
  exact inReach_of_agrees rfl hmount hformat hp (by decide +kernel) hagrees

end Agreement

end Populate

end PeanutKernel
