import PeanutKernel.Proofs.ClusterWrites
import PeanutKernel.Proofs.Exfat
import PeanutKernel.Proofs.ExtfsOverwrite
import PeanutKernel.Proofs.Fat32Overwrite
import PeanutKernel.Proofs.FileCursor

/-!
# Writing an open file back

`SYS_CLOSE` hands the buffer of a dirty descriptor to the writer of the root volume, and the buffer
is as long as the file, so on an exFAT or ext volume the file then reads as the buffer
(`Holds.writeBack`). For a FAT volume it has no branch: what was written is lost, and it returns 0
all the same. On an exFAT volume the name of a long absolute path comes out a character short, and
the flush goes to whatever file that name finds.
-/

namespace PeanutKernel

variable {N : ℕ} {k k' : Kernel N} {env : CallEnv} {fuel : ℕ} {i : Fin fdMax} {p : ℕ}

section Volumes

namespace PeanutVolume

/-- The kernel mounts the volume from some disk. -/
def Mounted : PeanutVolume → Prop
  | .fat32 v => ∃ (p : Partition) (m : Medium), (Fat.fat32Mount p).run m.read = some (some v)
  | .exfat v => ∃ (p : Partition) (m : Medium), (Exfat.exfatMount p).run m.read = some (some v)
  | .ext v => ∃ (p : Partition) (m : Medium), (Ext.extfsMount p).run m.read = some (some v)

/-- The clusters or blocks of the first `n` bytes of a file do not repeat, and neither its lookup
nor following its chain or block map reads a sector of them. -/
def Apart (fuel : ℕ) (m : Medium) (name : List UInt8) (n : ℕ) : PeanutVolume → Prop
  | .fat32 v => ∃ file, (Fat.fat32FindRoot fuel v name).run m.read = some (some file) ∧
      Fat.ApartFromMetadata fuel v m name file.firstCluster n
  | .exfat v => ∃ file, (Exfat.exfatFindRoot fuel v name).run m.read = some (some file) ∧
      v.clusters.Apart m file.firstCluster n ∧
      Clear (v.clusters.FileSector (v.clusters.chainAt m file.firstCluster) n)
        ((Exfat.exfatFindRoot fuel v name).trace m.read)
  | .ext v => ∃ inode, (Ext.openRegular fuel v name).run m.read = some (some inode) ∧
      Ext.ApartFromMetadata fuel v m name inode n

/-- The volume holds a regular file with these contents. -/
structure Holds (vol : PeanutVolume) (fuel : ℕ) (m : Medium) (name C : List UInt8) : Prop where
  size : (vol.fileSize fuel name).run m.read = some (some C.length)
  read : (vol.readFile fuel name C.length).run m.read = some (some C)

def isFat : PeanutVolume → Bool
  | .fat32 _ => true
  | _ => false

/-- A write of `n` bytes under `name'` goes to the file with `name`. -/
def SameFile (fuel : ℕ) (m : Medium) (name name' : List UInt8) (n : ℕ) : PeanutVolume → Prop
  | .exfat v => ∃ e e', (Exfat.exfatFindRoot fuel v name).run m.read = some (some e) ∧
      (Exfat.exfatFindRoot fuel v name').run m.read = some (some e') ∧
      e'.attributes &&& Exfat.attrDirectory = 0 ∧ n ≤ e'.size ∧ e'.firstCluster = e.firstCluster
  | _ => name' = name

/-- With this path stored, `SYS_CLOSE` writes the `n` bytes of a dirty buffer to the file with
`name`. -/
def Flushes (vol : PeanutVolume) (fuel : ℕ) (m : Medium) (path name : List UInt8) (n : ℕ) : Prop :=
  path ≠ [] ∧ ∃ name', vol.writeName path = some name' ∧ vol.SameFile fuel m name name' n

/-- Whatever `SYS_CLOSE` writes is in none of the sectors from which the file is opened. -/
def FlushMisses (vol : PeanutVolume) (fuel : ℕ) (m : Medium) (path name : List UInt8) (n : ℕ) :
    Prop :=
  path ≠ [] → ∀ data w, data.length = n → vol.writeBack fuel path data m = some w →
    Clear (fun s => ∃ t ∈ w.writes, s ∈ t.sectors)
      ((vol.fileSize fuel name).trace m.read ++ (vol.readFile fuel name n).trace m.read)

variable {m : Medium} {name path B C : List UInt8}

theorem fileSize_exfat {v : Exfat.ExfatVolume} {n : ℕ} :
    (PeanutVolume.fileSize fuel name (.exfat v)).run m.read = some (some n) ↔
      ∃ e, (Exfat.exfatFindRoot fuel v name).run m.read = some (some e) ∧
        e.attributes &&& Exfat.attrDirectory = 0 ∧ e.size = n ∧ n ≤ 0xFFFFFFFF := by
  simp only [fileSize, Query.run_bind]
  rcases hfind : (Exfat.exfatFindRoot fuel v name).run m.read with _ | _ | e
  · simp
  · simp
  · simp only [Option.bind_some, Query.run_pure, Option.some.injEq]
    split_ifs with hdir hbig
    · simp [hdir]
    · simp
      intro _ h
      omega
    · simp [not_not.1 hdir]
      omega

theorem fileSize_ext {v : Ext.ExtVolume} {n : ℕ} :
    (PeanutVolume.fileSize fuel name (.ext v)).run m.read = some (some n) ↔
      (Ext.extfsStat fuel v name).run m.read = some (some (n, false)) ∧ n ≤ 0xFFFFFFFF := by
  simp only [fileSize, Query.run_bind]
  rcases hstat : (Ext.extfsStat fuel v name).run m.read with _ | _ | ⟨size, isDir⟩
  · simp
  · simp
  · rcases isDir with _ | _
    · simp
      omega
    · simp

variable {vol : PeanutVolume}

/-- A buffer of the file's length is written back to it. -/
theorem Holds.writeBack (hvol : vol.Mounted) (hm : m.Good) (h : vol.Holds fuel m name C)
    (hapart : vol.Apart fuel m name C.length) (hB : B.length = C.length)
    (hto : vol.Flushes fuel m path name C.length) :
    ∃ w, vol.writeBack fuel path B m = some w ∧ w.ret = 0 ∧ vol.Holds fuel w.medium name B := by
  obtain ⟨-, name', hname, hsame⟩ := hto
  cases vol with
  | fat32 v => cases hname
  | exfat v =>
    obtain ⟨p, m₀, hmount⟩ := hvol
    obtain ⟨e, hfind, hdir, hsize, hbound⟩ := fileSize_exfat.1 h.size
    obtain ⟨e', hfind', hdisjoint, hlookup⟩ := hapart
    obtain rfl : e = e' := by simpa [hfind] using hfind'
    obtain ⟨e'', hfind'', -, hchain⟩ := Exfat.exfatReadFile_some h.read
    obtain rfl : e = e'' := by simpa [hfind] using hfind''
    obtain ⟨e₀, e₁, hfind₀, hfound, hregular, hlong, hfirst⟩ := hsame
    obtain rfl : e = e₀ := by simpa [hfind] using hfind₀
    rw [hsize] at hchain
    have hV := Exfat.clusters_sound (Exfat.exfatMount_sectorsPerCluster hmount)
    obtain ⟨m', writes, hwrite, hag, -, hback⟩ := ClusterMap.overwrite hV hm hchain hdisjoint hB.le
    rw [hB, List.drop_length, List.append_nil] at hback
    have hfind' : (Exfat.exfatFindRoot fuel v name).run m'.read = some (some e) :=
      (hag.run _ hlookup).trans hfind
    refine ⟨⟨0, m', writes⟩, ?_, rfl, ?_, ?_⟩
    · simp only [PeanutVolume.writeBack, hname, Exfat.exfatWriteFile, hfound]
      rw [if_neg (not_not.2 hregular), if_neg (by omega), hfirst, hwrite]
    · exact fileSize_exfat.2 ⟨e, hfind', hdir, hsize.trans hB.symm, hB ▸ hbound⟩
    · exact Exfat.exfatReadFile_run hfind' hdir (hsize.trans hB.symm) (hB ▸ hback) le_rfl
  | ext v =>
    obtain rfl : name' = name := hsame
    obtain ⟨p, m₀, hmount⟩ := hvol
    obtain ⟨hge, hbs⟩ := Ext.extfsMount_blockSize hmount
    obtain ⟨hstat, hbound⟩ := fileSize_ext.1 h.size
    obtain ⟨inode, hopen, hmeta⟩ := hapart
    have hsize : C.length < 2 ^ 32 := by omega
    obtain ⟨w, hwrite, hret, hopen₁, hback, -⟩ :=
      Ext.extfsWriteFile_overlaid hm (by omega) hbs hsize h.read hopen hmeta B hB.le
    rw [hB, List.drop_length, List.append_nil] at hback
    have hstat₁ := (Ext.extfsStat_run hopen₁).trans (Ext.extfsStat_run hopen).symm
    refine ⟨w, ?_, hret.2 (.inl hB), ?_, ?_⟩
    · simp only [PeanutVolume.writeBack, hname, hwrite]
    · exact fileSize_ext.2 ⟨hB ▸ hstat₁.trans hstat, hB ▸ hbound⟩
    · exact hB ▸ hback

theorem writeName_exfat (v : Exfat.ExfatVolume) (path : List UInt8) :
    ∃ name, (PeanutVolume.exfat v).writeName path = some name :=
  ⟨_, by simp [writeName, fsPathToFatName, cptr]; rfl⟩

/-- A flush that misses the sectors of the file leaves it as it was. -/
theorem Holds.of_missed (hvol : vol.Mounted) (h : vol.Holds fuel m name C)
    (hexfat : vol.isFat = true ∨ vol.isExfat = true) (hpath : path ≠ [])
    (hmiss : vol.FlushMisses fuel m path name C.length) (hB : B.length = C.length) {w : Written}
    (hw : vol.writeBack fuel path B m = some w) : vol.Holds fuel w.medium name C := by
  have hag : AgreeOff (fun s => ∃ t ∈ w.writes, s ∈ t.sectors) m w.medium := by
    cases vol with
    | fat32 v =>
      cases hw
      exact .refl _ m
    | exfat v =>
      obtain ⟨p, m₀, hmount⟩ := hvol
      have hV := Exfat.clusters_sound (Exfat.exfatMount_sectorsPerCluster hmount)
      obtain ⟨name', hname⟩ := writeName_exfat v path
      simp only [PeanutVolume.writeBack, hname, Exfat.exfatWriteFile] at hw
      split at hw
      · cases hw
      · cases hw
        exact .refl _ m
      · split_ifs at hw
        · cases hw
          exact .refl _ m
        · cases hw
          exact .refl _ m
        · exact ClusterMap.writeChain_agreeOff hV _ _ _ _ _ _ hw
    | ext v => simp [isFat, isExfat] at hexfat
  have hclear := hmiss hpath B w hB hw
  refine ⟨?_, ?_⟩
  · exact (hag.run _ fun t ht => hclear t (List.mem_append_left _ ht)).trans h.size
  · exact (hag.run _ fun t ht => hclear t (List.mem_append_right _ ht)).trans h.read

theorem flushMisses_of_isFat {n : ℕ} (h : vol.isFat = true) :
    vol.FlushMisses fuel m path name n := by
  intro _ data w _ hw
  cases vol with
  | fat32 v =>
    cases hw
    simp [Clear]
  | exfat v => cases h
  | ext v => cases h

/-- Where the two names are one, the file is flushed on a volume that is not FAT. -/
theorem Holds.flushes_iff (h : vol.Holds fuel m name C)
    (hname : ∀ q, vol.writeName path = some q → q = name) :
    vol.Flushes fuel m path name C.length ↔ vol.isFat = false ∧ path ≠ [] := by
  cases vol with
  | fat32 v => simp [Flushes, writeName, isFat]
  | exfat v =>
    obtain ⟨q, hq⟩ := writeName_exfat v path
    obtain ⟨e, hfind, hdir, hsize, -⟩ := fileSize_exfat.1 h.size
    refine ⟨fun hto => ⟨rfl, hto.1⟩, fun hpath => ⟨hpath.2, q, hq, e, e, hfind, ?_, hdir, hsize.ge,
      rfl⟩⟩
    rw [hname q hq, hfind]
  | ext v =>
    exact ⟨fun hto => ⟨rfl, hto.1⟩, fun hpath => ⟨hpath.2, _, rfl, hname _ rfl⟩⟩

end PeanutVolume

end Volumes

section Reopen

variable {vol : PeanutVolume} {path name C B : List UInt8}

theorem pathHasPrefix_isString {s s' : Buf} {start : List UInt8} (h : IsString s path)
    (h' : IsString s' path) (hstart : 0 ∉ start) :
    pathHasPrefix s start = pathHasPrefix s' start := by
  by_cases hle : start.length ≤ path.length
  · exact pathHasPrefix_congr fun j hj =>
      (h.2 j (hj.trans hle)).trans (h'.2 j (hj.trans hle)).symm
  · -- the path ends before the other string does
    have hfalse : ∀ {s : Buf}, IsString s path → pathHasPrefix s start = false := by
      intro s hs
      have hlt : path.length < start.length := by omega
      have hend : s path.length = 0 := by simpa using hs.2 path.length le_rfl
      have hne : s path.length ≠ start.getD path.length 0 := by
        rw [hend, List.getD_eq_getElem _ _ hlt]
        exact fun heq => hstart (heq ▸ List.getElem_mem hlt)
      simp only [pathHasPrefix, Bool.and_eq_false_iff, List.all_eq_false, List.mem_range]
      exact .inl ⟨path.length, hlt, by simpa using hne⟩
    rw [hfalse h, hfalse h']

section

variable {q q' : CPtr} (hq : q.null = false) (hq' : q'.null = false) (h : IsString q.bytes path)
  (h' : IsString q'.bytes path)

include hq hq' h h'

theorem vfsIsPseudoPath_isString : vfsIsPseudoPath q = vfsIsPseudoPath q' := by
  have hroots : ∀ start ∈ pseudoRoots, 0 ∉ start := by decide +kernel
  simp only [pseudoRoots, List.forall_mem_cons, List.not_mem_nil, false_implies, implies_true,
    and_true] at hroots
  obtain ⟨hproc, hsys, hdev, hetc⟩ := hroots
  unfold vfsIsPseudoPath
  rw [hq, hq', pathHasPrefix_isString h h' hproc, pathHasPrefix_isString h h' hsys,
    pathHasPrefix_isString h h' hdev, pathHasPrefix_isString h h' hetc, h.2 0 (Nat.zero_le _),
    h'.2 0 (Nat.zero_le _)]

theorem openName_isString {env env' : CallEnv} : vol.openName env q = vol.openName env' q' := by
  cases vol with
  | fat32 v =>
    simp only [PeanutVolume.openName, fsPathToFatName_isString hq h,
      fsPathToFatName_isString hq' h', Option.getD_some]
  | exfat v =>
    simp only [PeanutVolume.openName, fsPathToFatName_isString hq h,
      fsPathToFatName_isString hq' h', Option.getD_some]
  | ext v =>
    simp only [PeanutVolume.openName, absolutePath_isString h, absolutePath_isString h']

end

theorem readFileIntoMem_holds {q : CPtr} (hk : env.kallocFails = false)
    (hregular : vfsIsPseudoPath q = false) (hroot : k.root = some vol)
    (h : vol.Holds fuel k.medium (vol.openName env q) C) :
    readFileIntoMem fuel env k q = some ((k.heap.kalloc C).2, some (k.heap.next, C.length)) := by
  simp only [readFileIntoMem, hroot, hregular, Bool.false_eq_true, if_false, h.size, hk, h.read,
    ne_eq, not_true]
  simp [Heap.kalloc, Heap.store]

theorem allocFd_of_free {fds : FdTable} (hfree : ∃ j, (fds j).used = false) :
    ∃ i fds', allocFd fds = some (i, fds') := by
  obtain ⟨j, hj⟩ := hfree
  have hsome : (Fin.find? fun i => decide ((fds i).used = false)).isSome :=
    Fin.isSome_find?_iff.2 ⟨j, by simpa using hj⟩
  obtain ⟨i, hi⟩ := Option.isSome_iff_exists.1 hsome
  exact ⟨i, _, by rw [allocFd, hi]; rfl⟩

/-- A `SYS_OPEN` that has a free slot and memory, of a path the volume holds a file at. -/
theorem sysOpen_holds {arg1 : UInt64} (hk : env.kallocFails = false)
    (hfree : ∃ j, (k.fds j).used = false) (hregular : vfsIsPseudoPath (env.ptr arg1) = false)
    (hroot : k.root = some vol)
    (h : vol.Holds fuel k.medium (vol.openName env (env.ptr arg1)) C) :
    ∃ (i : Fin fdMax) (k' : Kernel N),
      sysOpen fuel env k arg1 = some (⟨.value (UInt64.ofNat i.val), [], []⟩, k') ∧
      k' = setFd { k with heap := (k.heap.kalloc C).2 } i
        { openedFd (k.fds i) (kstrcpy (env.ptr arg1).bytes 160) with
          data := some k.heap.next
          size := C.length } := by
  obtain ⟨i, fds, halloc⟩ := allocFd_of_free hfree
  have hread := readFileIntoMem_holds hk hregular hroot h
  obtain ⟨-, hfds⟩ := allocFd_some halloc
  refine ⟨i, _, ?_, rfl⟩
  unfold sysOpen
  rw [halloc]
  simp only [hregular, Bool.false_eq_true, if_false]
  rw [hread, hfds]
  simp only [done, setFd, openedFd, Function.update_self, Function.update_idem]

/-- Reads of a cursor give its bytes one after the other. -/
theorem Cursors.outputs_reads :
    ∀ (reads : List (CallEnv × Call)) {cs cs' : Cursors} {rs : List SysResult} {off : ℕ},
      (∀ e ∈ reads, e.2.num = 0 ∧ e.2.arg1.toNat = i.val) → cs i = some ⟨C, off⟩ →
      off ≤ C.length → Runs.outputs Cursors.step cs reads = some (rs, cs') →
      rs.flatMap SysResult.stored
        = (C.drop off).take (reads.map fun e => e.2.arg3.toNat % 2 ^ 32).sum
  | [], cs, cs', rs, off, _, _, _, h => by
    obtain ⟨rfl, -⟩ := Prod.mk.inj (Option.some.inj h)
    simp
  | e :: reads, cs, cs', rs, off, hreads, hcs, hoff, h => by
    obtain ⟨hnum, harg⟩ := hreads e (by simp)
    obtain ⟨r, cs₁, rs', hstep, hrest, rfl⟩ := Runs.outputs_cons_some.1 h
    obtain ⟨j, c, harg', hc, ⟨-, rfl, rfl⟩ | ⟨hwrite, -⟩⟩ := Cursors.step_cases hstep
    swap
    · simp [hnum] at hwrite
    obtain rfl : i = j := Fin.ext (harg.symm.trans harg')
    obtain rfl : c = ⟨C, off⟩ := by simpa [hc] using hcs
    have hamount : Cursor.amount ⟨C, off⟩ e.2.arg3
        = min (e.2.arg3.toNat % 2 ^ 32) (C.length - off) := rfl
    have hflat := Cursors.outputs_reads reads (fun e he => hreads e (by simp [he]))
      (Function.update_self ..) (by simp only; omega) hrest
    rw [List.flatMap_cons, hflat, List.map_cons, List.sum_cons]
    exact take_append_take hamount _

/-- After a `SYS_OPEN` of the path, whatever reads follow store the contents from their beginning
on, as much as they ask for. -/
def ReadsAs (fuel : ℕ) (k : Kernel N) (path C : List UInt8) : Prop :=
  ∀ (env : CallEnv) (c : Call), c.num = 2 → env.kallocFails = false → c.arg1 ≠ 0 →
    IsString (env.ptr c.arg1).bytes path →
    ∃ (i : Fin fdMax) (k' : Kernel N),
      syscallHandler fuel env k c = some (⟨.value (UInt64.ofNat i.val), [], []⟩, k') ∧
      ∀ reads : List (CallEnv × Call), (∀ e ∈ reads, e.2.num = 0 ∧ e.2.arg1.toNat = i.val) →
        ∃ rs k'', Runs.outputs (Kernel.answer fuel) k' reads = some (rs, k'') ∧
          rs.flatMap SysResult.stored = C.take (reads.map fun e => e.2.arg3.toNat % 2 ^ 32).sum

theorem readsAs_of_holds (howned : Owned k.fds k.heap) (hfree : ∃ j, (k.fds j).used = false)
    (hroot : k.root = some vol) {q : CPtr} (hq : q.null = false) (hpath : IsString q.bytes path)
    (hregular : vfsIsPseudoPath q = false)
    (h : vol.Holds fuel k.medium (vol.openName env q) C) : ReadsAs fuel k path C := by
  intro env' c hnum hk hptr hpath'
  have hq' : (env'.ptr c.arg1).null = false := by simpa [CallEnv.ptr] using hptr
  rw [vfsIsPseudoPath_isString hq hq' hpath hpath'] at hregular
  rw [openName_isString hq hq' hpath hpath'] at h
  obtain ⟨i, k', hopen, hk'⟩ := sysOpen_holds (k := { k with lastErrno := 0 }) hk hfree hregular
    hroot h
  have hcall : syscallHandler fuel env' k c = _ := (syscallHandler_open hnum).trans hopen
  refine ⟨i, k', hcall, fun reads hreads => ?_⟩
  have hcursors : k'.cursors i = some ⟨C, 0⟩ := by
    rw [cursors_opened (k := { k with lastErrno := 0 }) howned _ C hk', Function.update_self]
  obtain ⟨rs, cs, k'', habs, hrun, -⟩ := answers_cursors fuel reads
    (howned.step (callStep_syscallHandler hcall).files) fun e he =>
      ⟨.inl (hreads e he).1, i, (hreads e he).2, by simp [hcursors]⟩
  exact ⟨rs, k'', hrun,
    by simpa using Cursors.outputs_reads reads hreads hcursors (Nat.zero_le _) habs⟩

/-- A file is read as one contents only. -/
theorem ReadsAs.unique {c : Call} (hC : ReadsAs fuel k path C) (hB : ReadsAs fuel k path B)
    (hnum : c.num = 2) (hptr : c.arg1 ≠ 0) (hpath : IsString (env.ptr c.arg1).bytes path) :
    B = C := by
  have hpath' : IsString (({ env with kallocFails := false } : CallEnv).ptr c.arg1).bytes path :=
    hpath
  obtain ⟨i, k', hopen, hreads⟩ := hC _ c hnum rfl hptr hpath'
  obtain ⟨i', k'', hopen', hreads'⟩ := hB _ c hnum rfl hptr hpath'
  obtain ⟨hr, rfl⟩ := Prod.mk.inj (Option.some.inj (hopen.symm.trans hopen'))
  obtain rfl := ofNat_fd_inj (Ret.value.inj (congrArg SysResult.ret hr))
  -- as many reads of one byte as either has
  set read : CallEnv × Call := (env, ⟨0, UInt64.ofNat i.val, 0, 1, 0, 0, 0⟩)
  have harg : (UInt64.ofNat i.val).toNat = i.val := by
    have hlt : i.val < 16 := i.isLt
    simp only [UInt64.toNat_ofNat']
    omega
  have hall : ∀ e ∈ List.replicate (B.length + C.length) read,
      e.2.num = 0 ∧ e.2.arg1.toNat = i.val := by
    intro e he
    rw [List.eq_of_mem_replicate he]
    exact ⟨rfl, harg⟩
  obtain ⟨rs, k₁, hrun, hflat⟩ := hreads _ hall
  obtain ⟨rs', k₂, hrun', hflat'⟩ := hreads' _ hall
  obtain ⟨rfl, -⟩ := Prod.mk.inj (Option.some.inj (hrun.symm.trans hrun'))
  have hsum : ((List.replicate (B.length + C.length) read).map
      fun e => e.2.arg3.toNat % 2 ^ 32).sum = B.length + C.length := by
    simp [read]
  rw [hsum] at hflat hflat'
  rw [List.take_of_length_le (by omega)] at hflat hflat'
  exact hflat'.symm.trans hflat

end Reopen

section Close

variable {vol : PeanutVolume} {m : Medium} {path C B : List UInt8}

/-- Descriptor `i`, opened on a file that read as `C` then, with its buffer at `p`: it is dirty
unless the buffer still is `C`, and nothing has been written to the disk. -/
structure Handle (k : Kernel N) (vol : PeanutVolume) (m : Medium) (i : Fin fdMax) (p : ℕ)
    (path C : List UInt8) : Prop where
  owned : Owned k.fds k.heap
  holds : (k.fds i).Holds p
  isSocket : (k.fds i).isSocket = false
  path : (k.fds i).path = path
  size : (k.fds i).size = C.length
  clean : (k.fds i).dirty = false → k.heap.bytes p = C
  root : k.root = some vol
  medium : k.medium = m

/-- The position moves, and `dirty` is set if the buffer may have changed. -/
theorem Handle.move {off : ℕ} {dirty : Bool} (h : Handle k vol m i p path C)
    (howned : Owned k'.fds k'.heap)
    (hfds : k'.fds = Function.update k.fds i { k.fds i with off := off, dirty := dirty })
    (hdirty : dirty = true ∨ dirty = (k.fds i).dirty ∧ k'.heap = k.heap) (hroot : k'.root = k.root)
    (hmedium : k'.medium = k.medium) : Handle k' vol m i p path C := by
  have hi : k'.fds i = { k.fds i with off := off, dirty := dirty } := by simp [hfds]
  refine ⟨howned, ?_, ?_, ?_, ?_, ?_, hroot.trans h.root, hmedium.trans h.medium⟩
  · rw [hi]
    exact h.holds
  · rw [hi]
    exact h.isSocket
  · rw [hi]
    exact h.path
  · rw [hi]
    exact h.size
  · rw [hi]
    rcases hdirty with rfl | ⟨rfl, hheap⟩
    · simp
    · rw [hheap]
      exact h.clean

theorem Handle.answer {e : CallEnv × Call} (fuel : ℕ) (h : Handle k vol m i p path C)
    (hnum : e.2.num = 0 ∨ e.2.num = 1) (harg : e.2.arg1.toNat = i.val) :
    ∃ r k', k.answer fuel e = some (r, k') ∧ Handle k' vol m i p path C := by
  have hi : usedFd { k with lastErrno := 0 } e.2.arg1 = some i := usedFd_of_used harg h.holds.1
  rcases hnum with hnum | hnum
  · have hread := sysRead_cursor (k := { k with lastErrno := 0 }) e.1 e.2.arg2 e.2.arg3 h.owned hi
      h.holds rfl
    have hanswer : k.answer fuel e = some _ :=
      (syscallHandler_read hnum).trans (congrArg some hread)
    have howned := h.owned.step (callStep_syscallHandler hanswer).files
    exact ⟨_, _, hanswer, h.move howned rfl (.inr ⟨rfl, rfl⟩) rfl rfl⟩
  · obtain ⟨heap, dirty, hwrite, hdirty, -⟩ :=
      sysWrite_cursor (k := { k with lastErrno := 0 }) fuel e.1 e.2.arg2 e.2.arg3 h.owned hi h.holds
        rfl
    have hanswer : k.answer fuel e = some _ := (syscallHandler_write hnum).trans hwrite
    have howned := h.owned.step (callStep_syscallHandler hanswer).files
    exact ⟨_, _, hanswer, h.move howned rfl hdirty rfl rfl⟩

theorem Handle.answers (fuel : ℕ) :
    ∀ (calls : List (CallEnv × Call)) {k : Kernel N}, Handle k vol m i p path C →
      (∀ e ∈ calls, (e.2.num = 0 ∨ e.2.num = 1) ∧ e.2.arg1.toNat = i.val) →
      ∃ rs k', Runs.outputs (Kernel.answer fuel) k calls = some (rs, k') ∧
        Handle k' vol m i p path C
  | [], k, h, _ => ⟨[], k, rfl, h⟩
  | e :: calls, k, h, hcalls => by
    obtain ⟨hnum, harg⟩ := hcalls e (by simp)
    obtain ⟨r, k₁, hanswer, h₁⟩ := h.answer fuel hnum harg
    obtain ⟨rs, k', hrest, h'⟩ := Handle.answers fuel calls h₁ fun e he => hcalls e (by simp [he])
    exact ⟨r :: rs, k', Runs.outputs_cons_some.2 ⟨r, k₁, rs, hanswer, hrest, rfl⟩, h'⟩

theorem Handle.flush_idle (fuel : ℕ) (h : Handle k vol m i p path C)
    (hd : ¬ ((k.fds i).dirty = true ∧ path ≠ [])) :
    flush fuel { k with lastErrno := 0 } (k.fds i) p
      = some { k with medium := m, lastErrno := 0 } := by
  rw [← h.path] at hd
  rw [flush, if_neg hd, ← h.medium]

theorem Handle.flush_dirty (fuel : ℕ) (h : Handle k vol m i p path C)
    (hd : (k.fds i).dirty = true ∧ path ≠ []) :
    flush fuel { k with lastErrno := 0 } (k.fds i) p
      = (vol.writeBack fuel path (k.heap.bytes p) m).map fun w =>
        { k with medium := w.medium, lastErrno := if w.ret ≠ (0 : ℤ) then 11 else 0 } := by
  have hall : (k.heap.bytes p).take (k.fds i).size = k.heap.bytes p :=
    List.take_of_length_le (h.owned.bytes_length h.holds).le
  rw [← h.path] at hd ⊢
  rw [flush, if_pos hd]
  simp only [h.root, hall, h.medium]

section

variable (h : Handle k vol m i p path C)

include h

/-- `SYS_CLOSE` of an open file returns 0 if the flush returns. -/
theorem Handle.close_eq {c : Call} (hc : c.num = 3 ∧ c.arg1.toNat = i.val) :
    syscallHandler fuel env k c = (flush fuel { k with lastErrno := 0 } (k.fds i) p).map fun k' =>
      done (setFd { k' with heap := k'.heap.kfree p } i { k.fds i with used := false }) 0 := by
  have hi : usedFd { k with lastErrno := 0 } c.arg1 = some i := usedFd_of_used hc.2 h.holds.1
  rw [syscallHandler_close hc.1]
  simp only [sysClose, hi]
  split
  · rename_i q hpseudo hq
    obtain rfl : p = q := by simpa [h.holds.2.2] using hq
    rfl
  · rename_i hne
    exact absurd h.holds.2.2 (hne p h.holds.2.1)

/-- A flush returns if it goes to the file, or there is none. -/
theorem Handle.flush_returns {name : List UInt8} (hvol : vol.Mounted) (hm : m.Good)
    (hfile : vol.Holds fuel m name C) (hapart : vol.Apart fuel m name C.length)
    (hto : path = [] ∨ vol.isFat = true ∨ vol.Flushes fuel m path name C.length) :
    ∃ k', flush fuel { k with lastErrno := 0 } (k.fds i) p = some k' := by
  by_cases hd : (k.fds i).dirty = true ∧ path ≠ []
  · obtain ⟨w, hw⟩ : ∃ w, vol.writeBack fuel path (k.heap.bytes p) m = some w := by
      rcases hto with hnil | hfat | hto
      · exact absurd hnil hd.2
      · cases vol with
        | fat32 v => exact ⟨_, rfl⟩
        | exfat v => cases hfat
        | ext v => cases hfat
      · obtain ⟨w, hw, -⟩ := hfile.writeBack hvol hm hapart
          ((h.owned.bytes_length h.holds).trans h.size) hto
        exact ⟨w, hw⟩
    exact ⟨_, by rw [h.flush_dirty fuel hd, hw]; rfl⟩
  · exact ⟨_, h.flush_idle fuel hd⟩

/-- What a flush that returns leaves on the disk. -/
theorem Handle.flush {name : List UInt8}
    (hvol : vol.Mounted) (hm : m.Good) (hfile : vol.Holds fuel m name C)
    (hapart : vol.Apart fuel m name C.length)
    (hname : vol.isExfat = false → ∀ q, vol.writeName path = some q → q = name)
    (hflush : PeanutKernel.flush fuel { k with lastErrno := 0 } (k.fds i) p = some k') :
    ∃ m' errno, k' = { k with medium := m', lastErrno := errno } ∧
      (((k.fds i).dirty = true →
          vol.Flushes fuel m path name C.length ∨ vol.FlushMisses fuel m path name C.length) →
        ∃ D, vol.Holds fuel m' name D ∧
          (k.heap.bytes p = D ↔ vol.Flushes fuel m path name C.length ∨ k.heap.bytes p = C)) := by
  by_cases hd : (k.fds i).dirty = true ∧ path ≠ []
  · have hlen := (h.owned.bytes_length h.holds).trans h.size
    rw [h.flush_dirty fuel hd] at hflush
    obtain ⟨w, hw, rfl⟩ := Option.map_eq_some_iff.1 hflush
    refine ⟨w.medium, _, rfl, fun hcase => ?_⟩
    by_cases hto : vol.Flushes fuel m path name C.length
    · obtain ⟨w', hw', -, hback⟩ := hfile.writeBack hvol hm hapart hlen hto
      rw [hw, Option.some_inj] at hw'
      exact ⟨_, hw' ▸ hback, iff_of_true rfl (.inl hto)⟩
    · have hkind : vol.isFat = true ∨ vol.isExfat = true := by
        by_contra hne
        simp only [not_or, Bool.not_eq_true] at hne
        exact hto ((hfile.flushes_iff (hname hne.2)).2 ⟨hne.1, hd.2⟩)
      refine ⟨C, hfile.of_missed hvol hkind hd.2 ((hcase hd.1).resolve_left hto) hlen hw, ?_⟩
      exact ⟨.inr, fun hor => hor.resolve_left hto⟩
  · rw [h.flush_idle fuel hd, Option.some_inj] at hflush
    refine ⟨m, 0, hflush.symm, fun _ => ⟨C, hfile, .inr, fun hor => ?_⟩⟩
    rcases hor with hto | hC
    · refine h.clean ?_
      by_contra hdirty
      exact hd ⟨by simpa using hdirty, hto.1⟩
    · exact hC

end

/-- What is read after a `SYS_CLOSE` that returns. -/
theorem Handle.closed {name : List UInt8} {env₁ : CallEnv} {c c₁ : Call} {r : SysResult}
    (h : Handle k vol m i p (path.take 159) C) (hvol : vol.Mounted) (hm : m.Good)
    (hfile : vol.Holds fuel m name C) (hapart : vol.Apart fuel m name C.length) (hnum : c.num = 2)
    (hptr : c.arg1 ≠ 0) (hpath : IsString (env.ptr c.arg1).bytes path)
    (hregular : vfsIsPseudoPath (env.ptr c.arg1) = false)
    (hname : vol.openName env (env.ptr c.arg1) = name)
    (hclose : c₁.num = 3 ∧ c₁.arg1.toNat = i.val)
    (hcall : syscallHandler fuel env₁ k c₁ = some (r, k')) : r = ⟨.value 0, [], []⟩ ∧
      (((k.fds i).dirty = true → vol.Flushes fuel m (path.take 159) name C.length ∨
          vol.FlushMisses fuel m (path.take 159) name C.length) →
        (ReadsAs fuel k' path (k.heap.bytes p) ↔
          vol.Flushes fuel m (path.take 159) name C.length ∨ k.heap.bytes p = C)) := by
  have hnull : (env.ptr c.arg1).null = false := by simpa [CallEnv.ptr] using hptr
  have howned := h.owned.step (callStep_syscallHandler hcall).files
  rw [h.close_eq hclose] at hcall
  obtain ⟨k₁, hflush, hdone⟩ := Option.map_eq_some_iff.1 hcall
  obtain ⟨rfl, rfl⟩ := Prod.mk.inj hdone
  have hwrite : vol.isExfat = false → ∀ q, vol.writeName (path.take 159) = some q → q = name := by
    intro hkind
    rw [← hname, writeName_eq_openName_iff env hnull hpath]
    simp [hkind]
  obtain ⟨m', errno, rfl, hdisk⟩ := h.flush hvol hm hfile hapart hwrite hflush
  refine ⟨rfl, fun hcase => ?_⟩
  obtain ⟨D, hD, hiff⟩ := hdisk hcase
  rw [← hname] at hD
  have hreads := readsAs_of_holds howned ⟨i, by simp [setFd]⟩ h.root hnull hpath hregular hD
  refine Iff.trans ⟨fun hB => hreads.unique hB hnum hptr hpath, ?_⟩ hiff
  rintro hB
  rw [hB]
  exact hreads

/-- What `SYS_OPEN` of a file leaves. -/
theorem handle_opened {arg1 : UInt64} {stored printed : List UInt8}
    (howned : Owned k'.fds k'.heap) (hroot : k.root = some vol)
    (hregular : vfsIsPseudoPath (env.ptr arg1) = false)
    (hfile : vol.Holds fuel k.medium (vol.openName env (env.ptr arg1)) C)
    (h : sysOpen fuel env k arg1
      = some (⟨.value (UInt64.ofNat i.val), stored, printed⟩, k')) :
    ∃ p, Handle k' vol k.medium i p (kstrcpy (env.ptr arg1).bytes 160) C := by
  obtain ⟨heap, mem, sz, hread, hfree, rfl⟩ := sysOpen_regular hregular h
  obtain ⟨vol', data, hroot', hsize, hdata, hr, rfl⟩ | ⟨hr, -⟩ := readFileIntoMem_cases hread
  swap
  · simp at hr
  obtain ⟨rfl, rfl⟩ := Prod.mk.inj (Option.some.inj hr)
  obtain rfl : vol' = vol := by simpa [hroot'] using hroot
  have hlen : data.length = C.length := by simpa [hfile.size] using hsize.symm
  obtain rfl : data = C := by
    rw [hlen, hfile.read] at hdata
    simpa using hdata.symm
  refine ⟨k.heap.next, howned, ?_, ?_, ?_, ?_, ?_, hroot, rfl⟩
  · simp [Fd.Holds, setFd, openedFd]
  · simp [setFd, openedFd]
  · simp [setFd, openedFd]
  · simp [setFd]
  · simp [setFd, Heap.bytes, Heap.kalloc]

/-- A regular file is opened, read and written in any way, and closed. Unless the volume is exFAT
and the path absolute and longer than a descriptor keeps, that returns 0, and the file then reads
as the buffer was at the end, but for a FAT volume or the empty path, for which nothing is written
back. Wherever the flush goes: if the call returns, it returns 0, and the file reads as the buffer
just when the flush goes to it or the buffer is as it was. -/
theorem write_back_iff (fuel : ℕ) (sched : Sched N) (medium : Medium) (root : PeanutVolume)
    (hdmiStatus : HdmiStatus) (userBrkArena : ℕ) (events : List KernelEvent) {k k₁ : Kernel N}
    (hafter : (Kernel.boot sched medium root hdmiStatus userBrkArena).after fuel events = some k)
    (hm : k.medium.Good) (hmount : root.Mounted) {env : CallEnv} {c : Call}
    {path name C stored printed : List UInt8} {i : Fin fdMax} (hnum : c.num = 2)
    (hptr : c.arg1 ≠ 0) (hpath : IsString (env.ptr c.arg1).bytes path)
    (hregular : vfsIsPseudoPath (env.ptr c.arg1) = false)
    (hname : root.openName env (env.ptr c.arg1) = name)
    (hfile : root.Holds fuel k.medium name C) (hapart : root.Apart fuel k.medium name C.length)
    (hopen : syscallHandler fuel env k c
      = some (⟨.value (UInt64.ofNat i.val), stored, printed⟩, k₁))
    (calls : List (CallEnv × Call))
    (hcalls : ∀ e ∈ calls, (e.2.num = 0 ∨ e.2.num = 1) ∧ e.2.arg1.toNat = i.val)
    (env₁ : CallEnv) {c₁ : Call} (hclose : c₁.num = 3 ∧ c₁.arg1.toNat = i.val) :
    ∃ rs k₂ B off, Runs.outputs (Kernel.answer fuel) k₁ calls = some (rs, k₂) ∧
      k₂.cursors i = some ⟨B, off⟩ ∧
      (¬ (root.isExfat = true ∧ path.head? = some 47 ∧ 160 ≤ path.length) →
        ∃ k₃, syscallHandler fuel env₁ k₂ c₁ = some (⟨.value 0, [], []⟩, k₃) ∧
          (ReadsAs fuel k₃ path B ↔ (root.isFat = true ∨ path = [] → B = C))) ∧
      ∀ r k₃, syscallHandler fuel env₁ k₂ c₁ = some (r, k₃) → r = ⟨.value 0, [], []⟩ ∧
        (((k₂.fds i).dirty = true → root.Flushes fuel k.medium (path.take 159) name C.length ∨
            root.FlushMisses fuel k.medium (path.take 159) name C.length) →
          (ReadsAs fuel k₃ path B ↔
            root.Flushes fuel k.medium (path.take 159) name C.length ∨ B = C)) := by
  have howned := owned_after events (owned_fresh ⟨rfl, rfl⟩) hafter
  have hroot : k.root = some root := congrArg Prod.fst (fixed_after events hafter)
  have howned₁ := howned.step (callStep_syscallHandler hopen).files
  rw [syscallHandler_open hnum] at hopen
  obtain ⟨p, hhandle⟩ := handle_opened (k := { k with lastErrno := 0 }) howned₁ hroot hregular
    (hname ▸ hfile) hopen
  have hnull : (env.ptr c.arg1).null = false := by simpa [CallEnv.ptr] using hptr
  have hstored : kstrcpy (env.ptr c.arg1).bytes 160 = path.take 159 :=
    cstr_bytesOf_isString path 159 hpath
  rw [hstored] at hhandle
  obtain ⟨rs, k₂, hrun, h₂⟩ := hhandle.answers fuel calls hcalls
  refine ⟨rs, k₂, k₂.heap.bytes p, (k₂.fds i).off, hrun, cursors_of_holds h₂.holds h₂.isSocket,
    fun hlong => ?_, fun r k₃ => h₂.closed hmount hm hfile hapart hnum hptr hpath hregular hname
      hclose⟩
  have hto := hfile.flushes_iff (hname ▸ (writeName_eq_openName_iff env hnull hpath).2 hlong)
  have hnil : path.take 159 = [] ↔ path = [] := by simp
  rw [ne_eq, hnil] at hto
  have hcase : path.take 159 = [] ∨ root.isFat = true ∨
      root.Flushes fuel k.medium (path.take 159) name C.length := by
    rw [hnil, hto]
    by_cases hpath : path = [] <;> simp [hpath]
  obtain ⟨k', hflush⟩ := h₂.flush_returns hmount hm hfile hapart hcase
  obtain ⟨⟨r, k₃⟩, hcall⟩ : ∃ s, syscallHandler fuel env₁ k₂ c₁ = some s := by
    rw [h₂.close_eq hclose, hflush]
    exact ⟨_, rfl⟩
  obtain ⟨rfl, hreads⟩ := h₂.closed hmount hm hfile hapart hnum hptr hpath hregular hname hclose
    hcall
  refine ⟨k₃, hcall, (hreads fun _ => ?_).trans ?_⟩
  · rcases hcase with hempty | hfat | hto
    · exact .inr fun hne => absurd hempty hne
    · exact .inr (PeanutVolume.flushMisses_of_isFat hfat)
    · exact .inl hto
  · change root.Flushes fuel k.medium _ name C.length ∨ _ ↔ _
    rw [hto]
    by_cases hpath : path = [] <;> cases root.isFat <;> simp [hpath]

/-- The path `/A` at `0x600000`, and the bytes `hi` at `0x400000`. -/
def fileEnv : CallEnv :=
  { sampleEnv with
    mem := fun a => if 0x600000 ≤ a then (ascii "/A").getD (a - 0x600000) 0 else sampleEnv.mem a }

def openCall : Call := ⟨2, 0x600000, 0, 0, 0, 0, 0⟩

def writeCall : Call := ⟨1, 0, 0x400000, 2, 0, 0, 0⟩

def closeCall : Call := ⟨3, 0, 0, 0, 0, 0, 0⟩

def readCall : Call := ⟨0, 0, 0x400000, 2, 0, 0, 0⟩

def extKernel : Kernel 2 :=
  .boot (schedInit 0) Ext.sampleMedium (.ext Ext.sampleVolume) sampleStatus 0x200000

def fatKernel : Kernel 2 :=
  .boot (schedInit 0) Fat.sampleMedium (.fat32 Fat.sampleVolume) sampleStatus 0x200000

theorem fileEnv_path : IsString (fileEnv.ptr openCall.arg1).bytes (ascii "/A") := by
  decide +kernel

theorem fileEnv_regular : vfsIsPseudoPath (fileEnv.ptr openCall.arg1) = false := by
  decide +kernel

theorem write_back_iff_ext :
    ∃ k₁ k₂ k₃ rs, syscallHandler 0 fileEnv extKernel openCall = some (⟨.value 0, [], []⟩, k₁) ∧
      Runs.outputs (Kernel.answer 0) k₁ [(fileEnv, writeCall)] = some (rs, k₂) ∧
      syscallHandler 0 fileEnv k₂ closeCall = some (⟨.value 0, [], []⟩, k₃) ∧
      ReadsAs 0 k₃ (ascii "/A") (ascii "hic") := by
  have heval : (syscallHandler 0 fileEnv extKernel openCall).bind (fun r =>
      (Runs.outputs (Kernel.answer 0) r.2 [(fileEnv, writeCall)]).map fun s =>
        (r.1, s.2.cursors ⟨0, by decide⟩))
      = some (⟨.value 0, [], []⟩, some ⟨ascii "hic", 2⟩) := by decide +kernel
  obtain ⟨⟨r, k₁⟩, hopen, hrest⟩ := Option.bind_eq_some_iff.1 heval
  obtain ⟨⟨rs', k₂'⟩, hrun', hr⟩ := Option.map_eq_some_iff.1 hrest
  obtain ⟨rfl, hcursor⟩ := Prod.mk.inj hr
  have hname : (PeanutVolume.ext Ext.sampleVolume).openName fileEnv (fileEnv.ptr openCall.arg1)
      = ascii "/A" := by decide +kernel
  have hmount : (PeanutVolume.ext Ext.sampleVolume).Mounted :=
    ⟨Ext.samplePartition, Ext.sampleMedium, by decide +kernel⟩
  have hfile : (PeanutVolume.ext Ext.sampleVolume).Holds 0 Ext.sampleMedium (ascii "/A")
      (ascii "abc") := ⟨by decide +kernel, by decide +kernel⟩
  have hapart : (PeanutVolume.ext Ext.sampleVolume).Apart 0 Ext.sampleMedium (ascii "/A") 3 :=
    -- the lookup drops the slash
    ⟨Ext.sampleInode, Ext.sample_open, Ext.sample_apart.nodup, Ext.sample_apart.map,
      Ext.sample_apart.lookup⟩
  have harg : closeCall.num = 3 ∧ closeCall.arg1.toNat = (⟨0, by decide⟩ : Fin fdMax).val := by
    decide
  obtain ⟨rs, k₂, B, off, hrun, hB, hshort, -⟩ := write_back_iff 0 (schedInit 0)
    Ext.sampleMedium (.ext Ext.sampleVolume) ⟨[], by decide⟩ 0x200000 [] (k := extKernel) rfl
    (sparseMedium_good _) hmount (i := ⟨0, by decide⟩) rfl (by decide) fileEnv_path fileEnv_regular
    hname hfile hapart hopen [(fileEnv, writeCall)] (by simp [writeCall]) fileEnv harg
  obtain ⟨k₃, hclose, hiff⟩ := hshort (by decide +kernel)
  obtain ⟨rfl, rfl⟩ := Prod.mk.inj (Option.some.inj (hrun.symm.trans hrun'))
  obtain ⟨rfl, -⟩ := Cursor.mk.inj (Option.some.inj (hB.symm.trans hcursor))
  refine ⟨k₁, k₂, k₃, rs, hopen, hrun, hclose, hiff.2 ?_⟩
  rintro (hfat | hnil)
  · cases hfat
  · exact absurd hnil (by decide +kernel)

/-- On a FAT volume two bytes are written to the file `/A`, it is closed, and opened and read again:
the bytes are those from before. The same on an exFAT volume with a path of 160 characters. -/
theorem written_data_lost :
    (PeanutVolume.fat32 Fat.sampleVolume).Apart 2 Fat.sampleMedium (ascii "A") 600 ∧
      (Runs.outputs (Kernel.answer 2) fatKernel [(fileEnv, openCall), (fileEnv, writeCall),
          (fileEnv, closeCall), (fileEnv, openCall), (fileEnv, readCall)]).map Prod.fst
        = some [⟨.value 0, [], []⟩, ⟨.value 2, [], []⟩, ⟨.value 0, [], []⟩, ⟨.value 0, [], []⟩,
          ⟨.value 2, [0, 0], []⟩] ∧
      (Runs.outputs (Kernel.answer 2) sampleKernel [(sampleEnv, { openCall with arg1 := 0x500000 }),
          (sampleEnv, writeCall), (sampleEnv, closeCall),
          (sampleEnv, { openCall with arg1 := 0x500000 }), (sampleEnv, readCall)]).map Prod.fst
        = some [⟨.value 0, [], []⟩, ⟨.value 2, [], []⟩, ⟨.value 0, [], []⟩, ⟨.value 0, [], []⟩,
          ⟨.value 2, ascii "da", []⟩] := by
  refine ⟨⟨Fat.sampleFile, by decide +kernel, ?_⟩, by decide +kernel, by decide +kernel⟩
  have hname : ascii "A" = [65] := by decide
  rw [hname]
  exact Fat.sample_apart

end Close

end PeanutKernel
