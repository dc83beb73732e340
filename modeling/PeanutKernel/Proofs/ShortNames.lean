import PeanutKernel.Fat12
import PeanutKernel.Proofs.Slashes
import Mathlib.Data.List.TakeWhile

/-!
# Names of the form 8.3

`fs/fat12.c` makes eleven bytes of a path and compares them with those of a slot; `fs/fat32.c`
makes a string of the bytes of a slot and compares it with a component of the path. For upper-case
names of the form 8.3 this is the same (`nameMatches_eq`).
-/

namespace PeanutKernel

namespace Fat

/-- A name of the form 8.3, without blanks and dots in its parts. -/
structure EightThree (base ext : List UInt8) : Prop where
  base_le : base.length ≤ 8
  ext_le : ext.length ≤ 3
  chars : ∀ c ∈ base ++ ext, c ≠ 0 ∧ c ≠ 32 ∧ c ≠ 46

/-- The name as a string. -/
def dotted (base ext : List UInt8) : List UInt8 := if ext = [] then base else base ++ 46 :: ext

/-- The slot holds an upper-case 8.3 name without inner blanks. -/
def ShortNamed (raw : Buf) : Prop :=
  ∃ base ext, EightThree base ext ∧ (∀ c ∈ base ++ ext, upperAscii c = c) ∧
    bytesOf raw 8 = blankFilled 8 base ∧ bytesOf (fun i => raw (8 + i)) 3 = blankFilled 3 ext

/-- The path is that of a name in the root directory. -/
structure RootPath (path base ext : List UInt8) : Prop where
  name : EightThree base ext
  nonempty : base ≠ []
  separators : ∀ c ∈ base ++ ext, isSeparator c = false
  path_eq : ∃ slashes, (∀ c ∈ slashes, isSeparator c = true) ∧ path = slashes ++ dotted base ext

variable {base ext base' ext' : List UInt8}

theorem upperAscii_of_lt {c d : UInt8} (hd : d < 65) (h : upperAscii c = d) : c = d := by
  unfold upperAscii at h
  split_ifs at h with hlow
  · have h97 := UInt8.le_iff_toNat_le.1 hlow.1
    have h122 := UInt8.le_iff_toNat_le.1 hlow.2
    have hlt := UInt8.lt_iff_toNat_lt.1 hd
    rw [← h, UInt8.toNat_sub_of_le _ _ (UInt8.le_iff_toNat_le.2 (le_trans (by decide) h97))] at hlt
    simp only [UInt8.reduceToNat] at h97 h122 hlt
    omega
  · exact h

theorem upperAscii_dot : upperAscii 46 = 46 := by decide

theorem streqCi_iff : ∀ {a b : List UInt8}, streqCi a b = true ↔ a.map upperAscii = b.map upperAscii
  | [], [] => by simp [streqCi]
  | [], _ :: _ => by simp [streqCi]
  | _ :: _, [] => by simp [streqCi]
  | a :: as, b :: bs => by
    rw [streqCi, Bool.and_eq_true, decide_eq_true_iff, streqCi_iff, List.map_cons, List.map_cons,
      List.cons.injEq]

theorem map_dotted (base ext : List UInt8) :
    (dotted base ext).map upperAscii = dotted (base.map upperAscii) (ext.map upperAscii) := by
  unfold dotted
  by_cases hext : ext = []
  · rw [if_pos hext, if_pos (by rw [hext, List.map_nil])]
  · rw [if_neg hext, if_neg (by rwa [List.map_eq_nil_iff]), List.map_append, List.map_cons,
      upperAscii_dot]

theorem EightThree.map (h : EightThree base ext) :
    EightThree (base.map upperAscii) (ext.map upperAscii) := by
  refine ⟨by rw [List.length_map]; exact h.base_le, by rw [List.length_map]; exact h.ext_le, ?_⟩
  intro c hc
  rw [← List.map_append, List.mem_map] at hc
  obtain ⟨d, hd, rfl⟩ := hc
  obtain ⟨h0, h32, h46⟩ := h.chars d hd
  exact ⟨fun h => h0 (upperAscii_of_lt (by decide) h),
    fun h => h32 (upperAscii_of_lt (by decide) h),
    fun h => h46 (upperAscii_of_lt (by decide) h)⟩

theorem takeWhile_blankFilled {n : ℕ} {l : List UInt8} (h : ∀ c ∈ l, c ≠ 32) :
    (blankFilled n l).takeWhile (· ≠ 32) = l := by
  have hblank : (List.replicate (n - l.length) (32 : UInt8)).takeWhile (· ≠ 32) = [] := by
    cases n - l.length <;> rfl
  rw [blankFilled, List.takeWhile_append_of_pos fun c hc => decide_eq_true (h c hc), hblank,
    List.append_nil]

theorem blankFilled_inj {n : ℕ} {l l' : List UInt8} (h : ∀ c ∈ l, c ≠ 32) (h' : ∀ c ∈ l', c ≠ 32)
    (heq : blankFilled n l = blankFilled n l') : l = l' := by
  rw [← takeWhile_blankFilled (n := n) h, heq, takeWhile_blankFilled h']

theorem length_blankFilled {n : ℕ} {l : List UInt8} (h : l.length ≤ n) :
    (blankFilled n l).length = n := by
  rw [blankFilled, List.length_append, List.length_replicate]
  omega

section

variable (h : EightThree base ext)

include h

/-- The dot ends the base of a name. -/
theorem takeWhile_dotted : (dotted base ext).takeWhile (· ≠ 46) = base := by
  have hbase : ∀ c ∈ base, decide (c ≠ 46) = true := fun c hc =>
    decide_eq_true (h.chars c (List.mem_append_left _ hc)).2.2
  unfold dotted
  split_ifs
  · exact List.takeWhile_eq_self_iff.2 hbase
  · rw [List.takeWhile_append_of_pos hbase, List.takeWhile_cons_of_neg (by simp), List.append_nil]

theorem dotted_inj (h' : EightThree base' ext') (heq : dotted base ext = dotted base' ext') :
    base = base' ∧ ext = ext' := by
  have hbase : base = base' := by rw [← takeWhile_dotted h, heq, takeWhile_dotted h']
  subst hbase
  refine ⟨rfl, ?_⟩
  unfold dotted at heq
  split_ifs at heq with hext hext' hext'
  · rw [hext, hext']
  · simp at heq
  · simp at heq
  · simpa using heq

theorem EightThree.base_ne : ∀ c ∈ base, c ≠ 32 := fun c hc =>
  (h.chars c (List.mem_append_left _ hc)).2.1

theorem EightThree.ext_ne : ∀ c ∈ ext, c ≠ 32 := fun c hc =>
  (h.chars c (List.mem_append_right _ hc)).2.1

theorem EightThree.dotted_ne_zero : ∀ c ∈ dotted base ext, c ≠ 0 := by
  intro c hc
  unfold dotted at hc
  split_ifs at hc
  · exact (h.chars c (List.mem_append_left _ hc)).1
  · rcases List.mem_append.1 hc with hc | hc
    · exact (h.chars c (List.mem_append_left _ hc)).1
    · rcases List.mem_cons.1 hc with rfl | hc
      · decide
      · exact (h.chars c (List.mem_append_right _ hc)).1

/-- `make_short_name` shows a name of the form 8.3 as it is. -/
theorem makeShortName_eq {raw : Buf} (hbase : bytesOf raw 8 = blankFilled 8 base)
    (hext : bytesOf (fun i => raw (8 + i)) 3 = blankFilled 3 ext) :
    makeShortName raw = dotted base ext := by
  have hhead : raw 8 = (blankFilled 3 ext).head (by
      rw [← List.length_pos_iff, length_blankFilled h.ext_le]; decide) := by
    simp only [← hext]
    rfl
  have hdot : raw 8 ≠ 32 ↔ ext ≠ [] := by
    rcases ext with _ | ⟨c, l⟩
    · simp [hhead, blankFilled]
    · simp [hhead, blankFilled, h.ext_ne c List.mem_cons_self]
  have hname : (base ++ if raw 8 ≠ 32 then 46 :: ext else []) = dotted base ext := by
    unfold dotted
    by_cases hnil : ext = []
    · rw [if_neg (by rw [hdot]; exact not_not.2 hnil), if_pos hnil, List.append_nil]
    · rw [if_pos (hdot.2 hnil), if_neg hnil]
  rw [makeShortName, hbase, hext, takeWhile_blankFilled h.base_ne, takeWhile_blankFilled h.ext_ne,
    hname, cstr, List.takeWhile_eq_self_iff]
  exact fun c hc => decide_eq_true (h.dotted_ne_zero c hc)

end

/-- The name `fat12_make_name` builds of the path. -/
def wantedName (base ext : List UInt8) : List UInt8 :=
  blankFilled 8 (base.map upperAscii) ++ blankFilled 3 (ext.map upperAscii)

/-- Comparing the eleven bytes and comparing the names come to the same. -/
theorem nameMatches_eq {raw : Buf} (h : EightThree base ext) (hraw : ShortNamed raw) :
    fat12NameMatches raw (wantedName base ext) = streqCi (makeShortName raw) (dotted base ext) := by
  obtain ⟨base', ext', h', hupper, hbase, hext⟩ := hraw
  have hself : ∀ l : List UInt8, (∀ c ∈ l, upperAscii c = c) → l.map upperAscii = l := fun l hl =>
    (List.map_congr_left hl).trans (List.map_id' l)
  have hb := hself base' fun c hc => hupper c (List.mem_append_left _ hc)
  have he := hself ext' fun c hc => hupper c (List.mem_append_right _ hc)
  have hlen : (blankFilled 8 (base.map upperAscii)).length = 8 := length_blankFilled h.map.base_le
  rw [Bool.eq_iff_iff, makeShortName_eq h' hbase hext, streqCi_iff, map_dotted, map_dotted, hb, he,
    fat12NameMatches, Bool.and_eq_true, decide_eq_true_iff, decide_eq_true_iff, hbase, hext,
    wantedName, List.take_left' hlen, List.drop_left' hlen]
  constructor
  · rintro ⟨hbases, hexts⟩
    rw [blankFilled_inj h'.base_ne h.map.base_ne hbases,
      blankFilled_inj h'.ext_ne h.map.ext_ne hexts]
  · intro heq
    obtain ⟨hbases, hexts⟩ := dotted_inj h' h.map heq
    rw [← hbases, ← hexts]
    exact ⟨rfl, rfl⟩

theorem makeNameLoop_base (rest ext : List UInt8) :
    ∀ (l acc : List UInt8), (∀ c ∈ l, isSeparator c = false ∧ c ≠ 46) → acc.length + l.length ≤ 8 →
      makeNameLoop (l ++ rest) false acc ext
        = makeNameLoop rest false (acc ++ l.map upperAscii) ext
  | [], acc, _, _ => by rw [List.nil_append, List.map_nil, List.append_nil]
  | c :: l, acc, hl, hlen => by
    obtain ⟨hsep, hdot⟩ := hl c List.mem_cons_self
    rw [List.length_cons] at hlen
    rw [List.cons_append, makeNameLoop, if_neg (by simp [hsep]), if_neg hdot, if_pos rfl,
      if_neg (by omega),
      makeNameLoop_base rest ext l _ (fun d hd => hl d (List.mem_cons_of_mem _ hd))
        (by rw [List.length_append, List.length_singleton]; omega),
      List.append_assoc, List.map_cons, List.singleton_append]

theorem makeNameLoop_ext (base : List UInt8) :
    ∀ (l acc : List UInt8), (∀ c ∈ l, isSeparator c = false ∧ c ≠ 46) → acc.length + l.length ≤ 3 →
      makeNameLoop l true base acc = if base = [] then none
        else some (blankFilled 8 base ++ blankFilled 3 (acc ++ l.map upperAscii))
  | [], acc, _, _ => by rw [makeNameLoop, List.map_nil, List.append_nil]
  | c :: l, acc, hl, hlen => by
    obtain ⟨hsep, hdot⟩ := hl c List.mem_cons_self
    rw [List.length_cons] at hlen
    rw [makeNameLoop, if_neg (by simp [hsep]), if_neg hdot, if_neg (by decide), if_neg (by omega),
      makeNameLoop_ext base l _ (fun d hd => hl d (List.mem_cons_of_mem _ hd))
        (by rw [List.length_append, List.length_singleton]; omega),
      List.append_assoc, List.map_cons, List.singleton_append]

variable {path : List UInt8}

variable (h : RootPath path base ext)

include h

theorem RootPath.dropSeparators : path.dropWhile isSeparator = dotted base ext := by
  obtain ⟨slashes, hslashes, rfl⟩ := h.path_eq
  obtain ⟨c, l, hcl⟩ := List.exists_cons_of_ne_nil h.nonempty
  have hc : isSeparator c = false :=
    h.separators c (List.mem_append_left _ (hcl ▸ List.mem_cons_self))
  obtain ⟨l', hl'⟩ : ∃ l', dotted base ext = c :: l' := by
    unfold dotted
    rw [hcl]
    split_ifs
    · exact ⟨l, rfl⟩
    · exact ⟨l ++ 46 :: ext, rfl⟩
  rw [List.dropWhile_append_of_pos hslashes, hl', List.dropWhile_cons_of_neg (by simp [hc])]

theorem RootPath.makeName : fat12MakeName path = some (wantedName base ext) := by
  have hchars : ∀ c ∈ base ++ ext, isSeparator c = false ∧ c ≠ 46 := fun c hc =>
    ⟨h.separators c hc, (h.name.chars c hc).2.2⟩
  have hloop : ∀ rest ext', makeNameLoop (base ++ rest) false [] ext'
      = makeNameLoop rest false (base.map upperAscii) ext' := fun rest ext' =>
    makeNameLoop_base rest ext' base [] (fun c hc => hchars c (List.mem_append_left _ hc))
      (by simpa using h.name.base_le)
  have hne : base.map upperAscii ≠ [] := by
    rw [Ne, List.map_eq_nil_iff]
    exact h.nonempty
  rw [fat12MakeName, h.dropSeparators, dotted]
  split_ifs with hext
  · have := hloop [] []
    rw [List.append_nil] at this
    rw [this, makeNameLoop, if_neg hne, wantedName, hext, List.map_nil]
  · rw [hloop, makeNameLoop, if_neg (by decide), if_pos rfl, if_neg (by decide),
      makeNameLoop_ext _ ext [] (fun c hc => hchars c (List.mem_append_right _ hc))
        (by simpa using h.name.ext_le), if_neg hne]
    rfl

theorem RootPath.components_eq : components path = [dotted base ext] := by
  have hne : dotted base ext ≠ [] := by
    unfold dotted
    split_ifs
    · exact h.nonempty
    · simp
  have hsep : ∀ c ∈ dotted base ext, isSeparator c = false := by
    intro c hc
    have hmem : c ∈ base ++ ext ∨ c = 46 := by
      unfold dotted at hc
      split_ifs at hc
      · exact Or.inl (List.mem_append_left _ hc)
      · simp only [List.mem_append, List.mem_cons] at hc ⊢
        tauto
    rcases hmem with hmem | rfl
    · exact h.separators c hmem
    · decide
  rw [PeanutKernel.components_eq, ← names_dropWhile, h.dropSeparators, names,
    List.splitOnP_eq_singleton hsep]
  simp [hne]

end Fat

end PeanutKernel
