import PeanutKernel.Fb
import PeanutKernel.Lib.TextGrid

/-!
# The framebuffer console is a text terminal

What `fb_putc` leaves in the framebuffer is the picture of a terminal: the glyphs of its cells, and
nothing in the lines and columns that are left over. Drawing a glyph changes one cell of the
picture, and moving the lines of the framebuffer up by the height of a glyph moves the text up by
one line, since the lines left over at the bottom are empty.
-/

namespace PeanutKernel

namespace Fb

open MemM

section Geometry

variable (f : Framebuffer) (font : PsfFont)

/-- There is a framebuffer, with room for a character. -/
structure Usable : Prop where
  fb : f.fb ≠ 0
  glyphWidth : font.glyphWidth = 8
  width : font.glyphWidth ≤ f.width
  glyphHeight : 0 < font.glyphHeight
  height : font.glyphHeight ≤ f.height
  pitch : f.width ≤ f.pitchPixels
  size : f.height * f.pitchPixels < 2 ^ 32

def rows : ℕ := f.height / font.glyphHeight

def cols : ℕ := f.width / font.glyphWidth

/-- An access to a pixel of the framebuffer. -/
def InFramebuffer : Access ℕ → Prop
  | .read a => a < f.height * f.pitchPixels
  | .write a => a < f.height * f.pitchPixels

variable {f font} (h : Usable f font)
include h

theorem Usable.rows_pos : 0 < rows f font := Nat.div_pos h.height h.glyphHeight

theorem Usable.cols_pos : 0 < cols f font := by
  have := h.width
  have := h.glyphWidth
  rw [cols, h.glyphWidth]
  omega

section

variable {y x : ℕ} (hy : y < f.height) (hx : x < f.width)

include hy hx

theorem Usable.place_lt : y * f.pitchPixels + x < f.height * f.pitchPixels := by
  have hrow : (y + 1) * f.pitchPixels ≤ f.height * f.pitchPixels := Nat.mul_le_mul_right _ hy
  rw [Nat.succ_mul] at hrow
  have := h.pitch
  omega

theorem Usable.index_eq : index f y x = y * f.pitchPixels + x :=
  Nat.mod_eq_of_lt ((h.place_lt hy hx).trans h.size)

theorem Usable.index_lt : index f y x < f.height * f.pitchPixels := by
  rw [h.index_eq hy hx]
  exact h.place_lt hy hx

theorem Usable.index_inj {y' x' : ℕ} (hy' : y' < f.height) (hx' : x' < f.width)
    (heq : index f y x = index f y' x') : y = y' ∧ x = x' := by
  have hpitch := h.pitch
  have hdiv : ∀ y x, x < f.width → (y * f.pitchPixels + x) / f.pitchPixels = y := by
    intro y x hx
    rw [Nat.mul_comm, Nat.mul_add_div (by omega), Nat.div_eq_of_lt (by omega), Nat.add_zero]
  rw [h.index_eq hy hx, h.index_eq hy' hx'] at heq
  have hrow : y = y' := by rw [← hdiv y x hx, heq, hdiv y' x' hx']
  exact ⟨hrow, by rw [hrow] at heq; omega⟩

end

theorem Usable.height_lt : f.height < 2 ^ 32 := by
  have hpitch : 0 < f.pitchPixels := by
    have := h.width
    have := h.glyphWidth
    have := h.pitch
    omega
  exact (Nat.le_mul_of_pos_right f.height hpitch).trans_lt h.size

theorem Usable.width_lt : f.width < 2 ^ 32 := by
  have hheight : 0 < f.height := h.glyphHeight.trans_le h.height
  exact (h.pitch.trans (Nat.le_mul_of_pos_left f.pitchPixels hheight)).trans_lt h.size

omit h in
/-- The lines of a row of text are lines of the framebuffer. -/
theorem row_le {y : ℕ} (hy : y < rows f font) :
    y * font.glyphHeight + font.glyphHeight ≤ f.height := by
  have hle : (y + 1) * font.glyphHeight ≤ f.height / font.glyphHeight * font.glyphHeight :=
    Nat.mul_le_mul_right _ hy
  rw [Nat.succ_mul] at hle
  exact hle.trans (Nat.div_mul_le_self _ _)

theorem Usable.col_le {x : ℕ} (hx : x < cols f font) : x * 8 + 8 ≤ f.width := by
  rw [cols, h.glyphWidth] at hx
  omega

end Geometry

section Loops

variable {f : Framebuffer} {font : PsfFont} (h : Usable f font) (mem : ℕ → Pixel)
include h

theorem clearFrom_spec (first : ℕ) :
    MemM.Within (InFramebuffer f) (clearFrom f first) mem
      ∧ ∀ y x, y < f.height → x < f.width → (clearFrom f first).after mem (index f y x)
        = if first ≤ y then 0 else mem (index f y x) := by
  obtain ⟨hwithin, hstored⟩ := forRange_stores first (f.height - first) f.width (index f)
    (fun _ _ => 0) mem (P := InFramebuffer f) (fun y x => store (index f y x) 0x00000000)
    (fun j k j' k' hlo hj hk hlo' hj' hk' heq => h.index_inj (by omega) hk (by omega) hk' heq)
    (fun j k mem' hlo hj hk _ => ⟨(within_store _ 0).2 (h.index_lt (by omega) hk), after_store ..⟩)
  refine ⟨hwithin, fun y x hy hx => ?_⟩
  split_ifs with hfirst
  · exact hstored.stored y x ⟨hfirst, by omega, hx, by omega⟩
  · refine hstored.kept _ fun j k hbefore heq => ?_
    obtain ⟨hlo, hj, hk, _⟩ := hbefore
    have := h.index_inj hy hx (by omega) hk heq
    omega

/-- A round of the loop of `scroll_if_needed` that moves the lines up. -/
def copyPixel (f : Framebuffer) (glyphH y x : ℕ) : PixelM Unit := do
  let p ← load (index f y x)
  store (index f (y - glyphH) x) p

/-- A line is read before another is moved there. -/
theorem copyUp_spec :
    MemM.Within (InFramebuffer f) (eachPixel f font.glyphHeight (copyPixel f font.glyphHeight)) mem
      ∧ ∀ y x, y < f.height → x < f.width →
        (eachPixel f font.glyphHeight (copyPixel f font.glyphHeight)).after mem (index f y x)
          = if y + font.glyphHeight < f.height then mem (index f (y + font.glyphHeight) x)
            else mem (index f y x) := by
  have hglyph := h.glyphHeight
  have hheight := h.height
  have hinj : ∀ j k j' k', font.glyphHeight ≤ j →
      j < font.glyphHeight + (f.height - font.glyphHeight) → k < f.width →
      font.glyphHeight ≤ j' → j' < font.glyphHeight + (f.height - font.glyphHeight) →
      k' < f.width → index f (j - font.glyphHeight) k = index f (j' - font.glyphHeight) k' →
      j = j' ∧ k = k' := by
    intro j k j' k' hlo hj hk hlo' hj' hk' heq
    have := h.index_inj (by omega) hk (by omega) hk' heq
    omega
  obtain ⟨hwithin, hstored⟩ := forRange_stores font.glyphHeight (f.height - font.glyphHeight)
    f.width (fun y x => index f (y - font.glyphHeight) x) (fun y x => mem (index f y x)) mem
    (P := InFramebuffer f) (copyPixel f font.glyphHeight) hinj
    (fun j k mem' hlo hj hk hkept => by
      have hload : mem' (index f j k) = mem (index f j k) := by
        refine hkept _ fun j' k' hbefore heq => ?_
        obtain ⟨hlo', hj', hk', hlt⟩ := hbefore
        have := h.index_inj (by omega) hk (by omega) hk' heq
        omega
      rw [copyPixel, within_bind, after_bind, value_load, after_load, hload]
      exact ⟨⟨(within_load _).2 (h.index_lt (by omega) hk),
        (within_store _ _).2 (h.index_lt (by omega) hk)⟩, after_store ..⟩)
  refine ⟨hwithin, fun y x hy hx => ?_⟩
  split_ifs with hrow
  · have := hstored.stored (y + font.glyphHeight) x ⟨by omega, by omega, hx, by omega⟩
    simp only [Nat.add_sub_cancel] at this
    exact this
  · refine hstored.kept _ fun j k hbefore heq => ?_
    obtain ⟨hlo, hj, hk, _⟩ := hbefore
    have := h.index_inj hy hx (by omega) hk heq
    omega

/-- The loops of `fb_putc` over the rows and columns of a glyph. -/
def drawGlyph (f : Framebuffer) (font : PsfFont) (cur : Cursor) (glyph : Buf) : PixelM Unit :=
  let px := cur.x * font.glyphWidth % 2 ^ 32
  let py := cur.y * font.glyphHeight % 2 ^ 32
  forRange 0 font.glyphHeight fun row =>
    forRange 0 font.glyphWidth fun col =>
      if (px + col) % 2 ^ 32 < f.width ∧ (py + row) % 2 ^ 32 < f.height then
        store (index f (py + row) (px + col)) (color (glyph row) col)
      else pure ()

theorem drawGlyph_spec {cur : Cursor} (hx : cur.x < cols f font) (hy : cur.y < rows f font)
    (glyph : Buf) :
    MemM.Within (InFramebuffer f) (drawGlyph f font cur glyph) mem
      ∧ ∀ y x, y < f.height → x < f.width → (drawGlyph f font cur glyph).after mem (index f y x)
        = if y / font.glyphHeight = cur.y ∧ x / 8 = cur.x then
            color (glyph (y % font.glyphHeight)) (x % 8)
          else mem (index f y x) := by
  have hwidth := h.width_lt
  have hheight := h.height_lt
  have hrow := row_le hy
  have hcol := h.col_le hx
  have hpx : cur.x * font.glyphWidth % 2 ^ 32 = cur.x * 8 := by
    rw [h.glyphWidth]
    exact Nat.mod_eq_of_lt (by omega)
  have hpy : cur.y * font.glyphHeight % 2 ^ 32 = cur.y * font.glyphHeight :=
    Nat.mod_eq_of_lt (by omega)
  have hinj : ∀ j k j' k', 0 ≤ j → j < 0 + font.glyphHeight → k < 8 → 0 ≤ j' →
      j' < 0 + font.glyphHeight → k' < 8 →
      index f (cur.y * font.glyphHeight + j) (cur.x * 8 + k)
        = index f (cur.y * font.glyphHeight + j') (cur.x * 8 + k') → j = j' ∧ k = k' := by
    intro j k j' k' _ hj hk _ hj' hk' heq
    have := h.index_inj (by omega) (by omega) (by omega) (by omega) heq
    omega
  obtain ⟨hwithin, hstored⟩ := forRange_stores 0 font.glyphHeight 8
    (fun j k => index f (cur.y * font.glyphHeight + j) (cur.x * 8 + k))
    (fun j k => color (glyph j) k) mem (P := InFramebuffer f)
    (fun row col =>
      if (cur.x * 8 + col) % 2 ^ 32 < f.width
          ∧ (cur.y * font.glyphHeight + row) % 2 ^ 32 < f.height then
        store (index f (cur.y * font.glyphHeight + row) (cur.x * 8 + col)) (color (glyph row) col)
      else pure ()) hinj
    (fun j k mem' _ hj hk _ => by
      rw [Nat.mod_eq_of_lt (by omega), Nat.mod_eq_of_lt (by omega), if_pos ⟨by omega, by omega⟩]
      exact ⟨(within_store _ _).2 (h.index_lt (by omega) (by omega)), after_store ..⟩)
  rw [drawGlyph, hpx, hpy, h.glyphWidth]
  refine ⟨hwithin, fun y x hy' hx' => ?_⟩
  split_ifs with hcell
  · have hline : cur.y * font.glyphHeight + y % font.glyphHeight = y := by
      rw [← hcell.1, Nat.div_add_mod']
    have hcolumn : cur.x * 8 + x % 8 = x := by omega
    have hmod := Nat.mod_lt y h.glyphHeight
    have := hstored.stored (y % font.glyphHeight) (x % 8) ⟨by omega, by omega, by omega, by omega⟩
    rwa [hline, hcolumn] at this
  · refine hstored.kept _ fun j k hbefore heq => hcell ?_
    obtain ⟨_, hj, hk, _⟩ := hbefore
    obtain ⟨rfl, rfl⟩ := h.index_inj hy' hx' (by omega) (by omega) heq
    rw [Nat.mul_comm, Nat.mul_add_div h.glyphHeight, Nat.div_eq_of_lt (by omega)]
    omega

end Loops

section Picture

variable (f : Framebuffer) (font : PsfFont)

/-- The character whose glyph is drawn. -/
def shown (c : UInt8) : UInt8 := if font.glyphCount ≤ c.toNat then 63 else c

/-- The glyph of a character, a byte for each of its rows. -/
def glyphOf (c : UInt8) : Buf :=
  fun i => font.glyphs ((shown font c).toNat * font.bytesPerGlyph % 2 ^ 32 + i)

/-- A pixel of a cell. -/
def cellPixel (row col : ℕ) : Option UInt8 → Pixel
  | none => 0
  | some c => color (glyphOf font c row) col

/-- A pixel of the text in the cells. -/
def picture (cell : ℕ → ℕ → Option UInt8) (y x : ℕ) : Pixel :=
  if y / font.glyphHeight < rows f font then
    cellPixel font (y % font.glyphHeight) (x % 8) (cell (y / font.glyphHeight) (x / 8))
  else 0

/-- The framebuffer shows the text, and nothing in the lines below it. -/
def Shows (cell : ℕ → ℕ → Option UInt8) (mem : ℕ → Pixel) : Prop :=
  ∀ y x, y < f.height → x < 8 * cols f font → mem (index f y x) = picture f font cell y x

variable {f font} {mem : ℕ → Pixel} {cell : ℕ → ℕ → Option UInt8}

theorem picture_blank (y x : ℕ) : picture f font (fun _ _ => none) y x = 0 := by
  rw [picture]
  split_ifs <;> rfl

variable (h : Usable f font)
include h

theorem Usable.text_lt {x : ℕ} (hx : x < 8 * cols f font) : x < f.width := by
  rw [cols, h.glyphWidth] at hx
  omega

theorem shows_cleared (mem : ℕ → Pixel) :
    Shows f font (fun _ _ => none) ((clearFrom f 0).after mem) := by
  intro y x hy hx
  rw [(clearFrom_spec h mem 0).2 y x hy (h.text_lt hx), if_pos (Nat.zero_le y), picture_blank]

theorem shows_written (cur : Cursor) (hx : cur.x < cols f font) (hy : cur.y < rows f font)
    (c : UInt8) (hshows : Shows f font cell mem) :
    Shows f font (fun y x => if y = cur.y ∧ x = cur.x then some c else cell y x)
      ((drawGlyph f font cur (glyphOf font c)).after mem) := by
  intro y x hy' hx'
  rw [(drawGlyph_spec h mem hx hy (glyphOf font c)).2 y x hy' (h.text_lt hx'), picture]
  split_ifs with hcell hrow hrow
  · rfl
  · exact absurd (hcell.1 ▸ hy) hrow
  · rw [hshows y x hy' hx', picture, if_pos hrow]
  · rw [hshows y x hy' hx', picture, if_neg hrow]

/-- The text one line up is the lines of the framebuffer up by the height of a glyph. -/
theorem picture_lineUp {y : ℕ} (x : ℕ) :
    picture f font (Terminal.lineUp (rows f font) cell) y x
      = if y + font.glyphHeight < f.height then picture f font cell (y + font.glyphHeight) x
        else 0 := by
  have hrow : (y + font.glyphHeight) / font.glyphHeight = y / font.glyphHeight + 1 :=
    Nat.add_div_right y h.glyphHeight
  split_ifs with hy
  · rw [picture, picture, hrow, Nat.add_mod_right, Terminal.lineUp]
    split_ifs
    · rfl
    · rfl
    · omega
    · rfl
  · -- the lines that come up from below the last row of text are not drawn
    have hlast : rows f font ≤ y / font.glyphHeight + 1 := by
      rw [← hrow]
      exact Nat.div_le_div_right (Nat.not_lt.1 hy)
    rw [picture, Terminal.lineUp, if_neg (Nat.not_lt.2 hlast)]
    split_ifs <;> rfl

theorem shows_scrolled (hshows : Shows f font cell mem) :
    Shows f font (Terminal.lineUp (rows f font) cell)
      ((clearFrom f (f.height - font.glyphHeight)).after
        ((eachPixel f font.glyphHeight (copyPixel f font.glyphHeight)).after mem)) := by
  intro y x hy hx
  rw [(clearFrom_spec h _ _).2 y x hy (h.text_lt hx), (copyUp_spec h mem).2 y x hy (h.text_lt hx),
    picture_lineUp h]
  have := h.height
  split_ifs with h₁ h₂ h₂
  · omega
  · rfl
  · exact hshows _ x h₂ hx
  · omega

end Picture

section Simulation

variable {f : Framebuffer} {font : PsfFont}

/-- The program stays in the framebuffer, which shows the terminal when it ends, and leaves the
cursor where the terminal has it. -/
structure Draws (f : Framebuffer) (font : PsfFont) (p : PixelM Cursor) (mem : ℕ → Pixel)
    (t : Terminal (rows f font) (cols f font) UInt8) : Prop where
  within : MemM.Within (InFramebuffer f) p mem
  cursor : p.value mem = ⟨t.x, t.y⟩
  shows : Shows f font t.cell (p.after mem)

theorem draws_bind {α : Type} {p : PixelM α} {g : α → PixelM Cursor} {mem : ℕ → Pixel}
    {t : Terminal (rows f font) (cols f font) UInt8} (hp : MemM.Within (InFramebuffer f) p mem)
    (hg : Draws f font (g (p.value mem)) (p.after mem) t) : Draws f font (p >>= g) mem t where
  within := within_bind.2 ⟨hp, hg.within⟩
  cursor := (value_bind g p mem).trans hg.cursor
  shows := by
    rw [after_bind]
    exact hg.shows

theorem draws_pure {mem : ℕ → Pixel} {t : Terminal (rows f font) (cols f font) UInt8}
    (hshows : Shows f font t.cell mem) : Draws f font (pure ⟨t.x, t.y⟩) mem t where
  within := (within_pure _).2 trivial
  cursor := rfl
  shows := hshows

/-- What typing a character does to a terminal. -/
def typed (t : Terminal (rows f font) (cols f font) UInt8) (c : UInt8) :
    Terminal (rows f font) (cols f font) UInt8 :=
  if c = 10 then t.newline else t.put c

theorem fbPutc_eq (hfb : f.fb ≠ 0) {c : UInt8} (hc : c ≠ 10) (x y : ℕ) :
    fbPutc f font ⟨x, y⟩ c = (do
      drawGlyph f font ⟨x, y⟩ (glyphOf font c)
      if cols f font ≤ (x + 1) % 2 ^ 32 then scrollIfNeeded f font ⟨0, (y + 1) % 2 ^ 32⟩
      else pure ⟨(x + 1) % 2 ^ 32, y⟩) := by
  rw [fbPutc, if_neg hfb, if_neg hc]
  rfl

variable (h : Usable f font) {mem : ℕ → Pixel} (t : Terminal (rows f font) (cols f font) UInt8)
include h

variable (hshows : Shows f font t.cell mem)

include hshows

theorem scrollIfNeeded_draws :
    Draws f font (scrollIfNeeded f font ⟨0, (t.y + 1) % 2 ^ 32⟩) mem t.newline := by
  have hrows : rows f font ≤ f.height := Nat.div_le_self _ _
  have hheight := h.height_lt
  have ht := t.y_lt
  rw [Nat.mod_eq_of_lt (by omega)]
  by_cases hlast : t.y + 1 < rows f font
  · rw [scrollIfNeeded, if_pos (show t.y + 1 < f.height / font.glyphHeight from hlast),
      Terminal.newline, dif_pos hlast]
    exact draws_pure (t := ⟨t.cell, 0, t.y + 1, _, hlast⟩) hshows
  · have hfirst : (f.height + (2 ^ 32 - font.glyphHeight)) % 2 ^ 32
        = f.height - font.glyphHeight := by
      have := h.height
      have := h.glyphHeight
      omega
    have hcursor : (f.height / font.glyphHeight + (2 ^ 32 - 1)) % 2 ^ 32 = t.y := by
      rw [← rows]
      omega
    rw [scrollIfNeeded, if_neg (show ¬ t.y + 1 < f.height / font.glyphHeight from hlast),
      Terminal.newline, dif_neg hlast, hfirst, hcursor]
    refine draws_bind (copyUp_spec h mem).1 (draws_bind (clearFrom_spec h _ _).1 ?_)
    exact draws_pure (t := ⟨_, 0, t.y, _, _⟩) (shows_scrolled h hshows)

/-- Each character is one step of the terminal. -/
theorem fbPutc_draws (c : UInt8) : Draws f font (fbPutc f font ⟨t.x, t.y⟩ c) mem (typed t c) := by
  by_cases hc : c = 10
  · rw [fbPutc, if_neg h.fb, if_pos hc, typed, if_pos hc]
    exact scrollIfNeeded_draws h t hshows
  · have hcols : cols f font ≤ f.width := Nat.div_le_self _ _
    have hwidth := h.width_lt
    have ht := t.x_lt
    have hdrawn := shows_written h ⟨t.x, t.y⟩ t.x_lt t.y_lt c hshows
    rw [fbPutc_eq h.fb hc, typed, if_neg hc, Terminal.put]
    refine draws_bind (drawGlyph_spec h mem t.x_lt t.y_lt (glyphOf font c)).1 ?_
    rw [Nat.mod_eq_of_lt (by omega)]
    by_cases hnext : t.x + 1 < cols f font
    · rw [if_neg (Nat.not_le.2 hnext), dif_pos hnext]
      exact draws_pure (t := ⟨t.written c, t.x + 1, t.y, hnext, t.y_lt⟩) hdrawn
    · rw [if_pos (Nat.not_lt.1 hnext), dif_neg hnext]
      exact scrollIfNeeded_draws h { t with cell := t.written c } hdrawn

theorem fbPuts_draws (text : List UInt8) :
    Draws f font (fbPuts f font ⟨t.x, t.y⟩ text) mem (text.foldl typed t) := by
  induction text generalizing mem t with
  | nil => exact draws_pure hshows
  | cons c text ih =>
    have hstep := fbPutc_draws h t hshows c
    rw [fbPuts, List.foldl_cons]
    refine draws_bind hstep.within ?_
    rw [hstep.cursor]
    exact ih (typed t c) hstep.shows

end Simulation

/-- `fb_clear`, and `fb_putc` for each character of a string. -/
def printCleared (f : Framebuffer) (font : PsfFont) (cur : Cursor) (text : List UInt8) :
    PixelM Cursor := do
  let cur ← fbClear f cur
  fbPuts f font cur text

theorem printCleared_draws {f : Framebuffer} {font : PsfFont} (h : Usable f font)
    (mem : ℕ → Pixel) (cur : Cursor) (text : List UInt8) :
    Draws f font (printCleared f font cur text) mem
      (text.foldl typed (Terminal.blank h.rows_pos h.cols_pos)) := by
  have hclear : Draws f font (fbClear f cur) mem (Terminal.blank h.rows_pos h.cols_pos) := by
    rw [fbClear, if_neg h.fb]
    refine draws_bind (clearFrom_spec h mem 0).1 ?_
    exact draws_pure (t := Terminal.blank h.rows_pos h.cols_pos) (shows_cleared h mem)
  refine draws_bind hclear.within ?_
  rw [hclear.cursor]
  exact fbPuts_draws h _ hclear.shows text

/-- A string printed on a cleared console, whatever the framebuffer and the cursor were before, is
drawn as a terminal has it that was blank. -/
theorem console_draws_terminal {f : Framebuffer} {font : PsfFont} (h : Usable f font)
    (mem : ℕ → Pixel) (cur : Cursor) (text : List UInt8) :
    let p := printCleared f font cur text
    let t := text.foldl typed (Terminal.blank h.rows_pos h.cols_pos)
    (∀ row col i j, row < rows f font → col < cols f font → i < font.glyphHeight → j < 8 →
        p.after mem (index f (row * font.glyphHeight + i) (col * 8 + j))
          = cellPixel font i j (t.cell row col))
      ∧ p.value mem = ⟨t.x, t.y⟩ ∧ (p.value mem).x < cols f font ∧ (p.value mem).y < rows f font
      ∧ MemM.Within (InFramebuffer f) p mem := by
  intro p t
  have hdraws : Draws f font p mem t := printCleared_draws h mem cur text
  refine ⟨fun row col i j hrow hcol hi hj => ?_, hdraws.cursor, ?_, ?_, hdraws.within⟩
  · have hline := row_le hrow
    have hdiv : (row * font.glyphHeight + i) / font.glyphHeight = row := by
      rw [Nat.mul_comm, Nat.mul_add_div h.glyphHeight, Nat.div_eq_of_lt hi, Nat.add_zero]
    have hmod : (row * font.glyphHeight + i) % font.glyphHeight = i := by
      rw [Nat.mul_comm, Nat.mul_add_mod, Nat.mod_eq_of_lt hi]
    rw [hdraws.shows _ _ (by omega) (by omega), picture, hdiv, hmod, if_pos hrow,
      show (col * 8 + j) / 8 = col by omega, show (col * 8 + j) % 8 = j by omega]
  · rw [hdraws.cursor]
    exact t.x_lt
  · rw [hdraws.cursor]
    exact t.y_lt

/-- Two rows of two columns, with lines and columns left over: the second row is full when the
newline comes, so that the text moves up. -/
theorem console_draws_terminal_scrolled :
    (printCleared ⟨0xE0000000, 20, 18, 35⟩ ⟨fun _ => 0xFF, 256, 8, 16, 16⟩ ⟨0, 0⟩
        (ascii "ab\ncd")).value (fun _ => 0) = ⟨0, 1⟩
      ∧ (printCleared ⟨0xE0000000, 20, 18, 35⟩ ⟨fun _ => 0xFF, 256, 8, 16, 16⟩ ⟨0, 0⟩
        (ascii "ab\ncd")).after (fun _ => 0) (index ⟨0xE0000000, 20, 18, 35⟩ 3 9) = 0x00E8E8E8 := by
  have h : Usable ⟨0xE0000000, 20, 18, 35⟩ ⟨fun _ => 0xFF, 256, 8, 16, 16⟩ := by
    constructor <;> decide
  obtain ⟨hcell, hcursor, _⟩ := console_draws_terminal h (fun _ => 0) ⟨0, 0⟩ (ascii "ab\ncd")
  exact ⟨hcursor, hcell 0 1 3 1 (by decide) (by decide) (by decide) (by decide)⟩

end Fb

end PeanutKernel
