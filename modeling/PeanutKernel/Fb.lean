import PeanutKernel.Block
import PeanutKernel.Lib.Access
import PeanutKernel.Lib.Rounds

/-!
# The framebuffer console

`drivers/video/fb.c`, with `uint32_t` arithmetic modulo `2 ^ 32`.

The search for the framebuffer tag is a `Query` whose questions are offsets in the multiboot
information; the walk over its tags takes fuel for the number of tags. The console is a program over
the pixels of the framebuffer, with their indices for addresses.
-/

namespace PeanutKernel

namespace Fb

structure PsfFont where
  glyphs : Buf
  glyphCount : ℕ
  glyphWidth : ℕ
  glyphHeight : ℕ
  bytesPerGlyph : ℕ

/-- The address and the sizes `fb_init_from_multiboot` sets. -/
structure Framebuffer where
  fb : ℕ
  pitchPixels : ℕ
  width : ℕ
  height : ℕ
  deriving DecidableEq, Repr

section Multiboot

abbrev MbM := Query ℕ UInt8

def align8 (v : ℕ) : ℕ := (v + 7) % 2 ^ 32 / 8 * 8

def readU32 (off : ℕ) : MbM ℕ := do
  let b0 ← readU8 off
  let b1 ← readU8 (off + 1)
  let b2 ← readU8 (off + 2)
  let b3 ← readU8 (off + 3)
  pure (b0 + 2 ^ 8 * b1 + 2 ^ 16 * b2 + 2 ^ 24 * b3)

def readU64 (off : ℕ) : MbM ℕ := do
  let low ← readU32 off
  let high ← readU32 (off + 4)
  pure (low + 2 ^ 32 * high)

/-- The fields of the framebuffer tag at `off`, each read if those before it pass. -/
def framebufferTag (off : ℕ) : MbM (Option Framebuffer) := do
  let addr ← readU64 (off + 8)
  if addr = 0 then pure none
  else
    let pitch ← readU32 (off + 16)
    if pitch = 0 then pure none
    else
      let width ← readU32 (off + 20)
      if width = 0 then pure none
      else
        let height ← readU32 (off + 24)
        if height = 0 then pure none
        else
          let bpp ← readU8 (off + 28)
          if bpp ≠ 32 then pure none
          else
            let fbType ← readU8 (off + 29)
            if fbType = 1 ∨ fbType = 2 then pure (some ⟨addr, pitch / 4, width, height⟩)
            else pure none

/-- A round of the loop over the tags: the offset it goes on with, or what it has found. -/
def tagRound (total off : ℕ) : MbM (ℕ ⊕ Option Framebuffer) := do
  -- `off + sizeof(MbTag)` is computed in 64 bits
  if off + 8 ≤ total then
    let type ← readU32 off
    if type = 0 then pure (.inr none)
    else
      let size ← readU32 (off + 4)
      let found ← if type = 8 ∧ 32 ≤ size then framebufferTag off else pure none
      match found with
      | some fb => pure (.inr (some fb))
      | none => pure (.inl ((off + align8 size) % 2 ^ 32))
  else pure (.inr none)

def tagLoop (total fuel : ℕ) : MbM (Option Framebuffer) := Query.rounds (tagRound total) fuel 8

/-- The framebuffer found, which `fb_clear` then clears; `mbi` tells whether the pointer is not
null. -/
def fbInitFromMultiboot (fuel : ℕ) (mbi : Bool) (font : Option PsfFont) :
    MbM (Option Framebuffer) :=
  if mbi = false ∨ font.isNone then pure none
  else do
    let total ← readU32 0
    tagLoop total fuel

end Multiboot

section Console

abbrev Pixel := BitVec 32

abbrev PixelM := MemM ℕ Pixel

structure Cursor where
  x : ℕ
  y : ℕ
  deriving DecidableEq, Repr

variable (f : Framebuffer) (font : PsfFont)

/-- The index of a pixel. -/
def index (y x : ℕ) : ℕ := (y * f.pitchPixels + x) % 2 ^ 32

/-- `for (y = first; y < f.height; y++)` with the loop over the columns in it. -/
def eachPixel (first : ℕ) (body : ℕ → ℕ → PixelM Unit) : PixelM Unit :=
  MemM.forRange first (f.height - first) fun y => MemM.forRange 0 f.width fun x => body y x

def clearFrom (first : ℕ) : PixelM Unit :=
  eachPixel f first fun y x => MemM.store (index f y x) 0x00000000

def scrollIfNeeded (cur : Cursor) : PixelM Cursor :=
  let glyphH := font.glyphHeight
  let rows := f.height / glyphH
  if cur.y < rows then pure cur
  else do
    eachPixel f glyphH fun y x => do
      let p ← MemM.load (index f y x)
      MemM.store (index f (y - glyphH) x) p
    clearFrom f ((f.height + (2 ^ 32 - glyphH)) % 2 ^ 32)
    pure { cur with y := (rows + (2 ^ 32 - 1)) % 2 ^ 32 }

def fbClear (cur : Cursor) : PixelM Cursor :=
  if f.fb = 0 then pure cur
  else do
    clearFrom f 0
    pure ⟨0, 0⟩

/-- The colour of column `col` of a glyph's row. -/
def color (bits : UInt8) (col : ℕ) : Pixel :=
  if bits.toNat.testBit (7 - col) then 0x00E8E8E8 else 0x00000000

def fbPutc (cur : Cursor) (c : UInt8) : PixelM Cursor :=
  if f.fb = 0 then pure cur
  else
    let cols := f.width / font.glyphWidth
    if c = 10 then scrollIfNeeded f font ⟨0, (cur.y + 1) % 2 ^ 32⟩
    else do
      let c := if font.glyphCount ≤ c.toNat then 63 else c
      let glyph : Buf := fun i => font.glyphs (c.toNat * font.bytesPerGlyph % 2 ^ 32 + i)
      let px := cur.x * font.glyphWidth % 2 ^ 32
      let py := cur.y * font.glyphHeight % 2 ^ 32
      MemM.forRange 0 font.glyphHeight fun row =>
        MemM.forRange 0 font.glyphWidth fun col =>
          if (px + col) % 2 ^ 32 < f.width ∧ (py + row) % 2 ^ 32 < f.height then
            MemM.store (index f (py + row) (px + col)) (color (glyph row) col)
          else pure ()
      let x := (cur.x + 1) % 2 ^ 32
      if cols ≤ x then scrollIfNeeded f font ⟨0, (cur.y + 1) % 2 ^ 32⟩
      else pure { cur with x := x }

/-- The characters of a string, one after another. -/
def fbPuts (cur : Cursor) : List UInt8 → PixelM Cursor
  | [] => pure cur
  | c :: text => do
    let cur ← fbPutc f font cur c
    fbPuts cur text

end Console

end Fb

end PeanutKernel
