import Pigfx.Gfx.Dma

/-!
# Drawing on the frame buffer

The pixel routines of `gfx.c`: clearing, scrolling, moving lines, filling
rectangles, characters, lines and pixels.  Each takes the context and acts on the
memory; which implementation of clearing and filling is used depends on
`GFX_USE_DMA`.

A pointer loop of the source becomes a counted loop whose count `tripsUp` or
`tripsDown` gives; the pointers after `i` turns are written out.

## Main definitions

* `gfxClear`, `gfxScrollDownDma`, `gfxScrollDown`, `gfxDeleteLines`,
  `gfxInsertLines` — whole-screen operations.
* `gfxFillRect`, `gfxClearRect`, `gfxPutc` — text operations.
* `gfxLine`, `gfxPixel`, `gfxFilledHline` — graphics operations.
-/

namespace Pigfx
open Lib

/-! ## Colours and addresses -/

/-- `MKCOL32` -/
def mkcol32 (c : GfxCol) : Word :=
  let c : Word := c.setWidth 32
  c <<< 24 ||| c <<< 16 ||| c <<< 8 ||| c

namespace Ctx

/-- `GET_BG` -/
def getBg (c : Ctx) : GfxCol := if c.inverse then c.fg else c.bg
/-- `GET_FG` -/
def getFg (c : Ctx) : GfxCol := if c.inverse then c.bg else c.fg
/-- `GET_BG32` -/
def getBg32 (c : Ctx) : Word := if c.inverse then mkcol32 c.fg else mkcol32 c.bg
/-- `GET_FG32` -/
def getFg32 (c : Ctx) : Word := if c.inverse then mkcol32 c.bg else mkcol32 c.fg

/-- `PFB` -/
def PFB (c : Ctx) (x y : ℤ) : ℤ := c.pfb + y * c.Pitch + x

end Ctx

/-! ## Whole-screen operations -/

def gfxClear (b : Build) (c : Ctx) (m : Bus) : Bus :=
  if b.gfxUseDma then
    dmaExecuteQueue [⟨.word c.getBg32, c.pfb, c.size, 0, DMA_TI_DEST_INC⟩] m
  else fillBytes c.size c.pfb c.getBg m

/-- The operations `gfx_scroll_down_dma` enqueues. -/
def gfxScrollDownDma (c : Ctx) (npixels : ℕ) : List DmaOp :=
  let lineHeight := u32 (c.Pitch * npixels)
  [⟨.memory (c.pfb + lineHeight), c.pfb, u32 (c.size - lineHeight), 0,
      DMA_TI_SRC_INC ||| DMA_TI_DEST_INC⟩,
    ⟨.word c.getBg32, c.pfb + c.size - lineHeight, lineHeight, 0, DMA_TI_DEST_INC⟩]

def gfxScrollDown (b : Build) (c : Ctx) (npixels : ℕ) (m : Bus) : Bus :=
  if b.gfxUseDma then dmaExecuteQueue (gfxScrollDownDma c npixels) m
  else
    let pfSrc := c.pfb + u32 (c.Pitch * npixels)
    let pfDst := c.pfb
    let pfbEnd := c.pfb + c.size
    let n := tripsUp pfSrc pfbEnd
    let pfDst' := pfDst + 4 * n
    fillWords (tripsUp pfDst' pfbEnd) pfDst' c.getBg32 (copyUp n pfSrc pfDst m)

def gfxDeleteLines (c : Ctx) (row n : ℕ) (m : Bus) : Bus :=
  let pfDst := c.pfb + u32 (c.Pitch * c.fontHeight * row)
  let pfSrc := c.pfb + u32 (c.Pitch * c.fontHeight * u32 (row + n))
  let pfbEnd := c.pfb + c.size
  let k := tripsUp pfSrc pfbEnd
  let pfDst' := pfDst + 4 * k
  fillWords (tripsUp pfDst' pfbEnd) pfDst' c.getBg32 (copyUp k pfSrc pfDst m)

def gfxInsertLines (c : Ctx) (row n : ℕ) (m : Bus) : Bus :=
  let pfDst := c.pfb + c.size - 4
  let pfSrc := c.pfb + c.size - u32 (c.Pitch * c.fontHeight * n) - 4
  let pfbEnd := c.pfb + u32 (c.Pitch * c.fontHeight * row)
  let k := tripsDown pfSrc pfbEnd
  -- after the first loop, and after `++pf_src`
  let pfDst' := pfDst - 4 * k
  let pfSrc' := pfSrc - 4 * k + 4
  fillWords (tripsUp pfSrc' (pfDst' + 1)) pfSrc' c.getBg32 (copyDown k pfSrc pfDst m)

/-! ## Rectangles -/

/-- The operation `gfx_fill_rect_dma` enqueues. -/
def gfxFillRectDma (c : Ctx) (x y width height : ℕ) : DmaOp where
  src := .word c.getFg32
  dst := c.PFB x y
  len := ((u32 (height - 1) &&& 0xFFFF) <<< 16) ||| (width &&& 0xFFFF)
  stride := (u32 (c.Pitch - width) &&& 0xFFFF) <<< 16
  TRANSFER_INFO := DMA_TI_DEST_INC ||| DMA_TI_2DMODE

def gfxFillRect (b : Build) (c : Ctx) (x y width height : ℕ) (m : Bus) : Bus :=
  if c.W ≤ x ∨ c.H ≤ y then m
  else
    let width := if c.W < u32 (x + width) then c.W - x else width
    let height := if c.H < u32 (y + height) then c.H - y else height
    if b.gfxUseDma then dmaExecuteQueue [gfxFillRectDma c x y width height] m
    else iterate height (fun i => fillBytes width (c.PFB x (y + i)) c.getFg) m

def gfxClearRect (b : Build) (c : Ctx) (x y width height : ℕ) (m : Bus) : Bus :=
  gfxFillRect b { c with fg := c.bg } x y width height m

/-! ## Characters -/

/-- The word a glyph word selects between the two colours, `(gv & FG) | (~gv & BG)`. -/
def glyphMix (gv fg bg : Word) : Word := (gv &&& fg) ||| (~~~gv &&& bg)

/-- The distance in bytes between the rows of a cell: two words and the stride. -/
def Ctx.rowStep (c : Ctx) : ℤ :=
  let stride : ℤ := c.Pitch / 4 - 2
  8 + 4 * stride

/-- Word `k` of row `i` of a character cell. -/
def Ctx.putcWord (c : Ctx) (ch : Byte) (i k : ℕ) : Word :=
  let FG := c.getFg32
  let BG := c.getBg32
  let pGlyph := ch.toNat * FONT_WIDTH * c.fontHeight
  -- `h` after its decrement in the loop head
  let h := c.fontHeight - 1 - i
  let gv := wordOf fun j => c.fontData (pGlyph + 8 * i + 4 * k + j)
  let gv := if c.underline ∧ h = 2 then (if c.inverse then BG else FG) else gv
  glyphMix gv FG BG

def gfxPutc (c : Ctx) (row col : ℕ) (ch : Byte) (m : Bus) : Bus :=
  if c.WIDTH ≤ col then m
  else if c.HEIGHT ≤ row then m
  else
    let pf := c.PFB (col * FONT_WIDTH) (row * c.fontHeight)
    iterate c.fontHeight (fun i m =>
      (m.put32 (pf + i * c.rowStep) (c.putcWord ch i 0)).put32 (pf + i * c.rowStep + 4)
        (c.putcWord ch i 1)) m

/-! ## Lines and pixels -/

/-- The loop of `gfx_line`: `nr` pixels from `pfb` on, stepping by `major` each
time and by `minor` whenever the error runs below zero. -/
def lineLoop (deltax deltay major minor : ℤ) (clr : GfxCol) :
    (nr : ℕ) → (pfb error : ℤ) → Bus → Bus
  | 0, _, _, m => m
  | nr + 1, pfb, error, m =>
      let m := m.put8 pfb clr
      let error := error - deltay
      if error < 0 then
        lineLoop deltax deltay major minor clr nr (pfb + minor + major) (error + deltax) m
      else lineLoop deltax deltay major minor clr nr (pfb + major) error m

def gfxLine (c : Ctx) (x0 y0 x1 y1 : ℤ) (clr : GfxCol) (m : Bus) : Bus :=
  let x0 := max (min x0 (c.W - 1)) 0
  let y0 := max (min y0 (c.H - 1)) 0
  let x1 := max (min x1 (c.W - 1)) 0
  let y1 := max (min y1 (c.H - 1)) 0
  let qrdt := |y1 - y0| > |x1 - x0|
  let (x0, y0, x1, y1) := if qrdt then (y0, x0, y1, x1) else (x0, y0, x1, y1)
  let (x0, y0, x1, y1) := if x0 > x1 then (x1, y1, x0, y0) else (x0, y0, x1, y1)
  let deltax := x1 - x0
  let deltay := |y1 - y0|
  let error := deltax / 2
  let nr := (x1 - x0 + 1).toNat
  if qrdt then
    let ystep : ℤ := if y0 < y1 then 1 else -1
    lineLoop deltax deltay c.Pitch ystep clr nr (c.PFB y0 x0) error m
  else
    let ystep : ℤ := if y0 < y1 then c.Pitch else -c.Pitch
    lineLoop deltax deltay 1 ystep clr nr (c.PFB x0 y0) error m

def gfxPixel (c : Ctx) (x y : ℤ) (clr : GfxCol) (m : Bus) : Bus :=
  if 0 ≤ x ∧ x < c.W ∧ 0 ≤ y ∧ y < c.H then m.put8 (c.PFB x y) clr else m

/-! ## Filled spans -/

def halftone1 : List ℕ := [
  0xAAAAAAAA, 0x00000000, 0xA888A888, 0x00000000, 0xAAAAAAAA, 0x00000000, 0x88888888, 0x00000000,
  0xAAAAAAAA, 0x00000000, 0xA8A888A8, 0x00000000, 0xAAAAAAAA, 0x00000000, 0x88888888, 0x00000000,
  0xAAAAAAAA, 0x00000000, 0xA888A888, 0x00000000, 0xAAAAAAAA, 0x00000000, 0x88888888, 0x00000000,
  0xAAAAAAAA, 0x00000000, 0x88A8A8A8, 0x00000000, 0xAAAAAAAA, 0x00000000, 0x88888888, 0x00000000]

def halftone2 : List ℕ := [
  0x11111111, 0xAAAAAAAA, 0x44444445, 0xAAAAAAAA, 0x11111111, 0xAAAAAAAA, 0x54545454, 0xAAAAAAAA,
  0x11111111, 0xAAAAAAAA, 0x45444544, 0xAAAAAAAA, 0x11111111, 0xAAAAAAAA, 0x54545454, 0xAAAAAAAA,
  0x11111111, 0xAAAAAAAA, 0x44454445, 0xAAAAAAAA, 0x11111111, 0xAAAAAAAA, 0x54545454, 0xAAAAAAAA,
  0x11111111, 0xAAAAAAAA, 0x45444544, 0xAAAAAAAA, 0x11111111, 0xAAAAAAAA, 0x54545454, 0xAAAAAAAA]

def halftone3 : List ℕ := [
  0x55555555, 0xABABABAB, 0x55555555, 0xEEEEEEEE, 0x55555555, 0xBABABABA, 0x55555555, 0xEEEEEEEE,
  0x55555555, 0xABABABAB, 0x55555555, 0xEEEEEEEE, 0x55555555, 0xBBBABBBA, 0x55555555, 0xEEEEEEEE,
  0x55555555, 0xABABABAB, 0x55555555, 0xEEEEEEEE, 0x55555555, 0xBABBBABA, 0x55555555, 0xEEEEEEEE,
  0x55555555, 0xABABABAB, 0x55555555, 0xEEEEEEEE, 0x55555555, 0xBBBABBBA, 0x55555555, 0xEEEEEEEE]

def halftone4 : List ℕ := [
  0x55575557, 0xFFFFFFFF, 0xDDDDDDDD, 0xFFFFFFFF, 0x75757575, 0xFFFFFFFF, 0xDDDDDDDD, 0xFFFFFFFF,
  0x57555757, 0xFFFFFFFF, 0xDDDDDDDD, 0xFFFFFFFF, 0x75757575, 0xFFFFFFFF, 0xDDDDDDDD, 0xFFFFFFFF,
  0x55575557, 0xFFFFFFFF, 0xDDDDDDDD, 0xFFFFFFFF, 0x75757575, 0xFFFFFFFF, 0xDDDDDDDD, 0xFFFFFFFF,
  0x57575755, 0xFFFFFFFF, 0xDDDDDDDD, 0xFFFFFFFF, 0x75757575, 0xFFFFFFFF, 0xDDDDDDDD, 0xFFFFFFFF]

/-- `table[y & 0x1F] & 1 << (x & 0x1F)` -/
def halftoneBit (table : List ℕ) (x y : ℤ) : Bool :=
  (table.getD (y % 32).toNat 0).testBit (x % 32).toNat

/-- `for (int x = x0; x <= x1; ++x) if (p(x)) gfx_pixel(x, y, clr);` -/
def pixelSpan (c : Ctx) (x0 x1 y : ℤ) (clr : GfxCol) (p : ℤ → Bool) (m : Bus) : Bus :=
  iterate (x1 - x0 + 1).toNat
    (fun i m => if p (x0 + i) then gfxPixel c (x0 + i) y clr m else m) m

def gfxFilledHline (c : Ctx) (gsx : GsxState) (x0 x1 y : ℤ) (clr : GfxCol) (m : Bus) : Bus :=
  let span := pixelSpan c x0 x1 y clr
  match gsx.fillStyle with
  | 0 => m                                                     -- FS_HOLLOW
  | 1 => gfxLine c x0 y x1 y clr m                             -- FS_SOLID
  | 2 =>                                                       -- FS_HALFTONE
      match gsx.fillIndex with
      | 1 => m
      | 2 => span (halftoneBit halftone1 · y) m
      | 3 => span (halftoneBit halftone2 · y) m
      | 4 => span (halftoneBit halftone3 · y) m
      | 5 => span (halftoneBit halftone4 · y) m
      | 6 => gfxLine c x0 y x1 y clr m
      | _ => m
  | 3 =>                                                       -- FS_HATCH
      match gsx.fillIndex with
      | 1 => span (fun x => x % 4 = 0) m                       -- FSI_VERTICAL
      | 2 => if y % 4 = 0 then gfxLine c x0 y x1 y clr m else m   -- FSI_HORIZONTAL
      | 3 => span (fun x => (x + y) % 5 = 0) m                 -- FSI_PLUS45
      | 4 => span (fun x => (x - y) % 5 = 0) m                 -- FSI_MINUS45
      | 5 =>                                                   -- FSI_CROSS
          if y % 4 = 0 then gfxLine c x0 y x1 y clr m else span (fun x => x % 4 = 0) m
      | 6 => span (fun x => (x + y) % 5 = 0 ∨ (x - y) % 5 = 0) m  -- FSI_X
      | _ => m
  | _ => m

end Pigfx
