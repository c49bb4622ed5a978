import Pigfx.Gfx.Cursor

/-!
# GSX commands

The handlers of the `ESC [ # .. G` commands.  A handler reads its arguments from
the scanner's parameter array and acts on the global state; none of them changes
the scanner.

## Main definitions

* `gfxOpenWorkstation`, `gfxCloseWorkstation`, `gfxClearWorkstation` — sessions.
* `gfxEscape` — text cursor and text output, graphic cursor.
* `gfxDrawPolyline`, `gfxDrawPolymarkers`, `gfxDrawText`, `gfxFilledPolygon`,
  `gfxCircle`, `gfxDrawArc`, `gfxDrawBitmap`, `gfxDrawingPrimitive` — drawing.
-/

namespace Pigfx
open Lib

/-- A colour parameter kept as `int`, passed on as `GFX_COL`. -/
def toCol (x : ℤ) : GfxCol := BitVec.ofInt 8 x

/-- A parameter converted to `int`. -/
def ScnState.intParam (st : ScnState) (i : ℕ) : ℤ := (st.param i).toInt

/-! ## The graphic cursor -/

/-- `xored_clr_index` of `framebuffer.c` -/
def xoredClrIndex : List ℕ := [
  15, 123, 213, 105, 228, 120, 210, 237, 8, 14, 13, 12, 11, 10, 9, 0,
  15, 229, 228, 227, 11, 11, 219, 217, 216, 215, 214, 214, 213, 211, 210, 209,
  208, 208, 207, 205, 204, 203, 202, 202, 13, 199, 198, 197, 9, 9, 13, 199,
  198, 197, 9, 9, 159, 157, 156, 155, 154, 154, 147, 247, 247, 143, 142, 142,
  141, 247, 138, 137, 136, 136, 135, 133, 132, 131, 130, 130, 129, 127, 126, 125,
  124, 124, 129, 127, 126, 125, 124, 124, 123, 121, 120, 119, 118, 118, 111, 247,
  108, 107, 106, 106, 105, 103, 243, 243, 3, 3, 99, 97, 243, 95, 94, 94,
  93, 91, 5, 89, 1, 1, 93, 91, 5, 89, 1, 1, 87, 85, 84, 83,
  82, 82, 75, 73, 72, 71, 70, 70, 69, 67, 243, 65, 64, 64, 63, 61,
  60, 239, 239, 58, 57, 55, 54, 239, 235, 52, 57, 55, 54, 53, 52, 52,
  14, 49, 48, 47, 10, 10, 39, 37, 36, 35, 34, 34, 33, 31, 6, 29,
  2, 2, 27, 25, 24, 239, 235, 22, 12, 19, 4, 235, 234, 234, 12, 19,
  4, 17, 234, 0, 14, 49, 48, 47, 10, 10, 39, 37, 36, 35, 34, 34,
  33, 31, 6, 29, 2, 2, 27, 25, 24, 23, 22, 22, 12, 19, 4, 17,
  234, 0, 12, 19, 4, 17, 0, 0, 15, 255, 254, 253, 252, 251, 250, 249,
  248, 247, 246, 245, 8, 243, 242, 241, 240, 239, 238, 237, 236, 235, 234, 233]

def getXoredIndex (i : Byte) : Byte := BitVec.ofNat 8 (xoredClrIndex.getD i.toNat 0)

/-- `*pfb = get_xored_index(*pfb)` -/
def xorPixel (a : ℤ) (m : Bus) : Bus :=
  (m.note (.cpuRead a 1)).put8 a (getXoredIndex (m.data a))

def gfxReadRect (c : Ctx) (ulx uly w h : ℤ) (p : Pix) : Pix :=
  iterate h.toNat (fun y p => iterate w.toNat (fun x p =>
    let a := c.PFB ulx (uly + y) + x
    { p with
      bus := p.bus.note (.cpuRead a 1)
      gcRect := fun k => if k = y * w.toNat + x then p.bus.data a else p.gcRect k }) p) p

def gfxWriteRect (c : Ctx) (ulx uly w h : ℤ) (p : Pix) : Pix :=
  { p with
    bus := iterate h.toNat (fun y m => iterate w.toNat (fun x m =>
      m.put8 (c.PFB ulx (uly + y) + x) (p.gcRect (y * w.toNat + x))) m) p.bus }

/-- The corner and extent of the rectangle under the graphic cursor, in one
direction: `gc_ulx` and `gc_w`, or `gc_uly` and `gc_h`. -/
def graphicCursorSpan (x : ℤ) : ℤ × ℤ :=
  let ul := x - GSX_GC_ARMLNG
  let w := GSX_GC_W
  let (ul, w) := if ul < 0 then (0, w + ul) else (ul, w)
  let w := if ul + w > GSX_MAX_NDC then GSX_MAX_NDC - ul + 1 else w
  (ul, w)

def gfxPlaceGraphicCursor (x y : ℤ) (g : Gfx) : Gfx :=
  let (ulx, w) := graphicCursorSpan x
  let (uly, h) := graphicCursorSpan y
  let g := { g with gsx := { g.gsx with gcUlx := ulx, gcUly := uly, gcW := w, gcH := h } }
  let g := { g with pix := gfxReadRect g.ctx ulx uly w h g.pix }
  let g := g.draw (iterate w.toNat fun i => xorPixel (g.ctx.PFB (ulx + i) y))
  g.draw (iterate h.toNat fun i => xorPixel (g.ctx.PFB x (uly + i)))

def gfxRemoveGraphicCursor (g : Gfx) : Gfx :=
  { g with pix := gfxWriteRect g.ctx g.gsx.gcUlx g.gsx.gcUly g.gsx.gcW g.gsx.gcH g.pix }

/-! ## Workstations and escapes -/

def gfxCloseWorkstation (g : Gfx) : Gfx := (gfxTermSetCursorVisibility true g).restoreContent

def gfxClearWorkstation (b : Build) (g : Gfx) : Gfx := gfxTermClearScreen b (gfxTermMoveCursor 0 0 g)

def gfxUpdateWorkstation (g : Gfx) : Gfx := g

/-- The GSX state after the assignments of `gfx_open_workstation`. -/
def GsxState.opened (st : ScnState) (gsx : GsxState) : GsxState :=
  { gsx with
    deviceNumber := st.intParam 1
    lineStyle := st.intParam 2
    lineColour := st.intParam 3
    markerStyle := st.intParam 4
    markerColour := st.intParam 5
    textStyle := st.intParam 6
    textColour := st.intParam 7
    fillStyle := st.intParam 8
    fillIndex := st.intParam 9
    fillColour := st.intParam 10
    textHeight := TH_MIN
    textWidth := TW_MIN
    textSize := 1
    textDirection := 0
    textFont := 1
    lineWidth := 1
    markerHeight := 1
    writingMode := WM_REPLACE
    inputMode := fun i => if i < LID_MAX then IM_REQUEST else gsx.inputMode i
    reverseVideo := 0 }

def gfxOpenWorkstation (b : Build) (st : ScnState) (g : Gfx) : Gfx :=
  let g := gfxCloseWorkstation g
  let g := { g with gsx := g.gsx.opened st }
  let g := (gfxTermSetCursorVisibility false g).restoreContent
  gfxClearWorkstation b g

/-- Paint a character at the cursor, step to the next column and draw the cursor
there. -/
def printAt (ch : Byte) (g : Gfx) : Gfx :=
  let g := g.draw (gfxPutc g.ctx g.ctx.cursorRow g.ctx.cursorCol ch)
  { g with ctx := { g.ctx with cursorCol := u32 (g.ctx.cursorCol + 1) } }.renderCursor

/-- The erasing part of `ESC [ 0 J`, shared with GSX escape 9. -/
def clearToEndOfScreen (b : Build) (g : Gfx) : Gfx :=
  let g := gfxTermClearTillEnd b g
  if g.ctx.cursorRow + 1 < g.ctx.HEIGHT then
    gfxTermClearLines b (i32 (g.ctx.cursorRow + 1)) (i32 (g.ctx.HEIGHT - 1)) g
  else g

def gfxEscape (b : Build) (st : ScnState) (g : Gfx) : Gfx :=
  let c := g.ctx
  match (st.param 1).toNat with
  | 2 => (gfxTermSetCursorVisibility false g).renderCursor
  | 3 => (gfxTermSetCursorVisibility true g).renderCursor
  | 4 => gfxTermMoveCursor (max 0 (i32 c.cursorRow - 1)) (i32 c.cursorCol) g
  | 5 => gfxTermMoveCursor (min (i32 c.HEIGHT - 1) (i32 c.cursorRow + 1)) (i32 c.cursorCol) g
  | 6 => gfxTermMoveCursor (i32 c.cursorRow) (min (i32 c.WIDTH - 1) (i32 c.cursorCol + 1)) g
  | 7 => gfxTermMoveCursor (i32 c.cursorRow) (max 0 (i32 c.cursorCol - 1)) g
  | 8 => gfxTermMoveCursor 0 0 g
  | 9 => clearToEndOfScreen b g
  | 10 => gfxTermClearTillEnd b g
  | 11 =>
      let row := min (u32 ((st.param 2).toNat - 1)) (u32 (c.HEIGHT - 1))
      let col := min (u32 ((st.param 3).toNat - 1)) (u32 (c.WIDTH - 1))
      gfxTermMoveCursor (i32 row) (i32 col) g
  | 12 => iterate (st.param 2).toNat (fun i g => printAt ((st.param (3 + i)).setWidth 8) g) g
  | 13 => { g with ctx := { c with inverse := true } }
  | 14 => { g with ctx := { c with inverse := false } }
  | 18 => gfxPlaceGraphicCursor (st.intParam 2) (st.intParam 3) g
  | 19 => gfxRemoveGraphicCursor g
  | _ => g

/-! ## Circles and arcs -/

/-- The midpoint loop of `gfx_circle` and `gfx_draw_arc`; `plot` is what each turn
draws at the new point.  A turn increases `x`, so `r` turns suffice. -/
def midpointLoop (plot : ℤ → ℤ → Bus → Bus) : (fuel : ℕ) → (f ddFx ddFy x y : ℤ) → Bus → Bus
  | 0, _, _, _, _, _, m => m
  | n + 1, f, ddFx, ddFy, x, y, m =>
      if x < y then
        let (y, ddFy, f) := if f ≥ 0 then (y - 1, ddFy + 2, f + (ddFy + 2)) else (y, ddFy, f)
        let x := x + 1
        let ddFx := ddFx + 2
        let f := f + ddFx
        midpointLoop plot n f ddFx ddFy x y (plot x y m)
      else m

def gfxCircle (c : Ctx) (gsx : GsxState) (x0 y0 r : ℤ) (clr : GfxCol) (filled : Bool) (m : Bus) :
    Bus :=
  let hline (x0 x1 y : ℤ) (m : Bus) : Bus := if filled then gfxFilledHline c gsx x0 x1 y clr m else m
  let m := gfxPixel c x0 (y0 + r) clr m
  let m := gfxPixel c x0 (y0 - r) clr m
  let m := gfxPixel c (x0 + r) y0 clr m
  let m := gfxPixel c (x0 - r) y0 clr m
  let m := hline (x0 - r) (x0 + r) y0 m
  midpointLoop (fun x y m =>
    let m := gfxPixel c (x0 + x) (y0 + y) clr m
    let m := gfxPixel c (x0 - x) (y0 + y) clr m
    let m := gfxPixel c (x0 + x) (y0 - y) clr m
    let m := gfxPixel c (x0 - x) (y0 - y) clr m
    let m := gfxPixel c (x0 + y) (y0 + x) clr m
    let m := gfxPixel c (x0 - y) (y0 + x) clr m
    let m := gfxPixel c (x0 + y) (y0 - x) clr m
    let m := gfxPixel c (x0 - y) (y0 - x) clr m
    let m := hline (x0 - x) (x0 + x) (y0 + y) m
    let m := hline (x0 - x) (x0 + x) (y0 - y) m
    let m := hline (x0 - y) (x0 + y) (y0 + x) m
    hline (x0 - y) (x0 + y) (y0 - x) m) r.toNat (1 - r) 1 (-2 * r) 0 r m

def gfxDrawArcPoint (b : Build) (c : Ctx) (x0 y0 x y a0 a1 : ℤ) (clr : GfxCol) (m : Bus) : Bus :=
  if x ≤ y then
    let angle := b.arcAngle y x
    let point (a px py : ℤ) (m : Bus) : Bus := if a0 ≤ a ∧ a ≤ a1 then gfxPixel c px py clr m else m
    let m := point (900 - angle) (x0 + y) (y0 - x) m
    let m := point angle (x0 + x) (y0 - y) m
    let m := point (1800 - angle) (x0 - x) (y0 - y) m
    let m := point (angle + 900) (x0 - y) (y0 - x) m
    let m := point (2700 - angle) (x0 - y) (y0 + x) m
    let m := point (angle + 1800) (x0 - x) (y0 + y) m
    let m := point (3600 - angle) (x0 + x) (y0 + y) m
    point (angle + 2700) (x0 + y) (y0 + x) m
  else m

def gfxDrawArc (b : Build) (c : Ctx) (x0 y0 r arcS arcE : ℤ) (clr : GfxCol) (m : Bus) : Bus :=
  midpointLoop (fun x y => gfxDrawArcPoint b c x0 y0 x y arcS arcE clr) r.toNat (1 - r) 1 (-2 * r) 0 r
    (gfxDrawArcPoint b c x0 y0 0 r arcS arcE clr m)

/-! ## Drawing commands -/

def gfxDrawPolyline (st : ScnState) (g : Gfx) : Gfx :=
  let nPoints := (st.param 1 - 1).toInt
  g.draw (iterate nPoints.toNat fun k =>
    let i := 2 * k
    gfxLine g.ctx (st.intParam (i + 2)) (st.intParam (i + 3)) (st.intParam (i + 4))
      (st.intParam (i + 5)) (toCol g.gsx.lineColour))

/-- One marker of `gfx_draw_polymarkers`. -/
def drawMarker (b : Build) (c : Ctx) (gsx : GsxState) (x y : ℤ) (m : Bus) : Bus :=
  let armLng := u32 ((gsx.markerHeight - 1).tdiv 2)
  let shortArmLng := b.shortArm armLng
  let clr := toCol gsx.markerColour
  let line (x0 y0 x1 y1 : ℤ) : Bus → Bus := gfxLine c (i32 x0) (i32 y0) (i32 x1) (i32 y1) clr
  match gsx.markerStyle with
  | 1 => gfxPixel c x y clr m                                                  -- MS_DOT
  | 2 => line x (y - armLng) x (y + armLng) (line (x - armLng) y (x + armLng) y m)   -- MS_PLUS
  | 3 =>                                                                       -- MS_ASTERISK
      let m := line (x - armLng) y (x + armLng) y m
      let m := line x (y - armLng) x (y + armLng) m
      let m := line (x - shortArmLng) (y - shortArmLng) (x + shortArmLng) (y + shortArmLng) m
      line (x - shortArmLng) (y + shortArmLng) (x + shortArmLng) (y - shortArmLng) m
  | 4 => gfxCircle c gsx x y (i32 armLng) clr false m                          -- MS_CIRCLE
  | 5 =>                                                                       -- MS_CROSS
      let m := line (x - armLng) (y - armLng) (x + armLng) (y + armLng) m
      line (x - armLng) (y + armLng) (x + armLng) (y - armLng) m
  | _ => m

def gfxDrawPolymarkers (b : Build) (st : ScnState) (g : Gfx) : Gfx :=
  let nMarkers := st.intParam 1
  g.draw (iterate nMarkers.toNat fun i =>
    drawMarker b g.ctx g.gsx (st.intParam (i + i + 2)) (st.intParam (i + i + 3)))

/-- Where `gfx_draw_text` puts the pixel `(xx, yy)` of a glyph, sub-pixel `(i, j)`. -/
def textPixel (direction size x y xx yy i j : ℤ) : ℤ × ℤ :=
  match direction with
  | 900 => (x + yy * size + i, y - xx * size - j)
  | 1800 => (x - xx * size - i, y - yy * size - j)
  | 2700 => (x - yy * size - i, y + xx * size + j)
  | _ => (x + xx * size + i, y + yy * size + j)

/-- The pixels of one glyph drawn by `gfx_draw_text`. -/
def drawGlyph (c : Ctx) (gsx : GsxState) (ch : Byte) (x y : ℤ) (m : Bus) : Bus :=
  let pixel (xx yy i j : ℕ) (m : Bus) : Bus :=
    let (px, py) := textPixel gsx.textDirection gsx.textSize x y xx yy i j
    gfxPixel c px py (toCol gsx.textColour) m
  iterate c.fontHeight (fun yy m => iterate FONT_WIDTH (fun xx m =>
    if c.fontData (ch.toNat * FONT_WIDTH * c.fontHeight + yy * FONT_WIDTH + xx) = 0 then m
    else if gsx.textSize = 1 then pixel xx yy 0 0 m
    else iterate gsx.textSize.toNat (fun i m =>
      iterate gsx.textSize.toNat (fun j m => pixel xx yy i j m) m) m) m) m

/-- The position after a glyph. -/
def textAdvance (gsx : GsxState) (x y : ℤ) : ℤ × ℤ :=
  match gsx.textDirection with
  | 900 => (x, y - FONT_WIDTH * gsx.textSize)
  | 1800 => (x - FONT_WIDTH * gsx.textSize, y)
  | 2700 => (x, y + FONT_WIDTH * gsx.textSize)
  | _ => (x + FONT_WIDTH * gsx.textSize, y)

/-- Shift the anchor so that it is the baseline, not the top. -/
def textAnchor (gsx : GsxState) (x y : ℤ) : ℤ × ℤ :=
  match gsx.textDirection with
  | 900 => (x - (gsx.textHeight - 1), y)
  | 1800 => (x, y + (gsx.textHeight - 1))
  | 2700 => (x + (gsx.textHeight - 1), y)
  | _ => (x, y - (gsx.textHeight - 1))

def gfxDrawText (st : ScnState) (g : Gfx) : Gfx :=
  let nChars := (st.param 1).toNat
  g.draw fun m =>
    (iterate nChars (fun i (s : (ℤ × ℤ) × Bus) =>
      (textAdvance g.gsx s.1.1 s.1.2,
        drawGlyph g.ctx g.gsx ((st.param (i + 4)).setWidth 8) s.1.1 s.1.2 s.2))
      (textAnchor g.gsx (st.intParam 2) (st.intParam 3), m)).2

/-! ## Filled polygons -/

/-- The crossings of a scanline, and how many: `xi` and `k`. -/
def polygonCrossings (b : Build) (xin yin : ℕ → ℤ) (nPoints : ℕ) (y : ℤ) : (ℕ → ℤ) × ℕ :=
  iterate nPoints (fun i (s : (ℕ → ℤ) × ℕ) =>
    let y0 := yin i
    let y1 := yin (i + 1)
    if (y0 ≤ y ∧ y1 > y) ∨ (y0 > y ∧ y1 ≤ y) then
      let x := b.crossing (xin i) (xin (i + 1) - xin i) (yin (i + 1) - yin i) (y - y0)
      (fun j => if j = s.2 then x else s.1 j, s.2 + 1)
    else s) (fun _ => 0, 0)

/-- The sorting loops over `xi[0 .. k)`. -/
def sortCrossings (k : ℕ) (xi : ℕ → ℤ) : ℕ → ℤ :=
  iterate (k - 1) (fun _ => iterate (k - 1) fun j xi =>
    if xi j > xi (j + 1) then
      fun l => if l = j then xi (j + 1) else if l = j + 1 then xi j else xi l
    else xi) xi

/-- The drawing of `gfx_filled_polygon` for the vertices it has read. -/
def fillPolygon (b : Build) (nPoints : ℕ) (xin yin : ℕ → ℤ) (g : Gfx) : Gfx :=
  let clr := toCol g.gsx.fillColour
  let g := g.draw (iterate nPoints fun i =>
    gfxLine g.ctx (xin i) (yin i) (xin (i + 1)) (yin (i + 1)) clr)
  let ymin := iterate nPoints (fun i ymin => if yin i < ymin then yin i else ymin) GSX_MAX_NDC
  let ymax := iterate nPoints (fun i ymax => if yin i > ymax then yin i else ymax) 0
  if g.gsx.fillStyle ≠ 0 then
    g.draw (iterate (ymax - ymin + 1).toNat fun d m =>
      let y := ymin + d
      let (xi, k) := polygonCrossings b xin yin nPoints y
      let xi := sortCrossings k xi
      iterate ((k + 1) / 2) (fun i =>
        gfxFilledHline g.ctx g.gsx (xi (2 * i)) (xi (2 * i + 1)) y clr) m)
  else g

def gfxFilledPolygon (b : Build) (st : ScnState) (g : Gfx) : Gfx :=
  let nPoints := (st.intParam 1).toNat
  -- the first vertex is repeated behind the last
  let xin (i : ℕ) : ℤ := if i = nPoints then st.intParam 2 else st.intParam (2 * i + 2)
  let yin (i : ℕ) : ℤ := if i = nPoints then st.intParam 3 else st.intParam (2 * i + 3)
  fillPolygon b nPoints xin yin g

/-! ## Bitmaps, primitives, text attributes -/

/-- The drawing of `gfx_draw_bitmap` and whether it succeeds. -/
def gfxDrawBitmap (st : ScnState) (g : Gfx) : Gfx × Bool :=
  let xpos := st.intParam 1
  let ypos := st.intParam 2
  let w := st.intParam 3
  if st.cmdParamsSize = u32 (w + 4) then
    (g.draw (iterate w.toNat fun x =>
      gfxPixel g.ctx (xpos + x) ypos ((st.param (4 + x)).setWidth 8)), true)
  else (g, false)

def gfxDrawingPrimitive (b : Build) (st : ScnState) (g : Gfx) : Gfx :=
  match (st.param 1).toNat with
  | 1 =>
      let llx := st.intParam 2
      let lly := st.intParam 3
      let urx := st.intParam 4
      let ury := st.intParam 5
      let clr := toCol g.gsx.fillColour
      g.draw fun m =>
        let m := gfxLine g.ctx llx lly llx ury clr m
        let m := gfxLine g.ctx llx ury urx ury clr m
        let m := gfxLine g.ctx urx ury urx lly clr m
        let m := gfxLine g.ctx urx lly llx lly clr m
        iterate (lly - (ury + 1)).toNat
          (fun i => gfxFilledHline g.ctx g.gsx llx urx (ury + 1 + i) clr) m
  | 2 =>
      let x0 := st.intParam 2
      let y0 := st.intParam 3
      let r := st.intParam 4
      let arcS := st.intParam 5
      let arcE := st.intParam 6
      let clr := toCol g.gsx.lineColour
      if arcS ≤ arcE then g.draw (gfxDrawArc b g.ctx x0 y0 r arcS arcE clr)
      else (g.draw (gfxDrawArc b g.ctx x0 y0 r arcS 3600 clr)).draw
        (gfxDrawArc b g.ctx x0 y0 r 0 arcE clr)
  | 4 =>
      g.draw (gfxCircle g.ctx g.gsx (st.intParam 2) (st.intParam 3) (st.intParam 4)
        (toCol g.gsx.fillColour) true)
  | _ => g

def gfxSetTextHeight (st : ScnState) (g : Gfx) : Gfx :=
  { g with gsx := { g.gsx with
      textSize := st.intParam 1, textHeight := st.intParam 2, textWidth := st.intParam 3 } }

def gfxSetTextDirection (st : ScnState) (g : Gfx) : Gfx :=
  { g with gsx := { g.gsx with textDirection := st.intParam 1 } }

/-! ## Dispatch -/

/-- The opcode switch of `state_fun_final_letter`, with its `ok` flag. -/
def gsxCommand (b : Build) (st : ScnState) (g : Gfx) : Gfx × Bool :=
  let set (f : ℤ → GsxState → GsxState) : Gfx × Bool := ({ g with gsx := f (st.intParam 1) g.gsx }, true)
  match (st.param 0).toNat with
  | OPC_OPEN_WORKSTATION => (gfxOpenWorkstation b st g, true)
  | OPC_CLOSE_WORKSTATION => (gfxCloseWorkstation g, true)
  | OPC_CLEAR_WORKSTATION => (gfxClearWorkstation b g, true)
  | OPC_UPDATE_WORKSTATION => (gfxUpdateWorkstation g, true)
  | OPC_ESCAPE => (if st.cmdParamsSize > 0 then gfxEscape b st g else g, true)
  | OPC_DRAW_POLYLINE => (if st.cmdParamsSize ≥ 6 then gfxDrawPolyline st g else g, true)
  | OPC_DRAW_POLYMARKER => (gfxDrawPolymarkers b st g, true)
  | OPC_DRAW_TEXT => (gfxDrawText st g, true)
  | OPC_DRAW_FILLED_POLYGON =>
      (if st.cmdParamsSize > 2 ∧ (st.param 1).toNat > 2 then gfxFilledPolygon b st g else g, true)
  | OPC_DRAW_BITMAP => gfxDrawBitmap st g
  | OPC_DRAWING_PRIMITIVE => (gfxDrawingPrimitive b st g, true)
  | OPC_TEXT_HEIGHT => (gfxSetTextHeight st g, true)
  | OPC_TEXT_ROTATION => (if st.cmdParamsSize = 2 then gfxSetTextDirection st g else g, true)
  | OPC_POLYLINE_LINETYPE => set fun v s => { s with lineStyle := v }
  | OPC_POLYLINE_LINEWIDTH => set fun v s => { s with lineWidth := v }
  | OPC_POLYLINE_COLOUR => set fun v s => { s with lineColour := v }
  | OPC_POLYMARKER_TYPE => set fun v s => { s with markerStyle := v }
  | OPC_POLYMARKER_HEIGHT => set fun v s => { s with markerHeight := v }
  | OPC_POLYMARKER_COLOUR => set fun v s => { s with markerColour := v }
  | OPC_TEXT_FONT => set fun v s => { s with textFont := v }
  | OPC_TEXT_COLOUR => set fun v s => { s with textColour := v }
  | OPC_FILL_STYLE => set fun v s => { s with fillStyle := v }
  | OPC_FILL_STYLE_INDEX => set fun v s => { s with fillIndex := v }
  | OPC_FILL_COLOUR => set fun v s => { s with fillColour := v }
  | OPC_WRITING_MODE => set fun v s => { s with writingMode := v }
  -- handlers that are empty in the source
  | OPC_SET_PALETTE_COLOUR | OPC_GET_PALETTE_COLOUR | OPC_GET_BITMAP | OPC_INPUT_LOCATOR
  | OPC_INPUT_VALUATOR | OPC_INPUT_CHOICE | OPC_INPUT_STRING | OPC_INPUT_MODE => (g, true)
  | _ => (g, false)

end Pigfx
