import Pigfx.Gfx.Draw

/-!
# The text cursor

The cursor is drawn over the character cell at its position; the cell's own
content waits in `cursor_buffer` until `gfx_restore_cursor_content` puts it back.
Every operation that moves the cursor or changes the cell is written as restore,
act, render, apart from those that repaint the cell and skip the first step.

## Main definitions

* `gfxRestoreCursorContent`, `gfxTermRenderCursor`,
  `gfxTermRenderCursorNewlineDma` — the cell under the cursor.
* `relocate` — restore the cell, change the context, render the cursor.
* `gfxTermMoveCursor`, `gfxTermSaveCursor`, `gfxTermRestoreCursor` — motion.
* `gfxTermClearTillEnd` and its siblings — erasing.
-/

namespace Pigfx
open Lib

/-! ## The cell under the cursor -/

/-- The address of the cell at the cursor. -/
def Ctx.cursorAddr (c : Ctx) : ℤ := c.PFB (c.cursorCol * FONT_WIDTH) (c.cursorRow * c.fontHeight)

def gfxRestoreCursorContent (c : Ctx) (p : Pix) : Pix :=
  let pfb := c.cursorAddr
  { p with
    bus := iterate c.fontHeight (fun i m =>
      (m.put32 (pfb + i * c.rowStep) (p.cursorBuffer (2 * i))).put32 (pfb + i * c.rowStep + 4)
        (p.cursorBuffer (2 * i + 1))) p.bus }

/-- `(p==ctx.fg) ? ctx.bg : ((p==ctx.bg) ? ctx.fg : ~p)` -/
def Ctx.cursorPixel (c : Ctx) (v : Byte) : Byte :=
  if v = c.fg then c.bg else if v = c.bg then c.fg else ~~~v

/-- Replace the byte at an address by its cursor colour. -/
def Ctx.invertByte (c : Ctx) (a : ℤ) (m : Bus) : Bus :=
  (m.note (.cpuRead a 1)).put8 a (c.cursorPixel (m.data a))

/-- Save word `k` of the cell and, when the cursor is visible, invert it. -/
def renderWord (c : Ctx) (k : ℕ) (pfb : ℤ) (p : Pix) : Pix :=
  let saved := p.bus.word pfb
  let m := p.bus.note (.cpuRead pfb 4)
  { p with
    cursorBuffer := fun j => if j = k then saved else p.cursorBuffer j
    bus := if c.cursorVisible then
        c.invertByte (pfb + 3) (c.invertByte (pfb + 2) (c.invertByte (pfb + 1) (c.invertByte pfb m)))
      else m }

def gfxTermRenderCursor (c : Ctx) (p : Pix) : Pix :=
  let pfb := c.cursorAddr
  iterate c.fontHeight (fun i p =>
      renderWord c (2 * i + 1) (pfb + i * c.rowStep + 4) (renderWord c (2 * i) (pfb + i * c.rowStep) p))
    { p with bus := dmaWait p.bus }

/-- `gfx_term_render_cursor_newline_dma`: the saved cell becomes background, and the
operation that paints the cursor, if it is visible, is enqueued. -/
def gfxTermRenderCursorNewlineDma (c : Ctx) (p : Pix) : Pix × List DmaOp :=
  let BG := c.getBg32
  ({ p with cursorBuffer := fun j => if j < c.fontHeight * 2 then BG else p.cursorBuffer j },
    if c.cursorVisible then
      [gfxFillRectDma c (c.cursorCol * FONT_WIDTH) (c.cursorRow * c.fontHeight) FONT_WIDTH c.fontHeight]
    else [])

/-! ## Motion -/

/-- Put the cell back, change the context, and draw the cursor where it is then. -/
def relocate (f : Ctx → Ctx) (g : Gfx) : Gfx :=
  { g with
    ctx := f g.ctx
    pix := gfxTermRenderCursor (f g.ctx) (gfxRestoreCursorContent g.ctx g.pix) }

/-- The context after `gfx_term_move_cursor`. -/
def Ctx.moveCursor (row col : ℤ) (c : Ctx) : Ctx :=
  { c with
    cursorRow := min (u32 (c.HEIGHT - 1)) (if 0 < row then row.toNat else 0)
    cursorCol := min (u32 (c.WIDTH - 1)) (if 0 < col then col.toNat else 0) }

def gfxTermMoveCursor (row col : ℤ) (g : Gfx) : Gfx := relocate (Ctx.moveCursor row col) g

def gfxTermSetCursorVisibility (visible : Bool) (g : Gfx) : Gfx :=
  { g with ctx := { g.ctx with cursorVisible := visible } }

def gfxTermSaveCursor (g : Gfx) : Gfx :=
  { g with ctx := { g.ctx with savedCursor := (g.ctx.cursorRow, g.ctx.cursorCol) } }

/-- The context after `gfx_term_restore_cursor`. -/
def Ctx.recallCursor (c : Ctx) : Ctx :=
  { c with cursorRow := c.savedCursor.1, cursorCol := c.savedCursor.2 }

def gfxTermRestoreCursor (g : Gfx) : Gfx := relocate Ctx.recallCursor g

/-- `gfx_restore_cursor_content` on the global state. -/
def Gfx.restoreContent (g : Gfx) : Gfx := { g with pix := gfxRestoreCursorContent g.ctx g.pix }

/-- `gfx_term_render_cursor` on the global state. -/
def Gfx.renderCursor (g : Gfx) : Gfx := { g with pix := gfxTermRenderCursor g.ctx g.pix }

/-! ## Attributes -/

/-- The context after `gfx_term_reset_attrib`. -/
def Ctx.resetAttrib (c : Ctx) : Ctx :=
  { c with bg := c.defaultBg, fg := c.defaultFg, inverse := false, underline := false }

def gfxTermResetAttrib (g : Gfx) : Gfx := { g with ctx := g.ctx.resetAttrib }

/-! ## Erasing -/

def gfxTermClearTillEnd (b : Build) (g : Gfx) : Gfx :=
  (g.restoreContent.draw
    (gfxClearRect b g.ctx (g.ctx.cursorCol * FONT_WIDTH) (g.ctx.cursorRow * g.ctx.fontHeight) g.ctx.W
      g.ctx.fontHeight)).renderCursor

def gfxTermClearTillCursor (b : Build) (g : Gfx) : Gfx :=
  (g.restoreContent.draw
    (gfxClearRect b g.ctx 0 (g.ctx.cursorRow * g.ctx.fontHeight) ((g.ctx.cursorCol + 1) * FONT_WIDTH)
      g.ctx.fontHeight)).renderCursor

/-- The line is repainted with the cursor's cell, so nothing is restored first. -/
def gfxTermClearLine (b : Build) (g : Gfx) : Gfx :=
  (g.draw (gfxClearRect b g.ctx 0 (g.ctx.cursorRow * g.ctx.fontHeight) g.ctx.W
    g.ctx.fontHeight)).renderCursor

def gfxTermClearScreen (b : Build) (g : Gfx) : Gfx := (g.draw (gfxClear b g.ctx)).renderCursor

def gfxTermClearLines (b : Build) (fromRow toRow : ℤ) (g : Gfx) : Gfx :=
  let g := g.restoreContent
  let fromRow := if fromRow < 0 then 0 else fromRow
  let toRow := if toRow > i32 g.ctx.HEIGHT - 1 then i32 (g.ctx.HEIGHT - 1) else toRow
  if fromRow ≤ toRow then
    (g.draw (gfxClearRect b g.ctx 0 (u32 (fromRow * g.ctx.fontHeight)) g.ctx.W
      (u32 ((toRow - fromRow + 1) * g.ctx.fontHeight)))).renderCursor
  else g

end Pigfx
