import Pigfx.Gfx.CursorRange
import Pigfx.Gfx.Extent

/-!
# The text path stays inside the frame buffer

On a frame buffer of 640 times 480 pixels every access of the text path lies inside
it, as long as the cells at which the cursor is drawn outside the grid do.  The
cursor goes below the last row before the screen scrolls, and with the large font
and no limit on the lines only half a row is left there.

## Main definitions

* `PlainText` — what may be asked of the text path.
* `OverhangFits` — the cells of a byte outside the grid lie in the frame buffer.
* `Gfx.Drawn`, `Ctx.Video` — the invariants within a byte and between calls.
-/

namespace Pigfx
open Lib

/-! ## Conditions on a byte -/

/-- No GSX call, no more lines than there are from the cursor on, and no position
recalled from another geometry. -/
def PlainText (t : Term) (ch : Byte) : Prop :=
  ¬isGsxCall ch t.scn ∧ lineCount ch t.scn ≤ t.g.ctx.HEIGHT - t.g.ctx.cursorRow ∧
    (restoresCursor ch t.scn →
      t.g.ctx.savedCursor.1 < t.g.ctx.HEIGHT ∧ t.g.ctx.savedCursor.2 < t.g.ctx.WIDTH)

instance (t : Term) (ch : Byte) : Decidable (PlainText t ch) := inferInstanceAs (Decidable (_ ∧ _))

/-- The cells outside the grid that the cursor passes through lie in `[lo, hi)`. -/
def OverhangFits (lo hi : ℤ) (t : Term) (ch : Byte) : Prop :=
  ∀ cell ∈ overhang ch t.scn t.g.ctx, t.g.ctx.CellFits lo hi cell

instance (lo hi : ℤ) (t : Term) (ch : Byte) : Decidable (OverhangFits lo hi t ch) :=
  inferInstanceAs (Decidable (∀ _ ∈ _, _))

/-! ## One operation -/

theorem Ctx.CellFits.congr {lo hi : ℤ} {c c' : Ctx} {cell : ℕ × ℕ} (h : c.CellFits lo hi cell)
    (hg : c'.geometry = c.geometry) : c'.CellFits lo hi cell := by
  simp only [Ctx.geometry, Geometry.mk.injEq] at hg
  obtain ⟨-, -, hP, -, hpfb, -, -, -, -, -, -, hf, -⟩ := hg
  unfold Ctx.CellFits Ctx.cellAddr Ctx.PFB Ctx.rowStep at h ⊢
  rw [hP, hpfb, hf]
  exact h

theorem Ctx.Framed.congr {lo hi : ℤ} {c c' : Ctx} (h : c.Framed lo hi) (hg : c'.geometry = c.geometry) :
    c'.Framed lo hi := by
  simp only [Ctx.geometry, Geometry.mk.injEq] at hg
  obtain ⟨-, -, hP, hsize, hpfb, -, -, -, -, -, -, hf, -⟩ := hg
  refine ⟨?_, ?_, ?_⟩
  · rw [hpfb]; exact h.bottom
  · rw [hpfb, hsize]; exact h.top
  · rw [Ctx.lineBytes, hP, hf, hpfb, hsize]; exact h.slack

theorem Ctx.FitsDma.congr {c c' : Ctx} (h : c.FitsDma) (hg : c'.geometry = c.geometry) : c'.FitsDma := by
  simp only [Ctx.geometry, Geometry.mk.injEq] at hg
  obtain ⟨-, hH, hP, -⟩ := hg
  exact ⟨hP ▸ h.stride, hH ▸ h.rows⟩

/-- The screen lies in `[lo, hi)` with the cell at the cursor, and so do the accesses
so far. -/
structure Gfx.Drawn (lo hi : ℤ) (g : Gfx) : Prop where
  screen : g.ctx.Screen
  dma : g.ctx.FitsDma
  frame : g.ctx.Framed lo hi
  cell : g.ctx.CellFits lo hi (g.ctx.cursorRow, g.ctx.cursorCol)
  trace : g.pix.bus.Contained lo hi

section Op
variable {b : Build} {lo hi : ℤ} {g : Gfx}

/-- An operation that keeps the geometry, when the new cell fits. -/
theorem Gfx.Drawn.of_geometry {g' : Gfx} (h : g.Drawn lo hi) (hg : g'.ctx.geometry = g.ctx.geometry)
    (hcell : g.ctx.CellFits lo hi (g'.ctx.cursorRow, g'.ctx.cursorCol))
    (htrace : g'.pix.bus.Contained lo hi) : g'.Drawn lo hi :=
  ⟨h.screen.congr hg, h.dma.congr hg, h.frame.congr hg, hcell.congr hg, htrace⟩

theorem contained_restoreContent (h : g.Drawn lo hi) : g.restoreContent.pix.bus.Contained lo hi :=
  contained_gfxRestoreCursorContent h.cell h.trace

/-- Draw, and then render the cursor where it was. -/
theorem drawn_draw_renderCursor (h : g.Drawn lo hi) {f : Bus → Bus}
    (hf : ∀ m : Bus, m.Contained lo hi → (f m).Contained lo hi) : (g.draw f).renderCursor.Drawn lo hi :=
  h.of_geometry rfl h.cell (contained_gfxTermRenderCursor h.cell (hf _ h.trace))

/-- The same after the cell has been put back. -/
theorem drawn_restore_draw_renderCursor (h : g.Drawn lo hi) {f : Bus → Bus}
    (hf : ∀ m : Bus, m.Contained lo hi → (f m).Contained lo hi) :
    (g.restoreContent.draw f).renderCursor.Drawn lo hi :=
  drawn_draw_renderCursor (g := g.restoreContent)
    (h.of_geometry rfl h.cell (contained_restoreContent h)) hf

theorem drawn_move (h : g.Drawn lo hi) {row col : ℕ} (hcell : g.ctx.CellFits lo hi (row, col)) :
    (relocate (Ctx.setCursor row col) g).Drawn lo hi :=
  h.of_geometry rfl hcell
    (contained_gfxTermRenderCursor (c := g.ctx.setCursor row col) (hcell.congr rfl)
      (contained_restoreContent h))

theorem drawn_print (h : g.Drawn lo hi) (hr : g.ctx.InRange) (ch : Byte)
    (hcell : g.ctx.CellFits lo hi (g.ctx.cursorRow, u32 (g.ctx.cursorCol + 1))) :
    (printAt ch g).Drawn lo hi :=
  h.of_geometry rfl hcell
    (contained_gfxTermRenderCursor (c := { g.ctx with cursorCol := u32 (g.ctx.cursorCol + 1) })
      (hcell.congr rfl) (contained_gfxPutc h.frame h.screen hr.row hr.col ch h.trace))

/-- The scroll draws the cursor with a transfer. -/
theorem drawn_scrollLine (h : g.Drawn lo hi) (hrow : g.ctx.cursorRow = g.ctx.HEIGHT)
    (hcol : g.ctx.cursorCol < g.ctx.WIDTH) : (scrollLine g).Drawn lo hi := by
  have hpos := h.screen.rows; have hfont := h.screen.font; have hcolumns := h.screen.columns
  have hw : FONT_WIDTH = 8 := rfl
  have hlast : u32 ((g.ctx.cursorRow : ℤ) - 1) = g.ctx.HEIGHT - 1 := by
    rw [hrow]; exact h.screen.u32_lastRow
  have hgeo : (g.ctx.setCursor (g.ctx.HEIGHT - 1) g.ctx.cursorCol).geometry = g.ctx.geometry := rfl
  have hcell := h.frame.cellFits h.screen (r := g.ctx.HEIGHT - 1) (by omega) hcol
  have hlines := line_of_cell (n := g.ctx.HEIGHT) (f := g.ctx.fontHeight) (r := g.ctx.HEIGHT - 1)
    (i := g.ctx.fontHeight - 1) (by omega) (by omega)
  rw [scrollLine_eq hlast]
  refine h.of_geometry rfl hcell
    (contained_dmaExecuteQueue (fun op hop x hx => ?_) (contained_restoreContent h))
  rcases List.mem_append.mp hop with hop | hop
  · exact contained_gfxScrollDownDma (h.frame.congr hgeo) (h.screen.congr hgeo) hop hx
  · simp only [gfxTermRenderCursorNewlineDma] at hop
    split at hop
    · rw [List.mem_singleton.mp hop]
      refine contained_gfxFillRectDma (h.frame.congr hgeo) (h.screen.congr hgeo) (h.dma.congr hgeo) ?_
        hw.ge hfont ?_ hx
      · change g.ctx.cursorCol * FONT_WIDTH + FONT_WIDTH ≤ g.ctx.W
        rw [hw]; omega
      · change (g.ctx.HEIGHT - 1) * g.ctx.fontHeight + g.ctx.fontHeight ≤ g.ctx.H
        rw [h.screen.lines]; omega
    · exact absurd hop List.not_mem_nil

/-- **One operation stays inside the frame buffer.** -/
theorem drawn_run {ch : Byte} {st : ScnState} {c₀ : Ctx} {op : TextOp} (h : g.Drawn lo hi)
    (hgeo : g.ctx.geometry = c₀.geometry) (hop : op.Legal ch st c₀ g.ctx)
    (hover : ∀ cell ∈ overhang ch st c₀, c₀.CellFits lo hi cell)
    (hcount : lineCount ch st ≤ c₀.HEIGHT - c₀.cursorRow) : (op.run b g).Drawn lo hi := by
  have hH : g.ctx.HEIGHT = c₀.HEIGHT := congrArg Geometry.HEIGHT hgeo
  cases op with
  | wait => exact h.of_geometry rfl h.cell (contained_note h.trace trivial)
  | attrs a => exact h.of_geometry rfl h.cell h.trace
  | move row col =>
      obtain ⟨-, -, hcol, hrow | ⟨-, hmem⟩⟩ := hop
      · exact drawn_move h (h.frame.cellFits h.screen hrow hcol)
      · exact drawn_move h ((hover _ hmem).congr hgeo)
  | erase x y width height =>
      obtain ⟨-, hw, hw', row, col, n, rfl, rfl, rfl, hcol, hn, hrow⟩ := hop
      have hcolumns := h.screen.columns
      have hlines : row * g.ctx.fontHeight + n * g.ctx.fontHeight ≤ g.ctx.H := by
        rw [h.screen.lines, ← Nat.add_mul]; exact Nat.mul_le_mul_right _ hrow
      exact drawn_restore_draw_renderCursor h fun m hm =>
        contained_gfxClearRect h.frame h.screen h.dma (by omega) hw hw'
          (Nat.mul_pos hn h.screen.font) hlines hm
  | eraseLine =>
      have hr : g.ctx.InRange := hop
      have hcolumns := h.screen.columns; have hcols := h.screen.cols
      have hlines : g.ctx.cursorRow * g.ctx.fontHeight + g.ctx.fontHeight ≤ g.ctx.H := by
        rw [h.screen.lines, ← Nat.succ_mul]; exact Nat.mul_le_mul_right _ hr.row
      exact drawn_draw_renderCursor h fun m hm =>
        contained_gfxClearRect h.frame h.screen h.dma (by omega) (by omega) le_rfl h.screen.font hlines hm
  | clear =>
      exact drawn_draw_renderCursor h fun m hm =>
        contained_gfxClear (Or.inr ⟨h.frame.bottom, h.frame.top⟩) hm
  | print x =>
      obtain ⟨hr, hend⟩ := hop
      have hW := h.screen.width_lt
      have hcol := hr.col
      have hnext : u32 ((g.ctx.cursorCol : ℤ) + 1) = g.ctx.cursorCol + 1 :=
        u32_natCast (n := g.ctx.cursorCol + 1) (by omega)
      refine drawn_print h hr x ?_
      rw [hnext]
      by_cases hlast : g.ctx.cursorCol + 1 = g.ctx.WIDTH
      · rw [hlast]; exact (hover _ (hend hlast)).congr hgeo
      · exact h.frame.cellFits h.screen hr.row (by omega)
  | delete n =>
      obtain ⟨hr, hrow, rfl⟩ := hop
      have := hr.row
      exact drawn_restore_draw_renderCursor h fun m hm =>
        contained_gfxDeleteLines h.frame h.screen (by omega) hm
  | insert n =>
      obtain ⟨hr, hrow, rfl⟩ := hop
      have := hr.row
      exact drawn_restore_draw_renderCursor h fun m hm =>
        contained_gfxInsertLines h.frame h.screen (by omega) hm
  | visible v =>
      cases v with
      | true => exact h.of_geometry rfl h.cell (contained_gfxTermRenderCursor (c := g.ctx.setVisible true) (h.cell.congr rfl) h.trace)
      | false => exact h.of_geometry rfl h.cell (contained_gfxRestoreCursorContent (c := g.ctx.setVisible false) (h.cell.congr rfl) h.trace)
  | scroll => exact drawn_scrollLine h hop.1 hop.2
  | send s => exact h.of_geometry rfl h.cell h.trace
  | bell => exact h.of_geometry rfl h.cell h.trace
  | wordstar on => exact h.of_geometry rfl h.cell h.trace

/-- Legal operations stay inside the frame buffer. -/
theorem drawn_runOps {ch : Byte} {st : ScnState} {c₀ : Ctx} (ops : List TextOp) (h : g.Drawn lo hi)
    (hgeo : g.ctx.geometry = c₀.geometry) (hops : Along TextOp.ctx (TextOp.Legal ch st c₀) g.ctx ops)
    (hover : ∀ cell ∈ overhang ch st c₀, c₀.CellFits lo hi cell)
    (hcount : lineCount ch st ≤ c₀.HEIGHT - c₀.cursorRow) : (runOps b ops g).Drawn lo hi := by
  induction ops generalizing g with
  | nil => exact h
  | cons op ops ih =>
      refine ih (drawn_run h hgeo hops.1 hover hcount) ?_ ?_
      · rw [TextOp.ctx_run, TextOp.geometry_ctx, hgeo]
      · rw [TextOp.ctx_run]; exact hops.2

/-- **A byte of text stays inside the frame buffer.** -/
theorem drawn_putByte {ch : Byte} {t : Term} (h : t.g.Drawn lo hi) (hr : t.g.ctx.InRange)
    (hp : PlainText t ch) (hover : OverhangFits lo hi t ch) : (putByte b ch t).g.Drawn lo hi := by
  have hsaved : restoresCursor ch t.scn → t.g.ctx.savedCursor.1 ≤ t.g.ctx.HEIGHT ∧
      t.g.ctx.savedCursor.2 < t.g.ctx.WIDTH := fun hu => ⟨(hp.2.2 hu).1.le, (hp.2.2 hu).2⟩
  rw [putByte_textOps b h.screen.toSized hr hp.1 hsaved]
  exact drawn_runOps _ h rfl (textOps_legal b h.screen.toSized hr hsaved).1 hover hp.2.1

end Op

/-! ## Geometry -/

/-- What the board gives: a frame buffer of 640 times 480 pixels in `[lo, hi)`, and one
of the three fonts. -/
structure Ctx.Video (lo hi : ℤ) (c : Ctx) : Prop where
  wide : c.W = 640
  columns : c.WIDTH = 80
  tall : c.fullHeight = 480
  pitch : 640 ≤ c.Pitch
  stride : c.Pitch < 2 ^ 15 + 8
  base : c.fullPfb = lo
  top : hi = lo + c.Pitch * 480
  bytes : c.fullSize = c.Pitch * 480
  font : c.fontHeight = 8 ∨ c.fontHeight = 14 ∨ c.fontHeight = 16

namespace Ctx.Video

variable {lo hi : ℤ} {c : Ctx} (h : c.Video lo hi)
include h

theorem board : c.Board :=
  ⟨by rw [h.wide]; decide, by rw [h.wide]; decide, by rw [h.columns, h.wide],
    by rw [h.tall]; decide, by rw [h.tall]; decide, h.font⟩

theorem congr {c' : Ctx} (hg : c'.geometry = c.geometry) : c'.Video lo hi := by
  simp only [Ctx.geometry, Geometry.mk.injEq] at hg
  obtain ⟨hW, -, hP, -, -, hfp, hfs, hfh, hw, -, -, hf, -⟩ := hg
  refine ⟨hW.trans h.wide, hw.trans h.columns, hfh.trans h.tall, ?_, ?_, hfp.trans h.base, ?_, ?_, ?_⟩
  · rw [hP]; exact h.pitch
  · rw [hP]; exact h.stride
  · rw [hP]; exact h.top
  · rw [hfs, hP]; exact h.bytes
  · rw [hf]; exact h.font

/-- The borders leave a number of whole rows, and with the font whose rows need not be
a number of words they leave two lines themselves. -/
theorem rows_between_borders : ∃ n, 0 < n ∧ c.borderTopBottom * 2 + n * c.fontHeight = 480 ∧
    (c.fontHeight % 4 = 0 ∨ 2 ≤ c.borderTopBottom) := by
  have hlines := h.board.lines_le
  have htall := h.tall
  unfold borderTopBottom
  dsimp only
  rcases h.font with hf | hf | hf <;> rw [hf, htall] at hlines ⊢ <;> split
  · exact ⟨59, by omega⟩
  · exact ⟨c.lines, by omega⟩
  · omega
  · exact ⟨c.lines, by omega⟩
  · exact ⟨29, by omega⟩
  · exact ⟨c.lines, by omega⟩

/-- The text area is made of whole rows, and the borders are the rest of the frame buffer. -/
theorem rows_setScreenGeometry : ∃ n, 0 < n ∧ c.setScreenGeometry.H = n * c.fontHeight ∧
    c.setScreenGeometry.HEIGHT = n ∧ n * c.fontHeight ≤ 480 ∧
    c.setScreenGeometry.size = c.Pitch * (n * c.fontHeight) ∧
    c.Pitch * (n * c.fontHeight) + c.borderTopBottom * 2 * c.Pitch = c.Pitch * 480 ∧
    (c.fontHeight % 4 = 0 ∨ 2 ≤ c.borderTopBottom) := by
  obtain ⟨n, hn, hborder, hwords⟩ := h.rows_between_borders
  have hstride := h.stride
  have hH : c.setScreenGeometry.H = n * c.fontHeight := by
    rw [h.board.height_eq, h.tall]; omega
  have hrows : c.setScreenGeometry.HEIGHT = n := by
    change c.setScreenGeometry.H / c.fontHeight = n
    rw [hH]; exact Nat.mul_div_cancel _ h.board.font_pos.1
  have hall : c.Pitch * (n * c.fontHeight) + c.borderTopBottom * 2 * c.Pitch = c.Pitch * 480 := by
    rw [← hborder]; ring
  have hlow : n * c.fontHeight ≤ 480 := by omega
  have hfit : c.Pitch * (n * c.fontHeight) ≤ c.Pitch * 480 := Nat.mul_le_mul_left _ hlow
  have hsize : c.setScreenGeometry.size = c.Pitch * (n * c.fontHeight) := by
    change u32 ((c.fullSize : ℤ) - c.borderTopBottom * 2 * c.Pitch) = _
    have hrest : (c.fullSize : ℤ) - c.borderTopBottom * 2 * c.Pitch = (c.Pitch * (n * c.fontHeight) : ℕ) := by
      rw [h.bytes, ← hall]; push_cast; ring
    rw [hrest, u32_natCast (by omega)]
  exact ⟨n, hn, hH, hrows, hlow, hsize, hall, hwords⟩

theorem screen_setScreenGeometry : c.setScreenGeometry.Screen := by
  obtain ⟨n, hn, hH, hrows, hlow, hsize, -⟩ := h.rows_setScreenGeometry
  have hstride := h.stride
  have hfit : c.Pitch * (n * c.fontHeight) ≤ c.Pitch * 480 := Nat.mul_le_mul_left _ hlow
  refine ⟨⟨?_, ?_, h.board.font_pos.1, ?_, ?_, ?_, ?_⟩, ?_, ?_, ?_, ?_, ?_⟩
  · rw [hrows]; exact hn
  · change 0 < c.WIDTH; rw [h.columns]; decide
  · change 8 * c.WIDTH ≤ c.W; rw [h.columns, h.wide]
  · rw [hrows, hH]; exact le_rfl
  · change c.W < _; rw [h.wide]; decide
  · rw [hH]; omega
  · change c.W = 8 * c.WIDTH; rw [h.columns, h.wide]
  · rw [hrows, hH]; rfl
  · rw [hsize, hH]; rfl
  · change c.W ≤ c.Pitch; rw [h.wide]; exact h.pitch
  · rw [hsize]; omega

theorem fitsDma_setScreenGeometry : c.setScreenGeometry.FitsDma := by
  obtain ⟨n, -, hH, -, hlow, -⟩ := h.rows_setScreenGeometry
  refine ⟨h.stride, ?_⟩
  rw [hH]
  omega

theorem framed_setScreenGeometry : c.setScreenGeometry.Framed lo hi := by
  obtain ⟨n, -, -, -, -, hsize, hall, hwords⟩ := h.rows_setScreenGeometry
  have hpitch := h.pitch
  have hborder : (0 : ℤ) ≤ c.borderTopBottom * c.Pitch := by positivity
  have hall' := congrArg (Nat.cast : ℕ → ℤ) hall
  push_cast at hall'
  refine ⟨?_, ?_, ?_⟩
  · change lo ≤ c.fullPfb + c.borderTopBottom * c.Pitch
    rw [h.base]
    omega
  · change c.fullPfb + c.borderTopBottom * c.Pitch + c.setScreenGeometry.size ≤ hi
    rw [hsize, h.base, h.top]
    push_cast
    linarith
  · rcases hwords with hw | hw
    · left
      change c.Pitch * c.fontHeight % 4 = 0
      rw [Nat.mul_mod, hw]; simp
    · right
      change c.fullPfb + c.borderTopBottom * c.Pitch + c.setScreenGeometry.size + 3 ≤ hi
      rw [hsize, h.base, h.top]
      have hgap : (2 : ℤ) * 640 ≤ c.borderTopBottom * c.Pitch :=
        mul_le_mul (by omega) (by omega) (by norm_num) (by omega)
      push_cast
      linarith

/-- **The new geometry lies in the frame buffer.** -/
theorem setScreenGeometry : c.setScreenGeometry.Screen ∧ c.setScreenGeometry.FitsDma ∧
    c.setScreenGeometry.Framed lo hi :=
  ⟨h.screen_setScreenGeometry, h.fitsDma_setScreenGeometry, h.framed_setScreenGeometry⟩

end Ctx.Video

/-! ## Calls -/

/-- What holds between calls. -/
structure Term.Framed (lo hi : ℤ) (t : Term) : Prop where
  steady : t.g.ctx.Steady
  video : t.g.ctx.Video lo hi
  drawn : t.g.Drawn lo hi

section Calls
variable {b : Build} {lo hi : ℤ}

/-- A new geometry, after the old text area has been cleared. -/
theorem drawn_gfxSetScreenGeometry {g : Gfx} (hv : g.ctx.Video lo hi)
    (hold : g.ctx.size = 0 ∨ lo ≤ g.ctx.pfb ∧ g.ctx.pfb + g.ctx.size ≤ hi)
    (H : g.pix.bus.Contained lo hi) : (gfxSetScreenGeometry b g).Drawn lo hi := by
  obtain ⟨hs, hd, hf⟩ := hv.setScreenGeometry
  have hcell := hf.cellFits hs hs.rows hs.cols
  exact ⟨hs, hd, hf, hcell, contained_gfxTermRenderCursor hcell (contained_gfxClear hold H)⟩

/-- A toggle assigns to the context and sets the geometry. -/
theorem framed_gfxSetScreenGeometry {t : Term} {g : Gfx} (h : t.Framed lo hi) (hv : g.ctx.Video lo hi)
    (hpix : g.pix = t.g.pix) (hpfb : g.ctx.pfb = t.g.ctx.pfb) (hsize : g.ctx.size = t.g.ctx.size)
    (hsaved : g.ctx.savedCursor.2 < g.ctx.WIDTH) :
    Term.Framed lo hi { t with g := gfxSetScreenGeometry b g } := by
  refine ⟨(steady_setScreenGeometry b hv.board hsaved).1, ?_, ?_⟩
  · exact ⟨hv.wide, hv.columns, hv.tall, hv.pitch, hv.stride, hv.base, hv.top, hv.bytes, hv.font⟩
  · refine drawn_gfxSetScreenGeometry hv (Or.inr ?_) (hpix ▸ h.drawn.trace)
    rw [hpfb, hsize]
    exact ⟨h.drawn.frame.bottom, h.drawn.frame.top⟩

theorem framed_prepare {t : Term} (h : t.Framed lo hi) (call : Call) :
    (call.prepare b t).Framed lo hi := by
  have hv := h.video
  have hsaved := h.steady.savedCol
  have hfont : ∀ n, n = 8 ∨ n = 14 ∨ n = 16 → (t.g.ctx.setFontHeight b n).Video lo hi := fun n hn =>
    ⟨hv.wide, hv.columns, hv.tall, hv.pitch, hv.stride, hv.base, hv.top, hv.bytes, hn⟩
  have hset : ∀ n, n = 8 ∨ n = 14 ∨ n = 16 →
      Term.Framed lo hi { t with g := gfxSetFontHeight b n t.g } := fun n hn =>
    framed_gfxSetScreenGeometry (g := { t.g with ctx := t.g.ctx.setFontHeight b n }) h (hfont n hn) rfl rfl
      rfl hsaved
  cases call with
  | putstring str => exact h
  | toggleFontHeight =>
      change Term.Framed lo hi { t with g := gfxToggleFontHeight b t.g }
      rw [gfxToggleFontHeight]
      split
      · exact hset 14 (by omega)
      · split
        · exact hset 16 (by omega)
        · exact hset 8 (by omega)
  | toggleLines =>
      exact framed_gfxSetScreenGeometry (g := { t.g with ctx := t.g.ctx.toggleLines }) h
        ⟨hv.wide, hv.columns, hv.tall, hv.pitch, hv.stride, hv.base, hv.top, hv.bytes, hv.font⟩ rfl rfl rfl
        hsaved

/-- **A byte keeps what holds between calls.** -/
theorem framed_putByte {ch : Byte} {t : Term} (h : t.Framed lo hi) (hp : PlainText t ch)
    (hover : OverhangFits lo hi t ch) : (putByte b ch t).Framed lo hi := by
  have hput := steady_putByte b h.steady fun hr => (hp.2.2 hr).1.le
  exact ⟨hput.2, h.video.congr hput.1, drawn_putByte h.drawn h.steady.toInRange hp hover⟩

theorem framed_call {t : Term} (h : t.Framed lo hi) {call : Call}
    (hcond : Along (fun t ch => putByte b ch t) (fun t ch => PlainText t ch ∧ OverhangFits lo hi t ch)
      (call.prepare b t) (call.text b t)) : (call.run b t).Framed lo hi := by
  rw [Call.run_eq]
  exact hcond.invariant (I := Term.Framed lo hi) (fun _ _ ht hch => framed_putByte ht hch.1 hch.2)
    (framed_prepare h call)

/-- The first geometry: nothing has been drawn, and the old text area is empty. -/
theorem framed_start (b : Build) (pFramebuffer : ℤ) {pitch : ℕ} (data : ℤ → Byte) (hp : 640 ≤ pitch)
    (hp' : pitch < 2 ^ 15 + 8) :
    (Term.start b pFramebuffer 640 480 pitch (pitch * 480) data).Framed pFramebuffer
      (pFramebuffer + pitch * 480) := by
  have hv : (((Term.static data).g.ctx.setEnv b pFramebuffer 640 480 pitch (pitch * 480)).setFontHeight b
      b.fontHeight).Video pFramebuffer (pFramebuffer + pitch * 480) :=
    ⟨rfl, rfl, rfl, hp, hp', rfl, rfl, rfl, b.font_predefined⟩
  have hsteady : (Term.start b pFramebuffer 640 480 pitch (pitch * 480) data).Steady :=
    steady_start b pFramebuffer pitch (pitch * 480) data (by decide) (by decide) (by decide) (by decide)
  refine ⟨hsteady.ctx, ?_, ?_⟩
  · exact ⟨hv.wide, hv.columns, hv.tall, hv.pitch, hv.stride, hv.base, hv.top, hv.bytes, hv.font⟩
  · exact drawn_gfxSetScreenGeometry (g := { (Term.static data).g with
      ctx := ((Term.static data).g.ctx.setEnv b pFramebuffer 640 480 pitch (pitch * 480)).setFontHeight b
        b.fontHeight }) hv (Or.inl rfl) fun _ he => absurd he List.not_mem_nil

end Calls

/-- **The text path stays inside the frame buffer.**  With every font and every limit
on the lines, in every run of plain text all of whose bytes draw the cursor in cells
of the frame buffer, every access lies in the frame buffer. -/
theorem text_contained (b : Build) (pFramebuffer : ℤ) (pitch : ℕ) (data : ℤ → Byte) (hp : 640 ≤ pitch)
    (hp' : pitch < 2 ^ 15 + 8) (calls : List Call)
    (hcond : AlongCalls b (fun t ch => PlainText t ch ∧
      OverhangFits pFramebuffer (pFramebuffer + pitch * 480) t ch)
      (Term.start b pFramebuffer 640 480 pitch (pitch * 480) data) calls) :
    let t := calls.foldl (Call.run b) (Term.start b pFramebuffer 640 480 pitch (pitch * 480) data)
    t.g.pix.bus.Contained pFramebuffer (pFramebuffer + pitch * 480) :=
  (hcond.invariant (I := Term.Framed pFramebuffer (pFramebuffer + pitch * 480))
    (fun _ _ ht hc => framed_call ht hc) (framed_start b pFramebuffer data hp hp')).drawn.trace

/-- With the limit of 28 lines there is a border as high as a row, and the cursor may
pass the last cell. -/
theorem text_contained_lines :
    let calls := [.toggleLines, .putstring (text "\x1b[28;80HA\n\x1b[L\x1b[u")]
    let t := calls.foldl (Call.run .shipped) (Term.start .shipped 0 640 480 640 (640 * 480) fun _ => 0)
    t.g.pix.bus.Contained 0 (0 + (640 : ℕ) * 480) :=
  text_contained .shipped 0 640 (fun _ => 0) (by decide) (by decide) _ (by decide)

/-! ## Below the last row -/

theorem prefix_note (e : Event) (m : Bus) : m.trace <+: (m.note e).trace := List.prefix_append _ _

theorem prefix_iterate (n : ℕ) {f : ℕ → Bus → Bus} (hf : ∀ i x, x.trace <+: (f i x).trace) (m : Bus) :
    m.trace <+: (iterate n f m).trace :=
  iterate_induction n f m (fun _ x => m.trace <+: x.trace) (List.prefix_refl _)
    fun i x _ h => h.trans (hf i x)

theorem prefix_dmaExecuteQueue (ops : List DmaOp) (m : Bus) :
    m.trace <+: (dmaExecuteQueue ops m).trace := by
  have hsetup : ∀ (l : List DmaOp) (x : Bus), x.trace <+: (l.foldl (fun m _ => m.note .dmaSetup) x).trace := by
    intro l
    induction l with
    | nil => exact fun x => List.prefix_refl _
    | cons _ l ih => exact fun x => (prefix_note _ x).trans (ih _)
  have hop : ∀ (op : DmaOp) (x : Bus), x.trace <+: (op.run x).trace := by
    intro op x
    rw [DmaOp.run]
    split <;> split
    · exact List.prefix_append _ _
    · exact List.prefix_append _ _
    · exact List.prefix_append _ _
    · exact prefix_iterate _ (fun _ _ => List.prefix_append _ _) x
  have hrun : ∀ x : Bus, x.trace <+: (ops.foldl (fun m op => op.run m) x).trace := by
    induction ops with
    | nil => exact fun x => List.prefix_refl _
    | cons op ops ih => exact fun x => (hop op x).trans (ih _)
  exact ((hsetup ops m).trans (prefix_note .dmaStart _)).trans (hrun _)

theorem prefix_scrollLine (g : Gfx) : g.pix.bus.trace <+: (scrollLine g).pix.bus.trace := by
  have hrestore : g.pix.bus.trace <+: g.restoreContent.pix.bus.trace :=
    prefix_iterate _ (fun _ _ => (List.prefix_append _ _).trans (List.prefix_append _ _)) _
  exact hrestore.trans (prefix_dmaExecuteQueue _ _)

theorem prefix_renderWord (c : Ctx) (k : ℕ) (pfb : ℤ) (p : Pix) :
    (p.bus.note (.cpuRead pfb 4)).trace <+: (renderWord c k pfb p).bus.trace := by
  have hinvert : ∀ (a : ℤ) (x : Bus), x.trace <+: (c.invertByte a x).trace := fun a x =>
    (List.prefix_append _ _).trans (List.prefix_append _ _)
  simp only [renderWord]
  split
  · exact (((hinvert _ _).trans (hinvert _ _)).trans (hinvert _ _)).trans (hinvert _ _)
  · exact List.prefix_refl _

/-- Rendering the cursor reads every line of its cell. -/
theorem mem_trace_gfxTermRenderCursor (c : Ctx) (p : Pix) {i : ℕ} (hi : i < c.fontHeight) :
    Event.cpuRead (c.cursorAddr + (i : ℕ) * c.rowStep) 4 ∈ (gfxTermRenderCursor c p).bus.trace := by
  have hall := iterate_induction c.fontHeight
    (fun i p => renderWord c (2 * i + 1) (c.cursorAddr + i * c.rowStep + 4)
      (renderWord c (2 * i) (c.cursorAddr + i * c.rowStep) p))
    { p with bus := dmaWait p.bus }
    (fun k (q : Pix) => ∀ j < k, Event.cpuRead (c.cursorAddr + (j : ℕ) * c.rowStep) 4 ∈ q.bus.trace)
    (by omega) ?_
  · exact hall i hi
  · intro k q _ h j hj
    have hword := prefix_renderWord c (2 * k) (c.cursorAddr + k * c.rowStep) q
    have hline := ((List.prefix_append _ _).trans (prefix_renderWord c (2 * k + 1)
      (c.cursorAddr + k * c.rowStep + 4) (renderWord c (2 * k) (c.cursorAddr + k * c.rowStep) q))).subset
    rcases Nat.lt_succ_iff_lt_or_eq.mp hj with hlt | rfl
    · exact hline (((List.prefix_append _ _).trans hword).subset (h j hlt))
    · exact hline (hword.subset (List.mem_append_right _ (List.mem_singleton_self _)))

/-- **A line feed in the last row reads the cell below it**, before the screen scrolls. -/
theorem lineFeed_reads_below (b : Build) {t : Term} (hs : t.g.ctx.Sized)
    (hrow : t.g.ctx.cursorRow + 1 = t.g.ctx.HEIGHT) (hcol : t.g.ctx.cursorCol < t.g.ctx.WIDTH) {i : ℕ}
    (hi : i < t.g.ctx.fontHeight) :
    Event.cpuRead (t.g.ctx.cellAddr t.g.ctx.HEIGHT t.g.ctx.cursorCol + (i : ℕ) * t.g.ctx.rowStep) 4 ∈
      (putByte b 0x0A t).g.pix.bus.trace := by
  have hnext : u32 ((t.g.ctx.cursorRow : ℤ) + 1) = t.g.ctx.HEIGHT := by
    rw [hs.u32_row (by omega), hrow]
  have hput : (putByte b 0x0A t).g =
      scrollLine (relocate (Ctx.setCursor t.g.ctx.HEIGHT t.g.ctx.cursorCol) (t.g.draw dmaWait)) := by
    have hact : (byteAction b 0x0A { t with g := t.g.draw dmaWait }).g =
        relocate (Ctx.setCursor (u32 ((t.g.ctx.cursorRow : ℤ) + 1)) t.g.ctx.cursorCol)
          (t.g.draw dmaWait) := rfl
    rw [hnext] at hact
    simp only [putByte]
    rw [hact, wrapFixup, if_neg (by exact Nat.not_le.mpr hcol), scrollFixup, if_pos (by exact le_rfl)]
  rw [hput]
  exact (prefix_scrollLine _).subset (mem_trace_gfxTermRenderCursor
    (t.g.ctx.setCursor t.g.ctx.HEIGHT t.g.ctx.cursorCol) _ hi)

/-- With the shipped settings the last line of that cell is line 487. -/
theorem text_escapes :
    ¬∀ (b : Build) (pFramebuffer : ℤ) (pitch : ℕ) (data : ℤ → Byte) (calls : List Call), 640 ≤ pitch →
      AlongCalls b PlainText (Term.start b pFramebuffer 640 480 pitch (pitch * 480) data) calls →
      let t := calls.foldl (Call.run b) (Term.start b pFramebuffer 640 480 pitch (pitch * 480) data)
      t.g.pix.bus.Contained pFramebuffer (pFramebuffer + pitch * 480) := by
  intro h
  have hstart : (Term.start .shipped 0 640 480 640 (640 * 480) fun _ => 0).Steady :=
    steady_start .shipped 0 640 (640 * 480) (fun _ => 0) (by decide) (by decide) (by decide) (by decide)
  have hsteady : (runBytes .shipped (Term.start .shipped 0 640 480 640 (640 * 480) fun _ => 0)
      (text "\x1b[29;1H")).Steady := steady_runBytes .shipped hstart (by decide)
  have hrun : ∀ t, [Call.putstring (text "\x1b[29;1H\n")].foldl (Call.run .shipped) t =
      putByte .shipped 0x0A (runBytes .shipped t (text "\x1b[29;1H")) := by
    intro t
    have hstr : cString (text "\x1b[29;1H\n") = text "\x1b[29;1H" ++ [0x0A] := by decide
    rw [List.foldl_cons, List.foldl_nil, Call.run, gfxTermPutstring_eq, hstr, runBytes_append]
    rfl
  have hall := h .shipped 0 640 (fun _ => 0) [.putstring (text "\x1b[29;1H\n")] (by decide) (by decide)
  rw [hrun] at hall
  have hcell := lineFeed_reads_below .shipped hsteady.ctx.toSized (by decide) (by decide) (i := 15)
    (by decide)
  obtain hnone | ⟨-, hend⟩ := hall _ hcell
  · exact absurd hnone (by decide)
  · revert hend
    decide

end Pigfx
