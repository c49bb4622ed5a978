import Pigfx.Gfx.Logical

/-!
# A hidden cursor

While the cursor is hidden the memory is the logical screen.  So the operations of a
byte do in memory what they draw, whatever the pitch is.

## Main definitions

* `Gfx.Hidden` — the cursor is hidden, and its cell is in memory.
* `hidden_run`, `hidden_runOps` — operations keep it so, and draw.
-/

namespace Pigfx
open Lib

/-- The cursor is hidden, and the cursor buffer holds what is in memory. -/
structure Gfx.Hidden (g : Gfx) : Prop where
  hidden : g.ctx.cursorVisible = false
  synced : g.logicalScreen = g.pix.bus.data

/-- The memory holds `d`, and the cursor is hidden. -/
def Gfx.Draws (g : Gfx) (d : ℤ → Byte) : Prop := g.Hidden ∧ g.pix.bus.data = d

theorem Gfx.Hidden.draws {g : Gfx} (h : g.Hidden) : g.Draws g.pix.bus.data := ⟨h, rfl⟩

section Hidden
variable {g : Gfx}

/-- Rendering the cursor fills the buffer only. -/
theorem draws_render {c : Ctx} (hc : 8 ≤ c.rowStep) (hv : c.cursorVisible = false) (p : Pix) :
    ({ g with ctx := c, pix := gfxTermRenderCursor c p } : Gfx).Draws p.bus.data := by
  have hdata := data_gfxTermRenderCursor_hidden hv p
  exact ⟨⟨hv, (logicalScreen_gfxTermRenderCursor hc p).trans hdata.symm⟩, hdata⟩

/-- Draw, render. -/
theorem draws_draw {f : Bus → Bus} (hf : OnData f) {c : Ctx} (hc : 8 ≤ c.rowStep)
    (hv : c.cursorVisible = false) :
    ({ g.draw f with ctx := c } : Gfx).renderCursor.Draws (f ⟨g.pix.bus.data, []⟩).data := by
  have hdata : (f g.pix.bus).data = (f ⟨g.pix.bus.data, []⟩).data := hf _ _ rfl
  rw [← hdata]
  exact draws_render hc hv (g.draw f).pix

variable (hstep : 8 ≤ g.ctx.rowStep)
include hstep

/-- `ESC [ ? 2 5 l` hides the cursor. -/
theorem hidden_visible_false (b : Build) : ((TextOp.visible false).run b g).Hidden := by
  refine ⟨rfl, ?_⟩
  have hdata := data_gfxRestoreCursorContent hstep g.pix
  change logicalScreen g.ctx (gfxRestoreCursorContent g.ctx g.pix) =
    (gfxRestoreCursorContent g.ctx g.pix).bus.data
  funext x
  by_cases hx : g.ctx.InCell x
  · rw [hdata, logicalScreen, logicalScreen, if_pos hx, if_pos hx]
    rfl
  · rw [logicalScreen_outside hx]

variable (h : g.Hidden)
include h

theorem data_restore : (gfxRestoreCursorContent g.ctx g.pix).bus.data = g.pix.bus.data :=
  (data_gfxRestoreCursorContent hstep g.pix).trans h.synced

/-- Restore, draw, render. -/
theorem draws_restore_draw {f : Bus → Bus} (hf : OnData f) :
    (g.restoreContent.draw f).renderCursor.Draws (f ⟨g.pix.bus.data, []⟩).data := by
  have hdraw := draws_render hstep (g := g) h.hidden ((g.restoreContent.draw f).pix)
  have hdata : (f (gfxRestoreCursorContent g.ctx g.pix).bus).data = (f ⟨g.pix.bus.data, []⟩).data :=
    hf _ _ (data_restore hstep h)
  rw [← hdata]
  exact hdraw

theorem draws_scrollLine (hs : g.ctx.Screen) (hrow : g.ctx.cursorRow = g.ctx.HEIGHT)
    (hcol : g.ctx.cursorCol < g.ctx.WIDTH) :
    (scrollLine g).Draws (dmaExecuteQueue (gfxScrollDownDma g.ctx g.ctx.fontHeight) ⟨g.pix.bus.data, []⟩).data := by
  have hrows := hs.rows
  have hlast : u32 ((g.ctx.cursorRow : ℤ) - 1) = g.ctx.HEIGHT - 1 := by
    rw [hrow]; exact hs.u32_lastRow
  have hscroll := slides_gfxScrollDownDma hs ⟨g.pix.bus.data, []⟩
  have hdata : (dmaExecuteQueue (gfxScrollDownDma g.ctx g.ctx.fontHeight)
      (gfxRestoreCursorContent g.ctx g.pix).bus).data =
      (dmaExecuteQueue (gfxScrollDownDma g.ctx g.ctx.fontHeight) ⟨g.pix.bus.data, []⟩).data :=
    onData_dmaExecuteQueue _ _ _ (data_restore hstep h)
  have hops : (gfxTermRenderCursorNewlineDma (g.ctx.setCursor (g.ctx.HEIGHT - 1) g.ctx.cursorCol)
      (gfxRestoreCursorContent g.ctx g.pix)).2 = [] := by
    change (if g.ctx.cursorVisible then _ else _) = _
    rw [h.hidden]
    rfl
  have hr : (g.ctx.setCursor (g.ctx.HEIGHT - 1) g.ctx.cursorCol).InRange :=
    ⟨Nat.sub_one_lt_of_lt hrows, hcol⟩
  have hblank := paints_blank_scrolled (c := g.ctx.setCursor (g.ctx.HEIGHT - 1) g.ctx.cursorCol)
    (hs.congr rfl) hr rfl hscroll
  rw [scrollLine_eq hlast]
  dsimp only
  rw [hops, List.append_nil, ← hdata]
  rw [← hdata] at hblank
  refine ⟨⟨h.hidden, ?_⟩, rfl⟩
  exact logicalScreen_eq (c := g.ctx.setCursor (g.ctx.HEIGHT - 1) g.ctx.cursorCol) hstep (fun _ _ => rfl)
    (hblank.congr fun i hi j hj => (cellByte_newline _ (gfxRestoreCursorContent g.ctx g.pix) hi hj).symm)

/-- **An operation draws in memory.** -/
theorem hidden_run {b : Build} {ch : Byte} {st : ScnState} {c₀ : Ctx} {op : TextOp} (hs : g.ctx.Screen)
    (hop : op.Legal ch st c₀ g.ctx) (hvis : ¬setsVisibility ch st) :
    (op.run b g).Draws (op.paint b g.ctx g.pix.bus.data) := by
  cases op with
  | wait | attrs _ | send _ | bell | wordstar _ => exact ⟨⟨h.hidden, h.synced⟩, rfl⟩
  | move row col =>
      have hrender := draws_render (g := g) (c := g.ctx.setCursor row col) hstep h.hidden
        (gfxRestoreCursorContent g.ctx g.pix)
      rw [data_restore hstep h] at hrender
      exact hrender
  | erase x y width height => exact draws_restore_draw hstep h (onData_gfxClearRect b g.ctx x y width height)
  | eraseLine => exact draws_draw (onData_gfxClearRect b g.ctx _ _ _ _) hstep h.hidden
  | clear => exact draws_draw (onData_gfxClear b g.ctx) hstep h.hidden
  | print x =>
      exact draws_draw (onData_gfxPutc g.ctx _ _ x)
        (c := { g.ctx with cursorCol := u32 (g.ctx.cursorCol + 1) }) hstep h.hidden
  | delete n => exact draws_restore_draw hstep h (onData_gfxDeleteLines g.ctx g.ctx.cursorRow n)
  | insert n => exact draws_restore_draw hstep h (onData_gfxInsertLines g.ctx g.ctx.cursorRow n)
  | visible v => exact absurd hop.2 hvis
  | scroll => exact draws_scrollLine hstep h hs hop.1 hop.2

end Hidden

theorem rowStep_congr {c c' : Ctx} (hg : c'.geometry = c.geometry) : c'.rowStep = c.rowStep := by
  have hP : c'.Pitch = c.Pitch := congrArg Geometry.Pitch hg
  rw [Ctx.rowStep, Ctx.rowStep, hP]

/-- **Operations draw in memory.** -/
theorem hidden_runOps {b : Build} {ch : Byte} {st : ScnState} {c₀ : Ctx} (ops : List TextOp) {g : Gfx}
    (hs : g.ctx.Screen) (hstep : 8 ≤ g.ctx.rowStep) (h : g.Hidden)
    (hops : Along TextOp.ctx (TextOp.Legal ch st c₀) g.ctx ops) (hvis : ¬setsVisibility ch st) :
    (runOps b ops g).Draws (paintOps b ops g.ctx g.pix.bus.data) := by
  induction ops generalizing g with
  | nil => exact h.draws
  | cons op ops ih =>
      have hctx := TextOp.ctx_run b g op
      have hgeo : (op.run b g).ctx.geometry = g.ctx.geometry := by rw [hctx, TextOp.geometry_ctx]
      have hrun := hidden_run hstep h (b := b) hs hops.1 hvis
      have hrest := ih (g := op.run b g) (hs.congr hgeo) (by rw [rowStep_congr hgeo]; exact hstep) hrun.1
        (by rw [hctx]; exact hops.2)
      rw [hrun.2, hctx] at hrest
      exact hrest

end Pigfx
