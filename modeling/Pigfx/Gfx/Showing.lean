import Pigfx.Gfx.Motion
import Pigfx.Gfx.Reveal

/-!
# A picture and its cursor

Between two sequences the memory is a picture on which the cursor has been drawn, and the cursor
buffer holds what is under it.  Both follow from the picture and the context, up to the end of the
buffer, which no font reaches; so two terminals with one context are the same exactly if they show
the same picture.

## Main definitions

* `Gfx.showing` — the state that shows a picture.
* `Term.Shows` — a terminal between sequences that shows one.
* `Term.Shows.sequence` — what a sequence makes of the picture.
-/

namespace Pigfx
open Lib

/-- The state that shows the picture `d` with the cursor of `c`. -/
def Gfx.showing (g : Gfx) (c : Ctx) (d : ℤ → Byte) : Gfx :=
  { g with ctx := c, pix := gfxTermRenderCursor c { g.pix with bus := ⟨d, []⟩ } }

namespace Gfx

variable {g : Gfx}

/-- Rendering the cursor shows what is in memory. -/
theorem showing_renderCursor (g' : Gfx) (hstep : 8 ≤ g'.ctx.rowStep)
    (htail : ∀ j, 2 * g'.ctx.fontHeight ≤ j → g'.pix.cursorBuffer j = g.pix.cursorBuffer j) {d : ℤ → Byte}
    (hd : g'.pix.bus.data = d) : (g.showing g'.ctx d).SameScreen g'.renderCursor := by
  have hsame := same_gfxTermRenderCursor_of_data (c := g'.ctx) (p := { g.pix with bus := ⟨d, []⟩ }) (q := g'.pix)
    hstep hd htail
  exact ⟨rfl, hsame.1, hsame.2⟩

/-- A change of the context that keeps the geometry shows the same picture. -/
theorem showing_relocate (g' : Gfx) (hstep : 8 ≤ g'.ctx.rowStep)
    (htail : ∀ j, 2 * g'.ctx.fontHeight ≤ j → g'.pix.cursorBuffer j = g.pix.cursorBuffer j) {f : Ctx → Ctx}
    (hf : (f g'.ctx).geometry = g'.ctx.geometry) :
    (g.showing (f g'.ctx) g'.logicalScreen).SameScreen (relocate f g') := by
  have hfont : (f g'.ctx).fontHeight = g'.ctx.fontHeight := congrArg Geometry.fontHeight hf
  have hpitch : (f g'.ctx).Pitch = g'.ctx.Pitch := congrArg Geometry.Pitch hf
  refine showing_renderCursor { g'.restoreContent with ctx := f g'.ctx } ?_
    (fun j hj => htail j (hfont ▸ hj)) (data_gfxRestoreCursorContent hstep g'.pix)
  change 8 ≤ (f g'.ctx).rowStep
  rw [Ctx.rowStep, hpitch]
  exact hstep

section Ops
variable {c : Ctx} (hstep : 8 ≤ c.rowStep) (d : ℤ → Byte)
include hstep

theorem logicalScreen_showing : (g.showing c d).logicalScreen = d :=
  logicalScreen_gfxTermRenderCursor hstep _

theorem data_showing (x : ℤ) :
    (g.showing c d).pix.bus.data x = if c.InCell x then c.shown (d x) else d x :=
  data_gfxTermRenderCursor c hstep _ x

theorem data_restoreContent_showing : (g.showing c d).restoreContent.pix.bus.data = d :=
  (data_gfxRestoreCursorContent hstep _).trans (logicalScreen_showing hstep d)

omit hstep in
theorem tail_showing {j : ℕ} (hj : 2 * c.fontHeight ≤ j) :
    (g.showing c d).pix.cursorBuffer j = g.pix.cursorBuffer j :=
  cursorBuffer_gfxTermRenderCursor_of_le c _ hj

/-- Drawing between restoring and rendering draws on the picture. -/
theorem showing_restore_draw {f : Bus → Bus} (hf : OnData f) :
    (g.showing c (f ⟨d, []⟩).data).SameScreen ((g.showing c d).restoreContent.draw f).renderCursor :=
  showing_renderCursor ((g.showing c d).restoreContent.draw f) hstep (fun _ hj => tail_showing d hj)
    (hf _ ⟨d, []⟩ (data_restoreContent_showing hstep d))

theorem showing_erase (b : Build) (x y width height : ℕ) :
    (g.showing c (gfxClearRect b c x y width height ⟨d, []⟩).data).SameScreen
      ((TextOp.erase x y width height).run b (g.showing c d)) :=
  showing_restore_draw hstep d (onData_gfxClearRect b c x y width height)

/-- Drawing without restoring draws on the cursor too. -/
theorem showing_draw (f : Bus → Bus) :
    (g.showing c (f (g.showing c d).pix.bus).data).SameScreen ((g.showing c d).draw f).renderCursor :=
  showing_renderCursor ((g.showing c d).draw f) hstep (fun _ hj => tail_showing d hj) rfl

end Ops

end Gfx

/-! ## Terminals -/

/-- The terminal is between two sequences and shows the picture. -/
structure Term.Shows (g : Gfx) (c : Ctx) (d : ℤ → Byte) (t : Term) : Prop extends t.Between where
  screen : (g.showing c d).SameScreen t.g

namespace Term.Shows

variable {g : Gfx} {c : Ctx} {d d' : ℤ → Byte} {t t' : Term}

/-- **Two terminals are the same** exactly if they show the same picture. -/
theorem sameScreen_iff (hstep : 8 ≤ c.rowStep) (h : t.Shows g c d) (h' : t'.Shows g c d') :
    t.g.SameScreen t'.g ↔ d = d' := by
  constructor
  · intro hsame
    have hpicture := ((h.screen.trans hsame).trans h'.screen.symm).logicalScreen
    rw [Gfx.logicalScreen_showing hstep, Gfx.logicalScreen_showing hstep] at hpicture
    exact hpicture.symm
  · rintro rfl
    exact h.screen.symm.trans h'.screen

variable (h : t.Shows g c d) (hs : c.Sized) (hr : c.InRange) (hp : 8 ≤ c.Pitch)
include h

theorem ctx : t.g.ctx = c := h.screen.ctx

include hs hr hp

/-- **A sequence** does to the picture what its operations do. -/
theorem sequence (b : Build) (ps : List Byte) (qs : List (List Byte)) (hd : ∀ e ∈ ps :: qs, ∀ x ∈ e, isDigit x)
    (hlen : qs.length + 1 ≤ CMD_PARAMS_LENGTH) {L : Byte} (hL : isAnsiLetter L) {ops : List TextOp}
    (hops : ∀ st : ScnState, st.Reads (sequenceValues ps qs) → ansiOps L st c = ops) {c' : Ctx}
    (hctx : ops.foldl TextOp.ctx c = c') (hin : c'.InRange)
    (hacts : (g.showing c' d').SameScreen (runOps b ops (g.showing c d))) :
    (gfxTermPutstring b (sequenceOf none ps qs L) t).Shows g c' d' := by
  have hrest : t.AtRest := ⟨h.ctx ▸ hr, h.next, h.ctx ▸ hp⟩
  obtain ⟨hsame, hbetween⟩ := sequence_ops b h.ready hrest (h.ctx ▸ hs) hd hlen hL
    (h.ctx ▸ hops) (by rw [h.ctx, hctx]; exact hin)
  exact ⟨hbetween, hacts.trans ((h.screen.runOps b ops).trans hsame)⟩

/-- A sequence that moves the cursor keeps the picture. -/
theorem move (b : Build) (ps : List Byte) (qs : List (List Byte)) (hd : ∀ e ∈ ps :: qs, ∀ x ∈ e, isDigit x)
    (hlen : qs.length + 1 ≤ CMD_PARAMS_LENGTH) {L : Byte} (hL : isAnsiLetter L) {row col : ℕ}
    (hops : ∀ st : ScnState, st.Reads (sequenceValues ps qs) → ansiOps L st c = [.move row col])
    (hrow : row < c.HEIGHT) (hcol : col < c.WIDTH) :
    (gfxTermPutstring b (sequenceOf none ps qs L) t).Shows g (c.setCursor row col) d := by
  have hstep : 8 ≤ c.rowStep := by
    rw [c.rowStep_eq]
    omega
  have hmoved := Gfx.showing_relocate (g := g) (g.showing c d) (f := Ctx.setCursor row col) hstep
    (fun _ hj => Gfx.tail_showing d hj) rfl
  rw [Gfx.logicalScreen_showing hstep] at hmoved
  exact h.sequence hs hr hp b ps qs hd hlen hL hops rfl ⟨hrow, hcol⟩ hmoved

end Term.Shows

end Pigfx
