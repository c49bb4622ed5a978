import Pigfx.Gfx.Accesses
import Pigfx.Gfx.Decompose

/-!
# What a byte is made of

Whatever state the scanner is in, a byte assigns to the context, lets the processor
draw, erases with a transfer whose end the rendering of the cursor waits for, and
renders the cursor.  A property of bytes follows from these few steps.

## Main definitions

* `Gfx.Steps` — sequences of these steps.
* `steps_dispatch`, `steps_controlAction`, `steps_byteAction` — the switch of a byte.
-/

namespace Pigfx
open Lib

/-- The second state is reached from the first by steps that bytes are made of. -/
inductive Gfx.Steps (b : Build) : Gfx → Gfx → Prop
  | refl (g : Gfx) : Steps b g g
  | trans {g g' g'' : Gfx} (h : Steps b g g') (h' : Steps b g' g'') : Steps b g g''
  /-- Assignments that leave the pixels and the geometry alone. -/
  | assign {g g' : Gfx} (hpix : g'.pix = g.pix) (hctx : g'.ctx.geometry = g.ctx.geometry) : Steps b g g'
  /-- The processor reads and draws. -/
  | drawn (g : Gfx) (p : Pix) (hp : g.pix.bus.Cpu p.bus) : Steps b g { g with pix := p }
  | render (g : Gfx) : Steps b g g.renderCursor
  /-- A rectangle is erased before the cursor is rendered. -/
  | erase (g : Gfx) (c : Ctx) (x y width height : ℕ) :
      Steps b g (g.draw (gfxClearRect b c x y width height)).renderCursor
  /-- The screen is erased before the cursor is rendered. -/
  | clear (g : Gfx) (c : Ctx) : Steps b g (g.draw (gfxClear b c)).renderCursor

namespace Gfx.Steps

variable {b : Build} {g : Gfx}

/-- Either branch may be taken. -/
theorem ite {p : Prop} [Decidable p] {x y : Gfx} (hx : p → g.Steps b x) (hy : ¬p → g.Steps b y) :
    g.Steps b (if p then x else y) := by
  by_cases h : p
  · rw [if_pos h]
    exact hx h
  · rw [if_neg h]
    exact hy h

/-- The processor draws. -/
theorem draw {f : Bus → Bus} (hf : ∀ m : Bus, m.Cpu (f m)) : g.Steps b (g.draw f) := .drawn g _ (hf _)

theorem restoreContent : g.Steps b g.restoreContent := .drawn g _ (cpu_gfxRestoreCursorContent _ _)

theorem visibility (v : Bool) : g.Steps b (gfxTermSetCursorVisibility v g) := .assign rfl rfl

end Gfx.Steps

open Gfx.Steps (ite restoreContent)

section Operations
variable (b : Build) (st : ScnState) (g : Gfx)

theorem steps_relocate {f : Ctx → Ctx} (hf : (f g.ctx).geometry = g.ctx.geometry) :
    g.Steps b (relocate f g) := by
  have hassign : g.restoreContent.Steps b { g.restoreContent with ctx := f g.ctx } := .assign rfl hf
  exact (restoreContent.trans hassign).trans (.render _)

theorem steps_gfxTermMoveCursor (row col : ℤ) : g.Steps b (gfxTermMoveCursor row col g) :=
  steps_relocate b g rfl

/-! ## Erasing and printing -/

theorem steps_gfxTermClearTillEnd : g.Steps b (gfxTermClearTillEnd b g) :=
  restoreContent.trans (.erase _ _ _ _ _ _)

theorem steps_gfxTermClearTillCursor : g.Steps b (gfxTermClearTillCursor b g) :=
  restoreContent.trans (.erase _ _ _ _ _ _)

theorem steps_gfxTermClearLines (i j : ℤ) : g.Steps b (gfxTermClearLines b i j g) :=
  ite (fun _ => restoreContent.trans (.erase _ _ _ _ _ _)) fun _ => restoreContent

theorem steps_clearHome : g.Steps b (gfxTermClearScreen b (gfxTermMoveCursor 0 0 g)) :=
  (steps_gfxTermMoveCursor b g 0 0).trans (.clear _ _)

theorem steps_clearToEndOfScreen : g.Steps b (clearToEndOfScreen b g) :=
  ite (fun _ => (steps_gfxTermClearTillEnd b g).trans (steps_gfxTermClearLines b _ _ _))
    fun _ => steps_gfxTermClearTillEnd b g

theorem steps_printAt (ch : Byte) : g.Steps b (printAt ch g) := by
  have hputc : g.Steps b (g.draw (gfxPutc g.ctx g.ctx.cursorRow g.ctx.cursorCol ch)) :=
    .draw fun m => cpu_gfxPutc _ m _ _ ch
  have hadvance : (g.draw (gfxPutc g.ctx g.ctx.cursorRow g.ctx.cursorCol ch)).Steps b
      { g.draw (gfxPutc g.ctx g.ctx.cursorRow g.ctx.cursorCol ch) with
        ctx := { g.ctx with cursorCol := u32 (g.ctx.cursorCol + 1) } } := .assign rfl rfl
  exact (hputc.trans hadvance).trans (.render _)

theorem steps_eraseDisplay : g.Steps b (eraseDisplay b st g) := by
  rw [eraseDisplay]
  split
  · exact steps_clearToEndOfScreen b g
  · have hcursor := steps_gfxTermClearTillCursor b g
    exact ite (fun _ => hcursor.trans (steps_gfxTermClearLines b _ _ _)) fun _ => hcursor
  · exact steps_clearHome b g
  · exact .refl g

theorem steps_eraseLine : g.Steps b (eraseLine b st g) := by
  refine ite (fun _ => steps_gfxTermClearTillEnd b g) fun _ => ite (fun _ => ?_) fun _ => .refl g
  split
  · exact steps_gfxTermClearTillEnd b g
  · exact steps_gfxTermClearTillCursor b g
  · exact .erase g _ _ _ _ _
  · exact .refl g

/-- The moves of lines. -/
theorem steps_lines {f : Bus → Bus} (hf : ∀ m : Bus, m.Cpu (f m)) :
    g.Steps b (g.restoreContent.draw f).renderCursor := (restoreContent.trans (.draw hf)).trans (.render _)

/-! ## GSX -/

theorem steps_gfxCloseWorkstation : g.Steps b (gfxCloseWorkstation g) :=
  (Gfx.Steps.visibility true).trans restoreContent

theorem steps_gfxOpenWorkstation : g.Steps b (gfxOpenWorkstation b st g) := by
  have hopened : (gfxCloseWorkstation g).Steps b
      { gfxCloseWorkstation g with gsx := (gfxCloseWorkstation g).gsx.opened st } := .assign rfl rfl
  have hhidden := (hopened.trans (.visibility false)).trans restoreContent
  exact ((steps_gfxCloseWorkstation b g).trans hhidden).trans (steps_clearHome b _)

theorem steps_gfxPlaceGraphicCursor (x y : ℤ) : g.Steps b (gfxPlaceGraphicCursor x y g) := by
  rw [gfxPlaceGraphicCursor]
  generalize graphicCursorSpan x = sx
  generalize graphicCursorSpan y = sy
  have hspans : g.Steps b
      { g with gsx := { g.gsx with gcUlx := sx.1, gcUly := sy.1, gcW := sx.2, gcH := sy.2 } } :=
    .assign rfl rfl
  refine ((hspans.trans (.drawn _ _ (cpu_gfxReadRect _ _ _ _ _ _))).trans (.draw ?_)).trans (.draw ?_)
  · exact Bus.Cpu.iterate _ fun _ m => cpu_xorPixel m _
  · exact Bus.Cpu.iterate _ fun _ m => cpu_xorPixel m _

theorem steps_gfxEscape : g.Steps b (gfxEscape b st g) := by
  have hmove := steps_gfxTermMoveCursor b g
  rw [gfxEscape]
  dsimp only
  split
  · exact (Gfx.Steps.visibility false).trans (.render _)
  · exact (Gfx.Steps.visibility true).trans (.render _)
  · exact hmove _ _
  · exact hmove _ _
  · exact hmove _ _
  · exact hmove _ _
  · exact hmove _ _
  · exact steps_clearToEndOfScreen b g
  · exact steps_gfxTermClearTillEnd b g
  · exact hmove _ _
  · exact iterate_induction _ _ g (fun _ x => g.Steps b x) (.refl g) fun _ x _ h => h.trans (steps_printAt b x _)
  · exact .assign rfl rfl
  · exact .assign rfl rfl
  · exact steps_gfxPlaceGraphicCursor b g _ _
  · exact .drawn g _ (cpu_gfxWriteRect _ _ _ _ _ _)
  · exact .refl g

theorem steps_gfxDrawText : g.Steps b (gfxDrawText st g) := by
  refine .drawn g { g.pix with bus := _ } ?_
  exact iterate_induction _ _ _ (fun _ (s : (ℤ × ℤ) × Bus) => g.pix.bus.Cpu s.2) (.refl _)
    fun _ s _ h => h.trans (cpu_drawGlyph _ _ _ _ _ _)

theorem steps_fillPolygon (nPoints : ℕ) (xin yin : ℕ → ℤ) :
    g.Steps b (fillPolygon b nPoints xin yin g) := by
  have hsides : g.Steps b (g.draw (iterate nPoints fun i =>
      gfxLine g.ctx (xin i) (yin i) (xin (i + 1)) (yin (i + 1)) (toCol g.gsx.fillColour))) :=
    .draw (Bus.Cpu.iterate _ fun _ x => cpu_gfxLine _ _ x _ _ _ _)
  refine ite (fun _ => hsides.trans (.draw ?_)) fun _ => hsides
  exact Bus.Cpu.iterate _ fun _ x => cpu_fillSpans _ _ _ x _ _ _

theorem steps_gfxDrawingPrimitive : g.Steps b (gfxDrawingPrimitive b st g) := by
  rw [gfxDrawingPrimitive]
  dsimp only
  split
  · refine .draw fun m => ?_
    have hline := cpu_gfxLine g.ctx (toCol g.gsx.fillColour)
    refine Bus.Cpu.trans ?_ (Bus.Cpu.iterate _ (fun _ x => cpu_gfxFilledHline _ _ _ x _ _ _) _)
    exact (((hline m _ _ _ _).trans (hline _ _ _ _ _)).trans (hline _ _ _ _ _)).trans (hline _ _ _ _ _)
  · have harc := fun (g : Gfx) x0 y0 r arcS arcE clr =>
      Gfx.Steps.draw (b := b) (g := g) fun m => cpu_gfxDrawArc b g.ctx clr m x0 y0 r arcS arcE
    exact ite (fun _ => harc g _ _ _ _ _ _) fun _ => (harc g _ _ _ _ _ _).trans (harc (g.draw _) _ _ _ _ _ _)
  · exact .draw fun m => cpu_gfxCircle _ _ _ m _ _ _ _
  · exact .refl g

theorem steps_gfxDrawBitmap : g.Steps b (gfxDrawBitmap st g).1 := by
  unfold gfxDrawBitmap
  dsimp only
  split
  · exact .draw (Bus.Cpu.iterate _ fun _ x => cpu_gfxPixel _ _ x _ _)
  · exact .refl g

theorem steps_gsxCommand : g.Steps b (gsxCommand b st g).1 := by
  rw [gsxCommand]
  dsimp only
  split
  case h_1 => exact steps_gfxOpenWorkstation b st g
  case h_2 => exact steps_gfxCloseWorkstation b g
  case h_3 => exact steps_clearHome b g
  case h_4 => exact .refl g
  case h_5 => exact ite (fun _ => steps_gfxEscape b st g) fun _ => .refl g
  case h_6 =>
    exact ite (fun _ => .draw (Bus.Cpu.iterate _ fun _ x => cpu_gfxLine _ _ x _ _ _ _)) fun _ => .refl g
  case h_7 => exact .draw (Bus.Cpu.iterate _ fun _ x => cpu_drawMarker _ _ _ x _ _)
  case h_8 => exact steps_gfxDrawText b st g
  case h_9 => exact ite (fun _ => steps_fillPolygon b g _ _ _) fun _ => .refl g
  case h_10 => exact steps_gfxDrawBitmap b st g
  case h_11 => exact steps_gfxDrawingPrimitive b st g
  case h_12 => exact .assign rfl rfl
  case h_13 => exact ite (fun _ => Gfx.Steps.assign rfl rfl) fun _ => .refl g
  all_goals exact .assign rfl rfl

theorem steps_gsxCall : g.Steps b (gsxCall b st g) := by
  have h := steps_gsxCommand b st g
  refine ite (fun _ => ?_) fun _ => .refl g
  generalize gsxCommand b st g = r at h ⊢
  exact ite (fun _ => h.trans (.assign rfl rfl)) fun _ => h

/-! ## The switch of a byte -/

theorem geometry_setCol (c : Ctx) (col : ℕ) :
    { c with cursorCol := col }.geometry = c.geometry := rfl

theorem geometry_backTab (c : Ctx) : c.backTab.geometry = c.geometry := by
  rw [Ctx.backTab]
  split
  · exact geometry_setCol c _
  · exact geometry_setCol c _

theorem steps_ansiAction (ch : Byte) : g.Steps b (ansiAction b ch st g) := by
  have hstay := Gfx.Steps.refl (b := b) g
  have hmove := steps_gfxTermMoveCursor b g
  have hsgr : (g.ctx.selectGraphicRendition st).geometry = g.ctx.geometry := by
    rw [Ctx.selectGraphicRendition_attrs]
    rfl
  -- letter by letter, in the order of the source
  refine ite (fun _ => ite (fun _ => (Gfx.Steps.visibility false).trans restoreContent) fun _ => hstay) fun _ => ?_
  refine ite (fun _ => ite (fun _ => (Gfx.Steps.visibility true).trans (.render _)) fun _ => hstay) fun _ => ?_
  refine ite (fun _ => steps_eraseLine b st g) fun _ => ?_
  refine ite (fun _ => steps_eraseDisplay b st g) fun _ => ?_
  refine ite (fun _ => hmove _ _) fun _ => ite (fun _ => hmove _ _) fun _ => ?_
  refine ite (fun _ => hmove _ _) fun _ => ite (fun _ => hmove _ _) fun _ => ?_
  refine ite (fun _ => steps_lines b g fun m => cpu_gfxDeleteLines _ m _ _) fun _ => ?_
  refine ite (fun _ => steps_lines b g fun m => cpu_gfxInsertLines _ m _ _) fun _ => ?_
  refine ite (fun _ => steps_relocate b g (geometry_backTab g.ctx)) fun _ => ?_
  refine ite (fun _ => Gfx.Steps.assign rfl hsgr) fun _ => ?_
  refine ite (fun _ => hmove _ _) fun _ => ?_
  refine ite (fun _ => Gfx.Steps.assign rfl rfl) fun _ => ?_
  refine ite (fun _ => steps_relocate b g rfl) fun _ => ?_
  refine ite (fun _ => ite (fun _ => Gfx.Steps.assign rfl rfl) fun _ => hstay) fun _ => ?_
  refine ite (fun _ => ite (fun _ => ?_) fun _ => hstay) fun _ => hstay
  exact ite (fun _ => Gfx.Steps.assign rfl rfl) fun _ => ite (fun _ => Gfx.Steps.assign rfl rfl) fun _ => hstay

theorem steps_finalLetterAction (ch : Byte) : g.Steps b (finalLetterAction b ch st g) := by
  have hstay := Gfx.Steps.refl (b := b) g
  refine ite (fun _ => steps_gsxCall b st g) fun _ => ?_
  refine ite (fun _ => ite (fun _ => ?_) fun _ => hstay) fun _ => ?_
  · exact ite (fun _ => Gfx.Steps.assign rfl rfl) fun _ => ite (fun _ => Gfx.Steps.assign rfl rfl) fun _ => hstay
  refine ite (fun _ => ite (fun _ => steps_printAt b g _) fun _ => hstay) fun _ => ?_
  refine ite (fun _ => ite (fun _ => Gfx.Steps.assign rfl rfl) fun _ => ?_) fun _ => steps_ansiAction b st g ch
  exact ite (fun _ => Gfx.Steps.assign rfl rfl) fun _ => hstay

theorem steps_dispatch (ch : Byte) (t : Term) : t.g.Steps b (dispatch b ch t).g := by
  have hlet := steps_finalLetterAction b t.scn t.g ch
  have hstay := Gfx.Steps.refl (b := b) t.g
  rw [dispatch]
  cases t.scn.next with
  | normaltext =>
    simp only [stateFunNormaltext]
    split
    · exact hstay
    · exact steps_printAt b t.g _
  | waitsquarebracket =>
    simp only [stateFunWaitsquarebracket]
    split_ifs
    · exact hstay
    · exact hstay
    · exact steps_printAt b t.g _
    · have hreset : t.g.Steps b (gfxTermResetAttrib t.g) := .assign rfl rfl
      exact hreset.trans (steps_clearHome b _)
    · exact hstay
  | selectescape =>
    simp only [stateFunSelectescape]
    split_ifs
    · exact hstay
    · exact hstay
    · exact hstay
    · exact hlet
  | readDigit =>
    simp only [stateFunReadDigit]
    split_ifs
    · exact hstay
    · exact hstay
    · exact hstay
    · exact hlet
  | altCharset => exact ite (fun _ => Gfx.Steps.assign rfl rfl) fun _ => ite (fun _ => Gfx.Steps.assign rfl rfl) fun _ => hstay

theorem steps_controlAction (ch : Byte) : g.Steps b (controlAction b ch g) := by
  have hstay := Gfx.Steps.refl (b := b) g
  refine ite (fun _ => steps_relocate b g rfl) fun _ => ite (fun _ => steps_relocate b g rfl) fun _ => ?_
  refine ite (fun _ => steps_relocate b g rfl) fun _ => ?_
  refine ite (fun _ => ite (fun _ => steps_relocate b g rfl) fun _ => hstay) fun _ => ?_
  refine ite (fun _ => ite (fun _ => Gfx.Steps.assign rfl rfl) fun _ => hstay) fun _ => ?_
  exact ite (fun _ => steps_clearHome b g) fun _ => hstay

theorem steps_byteAction (ch : Byte) (t : Term) : t.g.Steps b (byteAction b ch t).g := by
  rw [byteAction]
  split
  · exact steps_controlAction b t.g ch
  · exact steps_dispatch b ch t

theorem steps_wrapFixup : g.Steps b (wrapFixup g) := ite (fun _ => steps_relocate b g rfl) fun _ => .refl g

end Operations

end Pigfx
