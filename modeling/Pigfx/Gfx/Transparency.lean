import Pigfx.Gfx.Logical

/-!
# The cursor is transparent

Two terminals that show the same logical screen, one with the cursor and one
without, show the same logical screen after the same bytes: no operation depends on
what the cursor hides, or on whether it hides anything.

This needs a pitch of whole words, since the cursor's arithmetic rounds it down and
the repainting of a line does not, and a pitch that a transfer's stride can hold.

## Main definitions

* `Term.Alike` — terminals that differ in the visibility of the cursor.
* `Quiet` — bytes that make no GSX call and set no visibility.
-/

namespace Pigfx
open Lib

/-! ## The operations do not depend on the visibility -/

section Visible
variable (b : Build) (ch : Byte) (st : ScnState) (v : Bool) (c : Ctx)

/-- Both sides of a choice. -/
theorem setVisible_ite {p : Prop} {_ : Decidable p} {x y x' y' : Ctx} (hx : x = x'.setVisible v)
    (hy : y = y'.setVisible v) : (if p then x else y) = (if p then x' else y').setVisible v := by
  split
  · exact hx
  · exact hy

theorem sgr_setVisible (p : ℤ) : (c.setVisible v).sgr p = (c.sgr p).setVisible v := by
  refine setVisible_ite v rfl (setVisible_ite v rfl (setVisible_ite v rfl ?_))
  refine setVisible_ite v rfl (setVisible_ite v rfl (setVisible_ite v rfl ?_))
  refine setVisible_ite v rfl (setVisible_ite v rfl (setVisible_ite v rfl ?_))
  exact setVisible_ite v rfl rfl

theorem sgrLoop_setVisible (fuel i : ℕ) :
    sgrLoop st fuel i (c.setVisible v) = (sgrLoop st fuel i c).setVisible v := by
  induction fuel generalizing i c with
  | zero => rfl
  | succ fuel ih =>
      rw [sgrLoop, sgrLoop]
      refine setVisible_ite v (setVisible_ite v ?_ (setVisible_ite v ?_ ?_)) rfl
      · exact ih { c with fg := (st.param (i + 2)).setWidth 8 } (i + 3)
      · exact ih { c with bg := (st.param (i + 2)).setWidth 8 } (i + 3)
      · rw [sgr_setVisible, ih]

theorem attrs_selectGraphicRendition_setVisible :
    ((c.setVisible v).selectGraphicRendition st).attrs = (c.selectGraphicRendition st).attrs := by
  simp only [Ctx.selectGraphicRendition]
  split
  · rfl
  · rw [sgrLoop_setVisible]; rfl

theorem ansiOps_setVisible : ansiOps ch st (c.setVisible v) = ansiOps ch st c := by
  rw [ansiOps]
  rw [attrs_selectGraphicRendition_setVisible]
  rfl

theorem letterOps_setVisible : letterOps ch st (c.setVisible v) = letterOps ch st c := by
  rw [letterOps]
  rw [ansiOps_setVisible]
  rfl

theorem actionOps_setVisible : actionOps b ch st (c.setVisible v) = actionOps b ch st c := by
  rw [actionOps, scannerOps]
  rw [letterOps_setVisible]
  rfl

/-- The context after an operation, up to the visibility. -/
theorem ctx_setVisible (op : TextOp) :
    ∃ w, op.ctx (c.setVisible v) = (op.ctx c).setVisible w := by
  cases op with
  | visible v' => exact ⟨v', rfl⟩
  | _ => exact ⟨v, rfl⟩

theorem foldl_ctx_setVisible (ops : List TextOp) :
    ∃ w, ops.foldl TextOp.ctx (c.setVisible v) = (ops.foldl TextOp.ctx c).setVisible w := by
  induction ops generalizing c v with
  | nil => exact ⟨v, rfl⟩
  | cons op ops ih =>
      obtain ⟨w, hw⟩ := ctx_setVisible v c op
      rw [List.foldl_cons, List.foldl_cons, hw]
      exact ih w (op.ctx c)

theorem fixupOps_setVisible : fixupOps (c.setVisible v) = fixupOps c := by
  have hwrap : wrapOps (c.setVisible v) = wrapOps c := rfl
  obtain ⟨w, hw⟩ := foldl_ctx_setVisible v c (wrapOps c)
  rw [fixupOps, fixupOps, hwrap, hw]
  rfl

/-- The operations of a byte do not depend on the visibility of the cursor. -/
theorem textOps_setVisible : textOps b ch st (c.setVisible v) = textOps b ch st c := by
  obtain ⟨w, hw⟩ := foldl_ctx_setVisible v c (.wait :: actionOps b ch st c)
  unfold textOps
  dsimp only
  rw [actionOps_setVisible, hw, fixupOps_setVisible]

theorem paint_setVisible (op : TextOp) (d : ℤ → Byte) : op.paint b (c.setVisible v) d = op.paint b c d := by
  cases op <;> rfl

theorem paintOps_setVisible (ops : List TextOp) (d : ℤ → Byte) :
    paintOps b ops (c.setVisible v) d = paintOps b ops c d := by
  induction ops generalizing c v d with
  | nil => rfl
  | cons op ops ih =>
      obtain ⟨w, hw⟩ := ctx_setVisible v c op
      rw [paintOps, paintOps, hw, ih, paint_setVisible]

end Visible

/-! ## Two terminals -/

/-- What the terminal does besides drawing. -/
def Gfx.outputs (g : Gfx) : List Byte × ℕ × Bool := (g.uart, g.bells, g.wordstarMode)

theorem outputs_run (b : Build) {g g' : Gfx} (h : g.outputs = g'.outputs) (op : TextOp) :
    (op.run b g).outputs = (op.run b g').outputs := by
  simp only [Gfx.outputs, Prod.mk.injEq] at h ⊢
  obtain ⟨huart, hbells, hws⟩ := h
  cases op with
  | visible v => cases v <;> exact ⟨huart, hbells, hws⟩
  | send s => exact ⟨congrArg (· ++ s) huart, hbells, hws⟩
  | bell => exact ⟨huart, congrArg (· + 1) hbells, hws⟩
  | wordstar on => exact ⟨huart, hbells, rfl⟩
  | _ => exact ⟨huart, hbells, hws⟩

theorem outputs_runOps (b : Build) (ops : List TextOp) {g g' : Gfx} (h : g.outputs = g'.outputs) :
    (runOps b ops g).outputs = (runOps b ops g').outputs := by
  induction ops generalizing g g' with
  | nil => exact h
  | cons op ops ih => exact ih (outputs_run b h op)

/-- Two terminals that differ at most in the visibility of the cursor and in what the
cursor hides. -/
structure Term.Alike (t t' : Term) : Prop where
  ctx : t'.g.ctx = t.g.ctx.setVisible t'.g.ctx.cursorVisible
  screen : t.g.logicalScreen = t'.g.logicalScreen
  outputs : t.g.outputs = t'.g.outputs
  scn : t.scn = t'.scn

/-- The byte makes no GSX call and does not show or hide the cursor. -/
def Quiet (t : Term) (ch : Byte) : Prop := ¬isGsxCall ch t.scn ∧ ¬setsVisibility ch t.scn

instance (t : Term) (ch : Byte) : Decidable (Quiet t ch) := inferInstanceAs (Decidable (_ ∧ _))

theorem Ctx.Settled.setVisible {c : Ctx} (h : c.Settled) (v : Bool) : (c.setVisible v).Settled :=
  ⟨h.toScreen.congr rfl, ⟨h.row, h.col⟩, h.toWords.congr rfl, h.savedRow, h.savedCol⟩

/-- **A byte keeps terminals alike.** -/
theorem alike_putByte (b : Build) {t t' : Term} {ch : Byte} (h : t.Alike t') (hs : t.g.ctx.Settled)
    (hq : Quiet t ch) : (putByte b ch t).Alike (putByte b ch t') := by
  have hs' : t'.g.ctx.Settled := by rw [h.ctx]; exact hs.setVisible _
  have hG' : ¬isGsxCall ch t'.scn := h.scn ▸ hq.1
  have hvis' : ¬setsVisibility ch t'.scn := h.scn ▸ hq.2
  have hops : textOps b ch t'.scn t'.g.ctx = textOps b ch t.scn t.g.ctx := by
    rw [h.ctx, ← h.scn, textOps_setVisible]
  refine ⟨?_, ?_, ?_, ?_⟩
  · obtain ⟨w, hw⟩ := foldl_ctx_setVisible t'.g.ctx.cursorVisible t.g.ctx (textOps b ch t.scn t.g.ctx)
    rw [ctx_putByte hs' hG', ctx_putByte hs hq.1, hops]
    rw [← h.ctx] at hw
    rw [hw]
    rfl
  · rw [logicalScreen_putByte hs hq.1 hq.2, logicalScreen_putByte hs' hG' hvis', hops, ← h.screen]
    have hpaint := paintOps_setVisible b t'.g.ctx.cursorVisible t.g.ctx (textOps b ch t.scn t.g.ctx)
      t.g.logicalScreen
    rw [← h.ctx] at hpaint
    exact hpaint.symm
  · rw [putByte_textOps b hs.toSized hs.toInRange hq.1 hs.recall,
      putByte_textOps b hs'.toSized hs'.toInRange hG' hs'.recall, hops]
    exact outputs_runOps b _ h.outputs
  · rw [putByte_scn, putByte_scn, h.scn]

/-- **The cursor is transparent.** -/
theorem cursor_transparent (b : Build) {t t' : Term} (hs : t.g.ctx.Settled) (h : t.Alike t')
    (str : List Byte) (hq : Along (fun t ch => putByte b ch t) Quiet t (cString str)) :
    (gfxTermPutstring b str t).Alike (gfxTermPutstring b str t') ∧
      ∀ x, ¬(gfxTermPutstring b str t).g.ctx.InCell x →
        (gfxTermPutstring b str t).g.pix.bus.data x = (gfxTermPutstring b str t).g.logicalScreen x := by
  refine ⟨?_, fun x hx => (logicalScreen_outside hx).symm⟩
  rw [gfxTermPutstring_eq, gfxTermPutstring_eq]
  have hend := hq.relation (R := fun t t' => t.Alike t' ∧ t.g.ctx.Settled) (g := fun t ch => putByte b ch t)
    (fun t t' ch hR hch => ⟨alike_putByte b hR.1 hR.2 hch, by
      rw [ctx_putByte hR.2 hch.1]; exact settled_textOps hR.2⟩) ⟨h, hs⟩
  exact hend.1

/-! ## A screen of one cell -/

/-- A screen of one cell in blank memory, with the cursor drawn if it is visible. -/
def Term.oneCell (pitch : ℕ) (visible : Bool) : Term :=
  let t := Term.static fun _ => 0
  { t with
    g := { t.g with
      ctx := { t.g.ctx with
        W := 8, H := 8, Pitch := pitch, size := pitch * 8, WIDTH := 1, HEIGHT := 1, fontHeight := 8
        fg := DEFAULT_FG, cursorVisible := visible } }.renderCursor }

theorem oneCell_screen {pitch : ℕ} (hp : 8 ≤ pitch) (hp' : pitch < 2 ^ 28) (v : Bool) :
    (Term.oneCell pitch v).g.ctx.Screen :=
  have hsmall : 8 < 2 ^ 31 := by decide
  ⟨⟨Nat.one_pos, Nat.one_pos, Nat.succ_pos 7, le_rfl, le_rfl, hsmall, hsmall⟩, rfl, rfl, rfl, hp,
    by change pitch * 8 < 2 ^ 32; omega⟩

/-- The same cell with and without the cursor. -/
theorem oneCell_alike {pitch : ℕ} (hp : 8 ≤ pitch) :
    (Term.oneCell pitch true).Alike (Term.oneCell pitch false) := by
  have hstep : ∀ v, 8 ≤ (Term.oneCell pitch v).g.ctx.rowStep := fun v => by
    rw [Ctx.rowStep_eq]
    change (8 : ℤ) ≤ 4 * (pitch / 4 : ℕ)
    omega
  refine ⟨rfl, ?_, rfl, rfl⟩
  exact (logicalScreen_gfxTermRenderCursor (hstep true) _).trans
    (logicalScreen_gfxTermRenderCursor (hstep false) _).symm

/-- A line is erased and a character printed over the cursor. -/
theorem cursor_transparent_oneCell :
    (gfxTermPutstring .shipped (text "\x1b[2KA") (.oneCell 8 true)).Alike
      (gfxTermPutstring .shipped (text "\x1b[2KA") (.oneCell 8 false)) :=
  (cursor_transparent .shipped ⟨oneCell_screen (by decide) (by decide) true, ⟨by decide, by decide⟩,
    ⟨by decide, by decide, by decide⟩, by decide, by decide⟩ (oneCell_alike (by decide)) _
    (by decide)).1

/-- Neither restriction on the pitch can be left out.  With nine bytes to a line, `ESC [ 2 K`
repaints other bytes than the cursor was drawn on; with `2 ^ 15 + 8`, the transfer that
draws the cursor on the new line has a negative stride. -/
theorem cursor_not_transparent :
    (¬∀ (b : Build) (t t' : Term), t.g.ctx.Screen → t.g.ctx.InRange → t.g.ctx.fontHeight = 8 →
      t.g.ctx.savedCursor.1 < t.g.ctx.HEIGHT → t.g.ctx.savedCursor.2 < t.g.ctx.WIDTH →
      t.g.ctx.Pitch < 2 ^ 15 + 8 → t.Alike t' → ∀ str : List Byte,
      Along (fun t ch => putByte b ch t) Quiet t (cString str) →
      (gfxTermPutstring b str t).g.logicalScreen = (gfxTermPutstring b str t').g.logicalScreen) ∧
    ¬∀ (b : Build) (t t' : Term), t.g.ctx.Screen → t.g.ctx.InRange → t.g.ctx.fontHeight = 8 →
      t.g.ctx.savedCursor.1 < t.g.ctx.HEIGHT → t.g.ctx.savedCursor.2 < t.g.ctx.WIDTH →
      t.g.ctx.Pitch % 4 = 0 → t.Alike t' → ∀ str : List Byte,
      Along (fun t ch => putByte b ch t) Quiet t (cString str) →
      (gfxTermPutstring b str t).g.logicalScreen = (gfxTermPutstring b str t').g.logicalScreen := by
  refine ⟨fun h => ?_, fun h => ?_⟩
  · have hscreens := h .shipped (.oneCell 9 true) (.oneCell 9 false)
      (oneCell_screen (by decide) (by decide) true) ⟨by decide, by decide⟩ rfl (by decide) (by decide)
      (by decide) (oneCell_alike (by decide)) (text "\x1b[2K") (by decide)
    have hbyte := congrFun hscreens 8
    revert hbyte
    decide
  · have hscreens := h .shipped (.oneCell (2 ^ 15 + 8) true) (.oneCell (2 ^ 15 + 8) false)
      (oneCell_screen (by decide) (by decide) true) ⟨by decide, by decide⟩ rfl (by decide) (by decide)
      (by decide) (oneCell_alike (by decide)) [0x0A] (by decide)
    have hbyte := congrFun hscreens (-32760)
    revert hbyte
    decide

end Pigfx
