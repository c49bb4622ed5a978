import Pigfx.Gfx.TextOp

/-!
# The terminal executes the operations

On a grid of a reasonable size, and with the cursor inside it, each action of the
source is a sequence of operations: the unsigned and clamping arithmetic of the
source agrees with that of the natural numbers there.

## Main definitions

* `Ctx.Sized` — a grid that fits its text area.
* `Ctx.InRange` — the cursor is inside the grid.
* `runOps`, and one `_ops` theorem for each function of the source.
-/

namespace Pigfx
open Lib

/-! ## The grid -/

/-- The grid has a cell and fits the text area, whose sides are positive as `int`. -/
structure Ctx.Sized (c : Ctx) : Prop where
  rows : 0 < c.HEIGHT
  cols : 0 < c.WIDTH
  font : 0 < c.fontHeight
  textWidth : 8 * c.WIDTH ≤ c.W
  textHeight : c.HEIGHT * c.fontHeight ≤ c.H
  width : c.W < 2 ^ 31
  height : c.H < 2 ^ 31

/-- The cursor is inside the grid. -/
structure Ctx.InRange (c : Ctx) : Prop where
  row : c.cursorRow < c.HEIGHT
  col : c.cursorCol < c.WIDTH

theorem Ctx.Sized.height_lt {c : Ctx} (h : c.Sized) : c.HEIGHT < 2 ^ 31 :=
  lt_of_le_of_lt (le_trans (Nat.le_mul_of_pos_right _ h.font) h.textHeight) h.height

theorem Ctx.Sized.width_lt {c : Ctx} (h : c.Sized) : c.WIDTH < 2 ^ 31 := by
  have := h.textWidth; have := h.width
  omega

theorem Ctx.Sized.congr {c c' : Ctx} (h : c.Sized) (hg : c'.geometry = c.geometry) : c'.Sized := by
  simp only [Ctx.geometry, Geometry.mk.injEq] at hg
  obtain ⟨hW, hH, -, -, -, -, -, -, hw, hh, -, hf, -⟩ := hg
  exact ⟨hh ▸ h.rows, hw ▸ h.cols, hf ▸ h.font, by rw [hw, hW]; exact h.textWidth,
    by rw [hh, hf, hH]; exact h.textHeight, hW ▸ h.width, hH ▸ h.height⟩

/-! ## Sequences of operations -/

/-- Execute operations. -/
def runOps (b : Build) (ops : List TextOp) (g : Gfx) : Gfx := ops.foldl (TextOp.run b) g

section RunOps
variable (b : Build) (g : Gfx)

@[simp] theorem runOps_cons (op : TextOp) (ops : List TextOp) :
    runOps b (op :: ops) g = runOps b ops (op.run b g) := rfl

theorem runOps_append (xs ys : List TextOp) : runOps b (xs ++ ys) g = runOps b ys (runOps b xs g) :=
  List.foldl_append

theorem ctx_runOps (ops : List TextOp) : (runOps b ops g).ctx = ops.foldl TextOp.ctx g.ctx :=
  TextOp.ctx_foldl_run b g ops

end RunOps

/-! ## Attributes -/

section Rendition
variable {P : Ctx → Prop} (hreset : ∀ c, P c → P c.resetAttrib)
  (hfg : ∀ c v, P c → P { c with fg := v }) (hbg : ∀ c v, P c → P { c with bg := v })
  (hinverse : ∀ c v, P c → P { c with inverse := v })
  (hunderline : ∀ c v, P c → P { c with underline := v })
include hreset hfg hbg hinverse hunderline

theorem Ctx.sgr_induction {c : Ctx} (p : ℤ) (h : P c) : P (c.sgr p) := by
  rw [Ctx.sgr]
  refine iteInduction (fun _ => hreset c h) fun _ => ?_
  refine iteInduction (fun _ => hfg c _ h) fun _ => ?_
  refine iteInduction (fun _ => hfg c _ h) fun _ => ?_
  refine iteInduction (fun _ => hinverse c _ h) fun _ => ?_
  refine iteInduction (fun _ => hunderline c _ h) fun _ => ?_
  refine iteInduction (fun _ => hinverse c _ h) fun _ => ?_
  refine iteInduction (fun _ => hfg c _ h) fun _ => ?_
  refine iteInduction (fun _ => hfg c _ h) fun _ => ?_
  refine iteInduction (fun _ => hbg c _ h) fun _ => ?_
  exact iteInduction (fun _ => hbg c _ h) fun _ => h

theorem sgrLoop_induction (st : ScnState) (fuel i : ℕ) {c : Ctx} (h : P c) : P (sgrLoop st fuel i c) := by
  induction fuel generalizing i c with
  | zero => exact h
  | succ fuel ih =>
      rw [sgrLoop]
      refine iteInduction (fun _ => ?_) fun _ => h
      refine iteInduction (fun _ => ih _ (hfg c _ h)) fun _ => ?_
      refine iteInduction (fun _ => ih _ (hbg c _ h)) fun _ => ?_
      exact ih _ (Ctx.sgr_induction hreset hfg hbg hinverse hunderline _ h)

/-- **All that a selection does**: it resets the attributes, and assigns the colours, the
inversion and the underline. -/
theorem Ctx.selectGraphicRendition_induction (st : ScnState) {c : Ctx} (h : P c) :
    P (c.selectGraphicRendition st) :=
  iteInduction (fun _ => hreset c h)
    fun _ => sgrLoop_induction hreset hfg hbg hinverse hunderline st _ 0 h

end Rendition

theorem Ctx.selectGraphicRendition_attrs (st : ScnState) (c : Ctx) :
    c.selectGraphicRendition st = c.setAttrs (c.selectGraphicRendition st).attrs := by
  have h : ∃ a, c.selectGraphicRendition st = c.setAttrs a := by
    apply selectGraphicRendition_induction (P := fun x => ∃ a, x = c.setAttrs a)
    case hreset =>
      rintro _ ⟨a, rfl⟩
      exact ⟨(c.setAttrs a).resetAttrib.attrs, rfl⟩
    case hfg =>
      rintro _ v ⟨a, rfl⟩
      exact ⟨{ a with fg := v }, rfl⟩
    case hbg =>
      rintro _ v ⟨a, rfl⟩
      exact ⟨{ a with bg := v }, rfl⟩
    case hinverse =>
      rintro _ v ⟨a, rfl⟩
      exact ⟨{ a with inverse := v }, rfl⟩
    case hunderline =>
      rintro _ v ⟨a, rfl⟩
      exact ⟨{ a with underline := v }, rfl⟩
    exact ⟨c.attrs, rfl⟩
  obtain ⟨a, ha⟩ := h
  rw [ha]
  rfl

/-! ## The terminal executes the operations -/

section Execute
variable (b : Build) (g : Gfx)

theorem Ctx.Sized.u32_row {c : Ctx} (hs : c.Sized) (hr : c.cursorRow < c.HEIGHT) :
    u32 ((c.cursorRow : ℤ) + 1) = c.cursorRow + 1 := by
  have := hs.height_lt
  exact u32_natCast (n := c.cursorRow + 1) (by omega)

theorem Ctx.Sized.u32_lastRow {c : Ctx} (hs : c.Sized) : u32 ((c.HEIGHT : ℤ) - 1) = c.HEIGHT - 1 := by
  have := hs.rows; have := hs.height_lt
  rw [u32_of_nonneg (by omega) (by omega)]; omega

theorem Ctx.Sized.u32_lastCol {c : Ctx} (hs : c.Sized) : u32 ((c.WIDTH : ℤ) - 1) = c.WIDTH - 1 := by
  have := hs.cols; have := hs.width_lt
  rw [u32_of_nonneg (by omega) (by omega)]; omega

theorem i32_natCast {n : ℕ} (h : n < 2 ^ 31) : i32 (n : ℤ) = n :=
  i32_of_range (by omega) (by omega)

variable {g}

/-- Both sides of a choice. -/
theorem runOps_ite {p : Prop} {_ : Decidable p} {x y : Gfx} {xs ys : List TextOp}
    (hx : p → x = runOps b xs g) (hy : ¬p → y = runOps b ys g) :
    (if p then x else y) = runOps b (if p then xs else ys) g := by
  split
  · exact hx ‹_›
  · exact hy ‹_›

theorem eraseLine_ops (st : ScnState) : eraseLine b st g = runOps b (eraseLineOps st g.ctx) g := by
  refine runOps_ite b (fun _ => rfl) fun _ => runOps_ite b (fun _ => ?_) fun _ => rfl
  generalize (st.param 0).toNat = p
  rcases p with _ | _ | _ | p <;> rfl

variable (hs : g.ctx.Sized) (hr : g.ctx.InRange)
include hs

/-- Clearing rows that exist is erasing a rectangle. -/
theorem gfxTermClearLines_ops {row n : ℕ} (hn : 0 < n) (hrow : row + n ≤ g.ctx.HEIGHT) :
    gfxTermClearLines b row (row + n - 1 : ℕ) g = (g.ctx.eraseRows row n).run b g := by
  have hH := hs.height_lt
  have htext := hs.textHeight
  have hHH := hs.height
  have hrows : (row + n) * g.ctx.fontHeight ≤ g.ctx.HEIGHT * g.ctx.fontHeight :=
    Nat.mul_le_mul_right _ hrow
  have hx : u32 ((row : ℤ) * g.ctx.fontHeight) = row * g.ctx.fontHeight := by
    rw [Nat.add_mul] at hrows
    exact_mod_cast u32_natCast (n := row * g.ctx.fontHeight) (by omega)
  have hy : u32 (((row + n - 1 : ℕ) - (row : ℤ) + 1) * g.ctx.fontHeight) = n * g.ctx.fontHeight := by
    have he : ((row + n - 1 : ℕ) : ℤ) - row + 1 = n := by omega
    rw [Nat.add_mul] at hrows
    rw [he]
    exact_mod_cast u32_natCast (n := n * g.ctx.fontHeight) (by omega)
  have hctx : g.restoreContent.ctx = g.ctx := rfl
  have hto : ¬((row + n - 1 : ℕ) : ℤ) > (g.ctx.HEIGHT : ℤ) - 1 := by omega
  unfold gfxTermClearLines
  dsimp only
  rw [hctx, i32_natCast hH, if_neg (by omega : ¬(row : ℤ) < 0), if_neg hto, if_pos (by omega), hx, hy]
  rfl

theorem clearToEndOfScreen_ops :
    clearToEndOfScreen b g = runOps b (g.ctx.eraseTillEnd ::
      if g.ctx.cursorRow + 1 < g.ctx.HEIGHT then
        [g.ctx.eraseRows (g.ctx.cursorRow + 1) (g.ctx.HEIGHT - 1 - g.ctx.cursorRow)] else []) g := by
  have hH := hs.height_lt
  unfold clearToEndOfScreen
  have hctx : (gfxTermClearTillEnd b g).ctx = g.ctx := rfl
  dsimp only
  rw [hctx]
  by_cases h : g.ctx.cursorRow + 1 < g.ctx.HEIGHT
  · rw [if_pos h, if_pos h]
    have hfrom : i32 ((g.ctx.cursorRow : ℤ) + 1) = (g.ctx.cursorRow + 1 : ℕ) :=
      i32_natCast (n := g.ctx.cursorRow + 1) (by omega)
    have hto : i32 ((g.ctx.HEIGHT : ℤ) - 1) =
        ((g.ctx.cursorRow + 1) + (g.ctx.HEIGHT - 1 - g.ctx.cursorRow) - 1 : ℕ) := by
      rw [show (g.ctx.HEIGHT : ℤ) - 1 = (g.ctx.HEIGHT - 1 : ℕ) by omega, i32_natCast (by omega)]
      omega
    rw [hfrom, hto]
    exact gfxTermClearLines_ops b (g := gfxTermClearTillEnd b g) hs (by omega)
      (show _ ≤ g.ctx.HEIGHT by omega)
  · rw [if_neg h, if_neg h]; rfl

include hr

theorem controlAction_ops (ch : Byte) :
    controlAction b ch g = runOps b (controlOps b ch g.ctx) g := by
  have hrow := hs.u32_row hr.row
  rw [controlAction, controlOps]
  split_ifs
  · rfl
  · rw [relocate]; simp only [hrow]; rfl
  · rw [relocate]; simp only [Ctx.tabStop, hs.u32_lastCol]; rfl
  · rfl
  · rfl
  · rfl
  · rfl
  · rfl
  · rfl

theorem eraseDisplay_ops (st : ScnState) :
    eraseDisplay b st g = runOps b (eraseDisplayOps st g.ctx) g := by
  have hH := hs.height_lt
  rw [eraseDisplay, eraseDisplayOps]
  generalize (if st.cmdParamsSize ≥ 1 then (st.param 0).toNat else 0) = p
  rcases p with _ | _ | _ | p
  · exact clearToEndOfScreen_ops b hs
  · dsimp only
    have hctx : (gfxTermClearTillCursor b g).ctx = g.ctx := rfl
    rw [hctx]
    by_cases h : g.ctx.cursorRow > 0
    · rw [if_pos h, if_pos h]
      have hrow := hr.row
      have hto : i32 ((g.ctx.cursorRow : ℤ) - 1) = (0 + g.ctx.cursorRow - 1 : ℕ) := by
        rw [show (g.ctx.cursorRow : ℤ) - 1 = (0 + g.ctx.cursorRow - 1 : ℕ) by omega,
          i32_natCast (by omega)]
      have hrows := gfxTermClearLines_ops b (g := gfxTermClearTillCursor b g) hs h
        (show 0 + g.ctx.cursorRow ≤ g.ctx.HEIGHT by omega)
      rw [Nat.cast_zero] at hrows
      rw [hto, hrows]
      rfl
    · rw [if_neg h, if_neg h]; rfl
  · rfl
  · rfl

theorem ansiAction_ops (ch : Byte) (st : ScnState) :
    ansiAction b ch st g = runOps b (ansiOps ch st g.ctx) g := by
  have hH := hs.height_lt
  have hW := hs.width_lt
  have hrow := hr.row
  have hcol := hr.col
  have hir : i32 (g.ctx.cursorRow : ℤ) = g.ctx.cursorRow := i32_natCast (by omega)
  have hic : i32 (g.ctx.cursorCol : ℤ) = g.ctx.cursorCol := i32_natCast (by omega)
  have hiH : i32 (g.ctx.HEIGHT : ℤ) = g.ctx.HEIGHT := i32_natCast hH
  have hiW : i32 (g.ctx.WIDTH : ℤ) = g.ctx.WIDTH := i32_natCast hW
  rw [ansiAction, ansiOps]
  dsimp only
  rw [hir, hic, hiH, hiW, hs.u32_lastRow, hs.u32_lastCol]
  -- letter by letter, in the order of the source
  refine runOps_ite b (fun _ => ?_) fun _ => ?_
  · exact runOps_ite b (fun _ => rfl) fun _ => rfl
  refine runOps_ite b (fun _ => ?_) fun _ => ?_
  · exact runOps_ite b (fun _ => rfl) fun _ => rfl
  refine runOps_ite b (fun _ => eraseLine_ops b st) fun _ => ?_
  refine runOps_ite b (fun _ => eraseDisplay_ops b hs hr st) fun _ => ?_
  refine runOps_ite b (fun _ => rfl) fun _ => ?_
  refine runOps_ite b (fun _ => rfl) fun _ => ?_
  refine runOps_ite b (fun _ => rfl) fun _ => ?_
  refine runOps_ite b (fun _ => rfl) fun _ => ?_
  refine runOps_ite b (fun _ => rfl) fun _ => ?_
  refine runOps_ite b (fun _ => rfl) fun _ => ?_
  refine runOps_ite b (fun _ => ?_) fun _ => ?_
  · have hback : g.ctx.backTab = g.ctx.setCursor g.ctx.cursorRow
        (if g.ctx.cursorCol % 8 ≠ 0 then g.ctx.cursorCol / 8 * 8 else g.ctx.cursorCol - 8) := by
      rw [Ctx.backTab]
      rw [hic]
      split
      · rfl
      · have : (max ((g.ctx.cursorCol : ℤ) - 8) 0).toNat = g.ctx.cursorCol - 8 := by omega
        rw [this]; rfl
    rw [relocate, hback]
    rfl
  refine runOps_ite b (fun _ => ?_) fun _ => ?_
  · rw [g.ctx.selectGraphicRendition_attrs st]
    rfl
  refine runOps_ite b (fun _ => ?_) fun _ => ?_
  · rw [← Nat.cast_min, ← Nat.cast_min, i32_natCast (by omega), i32_natCast (by omega)]
    rfl
  refine runOps_ite b (fun _ => rfl) fun _ => ?_
  refine runOps_ite b (fun _ => rfl) fun _ => ?_
  refine runOps_ite b (fun _ => ?_) fun _ => ?_
  · exact runOps_ite b (fun _ => rfl) fun _ => rfl
  refine runOps_ite b (fun _ => ?_) fun _ => rfl
  refine runOps_ite b (fun _ => ?_) fun _ => rfl
  refine runOps_ite b (fun _ => rfl) fun _ => ?_
  exact runOps_ite b (fun _ => rfl) fun _ => rfl

theorem finalLetterAction_ops (ch : Byte) (st : ScnState)
    (hG : ¬(st.privateModeChar = chr '#' ∧ ch = chr 'G')) :
    finalLetterAction b ch st g = runOps b (letterOps ch st g.ctx) g := by
  rw [finalLetterAction, letterOps]
  rw [if_neg hG]
  refine runOps_ite b (fun _ => ?_) fun _ => ?_
  · refine runOps_ite b (fun _ => ?_) fun _ => rfl
    refine runOps_ite b (fun _ => rfl) fun _ => ?_
    exact runOps_ite b (fun _ => rfl) fun _ => rfl
  refine runOps_ite b (fun _ => ?_) fun _ => ?_
  · exact runOps_ite b (fun _ => rfl) fun _ => rfl
  refine runOps_ite b (fun _ => ?_) fun _ => ansiAction_ops b hs hr ch st
  refine runOps_ite b (fun _ => rfl) fun _ => ?_
  exact runOps_ite b (fun _ => rfl) fun _ => rfl

end Execute

section Byte
variable (b : Build) {t : Term} (hs : t.g.ctx.Sized) (hr : t.g.ctx.InRange)
include hs hr

theorem dispatch_ops {ch : Byte} (hG : ¬isGsxCall ch t.scn) :
    (dispatch b ch t).g = runOps b (scannerOps ch t.scn t.g.ctx) t.g := by
  rw [dispatch, scannerOps]
  cases hn : t.scn.next with
  | normaltext =>
      simp only [stateFunNormaltext]
      split_ifs <;> rfl
  | waitsquarebracket =>
      simp only [stateFunWaitsquarebracket, Term.note]
      by_cases h1 : ch = chr '['
      · rw [if_pos h1, if_pos (Or.inl h1)]; rfl
      by_cases h2 : ch = chr '('
      · rw [if_neg h1, if_pos h2, if_pos (Or.inr h2)]; rfl
      rw [if_neg h1, if_neg h2, if_neg (not_or_intro h1 h2)]
      refine runOps_ite b (fun _ => rfl) fun _ => ?_
      exact runOps_ite b (fun _ => rfl) fun _ => rfl
  | selectescape =>
      have hlet := finalLetterAction_ops b hs hr ch t.scn fun h => hG ⟨Or.inl hn, h⟩
      simp only [stateFunSelectescape, stateFunFinalLetter, Term.note]
      split_ifs <;> first | rfl | exact hlet | (exfalso; tauto)
  | readDigit =>
      have hlet := finalLetterAction_ops b hs hr ch t.scn fun h => hG ⟨Or.inr hn, h⟩
      simp only [stateFunReadDigit, stateFunFinalLetter, Term.note]
      split_ifs <;> first | rfl | exact hlet | (exfalso; tauto)
  | altCharset =>
      refine runOps_ite b (fun _ => rfl) fun _ => ?_
      exact runOps_ite b (fun _ => rfl) fun _ => rfl

theorem byteAction_ops {ch : Byte} (hG : ¬isGsxCall ch t.scn) :
    (byteAction b ch t).g = runOps b (actionOps b ch t.scn t.g.ctx) t.g := by
  rw [byteAction, actionOps]
  split
  · exact controlAction_ops b hs hr ch
  · exact dispatch_ops b hs hr hG

end Byte

end Pigfx
