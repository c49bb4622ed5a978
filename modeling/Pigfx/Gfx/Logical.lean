import Pigfx.Gfx.Effect

/-!
# The screen without the cursor

The logical screen is the memory with the cell under the cursor replaced by what
the cursor buffer holds.  Restoring the cell brings it about, and rendering the
cursor hides it again, so each operation acts on the logical screen alone: it draws
there what it draws in memory, and where the cursor is does not matter.

## Main definitions

* `logicalScreen` — the memory without the cursor.
* `TextOp.draw`, `paintOps` — operations on a screen that has no cursor.
* `logicalScreen_run` — an operation does on the logical screen what it draws.
* `Ctx.Settled` — the invariant between bytes, and `logicalScreen_putByte`.
-/

namespace Pigfx
open Lib

/-! ## The cell and the screen -/

/-- The address lies in the cell at the cursor. -/
def Ctx.InCell (c : Ctx) (x : ℤ) : Prop :=
  0 ≤ x - c.cursorAddr ∧ (x - c.cursorAddr) / c.rowStep < c.fontHeight ∧
    (x - c.cursorAddr) % c.rowStep < 8

instance (c : Ctx) (x : ℤ) : Decidable (c.InCell x) := inferInstanceAs (Decidable (_ ∧ _))

/-- The memory, with the cell under the cursor replaced by the cursor buffer. -/
def logicalScreen (c : Ctx) (p : Pix) (x : ℤ) : Byte :=
  if c.InCell x then
    cellByte (fun i k => p.cursorBuffer (2 * i + k)) ((x - c.cursorAddr) / c.rowStep).toNat
      ((x - c.cursorAddr) % c.rowStep).toNat
  else p.bus.data x

/-- The logical screen of the terminal. -/
def Gfx.logicalScreen (g : Gfx) : ℤ → Byte := Pigfx.logicalScreen g.ctx g.pix

section Cell
variable {c : Ctx} (hstep : 8 ≤ c.rowStep)
include hstep

theorem Ctx.divMod_cell {i j : ℕ} (hj : j < 8) {x : ℤ} (hx : x = c.cursorAddr + (i : ℕ) * c.rowStep + (j : ℕ)) :
    (x - c.cursorAddr) / c.rowStep = i ∧ (x - c.cursorAddr) % c.rowStep = j := by
  have hd : x - c.cursorAddr = j + c.rowStep * i := by rw [hx]; ring
  rw [hd]
  constructor
  · rw [Int.add_mul_ediv_left _ _ (by omega), Int.ediv_eq_zero_of_lt (by omega) (by omega), zero_add]
  · rw [Int.add_mul_emod_self_left, Int.emod_eq_of_lt (by omega) (by omega)]

/-- The cell consists of eight bytes in each of its lines. -/
theorem Ctx.inCell_iff (x : ℤ) :
    c.InCell x ↔ ∃ i < c.fontHeight, ∃ j < 8, x = c.cursorAddr + (i : ℕ) * c.rowStep + (j : ℕ) := by
  constructor
  · rintro ⟨hpos, hline, hcol⟩
    have hdiv := Int.ediv_nonneg hpos (by omega : 0 ≤ c.rowStep)
    have hmod := Int.emod_nonneg (x - c.cursorAddr) (by omega : c.rowStep ≠ 0)
    have hx := Int.emod_add_mul_ediv (x - c.cursorAddr) c.rowStep
    refine ⟨((x - c.cursorAddr) / c.rowStep).toNat, by omega,
      ((x - c.cursorAddr) % c.rowStep).toNat, by omega, ?_⟩
    rw [Int.toNat_of_nonneg hdiv, Int.toNat_of_nonneg hmod]
    linarith [mul_comm c.rowStep ((x - c.cursorAddr) / c.rowStep)]
  · rintro ⟨i, hi, j, hj, hx⟩
    obtain ⟨hdiv, hmod⟩ := Ctx.divMod_cell hstep hj hx
    have hpos : 0 ≤ (i : ℤ) * c.rowStep := mul_nonneg (by omega) (by omega)
    refine ⟨by linarith, ?_, ?_⟩
    · rw [hdiv]; omega
    · rw [hmod]; omega

theorem logicalScreen_inside {p : Pix} {i j : ℕ} (hi : i < c.fontHeight) (hj : j < 8) :
    logicalScreen c p (c.cursorAddr + (i : ℕ) * c.rowStep + (j : ℕ)) =
      cellByte (fun i k => p.cursorBuffer (2 * i + k)) i j := by
  obtain ⟨hdiv, hmod⟩ := Ctx.divMod_cell hstep hj rfl (i := i)
  rw [logicalScreen, if_pos ((Ctx.inCell_iff hstep _).mpr ⟨i, hi, j, hj, rfl⟩), hdiv, hmod]
  rfl

omit hstep in
theorem logicalScreen_outside {p : Pix} {x : ℤ} (hx : ¬c.InCell x) : logicalScreen c p x = p.bus.data x :=
  if_neg hx

/-- An address outside the cell is before or behind it in each line. -/
theorem not_inCell_line {x : ℤ} (hx : ¬c.InCell x) {i : ℕ} (hi : i < c.fontHeight) :
    x < c.cursorAddr + (i : ℕ) * c.rowStep ∨ c.cursorAddr + (i : ℕ) * c.rowStep + 8 ≤ x := by
  by_contra hin
  push Not at hin
  exact hx ((Ctx.inCell_iff hstep x).mpr
    ⟨i, hi, (x - (c.cursorAddr + (i : ℕ) * c.rowStep)).toNat, by omega, by omega⟩)

/-- A cell that is painted over with what the buffer holds. -/
theorem logicalScreen_eq {p : Pix} {d d' : ℤ → Byte} (hoff : ∀ x, ¬c.InCell x → p.bus.data x = d x)
    (H : Paints c.cursorAddr c.rowStep c.fontHeight 8 (cellByte fun i k => p.cursorBuffer (2 * i + k)) d d') :
    logicalScreen c p = d' := by
  funext x
  by_cases hx : c.InCell x
  · obtain ⟨i, hi, j, hj, rfl⟩ := (Ctx.inCell_iff hstep x).mp hx
    rw [logicalScreen_inside hstep hi hj, H.inside i hi j hj]
  · rw [logicalScreen_outside hx, hoff x hx, H.outside x fun i hi => not_inCell_line hstep hx hi]

/-- **Restoring the cell brings the logical screen into memory.** -/
theorem data_gfxRestoreCursorContent (p : Pix) :
    (gfxRestoreCursorContent c p).bus.data = logicalScreen c p :=
  (logicalScreen_eq hstep (fun _ _ => rfl) (paints_gfxRestoreCursorContent hstep p)).symm

end Cell

/-! ## Rendering the cursor -/

section Render
variable {c : Ctx}

theorem data_invertByte (c : Ctx) (a : ℤ) (m : Bus) {x : ℤ} (hx : x ≠ a) :
    (c.invertByte a m).data x = m.data x := if_neg hx

theorem data_renderWord (c : Ctx) (k : ℕ) (a : ℤ) (p : Pix) {x : ℤ} (hx : x < a ∨ a + 4 ≤ x) :
    (renderWord c k a p).bus.data x = p.bus.data x := by
  simp only [renderWord]
  split
  · rw [data_invertByte _ _ _ (by omega), data_invertByte _ _ _ (by omega),
      data_invertByte _ _ _ (by omega), data_invertByte _ _ _ (by omega)]
    rfl
  · rfl

theorem cursorBuffer_renderWord (c : Ctx) (k : ℕ) (a : ℤ) (p : Pix) (j : ℕ) :
    (renderWord c k a p).cursorBuffer j = if j = k then p.bus.word a else p.cursorBuffer j := rfl

/-- The lines rendered so far are saved, and nothing else has changed. -/
structure Saved (c : Ctx) (p : Pix) (n : ℕ) (q : Pix) : Prop where
  buffer : ∀ i < n, ∀ k < 2, q.cursorBuffer (2 * i + k) = p.bus.word (c.cursorAddr + (i : ℕ) * c.rowStep + 4 * (k : ℕ))
  outside : ∀ x, (∀ i < n, x < c.cursorAddr + (i : ℕ) * c.rowStep ∨ c.cursorAddr + (i : ℕ) * c.rowStep + 8 ≤ x) →
    q.bus.data x = p.bus.data x

theorem saved_gfxTermRenderCursor (hstep : 8 ≤ c.rowStep) (p : Pix) :
    Saved c p c.fontHeight (gfxTermRenderCursor c p) := by
  refine iterate_induction c.fontHeight _ _ (Saved c p) ⟨by omega, fun _ _ => rfl⟩ ?_
  intro n q _ H
  have hword : ∀ k < 2, q.bus.word (c.cursorAddr + (n : ℕ) * c.rowStep + 4 * (k : ℕ)) =
      p.bus.word (c.cursorAddr + (n : ℕ) * c.rowStep + 4 * (k : ℕ)) := by
    intro k hk
    refine Bus.word_congr fun l hl => H.outside _ fun i hi => Or.inr ?_
    have hapart := row_apart (w := 8) (by exact_mod_cast hstep) hi
    push_cast at hapart
    omega
  constructor
  · intro i hi k hk
    rw [cursorBuffer_renderWord, cursorBuffer_renderWord]
    rcases Nat.lt_succ_iff_lt_or_eq.mp hi with hlt | rfl
    · rw [if_neg (by omega), if_neg (by omega), H.buffer i hlt k hk]
    · obtain rfl | rfl : k = 0 ∨ k = 1 := by omega
      · rw [if_neg (by omega), if_pos (by omega), ← hword 0 hk]
        simp
      · rw [if_pos rfl, ← hword 1 hk]
        refine Bus.word_congr fun l hl => ?_
        rw [data_renderWord _ _ _ _ (by omega)]
  · intro x hx
    have hn := hx n (by omega)
    rw [data_renderWord _ _ _ _ (by omega), data_renderWord _ _ _ _ (by omega)]
    exact H.outside x fun i hi => hx i (by omega)

/-- **Rendering the cursor leaves what was in memory on the logical screen.** -/
theorem logicalScreen_gfxTermRenderCursor (hstep : 8 ≤ c.rowStep) (p : Pix) :
    logicalScreen c (gfxTermRenderCursor c p) = p.bus.data := by
  have H := saved_gfxTermRenderCursor hstep p
  refine logicalScreen_eq hstep (d := p.bus.data)
    (fun x hx => H.outside x fun i hi => not_inCell_line hstep hx hi) ⟨?_, fun _ _ => rfl⟩
  intro i hi j hj
  rw [cellByte, H.buffer i hi _ (by omega), Bus.byteOf_word _ _ _ (by omega)]
  congr 1
  push_cast
  omega

/-- A hidden cursor changes nothing. -/
theorem data_gfxTermRenderCursor_hidden (hv : c.cursorVisible = false) (p : Pix) :
    (gfxTermRenderCursor c p).bus.data = p.bus.data := by
  refine iterate_induction c.fontHeight _ _ (fun _ (q : Pix) => q.bus.data = p.bus.data) rfl ?_
  intro i q _ h
  simp only [renderWord, hv, Bool.false_eq_true, if_false, Bus.data_note]
  exact h

end Render

/-! ## Operations -/

/-- What an operation draws on a screen that has no cursor. -/
def TextOp.draw (b : Build) (c : Ctx) : TextOp → Bus → Bus
  | erase x y width height => gfxClearRect b c x y width height
  | eraseLine => gfxClearRect b c 0 (c.cursorRow * c.fontHeight) c.W c.fontHeight
  | clear => gfxClear b c
  | print ch => gfxPutc c c.cursorRow c.cursorCol ch
  | delete n => gfxDeleteLines c c.cursorRow n
  | insert n => gfxInsertLines c c.cursorRow n
  | scroll => dmaExecuteQueue (gfxScrollDownDma c c.fontHeight)
  | wait | attrs _ | move _ _ | visible _ | send _ | bell | wordstar _ => id

/-- The contents of a screen after an operation. -/
def TextOp.paint (b : Build) (c : Ctx) (op : TextOp) (d : ℤ → Byte) : ℤ → Byte := (op.draw b c ⟨d, []⟩).data

/-- The contents after operations. -/
def paintOps (b : Build) : List TextOp → Ctx → (ℤ → Byte) → ℤ → Byte
  | [], _, d => d
  | op :: ops, c, d => paintOps b ops (op.ctx c) (op.paint b c d)

/-- What the cursor's arithmetic needs of a screen: the pitch is a number of words, the
glyphs are those of a font, and a stride fits its field. -/
structure Ctx.Words (c : Ctx) : Prop where
  words : c.Pitch % 4 = 0
  stride : c.Pitch < 2 ^ 15 + 8
  glyphs : c.fontHeight ≤ 16

theorem Ctx.Words.congr {c c' : Ctx} (h : c.Words) (hg : c'.geometry = c.geometry) : c'.Words := by
  simp only [Ctx.geometry, Geometry.mk.injEq] at hg
  obtain ⟨-, -, hP, -, -, -, -, -, -, -, -, hf, -⟩ := hg
  exact ⟨hP ▸ h.words, hP ▸ h.stride, hf ▸ h.glyphs⟩

section Run
variable {b : Build} {g : Gfx} (h : g.ctx.Screen) (hw : g.ctx.Words)
include h hw

theorem Ctx.Screen.rowStep_eq_pitch : g.ctx.rowStep = g.ctx.Pitch ∧ 8 ≤ g.ctx.rowStep := by
  have hpitch := h.pitch; have hcolumns := h.columns; have hcols := h.cols
  rw [Ctx.rowStep_of_words hw.words]
  exact ⟨rfl, by omega⟩

/-- Drawing after the cell has been put back draws on the logical screen. -/
theorem logicalScreen_restore_draw {f : Bus → Bus} (hf : OnData f) :
    (g.restoreContent.draw f).renderCursor.logicalScreen = (f ⟨g.logicalScreen, []⟩).data := by
  have hstep := (h.rowStep_eq_pitch hw).2
  have hrestored := data_gfxRestoreCursorContent hstep g.pix
  exact (logicalScreen_gfxTermRenderCursor hstep _).trans (hf _ _ hrestored)

omit h hw in
/-- Drawing without putting the cell back, when the drawing covers the cell. -/
theorem logicalScreen_draw_cover {f : Bus → Bus} {base pitch : ℤ} {height width : ℕ} {v : ℕ → ℕ → Byte}
    (hf : ∀ m : Bus, Paints base pitch height width v m.data (f m).data)
    (hcover : ∀ x, g.ctx.InCell x → ∃ i < height, ∃ j < width, x = base + (i : ℕ) * pitch + (j : ℕ)) :
    (f g.pix.bus).data = (f ⟨g.logicalScreen, []⟩).data :=
  (hf g.pix.bus).unique (hf ⟨g.logicalScreen, []⟩) (fun _ hx => (logicalScreen_outside hx).symm) hcover

/-- The cell of an in-range cursor in its line of text. -/
theorem inCell_line (hr : g.ctx.InRange) {x : ℤ} (hx : g.ctx.InCell x) :
    ∃ i < g.ctx.fontHeight, ∃ j < g.ctx.W,
      x = g.ctx.PFB (0 : ℕ) (g.ctx.cursorRow * g.ctx.fontHeight : ℕ) + (i : ℕ) * (g.ctx.Pitch : ℤ) + (j : ℕ) := by
  obtain ⟨hpitch, hstep⟩ := h.rowStep_eq_pitch hw
  obtain ⟨i, hi, j, hj, rfl⟩ := (Ctx.inCell_iff hstep x).mp hx
  have hcolumns := h.columns; have hcol := hr.col
  refine ⟨i, hi, g.ctx.cursorCol * 8 + j, by omega, ?_⟩
  rw [hpitch, Ctx.cursorAddr, Ctx.PFB, Ctx.PFB]
  push_cast
  ring

/-- The cell of an in-range cursor in the text area. -/
theorem inCell_area (hr : g.ctx.InRange) {x : ℤ} (hx : g.ctx.InCell x) :
    ∃ i < 1, ∃ j < g.ctx.size, x = g.ctx.pfb + (i : ℕ) * (0 : ℤ) + (j : ℕ) := by
  obtain ⟨-, hstep⟩ := h.rowStep_eq_pitch hw
  obtain ⟨i, hi, j, hj, rfl⟩ := (Ctx.inCell_iff hstep x).mp hx
  obtain ⟨hlo, hhi⟩ := h.cell_bounds hr.row hr.col hi
  change g.ctx.pfb ≤ g.ctx.cursorAddr + (i : ℕ) * g.ctx.rowStep at hlo
  change g.ctx.cursorAddr + (i : ℕ) * g.ctx.rowStep + 8 ≤ g.ctx.pfb + g.ctx.size at hhi
  generalize g.ctx.cursorAddr + (i : ℕ) * g.ctx.rowStep = a at hlo hhi ⊢
  exact ⟨0, by omega, (a + j - g.ctx.pfb).toNat, by omega, by omega⟩

theorem logicalScreen_print (hr : g.ctx.InRange) (ch : Byte) :
    (printAt ch g).logicalScreen = ((TextOp.print ch).draw b g.ctx ⟨g.logicalScreen, []⟩).data := by
  have hstep := (h.rowStep_eq_pitch hw).2
  have hcell := logicalScreen_draw_cover (f := gfxPutc g.ctx g.ctx.cursorRow g.ctx.cursorCol ch)
    (fun m => paints_gfxPutc hstep hr.row hr.col ch m) fun x hx => (Ctx.inCell_iff hstep x).mp hx
  exact (logicalScreen_gfxTermRenderCursor (c := { g.ctx with cursorCol := u32 (g.ctx.cursorCol + 1) }) hstep
    _).trans hcell

theorem logicalScreen_clearLine (hr : g.ctx.InRange) :
    (gfxTermClearLine b g).logicalScreen = (TextOp.eraseLine.draw b g.ctx ⟨g.logicalScreen, []⟩).data := by
  have hstep := (h.rowStep_eq_pitch hw).2
  have hcolumns := h.columns; have hcols := h.cols; have hfont := hw.glyphs
  have hlines : g.ctx.cursorRow * g.ctx.fontHeight + g.ctx.fontHeight ≤ g.ctx.H := by
    rw [h.lines, ← Nat.succ_mul]; exact Nat.mul_le_mul_right _ hr.row
  have hrect : ∀ m : Bus, Paints _ _ _ _ _ m.data
      (gfxClearRect b g.ctx 0 (g.ctx.cursorRow * g.ctx.fontHeight) g.ctx.W g.ctx.fontHeight m).data :=
    fun m => paints_gfxClearRect b h.toSized h.pitch (by omega) (by omega) le_rfl h.font hlines
      (fun _ => ⟨hw.stride, by omega⟩) m
  have hline := logicalScreen_draw_cover hrect fun x hx => by
    rw [Nat.sub_zero, Nat.min_self]; exact inCell_line h hw hr hx
  exact (logicalScreen_gfxTermRenderCursor hstep _).trans hline

theorem logicalScreen_clearScreen (hr : g.ctx.InRange) :
    (gfxTermClearScreen b g).logicalScreen = (TextOp.clear.draw b g.ctx ⟨g.logicalScreen, []⟩).data := by
  have hstep := (h.rowStep_eq_pitch hw).2
  have harea := logicalScreen_draw_cover (fun m => paints_gfxClear b 0 m) fun x hx => inCell_area h hw hr hx
  exact (logicalScreen_gfxTermRenderCursor hstep _).trans harea

omit h hw in
/-- The cell of a cursor in the last row lies in the last row of the memory. -/
theorem lastRow_le_cell {c : Ctx} (h : c.Screen) (hrow : c.cursorRow = c.HEIGHT - 1) (i : ℕ) :
    c.pfb + c.size - c.lineBytes ≤ c.cursorAddr + (i : ℕ) * c.rowStep := by
  have hrows := h.rows
  have hbelow : 0 ≤ (i : ℤ) * c.rowStep := mul_nonneg (by omega) c.rowStep_bounds.1
  have hsize : (c.size : ℤ) - c.lineBytes = (c.HEIGHT - 1 : ℕ) * c.fontHeight * c.Pitch := by
    rw [h.size_eq, Ctx.lineBytes, Nat.cast_sub hrows]
    push_cast
    ring
  have hcol : (0 : ℤ) ≤ c.cursorCol * FONT_WIDTH := by positivity
  rw [Ctx.cursorAddr, Ctx.PFB, hrow]
  linarith

omit h hw in
/-- The cell of a cursor in the last row is blank after a scroll. -/
theorem paints_blank_scrolled {c : Ctx} (h : c.Screen) (hr : c.InRange) (hrow : c.cursorRow = c.HEIGHT - 1)
    {src dst : ℤ} {n : ℕ} {d₀ d : ℤ → Byte}
    (H : Slides src dst n (c.pfb + c.size - c.lineBytes) c.lineBytes c.getBg d₀ d) :
    Paints c.cursorAddr c.rowStep c.fontHeight 8 (cellByte fun _ _ => c.getBg32) d d := by
  refine ⟨fun i hi j hj => ?_, fun _ _ => rfl⟩
  obtain ⟨-, hhi⟩ := h.cell_bounds hr.row hr.col hi
  have hlo := lastRow_le_cell h hrow i
  change c.cursorAddr + (i : ℕ) * c.rowStep + 8 ≤ c.pfb + c.size at hhi
  rw [cellByte, c.byteOf_getBg32 _ (by omega)]
  generalize c.cursorAddr + (i : ℕ) * c.rowStep = a at hlo hhi ⊢
  have hfill := H.filled (a + j - (c.pfb + c.size - c.lineBytes)).toNat (by omega)
  rwa [Int.toNat_of_nonneg (by omega), add_sub_cancel] at hfill

omit h hw in
/-- On a new line the cursor buffer holds a blank cell. -/
theorem cellByte_newline (c : Ctx) (p : Pix) {i j : ℕ} (hi : i < c.fontHeight) (hj : j < 8) :
    cellByte (fun i k => (gfxTermRenderCursorNewlineDma c p).1.cursorBuffer (2 * i + k)) i j =
      cellByte (fun _ _ => c.getBg32) i j := by
  have hword : 2 * i + j / 4 < c.fontHeight * 2 := by omega
  simp only [cellByte, gfxTermRenderCursorNewlineDma]
  rw [if_pos hword]

omit h hw in
/-- The cursor on the new line is painted over its cell. -/
theorem paints_cursor_newline {c : Ctx} (h : c.Screen) (hw : c.Words)
    (hpitch : c.rowStep = c.Pitch) (m : Bus) :
    Paints c.cursorAddr c.rowStep c.fontHeight 8 (fun _ _ => c.getFg) m.data
      ((gfxFillRectDma c (c.cursorCol * FONT_WIDTH) (c.cursorRow * c.fontHeight) FONT_WIDTH
        c.fontHeight).run m).data := by
  have hP := h.pitch; have hcolumns := h.columns; have hcols := h.cols
  have hstride := hw.stride; have hfont := hw.glyphs
  have haddr : c.cursorAddr = c.PFB (c.cursorCol * FONT_WIDTH : ℕ) (c.cursorRow * c.fontHeight : ℕ) := by
    rw [Ctx.cursorAddr]; push_cast; rfl
  rw [haddr, hpitch]
  exact paints_gfxFillRectDma h.font (by omega) (by decide) (by omega) (by omega) m

/-- The scroll blanks the last row, which is what it puts into the cursor buffer. -/
theorem logicalScreen_scrollLine (hrow : g.ctx.cursorRow = g.ctx.HEIGHT) (hcol : g.ctx.cursorCol < g.ctx.WIDTH) :
    (scrollLine g).logicalScreen = (TextOp.scroll.draw b g.ctx ⟨g.logicalScreen, []⟩).data := by
  obtain ⟨hpitch, hstep⟩ := h.rowStep_eq_pitch hw
  have hrows := h.rows; have hfont := h.font; have hcolumns := h.columns
  have hP := h.pitch; have hstride := hw.stride; have hsmall := hw.glyphs
  have hlast : u32 ((g.ctx.cursorRow : ℤ) - 1) = g.ctx.HEIGHT - 1 := by
    rw [hrow]; exact h.u32_lastRow
  rw [scrollLine_eq hlast]
  dsimp only
  generalize hc : g.ctx.setCursor (g.ctx.HEIGHT - 1) g.ctx.cursorCol = c
  generalize hp : gfxRestoreCursorContent g.ctx g.pix = p
  have hscreen : c.Screen := by rw [← hc]; exact h.congr rfl
  have hr : c.InRange := by rw [← hc]; exact ⟨by change g.ctx.HEIGHT - 1 < g.ctx.HEIGHT; omega, hcol⟩
  have hstep' : 8 ≤ c.rowStep := by rw [← hc]; exact hstep
  have hpitch' : c.rowStep = c.Pitch := by rw [← hc]; exact hpitch
  have hdraw : TextOp.scroll.draw b g.ctx = dmaExecuteQueue (gfxScrollDownDma c c.fontHeight) := by
    rw [← hc]; rfl
  have hrestored : p.bus.data = g.logicalScreen := by
    rw [← hp]; exact data_gfxRestoreCursorContent hstep g.pix
  -- the scrolled screen, on which the cell is blank
  have hscroll := slides_gfxScrollDownDma hscreen ⟨g.logicalScreen, []⟩
  rw [hdraw]
  generalize hd : (dmaExecuteQueue (gfxScrollDownDma c c.fontHeight) ⟨g.logicalScreen, []⟩).data = d at hscroll ⊢
  have hrow' : c.cursorRow = c.HEIGHT - 1 := by rw [← hc]; rfl
  have hblank := paints_blank_scrolled hscreen hr hrow' hscroll
  have hdata : ∀ x, ¬c.InCell x →
      (dmaExecuteQueue (gfxScrollDownDma c c.fontHeight ++ (gfxTermRenderCursorNewlineDma c p).2)
        (gfxTermRenderCursorNewlineDma c p).1.bus).data x = d x := by
    intro x hx
    have hscrolled : ((gfxScrollDownDma c c.fontHeight).foldl (fun m op => op.run m) p.bus).data = d := by
      rw [← data_dmaExecuteQueue, ← hd]
      exact onData_dmaExecuteQueue _ _ _ hrestored
    rw [data_dmaExecuteQueue, List.foldl_append, ← hscrolled]
    simp only [gfxTermRenderCursorNewlineDma]
    split
    · rw [List.foldl_cons, List.foldl_nil]
      exact (paints_cursor_newline hscreen (by rw [← hc]; exact hw.congr rfl) hpitch' _).outside x
        fun i hi => not_inCell_line hstep' hx hi
    · rfl
  exact logicalScreen_eq hstep' hdata (hblank.congr fun i hi j hj => (cellByte_newline c p hi hj).symm)

/-- **An operation does on the logical screen what it draws.** -/
theorem logicalScreen_run {ch : Byte} {st : ScnState} {c₀ : Ctx} {op : TextOp}
    (hop : op.Legal ch st c₀ g.ctx) (hvis : ¬setsVisibility ch st) :
    (op.run b g).logicalScreen = op.paint b g.ctx g.logicalScreen := by
  have hstep := (h.rowStep_eq_pitch hw).2
  cases op with
  | wait => rfl
  | attrs a => rfl
  | move row col =>
      exact (logicalScreen_gfxTermRenderCursor (c := g.ctx.setCursor row col) hstep _).trans
        (data_gfxRestoreCursorContent hstep g.pix)
  | erase x y width height => exact logicalScreen_restore_draw h hw (onData_gfxClearRect b g.ctx x y width height)
  | eraseLine => exact logicalScreen_clearLine h hw hop
  | clear => exact logicalScreen_clearScreen h hw hop
  | print x => exact logicalScreen_print h hw hop.1 x
  | delete n => exact logicalScreen_restore_draw h hw (onData_gfxDeleteLines g.ctx g.ctx.cursorRow n)
  | insert n => exact logicalScreen_restore_draw h hw (onData_gfxInsertLines g.ctx g.ctx.cursorRow n)
  | visible v => exact absurd hop.2 hvis
  | scroll => exact logicalScreen_scrollLine h hw hop.1 hop.2
  | send s => rfl
  | bell => rfl
  | wordstar on => rfl

end Run

/-- **Operations act on the logical screen alone.** -/
theorem logicalScreen_runOps {b : Build} {ch : Byte} {st : ScnState} {c₀ : Ctx} (ops : List TextOp) {g : Gfx}
    (h : g.ctx.Screen) (hw : g.ctx.Words) (hops : Along TextOp.ctx (TextOp.Legal ch st c₀) g.ctx ops)
    (hvis : ¬setsVisibility ch st) :
    (runOps b ops g).logicalScreen = paintOps b ops g.ctx g.logicalScreen := by
  induction ops generalizing g with
  | nil => rfl
  | cons op ops ih =>
      have hctx := TextOp.ctx_run b g op
      have hgeo : (op.run b g).ctx.geometry = g.ctx.geometry := by rw [hctx, TextOp.geometry_ctx]
      rw [runOps_cons, ih (h.congr hgeo) (hw.congr hgeo) (by rw [hctx]; exact hops.2),
        logicalScreen_run h hw hops.1 hvis, hctx]
      rfl

/-! ## Bytes -/

/-- What holds between bytes that change no geometry. -/
structure Ctx.Settled (c : Ctx) : Prop extends c.Screen, c.InRange, c.Words where
  savedRow : c.savedCursor.1 < c.HEIGHT
  savedCol : c.savedCursor.2 < c.WIDTH

/-- A legal operation saves positions inside the grid only. -/
theorem saved_ctx {ch : Byte} {st : ScnState} {c₀ c : Ctx} {op : TextOp} (h : op.Legal ch st c₀ c)
    (hs : c.savedCursor.1 < c.HEIGHT ∧ c.savedCursor.2 < c.WIDTH) :
    (op.ctx c).savedCursor.1 < (op.ctx c).HEIGHT ∧ (op.ctx c).savedCursor.2 < (op.ctx c).WIDTH := by
  cases op with
  | attrs a =>
      change a.savedCursor.1 < c.HEIGHT ∧ a.savedCursor.2 < c.WIDTH
      rcases h.2 with h' | h' <;> rw [h']
      · exact hs
      · exact ⟨h.1.row, h.1.col⟩
  | _ => exact hs

section Byte
variable {b : Build} {ch : Byte} {t : Term} (h : t.g.ctx.Settled) (hG : ¬isGsxCall ch t.scn)
include h

/-- The saved position may be recalled. -/
theorem Ctx.Settled.recall : restoresCursor ch t.scn → t.g.ctx.savedCursor.1 ≤ t.g.ctx.HEIGHT ∧
    t.g.ctx.savedCursor.2 < t.g.ctx.WIDTH := fun _ => ⟨h.savedRow.le, h.savedCol⟩

/-- The operations of a byte keep what holds between bytes. -/
theorem settled_textOps : ((textOps b ch t.scn t.g.ctx).foldl TextOp.ctx t.g.ctx).Settled := by
  have hgeo := geometry_foldl (textOps b ch t.scn t.g.ctx) t.g.ctx
  have hlegal := textOps_legal b h.toSized h.toInRange (h.recall : restoresCursor ch t.scn → _)
  have hsaved := hlegal.1.invariant
    (I := fun c => c.savedCursor.1 < c.HEIGHT ∧ c.savedCursor.2 < c.WIDTH)
    (fun _ _ hs hop => saved_ctx hop hs) ⟨h.savedRow, h.savedCol⟩
  exact ⟨h.toScreen.congr hgeo, hlegal.2, h.toWords.congr hgeo, hsaved.1, hsaved.2⟩

include hG

theorem ctx_putByte : (putByte b ch t).g.ctx = (textOps b ch t.scn t.g.ctx).foldl TextOp.ctx t.g.ctx := by
  rw [putByte_textOps b h.toSized h.toInRange hG h.recall, ctx_runOps]

/-- **A byte acts on the logical screen alone.** -/
theorem logicalScreen_putByte (hvis : ¬setsVisibility ch t.scn) :
    (putByte b ch t).g.logicalScreen =
      paintOps b (textOps b ch t.scn t.g.ctx) t.g.ctx t.g.logicalScreen := by
  rw [putByte_textOps b h.toSized h.toInRange hG h.recall]
  exact logicalScreen_runOps _ h.toScreen h.toWords
    (textOps_legal b h.toSized h.toInRange h.recall).1 hvis

end Byte

end Pigfx
