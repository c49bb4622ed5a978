import Pigfx.Gfx.Legal

/-!
# The text area in memory

The grid of cells fills the text area of the frame buffer: `HEIGHT` rows of
`fontHeight` lines, `Pitch` bytes apart, and `WIDTH` cells of eight bytes in a
line.  This module holds the arithmetic of the addresses, and what the fields of a
two-dimensional transfer amount to there.

## Main definitions

* `Ctx.Screen` — a grid that fills its text area.
* `Ctx.cellAddr`, `Ctx.lineBytes` — where cells and rows of text are.
* `gfxFillRectDma_run` — the transfer of a rectangle.
-/

namespace Pigfx
open Lib

/-- The grid fills the text area, and the text area the memory it is given. -/
structure Ctx.Screen (c : Ctx) : Prop extends c.Sized where
  columns : c.W = 8 * c.WIDTH
  lines : c.H = c.HEIGHT * c.fontHeight
  bytes : c.size = c.Pitch * c.H
  pitch : c.W ≤ c.Pitch
  /-- The size fits an `unsigned int`. -/
  size_lt : c.size < 2 ^ 32

theorem Ctx.Screen.congr {c c' : Ctx} (h : c.Screen) (hg : c'.geometry = c.geometry) : c'.Screen := by
  have hs := h.toSized.congr hg
  simp only [Ctx.geometry, Geometry.mk.injEq] at hg
  obtain ⟨hW, hH, hP, hsize, -, -, -, -, hw, hh, -, hf, -⟩ := hg
  refine ⟨hs, ?_, ?_, ?_, ?_, ?_⟩
  · rw [hW, hw]; exact h.columns
  · rw [hH, hh, hf]; exact h.lines
  · rw [hsize, hP, hH]; exact h.bytes
  · rw [hW, hP]; exact h.pitch
  · rw [hsize]; exact h.size_lt

/-- The address of a cell. -/
def Ctx.cellAddr (c : Ctx) (row col : ℕ) : ℤ := c.PFB (col * FONT_WIDTH) (row * c.fontHeight)

/-- The bytes of a row of text. -/
def Ctx.lineBytes (c : Ctx) : ℕ := c.Pitch * c.fontHeight

/-! ## Addresses -/

/-- A run of bytes in a line above `H` ends before the line `H`. -/
theorem line_end_le {y x n P H : ℤ} (hP : 0 ≤ P) (hy : y + 1 ≤ H) (hx : x + n ≤ P) :
    y * P + x + n ≤ P * H := by
  have hlines : (y + 1) * P ≤ H * P := mul_le_mul_of_nonneg_right hy hP
  linarith [mul_comm P H]

/-- The step between the rows of a cell rounds the pitch down to words. -/
theorem Ctx.rowStep_eq (c : Ctx) : c.rowStep = 4 * (c.Pitch / 4 : ℕ) := by
  rw [rowStep]; push_cast; ring

theorem Ctx.rowStep_bounds (c : Ctx) : 0 ≤ c.rowStep ∧ c.rowStep ≤ c.Pitch := by
  rw [c.rowStep_eq]; omega

/-- When the pitch is a number of words, the step is the pitch. -/
theorem Ctx.rowStep_of_words {c : Ctx} (h : c.Pitch % 4 = 0) : c.rowStep = c.Pitch := by
  rw [c.rowStep_eq]; omega

/-- Line `i` of row `r` is one of the lines of `n` rows of height `f`. -/
theorem line_of_cell {n f r i : ℕ} (hr : r < n) (hi : i < f) : r * f + i + 1 ≤ n * f := by
  have hrow : (r + 1) * f ≤ n * f := Nat.mul_le_mul_right _ hr
  rw [Nat.add_mul] at hrow
  omega

namespace Ctx.Screen

variable {c : Ctx} (h : c.Screen)
include h

/-- Eight bytes of a line of a cell lie in the text area. -/
theorem cell_bounds {row col i : ℕ} (hr : row < c.HEIGHT) (hc : col < c.WIDTH) (hi : i < c.fontHeight) :
    c.pfb ≤ c.cellAddr row col + (i : ℕ) * c.rowStep ∧
      c.cellAddr row col + (i : ℕ) * c.rowStep + 8 ≤ c.pfb + c.size := by
  have hline : row * c.fontHeight + i + 1 ≤ c.H := h.lines ▸ line_of_cell hr hi
  have hw : FONT_WIDTH = 8 := rfl
  have hwidth := h.columns; have hpitch := h.pitch
  have hx : (col : ℤ) * 8 + 8 ≤ c.Pitch := by omega
  have hstep := c.rowStep_bounds
  have hbelow : 0 ≤ (i : ℤ) * c.rowStep := mul_nonneg (by omega) hstep.1
  have habove : (i : ℤ) * c.rowStep ≤ i * c.Pitch := mul_le_mul_of_nonneg_left hstep.2 (by omega)
  have hend := line_end_le (P := (c.Pitch : ℤ)) (y := (row * c.fontHeight + i : ℕ)) (H := (c.H : ℤ))
    (by omega) (by omega) hx
  have hpos : (0 : ℤ) ≤ (row * c.fontHeight : ℕ) * c.Pitch := by positivity
  rw [cellAddr, PFB, h.bytes, hw]
  push_cast at hend hpos ⊢
  constructor
  · linarith [mul_nonneg (Int.natCast_nonneg col) (by norm_num : (0 : ℤ) ≤ 8)]
  · linarith [add_mul ((row : ℤ) * c.fontHeight) i c.Pitch]

/-- The rows of text divide the text area. -/
theorem size_eq : c.size = c.lineBytes * c.HEIGHT := by
  rw [h.bytes, h.lines, lineBytes]; ring

/-- The rows from `row` on begin inside the text area. -/
theorem lineBytes_mul_le {r : ℕ} (hr : r ≤ c.HEIGHT) : c.lineBytes * r ≤ c.size := by
  rw [h.size_eq]; exact Nat.mul_le_mul_left _ hr

theorem u32_lineBytes_mul {r : ℕ} (hr : r ≤ c.HEIGHT) :
    u32 (c.Pitch * c.fontHeight * r : ℤ) = c.lineBytes * r := by
  have hle := h.lineBytes_mul_le hr
  have hlt := h.size_lt
  have := u32_natCast (n := c.lineBytes * r) (by omega)
  rw [← this, lineBytes]
  push_cast
  rfl

theorem u32_lineBytes : u32 (c.Pitch * c.fontHeight : ℤ) = c.lineBytes := by
  have := h.u32_lineBytes_mul (r := 1) h.rows
  simpa using this

end Ctx.Screen

/-! ## Colours -/

theorem byteOf_mkcol32 (v : GfxCol) (k : ℕ) (hk : k < 4) : byteOf k (mkcol32 v) = v := by
  apply BitVec.eq_of_getLsbD_eq
  intro i hi
  have hout : ∀ j, 8 ≤ j → v.getLsbD j = false := fun j hj => BitVec.getLsbD_of_ge v j hj
  have hlow : i < 32 := by omega
  simp only [byteOf, mkcol32, BitVec.getLsbD_extractLsb', BitVec.getLsbD_or, BitVec.getLsbD_shiftLeft,
    BitVec.getLsbD_setWidth]
  -- the four copies of the colour lie beside each other
  interval_cases k
  · simp [hi, hlow, show i < 16 by omega, show i < 24 by omega]
  · simp [hi, hlow, show 8 + i < 32 by omega, show 8 + i < 16 by omega, show 8 + i < 24 by omega]
  · rw [hout (8 * 2 + i) (by omega), hout (8 * 2 + i - 8) (by omega)]
    simp [hi, hlow, show 16 + i < 32 by omega, show 16 + i < 24 by omega]
  · rw [hout (8 * 3 + i) (by omega), hout (8 * 3 + i - 8) (by omega), hout (8 * 3 + i - 16) (by omega)]
    simp [hi, hlow, show 24 + i < 32 by omega]

theorem Ctx.byteOf_getBg32 (c : Ctx) (k : ℕ) (hk : k < 4) : byteOf k c.getBg32 = c.getBg := by
  rw [getBg32, getBg]; split <;> exact byteOf_mkcol32 _ k hk

theorem Ctx.byteOf_getFg32 (c : Ctx) (k : ℕ) (hk : k < 4) : byteOf k c.getFg32 = c.getFg := by
  rw [getFg32, getFg]; split <;> exact byteOf_mkcol32 _ k hk

/-! ## Transfers -/

section Transfer
variable (c : Ctx) {x y width height : ℕ}

/-- A linear transfer from a word. -/
theorem run_word (w : Word) (dst : ℤ) (len stride : ℕ) (m : Bus) :
    (DmaOp.mk (.word w) dst len stride DMA_TI_DEST_INC).run m = blockFill len dst w m := by
  have hmode : (DMA_TI_DEST_INC &&& DMA_TI_2DMODE : ℕ) = 0 := by decide
  simp only [DmaOp.run, hmode, if_true]

/-- A linear transfer from memory. -/
theorem run_memory (src dst : ℤ) (len stride : ℕ) (m : Bus) :
    (DmaOp.mk (.memory src) dst len stride (DMA_TI_SRC_INC ||| DMA_TI_DEST_INC)).run m =
      blockCopy len src dst m := by
  have hmode : ((DMA_TI_SRC_INC ||| DMA_TI_DEST_INC) &&& DMA_TI_SRC_INC : ℕ) ≠ 0 := by decide
  simp only [DmaOp.run, hmode, if_false]

/-- The two halves of a transfer length. -/
theorem halves {a b : ℕ} (hb : b < 2 ^ 16) : (a <<< 16 ||| b) >>> 16 = a ∧ (a <<< 16 ||| b) &&& 0xFFFF = b := by
  rw [← Nat.shiftLeft_add_eq_or_of_lt hb, Nat.shiftLeft_eq, Nat.shiftRight_eq_div_pow,
    Nat.and_two_pow_sub_one_eq_mod _ 16]
  omega

theorem bmod_of_lt {n : ℕ} (hn : n < 2 ^ 15) : (n : ℤ).bmod (2 ^ 16) = n := by
  rw [Int.bmod_def]
  split <;> omega

/-- The stride is the upper half of its word, with a sign. -/
theorem dStride_of_shiftLeft {op : DmaOp} {n : ℕ} (h : op.stride = n <<< 16) :
    op.dStride = (n : ℤ).bmod (2 ^ 16) := by
  unfold DmaOp.dStride
  rw [h, Nat.shiftLeft_shiftRight]

/-- A rectangle as a transfer, with the stride that the field holds. -/
theorem gfxFillRectDma_run_dStride (hh : 0 < height) (hh' : height ≤ 2 ^ 14) (hw : width < 2 ^ 16) (m : Bus) :
    (gfxFillRectDma c x y width height).run m =
      blockFill2d height width (gfxFillRectDma c x y width height).dStride (c.PFB x y) c.getFg32 m := by
  have hheight : u32 ((height : ℤ) - 1) = height - 1 := by
    rw [u32_of_nonneg (by omega) (by omega)]; omega
  have hlen : (width &&& 0xFFFF) = width := by
    rw [Nat.and_two_pow_sub_one_eq_mod _ 16]; omega
  have hrows : (height - 1) &&& 0xFFFF = height - 1 := by
    rw [Nat.and_two_pow_sub_one_eq_mod _ 16]; omega
  have hx : (gfxFillRectDma c x y width height).xLength = width := by
    simp only [DmaOp.xLength, gfxFillRectDma, hheight, hlen, hrows]
    exact (halves hw).2
  have hy : (gfxFillRectDma c x y width height).yLength = height - 1 := by
    simp only [DmaOp.yLength, gfxFillRectDma, hheight, hlen, hrows]
    rw [(halves hw).1, Nat.and_two_pow_sub_one_eq_mod _ 14]
    omega
  have hrun : (gfxFillRectDma c x y width height).run m =
      blockFill2d ((gfxFillRectDma c x y width height).yLength + 1)
        (gfxFillRectDma c x y width height).xLength (gfxFillRectDma c x y width height).dStride
        (c.PFB x y) c.getFg32 m := by
    have hmode : ¬(gfxFillRectDma c x y width height).TRANSFER_INFO &&& DMA_TI_2DMODE = 0 := by
      change ¬(18 &&& 2 : ℕ) = 0
      decide
    rw [DmaOp.run]
    exact if_neg hmode
  rw [hrun, hx, hy, Nat.sub_add_cancel hh]

/-- The field of the stride has sixteen bits, the upper half of which are negative. -/
theorem dStride_gfxFillRectDma (hp : width ≤ c.Pitch) (hs : c.Pitch < width + 2 ^ 16) :
    (gfxFillRectDma c x y width height).dStride = ((c.Pitch - width : ℕ) : ℤ).bmod (2 ^ 16) := by
  have hstep : u32 ((c.Pitch : ℤ) - width) = c.Pitch - width := by
    rw [u32_of_nonneg (by omega) (by omega)]; omega
  have hmask : (c.Pitch - width) &&& 0xFFFF = c.Pitch - width := by
    rw [Nat.and_two_pow_sub_one_eq_mod _ 16]; omega
  refine dStride_of_shiftLeft ?_
  simp only [gfxFillRectDma, hstep, hmask]

/-- **A rectangle as a transfer.**  As long as the lengths and the stride fit their
fields, the engine fills the rectangle. -/
theorem gfxFillRectDma_run (hh : 0 < height) (hh' : height ≤ 2 ^ 14) (hw : width < 2 ^ 16)
    (hp : width ≤ c.Pitch) (hs : c.Pitch < width + 2 ^ 15) (m : Bus) :
    (gfxFillRectDma c x y width height).run m =
      blockFill2d height width (c.Pitch - width) (c.PFB x y) c.getFg32 m := by
  rw [gfxFillRectDma_run_dStride c hh hh' hw, dStride_gfxFillRectDma c hp (by omega), bmod_of_lt (by omega),
    Nat.cast_sub hp]

end Transfer

/-- What the scroll does, once the row it goes back to is known. -/
theorem scrollLine_eq {g : Gfx} {row : ℕ} (hrow : u32 ((g.ctx.cursorRow : ℤ) - 1) = row) :
    scrollLine g =
      let c := g.ctx.setCursor row g.ctx.cursorCol
      let p := gfxTermRenderCursorNewlineDma c (gfxRestoreCursorContent g.ctx g.pix)
      { g with
        ctx := c
        pix := { p.1 with
          bus := dmaExecuteQueue (gfxScrollDownDma c c.fontHeight ++ p.2) p.1.bus } } := by
  subst hrow
  rfl

end Pigfx
