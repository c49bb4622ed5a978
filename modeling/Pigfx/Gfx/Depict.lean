import Pigfx.Gfx.Hidden
import Pigfx.Gfx.Picture

/-!
# Operations on the picture of a grid

A context and a memory depict a grid when they agree in the cursor, the style and the
saved cursor, and the memory shows the cells.  Each operation of the terminal takes a
picture of a grid to the picture of another one, and the fix-ups at the end of a byte are
what the grid does at the end of a row and below its last row.

## Main definitions

* `Ctx.Aligned` — the screens on which pixels are where they seem to be.
* `Pictured`, `Depicts` — a grid in memory, without and with its cursor.
* `depicts_` theorems — operations and what they do to the grid.
-/

namespace Pigfx
open Lib

/-- The lines of the screen begin at whole words, and its measures fit the transfer
engine, if that is used. -/
structure Ctx.Aligned (b : Build) (c : Ctx) : Prop where
  words : c.Pitch % 4 = 0
  dma : b.gfxUseDma → c.FitsDma

theorem Ctx.Aligned.congr {b : Build} {c c' : Ctx} (ha : c.Aligned b) (hg : c'.geometry = c.geometry) :
    c'.Aligned b := by
  have hP : c'.Pitch = c.Pitch := congrArg Geometry.Pitch hg
  have hH : c'.H = c.H := congrArg Geometry.H hg
  refine ⟨by rw [hP]; exact ha.words, fun hb => ⟨?_, ?_⟩⟩
  · rw [hP]; exact (ha.dma hb).stride
  · rw [hH]; exact (ha.dma hb).rows

/-- The memory shows the cells of the grid, wherever the cursor is. -/
structure Pictured {m n : ℕ} (G : Grid m n) (c : Ctx) (d : ℤ → Byte) : Prop extends c.Screen where
  sameRows : c.HEIGHT = m
  sameCols : c.WIDTH = n
  saved : c.savedCursor = G.saved
  style : c.style = G.style
  shows : c.Shows G.cell d

/-- Context and memory depict the grid. -/
structure Depicts {m n : ℕ} (G : Grid m n) (c : Ctx) (d : ℤ → Byte) : Prop
    extends Pictured G c d where
  row : c.cursorRow = G.row
  col : c.cursorCol = G.col

/-- After some operations context and memory depict the grid. -/
def Reaches (b : Build) {m n : ℕ} (ops : List TextOp) (c : Ctx) (d : ℤ → Byte) (G : Grid m n) : Prop :=
  Depicts G (ops.foldl TextOp.ctx c) (paintOps b ops c d)

theorem paintOps_append (b : Build) (xs ys : List TextOp) (c : Ctx) (d : ℤ → Byte) :
    paintOps b (xs ++ ys) c d = paintOps b ys (xs.foldl TextOp.ctx c) (paintOps b xs c d) := by
  induction xs generalizing c d with
  | nil => rfl
  | cons op xs ih => exact ih (op.ctx c) (op.paint b c d)

section Depict
variable {b : Build} {m n : ℕ} {G : Grid m n} {c : Ctx} {d : ℤ → Byte}

theorem Ctx.Aligned.rowStep (ha : c.Aligned b) (hs : c.Screen) : c.rowStep = c.Pitch ∧ 8 ≤ c.rowStep := by
  have hpitch := hs.pitch; have hcolumns := hs.columns; have hcols := hs.cols
  rw [Ctx.rowStep_of_words ha.words]
  exact ⟨rfl, by omega⟩

/-- The bytes of a row of text are a number of words. -/
theorem Ctx.Aligned.lineWords (ha : c.Aligned b) : c.lineBytes % 4 = 0 := by
  rw [Ctx.lineBytes, Nat.mul_mod, ha.words, zero_mul, Nat.zero_mod]

/-- No cursor motion leaves the range of an `int`. -/
theorem Ctx.Screen.int_range (h : c.Screen) : c.HEIGHT < 2 ^ 30 ∧ c.WIDTH < 2 ^ 30 := by
  have hcolumns := h.columns; have hcols := h.cols; have hwidth := h.width
  have hpitch := h.pitch; have hsize := h.size_lt; have hfont := h.font
  have hrows : c.HEIGHT ≤ c.H := by
    rw [h.lines]; exact Nat.le_mul_of_pos_right _ hfont
  have hbytes : 8 * c.H ≤ c.size := by
    rw [h.bytes]; exact Nat.mul_le_mul_right _ (by omega)
  omega

theorem Depicts.inRange (h : Depicts G c d) : c.InRange :=
  ⟨by rw [h.row, h.sameRows]; exact G.row_lt, by rw [h.col, h.sameCols]; exact G.col_lt⟩

/-- The same cells in another way. -/
theorem Depicts.recell (h : Depicts G c d) {f : ℕ → ℕ → Cell}
    (hcell : ∀ r < m, ∀ k < n, G.cell r k = f r k) : Depicts { G with cell := f } c d := by
  refine ⟨⟨h.toScreen, h.sameRows, h.sameCols, h.saved, h.style, ?_⟩, h.row, h.col⟩
  exact h.shows.congr fun r hr k hk => hcell r (h.sameRows ▸ hr) k (h.sameCols ▸ hk)

/-- Other cells in the memory. -/
theorem Depicts.repaint (h : Depicts G c d) {d' : ℤ → Byte} {cell : ℕ → ℕ → Cell}
    (hshows : c.Shows cell d') : Depicts { G with cell := cell } c d' :=
  ⟨⟨h.toScreen, h.sameRows, h.sameCols, h.saved, h.style, hshows⟩, h.row, h.col⟩

/-! ## The cursor -/

/-- The cursor goes somewhere. -/
theorem Pictured.setCursor (h : Pictured G c d) (G' : Grid m n) (hcell : G'.cell = G.cell)
    (hsaved : G'.saved = G.saved) (hstyle : G'.style = G.style) :
    Depicts G' (c.setCursor G'.row G'.col) d := by
  refine ⟨⟨h.toScreen.congr rfl, h.sameRows, h.sameCols, ?_, ?_, ?_⟩, rfl, rfl⟩
  · rw [hsaved]; exact h.saved
  · rw [hstyle]; exact h.style
  · rw [hcell]; exact h.shows.congr_ctx rfl

/-- A move that the grid does not have to cut off. -/
theorem depicts_move (h : Depicts G c d) {r k i j : ℕ} (hr : i = min r (m - 1)) (hk : j = min k (n - 1)) :
    Reaches b [.move i j] c d (G.moveTo r k) := by
  subst hr hk
  exact h.toPictured.setCursor _ rfl rfl rfl

/-- `gfx_term_move_cursor` -/
theorem depicts_moveOp (h : Depicts G c d) {row col : ℤ} {r k : ℕ}
    (hr : min (m - 1) row.toNat = min r (m - 1)) (hk : min (n - 1) col.toNat = min k (n - 1)) :
    Reaches b [c.moveOp row col] c d (G.moveTo r k) := by
  have hrow : (c.moveCursor row col).cursorRow = min r (m - 1) := by
    rw [← hr, ← h.sameRows]
    change min (u32 ((c.HEIGHT : ℤ) - 1)) (if 0 < row then row.toNat else 0) = _
    rw [h.u32_lastRow]
    split <;> omega
  have hcol : (c.moveCursor row col).cursorCol = min k (n - 1) := by
    rw [← hk, ← h.sameCols]
    change min (u32 ((c.WIDTH : ℤ) - 1)) (if 0 < col then col.toNat else 0) = _
    rw [h.u32_lastCol]
    split <;> omega
  exact depicts_move h hrow hcol

/-! ## Erasing -/

/-- Erasing a rectangle of cells. -/
theorem depicts_erase (ha : c.Aligned b) (h : Depicts G c d) {p : ℕ → ℕ → Prop} [∀ r k, Decidable (p r k)]
    (row col rows cols width : ℕ) (hrow : row + rows ≤ m) (hrows : 0 < rows) (hcol : col < n) (hw : 8 ≤ width)
    (hw' : width ≤ c.W) (hcols : min width (c.W - col * 8) = cols * 8)
    (hp : ∀ r < m, ∀ k < n, p r k ↔ (col ≤ k ∧ k < col + cols) ∧ row ≤ r ∧ r < row + rows) :
    Reaches b [.erase (col * FONT_WIDTH) (row * c.fontHeight) width (rows * c.fontHeight)] c d
      (G.erase p G.style.bg) := by
  have hcolumns := h.columns; have hfont := h.font; have hlines := h.lines
  have hm := h.sameRows; have hn := h.sameCols
  have hheight : row * c.fontHeight + rows * c.fontHeight ≤ c.H := by
    rw [hlines, ← Nat.add_mul, hm]; exact Nat.mul_le_mul_right _ hrow
  have hpaint := paints_gfxClearRect b h.toSized h.pitch (x := col * 8) (y := row * c.fontHeight) (by omega) hw
    hw' (Nat.mul_pos hrows hfont) hheight (fun hb => ⟨(ha.dma hb).stride, by
      have := (ha.dma hb).rows; omega⟩) ⟨d, []⟩
  rw [hcols] at hpaint
  have hbg : G.style.bg = c.bg := by rw [← h.style]; rfl
  have hshows := h.shows.paint h.toScreen _ _ hpaint (by omega) (fun _ _ => .blank c.bg)
    fun _ _ _ _ _ _ _ _ _ _ => rfl
  refine h.repaint (hshows.congr fun r hr k hk => ?_)
  rw [hbg]
  exact if_congr (hp r (hm ▸ hr) k (hn ▸ hk)).symm rfl rfl

/-- Clearing the screen. -/
theorem depicts_clear (h : Depicts G c d) :
    Reaches b [.clear] c d (G.erase (fun _ _ => True) G.style.paper) := by
  have hpaper : G.style.paper = c.getBg := by rw [← h.style]; rfl
  rw [hpaper]
  exact h.repaint (Ctx.Shows.clear h.toScreen (paints_gfxClear b 0 ⟨d, []⟩))

/-! ## Lines -/

theorem depicts_delete (ha : c.Aligned b) (h : Depicts G c d) {k : ℕ} (hk : k ≤ m - G.row) :
    Reaches b [.delete k] c d (G.deleteRows G.row k) := by
  have hn : c.cursorRow + k ≤ c.HEIGHT := by
    have := G.row_lt
    rw [h.row, h.sameRows]
    omega
  have hpaper : G.style.paper = c.getBg := by rw [← h.style]; rfl
  have hshows := h.shows.deleteRows h.toScreen hn (slides_gfxDeleteLines h.toScreen ha.lineWords hn ⟨d, []⟩)
  change c.Shows _ ((TextOp.delete k).paint b c d) at hshows
  rw [h.row, h.sameRows, ← hpaper] at hshows
  exact h.repaint hshows

theorem depicts_insert (ha : c.Aligned b) (h : Depicts G c d) {k : ℕ} (hk : k ≤ m - G.row) :
    Reaches b [.insert k] c d (G.insertRows G.row k) := by
  have hn : c.cursorRow + k ≤ c.HEIGHT := by
    have := G.row_lt
    rw [h.row, h.sameRows]
    omega
  have hpaper : G.style.paper = c.getBg := by rw [← h.style]; rfl
  have hshows := h.shows.insertRows h.toScreen hn (slides_gfxInsertLines h.toScreen ha.lineWords hn ⟨d, []⟩)
  change c.Shows _ ((TextOp.insert k).paint b c d) at hshows
  rw [h.row, ← hpaper] at hshows
  exact h.repaint hshows

/-! ## The end of a row and the last row -/

/-- A cursor that may be below the last row scrolls the grid there. -/
theorem depicts_scrollOps (h : Pictured G c d) (hrow : c.cursorRow = G.row + 1) (hcol : c.cursorCol = G.col) :
    Reaches b (scrollOps c) c d G.lineFeed := by
  have hm := h.sameRows
  by_cases hlast : G.row + 1 < m
  · have hops : scrollOps c = [] := by rw [scrollOps, if_neg (by omega)]
    rw [Reaches, hops, Grid.lineFeed, dif_pos hlast]
    exact ⟨⟨h.toScreen, h.sameRows, h.sameCols, h.saved, h.style, h.shows⟩, hrow, hcol⟩
  · have hlt := G.row_lt
    have hops : scrollOps c = [.scroll] := by rw [scrollOps, if_pos (by omega)]
    have hback : u32 ((c.cursorRow : ℤ) - 1) = G.row := by
      have hH : c.cursorRow = c.HEIGHT := by omega
      rw [hH, h.u32_lastRow]
      omega
    have hslide := slides_gfxScrollDownDma h.toScreen ⟨d, []⟩
    have hrows : 0 + 1 ≤ c.HEIGHT := h.rows
    have hshows := h.shows.deleteRows h.toScreen hrows (by simpa using hslide)
    have hpaper : G.style.paper = c.getBg := by rw [← h.style]; rfl
    rw [hm, ← hpaper] at hshows
    have hctx : TextOp.ctx c .scroll = c.setCursor G.row G.col := by
      rw [← hback, ← hcol]; rfl
    rw [Reaches, hops, Grid.lineFeed, dif_neg hlast]
    change Depicts _ (TextOp.ctx c .scroll) _
    rw [hctx]
    have hdeleted : Pictured (G.deleteRows 0 1) c (TextOp.scroll.paint b c d) :=
      ⟨h.toScreen, h.sameRows, h.sameCols, h.saved, h.style, hshows⟩
    exact hdeleted.setCursor (G.deleteRows 0 1) rfl rfl rfl

/-- Inside the grid there is nothing to bring back. -/
theorem fixupOps_of_inRange (h : c.InRange) : fixupOps c = [] := by
  have hrow := h.row; have hcol := h.col
  have hwrap : wrapOps c = [] := by rw [wrapOps, if_neg (by omega)]
  rw [fixupOps, hwrap, List.foldl_nil, scrollOps, if_neg (by omega), List.append_nil]

/-- A cursor that may be behind the last column goes on as that of the grid does. -/
theorem depicts_fixupOps (h : Pictured G c d) (hrow : c.cursorRow = G.row) (hcol : c.cursorCol = G.col + 1) :
    Reaches b (fixupOps c) c d G.advance := by
  have hm := h.sameRows; have hn := h.sameCols; have hlt := G.row_lt
  by_cases hend : G.col + 1 < n
  · have hops := fixupOps_of_inRange (c := c) ⟨by omega, by omega⟩
    rw [Reaches, hops, Grid.advance, dif_pos hend]
    exact ⟨⟨h.toScreen, h.sameRows, h.sameCols, h.saved, h.style, h.shows⟩, hrow, hcol⟩
  · have hops : wrapOps c = [.move (G.row + 1) 0] := by rw [wrapOps, if_pos (by omega), hrow]
    have hwrapped : Pictured { G with col := 0, col_lt := Nat.zero_lt_of_lt G.col_lt }
        (c.setCursor (G.row + 1) 0) d :=
      ⟨h.toScreen.congr rfl, h.sameRows, h.sameCols, h.saved, h.style, h.shows.congr_ctx rfl⟩
    have hscroll := depicts_scrollOps (b := b) hwrapped rfl rfl
    rw [Reaches, fixupOps, hops, Grid.advance, dif_neg hend]
    exact hscroll

/-! ## Bytes -/

/-- The operations of a byte that leaves the cursor inside the grid. -/
theorem depicts_textOps {ch : Byte} {st : ScnState} (h : Reaches b (actionOps b ch st c) c d G) :
    Reaches b (textOps b ch st c) c d G := by
  have hops : fixupOps ((TextOp.wait :: actionOps b ch st c).foldl TextOp.ctx c) = [] :=
    fixupOps_of_inRange h.inRange
  rw [Reaches, textOps]
  rw [hops, List.append_nil]
  exact h

/-- A line feed. -/
theorem depicts_lineFeed (h : Depicts G c d) (st : ScnState) :
    Reaches b (textOps b 0x0A st c) c d G.lineFeed := by
  have hacts : TextOp.wait :: actionOps b 0x0A st c = [.wait, .move (c.cursorRow + 1) c.cursorCol] := rfl
  have hcols := h.inRange.col
  have hwrap : wrapOps (c.setCursor (c.cursorRow + 1) c.cursorCol) = [] := by
    rw [wrapOps, if_neg]
    change ¬c.WIDTH ≤ c.cursorCol
    omega
  have hmoved : Pictured G (c.setCursor (c.cursorRow + 1) c.cursorCol) d :=
    ⟨h.toScreen.congr rfl, h.sameRows, h.sameCols, h.saved, h.style, h.shows.congr_ctx rfl⟩
  have hscroll := depicts_scrollOps (b := b) hmoved (by rw [← h.row]; rfl) h.col
  rw [Reaches, textOps]
  rw [hacts, List.foldl_append, paintOps_append]
  change Depicts _ ((fixupOps (c.setCursor (c.cursorRow + 1) c.cursorCol)).foldl TextOp.ctx
    (c.setCursor (c.cursorRow + 1) c.cursorCol)) (paintOps b (fixupOps (c.setCursor (c.cursorRow + 1)
    c.cursorCol)) (c.setCursor (c.cursorRow + 1) c.cursorCol) d)
  rw [fixupOps, hwrap]
  exact hscroll

/-- A character. -/
theorem depicts_print (ha : c.Aligned b) (h : Depicts G c d) {ch : Byte} {st : ScnState} (hn : st.next = .normaltext)
    (hc : isControl ch = false) (hesc : ch ≠ TERM_ESCAPE_CHAR) :
    Reaches b (textOps b ch st c) c d (G.print ch) := by
  obtain ⟨hpitch, hstep⟩ := ha.rowStep h.toScreen
  have hm := h.sameRows; have hw := h.sameCols; have hcol := h.inRange.col
  have hacts : actionOps b ch st c = [.print (G.style.map ch)] := by
    rw [actionOps, hc, scannerOps, hn, ← h.style]
    simp only [Bool.false_eq_true, if_false, if_neg hesc]
    rfl
  -- the character is painted
  have hpaint := paints_gfxPutc (c := c) hstep h.inRange.row h.inRange.col (G.style.map ch) ⟨d, []⟩
  rw [hpitch] at hpaint
  have hshows := h.shows.paint h.toScreen c.cursorRow c.cursorCol (n := 1) (w := 1)
    (by rw [one_mul]; exact hpaint) (by omega) (fun _ _ => .glyph (G.style.map ch) c.style) (by
      intro r hr hr' k hk hk' i hi j hj
      obtain rfl : r = c.cursorRow := by omega
      obtain rfl : k = c.cursorCol := by omega
      rw [Nat.sub_self, Nat.sub_self, zero_mul, zero_mul, zero_add, zero_add]
      exact cellByte_putcWord c _ hi)
  have hcell : ∀ r k, ((c.cursorCol ≤ k ∧ k < c.cursorCol + 1) ∧ c.cursorRow ≤ r ∧ r < c.cursorRow + 1) ↔
      (r = G.row ∧ k = G.col) := by
    intro r k
    rw [h.row, h.col]
    omega
  rw [h.style] at hshows
  simp only [hcell] at hshows
  -- and the cursor goes on
  have hput : Pictured (G.put ch) (c.setCursor G.row (G.col + 1)) ((TextOp.print (G.style.map ch)).paint b c d) :=
    ⟨h.toScreen.congr rfl, h.sameRows, h.sameCols, h.saved, h.style, hshows.congr_ctx rfl⟩
  have hnext : TextOp.ctx c (.print (G.style.map ch)) = c.setCursor G.row (G.col + 1) := by
    have hrange := h.int_range.2
    have hu : u32 ((c.cursorCol : ℤ) + 1) = c.cursorCol + 1 := u32_natCast (n := c.cursorCol + 1) (by omega)
    rw [← h.row, ← h.col, ← hu]
    rfl
  have hfix := depicts_fixupOps (b := b) hput rfl rfl
  rw [Reaches, textOps, hacts, List.foldl_append, paintOps_append]
  change Depicts _ ((fixupOps (TextOp.ctx c (.print (G.style.map ch)))).foldl TextOp.ctx
    (TextOp.ctx c (.print (G.style.map ch)))) (paintOps b (fixupOps (TextOp.ctx c (.print (G.style.map ch))))
    (TextOp.ctx c (.print (G.style.map ch))) ((TextOp.print (G.style.map ch)).paint b c d))
  rw [hnext]
  exact hfix

end Depict

end Pigfx
