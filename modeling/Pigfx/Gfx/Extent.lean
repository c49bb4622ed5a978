import Pigfx.Gfx.Screen

/-!
# Which addresses the drawing touches

Every drawing routine of the text path stays inside the frame buffer when the
cells it is given do.  The word loops of the scrolling routines may run up to three
bytes over the end of the text area when a row of text is not a number of words.

## Main definitions

* `Ctx.Framed` — the text area lies in an interval of addresses.
* `Ctx.CellFits` — a cell, possibly outside the grid, lies there.
* `Ctx.FitsDma` — the fields of a transfer hold the sizes of the screen.
-/

namespace Pigfx
open Lib

/-! ## The frame -/

/-- The text area lies in `[lo, hi)`, with room for the rest of a last word. -/
structure Ctx.Framed (lo hi : ℤ) (c : Ctx) : Prop where
  bottom : lo ≤ c.pfb
  top : c.pfb + c.size ≤ hi
  slack : c.lineBytes % 4 = 0 ∨ c.pfb + c.size + 3 ≤ hi

/-- The cell, which may be outside the grid, lies in `[lo, hi)`. -/
def Ctx.CellFits (lo hi : ℤ) (c : Ctx) (cell : ℕ × ℕ) : Prop :=
  lo ≤ c.cellAddr cell.1 cell.2 ∧
    c.cellAddr cell.1 cell.2 + (c.fontHeight - 1 : ℕ) * c.rowStep + 8 ≤ hi

instance (lo hi : ℤ) (c : Ctx) (cell : ℕ × ℕ) : Decidable (c.CellFits lo hi cell) :=
  inferInstanceAs (Decidable (_ ∧ _))

/-- The row count of a transfer has 14 bits, its stride 15 bits and a sign; the
narrowest rectangle is a cell. -/
structure Ctx.FitsDma (c : Ctx) : Prop where
  stride : c.Pitch < 2 ^ 15 + 8
  rows : c.H ≤ 2 ^ 14

section Extent
variable {b : Build} {c : Ctx} {lo hi : ℤ} {m : Bus}

/-- A cell of the grid lies in the frame. -/
theorem Ctx.Framed.cellFits (F : c.Framed lo hi) (h : c.Screen) {r k : ℕ} (hr : r < c.HEIGHT)
    (hc : k < c.WIDTH) : c.CellFits lo hi (r, k) := by
  have hfont := h.font
  have hfirst := h.cell_bounds hr hc h.font
  have hlast := h.cell_bounds hr hc (i := c.fontHeight - 1) (by omega)
  have hbottom := F.bottom; have htop := F.top
  rw [Nat.cast_zero, zero_mul, add_zero] at hfirst
  exact ⟨le_trans hbottom hfirst.1, le_trans hlast.2 htop⟩

/-- The lines of a cell that fits. -/
theorem Ctx.CellFits.line {cell : ℕ × ℕ} (h : c.CellFits lo hi cell) {i : ℕ} (hi' : i < c.fontHeight) :
    lo ≤ c.cellAddr cell.1 cell.2 + (i : ℕ) * c.rowStep ∧
      c.cellAddr cell.1 cell.2 + (i : ℕ) * c.rowStep + 8 ≤ hi := by
  have hstep := c.rowStep_bounds
  have hbelow : 0 ≤ (i : ℤ) * c.rowStep := mul_nonneg (by omega) hstep.1
  have habove : (i : ℤ) * c.rowStep ≤ (c.fontHeight - 1 : ℕ) * c.rowStep :=
    mul_le_mul_of_nonneg_right (by omega) hstep.1
  obtain ⟨hlo, hhi⟩ := h
  constructor <;> linarith

/-! ## Cells -/

/-- The two words of a line of a cell. -/
theorem contained_put32_pair {a : ℤ} {v w : Word} (H : m.Contained lo hi) (hlo : lo ≤ a)
    (hhi : a + 8 ≤ hi) : ((m.put32 a v).put32 (a + 4) w).Contained lo hi :=
  contained_put32 (contained_put32 H hlo (by omega)) (by omega) (by omega)

theorem contained_gfxPutc (F : c.Framed lo hi) (h : c.Screen) {row col : ℕ} (hr : row < c.HEIGHT)
    (hc : col < c.WIDTH) (ch : Byte) (H : m.Contained lo hi) :
    (gfxPutc c row col ch m).Contained lo hi := by
  have hfit := F.cellFits h hr hc
  rw [gfxPutc, if_neg (by omega), if_neg (by omega)]
  exact contained_iterate H fun i hi' x hx =>
    contained_put32_pair hx (hfit.line hi').1 (hfit.line hi').2

theorem contained_gfxRestoreCursorContent (hfit : c.CellFits lo hi (c.cursorRow, c.cursorCol)) {p : Pix}
    (H : p.bus.Contained lo hi) : (gfxRestoreCursorContent c p).bus.Contained lo hi := by
  exact contained_iterate H fun i hi' x hx =>
    contained_put32_pair hx (hfit.line hi').1 (hfit.line hi').2

theorem contained_invertByte {a : ℤ} (H : m.Contained lo hi) (hlo : lo ≤ a) (hhi : a + 1 ≤ hi) :
    (c.invertByte a m).Contained lo hi :=
  contained_put8 (contained_note H (Or.inr ⟨hlo, hhi⟩)) hlo hhi

theorem contained_renderWord {k : ℕ} {pfb : ℤ} {p : Pix} (H : p.bus.Contained lo hi) (hlo : lo ≤ pfb)
    (hhi : pfb + 4 ≤ hi) : (renderWord c k pfb p).bus.Contained lo hi := by
  have hread : (p.bus.note (.cpuRead pfb 4)).Contained lo hi := contained_note H (Or.inr ⟨hlo, hhi⟩)
  simp only [renderWord]
  split
  · have h0 := contained_invertByte (c := c) hread hlo (by linarith)
    have h1 := contained_invertByte (c := c) (a := pfb + 1) h0 (by linarith) (by linarith)
    have h2 := contained_invertByte (c := c) (a := pfb + 2) h1 (by linarith) (by linarith)
    exact contained_invertByte h2 (by linarith) (by linarith)
  · exact hread

theorem contained_gfxTermRenderCursor (hfit : c.CellFits lo hi (c.cursorRow, c.cursorCol)) {p : Pix}
    (H : p.bus.Contained lo hi) : (gfxTermRenderCursor c p).bus.Contained lo hi := by
  refine iterate_induction _ _ _ (fun _ (p : Pix) => p.bus.Contained lo hi) ?_ ?_
  · exact contained_note H trivial
  · intro i p hi' hp
    have hline : lo ≤ c.cursorAddr + (i : ℕ) * c.rowStep ∧ c.cursorAddr + (i : ℕ) * c.rowStep + 8 ≤ hi :=
      hfit.line hi'
    exact contained_renderWord (contained_renderWord hp hline.1 (by omega)) (by omega) (by omega)

/-! ## Transfers -/

theorem contained_dmaExecuteQueue {ops : List DmaOp}
    (hops : ∀ op ∈ ops, ∀ x : Bus, x.Contained lo hi → (op.run x).Contained lo hi)
    (H : m.Contained lo hi) : (dmaExecuteQueue ops m).Contained lo hi := by
  have hsetup : ∀ (l : List DmaOp) (x : Bus), x.Contained lo hi →
      (l.foldl (fun m _ => m.note .dmaSetup) x).Contained lo hi := by
    intro l
    induction l with
    | nil => exact fun _ hx => hx
    | cons _ l ih => exact fun _ hx => ih _ (contained_note hx trivial)
  have hrun : ∀ x : Bus, x.Contained lo hi → (ops.foldl (fun m op => op.run m) x).Contained lo hi := by
    induction ops with
    | nil => exact fun _ hx => hx
    | cons op ops ih =>
        intro x hx
        exact ih (fun op' h => hops op' (List.mem_cons_of_mem _ h)) _ (hops op List.mem_cons_self x hx)
  exact hrun _ (contained_note (hsetup ops m H) trivial)

/-- A rectangle of the text area, in bytes. -/
theorem rect_bounds (F : c.Framed lo hi) (h : c.Screen) {x y width height i : ℕ} (hx : x + width ≤ c.W)
    (hy : y + height ≤ c.H) (hi' : i < height) :
    lo ≤ c.PFB x y + (i : ℕ) * c.Pitch ∧ c.PFB x y + (i : ℕ) * c.Pitch + width ≤ hi := by
  have hpitch := h.pitch
  have hend := line_end_le (P := (c.Pitch : ℤ)) (y := (y + i : ℕ)) (x := (x : ℤ)) (n := (width : ℤ))
    (H := (c.H : ℤ)) (by omega) (by omega) (by omega)
  have hpos : (0 : ℤ) ≤ (y + i : ℕ) * c.Pitch := by positivity
  have hbottom := F.bottom; have htop := F.top
  rw [h.bytes] at htop
  rw [Ctx.PFB]
  push_cast at hend hpos htop ⊢
  constructor <;> linarith [add_mul (y : ℤ) i c.Pitch]

/-- The cursor of the new line is painted by a transfer. -/
theorem contained_gfxFillRectDma (F : c.Framed lo hi) (h : c.Screen) (hd : c.FitsDma)
    {x y width height : ℕ} (hx : x + width ≤ c.W) (hw : 8 ≤ width) (hh : 0 < height)
    (hy : y + height ≤ c.H) (H : m.Contained lo hi) :
    ((gfxFillRectDma c x y width height).run m).Contained lo hi := by
  have hpitch := h.pitch; have hstride := hd.stride; have hrows := hd.rows
  rw [gfxFillRectDma_run c hh (by omega) (by omega) (by omega) (by omega)]
  refine contained_blockFill2d H fun i hi' => ?_
  have hb := rect_bounds F h hx hy hi'
  rwa [show (width : ℤ) + (c.Pitch - width) = c.Pitch by ring]

/-- A rectangle that begins in the text area is clipped at its edges. -/
theorem gfxFillRect_clipped {x y width height : ℕ} (hx : x < c.W) (hy : y < c.H) (hxw : x + width < 2 ^ 32)
    (hyh : y + height < 2 ^ 32) (m : Bus) :
    gfxFillRect b c x y width height m =
      if b.gfxUseDma then
        dmaExecuteQueue [gfxFillRectDma c x y (min width (c.W - x)) (min height (c.H - y))] m
      else iterate (min height (c.H - y))
        (fun i => fillBytes (min width (c.W - x)) (c.PFB x (y + i)) c.getFg) m := by
  have hsum : u32 ((x : ℤ) + width) = x + width := u32_natCast (n := x + width) hxw
  have hsum' : u32 ((y : ℤ) + height) = y + height := u32_natCast (n := y + height) hyh
  have hclip : (if c.W < x + width then c.W - x else width) = min width (c.W - x) := by
    split <;> omega
  have hclip' : (if c.H < y + height then c.H - y else height) = min height (c.H - y) := by
    split <;> omega
  simp only [gfxFillRect]
  rw [if_neg (by omega), hsum, hsum', hclip, hclip']

/-- A rectangle that begins in the text area and is no wider than it. -/
theorem gfxFillRect_eq (h : c.Sized) {x y width height : ℕ} (hx : x < c.W) (hw' : width ≤ c.W)
    (hh : 0 < height) (hy : y + height ≤ c.H) (m : Bus) :
    gfxFillRect b c x y width height m =
      if b.gfxUseDma then dmaExecuteQueue [gfxFillRectDma c x y (min width (c.W - x)) height] m
      else iterate height (fun i => fillBytes (min width (c.W - x)) (c.PFB x (y + i)) c.getFg) m := by
  have hW := h.width; have hH := h.height
  rw [gfxFillRect_clipped hx (by omega) (by omega) (by omega), min_eq_left (by omega : height ≤ c.H - y)]

theorem contained_gfxFillRect (F : c.Framed lo hi) (h : c.Screen) (hd : c.FitsDma)
    {x y width height : ℕ} (hx : x + 8 ≤ c.W) (hw : 8 ≤ width) (hw' : width ≤ c.W) (hh : 0 < height)
    (hy : y + height ≤ c.H) (H : m.Contained lo hi) :
    (gfxFillRect b c x y width height m).Contained lo hi := by
  have hclip : x + min width (c.W - x) ≤ c.W := by omega
  rw [gfxFillRect_eq h.toSized (by omega) hw' hh hy]
  split
  · refine contained_dmaExecuteQueue (fun op hop x hx => ?_) H
    rw [List.mem_singleton.mp hop]
    exact contained_gfxFillRectDma F h hd hclip (by omega) hh hy hx
  · refine contained_iterate H fun i hi' m hm => ?_
    have hb := rect_bounds F h hclip hy hi'
    have haddr : c.PFB x (y + i) = c.PFB x y + (i : ℕ) * c.Pitch := by rw [Ctx.PFB, Ctx.PFB]; ring
    rw [haddr]
    exact contained_fillBytes hm hb.1 hb.2

theorem contained_gfxClearRect (F : c.Framed lo hi) (h : c.Screen) (hd : c.FitsDma)
    {x y width height : ℕ} (hx : x + 8 ≤ c.W) (hw : 8 ≤ width) (hw' : width ≤ c.W) (hh : 0 < height)
    (hy : y + height ≤ c.H) (H : m.Contained lo hi) :
    (gfxClearRect b c x y width height m).Contained lo hi :=
  contained_gfxFillRect (c := { c with fg := c.bg }) ⟨F.bottom, F.top, F.slack⟩ (h.congr rfl)
    ⟨hd.stride, hd.rows⟩ hx hw hw' hh hy H

theorem contained_gfxClear (hF : c.size = 0 ∨ lo ≤ c.pfb ∧ c.pfb + c.size ≤ hi)
    (H : m.Contained lo hi) : (gfxClear b c m).Contained lo hi := by
  rw [gfxClear]
  split
  · refine contained_dmaExecuteQueue (fun op hop x hx => ?_) H
    rw [List.mem_singleton.mp hop, run_word]
    exact contained_blockFill hx hF
  · rcases hF with h0 | ⟨hlo, hhi⟩
    · rw [h0]; exact H
    · exact contained_fillBytes H hlo hhi

/-! ## Moving lines -/

/-- Words are copied down to `dst` until the source reaches `e`, and the rest up to
`e` is filled. -/
theorem contained_slideDown {src dst e : ℤ} {w : Word} (hlo : lo ≤ dst) (hds : dst ≤ src) (hse : src ≤ e)
    (he : e ≤ hi) (hslack : (e - src) % 4 = 0 ∧ (e - dst) % 4 = 0 ∨ e + 3 ≤ hi)
    (H : m.Contained lo hi) :
    (fillWords (tripsUp (dst + 4 * tripsUp src e) e) (dst + 4 * tripsUp src e) w
      (copyUp (tripsUp src e) src dst m)).Contained lo hi := by
  have hn : src + 4 * tripsUp src e ≤ hi := by unfold tripsUp; omega
  have hfill : dst + 4 * tripsUp src e + 4 * tripsUp (dst + 4 * tripsUp src e) e ≤ hi := by
    unfold tripsUp at hn ⊢; omega
  exact contained_fillWords (contained_copyUp H (by omega) hn hlo (by omega)) (by omega) hfill

/-- The rows from `row + n` on go to `row`. -/
theorem contained_gfxDeleteLines (F : c.Framed lo hi) (h : c.Screen) {row n : ℕ}
    (hn : row + n ≤ c.HEIGHT) (H : m.Contained lo hi) : (gfxDeleteLines c row n m).Contained lo hi := by
  have hH := h.height_lt
  have hsum : u32 ((row : ℤ) + n) = row + n := u32_natCast (n := row + n) (by omega)
  have hle : row ≤ row + n := Nat.le_add_right _ _
  generalize row + n = src at hn hsum hle
  have hsrc := h.u32_lineBytes_mul hn
  have hdst := h.u32_lineBytes_mul (hle.trans hn)
  have hsrc' := h.lineBytes_mul_le hn
  have hle' : c.lineBytes * row ≤ c.lineBytes * src := Nat.mul_le_mul_left _ hle
  have hbottom := F.bottom; have htop := F.top
  have hwords : c.lineBytes % 4 = 0 → ∀ k, (c.lineBytes * k) % 4 = 0 := fun h4 k => by
    rw [Nat.mul_mod, h4]; omega
  simp only [gfxDeleteLines, hsum, hsrc, hdst]
  refine contained_slideDown (by omega) (by omega) (by omega) htop ?_ H
  rcases F.slack with h4 | h3
  · left
    have h1 := hwords h4 row; have h2 := hwords h4 src; have h3 := hwords h4 c.HEIGHT
    rw [h.size_eq]
    omega
  · exact Or.inr h3

/-- Words are copied up from `src` to `dst` until the source reaches `e`, and the gap
is filled; `src` and `dst` address the last words. -/
theorem contained_slideUp {src dst e : ℤ} {w : Word} (hlo : lo ≤ e) (he : e ≤ src + 4) (hsd : src ≤ dst)
    (hhi : dst + 4 ≤ hi) (H : m.Contained lo hi) :
    (fillWords (tripsUp (src - 4 * tripsDown src e + 4) (dst - 4 * tripsDown src e + 1))
      (src - 4 * tripsDown src e + 4) w (copyDown (tripsDown src e) src dst m)).Contained lo hi := by
  have hk : e ≤ src - 4 * tripsDown src e + 4 := by unfold tripsDown; omega
  generalize tripsDown src e = k at hk ⊢
  have hfill : src - 4 * k + 4 + 4 * tripsUp (src - 4 * k + 4) (dst - 4 * k + 1) ≤ hi := by
    unfold tripsUp; omega
  exact contained_fillWords (contained_copyDown H (by omega) (by omega) (by omega) (by omega)) (by omega)
    hfill

/-- The last `n` rows are overwritten by the rows above them. -/
theorem contained_gfxInsertLines (F : c.Framed lo hi) (h : c.Screen) {row n : ℕ}
    (hn : row + n ≤ c.HEIGHT) (H : m.Contained lo hi) : (gfxInsertLines c row n m).Contained lo hi := by
  have hcount := h.u32_lineBytes_mul (r := n) (by omega)
  have hend := h.u32_lineBytes_mul (r := row) (by omega)
  have hle := h.lineBytes_mul_le hn
  rw [Nat.mul_add] at hle
  have hbottom := F.bottom; have htop := F.top
  simp only [gfxInsertLines, hcount, hend]
  exact contained_slideUp (by omega) (by omega) (by omega) (by omega) H

theorem contained_gfxScrollDownDma (F : c.Framed lo hi) (h : c.Screen) {op : DmaOp}
    (hop : op ∈ gfxScrollDownDma c c.fontHeight) (H : m.Contained lo hi) :
    (op.run m).Contained lo hi := by
  have hline := h.u32_lineBytes
  have hle := h.lineBytes_mul_le (r := 1) h.rows
  rw [Nat.mul_one] at hle
  have hlt := h.size_lt
  have hrest : u32 ((c.size : ℤ) - c.lineBytes) = c.size - c.lineBytes := by
    rw [u32_of_nonneg (by omega) (by omega)]; omega
  have hbottom := F.bottom; have htop := F.top
  simp only [gfxScrollDownDma, hline, hrest, List.mem_cons, List.not_mem_nil, or_false] at hop
  rcases hop with rfl | rfl
  · rw [run_memory]
    exact contained_blockCopy H (Or.inr ⟨by omega, by omega⟩) (Or.inr ⟨by omega, by omega⟩)
  · rw [run_word]
    exact contained_blockFill H (Or.inr ⟨by omega, by omega⟩)

end Extent

end Pigfx
