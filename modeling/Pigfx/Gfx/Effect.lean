import Pigfx.Gfx.Extent

/-!
# What the drawing leaves in memory

Each drawing routine of the text path, described as a painted rectangle or as a
slide of rows, on a screen whose pitch is a number of words.  None of them depends
on anything but the contents of the memory.

## Main definitions

* `onData_` theorems — the contents afterwards depend on the contents before.
* `paints_` and `slides_` theorems — what they are.
-/

namespace Pigfx
open Lib

/-! ## Contents and trace -/

section OnData
variable (b : Build) (c : Ctx)

theorem onData_dmaOp (op : DmaOp) : OnData op.run := by
  intro m n h
  simp only [DmaOp.run]
  split
  · rename_i a _
    have hw : m.word a = n.word a := Bus.word_congr fun k _ => by rw [h]
    split
    · rw [hw]; exact onData_blockFill _ _ _ m n h
    · exact onData_blockCopy _ _ _ m n h
  · split
    · exact onData_blockFill _ _ _ m n h
    · exact onData_blockFill2d _ _ _ _ _ m n h

/-- The engine's work on a queue. -/
theorem data_dmaExecuteQueue (ops : List DmaOp) (m : Bus) :
    (dmaExecuteQueue ops m).data = (ops.foldl (fun m op => op.run m) m).data := by
  have hfold : ∀ (ops : List DmaOp) (x y : Bus), x.data = y.data →
      (ops.foldl (fun m op => op.run m) x).data = (ops.foldl (fun m op => op.run m) y).data := by
    intro ops
    induction ops with
    | nil => exact fun x y h => h
    | cons op ops ih => exact fun x y h => ih _ _ (onData_dmaOp op x y h)
  exact hfold ops _ _ (data_foldl_note .dmaSetup ops m)

theorem onData_dmaExecuteQueue (ops : List DmaOp) : OnData (dmaExecuteQueue ops) := by
  intro m n h
  rw [data_dmaExecuteQueue, data_dmaExecuteQueue]
  induction ops generalizing m n with
  | nil => exact h
  | cons op ops ih => exact ih _ _ (onData_dmaOp op m n h)

theorem onData_gfxClear : OnData (gfxClear b c) :=
  onData_ite (onData_dmaExecuteQueue _) (onData_fillBytes _ _ _)

theorem onData_gfxFillRect (x y width height : ℕ) : OnData (gfxFillRect b c x y width height) := by
  refine onData_ite onData_id (onData_ite (onData_dmaExecuteQueue _) ?_)
  exact onData_iterate _ fun _ => onData_fillBytes _ _ _

theorem onData_gfxClearRect (x y width height : ℕ) : OnData (gfxClearRect b c x y width height) :=
  onData_gfxFillRect b _ x y width height

theorem onData_gfxDeleteLines (row n : ℕ) : OnData (gfxDeleteLines c row n) :=
  (onData_fillWords _ _ _).comp (onData_copyUp _ _ _)

theorem onData_gfxInsertLines (row n : ℕ) : OnData (gfxInsertLines c row n) :=
  (onData_fillWords _ _ _).comp (onData_copyDown _ _ _)

theorem onData_gfxPutc (row col : ℕ) (ch : Byte) : OnData (gfxPutc c row col ch) := by
  refine onData_ite onData_id (onData_ite onData_id (onData_iterate _ fun i => ?_))
  exact (onData_put32 _ _).comp (onData_put32 _ _)

end OnData

/-! ## Painted rectangles -/

section Paints
variable (b : Build) {c : Ctx}

/-- Byte `j` of row `i` of a cell that is given by two words a row. -/
def cellByte (w : ℕ → ℕ → Word) (i j : ℕ) : Byte := byteOf (j % 4) (w i (j / 4))

/-- Storing two words a row paints a cell. -/
theorem paints_cell {a step : ℤ} {h : ℕ} (hstep : 8 ≤ step) (w : ℕ → ℕ → Word) (m : Bus) :
    Paints a step h 8 (cellByte w) m.data
      (iterate h (fun i m => (m.put32 (a + i * step) (w i 0)).put32 (a + i * step + 4) (w i 1)) m).data := by
  refine paints_iterate hstep (fun i _ m => ?_) m
  refine (paints_put32_pair _ _ _ _ _).congr fun _ _ j hj => ?_
  rw [cellByte]
  split
  · rw [Nat.mod_eq_of_lt (by omega), Nat.div_eq_of_lt (by omega)]
  · have hmod : j % 4 = j - 4 := by omega
    have hdiv : j / 4 = 1 := by omega
    rw [hmod, hdiv]

theorem paints_gfxPutc (hstep : 8 ≤ c.rowStep) {row col : ℕ} (hr : row < c.HEIGHT) (hc : col < c.WIDTH)
    (ch : Byte) (m : Bus) :
    Paints (c.cellAddr row col) c.rowStep c.fontHeight 8 (cellByte (c.putcWord ch)) m.data
      (gfxPutc c row col ch m).data := by
  rw [gfxPutc, if_neg (by omega), if_neg (by omega)]
  exact paints_cell hstep _ m

theorem paints_gfxRestoreCursorContent (hstep : 8 ≤ c.rowStep) (p : Pix) :
    Paints c.cursorAddr c.rowStep c.fontHeight 8 (cellByte fun i k => p.cursorBuffer (2 * i + k))
      p.bus.data (gfxRestoreCursorContent c p).bus.data :=
  paints_cell hstep (fun i k => p.cursorBuffer (2 * i + k)) p.bus

theorem paints_gfxFillRectDma {x y width height : ℕ} (hh : 0 < height) (hh' : height ≤ 2 ^ 14)
    (hw : width < 2 ^ 16) (hp : width ≤ c.Pitch) (hs : c.Pitch < width + 2 ^ 15) (m : Bus) :
    Paints (c.PFB x y) c.Pitch height width (fun _ _ => c.getFg) m.data
      ((gfxFillRectDma c x y width height).run m).data := by
  rw [gfxFillRectDma_run c hh hh' hw hp hs]
  have hpitch : (width : ℤ) + (c.Pitch - width) = c.Pitch := by ring
  have hfill := paints_blockFill2d height width (c.Pitch - width) (c.PFB x y) c.getFg32 c.getFg m (by omega)
    c.byteOf_getFg32
  rwa [hpitch] at hfill

/-- The rows of the processor. -/
theorem paints_fillRows {x y height width : ℕ} (hp : width ≤ c.Pitch) (m : Bus) :
    Paints (c.PFB x y) c.Pitch height width (fun _ _ => c.getFg) m.data
      (iterate height (fun i => fillBytes width (c.PFB x (y + i)) c.getFg) m).data := by
  refine paints_iterate (by omega) (fun i _ m => ?_) m
  have haddr : c.PFB x (y + i) = c.PFB x y + (i : ℕ) * c.Pitch := by rw [Ctx.PFB, Ctx.PFB]; ring
  rw [haddr]
  exact paints_fillBytes _ _ _ _ m

/-- The rectangle is clipped at the right edge of the text area. -/
theorem paints_gfxFillRect (h : c.Sized) (hp : c.W ≤ c.Pitch) {x y width height : ℕ} (hx : x + 8 ≤ c.W)
    (hw : 8 ≤ width) (hw' : width ≤ c.W) (hh : 0 < height) (hy : y + height ≤ c.H)
    (hd : b.gfxUseDma → c.Pitch < 2 ^ 15 + 8 ∧ height ≤ 2 ^ 14) (m : Bus) :
    Paints (c.PFB x y) c.Pitch height (min width (c.W - x)) (fun _ _ => c.getFg) m.data
      (gfxFillRect b c x y width height m).data := by
  rw [gfxFillRect_eq h (by omega) hw' hh hy]
  split
  · obtain ⟨hstride, hrows⟩ := hd ‹_›
    rw [data_dmaExecuteQueue]
    exact paints_gfxFillRectDma hh hrows (by omega) (by omega) (by omega) m
  · exact paints_fillRows (by omega) m

/-- Whether the video is inverted or not, a rectangle is cleared with `bg`. -/
theorem paints_gfxClearRect (h : c.Sized) (hp : c.W ≤ c.Pitch) {x y width height : ℕ} (hx : x + 8 ≤ c.W)
    (hw : 8 ≤ width) (hw' : width ≤ c.W) (hh : 0 < height) (hy : y + height ≤ c.H)
    (hd : b.gfxUseDma → c.Pitch < 2 ^ 15 + 8 ∧ height ≤ 2 ^ 14) (m : Bus) :
    Paints (c.PFB x y) c.Pitch height (min width (c.W - x)) (fun _ _ => c.bg) m.data
      (gfxClearRect b c x y width height m).data := by
  have hcol : ({ c with fg := c.bg } : Ctx).getFg = c.bg := by
    rw [Ctx.getFg]
    dsimp only
    split <;> rfl
  have hfill := paints_gfxFillRect b (c := { c with fg := c.bg }) (h.congr rfl) hp hx hw hw' hh hy hd m
  rwa [hcol] at hfill

theorem paints_gfxClear (pitch : ℤ) (m : Bus) :
    Paints c.pfb pitch 1 c.size (fun _ _ => c.getBg) m.data (gfxClear b c m).data := by
  rw [gfxClear]
  split
  · rw [data_dmaExecuteQueue, List.foldl_cons, List.foldl_nil, run_word]
    exact paints_blockFill _ _ _ _ _ m c.byteOf_getBg32
  · exact paints_fillBytes _ _ _ _ m

end Paints

/-! ## Rows that slide -/

section Slides
variable {c : Ctx}

/-- The scroll by any number of pixels that the screen has. -/
theorem slides_gfxScrollDownDma_bytes {npixels L : ℕ} (hL : u32 (c.Pitch * npixels) = L) (hle : L ≤ c.size)
    (hlt : c.size < 2 ^ 32) (m : Bus) :
    Slides (c.pfb + L) c.pfb (c.size - L) (c.pfb + c.size - L) L c.getBg m.data
      (dmaExecuteQueue (gfxScrollDownDma c npixels) m).data := by
  have hrest : u32 ((c.size : ℤ) - L) = c.size - L := by
    rw [u32_of_nonneg (by omega) (by omega)]; omega
  rw [data_dmaExecuteQueue]
  simp only [gfxScrollDownDma, hL, hrest, List.foldl_cons, List.foldl_nil, run_memory, run_word]
  exact (moves_blockCopy _ _ _ m (by omega)).slides
    (paints_blockFill _ _ 0 _ _ _ c.byteOf_getBg32) (Or.inl (by omega))

/-- The scroll: all rows but the first go up by one, and the last is blank. -/
theorem slides_gfxScrollDownDma (h : c.Screen) (m : Bus) :
    Slides (c.pfb + c.lineBytes) c.pfb (c.size - c.lineBytes) (c.pfb + c.size - c.lineBytes) c.lineBytes
      c.getBg m.data (dmaExecuteQueue (gfxScrollDownDma c c.fontHeight) m).data := by
  have hle := h.lineBytes_mul_le (r := 1) h.rows
  rw [Nat.mul_one] at hle
  exact slides_gfxScrollDownDma_bytes h.u32_lineBytes hle h.size_lt m

/-- Delete lines in whole words, with the source of the move maybe past the end. -/
theorem slides_gfxDeleteLines_words {row n R S : ℕ}
    (hR : u32 (c.Pitch * c.fontHeight * row) = R)
    (hS : u32 (c.Pitch * c.fontHeight * u32 (row + n)) = S) (hRS : R ≤ S)
    (hmoved : (c.size - S) % 4 = 0) (hfilled : (c.size - (R + (c.size - S))) % 4 = 0) (m : Bus) :
    Slides (c.pfb + S) (c.pfb + R) (c.size - S) (c.pfb + R + (c.size - S : ℕ))
      (c.size - (R + (c.size - S))) c.getBg m.data (gfxDeleteLines c row n m).data := by
  simp only [gfxDeleteLines, hR, hS]
  exact slides_copyUp_fillWords c.byteOf_getBg32 (by omega) (by omega) hmoved (by omega) hfilled m

/-- Insert lines, word by word: the gap is where the first loop stops. -/
theorem slides_gfxInsertLines_words {row n R N : ℕ}
    (hR : u32 (c.Pitch * c.fontHeight * row) = R) (hN : u32 (c.Pitch * c.fontHeight * n) = N)
    (m : Bus) :
    let k := tripsDown (c.pfb + c.size - N - 4) (c.pfb + R)
    let gap := c.pfb + c.size - N - 4 * k
    Slides gap (gap + N) (4 * k) gap (4 * (N / 4)) c.getBg m.data
      (gfxInsertLines c row n m).data := by
  intro k gap
  simp only [gfxInsertLines, hR, hN]
  have hcopy := moves_copyDown k (c.pfb + c.size - N - 4) (c.pfb + c.size - 4) m (by omega)
  have hsrc : c.pfb + c.size - N - 4 + 4 - 4 * (k : ℤ) = gap := by omega
  have hdst : c.pfb + c.size - 4 + 4 - 4 * (k : ℤ) = gap + N := by omega
  have hgap : c.pfb + c.size - N - 4 - 4 * (k : ℤ) + 4 = gap := by omega
  have hfill : tripsUp gap (c.pfb + c.size - 4 - 4 * k + 1) = N / 4 := by
    rw [tripsUp]
    omega
  rw [hsrc, hdst] at hcopy
  rw [hgap, hfill]
  exact hcopy.slides (paints_fillWords _ gap 0 _ _ _ c.byteOf_getBg32) (Or.inr (by omega))

/-- Insert lines in whole words, where they fit. -/
theorem slides_gfxInsertLines_fit {row n R N : ℕ}
    (hR : u32 (c.Pitch * c.fontHeight * row) = R) (hN : u32 (c.Pitch * c.fontHeight * n) = N)
    (hle : R + N ≤ c.size) (hmoved : (c.size - (R + N)) % 4 = 0) (hfilled : N % 4 = 0) (m : Bus) :
    Slides (c.pfb + R) (c.pfb + R + N) (c.size - (R + N)) (c.pfb + R) N c.getBg m.data
      (gfxInsertLines c row n m).data := by
  have hslides := slides_gfxInsertLines_words hR hN m
  have hcount : 4 * tripsDown (c.pfb + c.size - N - 4) (c.pfb + R) = c.size - (R + N) :=
    four_mul_tripsDown (by omega) hmoved
  have hgap : c.pfb + c.size - N - 4 * (tripsDown (c.pfb + c.size - N - 4) (c.pfb + R) : ℤ) =
      c.pfb + R := by omega
  have hfill : 4 * (N / 4) = N := by omega
  dsimp only at hslides
  rwa [hgap, hcount, hfill] at hslides

variable (h : c.Screen) (hwords : c.lineBytes % 4 = 0) {row n : ℕ} (hn : row + n ≤ c.HEIGHT)
include h hwords hn

/-- The number of bytes from a row of text to the end of the area is one of words. -/
theorem lineBytes_words : (c.lineBytes * row) % 4 = 0 ∧ (c.lineBytes * n) % 4 = 0 ∧ c.size % 4 = 0 ∧
    c.lineBytes * row + c.lineBytes * n ≤ c.size := by
  have hmod : ∀ k, (c.lineBytes * k) % 4 = 0 := fun k => by rw [Nat.mul_mod, hwords]; omega
  have hle := h.lineBytes_mul_le hn
  rw [Nat.mul_add] at hle
  exact ⟨hmod row, hmod n, h.size_eq ▸ hmod c.HEIGHT, hle⟩

/-- Delete lines: the rows from `row + n` on go to `row`, and the last `n` are blank. -/
theorem slides_gfxDeleteLines (m : Bus) :
    Slides (c.pfb + (c.lineBytes * (row + n) : ℕ)) (c.pfb + (c.lineBytes * row : ℕ))
      (c.size - c.lineBytes * (row + n)) (c.pfb + c.size - (c.lineBytes * n : ℕ)) (c.lineBytes * n)
      c.getBg m.data (gfxDeleteLines c row n m).data := by
  have hH := h.height_lt
  have hsum : u32 ((row : ℤ) + n) = row + n := u32_natCast (n := row + n) (by omega)
  have hR : u32 (c.Pitch * c.fontHeight * row) = c.lineBytes * row := h.u32_lineBytes_mul (by omega)
  have hS : u32 (c.Pitch * c.fontHeight * u32 (row + n)) = c.lineBytes * (row + n) := by
    rw [hsum]; exact h.u32_lineBytes_mul hn
  obtain ⟨h1, h2, h3, hle⟩ := lineBytes_words h hwords hn
  rw [Nat.mul_add] at hS ⊢
  have hslides := slides_gfxDeleteLines_words hR hS (by omega) (by omega) (by omega) m
  have hgap : c.pfb + (c.lineBytes * row : ℕ) + (c.size - (c.lineBytes * row + c.lineBytes * n) : ℕ) =
      c.pfb + c.size - (c.lineBytes * n : ℕ) := by omega
  have hfill : c.size - (c.lineBytes * row + (c.size - (c.lineBytes * row + c.lineBytes * n))) =
      c.lineBytes * n := by omega
  rwa [hgap, hfill] at hslides

/-- Insert lines: the rows from `row` on go to `row + n`, and `n` blank ones appear. -/
theorem slides_gfxInsertLines (m : Bus) :
    Slides (c.pfb + (c.lineBytes * row : ℕ)) (c.pfb + (c.lineBytes * (row + n) : ℕ))
      (c.size - c.lineBytes * (row + n)) (c.pfb + (c.lineBytes * row : ℕ)) (c.lineBytes * n)
      c.getBg m.data (gfxInsertLines c row n m).data := by
  have hR : u32 (c.Pitch * c.fontHeight * row) = c.lineBytes * row := h.u32_lineBytes_mul (by omega)
  have hN : u32 (c.Pitch * c.fontHeight * n) = c.lineBytes * n := h.u32_lineBytes_mul (by omega)
  obtain ⟨h1, h2, h3, hle⟩ := lineBytes_words h hwords hn
  rw [Nat.mul_add, Nat.cast_add, ← add_assoc]
  exact slides_gfxInsertLines_fit hR hN hle (by omega) h2 m

end Slides

end Pigfx
