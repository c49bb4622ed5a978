import Pigfx.Gfx.Putc
import Pigfx.Gfx.Showing

/-!
# Three ways to erase the screen

`ESC [ J` at home and `ESC [ 2 K` in every row fill rectangles of pixels with `bg`.  `ESC [ 2 J`
fills all the memory of the text area, also what lies between its lines, with the background of the
text, which is `fg` in inverse.  And `ESC [ 2 K` does not put back the cell under the cursor, so a
cursor that is drawn beyond its line leaves a trace.

## Main definitions

* `Ctx.Filled` — text fills the text area.
* `Wiped` — the picture while the rows are erased one after the other.
* `Ctx.ErasesAlike`, `erasures_agree_iff` — when the three ways agree.
-/

namespace Pigfx
open Lib

/-! ## Rows of text -/

/-- Text fills its area. -/
structure Ctx.Filled (c : Ctx) : Prop extends c.Sized where
  columns : c.W = 8 * c.WIDTH
  lines : c.H = c.HEIGHT * c.fontHeight
  pitch : c.W ≤ c.Pitch
  area : c.Pitch * c.H ≤ c.size

/-- Where a row of text begins. -/
def Ctx.rowAddr (c : Ctx) (row : ℕ) : ℤ := c.pfb + (row * c.fontHeight : ℕ) * c.Pitch

/-- The byte is a pixel of one of the first `n` rows of text. -/
def Ctx.Pixel (c : Ctx) (n : ℕ) (x : ℤ) : Prop :=
  ∃ y < n * c.fontHeight, ∃ j < c.W, x = c.pfb + (y : ℕ) * (c.Pitch : ℤ) + (j : ℕ)

section Rows
variable {c : Ctx}

theorem Ctx.rowAddr_zero : c.rowAddr 0 = c.pfb := by simp [rowAddr]

theorem Ctx.rowAddr_mono {r r' : ℕ} (h : r ≤ r') : c.rowAddr r ≤ c.rowAddr r' := by
  have hlines : (r * c.fontHeight : ℕ) * (c.Pitch : ℤ) ≤ (r' * c.fontHeight : ℕ) * (c.Pitch : ℤ) :=
    mul_le_mul_of_nonneg_right (by exact_mod_cast Nat.mul_le_mul_right _ h) (by omega)
  simp only [rowAddr]
  omega

/-- A run of a line of row `r` lies between the beginnings of two rows. -/
theorem Ctx.run_bounds {r y x n : ℕ} (hlo : r * c.fontHeight ≤ y) (hhi : y < (r + 1) * c.fontHeight)
    (hx : x + n ≤ c.Pitch) : c.rowAddr r ≤ c.pfb + (y : ℕ) * (c.Pitch : ℤ) + (x : ℕ) ∧
      c.pfb + (y : ℕ) * (c.Pitch : ℤ) + (x : ℕ) + (n : ℕ) ≤ c.rowAddr (r + 1) := by
  have hbegin : (r * c.fontHeight : ℕ) * (c.Pitch : ℤ) ≤ (y : ℕ) * (c.Pitch : ℤ) :=
    mul_le_mul_of_nonneg_right (by exact_mod_cast hlo) (by omega)
  have hend := line_end_le (P := (c.Pitch : ℤ)) (y := (y : ℤ)) (x := (x : ℤ)) (n := (n : ℤ))
    (H := (((r + 1) * c.fontHeight : ℕ) : ℤ)) (by omega) (by exact_mod_cast hhi) (by exact_mod_cast hx)
  rw [mul_comm (c.Pitch : ℤ)] at hend
  simp only [rowAddr]
  constructor
  · omega
  · linarith

theorem Ctx.Pixel.lt (hpitch : c.W ≤ c.Pitch) {n : ℕ} {x : ℤ} (h : c.Pixel n x) : x < c.rowAddr n := by
  obtain ⟨y, hy, j, hj, rfl⟩ := h
  have hend := line_end_le (P := (c.Pitch : ℤ)) (y := (y : ℤ)) (x := (j : ℤ)) (n := 1)
    (H := ((n * c.fontHeight : ℕ) : ℤ)) (by omega) (by exact_mod_cast hy) (by omega)
  rw [mul_comm (c.Pitch : ℤ)] at hend
  simp only [rowAddr]
  linarith

/-- The cell of a cursor in the first column lies between the beginnings of two rows. -/
theorem Ctx.inCell_bounds (hstep : 8 ≤ c.rowStep) {r : ℕ} {x : ℤ} (h : (c.setCursor r 0).InCell x) :
    c.rowAddr r ≤ x ∧ x < c.rowAddr (r + 1) := by
  obtain ⟨i, hi, j, hj, rfl⟩ := (Ctx.inCell_iff (c := c.setCursor r 0) hstep x).mp h
  have haddr : (c.setCursor r 0).cursorAddr = c.rowAddr r := by simp [cursorAddr, PFB, setCursor, rowAddr]
  have hbounds := c.rowStep_bounds
  change i < c.fontHeight at hi
  change c.rowAddr r ≤ (c.setCursor r 0).cursorAddr + (i : ℕ) * c.rowStep + (j : ℕ) ∧
    (c.setCursor r 0).cursorAddr + (i : ℕ) * c.rowStep + (j : ℕ) < c.rowAddr (r + 1)
  rw [haddr]
  have hbegin : 0 ≤ (i : ℤ) * c.rowStep := mul_nonneg (by omega) (by omega)
  have hline : (i : ℤ) * c.rowStep ≤ i * c.Pitch := mul_le_mul_of_nonneg_left hbounds.2 (by omega)
  have hend := (c.run_bounds (r := r) (y := r * c.fontHeight + i) (x := j) (n := 1) (by omega)
    (by rw [Nat.add_mul]; omega) (by omega)).2
  simp only [rowAddr] at hend ⊢
  push_cast at hend ⊢
  constructor
  · omega
  · linarith [add_mul ((r : ℤ) * c.fontHeight) i c.Pitch]

theorem Ctx.pixel_succ {n : ℕ} {x : ℤ} : c.Pixel (n + 1) x ↔
    c.Pixel n x ∨ ∃ i < c.fontHeight, ∃ j < c.W, x = c.rowAddr n + (i : ℕ) * (c.Pitch : ℤ) + (j : ℕ) := by
  have hline : ∀ i : ℕ, c.pfb + ((n * c.fontHeight + i : ℕ) : ℤ) * c.Pitch = c.rowAddr n + (i : ℕ) * c.Pitch := by
    intro i
    rw [rowAddr]
    push_cast
    ring
  constructor
  · rintro ⟨y, hy, j, hj, rfl⟩
    by_cases hlt : y < n * c.fontHeight
    · exact Or.inl ⟨y, hlt, j, hj, rfl⟩
    · obtain ⟨i, rfl⟩ := Nat.exists_eq_add_of_le (not_lt.mp hlt)
      rw [Nat.add_mul] at hy
      exact Or.inr ⟨i, by omega, j, hj, by rw [hline]⟩
  · rintro (⟨y, hy, j, hj, rfl⟩ | ⟨i, hi, j, hj, rfl⟩)
    · exact ⟨y, by rw [Nat.add_mul]; omega, j, hj, rfl⟩
    · exact ⟨n * c.fontHeight + i, by rw [Nat.add_mul]; omega, j, hj, by rw [hline]⟩

end Rows

/-! ## Row by row -/

/-- The picture when `n` rows have been erased with the cursor at their beginning: what the cursor
covers beyond the pixels of its row has been taken into the picture as it was shown. -/
structure Wiped (c : Ctx) (n : ℕ) (d d' : ℤ → Byte) : Prop where
  erased : ∀ x, c.Pixel n x → d' x = c.bg
  smeared : ∀ r < n, ∀ x, (c.setCursor r 0).InCell x → ¬c.Pixel n x → d' x = c.shown (d x)
  kept : ∀ x, ¬c.Pixel n x → (∀ r < n, ¬(c.setCursor r 0).InCell x) → d' x = d x

theorem wiped_zero (c : Ctx) (d : ℤ → Byte) : Wiped c 0 d d := by
  refine ⟨?_, by omega, fun _ _ _ => rfl⟩
  rintro x ⟨y, hy, -⟩
  rw [Nat.zero_mul] at hy
  omega

/-- One more row. -/
theorem Wiped.succ {c : Ctx} (hstep : 8 ≤ c.rowStep) (hpitch : c.W ≤ c.Pitch) {n : ℕ} {d d' : ℤ → Byte} {m m' : Bus}
    (h : Wiped c n d d')
    (hm : ∀ x, m.data x = if (c.setCursor n 0).InCell x then c.shown (d' x) else d' x)
    (hrow : Paints (c.rowAddr n) c.Pitch c.fontHeight c.W (fun _ _ => c.bg) m.data m'.data) :
    Wiped c (n + 1) d m'.data := by
  -- the cells of the rows above end before this row
  have habove : ∀ r < n, ∀ x, (c.setCursor r 0).InCell x → x < c.rowAddr n := fun r hr x hx =>
    (Ctx.inCell_bounds hstep hx).2.trans_le (Ctx.rowAddr_mono hr)
  have hbelow : ∀ x, x < c.rowAddr n → ¬(c.setCursor n 0).InCell x := fun x hx hin =>
    absurd (Ctx.inCell_bounds hstep hin).1 (not_le.mpr hx)
  have hother : ∀ x, ¬c.Pixel (n + 1) x → ¬c.Pixel n x ∧ m'.data x = m.data x := by
    intro x hx
    rw [Ctx.pixel_succ, not_or] at hx
    refine ⟨hx.1, hrow.kept fun i hi j hj hat => hx.2 ⟨i, hi, j, hj, hat⟩⟩
  refine ⟨?_, ?_, ?_⟩
  · intro x hx
    by_cases hin : ∃ i < c.fontHeight, ∃ j < c.W, x = c.rowAddr n + (i : ℕ) * (c.Pitch : ℤ) + (j : ℕ)
    · obtain ⟨i, hi, j, hj, rfl⟩ := hin
      exact hrow.inside i hi j hj
    · have hpixel := (Ctx.pixel_succ.mp hx).resolve_right hin
      rw [hrow.kept fun i hi j hj hat => hin ⟨i, hi, j, hj, hat⟩, hm, if_neg (hbelow x (hpixel.lt hpitch))]
      exact h.erased x hpixel
  · intro r hr x hin hx
    obtain ⟨hpixel, hsame⟩ := hother x hx
    rw [hsame, hm]
    rcases Nat.lt_succ_iff_lt_or_eq.mp hr with hlt | rfl
    · rw [if_neg (hbelow x (habove r hlt x hin))]
      exact h.smeared r hlt x hin hpixel
    · rw [if_pos hin, h.kept x hpixel fun r' hr' hin' => hbelow x (habove r' hr' x hin') hin]
  · intro x hx hout
    obtain ⟨hpixel, hsame⟩ := hother x hx
    rw [hsame, hm, if_neg (hout n (by omega))]
    exact h.kept x hpixel fun r hr => hout r (by omega)

/-! ## Three pictures -/

/-- The byte belongs to the memory of the text area, and is no pixel. -/
def Ctx.Margin (c : Ctx) (x : ℤ) : Prop := c.Cleared x ∧ ¬c.Pixel c.HEIGHT x

/-- **The three ways erase alike**: the background of the text is `bg`, what lies between the lines
has its colour already, and the cursor does not reach there or cannot be seen there. -/
structure Ctx.ErasesAlike (c : Ctx) (d : ℤ → Byte) : Prop where
  colour : c.inverse = false ∨ c.bg = c.fg
  margin : ∀ x, c.Margin x → d x = c.getBg
  cursor : c.LinesAgree ∨ c.cursorVisible = false ∨ c.bg = c.fg

theorem Ctx.getBg_eq_bg {c : Ctx} : c.getBg = c.bg ↔ c.inverse = false ∨ c.bg = c.fg := by
  rw [getBg]
  cases c.inverse with
  | false => simp
  | true => simp [eq_comm]

section Pictures
variable {c : Ctx} (hc : c.Filled) (hstep : 8 ≤ c.rowStep)
include hc

theorem Ctx.Filled.rows_cleared {x : ℤ} (hlo : c.pfb ≤ x) (hhi : x < c.rowAddr c.HEIGHT) : c.Cleared x := by
  have harea : (c.Pitch : ℤ) * c.H ≤ c.size := by exact_mod_cast hc.area
  rw [Ctx.rowAddr, ← hc.lines, mul_comm] at hhi
  exact ⟨hlo, by omega⟩

theorem Ctx.Filled.pixel_cleared {x : ℤ} (h : c.Pixel c.HEIGHT x) : c.Cleared x := by
  have hlt := h.lt hc.pitch
  refine hc.rows_cleared ?_ hlt
  obtain ⟨y, -, j, -, rfl⟩ := h
  have hpos : (0 : ℤ) ≤ (y : ℕ) * (c.Pitch : ℤ) := by positivity
  omega

include hstep

theorem Ctx.Filled.cell_cleared {r : ℕ} (hr : r < c.HEIGHT) {x : ℤ} (h : (c.setCursor r 0).InCell x) :
    c.Cleared x := by
  obtain ⟨hlo, hhi⟩ := Ctx.inCell_bounds hstep h
  have hfirst := Ctx.rowAddr_mono (c := c) (Nat.zero_le r)
  rw [Ctx.rowAddr_zero] at hfirst
  exact hc.rows_cleared (hfirst.trans hlo) (hhi.trans_le (Ctx.rowAddr_mono hr))

/-- Where the lines agree, the cell has pixels only; where they do not, its second line begins
in front of the second line of pixels. -/
theorem Ctx.Filled.linesAgree_iff :
    c.LinesAgree ↔ ∀ r < c.HEIGHT, ∀ x, (c.setCursor r 0).InCell x → c.Pixel c.HEIGHT x := by
  have haddr : ∀ r, (c.setCursor r 0).cursorAddr = c.rowAddr r := fun r => by
    simp [Ctx.cursorAddr, Ctx.PFB, Ctx.setCursor, Ctx.rowAddr]
  have hcolumns := hc.columns; have hcols := hc.cols; have hpitch := hc.pitch
  constructor
  · intro hagree r hr x hx
    obtain ⟨i, hi, j, hj, rfl⟩ := (Ctx.inCell_iff (c := c.setCursor r 0) hstep x).mp hx
    change i < c.fontHeight at hi
    change c.Pixel c.HEIGHT ((c.setCursor r 0).cursorAddr + (i : ℕ) * c.rowStep + (j : ℕ))
    have hline : (i : ℤ) * c.rowStep = i * c.Pitch := by
      rcases hagree with hwords | hsingle
      · rw [Ctx.rowStep_of_words hwords]
      · obtain rfl : i = 0 := by omega
        simp
    refine ⟨r * c.fontHeight + i, line_of_cell hr hi, j, by omega, ?_⟩
    rw [haddr, hline, Ctx.rowAddr]
    push_cast
    ring
  · intro hcells
    by_contra hno
    rw [Ctx.LinesAgree, not_or] at hno
    have hearly : c.rowStep < c.Pitch := by rw [c.rowStep_eq]; omega
    obtain ⟨y, -, j, hj, hat⟩ := hcells 0 hc.rows (c.rowAddr 0 + (1 : ℕ) * c.rowStep + (0 : ℕ))
      ((Ctx.inCell_iff (c := c.setCursor 0 0) hstep _).mpr ⟨1, by change 1 < c.fontHeight; omega, 0, by omega,
        by rw [haddr]; rfl⟩)
    have hwide : (c.W : ℤ) ≤ c.rowStep := by rw [c.rowStep_eq]; omega
    rw [Ctx.rowAddr_zero] at hat
    push_cast at hat
    rcases y with _ | y
    · simp at hat
      omega
    · have hbelow : 0 ≤ (y : ℤ) * c.Pitch := by positivity
      push_cast at hat
      linarith [add_mul (y : ℤ) 1 c.Pitch]

/-- **When the three pictures are one.** -/
theorem pictures_agree_iff {d d₁ d₂ d₃ : ℤ → Byte}
    (h₁ : Paints c.pfb c.Pitch c.H c.W (fun _ _ => c.bg) d d₁)
    (h₂ : ∀ x, d₂ x = if c.Cleared x then c.getBg else d x) (h₃ : Wiped c c.HEIGHT d d₃) :
    d₁ = d₂ ∧ d₁ = d₃ ↔ c.ErasesAlike d := by
  have hpixel : ∀ x, c.Pixel c.HEIGHT x → d₁ x = c.bg := by
    rintro x ⟨y, hy, j, hj, rfl⟩
    exact h₁.inside y (hc.lines ▸ hy) j hj
  have hother : ∀ x, ¬c.Pixel c.HEIGHT x → d₁ x = d x := fun x hx =>
    h₁.kept fun y hy j hj hat => hx ⟨y, hc.lines ▸ hy, j, hj, hat⟩
  constructor
  · rintro ⟨hclear, hrows⟩
    have hmargin : ∀ x, c.Margin x → d x = c.getBg := by
      intro x hx
      rw [← hother x hx.2, hclear, h₂, if_pos hx.1]
    refine ⟨?_, hmargin, ?_⟩
    · have hfirst : c.Pixel c.HEIGHT c.pfb :=
        ⟨0, Nat.mul_pos hc.rows hc.font, 0, by have := hc.columns; have := hc.cols; omega, by simp⟩
      rw [← Ctx.getBg_eq_bg, ← hpixel _ hfirst, hclear, h₂, if_pos (hc.pixel_cleared hfirst)]
    · rw [hc.linesAgree_iff hstep, ← Ctx.shown_getBg]
      by_cases hshown : c.shown c.getBg = c.getBg
      · exact Or.inr hshown
      · refine Or.inl fun r hr x hin => by_contra fun hx => hshown ?_
        have hbg := hmargin x ⟨hc.cell_cleared hstep hr hin, hx⟩
        have hsmear := h₃.smeared r hr x hin hx
        rwa [← hrows, hother x hx, hbg, eq_comm] at hsmear
  · rintro ⟨hcolour, hmargin, hcursor⟩
    constructor
    · funext x
      rw [h₂]
      by_cases hx : c.Pixel c.HEIGHT x
      · rw [hpixel x hx, if_pos (hc.pixel_cleared hx), Ctx.getBg_eq_bg.mpr hcolour]
      · rw [hother x hx]
        split
        · next hclear => exact hmargin x ⟨hclear, hx⟩
        · rfl
    · funext x
      by_cases hx : c.Pixel c.HEIGHT x
      · rw [hpixel x hx, h₃.erased x hx]
      · rw [hother x hx]
        by_cases hin : ∃ r < c.HEIGHT, (c.setCursor r 0).InCell x
        · obtain ⟨r, hr, hin⟩ := hin
          have hbg := hmargin x ⟨hc.cell_cleared hstep hr hin, hx⟩
          rw [hc.linesAgree_iff hstep, ← Ctx.shown_getBg] at hcursor
          rw [h₃.smeared r hr x hin hx, hbg, hcursor.resolve_left fun hall => hx (hall r hr x hin)]
        · exact (h₃.kept x hx fun r hr hat => hin ⟨r, hr, hat⟩).symm

end Pictures

/-! ## Sequences -/

/-- `ESC [ H` -/
def home : List Byte := sequenceOf none [] [] (chr 'H')

/-- `ESC [ J` -/
def eraseBelow : List Byte := sequenceOf none [] [] (chr 'J')

/-- `ESC [ 2 J` -/
def eraseAll : List Byte := sequenceOf none (text "2") [] (chr 'J')

/-- `ESC [ 2 K` -/
def eraseRow : List Byte := sequenceOf none (text "2") [] (chr 'K')

/-- `ESC [ B` -/
def nextRow : List Byte := sequenceOf none [] [] (chr 'B')

/-- The terminal receives strings. -/
def Term.receive (b : Build) (t : Term) (strs : List (List Byte)) : Term :=
  strs.foldl (fun t str => gfxTermPutstring b str t) t

section Receive
variable (b : Build) (t : Term) (str : List Byte) (strs strs' : List (List Byte))

theorem Term.receive_nil : t.receive b [] = t := rfl

theorem Term.receive_cons : t.receive b (str :: strs) = (gfxTermPutstring b str t).receive b strs := rfl

theorem Term.receive_append : t.receive b (strs ++ strs') = (t.receive b strs).receive b strs' := List.foldl_append

end Receive

/-- From the home position, every row and back; the last `ESC [ B` stays in the last row. -/
def eraseRows (n : ℕ) : List (List Byte) := home :: (List.replicate n [eraseRow, nextRow]).flatten ++ [home]

example : home ++ eraseBelow = text "\x1b[H\x1b[J" ∧ eraseAll = text "\x1b[2J" ∧
    (eraseRows 2).flatten = text "\x1b[H\x1b[2K\x1b[B\x1b[2K\x1b[B\x1b[H" := by decide

/-- Rows of text are rectangles of pixels. -/
theorem paints_eraseRows {b : Build} {c : Ctx} (hc : c.Filled) (hd : b.gfxUseDma → c.FitsDma)
    (row n : ℕ) (hn : 0 < n) (hrows : row + n ≤ c.HEIGHT) (m : Bus) :
    Paints (c.rowAddr row) c.Pitch (n * c.fontHeight) c.W (fun _ _ => c.bg) m.data
      (gfxClearRect b c 0 (row * c.fontHeight) c.W (n * c.fontHeight) m).data := by
  have hcolumns := hc.columns; have hcols := hc.cols
  have hlines : row * c.fontHeight + n * c.fontHeight ≤ c.H := by
    rw [hc.lines, ← Nat.add_mul]
    exact Nat.mul_le_mul_right _ hrows
  have hrect : Paints _ c.Pitch (n * c.fontHeight) _ _ m.data
      (gfxClearRect b c 0 (row * c.fontHeight) c.W (n * c.fontHeight) m).data :=
    paints_gfxClearRect b hc.toSized hc.pitch (by omega) (by omega) le_rfl (Nat.mul_pos hn hc.font) hlines
      (fun hb => ⟨(hd hb).stride, by have := (hd hb).rows; omega⟩) m
  have haddr : c.PFB (0 : ℕ) (row * c.fontHeight : ℕ) = c.rowAddr row := by simp [Ctx.PFB, Ctx.rowAddr]
  rwa [haddr, Nat.sub_zero, Nat.min_self] at hrect

/-! ### Operations of the letters -/

section Letters
variable {st : ScnState} (c : Ctx)

theorem ansiOps_home (h : st.Reads []) : ansiOps (chr 'H') st c = [.move 0 0] := by
  have hsize : st.cmdParamsSize = 0 := h.size
  change [c.moveOp (min (u32 ((if st.cmdParamsSize < 1 then 1 else (st.param 0).toNat : ℕ) - 1)) (c.HEIGHT - 1) : ℕ)
    (min (u32 ((if st.cmdParamsSize < 2 then 1 else (st.param 1).toNat : ℕ) - 1)) (c.WIDTH - 1) : ℕ)] = _
  simp [hsize, Ctx.moveOp, Ctx.moveCursor, u32]

theorem ansiOps_eraseRow (h : st.Reads [2]) : ansiOps (chr 'K') st c = [.eraseLine] := by
  have hsize : st.cmdParamsSize = 1 := h.size
  have hvalue : (st.param 0).toNat = 2 := h.toNat_param (i := 0) (by simp)
  change eraseLineOps st c = _
  simp [eraseLineOps, hsize, hvalue]

theorem ansiOps_eraseAll (h : st.Reads [2]) : ansiOps (chr 'J') st c = [.move 0 0, .clear] := by
  have hsize : st.cmdParamsSize = 1 := h.size
  have hvalue : (st.param 0).toNat = 2 := h.toNat_param (i := 0) (by simp)
  change eraseDisplayOps st c = _
  simp [eraseDisplayOps, hsize, hvalue, Ctx.moveOp, Ctx.moveCursor]

theorem ansiOps_eraseBelow (h : st.Reads []) : ansiOps (chr 'J') st (c.setCursor 0 0) =
    .erase 0 (0 * c.fontHeight) c.W (1 * c.fontHeight) ::
      if 1 < c.HEIGHT then [.erase 0 (1 * c.fontHeight) c.W ((c.HEIGHT - 1) * c.fontHeight)] else [] := by
  have hsize : st.cmdParamsSize = 0 := h.size
  change eraseDisplayOps st (c.setCursor 0 0) = _
  simp [eraseDisplayOps, hsize, Ctx.eraseTillEnd, Ctx.eraseRows, Ctx.setCursor]

end Letters

/-! ### What they show -/

section Shows
variable {b : Build} {g : Gfx} {c : Ctx} {d : ℤ → Byte} {t : Term} (hc : c.Filled) (hp : 8 ≤ c.Pitch)
  (hstep : 8 ≤ c.rowStep)
include hc hp

theorem shows_home {row : ℕ} (hrow : row < c.HEIGHT) (h : t.Shows g (c.setCursor row 0) d) :
    (gfxTermPutstring b home t).Shows g (c.setCursor 0 0) d :=
  h.move (hc.toSized.congr rfl) ⟨hrow, hc.cols⟩ hp b [] [] (by decide) (by decide) (by decide)
    (fun _ hst => ansiOps_home _ hst) hc.rows hc.cols

theorem shows_nextRow {row : ℕ} (hrow : row < c.HEIGHT) (h : t.Shows g (c.setCursor row 0) d) :
    (gfxTermPutstring b nextRow t).Shows g (c.setCursor (min (c.HEIGHT - 1) (row + 1)) 0) d := by
  have hs : (c.setCursor row 0).Sized := hc.toSized.congr rfl
  have hr : (c.setCursor row 0).InRange := ⟨hrow, hc.cols⟩
  have hheight := hc.height_lt
  have htarget := (Arrow.reached_eq_target_iff hs hr (Arrow.count_lt ⟨[], by decide⟩) .down).mpr
    (Or.inl (by change row + 1 < 2 ^ 31; omega))
  refine h.move hs hr hp b [] [] (by decide) (by decide) (L := chr 'B') (by decide) ?_
    (by change min (c.HEIGHT - 1) (row + 1) < c.HEIGHT; omega) hc.cols
  intro st hst
  have hops := Arrow.ansiOps_arrow (d := ⟨[], by decide⟩) hst (c.setCursor row 0) .down
  rwa [htarget] at hops

include hstep

theorem shows_eraseRow {row : ℕ} (hrow : row < c.HEIGHT) (h : t.Shows g (c.setCursor row 0) d) :
    (gfxTermPutstring b eraseRow t).Shows g (c.setCursor row 0)
      (gfxClearRect b c 0 (row * c.fontHeight) c.W (1 * c.fontHeight)
        (g.showing (c.setCursor row 0) d).pix.bus).data := by
  refine h.sequence (hc.toSized.congr rfl) ⟨hrow, hc.cols⟩ hp b (text "2") [] (by decide) (by decide) (by decide)
    (fun _ hst => ansiOps_eraseRow _ hst) rfl ⟨hrow, hc.cols⟩ ?_
  rw [Nat.one_mul]
  exact Gfx.showing_draw (c := c.setCursor row 0) hstep d
    (gfxClearRect b (c.setCursor row 0) 0 (row * c.fontHeight) c.W c.fontHeight)

variable (hd : b.gfxUseDma → c.FitsDma)
include hd

/-- The rest of the first row, and the rows below it. -/
theorem shows_eraseBelow (h : t.Shows g (c.setCursor 0 0) d) :
    ∃ d₁, (gfxTermPutstring b eraseBelow t).Shows g (c.setCursor 0 0) d₁ ∧
      Paints c.pfb c.Pitch c.H c.W (fun _ _ => c.bg) d d₁ := by
  have hrows := hc.rows
  have hs : (c.setCursor 0 0).Sized := hc.toSized.congr rfl
  have hJ : isAnsiLetter (chr 'J') := by decide
  have hshown := Gfx.showing_erase (g := g) (c := c.setCursor 0 0) hstep d b 0 (0 * c.fontHeight) c.W
    (1 * c.fontHeight)
  have hfirst := paints_eraseRows hc hd 0 1 (by omega) (by omega) ⟨d, []⟩
  rw [Ctx.rowAddr_zero] at hfirst
  by_cases hone : 1 < c.HEIGHT
  · have hboth := (Gfx.showing_erase (g := g) (c := c.setCursor 0 0) hstep _ b 0 (1 * c.fontHeight) c.W
      ((c.HEIGHT - 1) * c.fontHeight)).trans (hshown.run b _)
    refine ⟨_, h.sequence hs ⟨hrows, hc.cols⟩ hp b [] [] (by decide) (by decide) hJ
      (fun _ hst => (ansiOps_eraseBelow c hst).trans (by rw [if_pos hone])) rfl ⟨hrows, hc.cols⟩ hboth, ?_⟩
    have hbelow := paints_eraseRows hc hd 1 (c.HEIGHT - 1) (by omega) (by omega)
      ⟨(gfxClearRect b c 0 (0 * c.fontHeight) c.W (1 * c.fontHeight) ⟨d, []⟩).data, []⟩
    have hall := hfirst.append (by exact_mod_cast hc.pitch) hbelow
    rwa [← Nat.add_mul, Nat.add_sub_cancel' hrows, ← hc.lines] at hall
  · refine ⟨_, h.sequence hs ⟨hrows, hc.cols⟩ hp b [] [] (by decide) (by decide) hJ
      (fun _ hst => (ansiOps_eraseBelow c hst).trans (by rw [if_neg hone])) rfl ⟨hrows, hc.cols⟩ hshown, ?_⟩
    rwa [hc.lines, show c.HEIGHT = 1 by omega]

/-- Row after row. -/
theorem shows_eraseRows (h : t.Shows g (c.setCursor 0 0) d) {n : ℕ} (hn : n ≤ c.HEIGHT) :
    ∃ d', (t.receive b (List.replicate n [eraseRow, nextRow]).flatten).Shows g
        (c.setCursor (min (c.HEIGHT - 1) n) 0) d' ∧ Wiped c n d d' := by
  induction n with
  | zero => exact ⟨d, by rw [Nat.min_zero]; exact h, wiped_zero c d⟩
  | succ n ih =>
    obtain ⟨d', hshows, hwiped⟩ := ih (by omega)
    rw [min_eq_right (by omega)] at hshows
    have hrow := shows_nextRow (b := b) hc hp (by omega) (shows_eraseRow (b := b) hc hp hstep (by omega) hshows)
    have hpaint := paints_eraseRows hc hd n 1 (by omega) (by omega)
      (g.showing (c.setCursor n 0) d').pix.bus
    rw [Nat.one_mul] at hpaint
    rw [Nat.one_mul] at hrow
    refine ⟨_, ?_, hwiped.succ hstep hc.pitch (fun x => Gfx.data_showing (c := c.setCursor n 0) hstep d' x) hpaint⟩
    rw [List.replicate_succ', List.flatten_append, Term.receive_append, List.flatten_singleton, Term.receive_cons,
      Term.receive_cons, Term.receive_nil]
    exact hrow

end Shows

/-! ## The three ways -/

section Ways
variable (b : Build) {t : Term} (hready : t.scn.Ready) (h : t.AtRest) (hc : t.g.ctx.Filled)
include hready h hc

/-- The home position, from anywhere. -/
theorem shows_start : (gfxTermPutstring b home t).Shows t.g (t.g.ctx.setCursor 0 0) t.g.logicalScreen := by
  obtain ⟨hsame, hbetween⟩ := moves_sequence b hready h hc.toSized (L := chr 'H')
    (by decide : ∀ e ∈ [([] : List Byte)], ∀ x ∈ e, isDigit x) (by decide) (by decide)
    (fun _ hst => ansiOps_home _ hst) hc.rows hc.cols
  have hmoved := Gfx.showing_relocate (g := t.g) t.g (f := Ctx.setCursor 0 0) h.rowStep (fun _ _ => rfl) rfl
  exact ⟨hbetween, hmoved.trans hsame⟩

/-- The screen is cleared with the cursor drawn at home. -/
theorem shows_eraseAll : ∃ d₂, (gfxTermPutstring b eraseAll t).Shows t.g (t.g.ctx.setCursor 0 0) d₂ ∧
    ∀ x, d₂ x = if t.g.ctx.Cleared x then t.g.ctx.getBg else t.g.logicalScreen x := by
  obtain ⟨hsame, hbetween⟩ := sequence_ops b hready h hc.toSized (L := chr 'J')
    (by decide : ∀ e ∈ [text "2"], ∀ x ∈ e, isDigit x) (by decide) (by decide)
    (fun _ hst => ansiOps_eraseAll _ hst) ⟨hc.rows, hc.cols⟩
  have hmoved := Gfx.showing_relocate (g := t.g) t.g (f := Ctx.setCursor 0 0) h.rowStep (fun _ _ => rfl) rfl
  have hcleared := Gfx.showing_draw (g := t.g) (c := t.g.ctx.setCursor 0 0) h.rowStep t.g.logicalScreen
    (gfxClear b (t.g.ctx.setCursor 0 0))
  refine ⟨_, ⟨hbetween, (hcleared.trans (hmoved.run b .clear)).trans hsame⟩, fun x => ?_⟩
  rw [data_gfxClear]
  change (if t.g.ctx.Cleared x then t.g.ctx.getBg else _) = _
  split
  · rfl
  · next hout =>
    rw [Gfx.data_showing (c := t.g.ctx.setCursor 0 0) h.rowStep, if_neg]
    exact fun hin => hout (hc.cell_cleared h.rowStep hc.rows hin)

end Ways

/-- **Erasing at home, all, and row by row** leave the same memory, context and saved cell exactly
if text has the background `bg`, what the clear of the screen fills beyond the pixels has its
colour already, and the cursor is drawn on pixels or cannot be seen on that background. -/
theorem erasures_agree_iff (b : Build) (t : Term) (hready : t.scn.Ready) (h : t.AtRest) (hc : t.g.ctx.Filled)
    (hd : b.gfxUseDma → t.g.ctx.FitsDma) :
    ((t.receive b [home, eraseBelow]).g.SameScreen (t.receive b [eraseAll]).g ∧
      (t.receive b [home, eraseBelow]).g.SameScreen (t.receive b (eraseRows t.g.ctx.HEIGHT)).g) ↔
      t.g.ctx.ErasesAlike t.g.logicalScreen := by
  have hstart := shows_start b hready h hc
  obtain ⟨d₁, hbelow, h₁⟩ := shows_eraseBelow (b := b) hc h.pitch h.rowStep hd hstart
  obtain ⟨d₂, hall, h₂⟩ := shows_eraseAll b hready h hc
  obtain ⟨d₃, hrows, h₃⟩ := shows_eraseRows (b := b) hc h.pitch h.rowStep hd hstart le_rfl
  have hback := shows_home (b := b) hc h.pitch (by have := hc.rows; omega) hrows
  have hlast : (t.receive b (eraseRows t.g.ctx.HEIGHT)).Shows t.g (t.g.ctx.setCursor 0 0) d₃ := by
    rw [eraseRows, List.cons_append, Term.receive_cons, Term.receive_append, Term.receive_cons, Term.receive_nil]
    exact hback
  rw [← pictures_agree_iff hc h.rowStep h₁ h₂ h₃]
  simp only [Term.receive_cons, Term.receive_nil]
  exact and_congr (hbelow.sameScreen_iff (c := t.g.ctx.setCursor 0 0) h.rowStep hall)
    (hbelow.sameScreen_iff (c := t.g.ctx.setCursor 0 0) h.rowStep hlast)

/-- Where the lines are as long as the pixels, there is nothing else to clear. -/
theorem Ctx.Filled.not_margin {c : Ctx} (hc : c.Filled) (hpitch : c.Pitch = c.W) (hsize : c.size = c.Pitch * c.H)
    (x : ℤ) : ¬c.Margin x := by
  rintro ⟨⟨hlo, hhi⟩, hpixel⟩
  obtain ⟨k, rfl⟩ : ∃ k : ℕ, x = c.pfb + k := ⟨(x - c.pfb).toNat, by omega⟩
  have hk : k < c.Pitch * c.H := by omega
  have hpos : 0 < c.Pitch := Nat.pos_of_mul_pos_right (Nat.zero_lt_of_lt hk)
  refine hpixel ⟨k / c.Pitch, ?_, k % c.Pitch, hpitch ▸ Nat.mod_lt k hpos, ?_⟩
  · rw [← hc.lines]
    exact Nat.div_lt_of_lt_mul hk
  · have hdiv : ((k / c.Pitch : ℕ) : ℤ) * c.Pitch + (k % c.Pitch : ℕ) = k := by
      exact_mod_cast Nat.div_add_mod' k c.Pitch
    omega

/-- The terminal at the start. -/
theorem erasures_agree_iff_start :
    let t := Term.start .shipped 0 640 480 640 307200 fun _ => 0
    (t.receive .shipped [home, eraseBelow]).g.SameScreen (t.receive .shipped [eraseAll]).g ∧
      (t.receive .shipped [home, eraseBelow]).g.SameScreen (t.receive .shipped (eraseRows t.g.ctx.HEIGHT)).g := by
  intro t
  obtain ⟨hrest, hready, hsized⟩ : t.AtRest ∧ t.scn.Ready ∧ t.g.ctx.Sized := Term.atRest_vga
  have hc : t.g.ctx.Filled := ⟨hsized, by decide, by decide, by decide, by decide⟩
  refine (erasures_agree_iff .shipped t hready hrest hc fun _ => ⟨by decide, by decide⟩).mpr
    ⟨Or.inl rfl, ?_, Or.inl (Or.inl (by decide))⟩
  exact fun x hx => absurd hx (hc.not_margin (by decide) (by decide) x)

/-- In inverse, `ESC [ J` gives black pixels and `ESC [ 2 J` green ones. -/
theorem erasures_differ :
    let t := gfxTermPutstring .shipped (text "\x1b[7m") (Term.start .shipped 0 640 480 640 307200 fun _ => 0)
    t.g.ctx.H = t.g.ctx.HEIGHT * t.g.ctx.fontHeight ∧ t.g.ctx.W = 8 * t.g.ctx.WIDTH ∧
      ¬(t.receive .shipped [home, eraseBelow]).g.SameScreen (t.receive .shipped [eraseAll]).g :=
  ⟨by decide, by decide, Gfx.not_sameScreen 5128 (by decide +kernel)⟩

end Pigfx
