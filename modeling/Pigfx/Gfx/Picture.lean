import Pigfx.Gfx.Logical
import Pigfx.Gfx.Grid

/-!
# The picture of a grid

What the pixels of the text area are when they show the cells of a grid, and what
painting a rectangle of cells or sliding rows of text does to the cells they show.

## Main definitions

* `Ctx.style` — the style the terminal prints with.
* `picture`, `Ctx.Shows` — the pixels of a grid, and a memory that holds them.
* `Ctx.Shows.paint`, `Ctx.Shows.deleteRows`, `Ctx.Shows.insertRows` — what drawing does.
-/

namespace Pigfx
open Lib

/-- Colours and rendition as the terminal keeps them. -/
def Ctx.style (c : Ctx) : Style where
  bg := c.bg
  fg := c.fg
  inverse := c.inverse
  underline := c.underline
  altCharset := c.altCharset
  defaultBg := c.defaultBg
  defaultFg := c.defaultFg

/-! ## Pixels -/

/-- The colour of a pixel of the text area. -/
def picture (c : Ctx) (cell : ℕ → ℕ → Cell) (x y : ℕ) : Byte :=
  (cell (y / c.fontHeight) (x / 8)).pixel c.fontHeight c.fontData (y % c.fontHeight) (x % 8)

/-- The address of pixel `j` of line `i` of the cell in row `r` and column `k`. -/
def Ctx.pixelAddr (c : Ctx) (r k i j : ℕ) : ℤ := c.PFB (k * 8 + j : ℕ) (r * c.fontHeight + i : ℕ)

/-- The memory holds the pixels of the cells. -/
def Ctx.Shows (c : Ctx) (cell : ℕ → ℕ → Cell) (d : ℤ → Byte) : Prop :=
  ∀ r < c.HEIGHT, ∀ k < c.WIDTH, ∀ i < c.fontHeight, ∀ j < 8,
    d (c.pixelAddr r k i j) = (cell r k).pixel c.fontHeight c.fontData i j

/-- The offset of a pixel in its row of text. -/
theorem Ctx.pixelAddr_eq (c : Ctx) (r k i j : ℕ) :
    c.pixelAddr r k i j = c.pfb + (c.lineBytes * r : ℕ) + (i * c.Pitch + (k * 8 + j) : ℕ) := by
  rw [pixelAddr, PFB, lineBytes]
  push_cast
  ring

theorem Ctx.offset_lt {c : Ctx} {k i j : ℕ} (hx : k * 8 + j < c.Pitch) (hi : i < c.fontHeight) :
    i * c.Pitch + (k * 8 + j) < c.lineBytes := by
  have hline : (i + 1) * c.Pitch ≤ c.fontHeight * c.Pitch := Nat.mul_le_mul_right _ hi
  rw [lineBytes, mul_comm c.Pitch]
  rw [Nat.add_mul] at hline
  omega

/-- Cells and lines count the same way. -/
theorem line_between {f r r₀ i n : ℕ} (hi : i < f) :
    (r₀ * f ≤ r * f + i ∧ r * f + i < r₀ * f + n * f) ↔ r₀ ≤ r ∧ r < r₀ + n := by
  rw [← Nat.add_mul]
  have hle : ∀ {a b : ℕ}, a ≤ b → a * f ≤ b * f := fun h => Nat.mul_le_mul_right f h
  constructor
  · rintro ⟨hlow, hhigh⟩
    constructor
    · by_contra hr
      have := hle (Nat.succ_le_of_lt (Nat.lt_of_not_le hr))
      rw [Nat.succ_mul] at this
      omega
    · by_contra hr
      have := hle (Nat.le_of_not_lt hr)
      omega
  · rintro ⟨hlow, hhigh⟩
    have hlast := hle (Nat.succ_le_of_lt hhigh)
    rw [Nat.succ_mul] at hlast
    have hfirst := hle hlow
    omega

namespace Ctx.Shows

variable {c : Ctx} {cell cell' : ℕ → ℕ → Cell} {d d' : ℤ → Byte}

theorem congr (h : c.Shows cell d) (hcell : ∀ r < c.HEIGHT, ∀ k < c.WIDTH, cell r k = cell' r k) :
    c.Shows cell' d := by
  intro r hr k hk i hi j hj
  rw [← hcell r hr k hk]
  exact h r hr k hk i hi j hj

/-- What is shown does not depend on the cursor or on the attributes. -/
theorem congr_ctx {c' : Ctx} (h : c.Shows cell d) (hg : c'.geometry = c.geometry) : c'.Shows cell d := by
  simp only [Ctx.geometry, Geometry.mk.injEq] at hg
  obtain ⟨-, -, hP, -, hpfb, -, -, -, hw, hh, -, hf, hdata⟩ := hg
  intro r hr k hk i hi j hj
  rw [hh] at hr
  rw [hw] at hk
  rw [hf] at hi
  have hpixel := h r hr k hk i hi j hj
  rw [pixelAddr, PFB] at hpixel ⊢
  rw [hpfb, hP, hf, hdata]
  exact hpixel

/-- The pixels of the text area. -/
theorem picture (hs : c.Screen) (h : c.Shows cell d) {x y : ℕ} (hx : x < c.W) (hy : y < c.H) :
    d (c.PFB x y) = Pigfx.picture c cell x y := by
  have hcolumns := hs.columns
  have hrow : y / c.fontHeight < c.HEIGHT := by
    rw [Nat.div_lt_iff_lt_mul hs.font, ← hs.lines]; exact hy
  have hpixel := h (y / c.fontHeight) hrow (x / 8) (by omega) (y % c.fontHeight)
    (Nat.mod_lt _ hs.font) (x % 8) (Nat.mod_lt _ (by omega))
  have hline : y / c.fontHeight * c.fontHeight + y % c.fontHeight = y := Nat.div_add_mod' _ _
  have hcol : x / 8 * 8 + x % 8 = x := Nat.div_add_mod' _ _
  rw [pixelAddr, hline, hcol] at hpixel
  exact hpixel

end Ctx.Shows

/-! ## Painted rectangles -/

/-- A painted rectangle, pixel by pixel. -/
theorem Paints.pixel {c : Ctx} {x₀ y₀ h w : ℕ} {v : ℕ → ℕ → Byte} {d d' : ℤ → Byte}
    (H : Paints (c.PFB x₀ y₀) c.Pitch h w v d d') (hw : x₀ + w ≤ c.Pitch) {x y : ℕ} (hx : x < c.Pitch) :
    d' (c.PFB x y) =
      if (x₀ ≤ x ∧ x < x₀ + w) ∧ y₀ ≤ y ∧ y < y₀ + h then v (y - y₀) (x - x₀) else d (c.PFB x y) := by
  split
  · rename_i hin
    obtain ⟨⟨hx₀, hx₁⟩, hy₀, hy₁⟩ := hin
    have haddr : c.PFB x y = c.PFB x₀ y₀ + (y - y₀ : ℕ) * (c.Pitch : ℤ) + (x - x₀ : ℕ) := by
      rw [Ctx.PFB, Ctx.PFB, Nat.cast_sub hx₀, Nat.cast_sub hy₀]
      ring
    rw [haddr, H.inside _ (by omega) _ (by omega)]
  · rename_i hout
    refine H.outside _ fun i hi => ?_
    rw [Ctx.PFB, Ctx.PFB]
    -- in an earlier line, in the same line, or in a later one
    rcases lt_trichotomy y (y₀ + i) with hlt | rfl | hgt
    · left
      have := row_apart (w := c.Pitch) (le_refl (c.Pitch : ℤ)) hlt
      push_cast at this
      linarith
    · push_cast
      rcases Nat.lt_or_ge x x₀ with hleft | hright
      · left; linarith
      · right
        have : x₀ + w ≤ x := by omega
        linarith
    · right
      have := row_apart (w := c.Pitch) (le_refl (c.Pitch : ℤ)) hgt
      push_cast at this
      linarith

namespace Ctx.Shows

variable {c : Ctx} {cell : ℕ → ℕ → Cell} {d d' : ℤ → Byte}

/-- **Painting a rectangle of cells** replaces these cells. -/
theorem paint (hs : c.Screen) (h : c.Shows cell d) (r₀ k₀ : ℕ) {n w : ℕ} {v : ℕ → ℕ → Byte}
    (H : Paints (c.PFB (k₀ * 8 : ℕ) (r₀ * c.fontHeight : ℕ)) c.Pitch (n * c.fontHeight) (w * 8) v d d')
    (hw : k₀ + w ≤ c.WIDTH) (new : ℕ → ℕ → Cell)
    (hv : ∀ r, r₀ ≤ r → r < r₀ + n → ∀ k, k₀ ≤ k → k < k₀ + w → ∀ i < c.fontHeight, ∀ j < 8,
      v ((r - r₀) * c.fontHeight + i) ((k - k₀) * 8 + j) = (new r k).pixel c.fontHeight c.fontData i j) :
    c.Shows (fun r k => if (k₀ ≤ k ∧ k < k₀ + w) ∧ r₀ ≤ r ∧ r < r₀ + n then new r k else cell r k) d' := by
  have hpitch := hs.pitch; have hcolumns := hs.columns
  intro r hr k hk i hi j hj
  have hx : k₀ * 8 ≤ k * 8 + j ∧ k * 8 + j < k₀ * 8 + w * 8 ↔ k₀ ≤ k ∧ k < k₀ + w := by omega
  rw [pixelAddr, Paints.pixel H (by omega) (by omega)]
  simp only [hx, line_between hi]
  split
  · rename_i hin
    have hline : r * c.fontHeight + i - r₀ * c.fontHeight = (r - r₀) * c.fontHeight + i := by
      have hle : r₀ * c.fontHeight ≤ r * c.fontHeight := Nat.mul_le_mul_right _ hin.2.1
      rw [Nat.sub_mul]
      omega
    have hcol : k * 8 + j - k₀ * 8 = (k - k₀) * 8 + j := by omega
    rw [hline, hcol]
    exact hv r hin.2.1 hin.2.2 k hin.1.1 hin.1.2 i hi j hj
  · exact h r hr k hk i hi j hj

/-- Painting all the memory of the text area makes every cell blank. -/
theorem clear (hs : c.Screen) {v : Byte} {pitch : ℤ} (H : Paints c.pfb pitch 1 c.size (fun _ _ => v) d d') :
    c.Shows (fun _ _ => .blank v) d' := by
  have hpitch := hs.pitch; have hcolumns := hs.columns; have hsize := hs.size_eq
  intro r hr k hk i hi j hj
  have hoff := Ctx.offset_lt (c := c) (k := k) (i := i) (j := j) (by omega) hi
  have hrow : c.lineBytes * (r + 1) ≤ c.lineBytes * c.HEIGHT := Nat.mul_le_mul_left _ hr
  rw [Nat.mul_succ] at hrow
  have hpixel := H.inside 0 (by omega) (c.lineBytes * r + (i * c.Pitch + (k * 8 + j))) (by omega)
  rw [Nat.cast_zero, zero_mul, add_zero, Nat.cast_add, ← add_assoc, ← c.pixelAddr_eq] at hpixel
  exact hpixel

end Ctx.Shows

/-! ## Characters -/

/-- The words of a character hold the pixels of its glyph. -/
theorem cellByte_putcWord (c : Ctx) (ch : Byte) {i j : ℕ} (hi : i < c.fontHeight) :
    cellByte (c.putcWord ch) i j = (Cell.glyph ch c.style).pixel c.fontHeight c.fontData i j := by
  have hk : j % 4 < 4 := Nat.mod_lt _ (by omega)
  have hpaper : c.style.paper = c.getBg := rfl
  have hink : c.style.ink = c.getFg := rfl
  have hlast : c.fontHeight - 1 - i = 2 ↔ i + 3 = c.fontHeight := by omega
  have hglyph : FONT_WIDTH = 8 := rfl
  have hindex : ch.toNat * 8 * c.fontHeight + 8 * i + 4 * (j / 4) + j % 4 =
      ch.toNat * 8 * c.fontHeight + 8 * i + j := by omega
  simp only [cellByte, Ctx.putcWord, glyphMix, byteOf_or, byteOf_and, byteOf_not _ hk, c.byteOf_getFg32 _ hk,
    c.byteOf_getBg32 _ hk, Cell.pixel, hpaper, hink, hlast]
  have hmask : byteOf (j % 4) (if c.underline ∧ i + 3 = c.fontHeight then
        if c.inverse then c.getBg32 else c.getFg32
      else wordOf fun l => c.fontData (ch.toNat * FONT_WIDTH * c.fontHeight + 8 * i + 4 * (j / 4) + l)) =
      if c.style.underline ∧ i + 3 = c.fontHeight then if c.style.inverse then c.getBg else c.getFg
      else c.fontData (ch.toNat * 8 * c.fontHeight + 8 * i + j) := by
    change _ = if c.underline ∧ i + 3 = c.fontHeight then if c.inverse then c.getBg else c.getFg else _
    split
    · split
      · exact c.byteOf_getBg32 _ hk
      · exact c.byteOf_getFg32 _ hk
    · rw [byteOf_wordOf _ _ hk, hglyph, hindex]
  rw [hmask]

/-! ## Rows that slide -/

namespace Ctx.Shows

variable {c : Ctx} {cell : ℕ → ℕ → Cell} {d d' : ℤ → Byte} {v : Byte} (hs : c.Screen) (h : c.Shows cell d)
include hs h

/-- Rows `a` to `a + q` go to `b`, and `p` blank ones come in at `g`. -/
theorem slide {a b q g p : ℕ} (H : Slides (c.pfb + (c.lineBytes * a : ℕ)) (c.pfb + (c.lineBytes * b : ℕ))
      (c.lineBytes * q) (c.pfb + (c.lineBytes * g : ℕ)) (c.lineBytes * p) v d d') (ha : a + q ≤ c.HEIGHT) :
    c.Shows (fun r k => if b ≤ r ∧ r < b + q then cell (r - b + a) k
      else if g ≤ r ∧ r < g + p then .blank v else cell r k) d' := by
  have hpitch := hs.pitch; have hcolumns := hs.columns
  intro r hr k hk i hi j hj
  have hoff := Ctx.offset_lt (c := c) (k := k) (i := i) (j := j) (by omega) hi
  -- a run of whole rows holds a pixel when it holds its row
  have hrun : ∀ r₀ n, (c.lineBytes * r₀ ≤ c.lineBytes * r + (i * c.Pitch + (k * 8 + j)) ∧
      c.lineBytes * r + (i * c.Pitch + (k * 8 + j)) < c.lineBytes * r₀ + c.lineBytes * n) ↔
      r₀ ≤ r ∧ r < r₀ + n := by
    intro r₀ n
    rw [mul_comm _ r₀, mul_comm _ r, mul_comm _ n]
    exact line_between hoff
  have hrow : ∀ {r₀}, r₀ ≤ r → c.lineBytes * (r - r₀) + c.lineBytes * r₀ = c.lineBytes * r := by
    intro r₀ hr₀
    rw [← Nat.mul_add, Nat.sub_add_cancel hr₀]
  have hmoved := hrun b q
  have hfilled := hrun g p
  dsimp only
  split
  · rename_i hin
    have hb := hrow hin.1
    have hmove := H.moved (c.lineBytes * (r - b) + (i * c.Pitch + (k * 8 + j))) (by omega)
    have hdst : c.pfb + (c.lineBytes * b : ℕ) + (c.lineBytes * (r - b) + (i * c.Pitch + (k * 8 + j)) : ℕ) =
        c.pixelAddr r k i j := by rw [c.pixelAddr_eq]; omega
    have hsrc : c.pfb + (c.lineBytes * a : ℕ) + (c.lineBytes * (r - b) + (i * c.Pitch + (k * 8 + j)) : ℕ) =
        c.pixelAddr (r - b + a) k i j := by rw [c.pixelAddr_eq, Nat.mul_add]; omega
    rw [hdst, hsrc] at hmove
    rw [hmove]
    exact h (r - b + a) (by omega) k hk i hi j hj
  · rename_i hout
    split
    · rename_i hin
      have hg := hrow hin.1
      have hfill := H.filled (c.lineBytes * (r - g) + (i * c.Pitch + (k * 8 + j))) (by omega)
      have hdst : c.pfb + (c.lineBytes * g : ℕ) + (c.lineBytes * (r - g) + (i * c.Pitch + (k * 8 + j)) : ℕ) =
          c.pixelAddr r k i j := by rw [c.pixelAddr_eq]; omega
      rw [hdst] at hfill
      rw [hfill]
      rfl
    · rename_i hapart
      rw [c.pixelAddr_eq, H.outside _ (by omega) (by omega), ← c.pixelAddr_eq]
      exact h r hr k hk i hi j hj

omit h in
theorem rest_eq (r : ℕ) : c.size - c.lineBytes * r = c.lineBytes * (c.HEIGHT - r) := by
  rw [hs.size_eq, Nat.mul_sub]

variable {row n : ℕ} (hn : row + n ≤ c.HEIGHT)
include hn

/-- Rows that go up, with blank ones below. -/
theorem deleteRows (H : Slides (c.pfb + (c.lineBytes * (row + n) : ℕ)) (c.pfb + (c.lineBytes * row : ℕ))
      (c.size - c.lineBytes * (row + n)) (c.pfb + c.size - (c.lineBytes * n : ℕ)) (c.lineBytes * n) v d d') :
    c.Shows (fun r k => if r < row then cell r k
      else if r + n < c.HEIGHT then cell (r + n) k else .blank v) d' := by
  have hgap : c.pfb + c.size - (c.lineBytes * n : ℕ) = c.pfb + (c.lineBytes * (c.HEIGHT - n) : ℕ) := by
    have hle : c.lineBytes * n ≤ c.lineBytes * c.HEIGHT := Nat.mul_le_mul_left _ (by omega)
    rw [hs.size_eq, Nat.mul_sub]
    omega
  rw [rest_eq hs, hgap] at H
  refine (slide hs h H (by omega)).congr fun r hr k _ => ?_
  by_cases habove : r < row
  · rw [if_neg (by omega), if_neg (by omega), if_pos habove]
  · by_cases hmoved : r + n < c.HEIGHT
    · have hrow : r - row + (row + n) = r + n := by omega
      rw [if_pos (by omega), if_neg habove, if_pos hmoved, hrow]
    · rw [if_neg (by omega), if_pos (by omega), if_neg habove, if_neg hmoved]

/-- Rows that go down, with blank ones in between. -/
theorem insertRows (H : Slides (c.pfb + (c.lineBytes * row : ℕ)) (c.pfb + (c.lineBytes * (row + n) : ℕ))
      (c.size - c.lineBytes * (row + n)) (c.pfb + (c.lineBytes * row : ℕ)) (c.lineBytes * n) v d d') :
    c.Shows (fun r k => if r < row then cell r k
      else if r < row + n then .blank v else cell (r - n) k) d' := by
  rw [rest_eq hs] at H
  refine (slide hs h H (by omega)).congr fun r hr k _ => ?_
  by_cases habove : r < row
  · rw [if_neg (by omega), if_neg (by omega), if_pos habove]
  · by_cases hblank : r < row + n
    · rw [if_neg (by omega), if_pos (by omega), if_neg habove, if_pos hblank]
    · have hrow : r - (row + n) + row = r - n := by omega
      rw [if_pos (by omega), if_neg habove, if_neg hblank, hrow]

end Ctx.Shows

end Pigfx
