import Pigfx.Gfx.Gsx
import Pigfx.Gfx.Requests
import Mathlib.Algebra.Group.Prod

/-!
# Rotated text

`gfx_draw_text` has a copy of its loops for each of four directions.  In each of them the
shift to the baseline, the pixels of a glyph and the advance to the next glyph are one
quarter turn of those of the direction before; the loops over the sub-pixels of a block
may run in the other order.

## Main definitions

* `rotate` — an offset from the anchor, turned into a direction.
* `textPixels` — the requests of a text.
* `textOffsets` — the offsets of a text that is not turned.
* `gfxDrawText_rotated` — a turned text requests the turned pixels.
-/

namespace Pigfx
open Lib

/-- An offset turned into a text direction, counter-clockwise on a screen whose rows run
downwards. -/
def rotate (direction : ℤ) (o : Pixel) : Pixel :=
  match direction with
  | 900 => (o.2, -o.1)
  | 1800 => (-o.1, -o.2)
  | 2700 => (-o.2, o.1)
  | _ => o

theorem rotate_add (direction : ℤ) (o o' : Pixel) :
    rotate direction (o + o') = rotate direction o + rotate direction o' := by
  simp only [rotate]
  split
  · ext <;> simp
    ring
  · ext <;> simp <;> ring
  · ext <;> simp
    ring
  · rfl

/-! ## Requests -/

/-- The requests of one glyph. -/
def glyphPixels (c : Ctx) (gsx : GsxState) (ch : Byte) (x y : ℤ) : List Pixel :=
  let pixel (xx yy i j : ℕ) : Pixel := textPixel gsx.textDirection gsx.textSize x y xx yy i j
  (List.range c.fontHeight).flatMap fun yy => (List.range FONT_WIDTH).flatMap fun xx =>
    if c.fontData (ch.toNat * FONT_WIDTH * c.fontHeight + yy * FONT_WIDTH + xx) = 0 then []
    else if gsx.textSize = 1 then [pixel xx yy 0 0]
    else (List.range gsx.textSize.toNat).flatMap fun i =>
      (List.range gsx.textSize.toNat).flatMap fun j => [pixel xx yy i j]

/-- The position of a glyph, after those in front of it. -/
def textPosition (gsx : GsxState) (p : Pixel) (k : ℕ) : Pixel :=
  iterate k (fun _ p => textAdvance gsx p.1 p.2) p

/-- The requests of a text. -/
def textPixels (c : Ctx) (gsx : GsxState) (codes : ℕ → Byte) (nChars : ℕ) (x y : ℤ) : List Pixel :=
  (List.range nChars).flatMap fun k =>
    let p := textPosition gsx (textAnchor gsx x y) k
    glyphPixels c gsx (codes k) p.1 p.2

theorem drawGlyph_eq (c : Ctx) (gsx : GsxState) (ch : Byte) (x y : ℤ) (m : Bus) :
    drawGlyph c gsx ch x y m = gfxPixels c (toCol gsx.textColour) (glyphPixels c gsx ch x y) m := by
  rw [drawGlyph, glyphPixels, ← iterate_gfxPixels]
  apply iterate_congr
  intro yy m _
  rw [← iterate_gfxPixels]
  apply iterate_congr
  intro xx m _
  split
  · rfl
  split
  · rfl
  · rw [← iterate_gfxPixels]
    apply iterate_congr
    intro i m _
    rw [← iterate_gfxPixels]
    rfl

/-- `gfx_draw_text` makes these requests. -/
theorem gfxDrawText_eq (st : ScnState) (g : Gfx) :
    gfxDrawText st g = g.draw (gfxPixels g.ctx (toCol g.gsx.textColour)
      (textPixels g.ctx g.gsx (fun i => (st.param (i + 4)).setWidth 8) (st.param 1).toNat
        (st.intParam 2) (st.intParam 3))) := by
  rw [gfxDrawText]
  refine Gfx.draw_congr (fun m => ?_) g
  have hloop := iterate_pair (st.param 1).toNat (fun _ (p : Pixel) => textAdvance g.gsx p.1 p.2)
    (fun i p m => drawGlyph g.ctx g.gsx ((st.param (i + 4)).setWidth 8) p.1 p.2 m)
    (textAnchor g.gsx (st.intParam 2) (st.intParam 3)) m
  rw [textPixels, ← iterate_gfxPixels, hloop]
  apply iterate_congr
  intro k m _
  exact drawGlyph_eq _ _ _ _ _ m

/-! ## Directions -/

/-- The baseline. -/
theorem textAnchor_eq (gsx : GsxState) (x y : ℤ) :
    textAnchor gsx x y = (x, y) + rotate gsx.textDirection (0, -(gsx.textHeight - 1)) := by
  simp only [textAnchor, rotate]
  split
  case h_1 h => simp [h, sub_eq_add_neg]
  case h_2 h => simp [h]
  case h_3 h => simp [h]
  case h_4 => simp [sub_eq_add_neg]

/-- The advance. -/
theorem textAdvance_eq (gsx : GsxState) (p : Pixel) :
    textAdvance gsx p.1 p.2 = p + rotate gsx.textDirection (FONT_WIDTH * gsx.textSize, 0) := by
  simp only [textAdvance, rotate]
  split
  case h_1 h => ext <;> simp [h, sub_eq_add_neg]
  case h_2 h => ext <;> simp [h, sub_eq_add_neg]
  case h_3 h => ext <;> simp [h]
  case h_4 => ext <;> simp

theorem textPosition_eq (gsx : GsxState) (p : Pixel) (k : ℕ) :
    textPosition gsx p k = p + rotate gsx.textDirection (k * (FONT_WIDTH * gsx.textSize), 0) := by
  induction k with
  | zero =>
    have hzero : rotate gsx.textDirection (0, 0) = 0 := by
      simp only [rotate]
      split <;> rfl
    simp [textPosition, hzero]
  | succ k ih =>
    rw [textPosition, iterate_succ, ← textPosition, ih, textAdvance_eq, add_assoc, ← rotate_add]
    congr 2
    ext <;> simp
    ring

/-- A sub-pixel of a block; two directions run through the block the other way. -/
theorem textPixel_eq (direction size : ℤ) (p : Pixel) (xx yy i j : ℤ) :
    textPixel direction size p.1 p.2 xx yy i j = p + rotate direction
      (if direction = 900 ∨ direction = 2700 then (xx * size + j, yy * size + i)
        else (xx * size + i, yy * size + j)) := by
  simp only [textPixel, rotate]
  split
  · ext <;> simp <;> ring
  · ext <;> simp <;> ring
  · ext <;> simp <;> ring
  · ext <;> simp_all <;> ring

/-- The offsets from the anchor of the pixels of a text that runs to the right. -/
def textOffsets (c : Ctx) (size height : ℤ) (codes : ℕ → Byte) (nChars : ℕ) : Set Pixel :=
  {o | ∃ k < nChars, ∃ yy < c.fontHeight, ∃ xx < FONT_WIDTH,
    c.fontData ((codes k).toNat * FONT_WIDTH * c.fontHeight + yy * FONT_WIDTH + xx) ≠ 0 ∧
    ∃ i < size.toNat, ∃ j < size.toNat,
      o = (k * (FONT_WIDTH * size) + xx * size + i, yy * size + j - (height - 1))}

/-- The pixels of a glyph: for each of its dots a block of `size` by `size`. -/
theorem mem_glyphPixels {c : Ctx} {gsx : GsxState} {ch : Byte} {x y : ℤ} {q : Pixel} :
    q ∈ glyphPixels c gsx ch x y ↔ ∃ yy < c.fontHeight, ∃ xx < FONT_WIDTH,
      c.fontData (ch.toNat * FONT_WIDTH * c.fontHeight + yy * FONT_WIDTH + xx) ≠ 0 ∧
      ∃ i < gsx.textSize.toNat, ∃ j < gsx.textSize.toNat,
        textPixel gsx.textDirection gsx.textSize x y xx yy i j = q := by
  simp only [glyphPixels, List.mem_flatMap, List.mem_range]
  constructor
  · rintro ⟨yy, hyy, xx, hxx, hq⟩
    refine ⟨yy, hyy, xx, hxx, ?_⟩
    split at hq
    case isTrue => exact absurd hq List.not_mem_nil
    case isFalse hdot =>
      refine ⟨hdot, ?_⟩
      split at hq
      case isTrue hone =>
        rw [List.mem_singleton] at hq
        exact ⟨0, by omega, 0, by omega, hq.symm⟩
      case isFalse =>
        simp only [List.mem_flatMap, List.mem_range, List.mem_singleton] at hq
        rcases hq with ⟨i, hi, j, hj, rfl⟩
        exact ⟨i, hi, j, hj, rfl⟩
  · rintro ⟨yy, hyy, xx, hxx, hdot, i, hi, j, hj, rfl⟩
    refine ⟨yy, hyy, xx, hxx, ?_⟩
    rw [if_neg hdot]
    split
    case isTrue hone =>
      -- a block of one pixel
      obtain rfl : i = 0 := by omega
      obtain rfl : j = 0 := by omega
      exact List.mem_singleton_self _
    case isFalse =>
      simp only [List.mem_flatMap, List.mem_range, List.mem_singleton]
      exact ⟨i, hi, j, hj, rfl⟩

/-- **Every direction requests the turned offsets.** -/
theorem mem_textPixels (c : Ctx) (gsx : GsxState) (codes : ℕ → Byte) (nChars : ℕ) (x y : ℤ) (q : Pixel) :
    q ∈ textPixels c gsx codes nChars x y ↔
      ∃ o ∈ textOffsets c gsx.textSize gsx.textHeight codes nChars,
        (x, y) + rotate gsx.textDirection o = q := by
  have hposition : ∀ k : ℕ, textPosition gsx (textAnchor gsx x y) k =
      (x, y) + rotate gsx.textDirection (k * (FONT_WIDTH * gsx.textSize), -(gsx.textHeight - 1)) := by
    intro k
    rw [textPosition_eq, textAnchor_eq, add_assoc, ← rotate_add]
    congr 2
    ext <;> simp
  have hpixel : ∀ (k : ℕ) (xx yy i j : ℤ),
      textPixel gsx.textDirection gsx.textSize (textPosition gsx (textAnchor gsx x y) k).1
        (textPosition gsx (textAnchor gsx x y) k).2 xx yy i j =
      (x, y) + rotate gsx.textDirection
        (if gsx.textDirection = 900 ∨ gsx.textDirection = 2700 then
          (k * (FONT_WIDTH * gsx.textSize) + xx * gsx.textSize + j,
            yy * gsx.textSize + i - (gsx.textHeight - 1))
        else (k * (FONT_WIDTH * gsx.textSize) + xx * gsx.textSize + i,
            yy * gsx.textSize + j - (gsx.textHeight - 1))) := by
    intro k xx yy i j
    rw [textPixel_eq, hposition, add_assoc, ← rotate_add]
    congr 2
    split <;> ext <;> simp <;> ring
  simp only [textPixels, List.mem_flatMap, List.mem_range, mem_glyphPixels, hpixel]
  by_cases hturned : gsx.textDirection = 900 ∨ gsx.textDirection = 2700
  · simp only [if_pos hturned]
    constructor
    · rintro ⟨k, hk, yy, hyy, xx, hxx, hdot, i, hi, j, hj, rfl⟩
      exact ⟨_, ⟨k, hk, yy, hyy, xx, hxx, hdot, j, hj, i, hi, rfl⟩, rfl⟩
    · rintro ⟨o, ⟨k, hk, yy, hyy, xx, hxx, hdot, i, hi, j, hj, rfl⟩, rfl⟩
      exact ⟨k, hk, yy, hyy, xx, hxx, hdot, j, hj, i, hi, rfl⟩
  · simp only [if_neg hturned]
    constructor
    · rintro ⟨k, hk, yy, hyy, xx, hxx, hdot, i, hi, j, hj, rfl⟩
      exact ⟨_, ⟨k, hk, yy, hyy, xx, hxx, hdot, i, hi, j, hj, rfl⟩, rfl⟩
    · rintro ⟨o, ⟨k, hk, yy, hyy, xx, hxx, hdot, i, hi, j, hj, rfl⟩, rfl⟩
      exact ⟨k, hk, yy, hyy, xx, hxx, hdot, i, hi, j, hj, rfl⟩

/-! ## Rotation -/

/-- The pixels a text requests in a direction. -/
def textRequests (c : Ctx) (gsx : GsxState) (codes : ℕ → Byte) (nChars : ℕ) (x y direction : ℤ) :
    Set Pixel :=
  {q | q ∈ textPixels c { gsx with textDirection := direction } codes nChars x y}

theorem textRequests_eq_image (c : Ctx) (gsx : GsxState) (codes : ℕ → Byte) (nChars : ℕ)
    (x y direction : ℤ) :
    textRequests c gsx codes nChars x y direction =
      (fun o => (x, y) + rotate direction o) ''
        textOffsets c gsx.textSize gsx.textHeight codes nChars := by
  ext q
  exact mem_textPixels c { gsx with textDirection := direction } codes nChars x y q

/-- A map that takes the offsets to the turned ones takes the requests to the turned ones. -/
theorem textRequests_turn (c : Ctx) (gsx : GsxState) (codes : ℕ → Byte) (nChars : ℕ) (x y direction : ℤ)
    {turn : Pixel → Pixel} (hturn : ∀ o, (x, y) + rotate direction o = turn ((x, y) + rotate 0 o)) :
    textRequests c gsx codes nChars x y direction = turn '' textRequests c gsx codes nChars x y 0 := by
  rw [textRequests_eq_image, textRequests_eq_image, Set.image_image]
  apply Set.image_congr
  intro o _
  exact hturn o

/-- **Rotated text is rotated.**  For the directions 900, 1800 and 2700 the requests are the
images of those for the direction 0 under quarter turns about the anchor. -/
theorem gfxDrawText_rotated (c : Ctx) (gsx : GsxState) (codes : ℕ → Byte) (nChars : ℕ) (x y : ℤ) :
    (∀ (st : ScnState) (g : Gfx), gfxDrawText st g = g.draw (gfxPixels g.ctx (toCol g.gsx.textColour)
      (textPixels g.ctx g.gsx (fun i => (st.param (i + 4)).setWidth 8) (st.param 1).toNat
        (st.intParam 2) (st.intParam 3)))) ∧
    textRequests c gsx codes nChars x y 900 =
      (fun p => (x + (p.2 - y), y - (p.1 - x))) '' textRequests c gsx codes nChars x y 0 ∧
    textRequests c gsx codes nChars x y 1800 =
      (fun p => (x - (p.1 - x), y - (p.2 - y))) '' textRequests c gsx codes nChars x y 0 ∧
    textRequests c gsx codes nChars x y 2700 =
      (fun p => (x - (p.2 - y), y + (p.1 - x))) '' textRequests c gsx codes nChars x y 0 := by
  refine ⟨gfxDrawText_eq, ?_, ?_, ?_⟩
  · apply textRequests_turn
    intro o
    ext <;> simp [rotate, sub_eq_add_neg]
  · apply textRequests_turn
    intro o
    ext <;> simp [rotate, sub_eq_add_neg]
  · apply textRequests_turn
    intro o
    ext <;> simp [rotate, sub_eq_add_neg]

end Pigfx
