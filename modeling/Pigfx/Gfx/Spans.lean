import Pigfx.Gfx.Requests

/-!
# Filled spans

`gfx_filled_hline` draws some styles with `gfx_pixel`, which discards what is off the
screen, and others with `gfx_line`, which moves it to the nearest pixel of the screen.
The two agree as long as a part of the span is visible.

## Main definitions

* `styleMask` — the pixels a fill style selects.
* `drawnAsLine` — the style is drawn with `gfx_line` on a row.
* `spanArea` — the pixels of a span that are visible and that the style selects.
* `gfxFilledHline_iff` — when a span is clipped to the screen and to its style.
-/

namespace Pigfx
open Lib

/-- Requests paint the addresses of those on the screen. -/
theorem stores_gfxPixels (c : Ctx) (clr : GfxCol) (ps : List Pixel) :
    Stores (gfxPixels c clr ps) {a | ∃ p ∈ ps, c.OnScreen p ∧ c.addr p = a} fun _ => clr := by
  intro m a
  rw [data_gfxPixels]
  exact ⟨fun h => if_pos h, fun h => if_neg h⟩

/-- A line paints the addresses of its pixels. -/
theorem stores_gfxLine (c : Ctx) (x0 y0 x1 y1 : ℤ) (clr : GfxCol) :
    Stores (gfxLine c x0 y0 x1 y1 clr)
      {a | ∃ p ∈ (lineBetween (c.clamp (x0, y0)) (c.clamp (x1, y1))).pixels, c.addr p = a}
      fun _ => clr := by
  intro m a
  rw [gfxLine_eq, Bus.data_putAll]
  simp only [List.mem_map]
  exact ⟨fun h => if_pos h, fun h => if_neg h⟩

/-! ## Styles -/

/-- The pixels a style selects. -/
def styleMask (gsx : GsxState) (x y : ℤ) : Bool :=
  match gsx.fillStyle with
  | 1 => true
  | 2 =>
      match gsx.fillIndex with
      | 2 => halftoneBit halftone1 x y
      | 3 => halftoneBit halftone2 x y
      | 4 => halftoneBit halftone3 x y
      | 5 => halftoneBit halftone4 x y
      | 6 => true
      | _ => false
  | 3 =>
      match gsx.fillIndex with
      | 1 => x % 4 = 0
      | 2 => y % 4 = 0
      | 3 => (x + y) % 5 = 0
      | 4 => (x - y) % 5 = 0
      | 5 => x % 4 = 0 ∨ y % 4 = 0
      | 6 => (x + y) % 5 = 0 ∨ (x - y) % 5 = 0
      | _ => false
  | _ => false

/-- The style is drawn with `gfx_line` on the row `y`. -/
def drawnAsLine (gsx : GsxState) (y : ℤ) : Bool :=
  match gsx.fillStyle with
  | 1 => true
  | 2 => gsx.fillIndex = 6
  | 3 => (gsx.fillIndex = 2 ∨ gsx.fillIndex = 5) ∧ y % 4 = 0
  | _ => false

/-- The pixels a span requests. -/
def spanPixels (x0 x1 y : ℤ) (p : ℤ → Bool) : List Pixel :=
  (List.range (x1 - x0 + 1).toNat).flatMap fun i => if p (x0 + (i : ℕ)) then [(x0 + (i : ℕ), y)] else []

theorem pixelSpan_eq (c : Ctx) (x0 x1 y : ℤ) (clr : GfxCol) (p : ℤ → Bool) (m : Bus) :
    pixelSpan c x0 x1 y clr p m = gfxPixels c clr (spanPixels x0 x1 y p) m := by
  rw [pixelSpan, spanPixels, ← iterate_gfxPixels]
  apply iterate_congr
  intro i m _
  exact (gfxPixels_ite c clr (p (x0 + i)) (x0 + i, y) m).symm

theorem mem_spanPixels {x0 x1 y : ℤ} {p : ℤ → Bool} {q : Pixel} :
    q ∈ spanPixels x0 x1 y p ↔ ∃ x, x0 ≤ x ∧ x ≤ x1 ∧ p x = true ∧ (x, y) = q := by
  simp only [spanPixels, List.mem_flatMap, List.mem_range]
  constructor
  · rintro ⟨i, hi, hq⟩
    split at hq
    case isTrue hp =>
      rw [List.mem_singleton] at hq
      exact ⟨x0 + i, by omega, by omega, hp, hq.symm⟩
    case isFalse => exact absurd hq List.not_mem_nil
  · rintro ⟨x, hx0, hx1, hp, rfl⟩
    have hx : x0 + ((x - x0).toNat : ℤ) = x := by omega
    refine ⟨(x - x0).toNat, by omega, ?_⟩
    rw [hx, if_pos hp]
    exact List.mem_singleton_self _

theorem pixelSpan_none (c : Ctx) (x0 x1 y : ℤ) (clr : GfxCol) (m : Bus) :
    pixelSpan c x0 x1 y clr (fun _ => false) m = m := by
  have hnone : spanPixels x0 x1 y (fun _ => false) = [] := by
    simp only [spanPixels, Bool.false_eq_true, if_false, List.flatMap_eq_nil_iff]
    intro _ _
    trivial
  rw [pixelSpan_eq, hnone, gfxPixels_nil]

/-- **The two ways of drawing a span.** -/
theorem gfxFilledHline_eq (c : Ctx) (gsx : GsxState) (x0 x1 y : ℤ) (clr : GfxCol) (m : Bus) :
    gfxFilledHline c gsx x0 x1 y clr m =
      if drawnAsLine gsx y then gfxLine c x0 y x1 y clr m
      else pixelSpan c x0 x1 y clr (styleMask gsx · y) m := by
  simp only [gfxFilledHline, drawnAsLine, styleMask]
  split
  case h_1 h => simp [h, pixelSpan_none]
  case h_2 h => simp [h]
  case h_3 h => split <;> simp_all [pixelSpan_none]
  case h_4 h => split <;> simp_all [pixelSpan_none]
  case h_5 => simp_all [pixelSpan_none]

/-- A style selects the whole of a row on which it is drawn as a line. -/
theorem styleMask_of_drawnAsLine {gsx : GsxState} {y : ℤ} (h : drawnAsLine gsx y = true) (x : ℤ) :
    styleMask gsx x y = true := by
  simp only [drawnAsLine, styleMask] at *
  split at h
  case h_1 => rfl
  case h_2 => simp_all
  case h_3 =>
    simp only [Bool.decide_and, Bool.and_eq_true, decide_eq_true_eq] at h
    rcases h with ⟨hi | hi, hy⟩ <;> simp [hi, hy]
  case h_4 => exact absurd h Bool.false_ne_true

/-! ## Horizontal lines -/

/-- A horizontal line has one pixel for each column between its ends. -/
theorem mem_lineBetween_horizontal {x0 x1 y : ℤ} (h : x0 ≤ x1) {q : Pixel} :
    q ∈ (lineBetween (x0, y) (x1, y)).pixels ↔ x0 ≤ q.1 ∧ q.1 ≤ x1 ∧ q.2 = y := by
  have hsteep : steep (x0, y) (x1, y) = false := by
    have habs := abs_nonneg (x0 - x1)
    rw [steep, sub_self, abs_zero]
    exact decide_eq_false (not_lt.mpr habs)
  have hends : (lineBetween (x0, y) (x1, y)).steep = false ∧
      (lineBetween (x0, y) (x1, y)).major0 = x0 ∧ (lineBetween (x0, y) (x1, y)).major1 = x1 ∧
      (lineBetween (x0, y) (x1, y)).minor0 = y ∧ (lineBetween (x0, y) (x1, y)).minor1 = y := by
    simp [lineBetween, DigitalLine.ofEnds, majorOf, minorOf, hsteep, h]
  rcases hends with ⟨hs, ha0, ha1, hb0, hb1⟩
  generalize lineBetween (x0, y) (x1, y) = L at *
  have hrect : ∀ r ∈ L.pixels, x0 ≤ r.1 ∧ r.1 ≤ x1 ∧ r.2 = y := by
    intro r hr
    have hmem := L.mem_rectangle hr
    rw [ha0, ha1, hb0, hb1] at hmem
    simp only [DigitalLine.major, DigitalLine.minor, hs, Bool.false_eq_true, if_false, min_self,
      max_self] at hmem
    omega
  constructor
  · exact hrect q
  · rintro ⟨h0, h1, hy⟩
    have hextent : L.extent = x1 - x0 := by rw [DigitalLine.extent, ha0, ha1]
    have hpoint : L.point (q.1 - x0).toNat ∈ L.pixels :=
      L.mem_pixels.mpr ⟨(q.1 - x0).toNat, by omega, rfl⟩
    have hrow := (hrect _ hpoint).2.2
    have hcolumn : (L.point (q.1 - x0).toNat).1 = q.1 := by
      have hmajor := L.major_place (x0 + (q.1 - x0).toNat)
        (L.minor0 + L.dir * minorAt L.extent L.rise (q.1 - x0).toNat)
      rw [DigitalLine.major, hs, if_neg Bool.false_ne_true] at hmajor
      rw [DigitalLine.point, ha0, hmajor]
      omega
    have hq : L.point (q.1 - x0).toNat = q := by
      ext
      · exact hcolumn
      · rw [hrow, hy]
    rw [← hq]
    exact hpoint

/-- What a span drawn as a line paints. -/
theorem stores_gfxLine_horizontal (c : Ctx) {x0 x1 : ℤ} (h : x0 ≤ x1) (y : ℤ) (clr : GfxCol) :
    Stores (gfxLine c x0 y x1 y clr)
      {a | ∃ x, (c.clamp (x0, y)).1 ≤ x ∧ x ≤ (c.clamp (x1, y)).1 ∧ c.addr (x, (c.clamp (x0, y)).2) = a}
      fun _ => clr := by
  apply (stores_gfxLine c x0 y x1 y clr).congr
  have hle : (c.clamp (x0, y)).1 ≤ (c.clamp (x1, y)).1 := by
    simp only [Ctx.clamp]
    omega
  ext a
  constructor
  · rintro ⟨p, hp, rfl⟩
    have hmem := (mem_lineBetween_horizontal hle).mp hp
    have hrow : p.2 = (c.clamp (x0, y)).2 := hmem.2.2
    exact ⟨p.1, hmem.1, hmem.2.1, by rw [← hrow]⟩
  · rintro ⟨x, h0, h1, rfl⟩
    exact ⟨(x, (c.clamp (x0, y)).2), (mem_lineBetween_horizontal hle).mpr ⟨h0, h1, rfl⟩, rfl⟩

/-! ## Clipping -/

/-- The addresses of the pixels of a span that lie on the screen and that the style selects. -/
def spanArea (c : Ctx) (gsx : GsxState) (x0 x1 y : ℤ) : Set ℤ :=
  {a | ∃ x, x0 ≤ x ∧ x ≤ x1 ∧ c.OnScreen (x, y) ∧ styleMask gsx x y = true ∧ c.addr (x, y) = a}

/-- The addresses that are painted. -/
def paintedArea (c : Ctx) (gsx : GsxState) (x0 x1 y : ℤ) : Set ℤ :=
  if drawnAsLine gsx y then
    {a | ∃ x, (c.clamp (x0, y)).1 ≤ x ∧ x ≤ (c.clamp (x1, y)).1 ∧ c.addr (x, (c.clamp (x0, y)).2) = a}
  else spanArea c gsx x0 x1 y

/-- **What a filled span paints.** -/
theorem stores_gfxFilledHline (c : Ctx) (gsx : GsxState) {x0 x1 : ℤ} (h : x0 ≤ x1) (y : ℤ)
    (clr : GfxCol) :
    Stores (gfxFilledHline c gsx x0 x1 y clr) (paintedArea c gsx x0 x1 y) fun _ => clr := by
  intro m a
  rw [gfxFilledHline_eq, paintedArea]
  by_cases hline : drawnAsLine gsx y = true
  · rw [if_pos hline, if_pos hline]
    exact stores_gfxLine_horizontal c h y clr m a
  · rw [if_neg hline, if_neg hline, pixelSpan_eq]
    apply (stores_gfxPixels c clr _).congr
    ext a
    constructor
    · rintro ⟨p, hp, hon, rfl⟩
      rcases mem_spanPixels.mp hp with ⟨x, h0, h1, hmask, rfl⟩
      exact ⟨x, h0, h1, hon, hmask, rfl⟩
    · rintro ⟨x, h0, h1, hon, hmask, rfl⟩
      exact ⟨(x, y), mem_spanPixels.mpr ⟨x, h0, h1, hmask, rfl⟩, hon, rfl⟩

/-- Adjacent spans paint what the span over both paints. -/
theorem paintedArea_union (c : Ctx) (gsx : GsxState) {x0 x1 x2 : ℤ} (h : x0 ≤ x1) (h' : x1 < x2)
    (y : ℤ) : paintedArea c gsx x0 x1 y ∪ paintedArea c gsx (x1 + 1) x2 y = paintedArea c gsx x0 x2 y := by
  rw [paintedArea, paintedArea, paintedArea]
  by_cases hline : drawnAsLine gsx y = true
  · rw [if_pos hline, if_pos hline, if_pos hline]
    ext a
    simp only [Ctx.clamp, Set.mem_union, Set.mem_ofPred_eq]
    constructor
    · rintro (⟨x, hx0, hx1, rfl⟩ | ⟨x, hx0, hx1, rfl⟩)
      · exact ⟨x, by omega, by omega, rfl⟩
      · exact ⟨x, by omega, by omega, rfl⟩
    · rintro ⟨x, hx0, hx1, rfl⟩
      by_cases hx : x ≤ max (min x1 (c.W - 1)) 0
      · exact Or.inl ⟨x, hx0, hx, rfl⟩
      · exact Or.inr ⟨x, by omega, hx1, rfl⟩
  · rw [if_neg hline, if_neg hline, if_neg hline]
    ext a
    simp only [spanArea, Set.mem_union, Set.mem_ofPred_eq]
    constructor
    · rintro (⟨x, hx0, hx1, hx⟩ | ⟨x, hx0, hx1, hx⟩)
      · exact ⟨x, hx0, by omega, hx⟩
      · exact ⟨x, by omega, hx1, hx⟩
    · rintro ⟨x, hx0, hx1, hx⟩
      by_cases hle : x ≤ x1
      · exact Or.inl ⟨x, hx0, hle, hx⟩
      · exact Or.inr ⟨x, by omega, hx1, hx⟩

/-- Filling a span in two pieces. -/
theorem gfxFilledHline_split (c : Ctx) (gsx : GsxState) {x0 x1 x2 : ℤ} (h : x0 ≤ x1) (h' : x1 < x2)
    (y : ℤ) (clr : GfxCol) (m : Bus) :
    (gfxFilledHline c gsx (x1 + 1) x2 y clr (gfxFilledHline c gsx x0 x1 y clr m)).data =
      (gfxFilledHline c gsx x0 x2 y clr m).data := by
  have hfirst := stores_gfxFilledHline c gsx h y clr
  have hsecond := stores_gfxFilledHline c gsx (show x1 + 1 ≤ x2 by omega) y clr
  have hboth := (hfirst.comp hsecond).congr (paintedArea_union c gsx h h' y)
  exact hboth.unique (stores_gfxFilledHline c gsx (by omega) y clr) m

/-- On a line the painted pixels are those of the span exactly if one of them is visible. -/
theorem paintedArea_eq_iff (c : Ctx) (gsx : GsxState) {x0 x1 : ℤ} (h : x0 ≤ x1) (y : ℤ) :
    paintedArea c gsx x0 x1 y = spanArea c gsx x0 x1 y ↔
      drawnAsLine gsx y = false ∨ ∃ x, x0 ≤ x ∧ x ≤ x1 ∧ c.OnScreen (x, y) := by
  by_cases hline : drawnAsLine gsx y = true
  · have hmask := styleMask_of_drawnAsLine hline
    rw [paintedArea, if_pos hline]
    constructor
    · intro heq
      -- the first pixel of the line is painted in any case
      have hfirst : c.addr ((c.clamp (x0, y)).1, (c.clamp (x0, y)).2) ∈ spanArea c gsx x0 x1 y := by
        rw [← heq]
        refine ⟨(c.clamp (x0, y)).1, le_rfl, ?_, rfl⟩
        simp only [Ctx.clamp]
        omega
      rcases hfirst with ⟨x, hx0, hx1, hon, -, -⟩
      exact Or.inr ⟨x, hx0, hx1, hon⟩
    · rintro (hneg | ⟨x, hx0, hx1, hon⟩)
      · rw [hline] at hneg
        exact absurd hneg.symm Bool.false_ne_true
      · simp only [Ctx.OnScreen] at hon
        have hrow : (c.clamp (x0, y)).2 = y := by
          simp only [Ctx.clamp]
          omega
        ext a
        simp only [spanArea, hrow, hmask, true_and, Set.mem_ofPred_eq]
        constructor
        · rintro ⟨z, hz0, hz1, rfl⟩
          simp only [Ctx.clamp] at hz0 hz1
          refine ⟨z, by omega, by omega, ?_, rfl⟩
          simp only [Ctx.OnScreen]
          omega
        · rintro ⟨z, hz0, hz1, hz, rfl⟩
          simp only [Ctx.OnScreen] at hz
          refine ⟨z, ?_, ?_, rfl⟩
          · simp only [Ctx.clamp]
            omega
          · simp only [Ctx.clamp]
            omega
  · have hpixels : drawnAsLine gsx y = false := by simpa using hline
    rw [paintedArea, if_neg hline]
    exact ⟨fun _ => Or.inl hpixels, fun _ => rfl⟩

/-- **Clipping of filled spans.**  A span is clipped to the screen and to its style exactly
if it is not drawn as a line or a part of it is visible.  It may be filled in two pieces. -/
theorem gfxFilledHline_iff (c : Ctx) (gsx : GsxState) {x0 x1 : ℤ} (h : x0 ≤ x1) (y : ℤ) (clr : GfxCol) :
    (Stores (gfxFilledHline c gsx x0 x1 y clr) (spanArea c gsx x0 x1 y) (fun _ => clr) ∧
      ∀ x2, x1 < x2 → ∀ m,
        (gfxFilledHline c gsx (x1 + 1) x2 y clr (gfxFilledHline c gsx x0 x1 y clr m)).data =
          (gfxFilledHline c gsx x0 x2 y clr m).data) ↔
      drawnAsLine gsx y = false ∨ ∃ x, x0 ≤ x ∧ x ≤ x1 ∧ c.OnScreen (x, y) := by
  rw [← paintedArea_eq_iff c gsx h y]
  have hpaints := stores_gfxFilledHline c gsx h y clr
  constructor
  · intro hspan
    exact hpaints.eq hspan.1
  · intro heq
    constructor
    · exact hpaints.congr heq
    · intro x2 hx2 m
      exact gfxFilledHline_split c gsx h hx2 y clr m

/-- The GSX state with the solid style. -/
def GsxState.solid : GsxState := { (Term.static fun _ => 0).g.gsx with fillStyle := 1 }

/-- A solid span that leaves the screen at the right edge. -/
theorem gfxFilledHline_iff_vga :
    Stores (gfxFilledHline Ctx.vga .solid 600 700 10 7) (spanArea Ctx.vga .solid 600 700 10)
      fun _ => 7 := by
  have h := @gfxFilledHline_iff Ctx.vga .solid 600 700 (by decide) 10 7
  exact (h.mpr (Or.inr ⟨600, by decide, by decide, by decide⟩)).1

/-- A solid span that lies to the left of the screen leaves a pixel at the edge. -/
theorem gfxFilledHline_edge :
    ¬Stores (gfxFilledHline Ctx.vga .solid (-5) (-1) 10 7) (spanArea Ctx.vga .solid (-5) (-1) 10)
      fun _ => 7 := by
  intro h
  have hedge : (gfxFilledHline Ctx.vga .solid (-5) (-1) 10 7 ⟨fun _ => 0, []⟩).data
      (Ctx.vga.addr (0, 10)) = 7 := by
    decide
  have hout : Ctx.vga.addr (0, 10) ∉ spanArea Ctx.vga .solid (-5) (-1) 10 := by
    rintro ⟨x, -, hx, hon, -⟩
    simp only [Ctx.OnScreen] at hon
    omega
  rw [(h _ _).2 hout] at hedge
  exact absurd hedge (by decide)

end Pigfx
