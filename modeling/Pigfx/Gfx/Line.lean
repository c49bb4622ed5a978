import Pigfx.Gfx.Terminal
import Pigfx.Lib.DigitalLine
import Mathlib.Tactic.LinearCombination

/-!
# The line of `gfx_line`

`gfx_line` clamps its endpoints to the screen and then walks a pointer through the
frame buffer with an incremental error term.  The walk writes the pixels of the
digital line between the clamped endpoints, one after the other.

## Main definitions

* `Ctx.OnScreen`, `Ctx.clamp`, `Ctx.addr` — pixels of the screen and their addresses.
* `gfxLine_eq` — the routine as a list of writes.
* `gfxLine_bresenham` — what the routine paints.
-/

namespace Pigfx
open Lib

namespace Ctx

/-- The pixel lies on the screen. -/
def OnScreen (c : Ctx) (p : Pixel) : Prop := 0 ≤ p.1 ∧ p.1 < c.W ∧ 0 ≤ p.2 ∧ p.2 < c.H

instance (c : Ctx) (p : Pixel) : Decidable (c.OnScreen p) :=
  inferInstanceAs (Decidable (0 ≤ p.1 ∧ p.1 < c.W ∧ 0 ≤ p.2 ∧ p.2 < c.H))

/-- The nearest pixel of the screen. -/
def clamp (c : Ctx) (p : Pixel) : Pixel := (max (min p.1 (c.W - 1)) 0, max (min p.2 (c.H - 1)) 0)

/-- The address of a pixel. -/
def addr (c : Ctx) (p : Pixel) : ℤ := c.PFB p.1 p.2

theorem onScreen_clamp {c : Ctx} (hW : 0 < c.W) (hH : 0 < c.H) (p : Pixel) :
    c.OnScreen (c.clamp p) := by
  simp only [OnScreen, clamp]
  omega

/-- Two pixels that are less than a line apart have different addresses. -/
theorem addr_inj {c : Ctx} {p q : Pixel} (hpq : |p.1 - q.1| < c.Pitch)
    (h : c.addr p = c.addr q) : p = q := by
  simp only [Ctx.addr, Ctx.PFB] at h
  have hdvd : (c.Pitch : ℤ) ∣ p.1 - q.1 := by
    use q.2 - p.2
    linear_combination h
  have hcol : p.1 - q.1 = 0 := Int.eq_zero_of_abs_lt_dvd hdvd hpq
  have hpos : (0 : ℤ) < c.Pitch := lt_of_le_of_lt (abs_nonneg _) hpq
  have hrow : (p.2 - q.2) * c.Pitch = 0 := by linear_combination h - hcol
  have hrow' : p.2 - q.2 = 0 := (mul_eq_zero.mp hrow).resolve_right hpos.ne'
  ext
  · omega
  · omega

end Ctx

/-! ## The pointer walk -/

/-- The loop writes at the offsets of a digital line. -/
theorem lineLoop_eq {d e : ℤ} (h0 : 0 ≤ e) (he : e ≤ d) (hd : 0 < d) (major minor : ℤ)
    (clr : GfxCol) (p : ℤ) (nr k : ℕ) (m : Bus) :
    lineLoop d e major minor clr nr (p + k * major + minorAt d e k * minor) (errorAt d e k) m =
      m.putAll ((List.range' k nr).map fun i => p + (i : ℕ) * major + minorAt d e i * minor) clr := by
  induction nr generalizing k m with
  | zero => rfl
  | succ nr ih =>
    have hnext := ih (k + 1)
    push_cast at hnext
    rw [List.range'_succ, List.map_cons, Bus.putAll_cons, lineLoop, ← hnext]
    split
    case isTrue h =>
      have hsucc := minorAt_succ_of_neg he hd h
      rw [hsucc.1, hsucc.2]
      congr 1
      ring
    case isFalse h =>
      have hsucc := minorAt_succ_of_nonneg h0 hd (not_lt.mp h)
      rw [hsucc.1, hsucc.2]
      congr 1
      ring

/-- The loop, entered for a line whose pixels have the given addresses. -/
theorem lineLoop_line (L : DigitalLine) {addr : Pixel → ℤ} {major minor : ℤ}
    (haddr : ∀ a b, addr (L.place a b) =
      addr (L.place L.major0 L.minor0) + (a - L.major0) * major + L.dir * (b - L.minor0) * minor)
    (clr : GfxCol) (m : Bus) :
    lineLoop L.extent L.rise major minor clr (L.extent + 1).toNat
        (addr (L.place L.major0 L.minor0)) (L.extent / 2) m =
      m.putAll (L.pixels.map addr) clr := by
  have hdir : L.dir * L.dir = 1 := by
    rw [DigitalLine.dir]
    split <;> rfl
  have hpoint : ∀ k, addr (L.point k) = addr (L.place L.major0 L.minor0) + k * major +
      minorAt L.extent L.rise k * minor := by
    intro k
    rw [DigitalLine.point, haddr]
    linear_combination (minorAt L.extent L.rise k * minor) * hdir
  rw [DigitalLine.pixels, List.map_map]
  rcases L.extent_nonneg.eq_or_lt with h | h
  · -- a line of one pixel: the error term is not looked at
    have hone : (L.extent + 1).toNat = 1 := by omega
    have hfirst : addr (L.point 0) = addr (L.place L.major0 L.minor0) := by rw [L.point_zero]
    rw [hone]
    simp [lineLoop, List.range_one, hfirst]
  · have hloop := lineLoop_eq L.rise_nonneg L.rise_le h major minor clr
      (addr (L.place L.major0 L.minor0)) (L.extent + 1).toNat 0 m
    simp only [Nat.cast_zero, zero_mul, add_zero, minorAt_zero h.le, errorAt_zero h] at hloop
    rw [hloop, List.range_eq_range']
    congr 1
    apply List.map_congr_left
    intro k _
    exact (hpoint k).symm

/-- The pointer increments of `gfx_line` for a line. -/
theorem lineLoop_addr (c : Ctx) (L : DigitalLine) (clr : GfxCol) (m : Bus) :
    lineLoop L.extent L.rise (if L.steep then (c.Pitch : ℤ) else 1)
        (if L.steep then L.dir else L.dir * c.Pitch) clr (L.extent + 1).toNat
        (c.addr (L.place L.major0 L.minor0)) (L.extent / 2) m =
      m.putAll (L.pixels.map c.addr) clr := by
  have hdir : L.dir * L.dir = 1 := by
    rw [DigitalLine.dir]
    split <;> rfl
  apply lineLoop_line
  intro a b
  cases h : L.steep
  · simp only [DigitalLine.place, h, Ctx.addr, Ctx.PFB, Bool.false_eq_true, if_false]
    linear_combination (-(b - L.minor0) * c.Pitch) * hdir
  · simp only [DigitalLine.place, h, Ctx.addr, Ctx.PFB, if_true]
    linear_combination (-(b - L.minor0)) * hdir

/-- `gfx_line` behind the clamping of its endpoints. -/
def clampedLine (c : Ctx) (x0 y0 x1 y1 : ℤ) (clr : GfxCol) (m : Bus) : Bus :=
  let qrdt := |y1 - y0| > |x1 - x0|
  let (x0, y0, x1, y1) := if qrdt then (y0, x0, y1, x1) else (x0, y0, x1, y1)
  let (x0, y0, x1, y1) := if x0 > x1 then (x1, y1, x0, y0) else (x0, y0, x1, y1)
  let deltax := x1 - x0
  let deltay := |y1 - y0|
  let error := deltax / 2
  let nr := (x1 - x0 + 1).toNat
  if qrdt then
    let ystep : ℤ := if y0 < y1 then 1 else -1
    lineLoop deltax deltay c.Pitch ystep clr nr (c.PFB y0 x0) error m
  else
    let ystep : ℤ := if y0 < y1 then c.Pitch else -c.Pitch
    lineLoop deltax deltay 1 ystep clr nr (c.PFB x0 y0) error m

theorem gfxLine_eq_clampedLine (c : Ctx) (x0 y0 x1 y1 : ℤ) (clr : GfxCol) (m : Bus) :
    gfxLine c x0 y0 x1 y1 clr m = clampedLine c (c.clamp (x0, y0)).1 (c.clamp (x0, y0)).2
      (c.clamp (x1, y1)).1 (c.clamp (x1, y1)).2 clr m := by
  delta gfxLine clampedLine Ctx.clamp
  with_reducible rfl

/-- The exchanges of `gfx_line` give the line between its endpoints. -/
theorem clampedLine_eq (c : Ctx) (x0 y0 x1 y1 : ℤ) (clr : GfxCol) (m : Bus) :
    clampedLine c x0 y0 x1 y1 clr m =
      m.putAll ((lineBetween (x0, y0) (x1, y1)).pixels.map c.addr) clr := by
  have hystep : ∀ b0 b1 : ℤ, (if b0 < b1 then (c.Pitch : ℤ) else -c.Pitch) =
      (if b0 < b1 then 1 else -1) * c.Pitch := by
    intro b0 b1
    split <;> ring
  rw [← lineLoop_addr]
  by_cases hs : |y1 - y0| > |x1 - x0|
  · have hsteep : steep (x0, y0) (x1, y1) = true := by
      rw [steep, abs_sub_comm x0, abs_sub_comm y0]
      exact decide_eq_true hs
    by_cases ha : y0 > y1
    · simp only [clampedLine, lineBetween, DigitalLine.ofEnds, majorOf, minorOf, hs, hsteep, ha,
        if_true, dif_neg (not_le.mpr ha)]
      rfl
    · simp only [clampedLine, lineBetween, DigitalLine.ofEnds, majorOf, minorOf, hs, hsteep, ha,
        if_true, if_false, dif_pos (not_lt.mp ha)]
      rfl
  · have hsteep : steep (x0, y0) (x1, y1) = false := by
      rw [steep, abs_sub_comm x0, abs_sub_comm y0]
      exact decide_eq_false hs
    by_cases ha : x0 > x1
    · simp only [clampedLine, lineBetween, DigitalLine.ofEnds, majorOf, minorOf, hs, hsteep, ha,
        hystep, if_true, if_false, Bool.false_eq_true, dif_neg (not_le.mpr ha)]
      rfl
    · simp only [clampedLine, lineBetween, DigitalLine.ofEnds, majorOf, minorOf, hs, hsteep, ha,
        hystep, if_false, Bool.false_eq_true, dif_pos (not_lt.mp ha)]
      rfl

/-- **`gfx_line` writes the pixels of the line between its clamped endpoints.** -/
theorem gfxLine_eq (c : Ctx) (x0 y0 x1 y1 : ℤ) (clr : GfxCol) (m : Bus) :
    gfxLine c x0 y0 x1 y1 clr m =
      m.putAll ((lineBetween (c.clamp (x0, y0)) (c.clamp (x1, y1))).pixels.map c.addr) clr := by
  rw [gfxLine_eq_clampedLine, clampedLine_eq]

/-! ## What a line paints -/

/-- A line between pixels of the screen stays on the screen. -/
theorem onScreen_lineBetween {c : Ctx} {p q r : Pixel} (hp : c.OnScreen p) (hq : c.OnScreen q)
    (hr : r ∈ (lineBetween p q).pixels) : c.OnScreen r := by
  have hcases := lineBetween_cases p q
  rcases hcases with ⟨s, t, hst, hsteep, ha0, hb0, ha1, hb1⟩
  have hrect := (lineBetween p q).mem_rectangle hr
  rw [ha0, hb0, ha1, hb1] at hrect
  have hs : c.OnScreen s ∧ c.OnScreen t := by
    rcases hst with ⟨rfl, rfl⟩ | ⟨rfl, rfl⟩
    · exact ⟨hp, hq⟩
    · exact ⟨hq, hp⟩
  simp only [Ctx.OnScreen] at hs ⊢
  cases h : steep p q
  · simp only [majorOf, minorOf, DigitalLine.major, DigitalLine.minor, hsteep, h, Bool.false_eq_true,
      if_false] at hrect
    omega
  · simp only [majorOf, minorOf, DigitalLine.major, DigitalLine.minor, hsteep, h, if_true] at hrect
    omega

/-- **A line is a Bresenham line.**  `gfx_line` writes once at each pixel of a digital line
between the clamped endpoints, all of them on the screen, and nowhere else; exchanging the
endpoints makes no difference. -/
theorem gfxLine_bresenham (c : Ctx) (hW : 0 < c.W) (hH : 0 < c.H) (x0 y0 x1 y1 : ℤ) (clr : GfxCol) :
    ∃ ps : List Pixel,
      Digitizes (c.clamp (x0, y0)) (c.clamp (x1, y1)) ps ∧
      (∀ p ∈ ps, c.OnScreen p) ∧
      (∀ m : Bus, (gfxLine c x0 y0 x1 y1 clr m).trace =
        m.trace ++ ps.map fun p => Event.cpuWrite (c.PFB p.1 p.2) 1) ∧
      (∀ (m : Bus) a, (gfxLine c x0 y0 x1 y1 clr m).data a =
        if ∃ p ∈ ps, c.PFB p.1 p.2 = a then clr else m.data a) ∧
      gfxLine c x1 y1 x0 y0 clr = gfxLine c x0 y0 x1 y1 clr := by
  have hp := Ctx.onScreen_clamp hW hH (x0, y0)
  have hq := Ctx.onScreen_clamp hW hH (x1, y1)
  refine ⟨(lineBetween (c.clamp (x0, y0)) (c.clamp (x1, y1))).pixels, ?_, ?_, ?_, ?_, ?_⟩
  · exact digitizes_lineBetween _ _
  · intro p hmem
    exact onScreen_lineBetween hp hq hmem
  · intro m
    rw [gfxLine_eq, Bus.trace_putAll, List.map_map]
    rfl
  · intro m a
    rw [gfxLine_eq, Bus.data_putAll]
    simp only [List.mem_map]
    rfl
  · ext1 m
    rw [gfxLine_eq, gfxLine_eq, lineBetween_comm]

/-- The context for a frame buffer of 640 by 480 pixels. -/
def Ctx.vga : Ctx := (Term.start .shipped 0 640 480 640 307200 fun _ => 0).g.ctx

/-- A line that leaves the screen at the bottom and at the right edge. -/
theorem gfxLine_bresenham_vga :
    ∃ ps : List Pixel,
      Digitizes (Ctx.vga.clamp (3, 700)) (Ctx.vga.clamp (900, -5)) ps ∧
      (∀ p ∈ ps, Ctx.vga.OnScreen p) ∧
      ∀ m : Bus, (gfxLine Ctx.vga 3 700 900 (-5) 7 m).trace =
        m.trace ++ ps.map fun p => Event.cpuWrite (Ctx.vga.PFB p.1 p.2) 1 := by
  have hline := gfxLine_bresenham Ctx.vga (by decide) (by decide) 3 700 900 (-5) 7
  obtain ⟨ps, hdig, hon, htrace, -, -⟩ := hline
  exact ⟨ps, hdig, hon, htrace⟩

end Pigfx
