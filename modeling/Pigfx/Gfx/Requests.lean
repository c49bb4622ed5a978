import Pigfx.Gfx.Line

/-!
# Requested pixels

A figure that is drawn with `gfx_pixel` requests a list of pixels.  The requests do not
depend on the screen; which of them become visible does.

## Main definitions

* `gfxPixels` — a list of requests, one after the other.
* `data_gfxPixels` — what the requests leave in the frame buffer.
-/

namespace Pigfx
open Lib

/-- Request the pixels of a list, in order. -/
def gfxPixels (c : Ctx) (clr : GfxCol) (ps : List Pixel) (m : Bus) : Bus :=
  ps.foldl (fun m p => gfxPixel c p.1 p.2 clr m) m

section
variable (c : Ctx) (clr : GfxCol)

theorem gfxPixel_eq (x y : ℤ) (m : Bus) :
    gfxPixel c x y clr m = if c.OnScreen (x, y) then m.put8 (c.addr (x, y)) clr else m := rfl

@[simp] theorem gfxPixels_nil (m : Bus) : gfxPixels c clr [] m = m := rfl

@[simp] theorem gfxPixels_cons (p : Pixel) (ps : List Pixel) (m : Bus) :
    gfxPixels c clr (p :: ps) m = gfxPixels c clr ps (gfxPixel c p.1 p.2 clr m) := rfl

/-- A request that is made under a condition. -/
theorem gfxPixels_ite (p : Prop) [Decidable p] (q : Pixel) (m : Bus) :
    gfxPixels c clr (if p then [q] else []) m = if p then gfxPixel c q.1 q.2 clr m else m := by
  split <;> rfl

/-- A loop of requests. -/
theorem iterate_gfxPixels (n : ℕ) (ps : ℕ → List Pixel) (m : Bus) :
    iterate n (fun i => gfxPixels c clr (ps i)) m = gfxPixels c clr ((List.range n).flatMap ps) m :=
  iterate_foldl n _ ps m

/-- Requests are writes at the pixels that lie on the screen. -/
theorem gfxPixels_eq (ps : List Pixel) (m : Bus) :
    gfxPixels c clr ps m = m.putAll ((ps.filter fun p => c.OnScreen p).map c.addr) clr := by
  induction ps generalizing m with
  | nil => rfl
  | cons p ps ih =>
    rw [gfxPixels_cons, ih, gfxPixel_eq, List.filter_cons]
    by_cases h : c.OnScreen p
    · rw [if_pos h, if_pos (decide_eq_true h)]
      rfl
    · rw [if_neg h, if_neg (by simpa using h)]

/-- **The visible requests have the colour, and nothing else has changed.** -/
theorem data_gfxPixels (ps : List Pixel) (m : Bus) (a : ℤ) :
    (gfxPixels c clr ps m).data a =
      if ∃ p ∈ ps, c.OnScreen p ∧ c.addr p = a then clr else m.data a := by
  rw [gfxPixels_eq, Bus.data_putAll]
  simp only [List.mem_map, List.mem_filter, decide_eq_true_eq, and_assoc]

end

end Pigfx
