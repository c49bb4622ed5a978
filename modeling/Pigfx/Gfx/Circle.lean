import Pigfx.Gfx.Gsx
import Pigfx.Gfx.Requests
import Pigfx.Lib.DigitalCircle

/-!
# Circles and arcs

`gfx_circle` and `gfx_draw_arc` run the midpoint loop and request, at each of its points,
the eight mirror images.  The circle requests all of them and draws spans between them if
it is filled; the arc leaves out those whose angle is not in its range, and all images of
a point behind the diagonal.

## Main definitions

* `midpointLoop_eq` — the loop as a counted one.
* `CircleOp`, `circleOps` — the calls of `gfx_circle`, in order.
* `circleInts` — the values `gfx_circle` computes.
* `gfxCircle_midpoint` — the loop, its arithmetic and the outline.
* `arcPixels`, `gfxDrawArc_circle` — the requests of an arc, and those of all angles.
-/

namespace Pigfx
open Lib Lib.Midpoint

/-! ## The loop -/

/-- The loop of the source turns as the midpoint algorithm does. -/
theorem midpointLoop_turnsFrom (plot : ℤ → ℤ → Bus → Bus) (fuel : ℕ) (s : Midpoint) (m : Bus) :
    midpointLoop plot fuel s.f s.ddFx s.ddFy s.x s.y m =
      iterate (turnsFrom fuel s) (fun k => plot (turn^[k + 1] s).x (turn^[k + 1] s).y) m := by
  induction fuel generalizing s m with
  | zero => rfl
  | succ fuel ih =>
    rw [midpointLoop, turnsFrom]
    by_cases h : s.x < s.y
    · rw [if_pos h, if_pos h, iterate_succ_left]
      have hturn := ih s.turn (plot s.turn.x s.turn.y m)
      rw [← show (fun i => plot (turn^[i + 1 + 1] s).x (turn^[i + 1 + 1] s).y) =
        fun i => plot (turn^[i + 1] s.turn).x (turn^[i + 1] s.turn).y from rfl] at hturn
      rw [Function.iterate_one, ← hturn]
      by_cases hf : s.f ≥ 0
      · simp only [Midpoint.turn, hf, if_true]
      · simp only [Midpoint.turn, hf, if_false]
    · rw [if_neg h, if_neg h]
      rfl

/-- **The loop terminates**, and whatever limit of at least `r` turns the loop is given it
visits the same points. -/
theorem midpointLoop_eq (plot : ℤ → ℤ → Bus → Bus) {r : ℤ} (hr : 0 ≤ r) {fuel : ℕ}
    (hfuel : r.toNat ≤ fuel) (m : Bus) :
    midpointLoop plot fuel (1 - r) 1 (-2 * r) 0 r m =
      iterate (turns r) (fun k => plot (after r (k + 1)).x (after r (k + 1)).y) m := by
  have h := midpointLoop_turnsFrom plot fuel (start r) m
  rw [turnsFrom_of_ge hr hfuel] at h
  exact h

/-! ## The calls of `gfx_circle` -/

/-- A call of `gfx_pixel` or of `gfx_filled_hline`. -/
inductive CircleOp
  | pixel (p : Pixel)
  | hline (x0 x1 y : ℤ)

namespace CircleOp

def run (c : Ctx) (gsx : GsxState) (clr : GfxCol) (m : Bus) : CircleOp → Bus
  | pixel p => gfxPixel c p.1 p.2 clr m
  | hline x0 x1 y => gfxFilledHline c gsx x0 x1 y clr m

/-- The pixel a call requests for the outline. -/
def pixel? : CircleOp → Option Pixel
  | pixel p => some p
  | hline _ _ _ => none

end CircleOp

/-- The calls before the loop. -/
def firstOps (x0 y0 r : ℤ) (filled : Bool) : List CircleOp :=
  [.pixel (x0, y0 + r), .pixel (x0, y0 - r), .pixel (x0 + r, y0), .pixel (x0 - r, y0)] ++
    if filled then [.hline (x0 - r) (x0 + r) y0] else []

/-- The calls of one turn. -/
def turnOps (x0 y0 x y : ℤ) (filled : Bool) : List CircleOp :=
  [.pixel (x0 + x, y0 + y), .pixel (x0 - x, y0 + y), .pixel (x0 + x, y0 - y),
    .pixel (x0 - x, y0 - y), .pixel (x0 + y, y0 + x), .pixel (x0 - y, y0 + x),
    .pixel (x0 + y, y0 - x), .pixel (x0 - y, y0 - x)] ++
    if filled then [.hline (x0 - x) (x0 + x) (y0 + y), .hline (x0 - x) (x0 + x) (y0 - y),
      .hline (x0 - y) (x0 + y) (y0 + x), .hline (x0 - y) (x0 + y) (y0 - x)] else []

def circleOps (x0 y0 r : ℤ) (filled : Bool) : List CircleOp :=
  firstOps x0 y0 r filled ++
    (List.range (turns r)).flatMap fun k =>
      turnOps x0 y0 (after r (k + 1)).x (after r (k + 1)).y filled

/-- `gfx_circle` makes these calls. -/
theorem gfxCircle_eq (c : Ctx) (gsx : GsxState) (x0 y0 : ℤ) {r : ℤ} (hr : 0 ≤ r) (clr : GfxCol)
    (filled : Bool) (m : Bus) :
    gfxCircle c gsx x0 y0 r clr filled m =
      (circleOps x0 y0 r filled).foldl (CircleOp.run c gsx clr) m := by
  rw [gfxCircle, midpointLoop_eq _ hr le_rfl, circleOps, List.foldl_append, ← iterate_foldl]
  cases filled <;> rfl

/-- The pixels the circle requests for its outline, filled or not. -/
theorem outline_circleOps (x0 y0 r : ℤ) (filled : Bool) :
    (circleOps x0 y0 r filled).filterMap CircleOp.pixel? =
      (circleOps x0 y0 r false).filterMap CircleOp.pixel? := by
  cases filled with
  | false => rfl
  | true =>
    rw [circleOps, circleOps, List.filterMap_append, List.filterMap_append, List.filterMap_flatMap,
      List.filterMap_flatMap]
    rfl

/-! ## The outline -/

/-- The pixels a circle requests for its outline. -/
def circlePixels (x0 y0 r : ℤ) : List Pixel := (circleOps x0 y0 r false).filterMap CircleOp.pixel?

theorem pixels_firstOps (x0 y0 r : ℤ) (p : Pixel) :
    p ∈ (firstOps x0 y0 r false).filterMap CircleOp.pixel? ↔
      ∃ q ∈ mirror 0 r, (x0, y0) + q = p := by
  simp [firstOps, CircleOp.pixel?, mirror, sub_eq_add_neg, eq_comm]
  tauto

theorem pixels_turnOps (x0 y0 x y : ℤ) :
    (turnOps x0 y0 x y false).filterMap CircleOp.pixel? = (mirror x y).map fun q => (x0, y0) + q := by
  simp [turnOps, CircleOp.pixel?, mirror, sub_eq_add_neg]

/-- **The requested pixels are the outline about the centre.** -/
theorem mem_circlePixels (x0 y0 r : ℤ) (p : Pixel) :
    p ∈ circlePixels x0 y0 r ↔ ∃ q ∈ outline r, (x0, y0) + q = p := by
  rw [circlePixels, circleOps, List.filterMap_append, List.mem_append, pixels_firstOps,
    List.filterMap_flatMap, List.mem_flatMap]
  simp only [pixels_turnOps, List.mem_map, List.mem_range]
  constructor
  · rintro (⟨q, hq, rfl⟩ | ⟨k, hk, q, hq, rfl⟩)
    · exact ⟨q, ⟨0, Nat.zero_le _, hq⟩, rfl⟩
    · exact ⟨q, ⟨k + 1, hk, hq⟩, rfl⟩
  · rintro ⟨q, ⟨k, hk, hq⟩, rfl⟩
    cases k with
    | zero => exact Or.inl ⟨q, hq, rfl⟩
    | succ k => exact Or.inr ⟨k, hk, q, hq, rfl⟩

theorem eightConnected_circlePixels (x0 y0 : ℤ) {r : ℤ} (hr : 0 ≤ r) :
    EightConnected {p | p ∈ circlePixels x0 y0 r} := by
  intro p hp q hq
  rcases (mem_circlePixels x0 y0 r p).mp hp with ⟨p', hp', rfl⟩
  rcases (mem_circlePixels x0 y0 r q).mp hq with ⟨q', hq', rfl⟩
  apply (eightConnected_outline hr p' hp' q' hq').map
  · intro a b hab
    exact hab.add_left _
  · intro a ha
    exact (mem_circlePixels x0 y0 r _).mpr ⟨a, ha, rfl⟩

/-- Mirror images about the centre are requested too. -/
theorem mirror_circlePixels {x0 y0 r u v : ℤ} (h : (x0 + u, y0 + v) ∈ circlePixels x0 y0 r)
    {q : Pixel} (hq : q ∈ mirror u v) : (x0 + q.1, y0 + q.2) ∈ circlePixels x0 y0 r := by
  rcases (mem_circlePixels _ _ _ _).mp h with ⟨p, hp, hsum⟩
  have hp' : p = (u, v) := add_left_cancel (hsum.trans rfl)
  subst hp'
  exact (mem_circlePixels _ _ _ _).mpr ⟨q, mirror_outline hp hq, rfl⟩

/-! ## The arithmetic -/

/-- The values `gfx_circle` computes before the loop. -/
def firstInts (x0 y0 r : ℤ) : List ℤ := [1 - r, -2 * r, y0 + r, y0 - r, x0 + r, x0 - r]

/-- The values a turn computes from the state in which it starts. -/
def turnInts (x0 y0 : ℤ) (s : Midpoint) : List ℤ :=
  [s.y - 1, s.ddFy + 2, s.f + (s.ddFy + 2), s.x + 1, s.ddFx + 2, s.turn.f,
    x0 + s.turn.x, x0 - s.turn.x, x0 + s.turn.y, x0 - s.turn.y,
    y0 + s.turn.x, y0 - s.turn.x, y0 + s.turn.y, y0 - s.turn.y]

/-- All values `gfx_circle` computes. -/
def circleInts (x0 y0 r : ℤ) : List ℤ :=
  firstInts x0 y0 r ++ (List.range (turns r)).flatMap fun k => turnInts x0 y0 (after r k)

/-- **No value leaves the range of `int`.** -/
theorem circleInts_inRange {x0 y0 r : ℤ} (hr : 0 ≤ r) (hr' : r < 2 ^ 28) (hx : |x0| < 2 ^ 28)
    (hy : |y0| < 2 ^ 28) {v : ℤ} (hv : v ∈ circleInts x0 y0 r) : -2 ^ 31 ≤ v ∧ v < 2 ^ 31 := by
  rw [abs_lt] at hx hy
  rw [circleInts, List.mem_append] at hv
  rcases hv with hv | hv
  · simp only [firstInts, List.mem_cons, List.not_mem_nil, or_false] at hv
    omega
  · simp only [List.mem_flatMap, List.mem_range] at hv
    rcases hv with ⟨k, hk, hv⟩
    have hlt := lt_of_lt_turns hk
    have hon := onCircle_after hr hk.le
    generalize after r k = s at hlt hon hv
    have hnext := hon.turn hlt
    have hf := hon.decision_eq
    have hf' := hnext.decision_eq
    have hdx := hon.ddFx; have hdy := hon.ddFy
    have hlow := hon.lower; have hup := hon.upper
    have hlow' := hnext.lower; have hup' := hnext.upper
    have hx0 := hon.x_nonneg; have hyr := hon.y_le
    have hx0' := hnext.x_nonneg; have hyr' := hnext.y_le; have hxy' := hnext.x_le
    simp only [turnInts, List.mem_cons, List.not_mem_nil, or_false] at hv
    omega

/-- **The circle of `gfx_circle`.** -/
theorem gfxCircle_midpoint {x0 y0 r : ℤ} (hr : 0 ≤ r) (hr' : r < 2 ^ 28) (hx : |x0| < 2 ^ 28)
    (hy : |y0| < 2 ^ 28) :
    -- the loop turns until the column reaches the row
    (∀ (plot : ℤ → ℤ → Bus → Bus) (fuel : ℕ) (m : Bus), r.toNat ≤ fuel →
      midpointLoop plot fuel (1 - r) 1 (-2 * r) 0 r m =
        iterate (turns r) (fun k => plot (after r (k + 1)).x (after r (k + 1)).y) m) ∧
    (∀ k < turns r, (after r k).x < (after r k).y) ∧
    (after r (turns r)).y ≤ (after r (turns r)).x ∧
    (∀ v ∈ circleInts x0 y0 r, -2 ^ 31 ≤ v ∧ v < 2 ^ 31) ∧
    -- the states of the loop
    (∀ k ≤ turns r, OnCircle r (after r k) ∧ (after r k).x = k ∧
      ((after r k).x ≤ (after r k).y → 1 ≤ (after r k).y →
        |((after r k).y : ℝ) - √((r : ℝ) ^ 2 - ((after r k).x : ℝ) ^ 2)| < 1 / 2)) ∧
    (∀ k, (after r (k + 1)).y = (after r k).y ∨ (after r (k + 1)).y = (after r k).y - 1) ∧
    -- the outline
    (∀ (c : Ctx) (gsx : GsxState) (clr : GfxCol) (filled : Bool) (m : Bus),
      gfxCircle c gsx x0 y0 r clr filled m =
        (circleOps x0 y0 r filled).foldl (CircleOp.run c gsx clr) m ∧
      (circleOps x0 y0 r filled).filterMap CircleOp.pixel? = circlePixels x0 y0 r) ∧
    EightConnected {p | p ∈ circlePixels x0 y0 r} ∧
    ∀ u v, (x0 + u, y0 + v) ∈ circlePixels x0 y0 r →
      ∀ q ∈ mirror u v, (x0 + q.1, y0 + q.2) ∈ circlePixels x0 y0 r := by
  refine ⟨?_, ?_, le_turns hr, ?_, ?_, after_y r, ?_, eightConnected_circlePixels x0 y0 hr, ?_⟩
  · intro plot fuel m hfuel
    exact midpointLoop_eq plot hr hfuel m
  · intro k hk
    exact lt_of_lt_turns hk
  · intro v hv
    exact circleInts_inRange hr hr' hx hy hv
  · intro k hk
    have hon := onCircle_after hr hk
    exact ⟨hon, after_x r k, hon.nearest⟩
  · intro c gsx clr filled m
    exact ⟨gfxCircle_eq c gsx x0 y0 hr clr filled m, outline_circleOps x0 y0 r filled⟩
  · intro u v h q hq
    exact mirror_circlePixels h hq

/-- A circle of radius 5 about (10, 20). -/
theorem gfxCircle_midpoint_five :
    (∀ v ∈ circleInts 10 20 5, -2 ^ 31 ≤ v ∧ v < 2 ^ 31) ∧
      (∀ k ≤ turns 5, OnCircle 5 (after 5 k)) ∧
      EightConnected {p | p ∈ circlePixels 10 20 5} := by
  have h := @gfxCircle_midpoint 10 20 5 (by decide) (by decide) (by decide) (by decide)
  obtain ⟨-, -, -, hints, hstates, -, -, hconn, -⟩ := h
  exact ⟨hints, fun k hk => (hstates k hk).1, hconn⟩

/-! ## Arcs -/

/-- The images of a point that `gfx_draw_arc_point` may request, as offsets from the centre
with their angles. -/
def arcImages (b : Build) (x y : ℤ) : List (ℤ × Pixel) :=
  let angle := b.arcAngle y x
  [(900 - angle, (y, -x)), (angle, (x, -y)), (1800 - angle, (-x, -y)), (angle + 900, (-y, -x)),
    (2700 - angle, (-y, x)), (angle + 1800, (-x, y)), (3600 - angle, (x, y)), (angle + 2700, (y, x))]

/-- The requests of `gfx_draw_arc_point`. -/
def arcPointPixels (b : Build) (x0 y0 x y a0 a1 : ℤ) : List Pixel :=
  if x ≤ y then
    ((arcImages b x y).filter fun i => a0 ≤ i.1 ∧ i.1 ≤ a1).map fun i => (x0, y0) + i.2
  else []

/-- The requests of `gfx_draw_arc`. -/
def arcPixels (b : Build) (x0 y0 r arcS arcE : ℤ) : List Pixel :=
  (List.range (turns r + 1)).flatMap fun k =>
    arcPointPixels b x0 y0 (after r k).x (after r k).y arcS arcE

theorem gfxDrawArcPoint_eq (b : Build) (c : Ctx) (x0 y0 x y a0 a1 : ℤ) (clr : GfxCol) (m : Bus) :
    gfxDrawArcPoint b c x0 y0 x y a0 a1 clr m =
      gfxPixels c clr (arcPointPixels b x0 y0 x y a0 a1) m := by
  have hfilter : ∀ (is : List (ℤ × Pixel)) (m : Bus),
      gfxPixels c clr ((is.filter fun i => a0 ≤ i.1 ∧ i.1 ≤ a1).map fun i => (x0, y0) + i.2) m =
        is.foldl (fun m i => if a0 ≤ i.1 ∧ i.1 ≤ a1 then gfxPixel c (x0 + i.2.1) (y0 + i.2.2) clr m
          else m) m := by
    intro is
    induction is with
    | nil => intro m; rfl
    | cons i is ih =>
      intro m
      rw [List.foldl_cons, ← ih, List.filter_cons]
      by_cases h : a0 ≤ i.1 ∧ i.1 ≤ a1
      · rw [if_pos (decide_eq_true h), if_pos h]
        rfl
      · rw [if_neg (by simpa using h), if_neg h]
  rw [gfxDrawArcPoint, arcPointPixels]
  by_cases h : x ≤ y
  · rw [if_pos h, if_pos h, hfilter]
    simp only [arcImages, List.foldl_cons, List.foldl_nil, sub_eq_add_neg]
  · rw [if_neg h, if_neg h]
    rfl

/-- `gfx_draw_arc` makes these requests. -/
theorem gfxDrawArc_eq (b : Build) (c : Ctx) (x0 y0 : ℤ) {r : ℤ} (hr : 0 ≤ r) (arcS arcE : ℤ)
    (clr : GfxCol) (m : Bus) :
    gfxDrawArc b c x0 y0 r arcS arcE clr m = gfxPixels c clr (arcPixels b x0 y0 r arcS arcE) m := by
  have hpoint : ∀ x y, gfxDrawArcPoint b c x0 y0 x y arcS arcE clr =
      gfxPixels c clr (arcPointPixels b x0 y0 x y arcS arcE) := by
    intro x y
    ext1 m
    exact gfxDrawArcPoint_eq b c x0 y0 x y arcS arcE clr m
  rw [gfxDrawArc, midpointLoop_eq _ hr le_rfl, arcPixels, ← iterate_gfxPixels, iterate_succ_left]
  simp only [hpoint]
  rfl

theorem mem_arcPixels {b : Build} {x0 y0 r arcS arcE : ℤ} {p : Pixel} :
    p ∈ arcPixels b x0 y0 r arcS arcE ↔ ∃ k ≤ turns r, (after r k).x ≤ (after r k).y ∧
      ∃ i ∈ arcImages b (after r k).x (after r k).y, (arcS ≤ i.1 ∧ i.1 ≤ arcE) ∧
        (x0, y0) + i.2 = p := by
  simp only [arcPixels, arcPointPixels, List.mem_flatMap, List.mem_range]
  constructor
  · rintro ⟨k, hk, hp⟩
    split at hp
    case isTrue hle =>
      simp only [List.mem_map, List.mem_filter, decide_eq_true_eq] at hp
      rcases hp with ⟨i, ⟨hi, ha⟩, rfl⟩
      exact ⟨k, by omega, hle, i, hi, ha, rfl⟩
    case isFalse => exact absurd hp List.not_mem_nil
  · rintro ⟨k, hk, hle, i, hi, ha, rfl⟩
    refine ⟨k, by omega, ?_⟩
    rw [if_pos hle]
    simp only [List.mem_map, List.mem_filter, decide_eq_true_eq]
    exact ⟨i, ⟨hi, ha⟩, rfl⟩

/-- **Ranges of angles add up.** -/
theorem arcPixels_union {b : Build} {x0 y0 r arcS arcM arcE : ℤ} (h : arcS ≤ arcM) (h' : arcM ≤ arcE)
    (p : Pixel) : p ∈ arcPixels b x0 y0 r arcS arcE ↔
      p ∈ arcPixels b x0 y0 r arcS arcM ∨ p ∈ arcPixels b x0 y0 r arcM arcE := by
  simp only [mem_arcPixels]
  constructor
  · rintro ⟨k, hk, hle, i, hi, ha, hp⟩
    rcases le_total i.1 arcM with hm | hm
    · exact Or.inl ⟨k, hk, hle, i, hi, ⟨ha.1, hm⟩, hp⟩
    · exact Or.inr ⟨k, hk, hle, i, hi, ⟨hm, ha.2⟩, hp⟩
  · rintro (⟨k, hk, hle, i, hi, ha, hp⟩ | ⟨k, hk, hle, i, hi, ha, hp⟩)
    · exact ⟨k, hk, hle, i, hi, ⟨ha.1, ha.2.trans h'⟩, hp⟩
    · exact ⟨k, hk, hle, i, hi, ⟨h.trans ha.1, ha.2⟩, hp⟩

/-- The offsets of the images are the mirror images. -/
theorem mem_arcImages {b : Build} {x y : ℤ} {q : Pixel} :
    (∃ i ∈ arcImages b x y, i.2 = q) ↔ q ∈ mirror x y := by
  simp only [arcImages, mirror, List.mem_cons, List.not_mem_nil, or_false, exists_eq_or_imp,
    exists_eq_left]
  tauto

/-- A point of the walk behind the diagonal is the image of the point before it. -/
theorem exists_octant_of_gt {r : ℤ} (hr : 0 ≤ r) {k : ℕ} (hk : k ≤ turns r) :
    ∃ j ≤ turns r, (after r j).x ≤ (after r j).y ∧
      ∀ q ∈ mirror (after r k).x (after r k).y, q ∈ mirror (after r j).x (after r j).y := by
  rcases le_or_gt (after r k).x (after r k).y with hle | hgt
  · exact ⟨k, hk, hle, fun _ hq => hq⟩
  · have hx := (onCircle_after hr hk).x_le
    cases k with
    | zero =>
      -- the walk starts on the near side of the diagonal
      have hstart : (0 : ℤ) > r := hgt
      omega
    | succ j =>
      have hbefore := lt_of_lt_turns (Nat.lt_of_succ_le hk)
      have hy := after_y r j
      have hxj := after_x r j
      have hxk := after_x r (j + 1)
      push_cast at hxk
      refine ⟨j, by omega, hbefore.le, ?_⟩
      intro q hq
      have hswap : ((after r (j + 1)).x, (after r (j + 1)).y) ∈ mirror (after r j).x (after r j).y := by
        have hfst : (after r (j + 1)).x = (after r j).y := by omega
        have hsnd : (after r (j + 1)).y = (after r j).x := by omega
        rw [hfst, hsnd]
        simp [mirror]
      exact mirror_trans hswap hq

/-- Under the assumption on the angles, the arc over all of them requests every image. -/
theorem mem_arcPixels_full {b : Build} {x0 y0 r : ℤ} (hr : 0 ≤ r) (hr' : r < 2 ^ 28)
    (hangle : ∀ x y, 0 ≤ x → x ≤ y → 0 < y → y < 2 ^ 28 → 450 ≤ b.arcAngle y x ∧ b.arcAngle y x ≤ 900)
    (hcentre : 0 ≤ b.arcAngle 0 0 ∧ b.arcAngle 0 0 ≤ 900) (p : Pixel) :
    p ∈ arcPixels b x0 y0 r 0 3600 ↔ ∃ k ≤ turns r, (after r k).x ≤ (after r k).y ∧
      ∃ q ∈ mirror (after r k).x (after r k).y, (x0, y0) + q = p := by
  have hall : ∀ k ≤ turns r, (after r k).x ≤ (after r k).y →
      ∀ i ∈ arcImages b (after r k).x (after r k).y, 0 ≤ i.1 ∧ i.1 ≤ 3600 := by
    intro k hk hle i hi
    have hon := onCircle_after hr hk
    have hx := hon.x_nonneg; have hy := hon.y_le
    have hbound : 0 ≤ b.arcAngle (after r k).y (after r k).x ∧
        b.arcAngle (after r k).y (after r k).x ≤ 900 := by
      rcases hon.y_nonneg.eq_or_lt with h0 | hpos
      · have hx0 : (after r k).x = 0 := by omega
        rw [← h0, hx0]
        exact hcentre
      · have h := hangle _ _ hx hle hpos (by omega)
        exact ⟨by omega, h.2⟩
    simp only [arcImages, List.mem_cons, List.not_mem_nil, or_false] at hi
    rcases hi with rfl | rfl | rfl | rfl | rfl | rfl | rfl | rfl <;> dsimp only <;> omega
  rw [mem_arcPixels]
  constructor
  · rintro ⟨k, hk, hle, i, hi, -, hp⟩
    exact ⟨k, hk, hle, i.2, mem_arcImages.mp ⟨i, hi, rfl⟩, hp⟩
  · rintro ⟨k, hk, hle, q, hq, hp⟩
    rcases mem_arcImages.mpr hq with ⟨i, hi, rfl⟩
    exact ⟨k, hk, hle, i, hi, hall k hk hle i hi, hp⟩

/-- An unfilled circle only requests pixels. -/
theorem gfxCircle_pixels (c : Ctx) (gsx : GsxState) (x0 y0 : ℤ) {r : ℤ} (hr : 0 ≤ r) (clr : GfxCol)
    (m : Bus) : gfxCircle c gsx x0 y0 r clr false m = gfxPixels c clr (circlePixels x0 y0 r) m := by
  have hops : ∀ (ops : List CircleOp) (m : Bus), (∀ op ∈ ops, ∃ p, op = .pixel p) →
      ops.foldl (CircleOp.run c gsx clr) m = gfxPixels c clr (ops.filterMap CircleOp.pixel?) m := by
    intro ops
    induction ops with
    | nil => intro m _; rfl
    | cons op ops ih =>
      intro m h
      rcases h op List.mem_cons_self with ⟨p, rfl⟩
      exact ih _ fun op hop => h op (List.mem_cons_of_mem _ hop)
  rw [gfxCircle_eq c gsx x0 y0 hr, circlePixels]
  apply hops
  intro op hop
  simp only [circleOps, firstOps, turnOps, List.mem_append, List.mem_flatMap, List.mem_cons,
    List.not_mem_nil, or_false, Bool.false_eq_true, if_false] at hop
  rcases hop with (rfl | rfl | rfl | rfl) | ⟨k, -, (rfl | rfl | rfl | rfl | rfl | rfl | rfl | rfl)⟩ <;>
    exact ⟨_, rfl⟩

/-- **The arc over all angles is the circle, and arcs add up.** -/
theorem gfxDrawArc_circle {b : Build} {x0 y0 r : ℤ} (hr : 0 ≤ r) (hr' : r < 2 ^ 28)
    (hangle : ∀ x y, 0 ≤ x → x ≤ y → 0 < y → y < 2 ^ 28 → 450 ≤ b.arcAngle y x ∧ b.arcAngle y x ≤ 900)
    (hcentre : 0 ≤ b.arcAngle 0 0 ∧ b.arcAngle 0 0 ≤ 900) :
    (∀ (c : Ctx) (gsx : GsxState) (arcS arcE : ℤ) (clr : GfxCol) (m : Bus),
      gfxDrawArc b c x0 y0 r arcS arcE clr m = gfxPixels c clr (arcPixels b x0 y0 r arcS arcE) m ∧
      gfxCircle c gsx x0 y0 r clr false m = gfxPixels c clr (circlePixels x0 y0 r) m) ∧
    {p | p ∈ arcPixels b x0 y0 r 0 3600} = {p | p ∈ circlePixels x0 y0 r} ∧
    ∀ s m e, s ≤ m → m ≤ e → {p | p ∈ arcPixels b x0 y0 r s e} =
      {p | p ∈ arcPixels b x0 y0 r s m} ∪ {p | p ∈ arcPixels b x0 y0 r m e} := by
  refine ⟨?_, ?_, ?_⟩
  · intro c gsx arcS arcE clr m
    exact ⟨gfxDrawArc_eq b c x0 y0 hr arcS arcE clr m, gfxCircle_pixels c gsx x0 y0 hr clr m⟩
  · ext p
    simp only [Set.mem_ofPred_eq, mem_arcPixels_full hr hr' hangle hcentre, mem_circlePixels]
    constructor
    · rintro ⟨k, hk, -, q, hq, hp⟩
      exact ⟨q, ⟨k, hk, hq⟩, hp⟩
    · rintro ⟨q, ⟨k, hk, hq⟩, hp⟩
      rcases exists_octant_of_gt hr hk with ⟨j, hj, hle, himage⟩
      exact ⟨j, hj, hle, q, himage q hq, hp⟩
  · intro s m e hsm hme
    ext p
    exact arcPixels_union hsm hme p

/-- The circle of radius 1, whose walk ends behind the diagonal. -/
theorem gfxDrawArc_circle_one :
    {p | p ∈ arcPixels .shipped 3 4 1 0 3600} = {p | p ∈ circlePixels 3 4 1} := by
  have h := @gfxDrawArc_circle .shipped 3 4 1 (by decide) (by decide) (by
    intro x y hx hxy hy _
    have h0 : 0 ≤ 450 * x / y := Int.ediv_nonneg (by omega) hy.le
    have h1 : 450 * x / y ≤ 450 := Int.ediv_le_of_le_mul hy (by nlinarith)
    simp only [Build.shipped]
    split_ifs <;> omega) (by decide)
  exact h.2.1

end Pigfx
