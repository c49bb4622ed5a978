import Pigfx.Lib.Raster
import Mathlib.Analysis.Real.Sqrt
import Mathlib.Tactic.Linarith
import Mathlib.Tactic.Ring

/-!
# Digital circles

The midpoint algorithm walks one octant of a circle of radius `r` from its top: each
turn steps to the right, and down when the decision variable is not negative.  The
decision variable and its two differences are updated incrementally.  What they mean is
one quadratic equation, and from it follow the distance to the exact circle, the end of
the walk near the diagonal, and the connectedness of the eight mirrored octants.

## Main definitions

* `Midpoint` — the variables of the loop; `Midpoint.start`, `Midpoint.turn`.
* `Midpoint.OnCircle` — the invariant of the loop.
* `Midpoint.after`, `turns` — the state after so many turns, and how many there are.
* `outline` — the pixels of the circle, as offsets from the centre.
-/

namespace Pigfx.Lib

/-- The variables of the loop: the decision variable, its differences in the two
directions, and the current point. -/
structure Midpoint where
  f : ℤ
  ddFx : ℤ
  ddFy : ℤ
  x : ℤ
  y : ℤ
  deriving DecidableEq, Repr

namespace Midpoint

def start (r : ℤ) : Midpoint := ⟨1 - r, 1, -2 * r, 0, r⟩

/-- One turn of the loop. -/
def turn (s : Midpoint) : Midpoint :=
  if s.f ≥ 0 then ⟨s.f + (s.ddFy + 2) + (s.ddFx + 2), s.ddFx + 2, s.ddFy + 2, s.x + 1, s.y - 1⟩
  else ⟨s.f + (s.ddFx + 2), s.ddFx + 2, s.ddFy, s.x + 1, s.y⟩

/-- The invariant.  The decision variable is the value of the circle's equation half way
to the pixel below the next one, and the current point is within one row of the circle. -/
structure OnCircle (r : ℤ) (s : Midpoint) : Prop where
  ddFx : s.ddFx = 2 * s.x + 1
  ddFy : s.ddFy = -2 * s.y
  decision : s.f = (s.x + 1) ^ 2 + s.y ^ 2 - s.y - r ^ 2
  lower : -s.y ≤ s.x ^ 2 + s.y ^ 2 - r ^ 2
  upper : s.x ^ 2 + s.y ^ 2 - r ^ 2 ≤ s.y
  strict : s.x ≤ s.y → 1 ≤ s.y → s.x ^ 2 + s.y ^ 2 - r ^ 2 < s.y
  x_nonneg : 0 ≤ s.x
  y_nonneg : 0 ≤ s.y
  y_le : s.y ≤ r
  x_le : s.x ≤ s.y + 1

theorem onCircle_start {r : ℤ} (hr : 0 ≤ r) : OnCircle r (start r) where
  ddFx := rfl
  ddFy := rfl
  decision := by simp only [start]; ring
  lower := by simp only [start]; linarith
  upper := by simp only [start]; linarith
  strict := by simp only [start]; intro _ _; linarith
  x_nonneg := le_rfl
  y_nonneg := hr
  y_le := le_rfl
  x_le := by simp only [start]; omega

theorem turn_x (s : Midpoint) : s.turn.x = s.x + 1 := by
  rw [turn]
  split <;> rfl

theorem turn_y (s : Midpoint) : s.turn.y = s.y ∨ s.turn.y = s.y - 1 := by
  rw [turn]
  split
  · exact Or.inr rfl
  · exact Or.inl rfl

variable {r : ℤ} {s : Midpoint}

/-- The decision variable in terms of the distance to the circle. -/
theorem OnCircle.decision_eq (h : OnCircle r s) :
    s.f = (s.x ^ 2 + s.y ^ 2 - r ^ 2) + 2 * s.x + 1 - s.y := by
  rw [h.decision]
  ring

/-- **A turn keeps the invariant.** -/
theorem OnCircle.turn (h : OnCircle r s) (hlt : s.x < s.y) : OnCircle r s.turn := by
  have hf := h.decision_eq
  have hupper := h.strict hlt.le (by have := h.x_nonneg; omega)
  have hlower := h.lower
  have hx := h.x_nonneg
  have hy := h.y_le
  have hdx := h.ddFx
  have hdy := h.ddFy
  by_cases hdown : s.f ≥ 0
  · have hturn : s.turn =
        ⟨s.f + (s.ddFy + 2) + (s.ddFx + 2), s.ddFx + 2, s.ddFy + 2, s.x + 1, s.y - 1⟩ := if_pos hdown
    -- one row down: the distance to the circle is the decision variable less the new row
    have hdist : (s.x + 1) ^ 2 + (s.y - 1) ^ 2 - r ^ 2 = s.f - (s.y - 1) := by
      rw [hf]
      ring
    rw [hturn]
    constructor
    · simp only [hdx]
      ring
    · simp only [hdy]
      ring
    · simp only [hf, hdx, hdy]
      ring
    · simp only [hdist]
      omega
    · simp only [hdist]
      omega
    · simp only [hdist]
      omega
    · simp only
      omega
    · simp only
      omega
    · simp only
      omega
    · simp only
      omega
  · have hturn : s.turn = ⟨s.f + (s.ddFx + 2), s.ddFx + 2, s.ddFy, s.x + 1, s.y⟩ := if_neg hdown
    have hdist : (s.x + 1) ^ 2 + s.y ^ 2 - r ^ 2 = s.f + s.y := by
      rw [hf]
      ring
    rw [hturn]
    constructor
    · simp only [hdx]
      ring
    · exact hdy
    · simp only [hf, hdx]
      ring
    · simp only [hdist]
      omega
    · simp only [hdist]
      omega
    · simp only [hdist]
      omega
    · simp only
      omega
    · simp only
      omega
    · exact hy
    · simp only
      omega

/-- **The current row is the nearest one.** -/
theorem OnCircle.nearest (h : OnCircle r s) (hle : s.x ≤ s.y) (hy : 1 ≤ s.y) :
    |(s.y : ℝ) - √((r : ℝ) ^ 2 - (s.x : ℝ) ^ 2)| < 1 / 2 := by
  have hlow : (2 * s.y - 1) ^ 2 < 4 * (r ^ 2 - s.x ^ 2) := by
    have hstrict := h.strict hle hy
    linarith
  have hhigh : 4 * (r ^ 2 - s.x ^ 2) < (2 * s.y + 1) ^ 2 := by
    have hlower := h.lower
    linarith
  have hlow' : (2 * (s.y : ℝ) - 1) ^ 2 < 4 * ((r : ℝ) ^ 2 - (s.x : ℝ) ^ 2) := by exact_mod_cast hlow
  have hhigh' : 4 * ((r : ℝ) ^ 2 - (s.x : ℝ) ^ 2) < (2 * (s.y : ℝ) + 1) ^ 2 := by exact_mod_cast hhigh
  have hy' : (1 : ℝ) ≤ s.y := by exact_mod_cast hy
  have habove : (s.y : ℝ) - 1 / 2 < √((r : ℝ) ^ 2 - (s.x : ℝ) ^ 2) := by
    apply Real.lt_sqrt_of_sq_lt
    linarith
  have hbelow : √((r : ℝ) ^ 2 - (s.x : ℝ) ^ 2) < (s.y : ℝ) + 1 / 2 := by
    apply (Real.sqrt_lt' (by linarith)).mpr
    linarith
  rw [abs_lt]
  constructor
  · linarith
  · linarith

/-! ## The walk -/

/-- The state after `k` turns. -/
def after (r : ℤ) (k : ℕ) : Midpoint := turn^[k] (start r)

theorem after_succ (r : ℤ) (k : ℕ) : after r (k + 1) = (after r k).turn :=
  Function.iterate_succ_apply' _ _ _

/-- There are no gaps in the columns. -/
theorem after_x (r : ℤ) (k : ℕ) : (after r k).x = k := by
  induction k with
  | zero => rfl
  | succ k ih => rw [after_succ, turn_x, ih, Nat.cast_succ]

/-- The rows descend by at most one for each column. -/
theorem after_y (r : ℤ) (k : ℕ) :
    (after r (k + 1)).y = (after r k).y ∨ (after r (k + 1)).y = (after r k).y - 1 := by
  rw [after_succ]
  exact turn_y _

/-- How often the loop turns from a state, with a limit. -/
def turnsFrom : (fuel : ℕ) → Midpoint → ℕ
  | 0, _ => 0
  | fuel + 1, s => if s.x < s.y then turnsFrom fuel s.turn + 1 else 0

theorem turnsFrom_le (fuel : ℕ) (s : Midpoint) : turnsFrom fuel s ≤ fuel := by
  induction fuel generalizing s with
  | zero => exact le_rfl
  | succ fuel ih =>
    rw [turnsFrom]
    split
    · have h := ih s.turn
      omega
    · omega

/-- Before its last turn the loop's condition holds. -/
theorem lt_of_lt_turnsFrom (fuel : ℕ) (s : Midpoint) {k : ℕ} (hk : k < turnsFrom fuel s) :
    (turn^[k] s).x < (turn^[k] s).y := by
  induction fuel generalizing s k with
  | zero => exact absurd hk (Nat.not_lt_zero k)
  | succ fuel ih =>
    rw [turnsFrom] at hk
    split at hk
    case isTrue hlt =>
      cases k with
      | zero => exact hlt
      | succ k => exact ih s.turn (by omega)
    case isFalse => exact absurd hk (Nat.not_lt_zero k)

/-- Short of the limit it fails after the last turn. -/
theorem le_of_turnsFrom_lt (fuel : ℕ) (s : Midpoint) (h : turnsFrom fuel s < fuel) :
    (turn^[turnsFrom fuel s] s).y ≤ (turn^[turnsFrom fuel s] s).x := by
  induction fuel generalizing s with
  | zero => exact absurd h (Nat.not_lt_zero _)
  | succ fuel ih =>
    rw [turnsFrom] at h ⊢
    split at h
    case isTrue hlt =>
      rw [if_pos hlt, Function.iterate_succ_apply]
      exact ih s.turn (by omega)
    case isFalse hlt =>
      rw [if_neg hlt]
      exact not_lt.mp hlt

end Midpoint

open Midpoint

/-- How often the loop turns for the radius. -/
def turns (r : ℤ) : ℕ := turnsFrom r.toNat (start r)

theorem lt_of_lt_turns {r : ℤ} {k : ℕ} (hk : k < turns r) : (after r k).x < (after r k).y :=
  lt_of_lt_turnsFrom _ _ hk

section
variable {r : ℤ} (hr : 0 ≤ r)
include hr

/-- The invariant, as long as the loop turns. -/
theorem onCircle_after_of_lt (n : ℕ) (h : ∀ k < n, (after r k).x < (after r k).y) :
    OnCircle r (after r n) := by
  induction n with
  | zero => exact onCircle_start hr
  | succ n ih =>
    have hn := ih fun k hk => h k (by omega)
    rw [after_succ]
    exact hn.turn (h n (by omega))

/-- **The invariant holds in every state of the loop.** -/
theorem onCircle_after {k : ℕ} (hk : k ≤ turns r) : OnCircle r (after r k) :=
  onCircle_after_of_lt hr k fun _ hj => lt_of_lt_turns (lt_of_lt_of_le hj hk)

/-- **The loop ends at the diagonal**, or one pixel behind it. -/
theorem le_turns : (after r (turns r)).y ≤ (after r (turns r)).x := by
  rcases (turnsFrom_le r.toNat (start r)).eq_or_lt with h | h
  · -- the limit was reached: the column is the radius
    have hon := onCircle_after hr (le_refl (turns r))
    have hy := hon.y_le
    have hx := after_x r (turns r)
    have hn : turns r = r.toNat := h
    omega
  · exact le_of_turnsFrom_lt _ _ h

/-- **The loop terminates**: a greater limit makes no difference. -/
theorem turnsFrom_of_ge {fuel : ℕ} (h : r.toNat ≤ fuel) : turnsFrom fuel (start r) = turns r := by
  have hend := le_turns hr
  have hle : turnsFrom fuel (start r) ≤ turns r := by
    by_contra hgt
    have hlt := lt_of_lt_turnsFrom fuel (start r) (not_le.mp hgt)
    have hlt' : (after r (turns r)).x < (after r (turns r)).y := hlt
    omega
  have hge : turns r ≤ turnsFrom fuel (start r) := by
    by_contra hlt
    have hmax := turnsFrom_le r.toNat (start r)
    have hn : turns r = turnsFrom r.toNat (start r) := rfl
    have hstop := le_of_turnsFrom_lt fuel (start r) (by omega)
    have hstop' : (after r (turnsFrom fuel (start r))).y ≤ (after r (turnsFrom fuel (start r))).x := hstop
    have hgo := lt_of_lt_turns (not_le.mp hlt)
    omega
  omega

end

/-! ## The outline -/

/-- The pixels of the circle as offsets from its centre: the mirror images of the points
the loop visits. -/
def outline (r : ℤ) : Set Pixel := {p | ∃ k ≤ turns r, p ∈ mirror (after r k).x (after r k).y}

/-- The point of the walk after `k` turns. -/
def octantPoint (r : ℤ) (k : ℕ) : Pixel := ((after r k).x, (after r k).y)

theorem octantPoint_mem {r : ℤ} {k : ℕ} (hk : k ≤ turns r) : octantPoint r k ∈ outline r :=
  ⟨k, hk, mem_mirror_self _ _⟩

/-- **The outline is symmetric.** -/
theorem mirror_outline {r : ℤ} {p q : Pixel} (hp : p ∈ outline r) (hq : q ∈ mirror p.1 p.2) :
    q ∈ outline r := by
  rcases hp with ⟨k, hk, hpk⟩
  exact ⟨k, hk, mirror_trans hpk hq⟩

section
variable {r : ℤ}

theorem negFst_mem {p : Pixel} (h : p ∈ outline r) : (-p.1, p.2) ∈ outline r :=
  mirror_outline h (by simp [mirror])

theorem negSnd_mem {p : Pixel} (h : p ∈ outline r) : (p.1, -p.2) ∈ outline r :=
  mirror_outline h (by simp [mirror])

theorem swap_mem {p : Pixel} (h : p ∈ outline r) : p.swap ∈ outline r :=
  mirror_outline h (by simp [mirror, Prod.swap])

/-- The walk is a path. -/
theorem path_octant {k : ℕ} (hk : k ≤ turns r) : Path (outline r) (0, r) (octantPoint r k) := by
  have hnear : ∀ j < turns r, |(octantPoint r j).1 - (octantPoint r (j + 1)).1| ≤ 1 ∧
      |(octantPoint r j).2 - (octantPoint r (j + 1)).2| ≤ 1 := by
    intro j _
    have hx := after_x r j
    have hx' := after_x r (j + 1)
    have hy := after_y r j
    simp only [octantPoint, abs_le]
    omega
  exact Path.of_sequence (fun j hj => octantPoint_mem hj) hnear k hk

/-- The octant meets its mirror image at the diagonal. -/
theorem path_diagonal (hr : 0 ≤ r) : Path (outline r) (0, r) (r, 0) := by
  have hlast := octantPoint_mem (le_refl (turns r))
  have hwalk := path_octant (le_refl (turns r))
  have hback := hwalk.map (fun _ _ h => h.swap) (fun _ h => swap_mem h)
  have hend := le_turns hr
  have hx := (onCircle_after hr (le_refl (turns r))).x_le
  have hmeet : Path (outline r) (octantPoint r (turns r)) (octantPoint r (turns r)).swap := by
    apply Path.of_near hlast (swap_mem hlast)
    · simp only [octantPoint, Prod.fst_swap, abs_le]
      omega
    · simp only [octantPoint, Prod.snd_swap, abs_le]
      omega
  exact (hwalk.trans hmeet).trans hback.symm

/-- **The outline is connected.**  Its four poles are joined by octants, and every other
pixel is joined to a pole by the image of a walk. -/
theorem eightConnected_outline (hr : 0 ≤ r) : EightConnected (outline r) := by
  have hneg1 : ∀ {p q}, Path (outline r) p q → Path (outline r) (-p.1, p.2) (-q.1, q.2) :=
    fun h => h.map (fun _ _ h => h.negFst) fun _ h => negFst_mem h
  have hneg2 : ∀ {p q}, Path (outline r) p q → Path (outline r) (p.1, -p.2) (q.1, -q.2) :=
    fun h => h.map (fun _ _ h => h.negSnd) fun _ h => negSnd_mem h
  have hswap : ∀ {p q}, Path (outline r) p q → Path (outline r) p.swap q.swap :=
    fun h => h.map (fun _ _ h => h.swap) fun _ h => swap_mem h
  have heast := path_diagonal hr
  have hsouth : Path (outline r) (0, r) (0, -r) := by
    have h := hneg2 heast
    rw [neg_zero] at h
    exact heast.trans h.symm
  have hwest : Path (outline r) (0, r) (-r, 0) := by
    have h := hneg1 heast
    rw [neg_zero] at h
    exact h
  apply eightConnected_of_base (0, r)
  rintro p ⟨k, hk, hp⟩
  have hwalk := path_octant hk
  have hside := heast.trans (hswap hwalk)
  have hleft := hneg1 hwalk
  have hdown := hneg2 hwalk
  have hleftdown := hneg2 hleft
  have hsideleft := hneg1 (hswap hwalk)
  have hsidedown := hneg2 (hswap hwalk)
  have hsideleftdown := hneg2 hsideleft
  simp only [octantPoint, Prod.swap, neg_zero] at *
  simp only [mirror, List.mem_cons, List.not_mem_nil, or_false] at hp
  rcases hp with rfl | rfl | rfl | rfl | rfl | rfl | rfl | rfl
  · exact hwalk
  · exact hleft
  · exact hsouth.trans hdown
  · exact hsouth.trans hleftdown
  · exact hside
  · exact hwest.trans hsideleft
  · exact heast.trans hsidedown
  · exact hwest.trans hsideleftdown

end
end Pigfx.Lib
