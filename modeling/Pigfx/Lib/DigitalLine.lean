import Pigfx.Lib.Raster
import Mathlib.Data.List.Range
import Mathlib.Data.Rat.Lemmas
import Mathlib.Tactic.FieldSimp
import Mathlib.Tactic.Linarith
import Mathlib.Tactic.Ring

/-!
# Digital lines

A line that advances by one in its major direction and, from time to time, by one in
its minor direction.  The incremental algorithm keeps an error term that starts at
half of the major extent `d`, loses the minor extent `e` at each step and regains `d`
whenever it falls below zero.  Both the offset and the error have a closed form, a
quotient and its remainder, from which the accuracy of the line follows.

## Main definitions

* `minorAt`, `errorAt` — minor offset and error after so many major steps.
* `DigitalLine` — a line with ascending ends, and its pixels.
* `lineBetween`, `Digitizes` — the line between two pixels, and what makes it one.
-/

namespace Pigfx.Lib

/-! ## Offset and error -/

/-- Minor steps taken after `k` of `d` major steps, for a total of `e`. -/
def minorAt (d e k : ℤ) : ℤ := -((d / 2 - k * e) / d)

/-- The error term after `k` major steps. -/
def errorAt (d e k : ℤ) : ℤ := (d / 2 - k * e) % d

section
variable {d e : ℤ}

/-- What ties the error term to the exact line. -/
theorem errorAt_eq (d e k : ℤ) : errorAt d e k = d / 2 - k * e + minorAt d e k * d := by
  rw [errorAt, minorAt, Int.emod_def]
  ring

theorem errorAt_nonneg (hd : 0 < d) (k : ℤ) : 0 ≤ errorAt d e k := Int.emod_nonneg _ (by omega)

theorem errorAt_lt (hd : 0 < d) (k : ℤ) : errorAt d e k < d := Int.emod_lt_of_pos _ hd

/-- Only one offset has an error in range. -/
theorem minorAt_unique (hd : 0 < d) {k s err : ℤ} (herr : d / 2 - k * e + s * d = err)
    (h0 : 0 ≤ err) (h1 : err < d) : minorAt d e k = s ∧ errorAt d e k = err := by
  have hquot : (d / 2 - k * e) / d = -s ∧ (d / 2 - k * e) % d = err := by
    apply (Int.ediv_emod_unique hd).mpr
    constructor
    · rw [← herr]
      ring
    · exact ⟨h0, h1⟩
  rw [minorAt, errorAt, hquot.1, hquot.2, neg_neg]
  exact ⟨rfl, rfl⟩

theorem minorAt_zero (hd : 0 ≤ d) : minorAt d e 0 = 0 := by
  have hquot : d / 2 / d = 0 := by
    rcases hd.eq_or_lt with h | h
    · simp [← h]
    · exact Int.ediv_eq_zero_of_lt (by omega) (by omega)
  simp [minorAt, hquot]

theorem errorAt_zero (hd : 0 < d) : errorAt d e 0 = d / 2 := by
  rw [errorAt_eq, minorAt_zero hd.le]
  ring

/-- The line arrives. -/
theorem minorAt_last (hd : 0 < d) : minorAt d e d = e := by
  have herr : d / 2 - d * e + e * d = d / 2 := by ring
  exact (minorAt_unique hd herr (by omega) (by omega)).1

/-- A major step that is a minor step too. -/
theorem minorAt_succ_of_neg (he : e ≤ d) (hd : 0 < d) {k : ℤ} (h : errorAt d e k - e < 0) :
    minorAt d e (k + 1) = minorAt d e k + 1 ∧ errorAt d e (k + 1) = errorAt d e k - e + d := by
  have hnonneg := errorAt_nonneg (e := e) hd k
  have hnext : d / 2 - (k + 1) * e + (minorAt d e k + 1) * d = errorAt d e k - e + d := by
    rw [errorAt_eq]
    ring
  exact minorAt_unique hd hnext (by omega) (by omega)

/-- A major step that is not. -/
theorem minorAt_succ_of_nonneg (he : 0 ≤ e) (hd : 0 < d) {k : ℤ} (h : 0 ≤ errorAt d e k - e) :
    minorAt d e (k + 1) = minorAt d e k ∧ errorAt d e (k + 1) = errorAt d e k - e := by
  have hlt := errorAt_lt (e := e) hd k
  have hnext : d / 2 - (k + 1) * e + minorAt d e k * d = errorAt d e k - e := by
    rw [errorAt_eq]
    ring
  exact minorAt_unique hd hnext h (by omega)

/-- From one major step to the next the offset grows by at most one. -/
theorem minorAt_step (h0 : 0 ≤ e) (he : e ≤ d) (hd : 0 < d) (k : ℤ) :
    minorAt d e (k + 1) = minorAt d e k ∨ minorAt d e (k + 1) = minorAt d e k + 1 := by
  by_cases h : errorAt d e k - e < 0
  · right
    exact (minorAt_succ_of_neg he hd h).1
  · left
    exact (minorAt_succ_of_nonneg h0 hd (not_lt.mp h)).1

/-- On the way the offset stays between its first and its last value. -/
theorem minorAt_mem (h0 : 0 ≤ e) (hd : 0 < d) {k : ℤ} (hk : 0 ≤ k) (hkd : k ≤ d) :
    0 ≤ minorAt d e k ∧ minorAt d e k ≤ e := by
  have herr := errorAt_eq d e k
  have hnonneg := errorAt_nonneg (e := e) hd k
  have hlt := errorAt_lt (e := e) hd k
  have hhalf : 0 ≤ d / 2 ∧ d / 2 < d := by omega
  constructor
  · by_contra hneg
    have hke : 0 ≤ k * e := mul_nonneg hk h0
    have hsd : minorAt d e k * d ≤ -1 * d := mul_le_mul_of_nonneg_right (by omega) hd.le
    linarith
  · by_contra hbig
    have hke : k * e ≤ d * e := mul_le_mul_of_nonneg_right hkd h0
    have hsd : (e + 1) * d ≤ minorAt d e k * d := mul_le_mul_of_nonneg_right (by omega) hd.le
    linarith

/-- **Accuracy.**  The offset times the major extent is off by at most half of the major
extent. -/
theorem two_mul_abs_minorAt_le (hd : 0 < d) (k : ℤ) : 2 * |minorAt d e k * d - k * e| ≤ d := by
  have herr := errorAt_eq d e k
  have hnonneg := errorAt_nonneg (e := e) hd k
  have hlt := errorAt_lt (e := e) hd k
  have hhalf : 2 * (d / 2) ≤ d ∧ d ≤ 2 * (d / 2) + 1 := by omega
  rcases abs_cases (minorAt d e k * d - k * e) with ⟨h, -⟩ | ⟨h, -⟩
  · omega
  · omega

end

/-! ## Lines with ascending ends -/

/-- The minor coordinate of the exact line through two points at the major coordinate `a`. -/
def idealMinor (a0 b0 a1 b1 a : ℤ) : ℚ := b0 + (a - a0) * (b1 - b0) / (a1 - a0)

/-- The exact line does not depend on the order of its ends. -/
theorem idealMinor_comm {a0 a1 : ℤ} (h : a0 ≠ a1) (b0 b1 a : ℤ) :
    idealMinor a0 b0 a1 b1 a = idealMinor a1 b1 a0 b0 a := by
  have h01 : (a0 : ℚ) - a1 ≠ 0 := sub_ne_zero.mpr (by exact_mod_cast h)
  have h10 : (a1 : ℚ) - a0 ≠ 0 := sub_ne_zero.mpr (by exact_mod_cast h.symm)
  simp only [idealMinor]
  field_simp
  ring

/-- A line with its ends in ascending major order: at each of its major coordinates it has
one pixel.  A steep line has the second coordinate as its major one. -/
structure DigitalLine where
  steep : Bool
  major0 : ℤ
  minor0 : ℤ
  major1 : ℤ
  minor1 : ℤ
  ascending : major0 ≤ major1
  gentle : |minor1 - minor0| ≤ major1 - major0

namespace DigitalLine
variable (L : DigitalLine)

/-- The major extent. -/
def extent : ℤ := L.major1 - L.major0

/-- The minor extent. -/
def rise : ℤ := |L.minor1 - L.minor0|

/-- The direction of a minor step. -/
def dir : ℤ := if L.minor0 < L.minor1 then 1 else -1

/-- The pixel with the given major and minor coordinate. -/
def place (a b : ℤ) : Pixel := if L.steep then (b, a) else (a, b)

def major (p : Pixel) : ℤ := if L.steep then p.2 else p.1

def minor (p : Pixel) : ℤ := if L.steep then p.1 else p.2

/-- The pixel after `k` major steps. -/
def point (k : ℕ) : Pixel :=
  L.place (L.major0 + k) (L.minor0 + L.dir * minorAt L.extent L.rise k)

def pixels : List Pixel := (List.range (L.extent + 1).toNat).map L.point

@[simp] theorem major_place (a b : ℤ) : L.major (L.place a b) = a := by
  cases h : L.steep <;> simp [major, place, h]

@[simp] theorem minor_place (a b : ℤ) : L.minor (L.place a b) = b := by
  cases h : L.steep <;> simp [minor, place, h]

theorem extent_nonneg : 0 ≤ L.extent := sub_nonneg.mpr L.ascending

theorem rise_nonneg : 0 ≤ L.rise := abs_nonneg _

theorem rise_le : L.rise ≤ L.extent := L.gentle

theorem dir_mul_rise : L.dir * L.rise = L.minor1 - L.minor0 := by
  rw [dir, rise]
  split
  · rw [abs_of_nonneg (by omega), one_mul]
  · rw [abs_of_nonpos (by omega)]
    ring

theorem length_pixels : (L.pixels.length : ℤ) = L.extent + 1 := by
  have h := L.extent_nonneg
  rw [pixels, List.length_map, List.length_range]
  omega

theorem mem_pixels {p : Pixel} : p ∈ L.pixels ↔ ∃ k : ℕ, (k : ℤ) ≤ L.extent ∧ L.point k = p := by
  have h := L.extent_nonneg
  simp only [pixels, List.mem_map, List.mem_range]
  constructor
  · rintro ⟨k, hk, rfl⟩
    exact ⟨k, by omega, rfl⟩
  · rintro ⟨k, hk, rfl⟩
    exact ⟨k, by omega, rfl⟩

theorem map_major_pixels :
    L.pixels.map L.major = (List.range (L.extent + 1).toNat).map fun k => L.major0 + (k : ℕ) := by
  rw [pixels, List.map_map]
  apply List.map_congr_left
  intro k _
  simp [point]

theorem point_zero : L.point 0 = L.place L.major0 L.minor0 := by
  simp [point, minorAt_zero L.extent_nonneg]

theorem point_last : L.point L.extent.toNat = L.place L.major1 L.minor1 := by
  have hcast : (L.extent.toNat : ℤ) = L.extent := Int.toNat_of_nonneg L.extent_nonneg
  have hmajor : L.major0 + L.extent = L.major1 := by rw [extent]; ring
  have hminor : L.minor0 + L.dir * minorAt L.extent L.rise L.extent = L.minor1 := by
    rcases L.extent_nonneg.eq_or_lt with h | h
    · -- a line of one pixel
      have hrise := L.rise_le
      have habs : |L.minor1 - L.minor0| ≤ 0 := by
        rw [← h] at hrise
        exact hrise
      have hzero := abs_nonpos_iff.mp habs
      rw [← h, minorAt_zero le_rfl]
      omega
    · rw [minorAt_last h, dir_mul_rise]
      ring
  rw [point, hcast, hmajor, hminor]

/-- Neighbouring major coordinates give neighbouring pixels. -/
theorem neighbours_point {k : ℕ} (hk : (k : ℤ) < L.extent) :
    Neighbours (L.point k) (L.point (k + 1)) := by
  have hd : 0 < L.extent := by omega
  have hdir : L.dir = 1 ∨ L.dir = -1 := by
    rw [dir]
    split
    · exact Or.inl rfl
    · exact Or.inr rfl
  have hstep := minorAt_step L.rise_nonneg L.rise_le hd k
  simp only [point, Nat.cast_add, Nat.cast_one]
  generalize minorAt L.extent L.rise k = s at hstep ⊢
  generalize minorAt L.extent L.rise (k + 1) = s' at hstep ⊢
  have hmajor : L.major0 + (k : ℤ) ≠ L.major0 + (k + 1) := by omega
  have hminor : |L.minor0 + L.dir * s - (L.minor0 + L.dir * s')| ≤ 1 := by
    rcases hdir with h | h <;> rcases hstep with rfl | rfl <;> rw [h, abs_le] <;> omega
  cases hs : L.steep
  · simp only [place, hs, Neighbours, ne_eq, Prod.mk.injEq, Bool.false_eq_true, if_false]
    exact ⟨fun h => hmajor h.1, by rw [abs_le]; omega, hminor⟩
  · simp only [place, hs, Neighbours, ne_eq, Prod.mk.injEq, if_true]
    exact ⟨fun h => hmajor h.2, hminor, by rw [abs_le]; omega⟩

theorem isChain_pixels : L.pixels.IsChain Neighbours := by
  rw [pixels, List.isChain_map]
  have hlen : (L.extent + 1).toNat = L.extent.toNat + 1 := by
    have h := L.extent_nonneg
    omega
  rw [hlen]
  apply (List.isChain_range_succ _ _).mpr
  intro k hk
  exact L.neighbours_point (by omega)

theorem head_pixels : L.pixels.head? = some (L.place L.major0 L.minor0) := by
  have hlen : (L.extent + 1).toNat = L.extent.toNat + 1 := by
    have h := L.extent_nonneg
    omega
  rw [pixels, hlen, List.range_succ_eq_map, List.map_cons, List.head?_cons, point_zero]

theorem last_pixels : L.pixels.getLast? = some (L.place L.major1 L.minor1) := by
  have hlen : (L.extent + 1).toNat = L.extent.toNat + 1 := by
    have h := L.extent_nonneg
    omega
  rw [pixels, hlen, List.range_succ, List.map_append, List.map_singleton, List.getLast?_concat,
    point_last]

/-- **Every pixel is within one half of the exact line.** -/
theorem accuracy {p : Pixel} (hp : p ∈ L.pixels) :
    2 * |(L.minor p : ℚ) * L.extent -
        idealMinor L.major0 L.minor0 L.major1 L.minor1 (L.major p) * L.extent| ≤ L.extent := by
  rw [mem_pixels] at hp
  rcases hp with ⟨k, hk, rfl⟩
  simp only [point, major_place, minor_place, idealMinor]
  rcases L.extent_nonneg.eq_or_lt with h | h
  · simp [← h]
  · have hne : (L.major1 : ℚ) - L.major0 ≠ 0 := by
      have hsub : (L.major1 : ℚ) - L.major0 = (L.extent : ℤ) := by simp [extent]
      rw [hsub]
      exact_mod_cast h.ne'
    have hrise : (L.dir : ℚ) * L.rise = L.minor1 - L.minor0 := by exact_mod_cast L.dir_mul_rise
    have hdist : ((L.minor0 + L.dir * minorAt L.extent L.rise k : ℤ) : ℚ) * L.extent -
        (L.minor0 + (((L.major0 + k : ℤ) : ℚ) - L.major0) * (L.minor1 - L.minor0) /
          (L.major1 - L.major0)) * L.extent =
        ((L.dir * (minorAt L.extent L.rise k * L.extent - k * L.rise) : ℤ) : ℚ) := by
      rw [← hrise]
      have hextent : (L.extent : ℚ) = L.major1 - L.major0 := by simp [extent]
      rw [hextent]
      push_cast
      rw [hextent]
      field_simp
      ring
    rw [hdist]
    have hbound := two_mul_abs_minorAt_le (e := L.rise) h k
    have habs : |L.dir| = 1 := by
      rw [dir]
      split <;> rfl
    have hint : 2 * |L.dir * (minorAt L.extent L.rise k * L.extent - k * L.rise)| ≤ L.extent := by
      rw [abs_mul, habs, one_mul]
      exact hbound
    exact_mod_cast hint

end DigitalLine

/-! ## The line between two pixels -/

/-- The second coordinate is the major one. -/
def steep (p q : Pixel) : Bool := |p.1 - q.1| < |p.2 - q.2|

def majorOf (p q r : Pixel) : ℤ := if steep p q then r.2 else r.1

def minorOf (p q r : Pixel) : ℤ := if steep p q then r.1 else r.2

/-- `ps` is a digital line between `p` and `q`. -/
structure Digitizes (p q : Pixel) (ps : List Pixel) : Prop where
  count : (ps.length : ℤ) = max |p.1 - q.1| |p.2 - q.2| + 1
  majors : ps.map (majorOf p q) =
    (List.range ps.length).map fun k => min (majorOf p q p) (majorOf p q q) + (k : ℕ)
  ends : ps.head? = some p ∧ ps.getLast? = some q ∨ ps.head? = some q ∧ ps.getLast? = some p
  chain : ps.IsChain Neighbours
  accurate : ∀ r ∈ ps,
    2 * |(minorOf p q r : ℚ) * (max |p.1 - q.1| |p.2 - q.2| : ℤ) -
      idealMinor (majorOf p q p) (minorOf p q p) (majorOf p q q) (minorOf p q q) (majorOf p q r) *
        (max |p.1 - q.1| |p.2 - q.2| : ℤ)| ≤ (max |p.1 - q.1| |p.2 - q.2| : ℤ)

theorem steep_comm (p q : Pixel) : steep q p = steep p q := by
  rw [steep, steep, abs_sub_comm q.1, abs_sub_comm q.2]

theorem gentle_of_steep (p q : Pixel) :
    |minorOf p q q - minorOf p q p| ≤ |majorOf p q q - majorOf p q p| := by
  rw [minorOf, minorOf, majorOf, majorOf, abs_sub_comm, abs_sub_comm (ite _ q.2 q.1)]
  by_cases h : |p.1 - q.1| < |p.2 - q.2|
  · simpa [steep, h] using h.le
  · simpa [steep, h] using not_lt.mp h

theorem max_eq_major (p q : Pixel) :
    max |p.1 - q.1| |p.2 - q.2| = |majorOf p q q - majorOf p q p| := by
  rw [majorOf, majorOf, abs_sub_comm (ite _ q.2 q.1)]
  by_cases h : |p.1 - q.1| < |p.2 - q.2|
  · simpa [steep, h] using h.le
  · simpa [steep, h] using not_lt.mp h

/-- The line with the given ends, which are exchanged unless they ascend. -/
def DigitalLine.ofEnds (s : Bool) (a0 b0 a1 b1 : ℤ) (h : |b1 - b0| ≤ |a1 - a0|) : DigitalLine :=
  if ha : a0 ≤ a1 then ⟨s, a0, b0, a1, b1, ha, by rwa [abs_of_nonneg (sub_nonneg.mpr ha)] at h⟩
  else ⟨s, a1, b1, a0, b0, by omega, by
    rw [abs_sub_comm b0, ← abs_of_nonneg (a := a0 - a1) (by omega), abs_sub_comm a0]
    exact h⟩

/-- The line between two pixels. -/
def lineBetween (p q : Pixel) : DigitalLine :=
  .ofEnds (steep p q) (majorOf p q p) (minorOf p q p) (majorOf p q q) (minorOf p q q)
    (gentle_of_steep p q)

theorem DigitalLine.ofEnds_comm {s : Bool} {a0 b0 a1 b1 : ℤ} (h : |b1 - b0| ≤ |a1 - a0|)
    (h' : |b0 - b1| ≤ |a0 - a1|) : ofEnds s a1 b1 a0 b0 h' = ofEnds s a0 b0 a1 b1 h := by
  rcases lt_trichotomy a0 a1 with hlt | rfl | hgt
  · rw [ofEnds, ofEnds, dif_neg (by omega), dif_pos hlt.le]
  · -- ends with one major coordinate are one pixel
    rw [sub_self, abs_zero] at h
    have hb : b1 = b0 := sub_eq_zero.mp (abs_nonpos_iff.mp h)
    subst hb
    rfl
  · rw [ofEnds, ofEnds, dif_pos hgt.le, dif_neg (by omega)]

/-- **The line does not depend on the order of its ends.** -/
theorem lineBetween_comm (p q : Pixel) : lineBetween q p = lineBetween p q := by
  have hmajor : majorOf q p = majorOf p q := by
    ext r
    rw [majorOf, majorOf, steep_comm]
  have hminor : minorOf q p = minorOf p q := by
    ext r
    rw [minorOf, minorOf, steep_comm]
  have h := gentle_of_steep q p
  simp only [lineBetween, steep_comm p q, hmajor, hminor] at h ⊢
  exact DigitalLine.ofEnds_comm _ h

/-- The two orders in which the ends of a line between pixels may ascend. -/
theorem lineBetween_cases (p q : Pixel) :
    ∃ s t : Pixel, (s = p ∧ t = q ∨ s = q ∧ t = p) ∧ (lineBetween p q).steep = steep p q ∧
      (lineBetween p q).major0 = majorOf p q s ∧ (lineBetween p q).minor0 = minorOf p q s ∧
      (lineBetween p q).major1 = majorOf p q t ∧ (lineBetween p q).minor1 = minorOf p q t := by
  by_cases h : majorOf p q p ≤ majorOf p q q
  · refine ⟨p, q, Or.inl ⟨rfl, rfl⟩, ?_⟩
    rw [lineBetween, DigitalLine.ofEnds, dif_pos h]
    exact ⟨rfl, rfl, rfl, rfl, rfl⟩
  · refine ⟨q, p, Or.inr ⟨rfl, rfl⟩, ?_⟩
    rw [lineBetween, DigitalLine.ofEnds, dif_neg h]
    exact ⟨rfl, rfl, rfl, rfl, rfl⟩

/-- **The line between two pixels digitizes the segment.** -/
theorem digitizes_lineBetween (p q : Pixel) : Digitizes p q (lineBetween p q).pixels := by
  have hcases := lineBetween_cases p q
  rcases hcases with ⟨s, t, hst, hsteep, ha0, hb0, ha1, hb1⟩
  generalize hL : lineBetween p q = L at *
  have hmajor : L.major = majorOf p q := by
    ext r
    rw [DigitalLine.major, majorOf, hsteep]
  have hminor : L.minor = minorOf p q := by
    ext r
    rw [DigitalLine.minor, minorOf, hsteep]
  have hplace : ∀ r, L.place (majorOf p q r) (minorOf p q r) = r := by
    intro r
    cases h : steep p q <;> simp [DigitalLine.place, majorOf, minorOf, hsteep, h]
  have hextent : L.extent = max |p.1 - q.1| |p.2 - q.2| := by
    rw [max_eq_major, ← abs_of_nonneg L.extent_nonneg, DigitalLine.extent, ha0, ha1]
    rcases hst with ⟨rfl, rfl⟩ | ⟨rfl, rfl⟩
    · rfl
    · exact abs_sub_comm _ _
  constructor
  · rw [L.length_pixels, hextent]
  · rw [← hmajor, L.map_major_pixels, DigitalLine.pixels, List.length_map, List.length_range]
    have hmin : L.major0 = min (L.major p) (L.major q) := by
      have hasc := L.ascending
      rw [ha0, ha1] at hasc
      rw [hmajor, ha0]
      rcases hst with ⟨rfl, rfl⟩ | ⟨rfl, rfl⟩
      · exact (min_eq_left hasc).symm
      · exact (min_eq_right hasc).symm
    rw [← hmin]
  · rw [L.head_pixels, L.last_pixels, ha0, hb0, ha1, hb1, hplace, hplace]
    rcases hst with ⟨rfl, rfl⟩ | ⟨rfl, rfl⟩
    · exact Or.inl ⟨rfl, rfl⟩
    · exact Or.inr ⟨rfl, rfl⟩
  · exact L.isChain_pixels
  · intro r hr
    have hacc := L.accuracy hr
    rw [hminor, hmajor, ha0, hb0, ha1, hb1, hextent] at hacc
    rcases hst with ⟨rfl, rfl⟩ | ⟨rfl, rfl⟩
    · exact hacc
    · rcases eq_or_ne (majorOf t s s) (majorOf t s t) with heq | hne
      · have hzero : max |t.1 - s.1| |t.2 - s.2| = 0 := by
          rw [max_eq_major, heq, sub_self, abs_zero]
        simp [hzero]
      · rw [idealMinor_comm hne] at hacc
        exact hacc

/-- Every pixel of a line lies in the rectangle that its ends span. -/
theorem DigitalLine.mem_rectangle (L : DigitalLine) {p : Pixel} (hp : p ∈ L.pixels) :
    L.major0 ≤ L.major p ∧ L.major p ≤ L.major1 ∧
      min L.minor0 L.minor1 ≤ L.minor p ∧ L.minor p ≤ max L.minor0 L.minor1 := by
  rw [mem_pixels] at hp
  rcases hp with ⟨k, hk, rfl⟩
  have hasc : L.extent = L.major1 - L.major0 := rfl
  have hmem : 0 ≤ minorAt L.extent L.rise k ∧ minorAt L.extent L.rise k ≤ L.rise := by
    rcases L.extent_nonneg.eq_or_lt with h | h
    · obtain rfl : k = 0 := by omega
      rw [Nat.cast_zero, minorAt_zero L.extent_nonneg]
      exact ⟨le_rfl, L.rise_nonneg⟩
    · exact minorAt_mem L.rise_nonneg h (by omega) hk
  have hdir := L.dir_mul_rise
  simp only [point, major_place, minor_place]
  refine ⟨by omega, by omega, ?_⟩
  by_cases hlt : L.minor0 < L.minor1
  · have hone : L.dir = 1 := if_pos hlt
    rw [hone] at hdir ⊢
    omega
  · have hone : L.dir = -1 := if_neg hlt
    rw [hone] at hdir ⊢
    omega

end Pigfx.Lib
