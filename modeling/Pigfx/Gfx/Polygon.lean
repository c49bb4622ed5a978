import Pigfx.Gfx.Terminal
import Pigfx.Lib.ExchangeSort
import Mathlib.Algebra.Group.Nat.Even
import Mathlib.Data.List.GetD
import Mathlib.Data.List.Sort

/-!
# Filled polygons

`gfx_filled_polygon` collects, for each scanline, where the sides of the polygon cross it,
sorts the crossings and fills between the first and the second, the third and the fourth
and so on.  A side crosses a line if its ends lie on different sides of it, so around the
closed polygon there is an even number of crossings.

Five arrays are indexed by the number of vertices, which a parameter gives.

## Main definitions

* `crosses`, `crossings` — the sides that cross a line, and where.
* `collectCrossings`, `fillScanline` — a scanline, on an array with any contents.
* `filledPolygon_pairing` — the spans are pairs of crossings.
* `polygonAccesses`, `polygonAccesses_iff` — the array accesses, and when all are in bounds.
-/

namespace Pigfx
open Lib

/-! ## Vertices -/

/-- `xin`, with the first vertex repeated behind the last. -/
def vertexX (st : ScnState) (i : ℕ) : ℤ :=
  if i = (st.intParam 1).toNat then st.intParam 2 else st.intParam (2 * i + 2)

/-- `yin`. -/
def vertexY (st : ScnState) (i : ℕ) : ℤ :=
  if i = (st.intParam 1).toNat then st.intParam 3 else st.intParam (2 * i + 3)

theorem gfxFilledPolygon_eq (b : Build) (st : ScnState) (g : Gfx) :
    gfxFilledPolygon b st g = fillPolygon b (st.intParam 1).toNat (vertexX st) (vertexY st) g := rfl

/-- The polygon is closed. -/
theorem vertexY_last (st : ScnState) : vertexY st (st.intParam 1).toNat = vertexY st 0 := by
  by_cases h : 0 = (st.intParam 1).toNat
  · rw [← h]
  · simp [vertexY, h]

/-! ## Crossings -/

/-- The side from vertex `i` crosses the line. -/
def crosses (yin : ℕ → ℤ) (y : ℤ) (i : ℕ) : Bool :=
  (yin i ≤ y ∧ yin (i + 1) > y) ∨ (yin i > y ∧ yin (i + 1) ≤ y)

/-- Where the side from vertex `i` crosses the line. -/
def crossingAt (b : Build) (xin yin : ℕ → ℤ) (y : ℤ) (i : ℕ) : ℤ :=
  b.crossing (xin i) (xin (i + 1) - xin i) (yin (i + 1) - yin i) (y - yin i)

/-- The crossings of a line, in the order of the sides. -/
def crossings (b : Build) (xin yin : ℕ → ℤ) (nPoints : ℕ) (y : ℤ) : List ℤ :=
  ((List.range nPoints).filter (crosses yin y)).map (crossingAt b xin yin y)

/-- The collecting loop on an array with the contents `xi`. -/
def collectCrossings (b : Build) (xin yin : ℕ → ℤ) (nPoints : ℕ) (y : ℤ) (xi : ℕ → ℤ) :
    (ℕ → ℤ) × ℕ :=
  iterate nPoints (fun i (s : (ℕ → ℤ) × ℕ) =>
    let y0 := yin i
    let y1 := yin (i + 1)
    if (y0 ≤ y ∧ y1 > y) ∨ (y0 > y ∧ y1 ≤ y) then
      let x := b.crossing (xin i) (xin (i + 1) - xin i) (yin (i + 1) - yin i) (y - y0)
      (fun j => if j = s.2 then x else s.1 j, s.2 + 1)
    else s) (xi, 0)

theorem polygonCrossings_eq (b : Build) (xin yin : ℕ → ℤ) (nPoints : ℕ) (y : ℤ) :
    polygonCrossings b xin yin nPoints y = collectCrossings b xin yin nPoints y fun _ => 0 := rfl

theorem sortCrossings_eq (k : ℕ) (xi : ℕ → ℤ) : sortCrossings k xi = exchangeSort (k - 1) xi := rfl

section
variable (b : Build) (xin yin : ℕ → ℤ)

theorem crossings_succ (n : ℕ) (y : ℤ) :
    crossings b xin yin (n + 1) y =
      crossings b xin yin n y ++ if crosses yin y n then [crossingAt b xin yin y n] else [] := by
  rw [crossings, List.range_succ, List.filter_append, List.map_append, crossings]
  congr 1
  cases h : crosses yin y n <;> simp [h]

/-- The loop stores the crossings one behind the other and leaves the rest of the array. -/
theorem collectCrossings_spec (n : ℕ) (y : ℤ) (xi : ℕ → ℤ) :
    (collectCrossings b xin yin n y xi).2 = (crossings b xin yin n y).length ∧
      ∀ j, (collectCrossings b xin yin n y xi).1 j = (crossings b xin yin n y).getD j (xi j) := by
  induction n with
  | zero => exact ⟨rfl, fun _ => rfl⟩
  | succ n ih =>
    rcases ih with ⟨hk, hxi⟩
    rw [crossings_succ, collectCrossings, iterate_succ, ← collectCrossings]
    by_cases h : (yin n ≤ y ∧ yin (n + 1) > y) ∨ (yin n > y ∧ yin (n + 1) ≤ y)
    · have hc : crosses yin y n = true := decide_eq_true h
      rw [if_pos hc]
      simp only [h, if_true]
      constructor
      · rw [hk, List.length_append, List.length_singleton]
      · intro j
        rw [hk, hxi]
        rcases lt_trichotomy j (crossings b xin yin n y).length with hlt | rfl | hgt
        · rw [if_neg hlt.ne, List.getD_append _ _ _ _ hlt]
        · rw [if_pos rfl, List.getD_append_right _ _ _ _ le_rfl, Nat.sub_self]
          rfl
        · rw [if_neg hgt.ne', List.getD_append_right _ _ _ _ hgt.le,
            List.getD_eq_default _ _ hgt.le, List.getD_eq_default]
          simp only [List.length_singleton]
          omega
    · have hc : crosses yin y n = false := decide_eq_false h
      simp only [h, hc, if_false, List.append_nil, Bool.false_eq_true]
      exact ⟨hk, hxi⟩

theorem map_collectCrossings (n : ℕ) (y : ℤ) (xi : ℕ → ℤ) :
    (List.range (collectCrossings b xin yin n y xi).2).map (collectCrossings b xin yin n y xi).1 =
      crossings b xin yin n y := by
  have hspec := collectCrossings_spec b xin yin n y xi
  rw [hspec.1]
  apply List.ext_getElem
  · simp
  · intro j hj hj'
    rw [List.getElem_map, List.getElem_range, hspec.2, List.getD_eq_getElem _ _ hj']

theorem length_crossings_le (n : ℕ) (y : ℤ) : (crossings b xin yin n y).length ≤ n := by
  have h := List.length_filter_le (crosses yin y) (List.range n)
  rw [List.length_range] at h
  rw [crossings, List.length_map]
  exact h

/-- **A closed polygon crosses a line an even number of times.** -/
theorem even_crossings {n : ℕ} (hclosed : yin n = yin 0) (y : ℤ) :
    Even (crossings b xin yin n y).length := by
  have hside : crosses yin y = fun i => decide (yin i ≤ y) != decide (yin (i + 1) ≤ y) := by
    ext i
    by_cases h0 : yin i ≤ y <;> by_cases h1 : yin (i + 1) ≤ y <;>
      simp [crosses, h0, h1, not_le.mp, not_lt.mpr]
  have hparity := even_changes (fun i => decide (yin i ≤ y)) n
  rw [hclosed, if_pos rfl] at hparity
  rw [crossings, List.length_map, ← List.countP_eq_length_filter, hside]
  exact Nat.even_iff.mpr hparity

/-! ## Sorting -/

/-- The sorted array begins with the crossings, in ascending order. -/
theorem perm_sortCrossings (n : ℕ) (y : ℤ) (xi : ℕ → ℤ) :
    ((List.range (collectCrossings b xin yin n y xi).2).map
      (sortCrossings (collectCrossings b xin yin n y xi).2 (collectCrossings b xin yin n y xi).1)).Perm
      (crossings b xin yin n y) := by
  have hcollected := map_collectCrossings b xin yin n y xi
  generalize collectCrossings b xin yin n y xi = s at hcollected ⊢
  rw [← hcollected, sortCrossings_eq]
  cases hk : s.2 with
  | zero => exact List.Perm.refl _
  | succ k => exact (permuted_exchangeSort k s.1).perm

theorem pairwise_sortCrossings (k : ℕ) (xi : ℕ → ℤ) :
    ((List.range k).map (sortCrossings k xi)).Pairwise (· ≤ ·) := by
  rw [List.pairwise_map, sortCrossings_eq]
  apply (List.pairwise_lt_range (n := k)).imp_of_mem
  intro i l _ hl hil
  rw [List.mem_range] at hl
  exact exchangeSort_sorted (k - 1) xi i l hil.le (by omega)

/-- What a scanline reads does not depend on what was in the array. -/
theorem sortCrossings_leftover (n : ℕ) (y : ℤ) (xi xi' : ℕ → ℤ) :
    ∀ j < (crossings b xin yin n y).length,
      sortCrossings (collectCrossings b xin yin n y xi).2 (collectCrossings b xin yin n y xi).1 j =
        sortCrossings (collectCrossings b xin yin n y xi').2 (collectCrossings b xin yin n y xi').1 j := by
  have hlen := (collectCrossings_spec b xin yin n y xi).1
  have hlen' := (collectCrossings_spec b xin yin n y xi').1
  have hperm := (perm_sortCrossings b xin yin n y xi).trans (perm_sortCrossings b xin yin n y xi').symm
  have hlists := List.Perm.eq_of_pairwise' (pairwise_sortCrossings _ _) (pairwise_sortCrossings _ _) hperm
  intro j hj
  rw [hlen, hlen'] at hlists
  have hget := List.map_inj_left.mp hlists j (List.mem_range.mpr hj)
  rw [hlen, hlen']
  exact hget

end

/-! ## Filling -/

/-- One turn of the loop over the scanlines, on an array that keeps its contents from one
scanline to the next. -/
def fillScanline (b : Build) (c : Ctx) (gsx : GsxState) (nPoints : ℕ) (xin yin : ℕ → ℤ) (clr : GfxCol)
    (y : ℤ) (s : (ℕ → ℤ) × Bus) : (ℕ → ℤ) × Bus :=
  let (xi, k) := collectCrossings b xin yin nPoints y s.1
  let xi := sortCrossings k xi
  (xi, iterate ((k + 1) / 2) (fun i => gfxFilledHline c gsx (xi (2 * i)) (xi (2 * i + 1)) y clr) s.2)

/-- `gfx_filled_polygon` behind the reading of the vertices, with one array for all
scanlines that holds `xi` at first. -/
def fillPolygonFrom (b : Build) (nPoints : ℕ) (xin yin xi : ℕ → ℤ) (g : Gfx) : Gfx :=
  let clr := toCol g.gsx.fillColour
  let g := g.draw (iterate nPoints fun i =>
    gfxLine g.ctx (xin i) (yin i) (xin (i + 1)) (yin (i + 1)) clr)
  let ymin := iterate nPoints (fun i ymin => if yin i < ymin then yin i else ymin) GSX_MAX_NDC
  let ymax := iterate nPoints (fun i ymax => if yin i > ymax then yin i else ymax) 0
  if g.gsx.fillStyle ≠ 0 then
    g.draw fun m => (iterate (ymax - ymin + 1).toNat (fun d =>
      fillScanline b g.ctx g.gsx nPoints xin yin clr (ymin + d)) (xi, m)).2
  else g

/-- The pairs of crossings a scanline is filled between. -/
def scanlineSpans (b : Build) (nPoints : ℕ) (xin yin : ℕ → ℤ) (y : ℤ) (xi : ℕ → ℤ) : List (ℤ × ℤ) :=
  let s := collectCrossings b xin yin nPoints y xi
  let sorted := sortCrossings s.2 s.1
  (List.range ((s.2 + 1) / 2)).map fun i => (sorted (2 * i), sorted (2 * i + 1))

section
variable (b : Build)

/-- The loop over the scanlines, wherever it starts and whatever the array holds, fills
between these pairs. -/
theorem iterate_fillScanline (c : Ctx) (gsx : GsxState) {nPoints : ℕ} (xin : ℕ → ℤ) {yin : ℕ → ℤ}
    (hclosed : yin nPoints = yin 0) (clr : GfxCol) (ymin : ℤ) (lines : ℕ) (xi : ℕ → ℤ) (m : Bus) :
    (iterate lines (fun d => fillScanline b c gsx nPoints xin yin clr (ymin + d)) (xi, m)).2 =
      iterate lines (fun d m =>
        let y := ymin + d
        let (xi, k) := polygonCrossings b xin yin nPoints y
        let xi := sortCrossings k xi
        iterate ((k + 1) / 2) (fun i => gfxFilledHline c gsx (xi (2 * i)) (xi (2 * i + 1)) y clr) m) m := by
  refine iterate_relation lines _ _ (xi, m) m (fun s m => s.2 = m) rfl ?_
  rintro d s _ - rfl
  have hlen := (collectCrossings_spec b xin yin nPoints (ymin + d) s.1).1
  have hlen' := (collectCrossings_spec b xin yin nPoints (ymin + d) fun _ => 0).1
  have heven := even_crossings b xin yin hclosed (ymin + d)
  have hsame := sortCrossings_leftover b xin yin nPoints (ymin + d) s.1 fun _ => 0
  simp only [fillScanline, polygonCrossings_eq]
  rw [hlen, hlen'] at hsame ⊢
  apply iterate_congr
  intro i m hi
  have hread : 2 * i + 1 < (crossings b xin yin nPoints (ymin + d)).length := by
    rcases heven with ⟨h, hh⟩
    omega
  rw [hsame _ hread, hsame _ (by omega)]

/-- What the array holds at first makes no difference. -/
theorem fillPolygonFrom_eq {nPoints : ℕ} (xin : ℕ → ℤ) {yin : ℕ → ℤ} (hclosed : yin nPoints = yin 0)
    (xi : ℕ → ℤ) (g : Gfx) : fillPolygonFrom b nPoints xin yin xi g = fillPolygon b nPoints xin yin g := by
  simp only [fillPolygonFrom, fillPolygon, iterate_fillScanline b _ _ xin hclosed]

/-- The pairs, put one behind the other. -/
theorem flatMap_pairs (f : ℕ → ℤ) (h : ℕ) :
    ((List.range h).map fun i => (f (2 * i), f (2 * i + 1))).flatMap (fun p => [p.1, p.2]) =
      (List.range (2 * h)).map f := by
  induction h with
  | zero => rfl
  | succ h ih => simp [List.range_succ, ih, Nat.mul_succ]

/-- **Scanline pairing.**  On every line, and whatever the array holds before, the number
of crossings is even and at most that of the vertices, sorting leaves them in ascending
order, and the spans are the consecutive pairs of the sorted crossings, read from entries
that were stored for this line. -/
theorem filledPolygon_pairing (st : ScnState) (g : Gfx) (y : ℤ) (xi : ℕ → ℤ) :
    let n := (st.intParam 1).toNat
    let s := collectCrossings b (vertexX st) (vertexY st) n y xi
    let sorted := (List.range s.2).map (sortCrossings s.2 s.1)
    gfxFilledPolygon b st g = fillPolygonFrom b n (vertexX st) (vertexY st) xi g ∧
    (List.range s.2).map s.1 = crossings b (vertexX st) (vertexY st) n y ∧
    Even s.2 ∧ s.2 ≤ n ∧
    sorted.Perm (crossings b (vertexX st) (vertexY st) n y) ∧ sorted.Pairwise (· ≤ ·) ∧
    (scanlineSpans b n (vertexX st) (vertexY st) y xi).flatMap (fun p => [p.1, p.2]) = sorted ∧
    (∀ i < (s.2 + 1) / 2, 2 * i < s.2 ∧ 2 * i + 1 < s.2) ∧
    (∀ xi', scanlineSpans b n (vertexX st) (vertexY st) y xi' =
      scanlineSpans b n (vertexX st) (vertexY st) y xi) ∧
    ∀ (clr : GfxCol) (m : Bus), (fillScanline b g.ctx g.gsx n (vertexX st) (vertexY st) clr y (xi, m)).2 =
      (scanlineSpans b n (vertexX st) (vertexY st) y xi).foldl
        (fun m p => gfxFilledHline g.ctx g.gsx p.1 p.2 y clr m) m := by
  intro n s sorted
  have hclosed := vertexY_last st
  have hlen := (collectCrossings_spec b (vertexX st) (vertexY st) n y xi).1
  have heven : Even s.2 := hlen ▸ even_crossings b (vertexX st) (vertexY st) hclosed y
  have hhalf : 2 * ((s.2 + 1) / 2) = s.2 := by
    rcases heven with ⟨h, hh⟩
    omega
  refine ⟨?_, map_collectCrossings b _ _ n y xi, heven, ?_,
    perm_sortCrossings b _ _ n y xi, pairwise_sortCrossings _ _, ?_, ?_, ?_, ?_⟩
  · rw [fillPolygonFrom_eq b _ hclosed]
    exact gfxFilledPolygon_eq b st g
  · exact hlen ▸ length_crossings_le b (vertexX st) (vertexY st) n y
  · rw [scanlineSpans, flatMap_pairs, hhalf]
  · intro i hi
    omega
  · intro xi'
    have hlen' := (collectCrossings_spec b (vertexX st) (vertexY st) n y xi').1
    have hsame := sortCrossings_leftover b (vertexX st) (vertexY st) n y xi' xi
    rw [scanlineSpans, scanlineSpans, hlen', ← hlen]
    apply List.map_congr_left
    intro i hi
    have hi' : i < (s.2 + 1) / 2 := List.mem_range.mp hi
    have hread : 2 * i + 1 < s.2 := by omega
    rw [← hlen, hlen', ← hlen] at hsame
    rw [hsame _ (Nat.lt_of_succ_lt hread), hsame _ hread]
  · intro clr m
    rw [scanlineSpans, List.foldl_map, ← iterate_eq_foldl (f := fun i m => gfxFilledHline g.ctx g.gsx
      (sortCrossings s.2 s.1 (2 * i)) (sortCrossings s.2 s.1 (2 * i + 1)) y clr m)]
    rfl

end

/-! ## Array bounds -/

/-- The arrays of `gfx_filled_polygon`. -/
inductive PolygonArray
  | cmdParams
  | xin
  | yin
  | slope
  | xi
  deriving DecidableEq, Repr

/-- `MAX_PTSIN` -/
abbrev MAX_PTSIN : ℕ := 75

/-- The declared length. -/
def PolygonArray.length : PolygonArray → ℕ
  | cmdParams => CMD_PARAMS_LENGTH
  | xin => MAX_PTSIN + 1
  | yin => MAX_PTSIN + 1
  | slope => MAX_PTSIN
  | xi => 1024

/-- An access to an entry of an array. -/
structure ArrayAccess where
  array : PolygonArray
  index : ℤ
  deriving DecidableEq, Repr

def ArrayAccess.InBounds (a : ArrayAccess) : Prop := 0 ≤ a.index ∧ a.index < a.array.length

/-- The accesses of the loops on one scanline: collecting, sorting, filling. -/
def scanlineAccesses (yin : ℕ → ℤ) (nPoints : ℕ) (y : ℤ) : List ArrayAccess :=
  let k (i : ℕ) : ℕ := (List.range i).countP (crosses yin y)
  let total := k nPoints
  ((List.range nPoints).flatMap fun i =>
    [⟨.xin, i⟩, ⟨.yin, i⟩, ⟨.yin, i + 1⟩] ++
      if crosses yin y i then [⟨.slope, i⟩, ⟨.xi, k i⟩] else []) ++
  ((List.range (total - 1)).flatMap fun _ => (List.range (total - 1)).flatMap fun j =>
    [⟨.xi, j⟩, ⟨.xi, j + 1⟩]) ++
  (List.range ((total + 1) / 2)).flatMap fun i => [⟨.xi, 2 * i⟩, ⟨.xi, 2 * i + 1⟩]

/-- The scanlines, from `ymin` to `ymax`. -/
def scanlines (yin : ℕ → ℤ) (nPoints : ℕ) : List ℤ :=
  let ymin := iterate nPoints (fun i ymin => if yin i < ymin then yin i else ymin) GSX_MAX_NDC
  let ymax := iterate nPoints (fun i ymax => if yin i > ymax then yin i else ymax) 0
  (List.range (ymax - ymin + 1).toNat).map fun d => ymin + (d : ℕ)

/-- The accesses of `gfx_filled_polygon` to its arrays, in order. -/
def polygonAccesses (st : ScnState) (gsx : GsxState) : List ArrayAccess :=
  let nPoints := st.intParam 1
  let n := nPoints.toNat
  [⟨.cmdParams, 1⟩] ++
  ((List.range n).flatMap fun i =>
    [⟨.cmdParams, 2 * i + 2⟩, ⟨.xin, i⟩, ⟨.cmdParams, 2 * i + 3⟩, ⟨.yin, i⟩]) ++
  [⟨.xin, 0⟩, ⟨.xin, nPoints⟩, ⟨.yin, 0⟩, ⟨.yin, nPoints⟩] ++
  ((List.range n).flatMap fun i => [⟨.xin, i⟩, ⟨.yin, i⟩, ⟨.xin, i + 1⟩, ⟨.yin, i + 1⟩]) ++
  if gsx.fillStyle ≠ 0 then
    ((List.range n).flatMap fun i =>
      [⟨.yin, i + 1⟩, ⟨.yin, i⟩, ⟨.xin, i + 1⟩, ⟨.xin, i⟩, ⟨.slope, i⟩]) ++
    (scanlines (vertexY st) n).flatMap (scanlineAccesses (vertexY st) n)
  else []

/-- On a scanline the arrays are long enough for 75 vertices. -/
theorem scanlineAccesses_inBounds {yin : ℕ → ℤ} {n : ℕ} (hn : n ≤ MAX_PTSIN) {y : ℤ} {a : ArrayAccess}
    (ha : a ∈ scanlineAccesses yin n y) : a.InBounds := by
  have hn' : n ≤ 75 := hn
  have hk : ∀ i ≤ n, (List.range i).countP (crosses yin y) ≤ n := by
    intro i hi
    have h := List.countP_le_length (p := crosses yin y) (l := List.range i)
    rw [List.length_range] at h
    omega
  have htotal := hk n le_rfl
  simp only [scanlineAccesses, List.mem_append, List.mem_flatMap, List.mem_range] at ha
  rcases ha with (⟨i, hi, ha⟩ | ⟨_, -, j, hj, ha⟩) | ⟨i, hi, ha⟩
  · have hki := hk i hi.le
    rcases ha with ha | ha
    · simp only [List.mem_cons, List.not_mem_nil, or_false] at ha
      rcases ha with rfl | rfl | rfl <;> simp only [ArrayAccess.InBounds, PolygonArray.length] <;> omega
    · split at ha
      · simp only [List.mem_cons, List.not_mem_nil, or_false] at ha
        rcases ha with rfl | rfl <;> simp only [ArrayAccess.InBounds, PolygonArray.length] <;> omega
      · exact absurd ha List.not_mem_nil
  · simp only [List.mem_cons, List.not_mem_nil, or_false] at ha
    rcases ha with rfl | rfl <;> simp only [ArrayAccess.InBounds, PolygonArray.length] <;> omega
  · simp only [List.mem_cons, List.not_mem_nil, or_false] at ha
    rcases ha with rfl | rfl <;> simp only [ArrayAccess.InBounds, PolygonArray.length] <;> omega

/-- **Array bounds.**  All accesses of `gfx_filled_polygon` are in bounds exactly if the
number of vertices, as an unsigned number, is at most `MAX_PTSIN`. -/
theorem polygonAccesses_iff (st : ScnState) (gsx : GsxState) :
    (∀ a ∈ polygonAccesses st gsx, a.InBounds) ↔ (st.param 1).toNat ≤ MAX_PTSIN := by
  have hcond := BitVec.toInt_eq_toNat_cond (st.param 1)
  have hlt := (st.param 1).isLt
  have hpoints : st.intParam 1 = (st.param 1).toInt := rfl
  constructor
  · intro h
    have hlast : ArrayAccess.InBounds ⟨.xin, st.intParam 1⟩ := h _ (by simp [polygonAccesses])
    simp only [ArrayAccess.InBounds, PolygonArray.length] at hlast
    split at hcond <;> omega
  · intro hn a ha
    have hn' : (st.param 1).toNat ≤ 75 := hn
    have hint : st.intParam 1 = (st.param 1).toNat := by
      split at hcond <;> omega
    simp only [polygonAccesses, hint, Int.toNat_natCast, List.mem_append, List.mem_flatMap,
      List.mem_range, List.mem_cons, List.not_mem_nil, or_false] at ha
    rcases ha with (((rfl | ⟨i, hi, rfl | rfl | rfl | rfl⟩) | rfl | rfl | rfl | rfl) |
      ⟨i, hi, rfl | rfl | rfl | rfl⟩) | ha
    any_goals
      simp only [ArrayAccess.InBounds, PolygonArray.length, CMD_PARAMS_LENGTH]
      omega
    split at ha
    · simp only [List.mem_append, List.mem_flatMap, List.mem_range, List.mem_cons, List.not_mem_nil,
        or_false] at ha
      rcases ha with ⟨i, hi, rfl | rfl | rfl | rfl | rfl⟩ | ⟨y, -, ha⟩
      any_goals
        simp only [ArrayAccess.InBounds, PolygonArray.length]
        omega
      exact scanlineAccesses_inBounds hn ha
    · exact absurd ha List.not_mem_nil

/-- The parameters of a polygon with `n` vertices at the origin. -/
def ScnState.polygon (n : ℕ) : ScnState where
  next := .readDigit
  afterReadDigit := 2
  cmdParams := fun i => if i = 0 then 9 else if i = 1 then BitVec.ofNat 32 n else 0
  cmdParamsSize := 2 * n + 2
  privateModeChar := chr '#'

/-- `state_fun_final_letter` draws a polygon of 76 vertices, whose first vertex is repeated
behind the end of `xin`. -/
theorem polygonAccesses_overflow :
    2 < (ScnState.polygon 76).cmdParamsSize ∧ (ScnState.polygon 76).cmdParamsSize ≤ CMD_PARAMS_LENGTH ∧
      2 < ((ScnState.polygon 76).param 1).toNat ∧
      ¬∀ a ∈ polygonAccesses (.polygon 76) (Term.static fun _ => 0).g.gsx, a.InBounds := by
  refine ⟨by decide, by decide, by decide, ?_⟩
  intro h
  have hlast : ArrayAccess.InBounds ⟨.xin, 76⟩ := h _ (by simp [polygonAccesses, ScnState.polygon,
    ScnState.intParam, ScnState.param])
  exact absurd hlast.2 (by decide)

end Pigfx
