import Pigfx.Gfx.Effect

/-!
# The two builds

Clearing, scrolling and filling exist twice, as loops of the processor and as transfers of
the DMA engine.  Both leave the same bytes in memory, as long as the stride of a
rectangle fits its field.  The field is signed, and what it has to hold is the pitch
less the width of the rectangle, not of the screen: a narrow rectangle needs more of it.

## Main definitions

* `Build.withDma` — the two builds.
* `Ctx.Raster` — the sizes that the builds are compared for.
* `Ctx.Fills` — exactly the pixels of a rectangle that lie on the screen are set.
* `Ctx.StrideFits` — the stride of the clipped rectangle fits.
-/

namespace Pigfx
open Lib

/-- The build with, or without, `GFX_USE_DMA`. -/
def Build.withDma (on : Bool) (b : Build) : Build := { b with gfxUseDma := on }

/-- Screens with a pitch of whole words that is not much larger than a line. -/
structure Ctx.Raster (c : Ctx) : Prop where
  pitch : c.W ≤ c.Pitch
  words : c.Pitch % 4 = 0
  stride : c.Pitch - c.W < 2 ^ 15
  width : c.W < 2 ^ 14
  height : c.H < 2 ^ 14

/-- The pixel lies in the rectangle and on the screen. -/
def Ctx.Covers (c : Ctx) (x y width height i j : ℕ) : Prop :=
  (y ≤ i ∧ i < y + height ∧ i < c.H) ∧ x ≤ j ∧ j < x + width ∧ j < c.W

/-- `d'` is `d` with exactly the pixels of the rectangle that lie on the screen set to the
foreground. -/
structure Ctx.Fills (c : Ctx) (x y width height : ℕ) (d d' : ℤ → Byte) : Prop where
  inside : ∀ i j, c.Covers x y width height i j → d' (c.PFB j i) = c.getFg
  outside : ∀ a, (∀ i j, c.Covers x y width height i j → a ≠ c.PFB j i) → d' a = d a

/-- Nothing of the rectangle is on the screen, or one line, or the way from the end of a line
to the next one fits the signed field. -/
def Ctx.StrideFits (c : Ctx) (x y width height : ℕ) : Prop :=
  c.W ≤ x ∨ c.H ≤ y ∨ min height (c.H - y) = 1 ∨ c.Pitch - min width (c.W - x) < 2 ^ 15

instance (c : Ctx) (x y width height : ℕ) : Decidable (c.StrideFits x y width height) :=
  inferInstanceAs (Decidable (_ ∨ _))

/-! ## Clearing -/

/-- **Clearing** is the same in both builds. -/
theorem data_gfxClear_variants (b b' : Build) (c : Ctx) (m : Bus) :
    (gfxClear b c m).data = (gfxClear b' c m).data :=
  (paints_gfxClear b 0 m).unique (paints_gfxClear b' 0 m) (S := fun _ => False) (fun _ _ => rfl)
    fun _ h => h.elim

/-! ## Scrolling -/

section Scroll
variable {c : Ctx} {npixels L : ℕ}

/-- The loops of the processor, when the screen and the scroll are whole words. -/
theorem slides_gfxScrollDown_words {b : Build} (hb : b.gfxUseDma = false) (hL : u32 (c.Pitch * npixels) = L)
    (hle : L ≤ c.size) (hL4 : L % 4 = 0) (hs4 : c.size % 4 = 0) (m : Bus) :
    Slides (c.pfb + L) c.pfb (c.size - L) (c.pfb + c.size - L) L c.getBg m.data
      (gfxScrollDown b c npixels m).data := by
  have hgap : c.pfb + c.size - L = c.pfb + (c.size - L : ℕ) := by omega
  rw [gfxScrollDown, if_neg (by simp [hb])]
  dsimp only
  rw [hL, hgap]
  exact slides_copyUp_fillWords c.byteOf_getBg32 (by omega) (by omega) (by omega) (by omega) hL4 m

/-- **Scrolling** by as many lines as the screen has, or fewer. -/
theorem data_gfxScrollDown_variants (b : Build) (h : c.Raster) (hsize : c.size = c.Pitch * c.H)
    (hn : npixels ≤ c.H) (m : Bus) :
    (gfxScrollDown (b.withDma true) c npixels m).data = (gfxScrollDown (b.withDma false) c npixels m).data := by
  have hW := h.width; have hH := h.height; have hP := h.stride; have hwords := h.words
  have hle : c.Pitch * npixels ≤ c.size := hsize ▸ Nat.mul_le_mul_left _ hn
  have hlt : c.size < 2 ^ 32 := by
    have hmul : c.Pitch * c.H < 2 ^ 16 * 2 ^ 14 := Nat.mul_lt_mul'' (by omega) (by omega)
    rw [hsize]
    omega
  have hL : u32 ((c.Pitch : ℤ) * npixels) = c.Pitch * npixels := by
    rw [← Nat.cast_mul]
    exact u32_natCast (by omega)
  have hmod : ∀ k, c.Pitch * k % 4 = 0 := fun k => by simp [Nat.mul_mod, hwords]
  have hdma : gfxScrollDown (b.withDma true) c npixels m = dmaExecuteQueue (gfxScrollDownDma c npixels) m := if_pos rfl
  rw [hdma]
  exact (slides_gfxScrollDownDma_bytes hL hle hlt m).unique
    (slides_gfxScrollDown_words rfl hL hle (hmod _) (hsize ▸ hmod _) m)

end Scroll

/-! ## Filling -/

section Fill
variable {c : Ctx} {x y width height : ℕ}

/-- A rectangle painted with the foreground is filled. -/
theorem fills_of_paints (hx : x < c.W) (hy : y < c.H) {d d' : ℤ → Byte}
    (H : Paints (c.PFB x y) c.Pitch (min height (c.H - y)) (min width (c.W - x)) (fun _ _ => c.getFg) d d') :
    c.Fills x y width height d d' := by
  have haddr : ∀ i j : ℕ, c.PFB (x + j : ℕ) (y + i : ℕ) = c.PFB x y + (i : ℕ) * c.Pitch + (j : ℕ) := by
    intro i j
    rw [Ctx.PFB, Ctx.PFB]
    push_cast
    ring
  constructor
  · rintro i j ⟨⟨hyi, hi, hiH⟩, hxj, hj, hjW⟩
    have hpixel := H.inside (i - y) (by omega) (j - x) (by omega)
    rwa [← haddr, Nat.add_sub_cancel' hyi, Nat.add_sub_cancel' hxj] at hpixel
  · intro a ha
    refine H.outside a fun i hi => ?_
    by_contra hin
    push Not at hin
    refine ha (y + i) (x + (a - (c.PFB x y + (i : ℕ) * c.Pitch)).toNat) ?_ ?_
    · exact ⟨by omega, by omega⟩
    · rw [haddr]
      omega

/-- There is one way to fill. -/
theorem Ctx.Fills.unique {d d' d'' : ℤ → Byte} (H : c.Fills x y width height d d')
    (H' : c.Fills x y width height d d'') : d' = d'' := by
  funext a
  by_cases ha : ∃ i j, c.Covers x y width height i j ∧ a = c.PFB j i
  · obtain ⟨i, j, hcov, rfl⟩ := ha
    rw [H.inside i j hcov, H'.inside i j hcov]
  · push Not at ha
    rw [H.outside a ha, H'.outside a ha]

/-- Nothing of the rectangle is on the screen. -/
theorem fills_offscreen (hout : c.W ≤ x ∨ c.H ≤ y) (b : Build) (m : Bus) :
    c.Fills x y width height m.data (gfxFillRect b c x y width height m).data := by
  rw [gfxFillRect, if_pos hout]
  refine ⟨?_, fun _ _ => rfl⟩
  rintro i j ⟨hi, hj⟩
  omega

variable (h : c.Raster) (hxw : x + width < 2 ^ 32) (hyh : y + height < 2 ^ 32)
include h hxw hyh

/-- **Filling** with the processor. -/
theorem fills_gfxFillRect_plain {b : Build} (hb : b.gfxUseDma = false) (m : Bus) :
    c.Fills x y width height m.data (gfxFillRect b c x y width height m).data := by
  have hP := h.pitch
  by_cases hout : c.W ≤ x ∨ c.H ≤ y
  · exact fills_offscreen hout b m
  · push Not at hout
    rw [gfxFillRect_clipped hout.1 hout.2 hxw hyh, if_neg (by simp [hb])]
    exact fills_of_paints hout.1 hout.2 (paints_fillRows (by omega) m)

variable (hw : 0 < width) (hh : 0 < height)
include hw hh

/-- Filling with the engine, when the stride fits. -/
theorem fills_gfxFillRect_dma {b : Build} (hb : b.gfxUseDma) (hfit : c.StrideFits x y width height) (m : Bus) :
    c.Fills x y width height m.data (gfxFillRect b c x y width height m).data := by
  have hP := h.pitch; have hW := h.width; have hH := h.height
  by_cases hout : c.W ≤ x ∨ c.H ≤ y
  · exact fills_offscreen hout b m
  · push Not at hout
    rw [gfxFillRect_clipped hout.1 hout.2 hxw hyh, if_pos hb, data_dmaExecuteQueue, List.foldl_cons, List.foldl_nil]
    refine fills_of_paints hout.1 hout.2 ?_
    rcases hfit with hx | hy | hone | hstride
    · omega
    · omega
    · -- a single row, whatever the stride
      rw [hone, gfxFillRectDma_run_dStride c Nat.one_pos (by omega) (by omega)]
      have hrow := paints_blockFill (min width (c.W - x)) (c.PFB x y) c.Pitch c.getFg32 c.getFg m c.byteOf_getFg32
      rw [blockFill2d, iterate_succ, iterate_zero, Nat.cast_zero, zero_mul, add_zero]
      exact hrow
    · exact paints_gfxFillRectDma (by omega) (by omega) (by omega) (by omega) (by omega) m

/-- A stride that does not fit is negative, and the second row of the rectangle stays as it
was. -/
theorem strideFits_of_fills {b : Build} (hb : b.gfxUseDma)
    (hall : ∀ m : Bus, c.Fills x y width height m.data (gfxFillRect b c x y width height m).data) :
    c.StrideFits x y width height := by
  by_contra hfit
  have hP := h.pitch; have hW := h.width; have hH := h.height; have hS := h.stride
  simp only [Ctx.StrideFits] at hfit
  push Not at hfit
  obtain ⟨hx, hy, hrows, hwide⟩ := hfit
  have hsecond := (hall ⟨fun _ => ~~~c.getFg, []⟩).inside (y + 1) x (by
    refine ⟨?_, ?_⟩ <;> omega)
  rw [gfxFillRect_clipped hx hy hxw hyh, if_pos hb, data_dmaExecuteQueue, List.foldl_cons, List.foldl_nil,
    gfxFillRectDma_run_dStride c (by omega) (by omega) (by omega),
    dStride_gfxFillRectDma c (by omega) (by omega)] at hsecond
  -- the address of the second row lies above the first row, and all others lie below that
  have hneg : ((c.Pitch - min width (c.W - x) : ℕ) : ℤ).bmod (2 ^ 16) =
      c.Pitch - (min width (c.W - x) : ℕ) - 2 ^ 16 := by
    rw [Int.bmod_def]
    split <;> omega
  rw [hneg, data_blockFill2d_outside] at hsecond
  · exact absurd (congrArg (BitVec.getLsbD · 0) hsecond) (by simp)
  · intro i _
    right
    have hdown : (i : ℤ) * ((min width (c.W - x) : ℕ) + (c.Pitch - (min width (c.W - x) : ℕ) - 2 ^ 16)) ≤ 0 :=
      mul_nonpos_of_nonneg_of_nonpos (by omega) (by omega)
    have haddr : c.PFB x (y + 1 : ℕ) = c.PFB x y + c.Pitch := by
      rw [Ctx.PFB, Ctx.PFB]
      push_cast
      ring
    rw [haddr]
    omega

end Fill

/-! ## The builds agree -/

/-- **The builds agree.**  Clearing and scrolling leave the same bytes in both builds.  Filling
a rectangle sets exactly its pixels on the screen in the build without transfers, and the
other build does the same on every memory exactly if the stride fits. -/
theorem variants_agree (b : Build) {c : Ctx} (h : c.Raster) :
    (∀ m, (gfxClear (b.withDma true) c m).data = (gfxClear (b.withDma false) c m).data) ∧
    (c.size = c.Pitch * c.H → ∀ npixels ≤ c.H, ∀ m,
      (gfxScrollDown (b.withDma true) c npixels m).data = (gfxScrollDown (b.withDma false) c npixels m).data) ∧
    ∀ x y width height, 0 < width → 0 < height → x + width < 2 ^ 32 → y + height < 2 ^ 32 →
      (∀ m, c.Fills x y width height m.data (gfxFillRect (b.withDma false) c x y width height m).data) ∧
      ((∀ m, (gfxFillRect (b.withDma true) c x y width height m).data =
          (gfxFillRect (b.withDma false) c x y width height m).data) ↔ c.StrideFits x y width height) := by
  refine ⟨data_gfxClear_variants _ _ c, fun hsize npixels hn => data_gfxScrollDown_variants b h hsize hn, ?_⟩
  intro x y width height hw hh hxw hyh
  have hplain := fills_gfxFillRect_plain h hxw hyh (b := b.withDma false) rfl
  refine ⟨hplain, ?_, ?_⟩
  · intro hsame
    refine strideFits_of_fills h hxw hyh hw hh (b := b.withDma true) rfl fun m => ?_
    rw [hsame m]
    exact hplain m
  · intro hfit m
    exact (fills_gfxFillRect_dma h hxw hyh hw hh (b := b.withDma true) rfl hfit m).unique (hplain m)

/-- Two lines of eight pixels. -/
def Ctx.twoLines (pitch : ℕ) : Ctx :=
  { (Term.static fun _ => 0).g.ctx with W := 8, H := 2, Pitch := pitch, size := pitch * 2, fg := DEFAULT_FG }

/-- A rectangle that is clipped at both edges. -/
theorem variants_agree_twoLines :
    (gfxFillRect (Build.shipped.withDma true) (.twoLines 8) 4 0 10 5 ⟨fun _ => 0, []⟩).data =
      (gfxFillRect (Build.shipped.withDma false) (.twoLines 8) 4 0 10 5 ⟨fun _ => 0, []⟩).data :=
  ((variants_agree .shipped (c := .twoLines 8) ⟨by decide, by decide, by decide, by decide, by decide⟩).2.2
    4 0 10 5 (by decide) (by decide) (by decide) (by decide)).2.mpr (by decide) _

/-- A column of one pixel, on lines that are `2 ^ 15 + 4` bytes apart.  The engine takes the
way from the end of a pixel to the next line for a negative number. -/
theorem variants_disagree_column :
    ¬∀ (b : Build) (c : Ctx), c.Raster → ∀ x y width height, 0 < width → 0 < height →
      x + width < 2 ^ 32 → y + height < 2 ^ 32 → ∀ m,
      (gfxFillRect (b.withDma true) c x y width height m).data =
        (gfxFillRect (b.withDma false) c x y width height m).data := by
  intro h
  have hsame := h .shipped (.twoLines (2 ^ 15 + 4)) ⟨by decide, by decide, by decide, by decide, by decide⟩
    0 0 1 2 (by decide) (by decide) (by decide) (by decide) ⟨fun _ => 0, []⟩
  have hbyte := congrFun hsame (2 ^ 15 + 4)
  revert hbyte
  decide

end Pigfx
