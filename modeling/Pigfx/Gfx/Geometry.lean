import Pigfx.Gfx.CursorRange
import Pigfx.Gfx.Steps

/-!
# The screen geometry

No byte sent to the terminal changes the geometry, whatever state it is in; only the
two toggles do.  They compute it from the board's frame buffer, the font and the limit
on the lines, and every order of toggles leaves the text area inside the frame buffer,
filled with lines of text up to a rest of one pixel row.

## Main definitions

* `geometry_putByte` — a byte keeps the geometry.
* `Ctx.Frame` — the board's frame buffer is large enough for a few lines.
* `Ctx.Layout` — the invariant of the toggles.
-/

namespace Pigfx
open Lib

/-! ## Bytes keep the geometry -/

/-- The second state has the geometry of the first. -/
def Gfx.SameGeometry (g g' : Gfx) : Prop := g'.ctx.geometry = g.ctx.geometry

theorem Gfx.Steps.sameGeometry {b : Build} {g g' : Gfx} (h : g.Steps b g') : g.SameGeometry g' := by
  induction h with
  | trans _ _ ih ih' => exact ih'.trans ih
  | assign _ hctx => exact hctx
  | refl | drawn | render | erase | clear => rfl

section Bytes
variable (b : Build)

/-- **A byte keeps the geometry**, in every state of the terminal. -/
theorem geometry_putByte (ch : Byte) (t : Term) :
    (putByte b ch t).g.ctx.geometry = t.g.ctx.geometry := by
  have hact := (steps_byteAction b ch { t with g := t.g.draw dmaWait }).trans (steps_wrapFixup b _)
  have hscroll : ∀ g : Gfx, g.SameGeometry (scrollFixup g) := by
    intro g
    rw [scrollFixup]
    split
    · rfl
    · rfl
  exact (hscroll _).trans hact.sameGeometry

theorem geometry_runBytes (t : Term) (bytes : List Byte) :
    (runBytes b t bytes).g.ctx.geometry = t.g.ctx.geometry :=
  foldl_invariant (I := fun x : Term => x.g.ctx.geometry = t.g.ctx.geometry)
    (fun x ch h => (geometry_putByte b ch x).trans h) t bytes rfl

end Bytes

/-! ## Toggles -/

/-- The board's frame buffer and the font: there is room for two lines, and the rows
lie inside the buffer. -/
structure Ctx.Frame (c : Ctx) : Prop where
  tall : 32 ≤ c.fullHeight
  low : c.fullHeight < 2 ^ 32
  font : c.fontHeight = 8 ∨ c.fontHeight = 14 ∨ c.fontHeight = 16
  rows : c.Pitch * c.fullHeight ≤ c.fullSize

/-- **The layout of the screen**: the text area is inside the frame buffer, the lines
of text fill it up to one pixel row, and a limit on the lines is the number of
lines. -/
structure Ctx.Layout (c : Ctx) : Prop where
  above : c.fullPfb ≤ c.pfb
  below : c.pfb + c.Pitch * c.H ≤ c.fullPfb + c.fullSize
  one_line : 1 ≤ c.HEIGHT
  lines_le : c.HEIGHT ≤ c.fullHeight / c.fontHeight
  fits : c.HEIGHT * c.fontHeight ≤ c.H
  slack : c.H ≤ c.HEIGHT * c.fontHeight + 1
  limit : c.lineLimit = 0 ∨
    1 ≤ c.lineLimit ∧ c.lineLimit ≤ c.fullHeight / c.fontHeight ∧ c.HEIGHT = c.lineLimit

namespace Ctx.Frame

variable {c : Ctx} (h : c.Frame)
include h

theorem font_even : 8 ≤ c.fontHeight ∧ c.fontHeight ≤ 16 ∧ c.fontHeight / 2 * 2 = c.fontHeight := by
  rcases h.font with hf | hf | hf <;> rw [hf] <;> omega

/-- Two lines fit, whatever the font. -/
theorem two_lines : 2 ≤ c.fullHeight / c.fontHeight := by
  have htall := h.tall
  obtain ⟨hlo, hhi, -⟩ := h.font_even
  exact (Nat.le_div_iff_mul_le (by omega)).mpr (by omega)

/-- What the lines leave over is split in two borders; without a limit, half a line
stands in for a border that would be empty. -/
theorem lines_and_border (hlim : c.lineLimit ≤ c.fullHeight / c.fontHeight) :
    ∃ n, 1 ≤ n ∧ n ≤ c.fullHeight / c.fontHeight ∧ (c.lineLimit = 0 ∨ n = c.lineLimit) ∧
      n * c.fontHeight + c.borderTopBottom * 2 ≤ c.fullHeight ∧
      c.fullHeight ≤ n * c.fontHeight + c.borderTopBottom * 2 + 1 := by
  obtain ⟨hlo, hhi, heven⟩ := h.font_even
  have htwo := h.two_lines
  have hdiv := Nat.div_add_mod c.fullHeight c.fontHeight
  have hmod := Nat.mod_lt c.fullHeight (show 0 < c.fontHeight by omega)
  rw [Nat.mul_comm] at hdiv
  by_cases hzero : c.lineLimit = 0
  · have hlines : c.lines = c.fullHeight / c.fontHeight := by
      simp [lines, hzero]
    by_cases hborder : (c.fullHeight - c.lines * c.fontHeight) / 2 = 0
    · -- the last line gives way to the two half borders
      refine ⟨c.fullHeight / c.fontHeight - 1, by omega, by omega, Or.inl hzero, ?_⟩
      have hb : c.borderTopBottom = c.fontHeight / 2 := by
        simp only [borderTopBottom, hborder]
        simp [hzero]
      have hn : (c.fullHeight / c.fontHeight - 1) * c.fontHeight =
          c.fullHeight / c.fontHeight * c.fontHeight - c.fontHeight := by
        rw [Nat.sub_mul, Nat.one_mul]
      have hle : c.fontHeight ≤ c.fullHeight / c.fontHeight * c.fontHeight :=
        Nat.le_mul_of_pos_left _ (by omega)
      rw [hlines] at hborder
      rw [hb, heven, hn]
      omega
    · refine ⟨c.fullHeight / c.fontHeight, by omega, le_refl _, Or.inl hzero, ?_⟩
      have hb : c.borderTopBottom = (c.fullHeight - c.lines * c.fontHeight) / 2 := by
        simp only [borderTopBottom, hzero, hborder, and_false, if_false]
      rw [hb, hlines]
      omega
  · have hlines : c.lines = c.lineLimit := by
      simp only [lines]
      split <;> omega
    refine ⟨c.lineLimit, by omega, hlim, Or.inr rfl, ?_⟩
    have hb : c.borderTopBottom = (c.fullHeight - c.lines * c.fontHeight) / 2 := by
      simp only [borderTopBottom, hzero, false_and, if_false]
    have hle : c.lineLimit * c.fontHeight ≤ c.fullHeight / c.fontHeight * c.fontHeight :=
      Nat.mul_le_mul_right _ hlim
    rw [hb, hlines]
    omega

/-- **A new geometry is a layout**, provided that the limit is no more than the lines
that fit. -/
theorem layout (hlim : c.lineLimit ≤ c.fullHeight / c.fontHeight) :
    c.setScreenGeometry.Layout := by
  obtain ⟨n, hone, hle, hn, hlower, hupper⟩ := h.lines_and_border hlim
  obtain ⟨hlo, hhi, -⟩ := h.font_even
  have hlow := h.low
  have hH : c.setScreenGeometry.H = c.fullHeight - c.borderTopBottom * 2 := by
    change u32 ((c.fullHeight : ℤ) - c.borderTopBottom * 2) = _
    rw [u32_of_nonneg (by omega) (by omega)]
    omega
  have hHEIGHT : c.setScreenGeometry.HEIGHT = n := by
    change c.setScreenGeometry.H / c.fontHeight = n
    rw [hH]
    refine Nat.div_eq_of_lt_le (by omega) ?_
    rw [Nat.add_mul, Nat.one_mul]
    omega
  refine ⟨?_, ?_, ?_, ?_, ?_, ?_, ?_⟩
  · change c.fullPfb ≤ c.fullPfb + c.borderTopBottom * c.Pitch
    have hnonneg : (0 : ℤ) ≤ c.borderTopBottom * c.Pitch := by positivity
    omega
  · change c.fullPfb + c.borderTopBottom * c.Pitch + c.Pitch * c.setScreenGeometry.H ≤
      c.fullPfb + c.fullSize
    have hrows : c.Pitch * (c.borderTopBottom + c.setScreenGeometry.H) ≤ c.Pitch * c.fullHeight :=
      Nat.mul_le_mul_left _ (by omega)
    have hin := hrows.trans h.rows
    rw [Nat.mul_add, Nat.mul_comm c.Pitch] at hin
    zify at hin
    omega
  · rw [hHEIGHT]
    exact hone
  · rw [hHEIGHT]
    exact hle
  · rw [hHEIGHT, hH]
    change n * c.fontHeight ≤ _
    omega
  · rw [hHEIGHT, hH]
    change _ ≤ n * c.fontHeight + 1
    omega
  · rw [hHEIGHT]
    rcases hn with hn | hn
    · exact Or.inl hn
    · exact Or.inr ⟨by change 1 ≤ c.lineLimit; omega, hlim, hn⟩

end Ctx.Frame

/-- What holds between calls. -/
structure Ctx.LaidOut (c : Ctx) : Prop where
  frame : c.Frame
  layout : c.Layout

theorem Ctx.LaidOut.congr {c c' : Ctx} (h : c.LaidOut) (hg : c'.geometry = c.geometry) :
    c'.LaidOut := by
  simp only [Ctx.geometry, Geometry.mk.injEq] at hg
  obtain ⟨-, hH, hPitch, -, hpfb, hfull, hsize, hfh, -, hHEIGHT, hlim, hfont, -⟩ := hg
  obtain ⟨⟨htall, hlow, hfonts, hrows⟩, habove, hbelow, hone, hle, hfits, hslack, hlimit⟩ := h
  constructor
  · constructor <;> simp only [hPitch, hsize, hfh, hfont] <;> assumption
  · constructor <;> simp only [hH, hPitch, hpfb, hfull, hsize, hfh, hHEIGHT, hlim, hfont] <;>
      assumption

/-- A change of the geometry lays the screen out again. -/
theorem laidOut_gfxSetScreenGeometry (b : Build) {g : Gfx} (h : g.ctx.Frame)
    (hlim : g.ctx.lineLimit ≤ g.ctx.fullHeight / g.ctx.fontHeight) :
    (gfxSetScreenGeometry b g).ctx.LaidOut :=
  ⟨⟨h.tall, h.low, h.font, h.rows⟩, h.layout hlim⟩

/-- The limit on the lines is cut to what the new font allows. -/
theorem laidOut_gfxSetFontHeight (b : Build) {g : Gfx} (h : 32 ≤ g.ctx.fullHeight)
    (h' : g.ctx.fullHeight < 2 ^ 32) (hrows : g.ctx.Pitch * g.ctx.fullHeight ≤ g.ctx.fullSize)
    {n : ℕ} (hn : n = 8 ∨ n = 14 ∨ n = 16) : (gfxSetFontHeight b n g).ctx.LaidOut :=
  laidOut_gfxSetScreenGeometry (g := { g with ctx := g.ctx.setFontHeight b n }) b
    ⟨h, h', hn, hrows⟩ (Nat.min_le_right _ _)

theorem laidOut_gfxToggleFontHeight (b : Build) {g : Gfx} (h : g.ctx.LaidOut) :
    (gfxToggleFontHeight b g).ctx.LaidOut := by
  obtain ⟨htall, hlow, -, hrows⟩ := h.frame
  rw [gfxToggleFontHeight]
  split
  · exact laidOut_gfxSetFontHeight b htall hlow hrows (by omega)
  · split
    · exact laidOut_gfxSetFontHeight b htall hlow hrows (by omega)
    · exact laidOut_gfxSetFontHeight b htall hlow hrows (by omega)

/-- One line less, or as many as fit again. -/
theorem Ctx.LaidOut.toggleLines_le {c : Ctx} (h : c.LaidOut) :
    c.toggleLines.lineLimit ≤ c.fullHeight / c.fontHeight := by
  have hone := h.layout.one_line
  have hle := h.layout.lines_le
  have hlow := h.frame.low
  have hdiv : c.fullHeight / c.fontHeight ≤ c.fullHeight := Nat.div_le_self _ _
  have hpos : 1 ≤ (if c.lineLimit = 0 then c.HEIGHT else c.lineLimit) ∧
      (if c.lineLimit = 0 then c.HEIGHT else c.lineLimit) ≤ c.fullHeight / c.fontHeight := by
    rcases h.layout.limit with hzero | ⟨hlo, hhi, -⟩
    · simp [hzero, hone, hle]
    · rw [if_neg (by omega)]
      exact ⟨hlo, hhi⟩
  rw [toggleLines]
  dsimp only
  generalize (if c.lineLimit = 0 then c.HEIGHT else c.lineLimit) = limit at hpos ⊢
  rw [u32_of_nonneg (by omega) (by omega)]
  split
  · exact Nat.le_refl _
  · omega

theorem laidOut_prepare (b : Build) {t : Term} (h : t.g.ctx.LaidOut) (call : Call) :
    (call.prepare b t).g.ctx.LaidOut := by
  cases call with
  | putstring str => exact h
  | toggleFontHeight => exact laidOut_gfxToggleFontHeight b h
  | toggleLines =>
    have hframe := h.frame
    exact laidOut_gfxSetScreenGeometry (g := { t.g with ctx := t.g.ctx.toggleLines }) b
      ⟨hframe.tall, hframe.low, hframe.font, hframe.rows⟩ h.toggleLines_le

theorem laidOut_call (b : Build) {t : Term} (h : t.g.ctx.LaidOut) (call : Call) :
    (call.run b t).g.ctx.LaidOut := by
  rw [Call.run_eq]
  exact (laidOut_prepare b h call).congr (geometry_runBytes b _ _)

theorem laidOut_start (b : Build) (pFramebuffer : ℤ) (width : ℕ) {height pitch size : ℕ}
    (data : ℤ → Byte) (hh : 32 ≤ height) (hh' : height < 2 ^ 32) (hs : pitch * height ≤ size) :
    (Term.start b pFramebuffer width height pitch size data).g.ctx.LaidOut :=
  laidOut_gfxSetFontHeight (g := { (Term.static data).g with
    ctx := (Term.static data).g.ctx.setEnv b pFramebuffer width height pitch size }) b hh hh' hs
    b.font_predefined

/-- **The geometry invariant.**  From the start, after any sequence of toggles, with any
output between them, the text area lies inside the frame buffer, there is at least one
line, the lines fill the area up to one pixel row, and a limit on the lines is the number
of lines. -/
theorem geometry_laidOut (b : Build) (pFramebuffer : ℤ) (width height pitch size : ℕ)
    (data : ℤ → Byte) (hh : 32 ≤ height) (hh' : height < 2 ^ 32) (hs : pitch * height ≤ size)
    (calls : List Call) :
    let c := (calls.foldl (Call.run b)
      (Term.start b pFramebuffer width height pitch size data)).g.ctx
    c.fullPfb ≤ c.pfb ∧ c.pfb + c.Pitch * c.H ≤ c.fullPfb + c.fullSize ∧ 1 ≤ c.HEIGHT ∧
      c.HEIGHT * c.fontHeight ≤ c.H ∧ c.H ≤ c.HEIGHT * c.fontHeight + 1 ∧
      (c.lineLimit = 0 ∨ 1 ≤ c.lineLimit ∧ c.lineLimit ≤ c.fullHeight / c.fontHeight ∧
        c.HEIGHT = c.lineLimit) := by
  intro c
  obtain ⟨-, habove, hbelow, hone, -, hfits, hslack, hlimit⟩ : c.LaidOut :=
    foldl_invariant (I := fun t : Term => t.g.ctx.LaidOut) (fun _ call h => laidOut_call b h call)
      _ calls (laidOut_start b pFramebuffer width data hh hh' hs)
  exact ⟨habove, hbelow, hone, hfits, hslack, hlimit⟩

/-- The 480 rows of the usual frame buffer, with one line less and in another font. -/
theorem geometry_laidOut_toggles :
    let c := ([.toggleLines, .toggleFontHeight].foldl (Call.run .shipped)
      (Term.start .shipped 0 640 480 640 307200 fun _ => 0)).g.ctx
    c.fullPfb ≤ c.pfb ∧ c.pfb + c.Pitch * c.H ≤ c.fullPfb + c.fullSize ∧ 1 ≤ c.HEIGHT ∧
      c.HEIGHT * c.fontHeight ≤ c.H ∧ c.H ≤ c.HEIGHT * c.fontHeight + 1 ∧
      (c.lineLimit = 0 ∨ 1 ≤ c.lineLimit ∧ c.lineLimit ≤ c.fullHeight / c.fontHeight ∧
        c.HEIGHT = c.lineLimit) :=
  geometry_laidOut .shipped 0 640 480 640 307200 (fun _ => 0) (by decide) (by decide) (by decide)
    [.toggleLines, .toggleFontHeight]

end Pigfx
