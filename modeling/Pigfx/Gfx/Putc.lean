import Pigfx.Gfx.Picture

/-!
# Characters and their colours

A glyph selects, bit by bit, between the colour of the text and that of the ground.  In the
line where a character is underlined the mask is not a mask of ones: it is a colour, that of
the text or, in inverse, that of the ground.  The line gets the colour of the text only if the
bits of that mask suffice.

## Main definitions

* `Ctx.textPixel` — the colours of a character with its underline.
* `putsCell_iff` — when `gfx_putc` paints them.
-/

namespace Pigfx
open Lib

/-! ## A colour as a mask -/

section Mask
variable {n : ℕ}

/-- Equality bit by bit. -/
theorem bits_iff {u v u' v' : BitVec n} (h : ∀ i (_ : i < n), u[i] = v[i] ↔ u'[i] = v'[i]) : u = v ↔ u' = v' := by
  constructor
  · rintro rfl
    exact BitVec.eq_of_getElem_eq fun i hi => (h i hi).mp rfl
  · rintro rfl
    exact BitVec.eq_of_getElem_eq fun i hi => (h i hi).mpr rfl

theorem mask_none (x y : BitVec n) : ((0 : BitVec n) &&& x) ||| (~~~0 &&& y) = y := by simp

theorem mask_all (x y : BitVec n) : (BitVec.allOnes n &&& x) ||| (~~~BitVec.allOnes n &&& y) = x := by simp

/-- A colour that selects itself lets the other one shine through. -/
theorem mask_self_iff (x y : BitVec n) : (x &&& x) ||| (~~~x &&& y) = x ↔ y &&& x = y := by
  refine bits_iff fun i hi => ?_
  simp only [BitVec.getElem_or, BitVec.getElem_and, BitVec.getElem_not]
  cases x[i] <;> cases y[i] <;> decide

/-- The other colour selects what they share. -/
theorem mask_other_iff (x y : BitVec n) : (y &&& x) ||| (~~~y &&& y) = x ↔ x &&& y = x := by
  refine bits_iff fun i hi => ?_
  simp only [BitVec.getElem_or, BitVec.getElem_and, BitVec.getElem_not]
  cases x[i] <;> cases y[i] <;> decide

end Mask

/-! ## The pixels of a character -/

/-- The byte of a glyph for pixel `j` of line `i`. -/
def Ctx.glyphByte (c : Ctx) (ch : Byte) (i j : ℕ) : Byte := c.fontData (ch.toNat * 8 * c.fontHeight + 8 * i + j)

/-- The bytes of a glyph are masks: no bit is set, or every bit. -/
def Ctx.IsMask (c : Ctx) (ch : Byte) : Prop :=
  ∀ i < c.fontHeight, ∀ j < 8, c.glyphByte ch i j = 0x00 ∨ c.glyphByte ch i j = 0xFF

/-- The colour of the text where the glyph has a pixel and in the line that is underlined, and
the opposite colour elsewhere. -/
def Ctx.textPixel (c : Ctx) (ch : Byte) (i j : ℕ) : Byte :=
  if c.glyphByte ch i j = 0xFF ∨ c.underline ∧ i + 3 = c.fontHeight then c.getFg else c.getBg

/-- `gfx_putc` paints the character into the cell and nothing outside of it, whatever the
memory holds. -/
def Ctx.PutsCell (c : Ctx) (row col : ℕ) (ch : Byte) : Prop :=
  ∀ m : Bus, Paints (c.cellAddr row col) c.Pitch c.fontHeight 8 (c.textPixel ch) m.data (gfxPutc c row col ch m).data

/-- The lines of the frame buffer are whole words, or the cell has no second line. -/
def Ctx.LinesAgree (c : Ctx) : Prop := c.Pitch % 4 = 0 ∨ c.fontHeight ≤ 1

/-- A line that is underlined gets the colour of the text: the bits of the background are
among those of the foreground. -/
def Ctx.UnderlineShows (c : Ctx) : Prop := c.underline → 3 ≤ c.fontHeight → c.bg &&& c.fg = c.bg

section Cell
variable {c : Ctx} {ch : Byte}

/-- A pixel in the line that is underlined. -/
theorem cellByte_underlined (hu : c.underline) (hfont : 3 ≤ c.fontHeight) (j : ℕ) :
    cellByte (c.putcWord ch) (c.fontHeight - 3) j = c.getFg ↔ c.bg &&& c.fg = c.bg := by
  have hline : c.style.underline ∧ c.fontHeight - 3 + 3 = c.fontHeight := ⟨hu, by omega⟩
  rw [cellByte_putcWord c ch (by omega), Cell.pixel]
  simp only [if_pos hline]
  generalize hu' : (if c.style.inverse then c.style.paper else c.style.ink) = mask
  change (mask &&& c.getFg) ||| (~~~mask &&& c.getBg) = c.getFg ↔ _
  change (if c.inverse then c.getBg else c.getFg) = mask at hu'
  rw [← hu']
  rw [Ctx.getFg, Ctx.getBg]
  split
  · exact mask_other_iff c.bg c.fg
  · exact mask_self_iff c.fg c.bg

/-- The pixels of a glyph of masks. -/
theorem cellByte_textPixel (hmask : c.IsMask ch) (hshows : c.UnderlineShows) {i j : ℕ} (hi : i < c.fontHeight)
    (hj : j < 8) : cellByte (c.putcWord ch) i j = c.textPixel ch i j := by
  rw [Ctx.textPixel]
  by_cases hline : c.underline ∧ i + 3 = c.fontHeight
  · obtain rfl : i = c.fontHeight - 3 := by omega
    rw [if_pos (Or.inr hline)]
    exact (cellByte_underlined hline.1 (by omega) j).mpr (hshows hline.1 (by omega))
  · have hpixel : cellByte (c.putcWord ch) i j =
        (c.glyphByte ch i j &&& c.getFg) ||| (~~~c.glyphByte ch i j &&& c.getBg) := by
      rw [cellByte_putcWord c ch hi, Cell.pixel]
      exact congrArg (fun x => (x &&& c.getFg) ||| (~~~x &&& c.getBg)) (if_neg hline)
    rw [hpixel]
    rcases hmask i hi j hj with hzero | hones
    · rw [hzero, if_neg (by simp [hline])]
      exact mask_none _ _
    · rw [hones, if_pos (Or.inl rfl)]
      exact mask_all _ _

variable (hp : 8 ≤ c.Pitch) {row col : ℕ} (hrow : row < c.HEIGHT) (hcol : col < c.WIDTH)
include hp hrow hcol

/-- Where the lines are not whole words, the second line of a cell begins too early. -/
theorem linesAgree_of_putsCell (h : c.PutsCell row col ch) : c.LinesAgree := by
  have hstep : 8 ≤ c.rowStep := by rw [c.rowStep_eq]; omega
  by_contra hno
  rw [Ctx.LinesAgree, not_or] at hno
  have hearly : c.rowStep < c.Pitch := by rw [c.rowStep_eq]; omega
  let v := cellByte (c.putcWord ch) 1 0
  let m : Bus := ⟨fun _ => ~~~v, []⟩
  have hwritten := (paints_gfxPutc hstep hrow hcol ch m).inside 1 (by omega) 0 (by omega)
  have hkept := (h m).outside (c.cellAddr row col + (1 : ℕ) * c.rowStep + (0 : ℕ)) (by
    intro i _
    rcases i with _ | i
    · right
      push_cast
      omega
    · left
      have hbelow : 0 ≤ (i : ℤ) * c.Pitch := by positivity
      push_cast
      linarith [add_mul (i : ℤ) 1 c.Pitch])
  rw [hwritten] at hkept
  exact absurd hkept.symm (by simp [m, v])

/-- **A character is painted in its colours** exactly if the lines are whole words and an
underlined line gets the colour of the text. -/
theorem putsCell_iff (hmask : c.IsMask ch) : c.PutsCell row col ch ↔ c.LinesAgree ∧ c.UnderlineShows := by
  have hstep : 8 ≤ c.rowStep := by rw [c.rowStep_eq]; omega
  constructor
  · intro h
    have hlines := linesAgree_of_putsCell hp hrow hcol h
    refine ⟨hlines, fun hu hfont => ?_⟩
    have hwords : c.rowStep = c.Pitch := Ctx.rowStep_of_words (hlines.resolve_right (by omega))
    let m : Bus := ⟨fun _ => 0, []⟩
    have hwritten := (paints_gfxPutc hstep hrow hcol ch m).inside (c.fontHeight - 3) (by omega) 0 (by omega)
    have htext := (h m).inside (c.fontHeight - 3) (by omega) 0 (by omega)
    rw [← hwords, hwritten, Ctx.textPixel, if_pos (Or.inr ⟨hu, by omega⟩)] at htext
    exact (cellByte_underlined hu hfont 0).mp htext
  · rintro ⟨hlines, hshows⟩ m
    have hpaint := (paints_gfxPutc hstep hrow hcol ch m).congr fun i hi j hj =>
      cellByte_textPixel hmask hshows hi hj
    rcases hlines with hwords | hsingle
    · rwa [Ctx.rowStep_of_words hwords] at hpaint
    · exact hpaint.of_single hsingle _

end Cell

/-! ## Two pairs of colours -/

/-- The context at the start, with two colours and the underline. -/
def Ctx.underlined (fg bg : GfxCol) : Ctx :=
  { (Term.start .shipped 0 640 480 640 307200 fun _ => 0).g.ctx with fg := fg, bg := bg, underline := true }

/-- White on red. -/
theorem putsCell_iff_white : (Ctx.underlined 15 1).PutsCell 0 0 (chr 'A') := by
  have hmask : (Ctx.underlined 15 1).IsMask (chr 'A') := fun _ _ _ _ => Or.inl rfl
  exact (putsCell_iff (by decide) (by decide) (by decide) hmask).mpr
    ⟨Or.inl (by decide), fun _ _ => by decide⟩

/-- Red on green: the line is yellow. -/
theorem underline_mixes :
    let c := Ctx.underlined 1 2
    let d := (gfxPutc c 0 0 (chr 'A') ⟨fun _ => 0, []⟩).data
    c.IsMask (chr 'A') ∧ c.textPixel (chr 'A') 13 0 = 1 ∧ d (c.cellAddr 0 0 + 13 * c.Pitch) = 3 ∧
      ¬c.PutsCell 0 0 (chr 'A') := by
  intro c d
  have hmixed : d (c.cellAddr 0 0 + 13 * c.Pitch) = 3 := by decide
  refine ⟨fun _ _ _ _ => Or.inl rfl, by decide, hmixed, fun h => ?_⟩
  have hinside := (h ⟨fun _ => 0, []⟩).inside 13 (by decide) 0 (by decide)
  have hline : c.cellAddr 0 0 + (13 : ℕ) * (c.Pitch : ℤ) + (0 : ℕ) = c.cellAddr 0 0 + 13 * c.Pitch := by simp
  rw [hline] at hinside
  change d _ = _ at hinside
  rw [hmixed] at hinside
  revert hinside
  decide

end Pigfx
