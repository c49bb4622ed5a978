import Pigfx.Gfx.Line
import Pigfx.Gfx.Movement

/-!
# What a change of the geometry reveals

`gfx_set_screen_geometry` clears the text area that is in force, and only then moves it.  The
rows that the new area adds to the old one keep what they held, which is what was painted when
they last belonged to the text area, in the background of that time.

## Main definitions

* `Gfx.Blank` — an area of background, with the cursor at home.
* `Ctx.RevealsBlank` — what a change of the geometry adds is background already.
* `toggles_blank_iff` — when the toggles of a run blank the screen.
-/

namespace Pigfx
open Lib

/-! ## The cursor in memory -/

section Drawn
variable (c : Ctx)

/-- What becomes of a pixel under the cursor. -/
def Ctx.shown (v : Byte) : Byte := if c.cursorVisible then c.cursorPixel v else v

/-- A pixel of the background stays what it is under a hidden cursor, or where there is one
colour. -/
theorem Ctx.shown_getBg : c.shown c.getBg = c.getBg ↔ c.cursorVisible = false ∨ c.bg = c.fg := by
  rw [shown, cursorPixel, getBg]
  cases c.cursorVisible with
  | false => simp
  | true =>
    cases c.inverse with
    | false =>
      simp only [if_true, Bool.false_eq_true, if_false, Bool.true_eq_false, false_or]
      split
      · next heq => simp [heq]
      · next hne => simp [hne, eq_comm]
    | true => simp

theorem paints_renderWord (k : ℕ) (a pitch : ℤ) (p : Pix) :
    Paints a pitch 1 4 (fun _ j => c.shown (p.bus.data (a + (j : ℕ)))) p.bus.data (renderWord c k a p).bus.data := by
  constructor
  · intro i hi j hj
    obtain rfl : i = 0 := by omega
    simp only [renderWord, Ctx.shown]
    split
    · simp only [Ctx.invertByte, Bus.data_put8, Bus.data_note]
      obtain rfl | rfl | rfl | rfl : j = 0 ∨ j = 1 ∨ j = 2 ∨ j = 3 := by omega
      · simp
      · simp
      · simp
      · simp
    · simp
  · intro x hx
    exact data_renderWord c k a p (by simpa using hx 0 (by omega))

/-- The two words of a line. -/
theorem paints_renderLine (k l : ℕ) (a pitch : ℤ) (p : Pix) :
    Paints a pitch 1 8 (fun _ j => c.shown (p.bus.data (a + (j : ℕ)))) p.bus.data
      (renderWord c l (a + 4) (renderWord c k a p)).bus.data := by
  have hfst := paints_renderWord c k a pitch p
  have hsnd := paints_renderWord c l (a + 4) pitch (renderWord c k a p)
  constructor
  · intro i hi j hj
    obtain rfl : i = 0 := by omega
    by_cases hlt : j < 4
    · rw [hsnd.outside _ fun z hz => ?_]
      · exact hfst.inside 0 (by omega) j hlt
      · obtain rfl : z = 0 := by omega
        left; push_cast; omega
    · have hword := hsnd.inside 0 (by omega) (j - 4) (by omega)
      have haddr : a + 4 + ((j - 4 : ℕ) : ℤ) = a + (j : ℕ) := by omega
      simp only [Nat.cast_zero, zero_mul, add_zero, haddr] at hword ⊢
      rw [hword, data_renderWord c k a p (by omega)]
  · intro x hx
    have hx0 : x < a ∨ a + 8 ≤ x := by simpa using hx 0 (by omega)
    rw [data_renderWord _ _ _ _ (by omega), data_renderWord _ _ _ _ (by omega)]

/-- **Rendering the cursor** changes the pixels of its cell, each once. -/
theorem paints_gfxTermRenderCursor (hstep : 8 ≤ c.rowStep) (p : Pix) :
    Paints c.cursorAddr c.rowStep c.fontHeight 8
      (fun i j => c.shown (p.bus.data (c.cursorAddr + (i : ℕ) * c.rowStep + (j : ℕ)))) p.bus.data
      (gfxTermRenderCursor c p).bus.data := by
  refine iterate_induction c.fontHeight _ _ (fun n (q : Pix) => Paints c.cursorAddr c.rowStep n 8 _ p.bus.data
    q.bus.data) ⟨by omega, fun _ _ => rfl⟩ fun n q _ H => H.append (k := 1) (by omega) ?_
  have hline := paints_renderLine c (2 * n) (2 * n + 1) (c.cursorAddr + (n : ℕ) * c.rowStep) c.rowStep q
  refine hline.congr fun z hz j hj => ?_
  rw [Nat.lt_one_iff.mp hz, H.outside _ fun i hi => ?_]
  · rfl
  · have hapart := row_apart (w := 8) (by exact_mod_cast hstep) hi
    right; push_cast at hapart; omega

theorem data_gfxTermRenderCursor (hstep : 8 ≤ c.rowStep) (p : Pix) (x : ℤ) :
    (gfxTermRenderCursor c p).bus.data x = if c.InCell x then c.shown (p.bus.data x) else p.bus.data x := by
  have hpaint := paints_gfxTermRenderCursor c hstep p
  split
  · next hin =>
    obtain ⟨i, hi, j, hj, rfl⟩ := (Ctx.inCell_iff hstep x).mp hin
    exact hpaint.inside i hi j hj
  · next hout => exact hpaint.outside x fun i hi => not_inCell_line hstep hout hi

end Drawn

/-! ## A change of the geometry -/

/-- The pixel of the text area belongs to the cell at the cursor. -/
def Ctx.OnCursor (c : Ctx) (x y : ℕ) : Prop :=
  c.cursorCol * FONT_WIDTH ≤ x ∧ x < (c.cursorCol + 1) * FONT_WIDTH ∧
    c.cursorRow * c.fontHeight ≤ y ∧ y < (c.cursorRow + 1) * c.fontHeight

instance (c : Ctx) (x y : ℕ) : Decidable (c.OnCursor x y) := inferInstanceAs (Decidable (_ ∧ _))

/-- The text area is background up to the cell at the cursor, and so is the saved cell. -/
structure Gfx.Blank (g : Gfx) : Prop where
  area : ∀ y < g.ctx.H, ∀ x < g.ctx.W, ¬g.ctx.OnCursor x y → g.pix.bus.data (g.ctx.PFB x y) = g.ctx.getBg
  saved : ∀ i < g.ctx.fontHeight, ∀ j < 8,
    cellByte (fun i k => g.pix.cursorBuffer (2 * i + k)) i j = g.ctx.getBg

/-- The byte is among those that `gfx_clear` fills. -/
def Ctx.Cleared (c : Ctx) (x : ℤ) : Prop := c.pfb ≤ x ∧ x < c.pfb + c.size

instance (c : Ctx) (x : ℤ) : Decidable (c.Cleared x) := inferInstanceAs (Decidable (_ ∧ _))

/-- **What `gfx_set_screen_geometry` reveals is background**: the pixels of the new text area that
the old one does not have, and the bytes that are saved under the cursor.  The cursor shows, if it
is drawn, inside its cell only. -/
structure Ctx.RevealsBlank (c : Ctx) (d : ℤ → Byte) : Prop where
  area : ∀ y < c.setScreenGeometry.H, ∀ x < c.W, ¬c.setScreenGeometry.OnCursor x y →
    ¬c.Cleared (c.setScreenGeometry.PFB x y) → d (c.setScreenGeometry.PFB x y) = c.getBg
  saved : ∀ x, c.setScreenGeometry.InCell x → ¬c.Cleared x → d x = c.getBg
  cursor : c.cursorVisible = false ∨ c.bg = c.fg ∨ ∀ y < c.setScreenGeometry.H, ∀ x < c.W,
    c.setScreenGeometry.InCell (c.setScreenGeometry.PFB x y) → c.setScreenGeometry.OnCursor x y

theorem data_gfxClear (b : Build) (c : Ctx) (m : Bus) (x : ℤ) :
    (gfxClear b c m).data x = if c.Cleared x then c.getBg else m.data x := by
  have hpaint := paints_gfxClear (c := c) b 0 m
  split
  · next hin =>
    obtain ⟨hlo, hhi⟩ := hin
    have hbyte := hpaint.inside 0 (by omega) (x - c.pfb).toNat (by omega)
    rwa [show c.pfb + (0 : ℕ) * 0 + ((x - c.pfb).toNat : ℤ) = x by omega] at hbyte
  · next hout =>
    refine hpaint.outside x fun i _ => ?_
    rw [Ctx.Cleared, not_and_or] at hout
    omega

section Change
variable {b : Build} {g : Gfx} (hstep : 8 ≤ g.ctx.rowStep)
include hstep

theorem saved_gfxSetScreenGeometry {i j : ℕ} (hi : i < g.ctx.fontHeight) (hj : j < 8) :
    cellByte (fun i k => (gfxSetScreenGeometry b g).pix.cursorBuffer (2 * i + k)) i j =
      (gfxClear b g.ctx g.pix.bus).data
        (g.ctx.setScreenGeometry.cursorAddr + (i : ℕ) * g.ctx.rowStep + (j : ℕ)) := by
  have hscreen := logicalScreen_gfxTermRenderCursor (c := g.ctx.setScreenGeometry) hstep
    { g.pix with bus := gfxClear b g.ctx g.pix.bus }
  have hinside := logicalScreen_inside (c := g.ctx.setScreenGeometry) hstep
    (p := (gfxSetScreenGeometry b g).pix) hi hj
  rw [← hinside]
  exact congrFun hscreen _

/-- The bytes of the cell are saved as the clearing left them. -/
theorem saved_iff : (∀ i < g.ctx.fontHeight, ∀ j < 8,
      cellByte (fun i k => (gfxSetScreenGeometry b g).pix.cursorBuffer (2 * i + k)) i j = g.ctx.getBg) ↔
    ∀ x, g.ctx.setScreenGeometry.InCell x → (gfxClear b g.ctx g.pix.bus).data x = g.ctx.getBg := by
  constructor
  · intro h x hx
    obtain ⟨i, hi, j, hj, rfl⟩ := (Ctx.inCell_iff (c := g.ctx.setScreenGeometry) hstep x).mp hx
    exact (saved_gfxSetScreenGeometry hstep hi hj).symm.trans (h i hi j hj)
  · intro h i hi j hj
    rw [saved_gfxSetScreenGeometry hstep hi hj]
    exact h _ ((Ctx.inCell_iff (c := g.ctx.setScreenGeometry) hstep _).mpr ⟨i, hi, j, hj, rfl⟩)

theorem data_gfxSetScreenGeometry (x : ℤ) :
    (gfxSetScreenGeometry b g).pix.bus.data x =
      if g.ctx.setScreenGeometry.InCell x then g.ctx.shown ((gfxClear b g.ctx g.pix.bus).data x)
      else (gfxClear b g.ctx g.pix.bus).data x :=
  data_gfxTermRenderCursor g.ctx.setScreenGeometry hstep { g.pix with bus := gfxClear b g.ctx g.pix.bus } x

/-- **A change of the geometry blanks the screen** exactly if what it reveals is background. -/
theorem blank_gfxSetScreenGeometry : (gfxSetScreenGeometry b g).Blank ↔ g.ctx.RevealsBlank g.pix.bus.data := by
  constructor
  · rintro ⟨harea, hsaved⟩
    have hcell := (saved_iff hstep).mp hsaved
    -- a byte that has not been cleared is as before
    have hkept : ∀ x, ¬g.ctx.Cleared x → (gfxClear b g.ctx g.pix.bus).data x = g.ctx.getBg →
        g.pix.bus.data x = g.ctx.getBg := by
      intro x hx hbg
      rwa [data_gfxClear, if_neg hx] at hbg
    refine ⟨?_, fun x hx hclear => hkept x hclear (hcell x hx), ?_⟩
    · intro y hy x hx hon hclear
      refine hkept _ hclear ?_
      by_cases hin : g.ctx.setScreenGeometry.InCell (g.ctx.setScreenGeometry.PFB x y)
      · exact hcell _ hin
      · have hpixel := harea y hy x hx hon
        change (gfxSetScreenGeometry b g).pix.bus.data (g.ctx.setScreenGeometry.PFB x y) = _ at hpixel
        rwa [data_gfxSetScreenGeometry hstep, if_neg hin] at hpixel
    · rw [← or_assoc, ← Ctx.shown_getBg]
      by_cases hshown : g.ctx.shown g.ctx.getBg = g.ctx.getBg
      · exact Or.inl hshown
      · refine Or.inr fun y hy x hx hin => by_contra fun hon => hshown ?_
        have hpixel := harea y hy x hx hon
        change (gfxSetScreenGeometry b g).pix.bus.data (g.ctx.setScreenGeometry.PFB x y) = _ at hpixel
        rwa [data_gfxSetScreenGeometry hstep, if_pos hin, hcell _ hin] at hpixel
  · rintro ⟨harea, hsaved, hcursor⟩
    have hcell : ∀ x, g.ctx.setScreenGeometry.InCell x → (gfxClear b g.ctx g.pix.bus).data x = g.ctx.getBg := by
      intro x hx
      rw [data_gfxClear]
      split
      · rfl
      · next hclear => exact hsaved x hx hclear
    refine ⟨?_, (saved_iff hstep).mpr hcell⟩
    intro y hy x hx hon
    change (gfxSetScreenGeometry b g).pix.bus.data (g.ctx.setScreenGeometry.PFB x y) = g.ctx.getBg
    rw [data_gfxSetScreenGeometry hstep]
    split
    · next hin =>
      rw [hcell _ hin, Ctx.shown_getBg]
      exact hcursor.imp_right fun h => h.resolve_right fun hinside => hon (hinside y hy x hx hin)
    · rw [data_gfxClear]
      split
      · rfl
      · next hclear => exact harea y hy x hx hon hclear

end Change

/-- An area that becomes smaller, in whole words, reveals nothing. -/
theorem Ctx.revealsBlank_of_inside {c : Ctx} (hwords : c.Pitch % 4 = 0) (hwide : 8 ≤ c.W) (hpitch : c.W ≤ c.Pitch)
    (htall : c.fontHeight ≤ c.setScreenGeometry.H) (habove : c.pfb ≤ c.setScreenGeometry.pfb)
    (hbelow : c.setScreenGeometry.pfb + c.Pitch * c.setScreenGeometry.H ≤ c.pfb + c.size) (d : ℤ → Byte) :
    c.RevealsBlank d := by
  have hstep : c.setScreenGeometry.rowStep = c.Pitch := Ctx.rowStep_of_words hwords
  have hcleared : ∀ y < c.setScreenGeometry.H, ∀ x < c.W, c.Cleared (c.setScreenGeometry.PFB x y) := by
    intro y hy x hx
    have hend := line_end_le (P := (c.Pitch : ℤ)) (y := (y : ℤ)) (x := (x : ℤ)) (n := 1)
      (H := (c.setScreenGeometry.H : ℤ)) (by omega) (by omega) (by omega)
    have hpos : (0 : ℤ) ≤ y * c.Pitch := by positivity
    have haddr : c.setScreenGeometry.PFB x y = c.setScreenGeometry.pfb + y * c.Pitch + x := rfl
    rw [haddr]
    exact ⟨by omega, by omega⟩
  have hpixel : ∀ z, c.setScreenGeometry.InCell z →
      ∃ y < c.fontHeight, ∃ x < 8, z = c.setScreenGeometry.PFB (x : ℕ) (y : ℕ) := by
    intro z hz
    obtain ⟨y, hy, x, hx, rfl⟩ := (Ctx.inCell_iff (by omega) z).mp hz
    refine ⟨y, hy, x, hx, ?_⟩
    have haddr : c.setScreenGeometry.cursorAddr = c.setScreenGeometry.pfb := by
      simp [cursorAddr, PFB, setScreenGeometry]
    rw [haddr, hstep]
    rfl
  refine ⟨fun y hy x hx _ hclear => absurd (hcleared y hy x hx) hclear, ?_, Or.inr (Or.inr ?_)⟩
  · intro z hz hclear
    obtain ⟨y, hy, x, hx, rfl⟩ := hpixel z hz
    exact absurd (hcleared y (by omega) x (by omega)) hclear
  · intro y hy x hx hin
    obtain ⟨y', hy', x', hx', haddr⟩ := hpixel _ hin
    have hsame := Ctx.addr_inj (c := c.setScreenGeometry) (p := ((x : ℤ), (y : ℤ))) (q := ((x' : ℤ), (y' : ℤ)))
      (by rw [abs_lt]; change -(c.Pitch : ℤ) < _ ∧ _ < (c.Pitch : ℤ); omega) haddr
    simp only [Prod.mk.injEq, Nat.cast_inj] at hsame
    obtain ⟨rfl, rfl⟩ := hsame
    exact ⟨by simp [setScreenGeometry], by simp [setScreenGeometry]; omega, by simp [setScreenGeometry],
      by simp [setScreenGeometry]; omega⟩

/-! ## The toggles -/

/-- The next font of `gfx_toggle_font_height`. -/
def Ctx.nextFont (c : Ctx) : ℕ := if c.fontHeight = 8 then 14 else if c.fontHeight = 14 then 16 else 8

/-- The context in which a toggle calls `gfx_set_screen_geometry`. -/
def Call.toggled (b : Build) (c : Ctx) : Call → Option Ctx
  | .putstring _ => none
  | .toggleFontHeight => some (c.setFontHeight b c.nextFont)
  | .toggleLines => some c.toggleLines

section Toggle
variable (b : Build) (t : Term) (call : Call)

theorem gfxToggleFontHeight_eq (g : Gfx) :
    gfxToggleFontHeight b g = gfxSetScreenGeometry b { g with ctx := g.ctx.setFontHeight b g.ctx.nextFont } := by
  rw [gfxToggleFontHeight, Ctx.nextFont]
  split
  · rfl
  · split
    · rfl
    · rfl

/-- If the call is a toggle, the screen is blank right after the change, before its message. -/
def Call.Blanks : Prop := ∀ c, call.toggled b t.g.ctx = some c → (call.prepare b t).g.Blank

/-- If the call is a toggle, what it reveals is background. -/
def Call.RevealsBlank : Prop := ∀ c, call.toggled b t.g.ctx = some c → c.RevealsBlank t.g.pix.bus.data

theorem Call.prepare_toggled {b : Build} {t : Term} {call : Call} {c : Ctx} (h : call.toggled b t.g.ctx = some c) :
    call.prepare b t = { t with g := gfxSetScreenGeometry b { t.g with ctx := c } } ∧ c.Pitch = t.g.ctx.Pitch := by
  cases call with
  | putstring str => cases h
  | toggleFontHeight =>
    obtain rfl : t.g.ctx.setFontHeight b t.g.ctx.nextFont = c := Option.some.inj h
    refine ⟨?_, rfl⟩
    change { t with g := gfxToggleFontHeight b t.g } = _
    rw [gfxToggleFontHeight_eq]
  | toggleLines =>
    obtain rfl : t.g.ctx.toggleLines = c := Option.some.inj h
    exact ⟨rfl, rfl⟩

/-- **A toggle blanks the screen** exactly if what it reveals is background. -/
theorem Call.blanks_iff (hp : 8 ≤ t.g.ctx.Pitch) : call.Blanks b t ↔ call.RevealsBlank b t := by
  refine forall₂_congr fun c hc => ?_
  obtain ⟨hprepare, hpitch⟩ := Call.prepare_toggled hc
  rw [hprepare]
  refine blank_gfxSetScreenGeometry (b := b) (g := { t.g with ctx := c }) ?_
  change 8 ≤ c.rowStep
  rw [c.rowStep_eq]
  omega

end Toggle

/-- **The toggles of a run blank the screen**, where text fills its area, exactly if each of them
reveals background only. -/
theorem toggles_blank_iff (b : Build) (pFramebuffer : ℤ) (width height pitch size : ℕ) (data : ℤ → Byte)
    (hp : 8 ≤ pitch) (calls : List Call) :
    let t := Term.start b pFramebuffer width height pitch size data
    Along (Call.run b) (fun t call => t.g.ctx.H = t.g.ctx.HEIGHT * t.g.ctx.fontHeight → call.Blanks b t) t calls ↔
      Along (Call.run b) (fun t call => t.g.ctx.H = t.g.ctx.HEIGHT * t.g.ctx.fontHeight → call.RevealsBlank b t) t
        calls := by
  intro t
  refine along_congr (I := fun t => t.g.ctx.Pitch = pitch) (fun t call h => (pitch_call b t call).trans h) ?_ calls rfl
  intro t call hpitch
  exact imp_congr_right fun _ => call.blanks_iff b t (hpitch ▸ hp)

/-- With a line less, the area is smaller. -/
theorem toggles_blank_iff_lines :
    let t := Term.start .shipped 0 640 480 640 307200 fun _ => 0
    Along (Call.run .shipped) (fun t call => t.g.ctx.H = t.g.ctx.HEIGHT * t.g.ctx.fontHeight → call.Blanks .shipped t)
      t [.toggleLines] := by
  refine (toggles_blank_iff .shipped 0 640 480 640 307200 (fun _ => 0) (by decide) [.toggleLines]).mpr
    ⟨fun _ c hc => ?_, trivial⟩
  obtain rfl := Option.some.inj hc
  exact Ctx.revealsBlank_of_inside (by decide) (by decide) (by decide) (by decide) (by decide) (by decide) _

/-- A blue background and the small font: the four new rows above are not blue. -/
theorem toggle_reveals_rows :
    let t := Term.start .shipped 0 640 480 640 307200 fun _ => 0
    ¬Along (Call.run .shipped) (fun t call => t.g.ctx.H = t.g.ctx.HEIGHT * t.g.ctx.fontHeight → call.Blanks .shipped t)
      t [.putstring (text "\x1b[44m"), .toggleFontHeight] := by
  intro t
  rintro ⟨-, htoggle, -⟩
  have hpixel := (htoggle (by decide) _ rfl).area 0 (by decide) 8 (by decide) (by decide)
  revert hpixel
  decide +kernel

end Pigfx
