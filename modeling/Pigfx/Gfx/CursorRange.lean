import Pigfx.Gfx.Legal

/-!
# The cursor stays inside the grid

After every call the cursor is inside the grid, provided that no `ESC [ u` recalls
a row that a change of the geometry has cut off.  `gfx_term_move_cursor` clamps
its target; `gfx_term_restore_cursor` does not, and the scroll that follows a byte
takes back one row only.

## Main definitions

* `Gfx.DrawnOn` — what the drawing commands of GSX do to the global state.
* `Ctx.Board` — what the board gives and the geometry is computed from.
* `Call.prepare`, `Call.text` — a call as a stream of bytes.
* `Term.Steady` — the invariant between calls.
* `RecallInRange` — the condition under which a byte keeps it.
-/

namespace Pigfx
open Lib

/-! ## Drawing commands -/

/-- `g'` is `g` with something drawn. -/
def Gfx.DrawnOn (g g' : Gfx) : Prop := ∃ f : Bus → Bus, g' = g.draw f

namespace Gfx.DrawnOn

variable {g g' g'' : Gfx}

theorem refl (g : Gfx) : g.DrawnOn g := ⟨id, rfl⟩

theorem draw (g : Gfx) (f : Bus → Bus) : g.DrawnOn (g.draw f) := ⟨f, rfl⟩

theorem trans (h : g.DrawnOn g') (h' : g'.DrawnOn g'') : g.DrawnOn g'' := by
  obtain ⟨f, rfl⟩ := h
  obtain ⟨f', rfl⟩ := h'
  exact ⟨fun m => f' (f m), rfl⟩

theorem ite {p : Prop} [Decidable p] {x : Gfx} (h : g.DrawnOn x) : g.DrawnOn (if p then x else g) := by
  split
  · exact h
  · exact refl g

end Gfx.DrawnOn

section
variable (b : Build) (st : ScnState) (g : Gfx)

theorem drawnOn_fillPolygon (n : ℕ) (xin yin : ℕ → ℤ) : g.DrawnOn (fillPolygon b n xin yin g) := by
  rw [fillPolygon]
  split
  · exact (Gfx.DrawnOn.draw _ _).trans (.draw _ _)
  · exact .draw _ _

theorem drawnOn_gfxDrawText : g.DrawnOn (gfxDrawText st g) := by
  rw [gfxDrawText]
  exact .draw g _

theorem drawnOn_gfxDrawBitmap : g.DrawnOn (gfxDrawBitmap st g).1 := by
  simp only [gfxDrawBitmap]
  split
  · exact .draw g _
  · exact .refl g

theorem drawnOn_gfxDrawingPrimitive : g.DrawnOn (gfxDrawingPrimitive b st g) := by
  rw [gfxDrawingPrimitive]
  split
  · exact .draw _ _
  · dsimp only
    split
    · exact .draw _ _
    · exact (Gfx.DrawnOn.draw _ _).trans (.draw _ _)
  · exact .draw _ _
  · exact .refl g

/-- **The drawing commands draw**, and do nothing else. -/
theorem drawnOn_gsxCommand (hlo : OPC_DRAW_POLYLINE ≤ (st.param 0).toNat)
    (hhi : (st.param 0).toNat ≤ OPC_DRAWING_PRIMITIVE) : g.DrawnOn (gsxCommand b st g).1 := by
  rw [gsxCommand]
  generalize (st.param 0).toNat = opcode at hlo hhi
  change 6 ≤ opcode at hlo
  change opcode ≤ 11 at hhi
  interval_cases opcode
  · exact Gfx.DrawnOn.ite (.draw g _)
  · exact .draw g _
  · exact drawnOn_gfxDrawText st g
  · exact Gfx.DrawnOn.ite (drawnOn_fillPolygon b g _ _ _)
  · exact drawnOn_gfxDrawBitmap st g
  · exact drawnOn_gfxDrawingPrimitive b st g

end

/-! ## GSX calls -/

/-- The context after a GSX call: the column may be anywhere, the row stays inside. -/
structure Ctx.Kept (c c' : Ctx) : Prop where
  geometry : c'.geometry = c.geometry
  saved : c'.savedCursor = c.savedCursor
  row : c.cursorRow < c.HEIGHT → c'.cursorRow < c'.HEIGHT

theorem Ctx.Kept.refl (c : Ctx) : c.Kept c := ⟨rfl, rfl, id⟩

theorem Gfx.DrawnOn.kept {g g' : Gfx} (h : g.DrawnOn g') : g.ctx.Kept g'.ctx := by
  obtain ⟨f, rfl⟩ := h
  exact Ctx.Kept.refl _

theorem Ctx.Kept.trans {c c' c'' : Ctx} (h : c.Kept c') (h' : c'.Kept c'') : c.Kept c'' :=
  ⟨h'.geometry.trans h.geometry, h'.saved.trans h.saved, fun hr => h'.row (h.row hr)⟩

section Gsx
variable (b : Build) (st : ScnState) {g : Gfx} (hs : g.ctx.Sized)
include hs

theorem kept_gfxTermMoveCursor (row col : ℤ) : g.ctx.Kept (gfxTermMoveCursor row col g).ctx :=
  ⟨rfl, rfl, fun _ => (hs.moveCursor_inRange row col).row⟩

theorem kept_gfxClearWorkstation : g.ctx.Kept (gfxClearWorkstation b g).ctx :=
  kept_gfxTermMoveCursor hs 0 0

theorem kept_gfxOpenWorkstation : g.ctx.Kept (gfxOpenWorkstation b st g).ctx := by
  have hvis : g.ctx.Kept (g.ctx.setVisible false) := ⟨rfl, rfl, id⟩
  exact hvis.trans ⟨rfl, rfl, fun _ => (hs.moveCursor_inRange 0 0).row⟩

omit hs in
theorem kept_clearToEndOfScreen : g.ctx.Kept (clearToEndOfScreen b g).ctx := by
  have hclear : ∀ (i j : ℤ) (g : Gfx), (gfxTermClearLines b i j g).ctx = g.ctx := fun i j g => by
    unfold gfxTermClearLines
    dsimp only
    generalize (if i < 0 then 0 else i) = r
    generalize (if j > _ then _ else j) = s
    split <;> rfl
  unfold clearToEndOfScreen
  dsimp only
  split
  · rw [hclear]; exact Ctx.Kept.refl _
  · exact Ctx.Kept.refl _

theorem kept_gfxEscape : g.ctx.Kept (gfxEscape b st g).ctx := by
  rw [gfxEscape]
  dsimp only
  split
  · exact ⟨rfl, rfl, id⟩
  · exact ⟨rfl, rfl, id⟩
  · exact kept_gfxTermMoveCursor hs _ _
  · exact kept_gfxTermMoveCursor hs _ _
  · exact kept_gfxTermMoveCursor hs _ _
  · exact kept_gfxTermMoveCursor hs _ _
  · exact kept_gfxTermMoveCursor hs _ _
  · exact kept_clearToEndOfScreen b
  · exact ⟨rfl, rfl, id⟩
  · exact kept_gfxTermMoveCursor hs _ _
  · -- text output advances the column only
    exact iterate_induction _ _ g (fun _ x => g.ctx.Kept x.ctx) (Ctx.Kept.refl _)
      fun i x _ h => h.trans ⟨rfl, rfl, id⟩
  · exact ⟨rfl, rfl, id⟩
  · exact ⟨rfl, rfl, id⟩
  · exact ⟨rfl, rfl, id⟩
  · exact ⟨rfl, rfl, id⟩
  · exact ⟨rfl, rfl, id⟩

theorem kept_gsxCommand : g.ctx.Kept (gsxCommand b st g).1.ctx := by
  rw [gsxCommand]
  dsimp only
  split
  · exact kept_gfxOpenWorkstation b st hs
  · exact ⟨rfl, rfl, id⟩
  · exact kept_gfxClearWorkstation b hs
  · exact Ctx.Kept.refl _
  · split
    · exact kept_gfxEscape b st hs
    · exact Ctx.Kept.refl _
  · split <;> exact Ctx.Kept.refl _
  · exact Ctx.Kept.refl _
  · exact (drawnOn_gfxDrawText st g).kept
  · exact (Gfx.DrawnOn.ite (drawnOn_fillPolygon b g _ _ _)).kept
  · exact (drawnOn_gfxDrawBitmap st g).kept
  · exact (drawnOn_gfxDrawingPrimitive b st g).kept
  · exact Ctx.Kept.refl _
  · split <;> exact Ctx.Kept.refl _
  all_goals exact Ctx.Kept.refl _

theorem kept_gsxCall : g.ctx.Kept (gsxCall b st g).ctx := by
  rw [gsxCall]
  split
  · have h := kept_gsxCommand b st hs
    generalize gsxCommand b st g = r at h ⊢
    obtain ⟨g', ok⟩ := r
    dsimp only
    split <;> exact h
  · exact Ctx.Kept.refl _

end Gsx

/-! ## One byte -/

/-- The byte recalls no row below the one that the scroll takes back. -/
def RecallInRange (t : Term) (ch : Byte) : Prop :=
  restoresCursor ch t.scn → t.g.ctx.savedCursor.1 ≤ t.g.ctx.HEIGHT

instance (t : Term) (ch : Byte) : Decidable (RecallInRange t ch) :=
  inferInstanceAs (Decidable (_ → _))

/-- What a byte needs and keeps: a grid, the cursor inside it, and the saved column
inside the rows. -/
structure Ctx.Steady (c : Ctx) : Prop extends c.Sized, c.InRange where
  savedCol : c.savedCursor.2 < c.WIDTH

theorem savedCol_ctx {ch : Byte} {st : ScnState} {c₀ c : Ctx} {op : TextOp}
    (h : op.Legal ch st c₀ c) (hs : c.savedCursor.2 < c.WIDTH) :
    (op.ctx c).savedCursor.2 < (op.ctx c).WIDTH := by
  cases op with
  | attrs a =>
      change a.savedCursor.2 < c.WIDTH
      rcases h.2 with h' | h' <;> rw [h']
      · exact hs
      · exact h.1.col
  | _ => exact hs

/-- The fix-ups bring any column back, as long as the row is inside. -/
theorem fixup_inRange {g : Gfx} (hs : g.ctx.Sized) (hr : g.ctx.cursorRow < g.ctx.HEIGHT) :
    (scrollFixup (wrapFixup g)).ctx.geometry = g.ctx.geometry ∧
      (scrollFixup (wrapFixup g)).ctx.savedCursor = g.ctx.savedCursor ∧
      (scrollFixup (wrapFixup g)).ctx.InRange := by
  have hrow := hs.u32_row hr
  have hcols := hs.cols
  -- after the first fix-up the column is inside and the row at most one below
  obtain ⟨hgeo, hsaved, hrow', hcol'⟩ : (wrapFixup g).ctx.geometry = g.ctx.geometry ∧
      (wrapFixup g).ctx.savedCursor = g.ctx.savedCursor ∧
      (wrapFixup g).ctx.cursorRow ≤ g.ctx.HEIGHT ∧ (wrapFixup g).ctx.cursorCol < g.ctx.WIDTH := by
    rw [wrapFixup]
    split
    · refine ⟨rfl, rfl, ?_, hcols⟩
      change u32 ((g.ctx.cursorRow : ℤ) + 1) ≤ g.ctx.HEIGHT
      omega
    · exact ⟨rfl, rfl, hr.le, by omega⟩
  have hH : (wrapFixup g).ctx.HEIGHT = g.ctx.HEIGHT := congrArg Geometry.HEIGHT hgeo
  have hW : (wrapFixup g).ctx.WIDTH = g.ctx.WIDTH := congrArg Geometry.WIDTH hgeo
  rw [scrollFixup]
  split
  · rename_i hlast
    refine ⟨hgeo, hsaved, ?_, by change (wrapFixup g).ctx.cursorCol < _; exact hW ▸ hcol'⟩
    change u32 (((wrapFixup g).ctx.cursorRow : ℤ) - 1) < (wrapFixup g).ctx.HEIGHT
    have heq : (wrapFixup g).ctx.cursorRow = g.ctx.HEIGHT := by omega
    have := hs.rows
    rw [heq, hH, hs.u32_lastRow]
    omega
  · exact ⟨hgeo, hsaved, by omega, by omega⟩

/-- The context a GSX call leaves behind. -/
theorem byteAction_gsx (b : Build) {ch : Byte} {t : Term} (hG : isGsxCall ch t.scn) :
    (byteAction b ch t).g = gsxCall b t.scn t.g := by
  obtain ⟨hat, hm, rfl⟩ := hG
  rw [byteAction_letter hat (by decide) (by decide) b rfl, finalLetterAction,
    if_pos ⟨hm, rfl⟩]

/-- **A byte keeps the cursor inside the grid.** -/
theorem steady_putByte (b : Build) {ch : Byte} {t : Term} (h : t.g.ctx.Steady)
    (hu : RecallInRange t ch) :
    (putByte b ch t).g.ctx.geometry = t.g.ctx.geometry ∧ (putByte b ch t).g.ctx.Steady := by
  by_cases hG : isGsxCall ch t.scn
  · have hact := byteAction_gsx b (t := { t with g := t.g.draw dmaWait }) hG
    have hkept := kept_gsxCall b t.scn (g := t.g.draw dmaWait) h.toSized
    have hput : (putByte b ch t).g = scrollFixup (wrapFixup (gsxCall b t.scn (t.g.draw dmaWait))) := by
      rw [putByte]
      dsimp only
      rw [hact]
    have hgeo : (gsxCall b t.scn (t.g.draw dmaWait)).ctx.geometry = t.g.ctx.geometry := hkept.geometry
    obtain ⟨hgeo', hsaved, hin⟩ := fixup_inRange (h.toSized.congr hgeo) (hkept.row h.row)
    rw [hput]
    have hall := hgeo'.trans hgeo
    refine ⟨hall, ⟨h.toSized.congr hall, hin, ?_⟩⟩
    have hW : (scrollFixup (wrapFixup (gsxCall b t.scn (t.g.draw dmaWait)))).ctx.WIDTH =
        t.g.ctx.WIDTH := congrArg Geometry.WIDTH hall
    rw [hsaved, hkept.saved, hW]
    exact h.savedCol
  · have hu' : restoresCursor ch t.scn → t.g.ctx.savedCursor.1 ≤ t.g.ctx.HEIGHT ∧
        t.g.ctx.savedCursor.2 < t.g.ctx.WIDTH := fun hr => ⟨hu hr, h.savedCol⟩
    have hops := putByte_textOps b h.toSized h.toInRange hG hu'
    have hlegal := textOps_legal b h.toSized h.toInRange hu'
    rw [hops, ctx_runOps]
    have hgeo := geometry_foldl (textOps b ch t.scn t.g.ctx) t.g.ctx
    refine ⟨hgeo, ⟨h.toSized.congr hgeo, hlegal.2, ?_⟩⟩
    exact hlegal.1.invariant (I := fun c => c.savedCursor.2 < c.WIDTH)
      (fun _ _ hsaved hop => savedCol_ctx hop hsaved) h.savedCol

/-! ## Geometry -/

/-- What the geometry is computed from: the board's frame buffer and a font. -/
structure Ctx.Board (c : Ctx) : Prop where
  wide : 8 ≤ c.W
  narrow : c.W < 2 ^ 31
  columns : c.WIDTH = c.W / 8
  tall : 32 ≤ c.fullHeight
  low : c.fullHeight < 2 ^ 31
  font : c.fontHeight = 8 ∨ c.fontHeight = 14 ∨ c.fontHeight = 16

namespace Ctx.Board

variable {c : Ctx} (h : c.Board)
include h

theorem font_pos : 0 < c.fontHeight ∧ c.fontHeight ≤ 16 := by
  rcases h.font with h | h | h <;> omega

/-- The text fits between the borders, with at least one line. -/
theorem lines_le : 1 ≤ c.lines ∧ c.lines * c.fontHeight ≤ c.fullHeight := by
  have htall := h.tall
  have hfont := h.font_pos
  have hall : c.fullHeight / c.fontHeight * c.fontHeight ≤ c.fullHeight := Nat.div_mul_le_self _ _
  have hone : 1 ≤ c.fullHeight / c.fontHeight := (Nat.le_div_iff_mul_le hfont.1).mpr (by omega)
  unfold lines
  dsimp only
  split
  · rename_i hlim
    exact ⟨hlim.1, le_trans (Nat.mul_le_mul_right _ hlim.2.le) hall⟩
  · exact ⟨hone, hall⟩

/-- The borders leave room for a line. -/
theorem border_le : c.borderTopBottom * 2 + c.fontHeight ≤ c.fullHeight := by
  have htall := h.tall
  have hfont := h.font_pos
  have hlines := h.lines_le
  have hfh : c.fontHeight ≤ c.lines * c.fontHeight := Nat.le_mul_of_pos_left _ hlines.1
  unfold borderTopBottom
  dsimp only
  split <;> omega

theorem height_eq : c.setScreenGeometry.H = c.fullHeight - c.borderTopBottom * 2 := by
  have hlow := h.low
  have hborder := h.border_le
  change u32 ((c.fullHeight : ℤ) - c.borderTopBottom * 2) = _
  rw [u32_of_nonneg (by omega) (by omega)]
  omega

/-- A new geometry has a grid, and the cursor is at home. -/
theorem steady (hsaved : c.savedCursor.2 < c.WIDTH) : c.setScreenGeometry.Steady := by
  have hwide := h.wide; have hcols := h.columns; have hlow := h.low
  have hH := h.height_eq
  have hborder := h.border_le
  have hfont := h.font_pos
  have hrows : 0 < c.setScreenGeometry.HEIGHT := by
    change 0 < c.setScreenGeometry.H / c.fontHeight
    rw [hH]
    exact Nat.div_pos (by omega) hfont.1
  have hcolumns : 0 < c.setScreenGeometry.WIDTH := by change 0 < c.WIDTH; omega
  refine ⟨⟨hrows, hcolumns, hfont.1, ?_, Nat.div_mul_le_self _ _, h.narrow, by omega⟩,
    ⟨hrows, hcolumns⟩, hsaved⟩
  change 8 * c.WIDTH ≤ c.W
  omega

end Ctx.Board

/-! ## Calls -/

/-- The terminal before the first byte of a call. -/
def Call.prepare (b : Build) (t : Term) : Call → Term
  | .putstring _ => t
  | .toggleFontHeight => { t with g := gfxToggleFontHeight b t.g }
  | .toggleLines => { t with g := gfxSetScreenGeometry b { t.g with ctx := t.g.ctx.toggleLines } }

/-- The bytes of a call. -/
def Call.text (b : Build) (t : Term) : Call → List Byte
  | .putstring str => cString str
  | .toggleFontHeight => []
  | .toggleLines =>
      let t := gfxTermPutstring b (Pigfx.text "[") (Call.prepare b t .toggleLines)
      Pigfx.text "[" ++ (cString (u2s (BitVec.ofNat 32 t.g.ctx.lineLimit)) ++ Pigfx.text " lines]\r\n")

theorem Call.run_eq (b : Build) (t : Term) (call : Call) :
    call.run b t = runBytes b (call.prepare b t) (call.text b t) := by
  cases call with
  | putstring str => rfl
  | toggleFontHeight => rfl
  | toggleLines =>
      have h1 : cString (Pigfx.text "[") = Pigfx.text "[" := by decide
      have h2 : cString (Pigfx.text " lines]\r\n") = Pigfx.text " lines]\r\n" := by decide
      rw [Call.text]
      rw [runBytes_append, runBytes_append]
      change gfxToggleLines b t = _
      rw [gfxToggleLines]
      simp only [gfxTermPutstring_eq, h1, h2]
      rfl

/-- The condition holds at every byte of the calls. -/
def AlongCalls (b : Build) (P : Term → Byte → Prop) (t : Term) (calls : List Call) : Prop :=
  Along (Call.run b) (fun t call => Along (fun t ch => putByte b ch t) P (call.prepare b t) (call.text b t))
    t calls

instance (b : Build) (P : Term → Byte → Prop) [∀ t ch, Decidable (P t ch)] (t : Term)
    (calls : List Call) : Decidable (AlongCalls b P t calls) :=
  inferInstanceAs (Decidable (Along _ _ _ _))

/-- What holds between calls. -/
structure Term.Steady (t : Term) : Prop where
  ctx : t.g.ctx.Steady
  board : t.g.ctx.Board

theorem Ctx.Board.congr {c c' : Ctx} (h : c.Board) (hg : c'.geometry = c.geometry) : c'.Board := by
  simp only [Ctx.geometry, Geometry.mk.injEq] at hg
  obtain ⟨hW, -, -, -, -, -, -, hfull, hw, -, -, hf, -⟩ := hg
  exact ⟨hW ▸ h.wide, hW ▸ h.narrow, by rw [hw, hW]; exact h.columns, hfull ▸ h.tall, hfull ▸ h.low,
    hf ▸ h.font⟩

theorem steady_runBytes (b : Build) {t : Term} (h : t.Steady) {bytes : List Byte}
    (hu : Along (fun t ch => putByte b ch t) RecallInRange t bytes) : (runBytes b t bytes).Steady :=
  hu.invariant (I := Term.Steady) (fun _ _ hs hr =>
    have hput := steady_putByte b hs.ctx hr
    ⟨hput.2, hs.board.congr hput.1⟩) h

/-- A toggle gives a new geometry. -/
theorem steady_setScreenGeometry (b : Build) {g : Gfx} (h : g.ctx.Board)
    (hsaved : g.ctx.savedCursor.2 < g.ctx.WIDTH) :
    (gfxSetScreenGeometry b g).ctx.Steady ∧ (gfxSetScreenGeometry b g).ctx.Board :=
  ⟨h.steady hsaved, ⟨h.wide, h.narrow, h.columns, h.tall, h.low, h.font⟩⟩

theorem steady_prepare (b : Build) {t : Term} (h : t.Steady) (call : Call) :
    (call.prepare b t).Steady := by
  have hb := h.board
  -- with another font or another limit the board is as before
  have hfont : ∀ n, n = 8 ∨ n = 14 ∨ n = 16 → (t.g.ctx.setFontHeight b n).Board := fun n hn =>
    ⟨hb.wide, hb.narrow, hb.columns, hb.tall, hb.low, hn⟩
  cases call with
  | putstring str => exact h
  | toggleFontHeight =>
      change Term.Steady { t with g := gfxToggleFontHeight b t.g }
      rw [gfxToggleFontHeight, gfxSetFontHeight]
      split
      · have hset := steady_setScreenGeometry b (g := { t.g with ctx := t.g.ctx.setFontHeight b 14 })
          (hfont 14 (by omega)) h.ctx.savedCol
        exact ⟨hset.1, hset.2⟩
      · split
        · have hset := steady_setScreenGeometry b (g := { t.g with ctx := t.g.ctx.setFontHeight b 16 })
            (hfont 16 (by omega)) h.ctx.savedCol
          exact ⟨hset.1, hset.2⟩
        · have hset := steady_setScreenGeometry b (g := { t.g with ctx := t.g.ctx.setFontHeight b 8 })
            (hfont 8 (by omega)) h.ctx.savedCol
          exact ⟨hset.1, hset.2⟩
  | toggleLines =>
      have hset := steady_setScreenGeometry b (g := { t.g with ctx := t.g.ctx.toggleLines })
        ⟨hb.wide, hb.narrow, hb.columns, hb.tall, hb.low, hb.font⟩ h.ctx.savedCol
      exact ⟨hset.1, hset.2⟩

theorem steady_call (b : Build) {t : Term} (h : t.Steady) {call : Call}
    (hu : Along (fun t ch => putByte b ch t) RecallInRange (call.prepare b t) (call.text b t)) :
    (call.run b t).Steady := by
  rw [Call.run_eq]
  exact steady_runBytes b (steady_prepare b h call) hu

theorem steady_start (b : Build) (pFramebuffer : ℤ) {width height : ℕ} (pitch size : ℕ)
    (data : ℤ → Byte) (hw : 8 ≤ width) (hw' : width < 2 ^ 31) (hh : 32 ≤ height)
    (hh' : height < 2 ^ 31) : (Term.start b pFramebuffer width height pitch size data).Steady := by
  have hboard : (((Term.static data).g.ctx.setEnv b pFramebuffer width height pitch size).setFontHeight b
      b.fontHeight).Board := ⟨hw, hw', rfl, hh, hh', b.font_predefined⟩
  have hset := steady_setScreenGeometry b (g := { (Term.static data).g with
    ctx := ((Term.static data).g.ctx.setEnv b pFramebuffer width height pitch size).setFontHeight b
      b.fontHeight }) hboard (Nat.div_pos hw (by decide))
  exact ⟨hset.1, hset.2⟩

/-- **The cursor stays inside the grid.**  From the start, after any calls none of
whose bytes recalls a row below the grid, the cursor is inside. -/
theorem cursor_inRange (b : Build) (pFramebuffer : ℤ) (width height pitch size : ℕ)
    (data : ℤ → Byte) (hw : 8 ≤ width) (hw' : width < 2 ^ 31) (hh : 32 ≤ height)
    (hh' : height < 2 ^ 31) (calls : List Call) (hu : AlongCalls b RecallInRange
      (Term.start b pFramebuffer width height pitch size data) calls) :
    let t := calls.foldl (Call.run b) (Term.start b pFramebuffer width height pitch size data)
    t.g.ctx.cursorRow < t.g.ctx.HEIGHT ∧ t.g.ctx.cursorCol < t.g.ctx.WIDTH := by
  have hend := hu.invariant (I := Term.Steady) (fun _ _ hs hc => steady_call b hs hc)
    (steady_start b pFramebuffer pitch size data hw hw' hh hh')
  exact ⟨hend.ctx.row, hend.ctx.col⟩

/-- Saving, changing the font and restoring, as long as the row exists. -/
theorem cursor_inRange_toggle :
    let calls := [.putstring (Pigfx.text "\x1b[20;5H\x1b[s"), .toggleFontHeight,
      .putstring (Pigfx.text "\x1b[u\n")]
    let t := calls.foldl (Call.run .shipped) (Term.start .shipped 0 640 480 640 307200 fun _ => 0)
    t.g.ctx.cursorRow < t.g.ctx.HEIGHT ∧ t.g.ctx.cursorCol < t.g.ctx.WIDTH :=
  cursor_inRange .shipped 0 640 480 640 307200 (fun _ => 0) (by decide) (by decide) (by decide)
    (by decide) _ (by decide)

/-- Row 58 of the small font is saved and recalled in the larger one, which has 34
rows. -/
theorem cursor_leaves_range :
    ¬∀ (b : Build) (pFramebuffer : ℤ) (pitch size : ℕ) (data : ℤ → Byte) (calls : List Call),
      let t := calls.foldl (Call.run b) (Term.start b pFramebuffer 640 480 pitch size data)
      t.g.ctx.cursorRow < t.g.ctx.HEIGHT ∧ t.g.ctx.cursorCol < t.g.ctx.WIDTH := by
  intro h
  have hrow := (h .shipped 0 640 307200 (fun _ => 0)
    [.toggleFontHeight, .putstring (Pigfx.text "\x1b[59;1H\x1b[s"), .toggleFontHeight,
      .putstring (Pigfx.text "\x1b[u")]).1
  revert hrow
  decide

end Pigfx
