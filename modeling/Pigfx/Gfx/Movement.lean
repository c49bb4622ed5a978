import Pigfx.Gfx.TextOutput
import Pigfx.Gfx.Geometry

/-!
# Graphics and the text cursor

The drawing commands know nothing of the cursor: they leave its position and the saved cell
as they are.  A movement puts the saved cell back even if the cursor is hidden, and so what
has been drawn in that cell since is lost.

## Main definitions

* `Drawing` — the commands that draw.
* `Movement` — the commands that move the cursor.
* `movement_keeps_iff` — when the graphics survive a movement.
-/

namespace Pigfx
open Lib

/-! ## Drawing commands -/

/-- A string of digits. -/
abbrev Numeral : Type := { d : List Byte // ∀ x ∈ d, isDigit x }

theorem Numeral.digits (n : Numeral) (ns : List Numeral) :
    ∀ e ∈ n.1 :: ns.map Subtype.val, ∀ x ∈ e, isDigit x := by
  intro e he
  rcases List.mem_cons.mp he with rfl | he
  · exact n.2
  · obtain ⟨m, -, rfl⟩ := List.mem_map.mp he
    exact m.2

section
variable (b : Build) (st : ScnState) (g : Gfx)

/-- The letter of a drawing command. -/
theorem drawnOn_finalLetterAction (hmode : st.privateModeChar = chr '#')
    (hlo : OPC_DRAW_POLYLINE ≤ (st.param 0).toNat) (hhi : (st.param 0).toNat ≤ OPC_DRAWING_PRIMITIVE) :
    ∃ g', g.DrawnOn g' ∧ g'.SameScreen (finalLetterAction b (chr 'G') st g) := by
  have hcommand := drawnOn_gsxCommand b st g hlo hhi
  rw [finalLetterAction, if_pos ⟨hmode, rfl⟩, gsxCall]
  split
  · refine ⟨_, hcommand, ?_⟩
    generalize gsxCommand b st g = r
    dsimp only
    split
    · exact ⟨rfl, rfl, rfl⟩
    · exact .refl _
  · exact ⟨g, .refl g, .refl g⟩

end

/-- `ESC [ # opcode ; params G` for one of the drawing commands: polyline, polymarker, text,
filled polygon, bitmap, and the primitives bar, arc and circle. -/
structure Drawing where
  opcode : Numeral
  params : List Numeral
  draws : OPC_DRAW_POLYLINE ≤ decimal opcode.1 ∧ decimal opcode.1 ≤ OPC_DRAWING_PRIMITIVE
  fits : params.length + 1 ≤ CMD_PARAMS_LENGTH

namespace Drawing

def bytes (d : Drawing) : List Byte :=
  sequenceOf (some (chr '#')) d.opcode.1 (d.params.map Subtype.val) (chr 'G')

/-- The terminal receives the command. -/
def run (b : Build) (t : Term) (d : Drawing) : Term := gfxTermPutstring b d.bytes t

/-- **A drawing command leaves the cursor and its saved cell alone.** -/
theorem run_spec (b : Build) {t : Term} (h : t.AtRest) (d : Drawing) :
    (d.run b t).AtRest ∧ (d.run b t).g.ctx = t.g.ctx ∧
      (d.run b t).g.pix.cursorBuffer = t.g.pix.cursorBuffer := by
  obtain ⟨st, g, hsame, hdec, hg, hnext⟩ := putstring_sequence b h.inRange h.next (Or.inr rfl)
    (d.opcode.digits d.params) (by rw [List.length_map]; exact d.fits) (L := chr 'G')
    (by decide) (by decide)
  have hopc : (st.param 0).toNat = decimal d.opcode.1 := by
    have hlt := d.draws.2
    rw [hdec.toNat_param 0 (by decide) (by simp)]
    change decimal d.opcode.1 ≤ 11 at hlt
    change decimal d.opcode.1 % 2 ^ 32 = _
    exact Nat.mod_eq_of_lt (by omega)
  obtain ⟨g', ⟨f, rfl⟩, hdrawn⟩ := drawnOn_finalLetterAction b st g hdec.mode (hopc ▸ d.draws.1)
    (hopc ▸ d.draws.2)
  have hctx : (finalLetterAction b (chr 'G') st g).ctx = t.g.ctx := hdrawn.ctx.trans hsame.ctx
  have hbuffer : (finalLetterAction b (chr 'G') st g).pix.cursorBuffer = t.g.pix.cursorBuffer :=
    hdrawn.buffer.trans hsame.buffer
  rw [fixups_of_inRange (by rw [hctx]; exact h.inRange)] at hg
  change (gfxTermPutstring b d.bytes t).AtRest ∧ _
  refine ⟨⟨?_, hnext, ?_⟩, ?_, ?_⟩
  · rw [bytes, hg, hctx]
    exact h.inRange
  · rw [bytes, hg, hctx]
    exact h.pitch
  · rw [run, bytes, hg, hctx]
  · rw [run, bytes, hg, hbuffer]

/-- Neither do any number of them. -/
theorem run_all (b : Build) {t : Term} (h : t.AtRest) (ds : List Drawing) :
    (ds.foldl (run b) t).AtRest ∧ (ds.foldl (run b) t).g.ctx = t.g.ctx ∧
      (ds.foldl (run b) t).g.pix.cursorBuffer = t.g.pix.cursorBuffer := by
  induction ds generalizing t with
  | nil => exact ⟨h, rfl, rfl⟩
  | cons d ds ih =>
    obtain ⟨hrest, hctx, hbuffer⟩ := run_spec b h d
    obtain ⟨hrest', hctx', hbuffer'⟩ := ih hrest
    exact ⟨hrest', hctx'.trans hctx, hbuffer'.trans hbuffer⟩

end Drawing

/-! ## Movements -/

/-- The letters that move the cursor, save its position, or recall it. -/
inductive CursorLetter
  | up
  | down
  | right
  | left
  | position
  | positionF
  | saveCursor
  | restoreCursor
  deriving DecidableEq, Repr

/-- The letter itself. -/
def CursorLetter.byte : CursorLetter → Byte
  | up => chr 'A'
  | down => chr 'B'
  | right => chr 'C'
  | left => chr 'D'
  | position => chr 'H'
  | positionF => chr 'f'
  | saveCursor => chr 's'
  | restoreCursor => chr 'u'

/-- `ESC [ first ; params` and a letter that moves the cursor. -/
structure CursorSequence where
  letter : CursorLetter
  first : Numeral
  params : List Numeral
  fits : params.length + 1 ≤ CMD_PARAMS_LENGTH

/-- `ESC [ # 5 ; function ; params G` for one of the functions that move the cursor: up, down,
right, left, home, and direct addressing. -/
structure CursorEscape where
  opcode : Numeral
  function : Numeral
  params : List Numeral
  escape : decimal opcode.1 = OPC_ESCAPE
  moves : decimal function.1 ∈ [4, 5, 6, 7, 8, 11]
  fits : params.length + 2 ≤ CMD_PARAMS_LENGTH

/-- A movement of the text cursor. -/
inductive Movement
  | sequence (s : CursorSequence)
  | carriageReturn
  | tab
  | backspace
  | escape (e : CursorEscape)

namespace Movement

/-- What the host sends. -/
def bytes : Movement → List Byte
  | sequence s => sequenceOf none s.first.1 (s.params.map Subtype.val) s.letter.byte
  | carriageReturn => [0x0D]
  | tab => [0x09]
  | backspace => [0x08]
  | escape e => sequenceOf (some (chr '#')) e.opcode.1 (e.function.1 :: e.params.map Subtype.val) (chr 'G')

/-- The terminal receives the movement. -/
def run (b : Build) (t : Term) (mv : Movement) : Term := gfxTermPutstring b mv.bytes t

/-- The movement puts the saved cell back.  `ESC [ s` does not, and there is nothing to the
left of the first column. -/
def Restores (c : Ctx) : Movement → Prop
  | sequence s => s.letter ≠ .saveCursor
  | backspace => 0 < c.cursorCol
  | carriageReturn | tab | escape _ => True

/-- A row that is recalled lies in the grid. -/
def InGrid (c : Ctx) : Movement → Prop
  | sequence s => s.letter = .restoreCursor → c.savedCursor.1 < c.HEIGHT
  | carriageReturn | tab | backspace | escape _ => True

end Movement

/-- The cursor has gone elsewhere. -/
def Gfx.Relocated (g g' : Gfx) : Prop := ∃ row col : ℕ, (relocate (Ctx.setCursor row col) g).SameScreen g'

/-- A hidden cursor that goes leaves the saved cell behind. -/
theorem data_relocated {g g' : Gfx} (h : g.Relocated g') (hstep : 8 ≤ g.ctx.rowStep)
    (hv : g.ctx.cursorVisible = false) : g'.pix.bus.data = g.logicalScreen := by
  obtain ⟨row, col, hsame⟩ := h
  calc g'.pix.bus.data
      = (gfxTermRenderCursor (g.ctx.setCursor row col) (gfxRestoreCursorContent g.ctx g.pix)).bus.data :=
        hsame.data
    _ = (gfxRestoreCursorContent g.ctx g.pix).bus.data :=
        data_gfxTermRenderCursor_hidden (c := g.ctx.setCursor row col) hv _
    _ = g.logicalScreen := data_gfxRestoreCursorContent hstep g.pix

/-- The screen is what the memory holds if the memory holds the saved cell. -/
theorem logicalScreen_eq_data_iff {g g' : Gfx} (hctx : g'.ctx = g.ctx)
    (hbuffer : g'.pix.cursorBuffer = g.pix.cursorBuffer) :
    g'.logicalScreen = g'.pix.bus.data ↔ ∀ x, g.ctx.InCell x → g'.pix.bus.data x = g.logicalScreen x := by
  constructor
  · intro h x hx
    rw [← congrFun h x]
    simp only [Gfx.logicalScreen, logicalScreen, hctx, hbuffer, if_pos hx]
  · intro h
    funext x
    by_cases hx : g.ctx.InCell x
    · rw [h x hx]
      simp only [Gfx.logicalScreen, logicalScreen, hctx, hbuffer, if_pos hx]
    · simp only [Gfx.logicalScreen, logicalScreen, hctx, if_neg hx]

/-! ## What a movement does -/

section
variable (b : Build) {t : Term} (hs : t.g.ctx.Sized) (hr : t.g.ctx.InRange)
include hs hr

/-- A byte whose operations leave the cursor inside the grid. -/
theorem putByte_ops {ch : Byte} (hG : ¬isGsxCall ch t.scn) {ops : List TextOp}
    (hops : actionOps b ch t.scn t.g.ctx = ops) (hin : (ops.foldl TextOp.ctx t.g.ctx).InRange) :
    (putByte b ch t).g = runOps b ops (t.g.draw dmaWait) := by
  have hact := byteAction_ops b (t := { t with g := t.g.draw dmaWait }) hs hr hG
  rw [putByte]
  dsimp only
  rw [hact]
  change scrollFixup (wrapFixup (runOps b (actionOps b ch t.scn t.g.ctx) (t.g.draw dmaWait))) = _
  rw [hops]
  apply fixups_of_inRange
  rw [ctx_runOps]
  exact hin

/-- A byte that moves the cursor to a place in the grid. -/
theorem sameScreen_move {ch : Byte} (hG : ¬isGsxCall ch t.scn) {row col : ℕ}
    (hops : actionOps b ch t.scn t.g.ctx = [.move row col]) (hrow : row < t.g.ctx.HEIGHT)
    (hcol : col < t.g.ctx.WIDTH) : (relocate (Ctx.setCursor row col) t.g).SameScreen (putByte b ch t).g := by
  have hput := putByte_ops b hs hr hG hops ⟨hrow, hcol⟩
  have hwait : t.g.SameScreen (t.g.draw dmaWait) := ⟨rfl, rfl, rfl⟩
  exact hput ▸ hwait.relocate _

theorem relocated_putByte {ch : Byte} (hG : ¬isGsxCall ch t.scn) {row col : ℕ}
    (hops : actionOps b ch t.scn t.g.ctx = [.move row col]) (hrow : row < t.g.ctx.HEIGHT)
    (hcol : col < t.g.ctx.WIDTH) : t.g.Relocated (putByte b ch t).g :=
  ⟨row, col, sameScreen_move b hs hr hG hops hrow hcol⟩

end

/-- The letters move the cursor to a place in the grid. -/
theorem ansiOps_moves {c : Ctx} (hs : c.Steady) (st : ScnState) {l : CursorLetter} (hl : l ≠ .saveCursor)
    (hgrid : l = .restoreCursor → c.savedCursor.1 < c.HEIGHT) :
    ∃ row col, ansiOps l.byte st c = [.move row col] ∧ row < c.HEIGHT ∧ col < c.WIDTH := by
  have hmove : ∀ row col : ℤ, ∃ r k, [c.moveOp row col] = [TextOp.move r k] ∧ r < c.HEIGHT ∧ k < c.WIDTH := by
    intro row col
    have hin := hs.toSized.moveCursor_inRange row col
    exact ⟨_, _, rfl, hin.row, hin.col⟩
  cases l with
  | saveCursor => exact absurd rfl hl
  | restoreCursor => exact ⟨_, _, rfl, hgrid rfl, hs.savedCol⟩
  | _ => exact hmove _ _

namespace Movement

section
variable (b : Build) {t : Term} (h : t.AtRest) (hs : t.g.ctx.Steady)
include h hs

/-- A control byte that moves the cursor. -/
theorem run_control (mv : Movement) (ch : Byte) (hbytes : cString mv.bytes = [ch]) {row col : ℕ}
    (hctl : isControl ch) (hops : controlOps b ch t.g.ctx = [.move row col]) (hrow : row < t.g.ctx.HEIGHT)
    (hcol : col < t.g.ctx.WIDTH) : t.g.Relocated (mv.run b t).g := by
  have hG : ¬isGsxCall ch t.scn := by
    rintro ⟨-, -, rfl⟩
    exact absurd hctl (by decide)
  have hacts : actionOps b ch t.scn t.g.ctx = [.move row col] := by rw [actionOps, if_pos hctl, hops]
  rw [run, gfxTermPutstring_eq, hbytes]
  exact relocated_putByte b hs.toSized h.inRange hG hacts hrow hcol

omit hs in
/-- A letter acts on the state that the parameters before it leave. -/
theorem run_sequence (s : CursorSequence) : ∃ t' : Term, t.g.SameScreen t'.g ∧
    ¬isGsxCall s.letter.byte t'.scn ∧
      actionOps b s.letter.byte t'.scn t'.g.ctx = ansiOps s.letter.byte t'.scn t.g.ctx ∧
        run b t (.sequence s) = putByte b s.letter.byte t' := by
  have hdigits := s.first.digits s.params
  obtain ⟨hfinal, hP, hLG⟩ : isAnsiLetter s.letter.byte := by cases s.letter <;> decide
  obtain ⟨t', hsame, hat, hmode, -, hread⟩ := reads_sequence b h.inRange h.next (P := none) (Or.inl rfl)
    s.first.1 (s.params.map Subtype.val) hdigits (by rw [List.length_map]; exact s.fits) s.letter.byte
  refine ⟨t', hsame, fun hG => hLG hG.2.2, ?_, ?_⟩
  · rw [actionOps_letter hat hfinal hP b t'.g.ctx (by rw [hmode]; decide), hsame.ctx]
  · rw [run, bytes, putstring_sequenceOf b t (by simp) hdigits hfinal.2.2.2, hread]

/-- `ESC [ s` changes no pixel. -/
theorem run_save (s : CursorSequence) (hsave : s.letter = .saveCursor) :
    (run b t (.sequence s)).g.pix.bus.data = t.g.pix.bus.data := by
  obtain ⟨t', hsame, hG, hacts, hrun⟩ := run_sequence b h s
  rw [hsave] at hG hacts hrun
  have hs' : t'.g.ctx.Sized := by rw [hsame.ctx]; exact hs.toSized
  have hr' : t'.g.ctx.InRange := by rw [hsame.ctx]; exact h.inRange
  have hput := putByte_ops b hs' hr' hG hacts (by rw [hsame.ctx]; exact ⟨h.inRange.row, h.inRange.col⟩)
  rw [hrun, hput]
  exact hsame.data

/-- The other letters move the cursor. -/
theorem run_letter (s : CursorSequence) (hsave : s.letter ≠ .saveCursor) (hgrid : InGrid t.g.ctx (.sequence s)) :
    t.g.Relocated (run b t (.sequence s)).g := by
  obtain ⟨t', hsame, hG, hacts, hrun⟩ := run_sequence b h s
  obtain ⟨row, col, hops, hrow, hcol⟩ := ansiOps_moves hs t'.scn hsave hgrid
  have hs' : t'.g.ctx.Sized := by rw [hsame.ctx]; exact hs.toSized
  have hr' : t'.g.ctx.InRange := by rw [hsame.ctx]; exact h.inRange
  obtain ⟨r, k, hmoved⟩ := relocated_putByte b hs' hr' hG (hacts.trans hops) (by rw [hsame.ctx]; exact hrow)
    (by rw [hsame.ctx]; exact hcol)
  rw [hrun]
  exact ⟨r, k, (hsame.relocate _).trans hmoved⟩

omit h hs in
/-- The functions of the escape opcode that move the cursor. -/
theorem gfxEscape_moves (st : ScnState) (g : Gfx) (hmoves : (st.param 1).toNat ∈ [4, 5, 6, 7, 8, 11]) :
    ∃ row col : ℤ, gfxEscape b st g = gfxTermMoveCursor row col g := by
  rw [gfxEscape]
  generalize (st.param 1).toNat = function at hmoves
  simp only [List.mem_cons, List.not_mem_nil, or_false] at hmoves
  rcases hmoves with rfl | rfl | rfl | rfl | rfl | rfl
  all_goals exact ⟨_, _, rfl⟩

/-- The escapes move the cursor. -/
theorem run_escape (e : CursorEscape) : t.g.Relocated (run b t (.escape e)).g := by
  obtain ⟨st, g, hsame, hdec, hg, -⟩ := putstring_sequence b h.inRange h.next (Or.inr rfl)
    (e.opcode.digits (e.function :: e.params)) (by rw [List.length_map, List.length_cons]; exact e.fits)
    (L := chr 'G') (by decide) (by decide)
  have hfunction : (st.param 1).toNat ∈ [4, 5, 6, 7, 8, 11] := by
    have hmoves := e.moves
    rw [hdec.toNat_param 1 (by decide) (by simp)]
    change decimal e.function.1 % 2 ^ 32 ∈ _
    rwa [Nat.mod_eq_of_lt]
    simp only [List.mem_cons, List.not_mem_nil, or_false] at hmoves
    omega
  obtain ⟨row, col, hmove⟩ := gfxEscape_moves b st g hfunction
  have hin : (g.ctx.moveCursor row col).InRange := by
    rw [hsame.ctx]
    exact hs.toSized.moveCursor_inRange row col
  rw [finalLetterAction_escape b hdec e.escape g, hmove, fixups_of_inRange hin] at hg
  change t.g.Relocated (gfxTermPutstring b (bytes (.escape e)) t).g
  have hbytes : bytes (.escape e) = sequenceOf (some (chr '#')) e.opcode.1
    ((e.function :: e.params).map Subtype.val) (chr 'G') := rfl
  rw [hbytes, hg]
  exact ⟨_, _, (hsame.relocate (Ctx.moveCursor row col)).trans ⟨rfl, rfl, rfl⟩⟩

/-- A movement that restores moves the cursor. -/
theorem relocated_run (mv : Movement) (hgrid : mv.InGrid t.g.ctx) (hrestores : mv.Restores t.g.ctx) :
    t.g.Relocated (mv.run b t).g := by
  have hrow := h.inRange.row; have hcol := h.inRange.col
  cases mv with
  | sequence s => exact run_letter b h hs s hrestores hgrid
  | carriageReturn => exact run_control b h hs _ 0x0D rfl (by decide) rfl hrow (Nat.zero_lt_of_lt hcol)
  | tab => exact run_control b h hs _ 0x09 rfl (by decide) rfl hrow (by omega)
  | backspace =>
      have hops : controlOps b 0x08 t.g.ctx = [.move t.g.ctx.cursorRow (t.g.ctx.cursorCol - 1)] :=
        if_pos hrestores
      exact run_control b h hs _ 0x08 rfl (by decide) hops hrow (by omega)
  | escape e => exact run_escape b h hs e

/-- The others change no pixel. -/
theorem data_run (mv : Movement) (hrestores : ¬mv.Restores t.g.ctx) :
    (mv.run b t).g.pix.bus.data = t.g.pix.bus.data := by
  cases mv with
  | sequence s => exact run_save b h hs s (by_contra hrestores)
  | backspace =>
      have hG : ¬isGsxCall 0x08 t.scn := fun hG => absurd hG.2.2 (by decide)
      have hops : actionOps b 0x08 t.scn t.g.ctx = [] := if_neg hrestores
      have hput := putByte_ops b hs.toSized h.inRange hG hops ⟨h.inRange.row, h.inRange.col⟩
      change (putByte b 0x08 t).g.pix.bus.data = _
      rw [hput]
      rfl
  | carriageReturn | tab | escape e => exact absurd trivial hrestores

end

end Movement

/-! ## Runs -/

/-- No call changes the pitch. -/
theorem pitch_call (b : Build) (t : Term) (call : Call) : (call.run b t).g.ctx.Pitch = t.g.ctx.Pitch := by
  have hbytes : (call.run b t).g.ctx.Pitch = (call.prepare b t).g.ctx.Pitch := by
    rw [Call.run_eq]
    exact congrArg Geometry.Pitch (geometry_runBytes b _ _)
  rw [hbytes]
  cases call with
  | putstring str => rfl
  | toggleLines => rfl
  | toggleFontHeight =>
      change (gfxToggleFontHeight b t.g).ctx.Pitch = _
      rw [gfxToggleFontHeight]
      split
      · rfl
      · split
        · rfl
        · rfl

/-- **Graphics survive a movement of the hidden cursor** exactly if the movement puts no
cell back, or the drawing commands have left the cell at the cursor as it was saved. -/
theorem movement_keeps_iff (b : Build) (pFramebuffer : ℤ) (width height pitch size : ℕ) (data : ℤ → Byte)
    (hw : 8 ≤ width) (hw' : width < 2 ^ 31) (hh : 32 ≤ height) (hh' : height < 2 ^ 31) (hp : 8 ≤ pitch)
    (calls : List Call) (hu : AlongCalls b RecallInRange
      (Term.start b pFramebuffer width height pitch size data) calls) :
    let t := calls.foldl (Call.run b) (Term.start b pFramebuffer width height pitch size data)
    t.scn.next = .normaltext → t.g.ctx.cursorVisible = false →
      ∀ (ds : List Drawing) (mv : Movement), mv.InGrid t.g.ctx →
        let t' := ds.foldl (Drawing.run b) t
        (mv.run b t').g.pix.bus.data = t'.g.pix.bus.data ↔
          ¬mv.Restores t.g.ctx ∨ ∀ x, t.g.ctx.InCell x → t'.g.pix.bus.data x = t.g.logicalScreen x := by
  intro t hn hv ds mv hgrid t'
  have hsteady : t.Steady := hu.invariant (I := Term.Steady) (fun _ _ hs hc => steady_call b hs hc)
    (steady_start b pFramebuffer pitch size data hw hw' hh hh')
  have hpitch : t.g.ctx.Pitch = pitch := foldl_invariant (I := fun t : Term => t.g.ctx.Pitch = pitch)
    (fun s call h => (pitch_call b s call).trans h) _ calls rfl
  have hrest : t.AtRest := ⟨hsteady.ctx.toInRange, hn, by omega⟩
  obtain ⟨hrest', hctx, hbuffer⟩ := Drawing.run_all b hrest ds
  change t'.AtRest at hrest'
  change t'.g.ctx = t.g.ctx at hctx
  have hsteady' : t'.g.ctx.Steady := by rw [hctx]; exact hsteady.ctx
  have hgrid' : mv.InGrid t'.g.ctx := by rw [hctx]; exact hgrid
  by_cases hrestores : mv.Restores t.g.ctx
  · have hmoved := mv.relocated_run b hrest' hsteady' hgrid' (by rw [hctx]; exact hrestores)
    have hdata := data_relocated hmoved hrest'.rowStep (by rw [hctx]; exact hv)
    rw [hdata, logicalScreen_eq_data_iff hctx hbuffer]
    simp [hrestores]
  · have hdata := mv.data_run b hrest' hsteady' (by rw [hctx]; exact hrestores)
    simp [hdata, hrestores]

/-! ## A line at the cursor, and one beside it -/

/-- `ESC [ # 1 ; .. G` with lines of colour 15. -/
def openWorkstation : Call := .putstring (text "\x1b[#1;0;1;15;0;0;0;0;0;0;0G")

/-- A line in the first row of pixels. -/
def Drawing.stroke (x x' : Numeral) : Drawing where
  opcode := ⟨text "6", by decide⟩
  params := [⟨text "2", by decide⟩, x, ⟨text "0", by decide⟩, x', ⟨text "0", by decide⟩]
  draws := by decide
  fits := by simp [CMD_PARAMS_LENGTH]

/-- `ESC [ C` -/
def Movement.rightOne : Movement := .sequence ⟨.right, ⟨[], by decide⟩, [], by decide⟩

/-- A line in the second column survives. -/
theorem movement_keeps_iff_apart :
    let t := [openWorkstation].foldl (Call.run .shipped) (Term.start .shipped 0 16 32 16 512 fun _ => 0)
    let t' := [Drawing.stroke ⟨text "8", by decide⟩ ⟨text "15", by decide⟩].foldl (Drawing.run .shipped) t
    (Movement.rightOne.run .shipped t').g.pix.bus.data = t'.g.pix.bus.data := by
  intro t t'
  have hkeeps : (Movement.rightOne.run .shipped t').g.pix.bus.data = t'.g.pix.bus.data ↔
      ¬Movement.rightOne.Restores t.g.ctx ∨
        ∀ x, t.g.ctx.InCell x → t'.g.pix.bus.data x = t.g.logicalScreen x :=
    movement_keeps_iff .shipped 0 16 32 16 512 (fun _ => 0) (by decide) (by decide) (by decide) (by decide)
      (by decide) [openWorkstation] (by decide) (by decide) (by decide +kernel)
      [.stroke ⟨text "8", by decide⟩ ⟨text "15", by decide⟩] .rightOne (fun h => absurd h (by decide))
  have hcell : ∀ i < t.g.ctx.fontHeight, ∀ j < 8,
      t'.g.pix.bus.data (t.g.ctx.cursorAddr + (i : ℕ) * t.g.ctx.rowStep + (j : ℕ)) =
        t.g.logicalScreen (t.g.ctx.cursorAddr + (i : ℕ) * t.g.ctx.rowStep + (j : ℕ)) := by
    decide +kernel
  apply hkeeps.mpr
  right
  intro x hx
  obtain ⟨i, hi, j, hj, hx⟩ := (Ctx.inCell_iff (c := t.g.ctx) (by decide +kernel) x).mp hx
  rw [hx]
  exact hcell i hi j hj

/-- A line in the first column does not. -/
theorem movement_erases_line :
    let t := [openWorkstation].foldl (Call.run .shipped) (Term.start .shipped 0 16 32 16 512 fun _ => 0)
    let t' := [Drawing.stroke ⟨text "0", by decide⟩ ⟨text "8", by decide⟩].foldl (Drawing.run .shipped) t
    t.scn.next = .normaltext ∧ t.g.ctx.cursorVisible = false ∧ t'.g.pix.bus.data 128 = 15 ∧
      (Movement.rightOne.run .shipped t').g.pix.bus.data 128 = 0 := by
  decide +kernel

end Pigfx
