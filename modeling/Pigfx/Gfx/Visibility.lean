import Pigfx.Gfx.Hidden
import Pigfx.Gfx.CursorRange

/-!
# Showing and hiding the cursor

Four commands change the visibility of the cursor: `ESC [ ? 25 h` and `ESC [ ? 25 l`, and
the GSX escapes 2 and 3.  One of them puts the cell under the cursor back, the other three
render the cursor, which saves whatever is in memory at that moment.  So the content of
the cell outlives a command that renders exactly if the cell was bare.

## Main definitions

* `Gfx.SameScreen`, `putstring_sequence` — a sequence is its letter.
* `VisibilityCommand` — the four commands, as the terminal receives them.
* `Gfx.Bare` — no cursor is drawn over the cell.
* `Gfx.Keeps` — the cursor buffer and the next movement know the content of the cell.
* `visibility_keeps_iff` — sequences of commands.
-/

namespace Pigfx
open Lib

/-! ## Bytes that draw nothing -/

/-- The memory and what the cursor needs of it are the same. -/
structure Gfx.SameScreen (g g' : Gfx) : Prop where
  ctx : g'.ctx = g.ctx
  buffer : g'.pix.cursorBuffer = g.pix.cursorBuffer
  data : g'.pix.bus.data = g.pix.bus.data

namespace Gfx.SameScreen

variable {g g' g'' : Gfx}

theorem refl (g : Gfx) : g.SameScreen g := ⟨rfl, rfl, rfl⟩

theorem symm (h : g.SameScreen g') : g'.SameScreen g := ⟨h.ctx.symm, h.buffer.symm, h.data.symm⟩

theorem trans (h : g.SameScreen g') (h' : g'.SameScreen g'') : g.SameScreen g'' :=
  ⟨h'.ctx.trans h.ctx, h'.buffer.trans h.buffer, h'.data.trans h.data⟩

theorem logicalScreen (h : g.SameScreen g') : g'.logicalScreen = g.logicalScreen := by
  funext x
  simp only [Gfx.logicalScreen, Pigfx.logicalScreen, h.ctx, h.buffer, h.data]

end Gfx.SameScreen

theorem Gfx.not_sameScreen {g g' : Gfx} (x : ℤ) (h : g.pix.bus.data x ≠ g'.pix.bus.data x) : ¬g.SameScreen g' :=
  fun hsame => h (congrFun hsame.data x).symm

/-- A cursor inside the grid needs no fix-up. -/
theorem fixups_of_inRange {g : Gfx} (hr : g.ctx.InRange) : scrollFixup (wrapFixup g) = g := by
  have hrow := hr.row; have hcol := hr.col
  rw [wrapFixup, if_neg (by omega), scrollFixup, if_neg (by omega)]

section Sequence
variable (b : Build) {t : Term}

/-- The byte is read, and nothing else happens. -/
theorem sameScreen_putByte (hr : t.g.ctx.InRange) {ch : Byte}
    (hact : (byteAction b ch { t with g := t.g.draw dmaWait }).g = t.g.draw dmaWait) :
    t.g.SameScreen (putByte b ch t).g := by
  have hput : (putByte b ch t).g = t.g.draw dmaWait := by
    rw [putByte]
    dsimp only
    rw [hact]
    exact fixups_of_inRange hr
  rw [hput]
  exact ⟨rfl, rfl, rfl⟩

/-- A digit or a separator changes the scanner only. -/
theorem byteAction_parameter (hat : atLetter t.scn) {ch : Byte} (hch : isParameter ch) :
    (byteAction b ch t).g = t.g := by
  rw [byteAction, if_neg (by simp [not_isControl_parameter hch]), dispatch]
  rcases hat with hn | hn <;> rw [hn]
  · simp only [stateFunSelectescape]
    rcases hch with h | rfl
    · rw [if_pos h]
      rfl
    · rfl
  · simp only [stateFunReadDigit]
    rcases hch with h | rfl
    · rw [if_pos h]
      rfl
    · rfl

/-- So does the escape character, -/
theorem byteAction_escape (hn : t.scn.next = .normaltext) : (byteAction b TERM_ESCAPE_CHAR t).g = t.g := by
  rw [byteAction, if_neg (by decide), dispatch, hn]
  rfl

/-- and the bracket behind it. -/
theorem byteAction_bracket (hn : t.scn.next = .waitsquarebracket) : (byteAction b (chr '[') t).g = t.g := by
  rw [byteAction, if_neg (by decide), dispatch, hn]
  rfl

theorem sameScreen_parameter (hr : t.g.ctx.InRange) (hat : atLetter t.scn) {ch : Byte} (hch : isParameter ch) :
    t.g.SameScreen (putByte b ch t).g ∧ atLetter (putByte b ch t).scn := by
  constructor
  · exact sameScreen_putByte b hr (byteAction_parameter b (t := { t with g := t.g.draw dmaWait }) hat hch)
  · rw [putByte_scn]
    exact Or.inr (next_scan_parameter hch hat)

theorem sameScreen_parameters (bytes : List Byte) (hb : ∀ ch ∈ bytes, isParameter ch)
    (hr : t.g.ctx.InRange) (hat : atLetter t.scn) :
    t.g.SameScreen (runBytes b t bytes).g ∧ atLetter (runBytes b t bytes).scn := by
  induction bytes generalizing t with
  | nil => exact ⟨.refl _, hat⟩
  | cons ch bytes ih =>
      obtain ⟨hg, hat'⟩ := sameScreen_parameter b hr hat (hb ch List.mem_cons_self)
      have hr' : (putByte b ch t).g.ctx.InRange := by rw [hg.ctx]; exact hr
      have hrest := ih (fun x hx => hb x (List.mem_cons_of_mem _ hx)) hr' hat'
      exact ⟨hg.trans hrest.1, hrest.2⟩

/-- `ESC [` -/
theorem sameScreen_opened (hr : t.g.ctx.InRange) (hn : t.scn.next = .normaltext) :
    t.g.SameScreen (runBytes b t [TERM_ESCAPE_CHAR, chr '[']).g ∧
      (runBytes b t [TERM_ESCAPE_CHAR, chr '[']).scn.next = .selectescape := by
  change t.g.SameScreen (putByte b (chr '[') (putByte b TERM_ESCAPE_CHAR t)).g ∧
    (putByte b (chr '[') (putByte b TERM_ESCAPE_CHAR t)).scn.next = .selectescape
  have h₁ : t.g.SameScreen (putByte b TERM_ESCAPE_CHAR t).g :=
    sameScreen_putByte b hr (byteAction_escape b (t := { t with g := t.g.draw dmaWait }) hn)
  have hn₁ : (putByte b TERM_ESCAPE_CHAR t).scn.next = .waitsquarebracket := by
    rw [putByte_scn, scan, if_neg (by decide), scanText, hn]
    rfl
  have hr₁ : (putByte b TERM_ESCAPE_CHAR t).g.ctx.InRange := by rw [h₁.ctx]; exact hr
  generalize putByte b TERM_ESCAPE_CHAR t = t₁ at *
  have h₂ : t₁.g.SameScreen (putByte b (chr '[') t₁).g :=
    sameScreen_putByte b hr₁ (byteAction_bracket b (t := { t₁ with g := t₁.g.draw dmaWait }) hn₁)
  constructor
  · exact h₁.trans h₂
  · rw [putByte_scn, scan, if_neg (by decide), scanText, hn₁]
    rfl

/-- The prefix character. -/
theorem sameScreen_prefix (hr : t.g.ctx.InRange) (hn : t.scn.next = .selectescape) {P : Option Byte}
    (hP : P = none ∨ P = some (chr '?') ∨ P = some (chr '#')) :
    t.g.SameScreen (runBytes b t P.toList).g ∧ atLetter (runBytes b t P.toList).scn := by
  rcases hP with rfl | rfl | rfl
  · exact ⟨.refl _, Or.inl hn⟩
  all_goals
    constructor
    · apply sameScreen_putByte b hr
      rw [byteAction, if_neg (by decide), dispatch, hn]
      rfl
    · change atLetter (putByte b _ t).scn
      rw [putByte_scn, scan, if_neg (by decide), scanText, hn]
      exact Or.inr rfl

/-- Reading a sequence up to its letter changes the scanner only. -/
theorem reads_sequence (hr : t.g.ctx.InRange) (hn : t.scn.next = .normaltext) {P : Option Byte}
    (hP : P = none ∨ P = some (chr '?') ∨ P = some (chr '#')) (d : List Byte) (ds : List (List Byte))
    (hd : ∀ e ∈ d :: ds, ∀ x ∈ e, isDigit x) (hlen : ds.length + 1 ≤ CMD_PARAMS_LENGTH) (L : Byte) :
    ∃ t' : Term, t.g.SameScreen t'.g ∧ atLetter t'.scn ∧ t'.scn.privateModeChar = P.getD 0 ∧
      (¬(P = none ∧ d = [] ∧ ds = []) → Decoded P (d :: ds) t'.scn) ∧
        runBytes b t (sequenceOf P d ds L) = putByte b L t' := by
  obtain ⟨hopened, hn'⟩ := sameScreen_opened b hr hn
  have hscn : (runBytes b t [TERM_ESCAPE_CHAR, chr '[']).scn = t.scn.opened := by
    rw [scn_runBytes, foldl_opened hn]
  have hread := runBytes_sequence b t P d ds L
  generalize runBytes b t [TERM_ESCAPE_CHAR, chr '['] = t₁ at *
  have hr₁ : t₁.g.ctx.InRange := by rw [hopened.ctx]; exact hr
  obtain ⟨hlead, hat⟩ := sameScreen_prefix b hr₁ hn' hP
  have hr₂ : (runBytes b t₁ P.toList).g.ctx.InRange := by rw [hlead.ctx]; exact hr₁
  obtain ⟨hbody, hat'⟩ := sameScreen_parameters b _ (isParameter_body hd) hr₂ hat
  have hmode : t₁.scn.privateModeChar = 0 := by rw [hscn]; rfl
  -- the automaton alone decides what has been decoded
  have hdec : ¬(P = none ∧ d = [] ∧ ds = []) → Decoded P (d :: ds)
      (runBytes b (runBytes b t₁ P.toList) (d ++ ds.flatMap fun e => chr ';' :: e)).scn := by
    intro hne
    rw [← runBytes_append, scn_runBytes, ← List.append_assoc]
    exact (decoded_body hn' hmode hP d ds hd hlen hne []).1
  refine ⟨_, (hopened.trans hlead).trans hbody, hat', ?_, hdec, hread⟩
  by_cases hnone : P = none ∧ d = [] ∧ ds = []
  · obtain ⟨rfl, rfl, rfl⟩ := hnone
    exact hmode
  · exact (hdec hnone).mode

/-- The letter acts, and ends the sequence. -/
theorem putByte_final (hat : atLetter t.scn) {L : Byte} (hL : isFinal L) (hP : L ≠ chr '?' ∧ L ≠ chr '#') :
    (putByte b L t).g = scrollFixup (wrapFixup (finalLetterAction b L t.scn (t.g.draw dmaWait))) ∧
      (putByte b L t).scn.next = .normaltext := by
  constructor
  · have hact := byteAction_letter hat hL hP b (t := { t with g := t.g.draw dmaWait }) rfl
    rw [putByte]
    dsimp only
    rw [hact]
  · rw [putByte_scn, scan_letter hat hL hP]
    rfl

/-- **A sequence with a prefix** is its letter, which acts on the parameters that the
scanner has decoded. -/
theorem putstring_sequence (hr : t.g.ctx.InRange) (hn : t.scn.next = .normaltext) {p : Byte}
    (hp : p = chr '?' ∨ p = chr '#') {d : List Byte} {ds : List (List Byte)}
    (hd : ∀ e ∈ d :: ds, ∀ x ∈ e, isDigit x) (hlen : ds.length + 1 ≤ CMD_PARAMS_LENGTH) {L : Byte}
    (hL : isFinal L) (hP : L ≠ chr '?' ∧ L ≠ chr '#') :
    let t' := gfxTermPutstring b (sequenceOf (some p) d ds L) t
    ∃ st g, t.g.SameScreen g ∧ Decoded (some p) (d :: ds) st ∧
      t'.g = scrollFixup (wrapFixup (finalLetterAction b L st g)) ∧ t'.scn.next = .normaltext := by
  intro t'
  obtain ⟨t₁, hsame, hat, -, hdec, hread⟩ := reads_sequence b hr hn (P := some p)
    (Or.inr (hp.imp (congrArg some) (congrArg some))) d ds hd hlen L
  have hprefix : ∀ q ∈ some p, q ≠ 0 := by
    intro q hq
    cases hq
    rcases hp with rfl | rfl <;> decide
  have hall : t' = putByte b L t₁ := (putstring_sequenceOf b t hprefix hd hL.2.2.2).trans hread
  obtain ⟨hg, hnext⟩ := putByte_final b hat hL hP
  rw [hall]
  exact ⟨t₁.scn, t₁.g.draw dmaWait, hsame.trans ⟨rfl, rfl, rfl⟩, hdec (by simp), hg, hnext⟩

/-- The letter of an escape. -/
theorem finalLetterAction_escape {opc : List Byte} {ds : List (List Byte)} {st : ScnState}
    (h : Decoded (some (chr '#')) (opc :: ds) st) (hopc : decimal opc = OPC_ESCAPE) (g : Gfx) :
    finalLetterAction b (chr 'G') st g = (gfxEscape b st g).uartWrite [chr 'G'] := by
  have hsize : st.cmdParamsSize > 0 := by rw [h.size]; simp
  have hvalue : (st.param 0).toNat = OPC_ESCAPE := by
    rw [h.toNat_param 0 (by decide) (by simp)]
    change decimal opc % 2 ^ 32 = _
    rw [hopc]
    rfl
  have hcommand : gsxCommand b st g = (gfxEscape b st g, true) := by
    rw [gsxCommand, hvalue]
    change (if st.cmdParamsSize > 0 then gfxEscape b st g else g, true) = _
    rw [if_pos hsize]
  rw [finalLetterAction, if_pos ⟨h.mode, rfl⟩, gsxCall, if_pos hsize, hcommand]
  rfl

end Sequence

/-! ## The commands -/

/-- The commands that show or hide the cursor. -/
inductive VisibilityCommand
  | showCursor
  | hideCursor
  | textCursorOff
  | textCursorOn
  deriving DecidableEq, Repr

namespace VisibilityCommand

/-- What the host sends: `ESC [ ? 25 h`, `ESC [ ? 25 l`, and the GSX escapes. -/
def bytes : VisibilityCommand → List Byte
  | showCursor => text "\x1b[?25h"
  | hideCursor => text "\x1b[?25l"
  | textCursorOff => text "\x1b[#5;2G"
  | textCursorOn => text "\x1b[#5;3G"

/-- The terminal receives the command. -/
def run (b : Build) (t : Term) (v : VisibilityCommand) : Term := gfxTermPutstring b v.bytes t

/-- The visibility it asks for. -/
def visible : VisibilityCommand → Bool
  | showCursor | textCursorOn => true
  | hideCursor | textCursorOff => false

/-- What the command does to the global state. -/
def act (g : Gfx) : VisibilityCommand → Gfx
  | hideCursor => (gfxTermSetCursorVisibility false g).restoreContent
  | v => (gfxTermSetCursorVisibility v.visible g).renderCursor

theorem ctx_act (v : VisibilityCommand) (g : Gfx) : (v.act g).ctx = g.ctx.setVisible v.visible := by
  cases v <;> rfl

/-- A command that is a letter after a prefix and parameters acts once, between bytes that
draw nothing. -/
theorem run_letter (b : Build) {t : Term} (hr : t.g.ctx.InRange) (hn : t.scn.next = .normaltext)
    (v : VisibilityCommand) {p L : Byte} (hp : p = chr '?' ∨ p = chr '#') (d : List Byte)
    (ds : List (List Byte)) (hd : ∀ e ∈ d :: ds, ∀ x ∈ e, isDigit x)
    (hlen : ds.length + 1 ≤ CMD_PARAMS_LENGTH) (hL : isFinal L) (hP : L ≠ chr '?' ∧ L ≠ chr '#')
    (hbytes : v.bytes = sequenceOf (some p) d ds L)
    (hact : ∀ st g, Decoded (some p) (d :: ds) st → (v.act g).SameScreen (finalLetterAction b L st g)) :
    ∃ g, t.g.SameScreen g ∧ (v.act g).SameScreen (v.run b t).g ∧ (v.run b t).scn.next = .normaltext := by
  obtain ⟨st, g, hsame, hdec, hg, hnext⟩ := putstring_sequence b hr hn hp hd hlen hL hP
  have hfin := hact st g hdec
  have hin : (finalLetterAction b L st g).ctx.InRange := by
    rw [hfin.ctx, ctx_act, hsame.ctx]
    exact ⟨hr.row, hr.col⟩
  rw [fixups_of_inRange hin] at hg
  rw [run, hbytes, hg]
  exact ⟨g, hsame, hfin, hnext⟩

/-- The `'h'` and `'l'` cases with the parameter 25. -/
theorem cursorMode_of_decoded (b : Build) {st : ScnState} (h : Decoded (some (chr '?')) [text "25"] st)
    (L : Byte) (g : Gfx) : st.isCursorMode ∧ finalLetterAction b L st g = ansiAction b L st g := by
  have hvalue : st.param 0 = 25 := by
    rw [ScnState.param_of_lt (by decide)]
    exact h.value 0 (by decide)
  have hmode : st.privateModeChar = chr '?' := h.mode
  have hsize := h.size
  have hprivate : st.privateModeChar ≠ chr '#' := by rw [hmode]; decide
  constructor
  · simp [ScnState.isCursorMode, hvalue, hmode, hsize]
  · simp [finalLetterAction, hprivate]

section Command
variable (b : Build) {t : Term} (hr : t.g.ctx.InRange) (hn : t.scn.next = .normaltext)
  (v : VisibilityCommand)
include hr hn

/-- `ESC [ ? 25` and a letter. -/
theorem run_cursorMode {L : Byte} (hL : isFinal L) (hP : L ≠ chr '?' ∧ L ≠ chr '#')
    (hbytes : v.bytes = sequenceOf (some (chr '?')) (text "25") [] L)
    (hact : ∀ (st : ScnState) (g : Gfx), st.isCursorMode → ansiAction b L st g = v.act g) :
    ∃ g, t.g.SameScreen g ∧ (v.act g).SameScreen (v.run b t).g ∧ (v.run b t).scn.next = .normaltext := by
  refine run_letter b hr hn v (Or.inl rfl) (text "25") [] (by decide) (by decide) hL hP hbytes ?_
  intro st g hdec
  obtain ⟨hmode, hletter⟩ := cursorMode_of_decoded b hdec L g
  rw [hletter, hact st g hmode]
  exact .refl _

/-- The escape opcode with the function `e`. -/
theorem run_gsxEscape {e : Byte} (he : isDigit e)
    (hbytes : v.bytes = sequenceOf (some (chr '#')) (text "5") [[e]] (chr 'G'))
    (hact : ∀ (st : ScnState) (g : Gfx), (st.param 1).toNat = e.toNat - 48 → gfxEscape b st g = v.act g) :
    ∃ g, t.g.SameScreen g ∧ (v.act g).SameScreen (v.run b t).g ∧ (v.run b t).scn.next = .normaltext := by
  have hdigits : ∀ d ∈ [text "5", [e]], ∀ x ∈ d, isDigit x := by
    intro d hd x hx
    rcases List.mem_cons.mp hd with rfl | hd
    · exact (by decide : ∀ x ∈ text "5", isDigit x) x hx
    · rw [List.mem_singleton.mp hd, List.mem_singleton] at hx
      rwa [hx]
  refine run_letter b hr hn v (Or.inr rfl) (text "5") [[e]] hdigits (by simp [CMD_PARAMS_LENGTH])
    (by decide) (by decide) hbytes ?_
  intro st g hdec
  have hparam : (st.param 1).toNat = e.toNat - 48 := by
    have hdig := isDigit_range he
    rw [hdec.toNat_param 1 (by decide) (by simp)]
    change decimal [e] % 2 ^ 32 = _
    rw [decimal, List.foldl_cons, List.foldl_nil]
    omega
  rw [finalLetterAction_escape b hdec rfl g, hact st g hparam]
  exact ⟨rfl, rfl, rfl⟩

/-- **A command acts once.** -/
theorem run_act :
    ∃ g, t.g.SameScreen g ∧ (v.act g).SameScreen (v.run b t).g ∧ (v.run b t).scn.next = .normaltext := by
  cases v with
  | showCursor =>
      exact run_cursorMode b hr hn _ (L := chr 'h') (by decide) (by decide) rfl
        fun _ _ hmode => if_pos hmode
  | hideCursor =>
      exact run_cursorMode b hr hn _ (L := chr 'l') (by decide) (by decide) rfl
        fun _ _ hmode => if_pos hmode
  | textCursorOff =>
      refine run_gsxEscape b hr hn _ (e := chr '2') (by decide) rfl fun st g hparam => ?_
      rw [gfxEscape, hparam]
      rfl
  | textCursorOn =>
      refine run_gsxEscape b hr hn _ (e := chr '3') (by decide) rfl fun st g hparam => ?_
      rw [gfxEscape, hparam]
      rfl

end Command

end VisibilityCommand

/-! ## The content of the cell -/

/-- No cursor is drawn over its cell: the cell in memory is what the cursor buffer holds. -/
def Gfx.Bare (g : Gfx) : Prop := g.logicalScreen = g.pix.bus.data

/-- The cursor buffer and the memory around the cell make up the screen `d`, and so the next
movement leaves the content of `d` in the cell that it vacates. -/
structure Gfx.Keeps (d : ℤ → Byte) (g : Gfx) : Prop where
  screen : g.logicalScreen = d
  vacated : ∀ row col x, g.ctx.InCell x → ¬(gfxTermMoveCursor row col g).ctx.InCell x →
    (gfxTermMoveCursor row col g).pix.bus.data x = d x

/-- What the next movement leaves is what the cursor buffer holds. -/
theorem Gfx.keeps_iff {g : Gfx} (hstep : 8 ≤ g.ctx.rowStep) {d : ℤ → Byte} :
    g.Keeps d ↔ g.logicalScreen = d := by
  refine ⟨Gfx.Keeps.screen, fun h => ⟨h, ?_⟩⟩
  intro row col x _ hx
  have hrestored := data_gfxRestoreCursorContent hstep g.pix
  have hrendered := saved_gfxTermRenderCursor (c := g.ctx.moveCursor row col) hstep
    (gfxRestoreCursorContent g.ctx g.pix)
  rw [← h]
  exact (hrendered.outside x fun i hi => not_inCell_line (c := g.ctx.moveCursor row col) hstep hx hi).trans
    (congrFun hrestored x)

/-- The terminal is in normal text, and its cursor inside the grid. -/
structure Term.AtRest (t : Term) : Prop where
  inRange : t.g.ctx.InRange
  next : t.scn.next = .normaltext
  /-- A line of a cell fits a line of the frame buffer. -/
  pitch : 8 ≤ t.g.ctx.Pitch

theorem Term.AtRest.rowStep {t : Term} (h : t.AtRest) : 8 ≤ t.g.ctx.rowStep := by
  have hP := h.pitch
  rw [Ctx.rowStep_eq]
  omega

namespace VisibilityCommand

/-- The command keeps the content of the cell: it puts it back, or finds the cell bare. -/
def Clean (t : Term) (v : VisibilityCommand) : Prop := v = .hideCursor ∨ t.g.Bare

section Act
variable {g : Gfx} (hstep : 8 ≤ g.ctx.rowStep) (v : VisibilityCommand)
include hstep

/-- Three commands take what is in memory for the content of the cell. -/
theorem logicalScreen_act :
    (v.act g).logicalScreen = if v = .hideCursor then g.logicalScreen else g.pix.bus.data := by
  have hrender : ∀ w, (gfxTermSetCursorVisibility w g).renderCursor.logicalScreen = g.pix.bus.data :=
    fun w => logicalScreen_gfxTermRenderCursor (c := g.ctx.setVisible w) hstep g.pix
  cases v with
  | hideCursor =>
      have hhidden := hidden_visible_false hstep .shipped
      exact hhidden.synced.trans (data_gfxRestoreCursorContent hstep g.pix)
  | _ => exact hrender _

/-- A command that hides the cursor leaves its cell bare. -/
theorem bare_act (hv : v.visible = false) : (v.act g).Bare := by
  cases v with
  | hideCursor => exact (hidden_visible_false hstep .shipped).synced
  | textCursorOff => exact (draws_render (c := g.ctx.setVisible false) hstep rfl g.pix).1.synced
  | showCursor | textCursorOn => exact absurd hv (by decide)

end Act

section Run
variable (b : Build) {t : Term} (h : t.AtRest) (v : VisibilityCommand)
include h

/-- **What a command does.**  It changes the visibility alone, and the screen as
`logicalScreen_act` says. -/
theorem run_spec : (v.run b t).AtRest ∧ (v.run b t).g.ctx = t.g.ctx.setVisible v.visible ∧
    (v.run b t).g.logicalScreen = (if v = .hideCursor then t.g.logicalScreen else t.g.pix.bus.data) ∧
      (v.visible = false → (v.run b t).g.Bare) := by
  obtain ⟨g, hsame, hact, hnext⟩ := v.run_act b h.inRange h.next
  have hctx : (v.run b t).g.ctx = t.g.ctx.setVisible v.visible := by rw [hact.ctx, ctx_act, hsame.ctx]
  have hstep : 8 ≤ g.ctx.rowStep := by rw [hsame.ctx]; exact h.rowStep
  refine ⟨⟨?_, hnext, ?_⟩, hctx, ?_, fun hv => ?_⟩
  · rw [hctx]
    exact ⟨h.inRange.row, h.inRange.col⟩
  · rw [hctx]
    exact h.pitch
  · rw [hact.logicalScreen, logicalScreen_act hstep, hsame.logicalScreen, hsame.data]
  · rw [Gfx.Bare, hact.logicalScreen, hact.data]
    exact bare_act hstep v hv

/-- One command keeps the screen exactly if it is clean. -/
theorem screen_run_iff : (v.run b t).g.logicalScreen = t.g.logicalScreen ↔ v.Clean t := by
  rw [(run_spec b h v).2.2.1, Clean, Gfx.Bare]
  by_cases hv : v = .hideCursor
  · simp [hv]
  · rw [if_neg hv, or_iff_right hv, eq_comm]

end Run

/-- Every state of a run keeps the screen exactly if every command is clean. -/
theorem keeps_run_iff (b : Build) {d : ℤ → Byte} (cmds : List VisibilityCommand) {t : Term} (h : t.AtRest)
    (hd : t.g.logicalScreen = d) :
    (∀ pre, pre <+: cmds → (pre.foldl (run b) t).g.Keeps d) ↔ Along (run b) (fun t v => v.Clean t) t cmds := by
  have hnow : t.g.Keeps d := (Gfx.keeps_iff h.rowStep).mpr hd
  induction cmds generalizing t with
  | nil =>
      simp only [List.prefix_nil, along_nil, iff_true]
      rintro pre rfl
      exact hnow
  | cons v cmds ih =>
      have h' := (run_spec b h v).1
      constructor
      · intro hall
        have hone : (v.run b t).g.logicalScreen = d := (hall [v] ⟨cmds, rfl⟩).screen
        refine ⟨(screen_run_iff b h v).mp (hone.trans hd.symm), ?_⟩
        refine (ih h' hone ((Gfx.keeps_iff h'.rowStep).mpr hone)).mp fun pre hpre => ?_
        exact hall (v :: pre) ((List.prefix_cons_inj v).mpr hpre)
      · rintro ⟨hclean, hrest⟩ pre hpre
        have hone := ((screen_run_iff b h v).mpr hclean).trans hd
        rcases List.prefix_cons_iff.mp hpre with rfl | ⟨tail, rfl, htail⟩
        · exact hnow
        · exact (ih h' hone ((Gfx.keeps_iff h'.rowStep).mpr hone)).mpr hrest tail htail

/-- A hidden cursor is bare all along. -/
theorem clean_of_hidden (b : Build) {t : Term} (h : t.AtRest) (hbare : t.g.ctx.cursorVisible = false → t.g.Bare)
    {cmds : List VisibilityCommand}
    (hrun : Along (run b) (fun t v => v = .hideCursor ∨ t.g.ctx.cursorVisible = false) t cmds) :
    Along (run b) (fun t v => v.Clean t) t cmds := by
  refine hrun.mono (I := fun t => t.AtRest ∧ (t.g.ctx.cursorVisible = false → t.g.Bare)) ?_ ?_ ⟨h, hbare⟩
  · rintro t v ⟨h, -⟩ -
    obtain ⟨h', hctx, -, hbare'⟩ := run_spec b h v
    refine ⟨h', fun hv => hbare' ?_⟩
    rw [hctx] at hv
    exact hv
  · rintro t v ⟨-, hbare⟩ hv
    exact hv.imp_right hbare

end VisibilityCommand

/-! ## Sequences of commands -/

/-- **Showing and hiding the cursor.**  A sequence of commands keeps the content of the cell
all along exactly if each command is `ESC [ ? 25 l` or finds the cell bare, and a cell
is bare while its cursor is hidden. -/
theorem visibility_keeps_iff (b : Build) {t : Term} (hr : t.g.ctx.InRange) (hn : t.scn.next = .normaltext)
    (hP : 8 ≤ t.g.ctx.Pitch) (hbare : t.g.ctx.cursorVisible = false → t.g.Bare)
    (cmds : List VisibilityCommand) :
    ((∀ pre, pre <+: cmds → (pre.foldl (VisibilityCommand.run b) t).g.Keeps t.g.logicalScreen) ↔
      Along (VisibilityCommand.run b) (fun t v => v = .hideCursor ∨ t.g.Bare) t cmds) ∧
    (Along (VisibilityCommand.run b) (fun t v => v = .hideCursor ∨ t.g.ctx.cursorVisible = false) t cmds →
      Along (VisibilityCommand.run b) (fun t v => v = .hideCursor ∨ t.g.Bare) t cmds) :=
  ⟨VisibilityCommand.keeps_run_iff b cmds ⟨hr, hn, hP⟩ rfl, VisibilityCommand.clean_of_hidden b ⟨hr, hn, hP⟩ hbare⟩

/-- From the start, where the cursor is drawn: hide it, switch it off once more, show it. -/
theorem visibility_keeps_start :
    let t := Term.start .shipped 0 16 32 16 512 (fun _ => 0)
    ([.hideCursor, .textCursorOff, .showCursor].foldl (VisibilityCommand.run .shipped) t).g.Keeps
      t.g.logicalScreen := by
  have hboth := visibility_keeps_iff .shipped (t := Term.start .shipped 0 16 32 16 512 (fun _ => 0))
    ⟨by decide, by decide⟩ rfl (by decide) (fun hv => absurd hv (by decide))
    [.hideCursor, .textCursorOff, .showCursor]
  exact hboth.1.mpr (hboth.2 (by decide)) _ List.prefix_rfl

/-- `ESC [ ? 25 h` at a cursor that is drawn already.  The next movement leaves the cursor
behind in the cell that it vacates. -/
theorem visibility_leaves_cursor :
    let t := Term.start .shipped 0 16 32 16 512 (fun _ => 0)
    (gfxTermMoveCursor 0 1 t.g).pix.bus.data 128 = 0 ∧
      (gfxTermMoveCursor 0 1 (VisibilityCommand.showCursor.run .shipped t).g).pix.bus.data 128 = DEFAULT_FG ∧
      ¬(VisibilityCommand.showCursor.run .shipped t).g.Keeps t.g.logicalScreen := by
  have hleft : (gfxTermMoveCursor 0 1 (VisibilityCommand.showCursor.run .shipped
      (Term.start .shipped 0 16 32 16 512 (fun _ => 0))).g).pix.bus.data 128 = DEFAULT_FG := by decide +kernel
  refine ⟨by decide +kernel, hleft, fun h => ?_⟩
  have hcell := h.vacated 0 1 128 (by decide) (by decide)
  rw [hleft] at hcell
  revert hcell
  decide

end Pigfx
