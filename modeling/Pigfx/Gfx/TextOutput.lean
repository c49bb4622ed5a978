import Pigfx.Gfx.Visibility
import Mathlib.Data.List.Forall2

/-!
# Direct text output

GSX escape 12 prints a text within the processing of one byte: it paints a character, steps
to the next column and renders the cursor, once for each code.  Ordinary text does the same,
but with the fix-ups of `gfx_term_putstring` behind every character.  So the two agree as long
as no fix-up is needed before the last character.

## Main definitions

* `printText`, `typeText` — a text without and with the fix-ups.
* `ctx_typeText`, `ctx_fixups_printText` — where they leave the cursor.
* `textOutput` — the escape, as the terminal receives it.
* `textOutput_agrees` — when the two ways of output agree.
-/

namespace Pigfx
open Lib

/-! ## Operations and what they depend on -/

/-- The saved cell and the memory of two pixel data are the same. -/
def Pix.Same (p q : Pix) : Prop := q.cursorBuffer = p.cursorBuffer ∧ q.bus.data = p.bus.data

theorem onData_invertByte (c : Ctx) (a : ℤ) : OnData (c.invertByte a) := by
  intro m n h
  simp only [Ctx.invertByte]
  rw [h]
  exact onData_put8 _ _ _ _ h

theorem data_renderWord_congr (c : Ctx) (k : ℕ) (a : ℤ) {p q : Pix} (hdata : q.bus.data = p.bus.data) :
    (renderWord c k a q).bus.data = (renderWord c k a p).bus.data := by
  have hinvert : ∀ x, OnData (c.invertByte x) := onData_invertByte c
  simp only [renderWord]
  split
  · exact hinvert _ _ _ (hinvert _ _ _ (hinvert _ _ _ (hinvert _ _ _ hdata)))
  · exact hdata

theorem same_renderWord (c : Ctx) (k : ℕ) (a : ℤ) {p q : Pix} (h : p.Same q) :
    (renderWord c k a p).Same (renderWord c k a q) := by
  obtain ⟨hbuf, hdata⟩ := h
  have hword : q.bus.word a = p.bus.word a := Bus.word_congr fun k _ => by rw [hdata]
  constructor
  · simp only [renderWord, hword, hbuf]
  · exact data_renderWord_congr c k a hdata

theorem same_gfxTermRenderCursor (c : Ctx) {p q : Pix} (h : p.Same q) :
    (gfxTermRenderCursor c p).Same (gfxTermRenderCursor c q) := by
  apply iterate_relation
  · exact h
  · intro i x y _ hxy
    exact same_renderWord c _ _ (same_renderWord c _ _ hxy)

theorem same_gfxRestoreCursorContent (c : Ctx) {p q : Pix} (h : p.Same q) :
    (gfxRestoreCursorContent c p).Same (gfxRestoreCursorContent c q) := by
  obtain ⟨hbuf, hdata⟩ := h
  refine ⟨hbuf, ?_⟩
  simp only [gfxRestoreCursorContent, hbuf]
  refine onData_iterate _ (fun i => ?_) _ _ hdata
  exact (onData_put32 _ _).comp (onData_put32 _ _)

namespace Gfx.SameScreen

variable {g g' : Gfx} (h : g.SameScreen g')
include h

theorem draw {f : Bus → Bus} (hf : OnData f) : (g.draw f).SameScreen (g'.draw f) :=
  ⟨h.ctx, h.buffer, hf _ _ h.data⟩

theorem setCtx (f : Ctx → Ctx) : { g with ctx := f g.ctx }.SameScreen { g' with ctx := f g'.ctx } :=
  ⟨congrArg f h.ctx, h.buffer, h.data⟩

theorem restoreContent : g.restoreContent.SameScreen g'.restoreContent := by
  have hsame := same_gfxRestoreCursorContent g.ctx ⟨h.buffer, h.data⟩
  constructor
  · exact h.ctx
  · simp only [Gfx.restoreContent, h.ctx]
    exact hsame.1
  · simp only [Gfx.restoreContent, h.ctx]
    exact hsame.2

theorem renderCursor : g.renderCursor.SameScreen g'.renderCursor := by
  have hsame := same_gfxTermRenderCursor g.ctx ⟨h.buffer, h.data⟩
  constructor
  · exact h.ctx
  · simp only [Gfx.renderCursor, h.ctx]
    exact hsame.1
  · simp only [Gfx.renderCursor, h.ctx]
    exact hsame.2

theorem printAt (ch : Byte) : (printAt ch g).SameScreen (Pigfx.printAt ch g') := by
  have hdrawn := h.draw (onData_gfxPutc g.ctx g.ctx.cursorRow g.ctx.cursorCol ch)
  have hmoved := hdrawn.setCtx fun c => { c with cursorCol := u32 (c.cursorCol + 1) }
  simp only [Pigfx.printAt, h.ctx]
  exact hmoved.renderCursor

theorem relocate (f : Ctx → Ctx) : (relocate f g).SameScreen (Pigfx.relocate f g') :=
  (h.restoreContent.setCtx f).renderCursor

/-- A queue of transfers, with a buffer that is filled. -/
theorem scrollLine : (scrollLine g).SameScreen (Pigfx.scrollLine g') := by
  have hrestored := h.restoreContent
  have hctx : g'.restoreContent.ctx = g.restoreContent.ctx := hrestored.ctx
  simp only [Pigfx.scrollLine, gfxTermRenderCursorNewlineDma, hctx]
  constructor
  · rfl
  · simp only [hrestored.buffer]
  · exact onData_dmaExecuteQueue _ _ _ hrestored.data

/-- Every operation depends on the screen only. -/
theorem run (b : Build) (op : TextOp) : (op.run b g).SameScreen (op.run b g') := by
  cases op with
  | wait => exact h.draw fun _ _ hd => hd
  | attrs a => exact h.setCtx _
  | move row col => exact h.relocate _
  | erase x y width height =>
    have hdrawn := h.restoreContent.draw (onData_gfxClearRect b (c := g.ctx) x y width height)
    simp only [TextOp.run, h.ctx]
    exact hdrawn.renderCursor
  | eraseLine =>
    have hdrawn := h.draw (onData_gfxClearRect b (c := g.ctx) 0 (g.ctx.cursorRow * g.ctx.fontHeight) g.ctx.W
      g.ctx.fontHeight)
    simp only [TextOp.run, gfxTermClearLine, h.ctx]
    exact hdrawn.renderCursor
  | clear =>
    have hdrawn := h.draw (onData_gfxClear b (c := g.ctx))
    simp only [TextOp.run, gfxTermClearScreen, h.ctx]
    exact hdrawn.renderCursor
  | print ch => exact h.printAt ch
  | delete n =>
    have hdrawn := h.restoreContent.draw (onData_gfxDeleteLines (c := g.ctx) g.ctx.cursorRow n)
    simp only [TextOp.run, h.ctx]
    exact hdrawn.renderCursor
  | insert n =>
    have hdrawn := h.restoreContent.draw (onData_gfxInsertLines (c := g.ctx) g.ctx.cursorRow n)
    simp only [TextOp.run, h.ctx]
    exact hdrawn.renderCursor
  | visible v =>
    cases v with
    | true => exact (h.setCtx fun c => { c with cursorVisible := true }).renderCursor
    | false => exact (h.setCtx fun c => { c with cursorVisible := false }).restoreContent
  | scroll => exact h.scrollLine
  | send s => exact ⟨h.ctx, h.buffer, h.data⟩
  | bell => exact ⟨h.ctx, h.buffer, h.data⟩
  | wordstar on => exact ⟨h.ctx, h.buffer, h.data⟩

theorem runOps (b : Build) (ops : List TextOp) : (runOps b ops g).SameScreen (Pigfx.runOps b ops g') := by
  induction ops generalizing g g' with
  | nil => exact h
  | cons op ops ih => exact ih (h.run b op)

theorem wrapFixup : (wrapFixup g).SameScreen (Pigfx.wrapFixup g') := by
  simp only [Pigfx.wrapFixup, h.ctx]
  split
  · exact h.relocate _
  · exact h

theorem scrollFixup : (scrollFixup g).SameScreen (Pigfx.scrollFixup g') := by
  simp only [Pigfx.scrollFixup, h.ctx]
  split
  · exact h.scrollLine
  · exact h

end Gfx.SameScreen

/-! ## Printing with and without fix-ups -/

/-- What `gfx_term_putstring` does behind the switch. -/
def Gfx.fixups (g : Gfx) : Gfx := scrollFixup (wrapFixup g)

/-- The loop of GSX escape 12. -/
def printText (cs : List Byte) (g : Gfx) : Gfx := cs.foldl (fun g ch => printAt ch g) g

/-- The same with the fix-ups of `gfx_term_putstring` after every character. -/
def typeText (cs : List Byte) (g : Gfx) : Gfx := cs.foldl (fun g ch => (printAt ch g).fixups) g

theorem Gfx.SameScreen.fixups {g g' : Gfx} (h : g.SameScreen g') : g.fixups.SameScreen g'.fixups :=
  h.wrapFixup.scrollFixup

section
variable {g : Gfx}

theorem ctx_printAt (hcol : g.ctx.cursorCol + 1 < 2 ^ 32) (ch : Byte) :
    (printAt ch g).ctx = g.ctx.setCursor g.ctx.cursorRow (g.ctx.cursorCol + 1) := by
  have hnext : u32 ((g.ctx.cursorCol : ℤ) + 1) = g.ctx.cursorCol + 1 := u32_natCast hcol
  rw [← hnext]
  rfl

/-- The fix-ups take a cursor that has passed the right edge to the beginning of the next row,
or of the last one. -/
theorem ctx_fixups (hs : g.ctx.Sized) (hrow : g.ctx.cursorRow < g.ctx.HEIGHT) :
    g.fixups.ctx = if g.ctx.cursorCol < g.ctx.WIDTH then g.ctx else
      g.ctx.setCursor (min (g.ctx.cursorRow + 1) (g.ctx.HEIGHT - 1)) 0 := by
  have hnext := hs.u32_row hrow
  have hlast := hs.u32_lastRow
  by_cases hcol : g.ctx.cursorCol < g.ctx.WIDTH
  · rw [if_pos hcol, Gfx.fixups, fixups_of_inRange ⟨hrow, hcol⟩]
  · rw [if_neg hcol, Gfx.fixups]
    have hwrap : (wrapFixup g).ctx = g.ctx.setCursor (g.ctx.cursorRow + 1) 0 := by
      rw [wrapFixup, if_pos (not_lt.mp hcol), ← hnext]
      rfl
    have hwrap' : (wrapFixup g).ctx.cursorRow = g.ctx.cursorRow + 1 := by rw [hwrap]; rfl
    have hheight : (wrapFixup g).ctx.HEIGHT = g.ctx.HEIGHT := by rw [hwrap]; rfl
    rw [scrollFixup, hwrap', hheight]
    split
    case isTrue h =>
      have hrow' : g.ctx.cursorRow + 1 = g.ctx.HEIGHT := by omega
      have hback : (scrollLine (wrapFixup g)).ctx = (wrapFixup g).ctx.setCursor
          (u32 ((wrapFixup g).ctx.cursorRow - 1)) (wrapFixup g).ctx.cursorCol := rfl
      rw [hback, hwrap', hrow', hlast, hwrap, min_eq_right (by omega)]
      rfl
    case isFalse h =>
      rw [hwrap, min_eq_left (by omega)]

theorem altCharset_fixups (g : Gfx) : g.fixups.ctx.altCharset = g.ctx.altCharset := by
  have hwrap : (wrapFixup g).ctx.altCharset = g.ctx.altCharset := by
    rw [wrapFixup]
    split <;> rfl
  rw [← hwrap, Gfx.fixups, scrollFixup]
  split <;> rfl

/-- The loop of escape 12 stays in its row. -/
theorem ctx_printText (cs : List Byte) (hcol : g.ctx.cursorCol + cs.length < 2 ^ 32) :
    (printText cs g).ctx = g.ctx.setCursor g.ctx.cursorRow (g.ctx.cursorCol + cs.length) := by
  induction cs generalizing g with
  | nil => rfl
  | cons ch cs ih =>
    rw [List.length_cons] at hcol ⊢
    have hprint := ctx_printAt (g := g) (by omega) ch
    have hpos : g.ctx.cursorCol + 1 + cs.length = g.ctx.cursorCol + (cs.length + 1) := by omega
    have hrest : (printAt ch g).ctx.cursorCol + cs.length < 2 ^ 32 := by
      rw [hprint]
      change g.ctx.cursorCol + 1 + cs.length < 2 ^ 32
      omega
    change (printText cs (printAt ch g)).ctx = _
    rw [ih hrest, hprint, ← hpos]
    rfl

/-- The cursor after a character, anywhere in the grid. -/
theorem ctx_fixups_printAt (hs : g.ctx.Sized) (hr : g.ctx.InRange) (ch : Byte) :
    (printAt ch g).fixups.ctx = if g.ctx.cursorCol + 1 < g.ctx.WIDTH
      then g.ctx.setCursor g.ctx.cursorRow (g.ctx.cursorCol + 1)
      else g.ctx.setCursor (min (g.ctx.cursorRow + 1) (g.ctx.HEIGHT - 1)) 0 := by
  have hprint := ctx_printAt (g := g) (by have := hr.col; have := hs.width_lt; omega) ch
  have hs' : (printAt ch g).ctx.Sized := by
    rw [hprint]
    exact hs.congr rfl
  have hrow : (printAt ch g).ctx.cursorRow < (printAt ch g).ctx.HEIGHT := by
    rw [hprint]
    exact hr.row
  rw [ctx_fixups hs' hrow, hprint]
  rfl

/-- **Text runs through the rows of the grid**, and stays in the last one. -/
theorem ctx_typeText (hs : g.ctx.Sized) (hr : g.ctx.InRange) (cs : List Byte) :
    (typeText cs g).ctx = g.ctx.setCursor
      (min (g.ctx.cursorRow + (g.ctx.cursorCol + cs.length) / g.ctx.WIDTH) (g.ctx.HEIGHT - 1))
      ((g.ctx.cursorCol + cs.length) % g.ctx.WIDTH) := by
  induction cs generalizing g with
  | nil =>
    have hrow := hr.row
    rw [List.length_nil, Nat.add_zero, Nat.div_eq_of_lt hr.col, Nat.mod_eq_of_lt hr.col,
      Nat.add_zero, min_eq_left (by omega)]
    rfl
  | cons ch cs ih =>
    have hrow := hr.row
    have hcol := hr.col
    have hstep := ctx_fixups_printAt hs hr ch
    have hs' : (printAt ch g).fixups.ctx.Sized := by
      apply hs.congr
      rw [hstep]
      split <;> rfl
    change (typeText cs (printAt ch g).fixups).ctx = _
    rw [List.length_cons]
    split at hstep
    case isTrue hlt =>
      have hr' : (printAt ch g).fixups.ctx.InRange := by
        rw [hstep]
        exact ⟨hrow, hlt⟩
      have hpos : g.ctx.cursorCol + 1 + cs.length = g.ctx.cursorCol + (cs.length + 1) := by omega
      rw [ih hs' hr', hstep, ← hpos]
      rfl
    case isFalse hge =>
      have hr' : (printAt ch g).fixups.ctx.InRange := by
        rw [hstep]
        exact ⟨lt_of_le_of_lt (min_le_right _ _) (Nat.sub_one_lt_of_lt hrow), hs.cols⟩
      have hpos : g.ctx.cursorCol + (cs.length + 1) = g.ctx.WIDTH + cs.length := by omega
      have hquot := Nat.add_div_left cs.length hs.cols
      have hmin : ∀ r q h : ℕ, min (min (r + 1) h + q) h = min (r + (q + 1)) h := by omega
      rw [ih hs' hr', hstep, hpos, hquot, Nat.add_mod_left]
      simp only [Ctx.setCursor, Nat.zero_add, hmin]

/-- **A text that ends at the right edge at the latest** needs one fix-up, at its end. -/
theorem typeText_eq (hs : g.ctx.Sized) (hr : g.ctx.InRange) {cs : List Byte}
    (hfit : g.ctx.cursorCol + cs.length ≤ g.ctx.WIDTH) :
    typeText cs g = (printText cs g).fixups := by
  induction cs generalizing g with
  | nil => exact (fixups_of_inRange hr).symm
  | cons ch cs ih =>
    rw [List.length_cons] at hfit
    change typeText cs (printAt ch g).fixups = (printText cs (printAt ch g)).fixups
    rcases cs with _ | ⟨ch', cs⟩
    · rfl
    · rw [List.length_cons] at hfit
      have hwidth := hs.width_lt
      have hprint := ctx_printAt (g := g) (by omega) ch
      have hr' : (printAt ch g).ctx.InRange := by
        rw [hprint]
        constructor
        · exact hr.row
        · change g.ctx.cursorCol + 1 < g.ctx.WIDTH
          omega
      have hfix : (printAt ch g).fixups = printAt ch g := fixups_of_inRange hr'
      rw [hfix]
      apply ih _ hr'
      · rw [hprint]
        change g.ctx.cursorCol + 1 + (cs.length + 1) ≤ g.ctx.WIDTH
        omega
      · rw [hprint]
        exact hs.congr rfl

end

/-! ## What the terminal receives -/

/-- A printable character. -/
def isPrintable (ch : Byte) : Prop := 32 ≤ ch.toNat ∧ ch.toNat ≤ 126

instance (ch : Byte) : Decidable (isPrintable ch) := inferInstanceAs (Decidable (_ ∧ _))

theorem not_isControl_printable {ch : Byte} (h : isPrintable ch) :
    isControl ch = false ∧ ch ≠ TERM_ESCAPE_CHAR ∧ ch ≠ 0 := by
  obtain ⟨hlo, hhi⟩ := h
  refine ⟨?_, ?_, ?_⟩
  · simp only [isControl, ← BitVec.toNat_inj, decide_eq_false_iff_not, BitVec.reduceToNat]
    omega
  · rintro rfl
    exact absurd hlo (by decide)
  · rintro rfl
    exact absurd hlo (by decide)

/-- Characters sent as ordinary text. -/
theorem sameScreen_typeText (b : Build) {t : Term} {g : Gfx} (hsame : g.SameScreen t.g)
    (hn : t.scn.next = .normaltext) (halt : t.g.ctx.altCharset = false) {cs : List Byte}
    (hcs : ∀ ch ∈ cs, isPrintable ch) : (typeText cs g).SameScreen (runBytes b t cs).g := by
  induction cs generalizing t g with
  | nil => exact hsame
  | cons ch cs ih =>
    obtain ⟨hctl, hesc, -⟩ := not_isControl_printable (hcs ch List.mem_cons_self)
    have hput : (putByte b ch t).g = (printAt ch (t.g.draw dmaWait)).fixups := by
      have hplain : ((t.g.draw dmaWait).ctx.altCharset = true) = False := by simp [Gfx.draw, halt]
      rw [putByte, byteAction, if_neg (by simp [hctl]), dispatch, hn]
      simp only [stateFunNormaltext, if_neg hesc, hplain, if_false]
      rfl
    have hnext : (putByte b ch t).scn.next = .normaltext := by
      rw [putByte_scn, scan, if_neg (by simp [hctl]), scanText, hn]
      simp only [if_neg hesc]
      exact hn
    have hwait : t.g.SameScreen (t.g.draw dmaWait) := ⟨rfl, rfl, rfl⟩
    have hstep := ((hsame.trans hwait).printAt ch).fixups
    rw [← hput] at hstep
    have halt' : (putByte b ch t).g.ctx.altCharset = false := by
      rw [hput, altCharset_fixups]
      exact halt
    exact ih hstep hnext halt' fun x hx => hcs x (List.mem_cons_of_mem _ hx)

/-! ## The escape -/

/-- The digits spell the number. -/
def Spells (d : List Byte) (n : ℕ) : Prop := (∀ x ∈ d, isDigit x) ∧ decimal d = n

/-- `ESC [ # 5 ; 12 ; n ; c1 ; … ; cn G` -/
def textOutput (count : List Byte) (codes : List (List Byte)) : List Byte :=
  sequenceOf (some (chr '#')) (text "5") (text "12" :: count :: codes) (chr 'G')

/-- A loop over the entries of a list. -/
theorem iterate_printAt {cs : List Byte} {f : ℕ → Byte} (hf : ∀ i (h : i < cs.length), f i = cs[i])
    (g : Gfx) : iterate cs.length (fun i g => printAt (f i) g) g = printText cs g := by
  have hmap : (List.range cs.length).map f = cs := by
    apply List.ext_getElem
    · simp
    · intro i hi hi'
      simp [hf i hi']
  rw [iterate_eq_foldl, printText]
  conv => rhs; rw [← hmap, List.foldl_map]

section
variable {cs : List Byte} {count : List Byte} {codes : List (List Byte)}
  (hcount : Spells count cs.length) (hcodes : List.Forall₂ (fun d ch => Spells d ch.toNat) codes cs)
  (hlen : cs.length ≤ 600)
include hcount hcodes hlen

omit hlen in
theorem fields_digits : ∀ e ∈ text "5" :: text "12" :: count :: codes, ∀ x ∈ e, isDigit x := by
  intro e he
  simp only [List.mem_cons] at he
  rcases he with rfl | rfl | rfl | he
  · decide
  · decide
  · exact hcount.1
  · obtain ⟨i, hi, rfl⟩ := List.getElem_of_mem he
    exact (hcodes.get hi (hcodes.length_eq ▸ hi)).1

/-- The `'G'` case prints the text. -/
theorem gsxCall_textOutput (b : Build) {st : ScnState}
    (h : Decoded (some (chr '#')) (text "5" :: text "12" :: count :: codes) st) (g : Gfx) :
    finalLetterAction b (chr 'G') st g = (printText cs g).uartWrite [chr 'G'] := by
  have hcodeslen : codes.length = cs.length := hcodes.length_eq
  have hparam : ∀ i, i < codes.length + 3 →
      st.param i =
        BitVec.ofNat 32 (decimal ((text "5" :: text "12" :: count :: codes).getD i [])) := by
    intro i hi
    rw [ScnState.param_of_lt (by simp only [CMD_PARAMS_LENGTH]; omega)]
    exact h.value i hi
  have hfun : (st.param 1).toNat = 12 := by
    rw [hparam 1 (by omega)]
    rfl
  have hn : (st.param 2).toNat = cs.length := by
    rw [hparam 2 (by omega)]
    change (BitVec.ofNat 32 (decimal count)).toNat = cs.length
    rw [hcount.2, BitVec.toNat_ofNat]
    omega
  have hcode : ∀ i (hi : i < cs.length), (st.param (3 + i)).setWidth 8 = cs[i] := by
    intro i hi
    have hi' : i < codes.length := hcodeslen ▸ hi
    have hspell : decimal codes[i] = cs[i].toNat := (hcodes.get hi' hi).2
    have hfield : (text "5" :: text "12" :: count :: codes).getD (3 + i) [] = codes[i] := by
      rw [Nat.add_comm]
      simp [hi']
    rw [hparam (3 + i) (by omega), hfield, hspell]
    apply BitVec.eq_of_toNat_eq
    simp
  have hescape : gfxEscape b st g = printText cs g := by
    rw [gfxEscape, hfun, hn]
    exact iterate_printAt hcode g
  rw [finalLetterAction_escape b h rfl g, hescape]

/-- The escape prints the text and fixes the cursor up at its end. -/
theorem sameScreen_textOutput (b : Build) {t : Term} (hr : t.g.ctx.InRange)
    (hn : t.scn.next = .normaltext) :
    (printText cs t.g).fixups.SameScreen (gfxTermPutstring b (textOutput count codes) t).g := by
  have hcodeslen := hcodes.length_eq
  have hfit : (text "12" :: count :: codes).length + 1 ≤ CMD_PARAMS_LENGTH := by
    simp only [List.length_cons, CMD_PARAMS_LENGTH]
    omega
  obtain ⟨st, g, hsame, hdec, hg, -⟩ := putstring_sequence b hr hn (Or.inr rfl) (fields_digits hcount hcodes)
    hfit (L := chr 'G') (by decide) (by decide)
  rw [gsxCall_textOutput hcount hcodes hlen b hdec] at hg
  have hprinted : ∀ {g g' : Gfx}, g.SameScreen g' → (printText cs g).SameScreen (printText cs g') :=
    fun h => foldl_relation (fun _ _ ch h => h.printAt ch) cs h
  have hanswer : ∀ g : Gfx, g.SameScreen (g.uartWrite [chr 'G']) := fun _ => ⟨rfl, rfl, rfl⟩
  have hend := ((hprinted hsame).trans (hanswer _)).fixups
  rw [textOutput, hg]
  exact hend

end

/-! ## Both ways of output -/

/-- The frame buffer, the position of the cursor and the saved cell are the same. -/
def Gfx.Agree (g g' : Gfx) : Prop :=
  g.pix.bus.data = g'.pix.bus.data ∧
    (g.ctx.cursorRow, g.ctx.cursorCol) = (g'.ctx.cursorRow, g'.ctx.cursorCol) ∧
    g.pix.cursorBuffer = g'.pix.cursorBuffer

theorem Gfx.SameScreen.agree {g g' h h' : Gfx} (hg : g.SameScreen g') (hh : h.SameScreen h')
    (heq : g = h) : g'.Agree h' := by
  subst heq
  refine ⟨hg.data.trans hh.data.symm, ?_, hg.buffer.trans hh.buffer.symm⟩
  rw [hg.ctx, hh.ctx]

section
variable {g : Gfx} (hs : g.ctx.Sized) (hr : g.ctx.InRange)
include hs hr

/-- The escape takes the cursor to the next row at most. -/
theorem ctx_fixups_printText {cs : List Byte} (hlen : cs.length ≤ 600) :
    (printText cs g).fixups.ctx = if g.ctx.cursorCol + cs.length < g.ctx.WIDTH
      then g.ctx.setCursor g.ctx.cursorRow (g.ctx.cursorCol + cs.length)
      else g.ctx.setCursor (min (g.ctx.cursorRow + 1) (g.ctx.HEIGHT - 1)) 0 := by
  have hcol := hr.col
  have hwidth := hs.width_lt
  have hprint := ctx_printText (g := g) cs (by omega)
  have hs' : (printText cs g).ctx.Sized := by
    rw [hprint]
    exact hs.congr rfl
  have hrow : (printText cs g).ctx.cursorRow < (printText cs g).ctx.HEIGHT := by
    rw [hprint]
    exact hr.row
  rw [ctx_fixups hs' hrow, hprint]
  rfl

/-- Behind the right edge the cursors part, or both end in the last row. -/
theorem cursors_eq {cs : List Byte} (hlen : cs.length ≤ 600)
    (hrow : (typeText cs g).ctx.cursorRow = (printText cs g).fixups.ctx.cursorRow)
    (hcol : (typeText cs g).ctx.cursorCol = (printText cs g).fixups.ctx.cursorCol) :
    g.ctx.cursorCol + cs.length ≤ g.ctx.WIDTH ∨
      (g.ctx.WIDTH ∣ g.ctx.cursorCol + cs.length ∧ g.ctx.HEIGHT ≤ g.ctx.cursorRow + 2) := by
  rw [ctx_typeText hs hr, ctx_fixups_printText hs hr hlen] at hrow hcol
  by_cases hfit : g.ctx.cursorCol + cs.length ≤ g.ctx.WIDTH
  · exact Or.inl hfit
  · have hpast : ¬g.ctx.cursorCol + cs.length < g.ctx.WIDTH := by omega
    rw [if_neg hpast] at hrow hcol
    have hdvd : g.ctx.WIDTH ∣ g.ctx.cursorCol + cs.length := Nat.dvd_of_mod_eq_zero hcol
    obtain ⟨k, hk⟩ := hdvd
    have hrows : 2 ≤ k := by
      by_contra hlt
      have hone : g.ctx.WIDTH * k ≤ g.ctx.WIDTH * 1 := Nat.mul_le_mul_left _ (by omega)
      omega
    have hquot : (g.ctx.cursorCol + cs.length) / g.ctx.WIDTH = k := by
      rw [hk, Nat.mul_div_cancel_left k hs.cols]
    change min (g.ctx.cursorRow + (g.ctx.cursorCol + cs.length) / g.ctx.WIDTH) (g.ctx.HEIGHT - 1) =
      min (g.ctx.cursorRow + 1) (g.ctx.HEIGHT - 1) at hrow
    rw [hquot] at hrow
    exact Or.inr ⟨⟨k, hk⟩, by omega⟩

end

/-- **Direct text output is ordinary text up to the right edge.** -/
theorem textOutput_agrees (b : Build) {t : Term} (hs : t.g.ctx.Sized) (hr : t.g.ctx.InRange)
    (hn : t.scn.next = .normaltext) (halt : t.g.ctx.altCharset = false) {cs : List Byte}
    (hcs : ∀ ch ∈ cs, isPrintable ch) (hlen : cs.length ≤ 600) {count : List Byte}
    {codes : List (List Byte)} (hcount : Spells count cs.length)
    (hcodes : List.Forall₂ (fun d ch => Spells d ch.toNat) codes cs) :
    (t.g.ctx.cursorCol + cs.length ≤ t.g.ctx.WIDTH →
      (gfxTermPutstring b cs t).g.Agree (gfxTermPutstring b (textOutput count codes) t).g) ∧
    ((gfxTermPutstring b cs t).g.Agree (gfxTermPutstring b (textOutput count codes) t).g →
      t.g.ctx.cursorCol + cs.length ≤ t.g.ctx.WIDTH ∨
        (t.g.ctx.WIDTH ∣ t.g.ctx.cursorCol + cs.length ∧
          t.g.ctx.HEIGHT ≤ t.g.ctx.cursorRow + 2)) := by
  have hzero : cString cs = cs := by
    rw [cString, List.takeWhile_eq_self_iff]
    intro ch hch
    exact decide_eq_true (not_isControl_printable (hcs ch hch)).2.2
  have hescape := sameScreen_textOutput hcount hcodes hlen b hr hn
  have htext := sameScreen_typeText b (.refl t.g) hn halt hcs
  rw [gfxTermPutstring_eq b cs, hzero]
  constructor
  · intro hfit
    exact htext.agree hescape (typeText_eq hs hr hfit)
  · intro hagree
    have hcursor := hagree.2.1
    rw [htext.ctx, hescape.ctx, Prod.mk.injEq] at hcursor
    exact cursors_eq hs hr hlen hcursor.1 hcursor.2

/-- A text that ends at the right edge. -/
theorem textOutput_agrees_start :
    let t := Term.start .shipped 0 16 32 16 512 (fun _ => 0)
    (gfxTermPutstring .shipped (text "Hi") t).g.Agree
      (gfxTermPutstring .shipped (text "\x1b[#5;12;2;72;105G") t).g := by
  have hboth := @textOutput_agrees .shipped (Term.start .shipped 0 16 32 16 512 (fun _ => 0))
    ⟨by decide, by decide, by decide, by decide, by decide, by decide, by decide⟩
    ⟨by decide, by decide⟩ rfl rfl (text "Hi") (by decide) (by decide) (text "2")
    [text "72", text "105"] ⟨by decide, by decide⟩
    (.cons ⟨by decide, by decide⟩ (.cons ⟨by decide, by decide⟩ .nil))
  exact hboth.1 (by decide)

/-- A text that passes it: the third character is dropped, and not printed in the next row. -/
theorem textOutput_drops :
    let t := Term.start .shipped 0 16 32 16 512 (fun _ => 0)
    ¬(gfxTermPutstring .shipped (text "ABC") t).g.Agree
      (gfxTermPutstring .shipped (text "\x1b[#5;12;3;65;66;67G") t).g := by
  intro t h
  have hcursor := h.2.1
  revert hcursor
  decide +kernel

end Pigfx
