import Pigfx.Gfx.Gsx

/-!
# The escape-sequence scanner

The state functions of `gfx.c`.  A state function receives one byte and the
terminal: it changes the scanner and, where a sequence or a printable byte is
complete, the global state.

The scanner keeps a log of its accesses to the parameter array and of the calls
of `state_fun_final_letter`, which no function reads.

## Main definitions

* `Term` — the terminal: global state, scanner, log.
* `finalLetterAction` — what `state_fun_final_letter` does before it returns to
  normal text.
* `stateFunFinalLetter`, `stateFunReadDigit`, `stateFunSelectescape`,
  `stateFunWaitsquarebracket`, `stateFunAltCharset`, `stateFunNormaltext`.
-/

namespace Pigfx
open Lib

/-- An access to `cmd_params` by index, or a call of `state_fun_final_letter` with
the scanner as it finds it. -/
inductive ScnEvent
  | param (i : ℕ)
  | finalLetter (ch : Byte) (state : ScnState)

/-- The terminal. -/
structure Term where
  g : Gfx
  scn : ScnState
  log : List ScnEvent

namespace Term

/-- Append to the scanner's log. -/
def note (es : List ScnEvent) (t : Term) : Term := { t with log := t.log ++ es }

end Term

/-! ## Final letters -/

/-- `b2s` -/
def b2s (n : Byte) : List Byte :=
  let hundreds := n.toNat / 100
  let n := n.toNat - 100 * hundreds
  let tens := n / 10
  let n := n - 10 * tens
  [BitVec.ofNat 8 (48 + hundreds), BitVec.ofNat 8 (48 + tens), BitVec.ofNat 8 (48 + n)]

/-- `size > 0 ? cmd_params[0] : 1` as an `int`. -/
def ScnState.countParam (st : ScnState) : ℤ := if st.cmdParamsSize > 0 then st.intParam 0 else 1

/-- A single parameter of `ESC [ .. m`. -/
def Ctx.sgr (p : ℤ) (c : Ctx) : Ctx :=
  if p = 0 then c.resetAttrib
  else if p = 1 then { c with fg := c.fg ||| 8 }
  else if p = 2 then { c with fg := c.fg &&& 7 }
  else if p = 7 then { c with inverse := true }
  else if p = 4 then { c with underline := true }
  else if p = 27 then { c with inverse := false }
  else if p ≥ 30 ∧ p ≤ 37 then { c with fg := (c.fg &&& 8) ||| toCol (p - 30) }
  else if p = 39 then { c with fg := c.defaultFg }
  else if p ≥ 40 ∧ p ≤ 47 then { c with bg := toCol (p - 40) }
  else if p = 49 then { c with bg := c.defaultBg }
  else c

/-- The parameter loop of `ESC [ .. m` from index `i` on; `fuel` counts the
parameters that are left. -/
def sgrLoop (st : ScnState) : (fuel i : ℕ) → Ctx → Ctx
  | 0, _, c => c
  | fuel + 1, i, c =>
      if i < st.cmdParamsSize then
        if i + 2 < st.cmdParamsSize ∧ st.param i = 38 ∧ st.param (i + 1) = 5 then
          sgrLoop st fuel (i + 3) { c with fg := (st.param (i + 2)).setWidth 8 }
        else if i + 2 < st.cmdParamsSize ∧ st.param i = 48 ∧ st.param (i + 1) = 5 then
          sgrLoop st fuel (i + 3) { c with bg := (st.param (i + 2)).setWidth 8 }
        else sgrLoop st fuel (i + 1) (c.sgr (st.intParam i))
      else c

/-- The `'m'` case. -/
def Ctx.selectGraphicRendition (st : ScnState) (c : Ctx) : Ctx :=
  if st.cmdParamsSize = 0 then c.resetAttrib else sgrLoop st st.cmdParamsSize 0 c

/-- The `'Z'` case: the cursor goes back to the tab stop before it. -/
def Ctx.backTab (c : Ctx) : Ctx :=
  if c.cursorCol % 8 ≠ 0 then { c with cursorCol := c.cursorCol / 8 * 8 }
  else { c with cursorCol := (max (i32 c.cursorCol - 8) 0).toNat }

/-- The `'J'` case. -/
def eraseDisplay (b : Build) (st : ScnState) (g : Gfx) : Gfx :=
  match if st.cmdParamsSize ≥ 1 then (st.param 0).toNat else 0 with
  | 0 => clearToEndOfScreen b g
  | 1 =>
      let g := gfxTermClearTillCursor b g
      if g.ctx.cursorRow > 0 then gfxTermClearLines b 0 (i32 (g.ctx.cursorRow - 1)) g else g
  | 2 => gfxTermClearScreen b (gfxTermMoveCursor 0 0 g)
  | _ => g

/-- The `'K'` case. -/
def eraseLine (b : Build) (st : ScnState) (g : Gfx) : Gfx :=
  if st.cmdParamsSize = 0 then gfxTermClearTillEnd b g
  else if st.cmdParamsSize = 1 then
    match (st.param 0).toNat with
    | 0 => gfxTermClearTillEnd b g
    | 1 => gfxTermClearTillCursor b g
    | 2 => gfxTermClearLine b g
    | _ => g
  else g

/-- The `'h'` and `'l'` cases apply to `ESC [ ? 25`. -/
def ScnState.isCursorMode (st : ScnState) : Bool :=
  st.privateModeChar = chr '?' ∧ st.cmdParamsSize = 1 ∧ st.param 0 = 25

/-- The second switch of `state_fun_final_letter`, on the letter alone. -/
def ansiAction (b : Build) (ch : Byte) (st : ScnState) (g : Gfx) : Gfx :=
  let c := g.ctx
  if ch = chr 'l' then
    if st.isCursorMode then (gfxTermSetCursorVisibility false g).restoreContent else g
  else if ch = chr 'h' then
    if st.isCursorMode then (gfxTermSetCursorVisibility true g).renderCursor else g
  else if ch = chr 'K' then eraseLine b st g
  else if ch = chr 'J' then eraseDisplay b st g
  else if ch = chr 'A' then
    gfxTermMoveCursor (max 0 (i32 (i32 c.cursorRow - st.countParam))) (i32 c.cursorCol) g
  else if ch = chr 'B' then
    gfxTermMoveCursor (min (i32 c.HEIGHT - 1) (i32 (i32 c.cursorRow + st.countParam))) (i32 c.cursorCol) g
  else if ch = chr 'C' then
    gfxTermMoveCursor (i32 c.cursorRow) (min (i32 c.WIDTH - 1) (i32 (i32 c.cursorCol + st.countParam))) g
  else if ch = chr 'D' then
    gfxTermMoveCursor (i32 c.cursorRow) (max 0 (i32 (i32 c.cursorCol - st.countParam))) g
  else if ch = chr 'M' then
    (g.restoreContent.draw (gfxDeleteLines c c.cursorRow (u32 st.countParam))).renderCursor
  else if ch = chr 'L' then
    (g.restoreContent.draw (gfxInsertLines c c.cursorRow (u32 st.countParam))).renderCursor
  else if ch = chr 'Z' then relocate Ctx.backTab g
  else if ch = chr 'm' then { g with ctx := c.selectGraphicRendition st }
  else if ch = chr 'f' ∨ ch = chr 'H' then
    let row := if st.cmdParamsSize < 1 then 1 else (st.param 0).toNat
    let col := if st.cmdParamsSize < 2 then 1 else (st.param 1).toNat
    gfxTermMoveCursor (i32 (min (u32 (row - 1)) (u32 (c.HEIGHT - 1))))
      (i32 (min (u32 (col - 1)) (u32 (c.WIDTH - 1)))) g
  else if ch = chr 's' then gfxTermSaveCursor g
  else if ch = chr 'u' then gfxTermRestoreCursor g
  else if ch = chr 'c' then
    if st.cmdParamsSize = 0 ∨ st.param 0 = 0 then
      g.uartWrite [0x1B, chr '[', chr '?', chr '1', chr ';', chr '0', chr 'c']
    else g
  else if ch = chr 'n' then
    if st.cmdParamsSize = 1 then
      if st.param 0 = 5 then g.uartWrite [0x1B, chr '[', chr '0', chr 'n']
      else if st.param 0 = 6 then
        g.uartWrite ([0x1B, chr '['] ++ b2s (BitVec.ofNat 8 c.cursorRow + 1) ++ [chr ';'] ++
          b2s (BitVec.ofNat 8 c.cursorCol + 1) ++ [chr 'R'])
      else g
    else g
  -- `'?'` and every other letter
  else g

/-- The `'G'` case of the non-standard codes: a GSX call, answered with one byte. -/
def gsxCall (b : Build) (st : ScnState) (g : Gfx) : Gfx :=
  if st.cmdParamsSize > 0 then
    let (g, ok) := gsxCommand b st g
    if ok then g.uartWrite [chr 'G'] else g
  else g

/-- The effect of `state_fun_final_letter` on the global state: the non-standard
codes first, and the second switch for all other letters. -/
def finalLetterAction (b : Build) (ch : Byte) (st : ScnState) (g : Gfx) : Gfx :=
  if st.privateModeChar = chr '#' ∧ ch = chr 'G' then gsxCall b st g
  else if st.privateModeChar = chr '#' ∧ ch = chr 'm' then
    if st.cmdParamsSize = 2 ∧ (st.param 1).toNat ≤ WHITE then
      if st.param 0 = 39 then { g with ctx := { g.ctx with defaultFg := (st.param 1).setWidth 8 } }
      else if st.param 0 = 49 then { g with ctx := { g.ctx with defaultBg := (st.param 1).setWidth 8 } }
      else g
    else g
  else if st.privateModeChar = chr '#' ∧ ch = chr 'c' then
    if st.cmdParamsSize = 1 then printAt ((st.param 0).setWidth 8) g else g
  else if st.privateModeChar = chr '#' ∧ ch = chr 'w' then
    if st.cmdParamsSize = 0 then { g with wordstarMode := false }
    else if st.cmdParamsSize = 1 then { g with wordstarMode := st.param 0 ≠ 0 }
    else g
  else ansiAction b ch st g

def stateFunFinalLetter (b : Build) (ch : Byte) (t : Term) : Term :=
  { g := finalLetterAction b ch t.scn t.g
    -- `back_to_normal`
    scn := { t.scn with cmdParamsSize := 0, next := .normaltext }
    log := t.log ++ [.finalLetter ch t.scn] }

/-! ## The other state functions -/

/-- `ch>='0' && ch<='9'` -/
def isDigit (ch : Byte) : Bool := chr '0' ≤ ch ∧ ch ≤ chr '9'

/-- `ch-'0'` -/
def digitValue (ch : Byte) : Word := (ch - chr '0').setWidth 32

def stateFunReadDigit (b : Build) (ch : Byte) (t : Term) : Term :=
  let i := t.scn.lastIndex
  if isDigit ch then
    let scn := t.scn.setParam i (t.scn.param i * 10 + digitValue ch)
    { t with scn := { scn with next := .readDigit } }.note [.param i, .param i]
  else if ch = 0 then
    let scn := t.scn.setParam i (t.scn.param i * 10)
    { t with scn := { scn with next := .readDigit } }.note [.param i, .param i]
  else if ch = chr ';' then
    -- another parameter follows; its index is the old size
    let scn := { t.scn with cmdParamsSize := t.scn.cmdParamsSize + 1 }
    let scn := scn.setParam scn.lastIndex 0
    { t with scn := { scn with next := .readDigit } }.note [.param t.scn.cmdParamsSize]
  else stateFunFinalLetter b ch t

def stateFunSelectescape (b : Build) (ch : Byte) (t : Term) : Term :=
  if isDigit ch then
    let scn := { t.scn with cmdParamsSize := 1 }.setParam 0 (digitValue ch)
    { t with scn := { scn with next := .readDigit } }.note [.param 0]
  else if ch = chr ';' then
    let scn := ({ t.scn with cmdParamsSize := 2 }.setParam 0 0).setParam 1 0
    { t with scn := { scn with next := .readDigit } }.note [.param 0, .param 1]
  else if ch = chr '?' ∨ ch = chr '#' then
    let scn := { t.scn with privateModeChar := ch, cmdParamsSize := 1 }.setParam 0 0
    { t with scn := { scn with next := .readDigit } }.note [.param 0]
  else stateFunFinalLetter b ch t

def stateFunWaitsquarebracket (b : Build) (ch : Byte) (t : Term) : Term :=
  if ch = chr '[' then
    let scn := t.scn.setParam 0 1
    { t with scn := { scn with privateModeChar := 0, next := .selectescape } }.note [.param 0]
  else if ch = chr '(' then { t with scn := { t.scn with next := .altCharset } }
  else
    let g :=
      -- a double escape prints the escape character, `ESC c` resets the terminal
      if ch = TERM_ESCAPE_CHAR then printAt ch t.g
      else if ch = chr 'c' then gfxTermClearScreen b (gfxTermMoveCursor 0 0 (gfxTermResetAttrib t.g))
      else t.g
    { t with g := g, scn := { t.scn with next := .normaltext } }

def stateFunAltCharset (ch : Byte) (t : Term) : Term :=
  let g :=
    if ch = chr '0' then { t.g with ctx := { t.g.ctx with altCharset := true } }
    else if ch = chr 'B' then { t.g with ctx := { t.g.ctx with altCharset := false } }
    else t.g
  { t with g := g, scn := { t.scn with next := .normaltext } }

/-- The switch of `state_fun_normaltext` for the alternate character set. -/
def altChar (ch : Byte) : Byte :=
  if ch = chr '}' then 0x9C
  else if ch = chr '.' then 0x19
  else if ch = chr ',' then 0x1B
  else if ch = chr '+' then 0x1A
  else if ch = chr '-' then 0x18
  else if ch = chr 'h' then 0xB0
  else if ch = chr '~' then 0x07
  else if ch = chr 'a' then 0xB1
  else if ch = chr 'f' then 0xF8
  else if ch = 0x60 then 0x04     -- the grave accent
  else if ch = chr 'z' then 0xF2
  else if ch = chr '{' then 0xE3
  else if ch = chr 'q' then 0xC4
  else if ch = chr 'i' then 0x0F
  else if ch = chr 'n' then 0xC5
  else if ch = chr 'y' then 0xF3
  else if ch = chr 'm' then 0xC0
  else if ch = chr 'j' then 0xD9
  else if ch = chr '|' then 0xF7
  else if ch = chr 'g' then 0xF1
  else if ch = chr 'o' then 0xC4
  else if ch = chr 'p' then 0xC4
  else if ch = chr 'r' then 0xC4
  else if ch = chr 's' then 0xC4
  else if ch = chr '0' then 0xDB
  else if ch = chr 'w' then 0xC2
  else if ch = chr 'u' then 0xB4
  else if ch = chr 't' then 0xC3
  else if ch = chr 'v' then 0xC1
  else if ch = chr 'l' then 0xDA
  else if ch = chr 'k' then 0xBF
  else if ch = chr 'x' then 0xB3
  else ch

def stateFunNormaltext (ch : Byte) (t : Term) : Term :=
  if ch = TERM_ESCAPE_CHAR then { t with scn := { t.scn with next := .waitsquarebracket } }
  else
    let ch := if t.g.ctx.altCharset then altChar ch else ch
    { t with g := printAt ch t.g }

/-- `state.next(ch, &state)` -/
def dispatch (b : Build) (ch : Byte) (t : Term) : Term :=
  match t.scn.next with
  | .normaltext => stateFunNormaltext ch t
  | .waitsquarebracket => stateFunWaitsquarebracket b ch t
  | .selectescape => stateFunSelectescape b ch t
  | .readDigit => stateFunReadDigit b ch t
  | .altCharset => stateFunAltCharset ch t

end Pigfx
