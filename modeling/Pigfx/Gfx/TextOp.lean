import Pigfx.Gfx.Arity

/-!
# What a byte does to the picture

Apart from GSX calls, every byte acts on the picture by a short list of
operations: move the cursor, erase a rectangle, print a character, move lines,
scroll.  `textOps` is that list, a function of the byte, the scanner and the
context.

Everything else about text follows from what the operations do.

## Main definitions

* `TextOp`, `TextOp.run`, `TextOp.ctx` — the operations.
* `textOps` — the operations of a byte.
* `isGsxCall` — the bytes that have none.
-/

namespace Pigfx
open Lib

/-! ## Parts of the context -/

/-- The part of the context that no byte changes. -/
structure Geometry where
  W : ℕ
  H : ℕ
  Pitch : ℕ
  size : ℕ
  pfb : ℤ
  fullPfb : ℤ
  fullSize : ℕ
  fullHeight : ℕ
  WIDTH : ℕ
  HEIGHT : ℕ
  lineLimit : ℕ
  fontHeight : ℕ
  fontData : ℕ → Byte

/-- The part of the context that changes no pixel when it is assigned. -/
structure Attrs where
  savedCursor : ℕ × ℕ
  bg : GfxCol
  fg : GfxCol
  inverse : Bool
  underline : Bool
  altCharset : Bool
  defaultBg : GfxCol
  defaultFg : GfxCol

namespace Ctx

def geometry (c : Ctx) : Geometry where
  W := c.W
  H := c.H
  Pitch := c.Pitch
  size := c.size
  pfb := c.pfb
  fullPfb := c.fullPfb
  fullSize := c.fullSize
  fullHeight := c.fullHeight
  WIDTH := c.WIDTH
  HEIGHT := c.HEIGHT
  lineLimit := c.lineLimit
  fontHeight := c.fontHeight
  fontData := c.fontData

def attrs (c : Ctx) : Attrs where
  savedCursor := c.savedCursor
  bg := c.bg
  fg := c.fg
  inverse := c.inverse
  underline := c.underline
  altCharset := c.altCharset
  defaultBg := c.defaultBg
  defaultFg := c.defaultFg

/-- Assign the attributes. -/
def setAttrs (a : Attrs) (c : Ctx) : Ctx :=
  { c with
    savedCursor := a.savedCursor
    bg := a.bg
    fg := a.fg
    inverse := a.inverse
    underline := a.underline
    altCharset := a.altCharset
    defaultBg := a.defaultBg
    defaultFg := a.defaultFg }

/-- Put the cursor somewhere. -/
def setCursor (row col : ℕ) (c : Ctx) : Ctx := { c with cursorRow := row, cursorCol := col }

/-- Show or hide the cursor. -/
def setVisible (v : Bool) (c : Ctx) : Ctx := { c with cursorVisible := v }

end Ctx

/-! ## Operations -/

/-- An operation on the picture, or on what surrounds it. -/
inductive TextOp
  | wait
  | attrs (a : Attrs)
  | move (row col : ℕ)
  | erase (x y width height : ℕ)
  | eraseLine
  | clear
  | print (ch : Byte)
  | delete (n : ℕ)
  | insert (n : ℕ)
  | visible (v : Bool)
  | scroll
  | send (s : List Byte)
  | bell
  | wordstar (on : Bool)

namespace TextOp

/-- The operation on the global state. -/
def run (b : Build) (g : Gfx) : TextOp → Gfx
  | wait => g.draw dmaWait
  | attrs a => { g with ctx := g.ctx.setAttrs a }
  | move row col => relocate (Ctx.setCursor row col) g
  | erase x y width height => (g.restoreContent.draw (gfxClearRect b g.ctx x y width height)).renderCursor
  | eraseLine => gfxTermClearLine b g
  | clear => gfxTermClearScreen b g
  | print ch => printAt ch g
  | delete n => (g.restoreContent.draw (gfxDeleteLines g.ctx g.ctx.cursorRow n)).renderCursor
  | insert n => (g.restoreContent.draw (gfxInsertLines g.ctx g.ctx.cursorRow n)).renderCursor
  | visible true => (gfxTermSetCursorVisibility true g).renderCursor
  | visible false => (gfxTermSetCursorVisibility false g).restoreContent
  | scroll => scrollLine g
  | send s => g.uartWrite s
  | bell => { g with bells := g.bells + 1 }
  | wordstar on => { g with wordstarMode := on }

/-- The operation on the context. -/
def ctx (c : Ctx) : TextOp → Ctx
  | attrs a => c.setAttrs a
  | move row col => c.setCursor row col
  | print _ => c.setCursor c.cursorRow (u32 (c.cursorCol + 1))
  | visible v => c.setVisible v
  | scroll => c.setCursor (u32 (c.cursorRow - 1)) c.cursorCol
  | wait | erase _ _ _ _ | eraseLine | clear | delete _ | insert _ | send _ | bell | wordstar _ => c

theorem ctx_run (b : Build) (g : Gfx) (op : TextOp) : (op.run b g).ctx = op.ctx g.ctx := by
  cases op with
  | visible v => cases v <;> rfl
  | _ => rfl

theorem ctx_foldl_run (b : Build) (g : Gfx) (ops : List TextOp) :
    (ops.foldl (run b) g).ctx = ops.foldl ctx g.ctx := by
  induction ops generalizing g with
  | nil => rfl
  | cons op ops ih => rw [List.foldl_cons, ih, ctx_run, List.foldl_cons]

end TextOp

/-! ## The operations of a byte -/

/-- `gfx_term_move_cursor` as an operation. -/
def Ctx.moveOp (c : Ctx) (row col : ℤ) : TextOp :=
  .move (c.moveCursor row col).cursorRow (c.moveCursor row col).cursorCol

/-- The rectangle from the cursor to the end of its row. -/
def Ctx.eraseTillEnd (c : Ctx) : TextOp :=
  .erase (c.cursorCol * FONT_WIDTH) (c.cursorRow * c.fontHeight) c.W c.fontHeight

/-- The rectangle from the beginning of the row to the cursor. -/
def Ctx.eraseTillCursor (c : Ctx) : TextOp :=
  .erase 0 (c.cursorRow * c.fontHeight) ((c.cursorCol + 1) * FONT_WIDTH) c.fontHeight

/-- The rectangle of `n` rows from `row` on. -/
def Ctx.eraseRows (c : Ctx) (row n : ℕ) : TextOp := .erase 0 (row * c.fontHeight) c.W (n * c.fontHeight)

def controlOps (b : Build) (ch : Byte) (c : Ctx) : List TextOp :=
  if ch = 0x0D then [.move c.cursorRow 0]
  else if ch = 0x0A then [.move (c.cursorRow + 1) c.cursorCol]
  else if ch = 0x09 then [.move c.cursorRow (min (c.cursorCol / 8 * 8 + 8) (c.WIDTH - 1))]
  else if ch = 0x08 ∨ ch = 0x7F then
    if c.cursorCol > 0 then [.move c.cursorRow (c.cursorCol - 1)] else []
  else if ch = 0x07 then if b.standaloneTerminal then [.bell] else []
  else if ch = 0x0C then [c.moveOp 0 0, .clear]
  else []

def eraseDisplayOps (st : ScnState) (c : Ctx) : List TextOp :=
  match if st.cmdParamsSize ≥ 1 then (st.param 0).toNat else 0 with
  | 0 =>
      c.eraseTillEnd ::
        if c.cursorRow + 1 < c.HEIGHT then
          [c.eraseRows (c.cursorRow + 1) (c.HEIGHT - 1 - c.cursorRow)] else []
  | 1 => c.eraseTillCursor :: if c.cursorRow > 0 then [c.eraseRows 0 c.cursorRow] else []
  | 2 => [c.moveOp 0 0, .clear]
  | _ => []

def eraseLineOps (st : ScnState) (c : Ctx) : List TextOp :=
  if st.cmdParamsSize = 0 then [c.eraseTillEnd]
  else if st.cmdParamsSize = 1 then
    match (st.param 0).toNat with
    | 0 => [c.eraseTillEnd]
    | 1 => [c.eraseTillCursor]
    | 2 => [.eraseLine]
    | _ => []
  else []

def ansiOps (ch : Byte) (st : ScnState) (c : Ctx) : List TextOp :=
  if ch = chr 'l' then if st.isCursorMode then [.visible false] else []
  else if ch = chr 'h' then if st.isCursorMode then [.visible true] else []
  else if ch = chr 'K' then eraseLineOps st c
  else if ch = chr 'J' then eraseDisplayOps st c
  else if ch = chr 'A' then [c.moveOp (max 0 (i32 (c.cursorRow - st.countParam))) c.cursorCol]
  else if ch = chr 'B' then
    [c.moveOp (min (c.HEIGHT - 1) (i32 (c.cursorRow + st.countParam))) c.cursorCol]
  else if ch = chr 'C' then
    [c.moveOp c.cursorRow (min (c.WIDTH - 1) (i32 (c.cursorCol + st.countParam)))]
  else if ch = chr 'D' then [c.moveOp c.cursorRow (max 0 (i32 (c.cursorCol - st.countParam)))]
  else if ch = chr 'M' then [.delete (u32 st.countParam)]
  else if ch = chr 'L' then [.insert (u32 st.countParam)]
  else if ch = chr 'Z' then
    [.move c.cursorRow (if c.cursorCol % 8 ≠ 0 then c.cursorCol / 8 * 8 else c.cursorCol - 8)]
  else if ch = chr 'm' then [.attrs (c.selectGraphicRendition st).attrs]
  else if ch = chr 'f' ∨ ch = chr 'H' then
    let row := if st.cmdParamsSize < 1 then 1 else (st.param 0).toNat
    let col := if st.cmdParamsSize < 2 then 1 else (st.param 1).toNat
    [c.moveOp (min (u32 (row - 1)) (c.HEIGHT - 1) : ℕ) (min (u32 (col - 1)) (c.WIDTH - 1) : ℕ)]
  else if ch = chr 's' then [.attrs { c.attrs with savedCursor := (c.cursorRow, c.cursorCol) }]
  else if ch = chr 'u' then [.move c.savedCursor.1 c.savedCursor.2]
  else if ch = chr 'c' then
    if st.cmdParamsSize = 0 ∨ st.param 0 = 0 then
      [.send [0x1B, chr '[', chr '?', chr '1', chr ';', chr '0', chr 'c']]
    else []
  else if ch = chr 'n' then
    if st.cmdParamsSize = 1 then
      if st.param 0 = 5 then [.send [0x1B, chr '[', chr '0', chr 'n']]
      else if st.param 0 = 6 then
        [.send ([0x1B, chr '['] ++ b2s (BitVec.ofNat 8 c.cursorRow + 1) ++ [chr ';'] ++
          b2s (BitVec.ofNat 8 c.cursorCol + 1) ++ [chr 'R'])]
      else []
    else []
  else []

/-- The operations of a final letter, GSX calls excepted. -/
def letterOps (ch : Byte) (st : ScnState) (c : Ctx) : List TextOp :=
  if st.privateModeChar = chr '#' ∧ ch = chr 'm' then
    if st.cmdParamsSize = 2 ∧ (st.param 1).toNat ≤ WHITE then
      if st.param 0 = 39 then [.attrs { c.attrs with defaultFg := (st.param 1).setWidth 8 }]
      else if st.param 0 = 49 then [.attrs { c.attrs with defaultBg := (st.param 1).setWidth 8 }]
      else []
    else []
  else if st.privateModeChar = chr '#' ∧ ch = chr 'c' then
    if st.cmdParamsSize = 1 then [.print ((st.param 0).setWidth 8)] else []
  else if st.privateModeChar = chr '#' ∧ ch = chr 'w' then
    if st.cmdParamsSize = 0 then [.wordstar false]
    else if st.cmdParamsSize = 1 then [.wordstar (st.param 0 ≠ 0)]
    else []
  else ansiOps ch st c

/-- The operations of a byte that goes to the scanner. -/
def scannerOps (ch : Byte) (st : ScnState) (c : Ctx) : List TextOp :=
  match st.next with
  | .normaltext =>
      if ch = TERM_ESCAPE_CHAR then [] else [.print (if c.altCharset then altChar ch else ch)]
  | .waitsquarebracket =>
      if ch = chr '[' ∨ ch = chr '(' then []
      else if ch = TERM_ESCAPE_CHAR then [.print ch]
      else if ch = chr 'c' then [.attrs c.resetAttrib.attrs, c.moveOp 0 0, .clear]
      else []
  | .selectescape =>
      if isDigit ch ∨ ch = chr ';' ∨ ch = chr '?' ∨ ch = chr '#' then [] else letterOps ch st c
  | .readDigit => if isDigit ch ∨ ch = 0 ∨ ch = chr ';' then [] else letterOps ch st c
  | .altCharset =>
      if ch = chr '0' then [.attrs { c.attrs with altCharset := true }]
      else if ch = chr 'B' then [.attrs { c.attrs with altCharset := false }]
      else []

/-- The operations of the switch. -/
def actionOps (b : Build) (ch : Byte) (st : ScnState) (c : Ctx) : List TextOp :=
  if isControl ch then controlOps b ch c else scannerOps ch st c

def wrapOps (c : Ctx) : List TextOp :=
  if c.WIDTH ≤ c.cursorCol then [.move (c.cursorRow + 1) 0] else []

def scrollOps (c : Ctx) : List TextOp := if c.HEIGHT ≤ c.cursorRow then [.scroll] else []

/-- What brings the cursor back into the grid. -/
def fixupOps (c : Ctx) : List TextOp := wrapOps c ++ scrollOps ((wrapOps c).foldl TextOp.ctx c)

/-- The operations of a byte. -/
def textOps (b : Build) (ch : Byte) (st : ScnState) (c : Ctx) : List TextOp :=
  let acts := .wait :: actionOps b ch st c
  acts ++ fixupOps (acts.foldl TextOp.ctx c)

/-- The byte makes a GSX call. -/
def isGsxCall (ch : Byte) (st : ScnState) : Prop :=
  (st.next = .selectescape ∨ st.next = .readDigit) ∧ st.privateModeChar = chr '#' ∧ ch = chr 'G'

instance (ch : Byte) (st : ScnState) : Decidable (isGsxCall ch st) :=
  inferInstanceAs (Decidable (_ ∧ _))

end Pigfx
