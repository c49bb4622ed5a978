import Pigfx.Gfx.Scanner

/-!
# The terminal's interface

What the rest of the program calls: `gfx_term_putstring`, the two toggles that
change the screen geometry, and `gfx_set_env`.

A byte is taken in three parts: the action of the switch, the step to the next
row when the cursor has passed the last column, and the scroll when it has passed
the last row.  The cursor is drawn by each part, so a part may draw it outside
the grid before the next one brings it back.

## Main definitions

* `putByte`, `gfxTermPutstring` — the loop of `gfx_term_putstring`.
* `gfxSetScreenGeometry`, `gfxToggleFontHeight`, `gfxToggleLines` — geometry.
* `gfxSetEnv`, `Term.start` — the start of a run.
* `u2s` — the decimal rendering used by the messages.
-/

namespace Pigfx
open Lib

/-! ## One byte -/

/-- The next tab stop, at most the last column. -/
def Ctx.tabStop (c : Ctx) : ℕ := min (c.cursorCol / 8 * 8 + 8) (u32 (c.WIDTH - 1))

/-- The bytes `gfx_term_putstring` handles itself. -/
def isControl (ch : Byte) : Bool :=
  ch = 0x0D ∨ ch = 0x0A ∨ ch = 0x09 ∨ ch = 0x08 ∨ ch = 0x7F ∨ ch = 0x0E ∨ ch = 0x0F ∨ ch = 0x07 ∨
    ch = 0x0C

/-- The cases of the switch that do not call the scanner. -/
def controlAction (b : Build) (ch : Byte) (g : Gfx) : Gfx :=
  if ch = 0x0D then relocate (fun c => { c with cursorCol := 0 }) g
  else if ch = 0x0A then relocate (fun c => { c with cursorRow := u32 (c.cursorRow + 1) }) g
  else if ch = 0x09 then relocate (fun c => { c with cursorCol := c.tabStop }) g
  else if ch = 0x08 ∨ ch = 0x7F then
    if g.ctx.cursorCol > 0 then relocate (fun c => { c with cursorCol := c.cursorCol - 1 }) g else g
  else if ch = 0x07 then
    if b.standaloneTerminal then { g with bells := g.bells + 1 } else g
  else if ch = 0x0C then gfxTermClearScreen b (gfxTermMoveCursor 0 0 g)
  -- shift out and shift in are skipped
  else g

/-- The switch of `gfx_term_putstring`. -/
def byteAction (b : Build) (ch : Byte) (t : Term) : Term :=
  if isControl ch then { t with g := controlAction b ch t.g } else dispatch b ch t

/-- The cursor goes to the next row when it has passed the last column. -/
def wrapFixup (g : Gfx) : Gfx :=
  if g.ctx.WIDTH ≤ g.ctx.cursorCol then
    relocate (fun c => { c with cursorRow := u32 (c.cursorRow + 1), cursorCol := 0 }) g
  else g

/-- Scroll by one row of text; the cursor goes back to the last row, which is blank. -/
def scrollLine (g : Gfx) : Gfx :=
  let g := g.restoreContent
  let c := { g.ctx with cursorRow := u32 (g.ctx.cursorRow - 1) }
  let (p, newline) := gfxTermRenderCursorNewlineDma c g.pix
  { g with
    ctx := c
    pix := { p with bus := dmaExecuteQueue (gfxScrollDownDma c c.fontHeight ++ newline) p.bus } }

/-- The screen scrolls when the cursor has passed the last row. -/
def scrollFixup (g : Gfx) : Gfx := if g.ctx.HEIGHT ≤ g.ctx.cursorRow then scrollLine g else g

/-- One turn of the loop of `gfx_term_putstring`. -/
def putByte (b : Build) (ch : Byte) (t : Term) : Term :=
  let t := byteAction b ch { t with g := t.g.draw dmaWait }
  { t with g := scrollFixup (wrapFixup t.g) }

/-- `gfx_term_putstring`; the string ends before its first zero byte. -/
def gfxTermPutstring (b : Build) (str : List Byte) (t : Term) : Term :=
  (str.takeWhile (· ≠ 0)).foldl (fun t ch => putByte b ch t) t

/-! ## Decimal numbers -/

/-- `while (u >= i) i *= 10;`, which takes at most ten turns for `u` below a thousand
million. -/
def u2sGrow (u : ℕ) : (fuel i : ℕ) → ℕ
  | 0, i => i
  | fuel + 1, i => if u ≥ i then u2sGrow u fuel (i * 10) else i

/-- The digit loop of `u2s`, which takes at most ten turns for `i` up to a thousand
million. -/
def u2sDigits : (fuel u i : ℕ) → List Byte
  | 0, _, _ => []
  | fuel + 1, u, i =>
      if i > 0 then
        let d := u / i
        BitVec.ofNat 8 (48 + d) :: u2sDigits fuel (u - d * i) (i / 10)
      else []

def u2s (u : Word) : List Byte :=
  let i := if u.toNat ≥ 1000000000 then 1000000000 else u2sGrow u.toNat 10 1 / 10
  u2sDigits 10 u.toNat i

/-! ## Geometry -/

/-- `lines` of `gfx_set_screen_geometry`. -/
def Ctx.lines (c : Ctx) : ℕ :=
  let lines := c.fullHeight / c.fontHeight
  if c.lineLimit > 0 ∧ c.lineLimit < lines then c.lineLimit else lines

/-- `border_top_bottom` of `gfx_set_screen_geometry`. -/
def Ctx.borderTopBottom (c : Ctx) : ℕ :=
  let borderTopBottom := (c.fullHeight - c.lines * c.fontHeight) / 2
  if c.lineLimit = 0 ∧ borderTopBottom = 0 then c.fontHeight / 2 else borderTopBottom

/-- The context after `gfx_set_screen_geometry`. -/
def Ctx.setScreenGeometry (c : Ctx) : Ctx :=
  let H := u32 (c.fullHeight - c.borderTopBottom * 2)
  { c with
    pfb := c.fullPfb + c.borderTopBottom * c.Pitch
    H := H
    size := u32 (c.fullSize - c.borderTopBottom * 2 * c.Pitch)
    HEIGHT := H / c.fontHeight
    cursorRow := 0
    cursorCol := 0 }

def gfxSetScreenGeometry (b : Build) (g : Gfx) : Gfx :=
  let g := g.draw (gfxClear b g.ctx)
  { g with ctx := g.ctx.setScreenGeometry }.renderCursor

/-- The context after the assignments of `gfx_set_font_height`. -/
def Ctx.setFontHeight (b : Build) (h : ℕ) (c : Ctx) : Ctx :=
  { c with
    fontHeight := h
    fontData :=
      if h = 8 then b.fontGlyphs08
      else if h = 14 then b.fontGlyphs14
      else if h = 16 then b.fontGlyphs16
      else c.fontData
    lineLimit := min c.lineLimit (c.fullHeight / h) }

def gfxSetFontHeight (b : Build) (h : ℕ) (g : Gfx) : Gfx :=
  gfxSetScreenGeometry b { g with ctx := g.ctx.setFontHeight b h }

def gfxToggleFontHeight (b : Build) (g : Gfx) : Gfx :=
  if g.ctx.fontHeight = 8 then gfxSetFontHeight b 14 g
  else if g.ctx.fontHeight = 14 then gfxSetFontHeight b 16 g
  else gfxSetFontHeight b 8 g

/-- The context after the assignments of `gfx_toggle_lines`. -/
def Ctx.toggleLines (c : Ctx) : Ctx :=
  let limit := if c.lineLimit = 0 then c.HEIGHT else c.lineLimit
  let limit := u32 (limit - 1)
  { c with lineLimit := if limit < 16 then c.fullHeight / c.fontHeight else limit }

/-- The characters of a text. -/
def text (s : String) : List Byte := s.toList.map chr

def gfxToggleLines (b : Build) (t : Term) : Term :=
  let t := { t with g := gfxSetScreenGeometry b { t.g with ctx := t.g.ctx.toggleLines } }
  let t := gfxTermPutstring b (text "[") t
  let t := gfxTermPutstring b (u2s (BitVec.ofNat 32 t.g.ctx.lineLimit)) t
  gfxTermPutstring b (text " lines]\r\n") t

/-! ## Start -/

/-- The context after the assignments of `gfx_set_env`. -/
def Ctx.setEnv (b : Build) (pFramebuffer : ℤ) (width height pitch size : ℕ) (c : Ctx) : Ctx :=
  { c with
    fullPfb := pFramebuffer
    fullHeight := height
    fullSize := size
    W := width
    Pitch := pitch
    WIDTH := width / FONT_WIDTH
    cursorVisible := true
    bg := DEFAULT_BG
    fg := DEFAULT_FG
    inverse := false
    underline := false
    altCharset := false
    lineLimit := b.screenLines }

def gfxSetEnv (b : Build) (pFramebuffer : ℤ) (width height pitch size : ℕ) (t : Term) : Term :=
  { t with
    g := gfxSetFontHeight b b.fontHeight
      { t.g with ctx := t.g.ctx.setEnv b pFramebuffer width height pitch size }
    scn := { t.scn with next := .normaltext } }

/-- The static data of `gfx.c` before `gfx_set_env`; what the memory holds is left
open. -/
def Term.static (data : ℤ → Byte) : Term where
  g := {
    ctx := {
      W := 0, H := 0, Pitch := 0, size := 0, pfb := 0, fullPfb := 0, fullSize := 0, fullHeight := 0
      WIDTH := 0, HEIGHT := 0, cursorRow := 0, cursorCol := 0, savedCursor := (0, 0)
      cursorVisible := false, bg := 0, fg := 0, inverse := false, underline := false
      altCharset := false, lineLimit := 0, fontHeight := 0, fontData := fun _ => 0
      defaultBg := DEFAULT_BG, defaultFg := DEFAULT_FG }
    gsx := {
      deviceNumber := 0, lineStyle := 0, lineColour := 0, markerStyle := 0, markerColour := 0
      textStyle := 0, textColour := 0, fillStyle := 0, fillIndex := 0, fillColour := 0
      textHeight := 0, textWidth := 0, textSize := 0, textDirection := 0, textFont := 0
      lineWidth := 0, markerHeight := 0, writingMode := 0, inputMode := fun _ => 0
      reverseVideo := 0, gcUlx := 0, gcUly := 0, gcW := 0, gcH := 0 }
    pix := { bus := ⟨data, []⟩, cursorBuffer := fun _ => 0, gcRect := fun _ => 0 }
    uart := []
    bells := 0
    wordstarMode := false }
  scn := {
    next := .normaltext, afterReadDigit := 0, cmdParams := fun _ => 0, cmdParamsSize := 0
    privateModeChar := 0 }
  log := []

/-- The terminal after `gfx_set_env`. -/
def Term.start (b : Build) (pFramebuffer : ℤ) (width height pitch size : ℕ) (data : ℤ → Byte) :
    Term :=
  gfxSetEnv b pFramebuffer width height pitch size (.static data)

/-! ## Runs -/

/-- The calls the main program makes once the terminal is set up. -/
inductive Call
  | putstring (str : List Byte)
  | toggleFontHeight
  | toggleLines
  deriving DecidableEq, Repr

def Call.run (b : Build) (t : Term) : Call → Term
  | .putstring str => gfxTermPutstring b str t
  | .toggleFontHeight => { t with g := gfxToggleFontHeight b t.g }
  | .toggleLines => gfxToggleLines b t

end Pigfx
