import Pigfx.Lib.Block

/-!
# Types of the graphics terminal

The records of `gfx_types.h` and of `gfx.c`: the escape-sequence scanner's state,
the GSX state, the frame-buffer context, and what the build and the board fix.

Counters and sizes are natural numbers; `u32` and `i32` mark the places where the
C code converts to `unsigned int` or `int` and a value may leave the range.  The
frame buffer is a part of one linear byte memory addressed by integers.  The
control data and the pixel data are kept apart, in `Ctx` and `Pix`: no branch of
the code depends on a pixel.

## Main definitions

* `ScnState` — the scanner, with the out-of-range neighbours of its array.
* `GsxState`, `Ctx`, `Pix`, `Gfx` — the global state.
* `Build` — configuration switches, fonts, and the results of the float unit.
-/

namespace Pigfx
open Lib

/-! ## C integers and characters -/

/-- Conversion to `unsigned int`. -/
def u32 (x : ℤ) : ℕ := (x % 2 ^ 32).toNat

/-- Conversion to `int`. -/
def i32 (x : ℤ) : ℤ := x.bmod (2 ^ 32)

/-- The code of a character. -/
def chr (c : Char) : Byte := BitVec.ofNat 8 c.toNat

theorem u32_natCast {n : ℕ} (h : n < 2 ^ 32) : u32 n = n := by
  unfold u32; omega

theorem u32_of_nonneg {x : ℤ} (h0 : 0 ≤ x) (h : x < 2 ^ 32) : u32 x = x.toNat := by
  unfold u32; rw [Int.emod_eq_of_lt h0 h]

theorem i32_of_range {x : ℤ} (h0 : -2 ^ 31 ≤ x) (h : x < 2 ^ 31) : i32 x = x := by
  unfold i32; rw [Int.bmod_def]; split <;> omega

/-! ## Constants of `gfx_types.h` -/

abbrev GfxCol := Byte

abbrev FONT_WIDTH : ℕ := 8
abbrev WHITE : ℕ := 0x0F
abbrev DEFAULT_FG : GfxCol := 0x02
abbrev DEFAULT_BG : GfxCol := 0x00
abbrev TERM_ESCAPE_CHAR : Byte := 0x1B
abbrev CMD_PARAMS_LENGTH : ℕ := 644

abbrev GSX_MAX_NDC : ℤ := 32767
abbrev GSX_GC_ARMLNG : ℤ := 10
abbrev GSX_GC_W : ℤ := 2 * GSX_GC_ARMLNG + 1
abbrev TW_MIN : ℤ := 7
abbrev TH_MIN : ℤ := 12
abbrev WM_REPLACE : ℤ := 1
abbrev LID_MAX : ℕ := 4
abbrev IM_REQUEST : ℤ := 1

@[match_pattern] abbrev OPC_OPEN_WORKSTATION : ℕ := 1
@[match_pattern] abbrev OPC_CLOSE_WORKSTATION : ℕ := 2
@[match_pattern] abbrev OPC_CLEAR_WORKSTATION : ℕ := 3
@[match_pattern] abbrev OPC_UPDATE_WORKSTATION : ℕ := 4
@[match_pattern] abbrev OPC_ESCAPE : ℕ := 5
@[match_pattern] abbrev OPC_DRAW_POLYLINE : ℕ := 6
@[match_pattern] abbrev OPC_DRAW_POLYMARKER : ℕ := 7
@[match_pattern] abbrev OPC_DRAW_TEXT : ℕ := 8
@[match_pattern] abbrev OPC_DRAW_FILLED_POLYGON : ℕ := 9
@[match_pattern] abbrev OPC_DRAW_BITMAP : ℕ := 10
@[match_pattern] abbrev OPC_DRAWING_PRIMITIVE : ℕ := 11
@[match_pattern] abbrev OPC_TEXT_HEIGHT : ℕ := 12
@[match_pattern] abbrev OPC_TEXT_ROTATION : ℕ := 13
@[match_pattern] abbrev OPC_SET_PALETTE_COLOUR : ℕ := 14
@[match_pattern] abbrev OPC_POLYLINE_LINETYPE : ℕ := 15
@[match_pattern] abbrev OPC_POLYLINE_LINEWIDTH : ℕ := 16
@[match_pattern] abbrev OPC_POLYLINE_COLOUR : ℕ := 17
@[match_pattern] abbrev OPC_POLYMARKER_TYPE : ℕ := 18
@[match_pattern] abbrev OPC_POLYMARKER_HEIGHT : ℕ := 19
@[match_pattern] abbrev OPC_POLYMARKER_COLOUR : ℕ := 20
@[match_pattern] abbrev OPC_TEXT_FONT : ℕ := 21
@[match_pattern] abbrev OPC_TEXT_COLOUR : ℕ := 22
@[match_pattern] abbrev OPC_FILL_STYLE : ℕ := 23
@[match_pattern] abbrev OPC_FILL_STYLE_INDEX : ℕ := 24
@[match_pattern] abbrev OPC_FILL_COLOUR : ℕ := 25
@[match_pattern] abbrev OPC_GET_PALETTE_COLOUR : ℕ := 26
@[match_pattern] abbrev OPC_GET_BITMAP : ℕ := 27
@[match_pattern] abbrev OPC_INPUT_LOCATOR : ℕ := 28
@[match_pattern] abbrev OPC_INPUT_VALUATOR : ℕ := 29
@[match_pattern] abbrev OPC_INPUT_CHOICE : ℕ := 30
@[match_pattern] abbrev OPC_INPUT_STRING : ℕ := 31
@[match_pattern] abbrev OPC_WRITING_MODE : ℕ := 32
@[match_pattern] abbrev OPC_INPUT_MODE : ℕ := 33

/-! ## The scanner -/

/-- The five functions `scn_state.next` may point to. -/
inductive StateFun
  | normaltext
  | waitsquarebracket
  | selectescape
  | readDigit
  | altCharset
  deriving DecidableEq, Repr

/-- `scn_state`.  `cmdParams` is total: entries from `CMD_PARAMS_LENGTH` on stand
for whatever lies behind the structure in memory. -/
structure ScnState where
  next : StateFun
  afterReadDigit : Word
  cmdParams : ℕ → Word
  cmdParamsSize : ℕ
  privateModeChar : Byte

namespace ScnState

/-- Reading `cmd_params[i]`.  The array is followed by `cmd_params_size`, and the
word in front of it, which index `2 ^ 32 - 1` reaches, is `after_read_digit`. -/
def param (st : ScnState) (i : ℕ) : Word :=
  if i = CMD_PARAMS_LENGTH then BitVec.ofNat 32 st.cmdParamsSize
  else if i = 2 ^ 32 - 1 then st.afterReadDigit
  else st.cmdParams i

/-- Writing `cmd_params[i]`, with the same neighbours. -/
def setParam (i : ℕ) (v : Word) (st : ScnState) : ScnState :=
  if i = CMD_PARAMS_LENGTH then { st with cmdParamsSize := v.toNat }
  else if i = 2 ^ 32 - 1 then { st with afterReadDigit := v }
  else { st with cmdParams := fun j => if j = i then v else st.cmdParams j }

/-- `cmd_params_size - 1`, an unsigned subtraction. -/
def lastIndex (st : ScnState) : ℕ := u32 (st.cmdParamsSize - 1)

end ScnState

/-! ## The GSX state -/

/-- `gsx_state` without the saved rectangle, which is pixel data. -/
structure GsxState where
  deviceNumber : ℤ
  lineStyle : ℤ
  lineColour : ℤ
  markerStyle : ℤ
  markerColour : ℤ
  textStyle : ℤ
  textColour : ℤ
  fillStyle : ℤ
  fillIndex : ℤ
  fillColour : ℤ
  textHeight : ℤ
  textWidth : ℤ
  textSize : ℤ
  textDirection : ℤ
  textFont : ℤ
  lineWidth : ℤ
  markerHeight : ℤ
  writingMode : ℤ
  inputMode : ℕ → ℤ
  reverseVideo : ℤ
  gcUlx : ℤ
  gcUly : ℤ
  gcW : ℤ
  gcH : ℤ

/-! ## The frame-buffer context -/

/-- `FRAMEBUFFER_CTX` without the scanner and the saved cursor cell, together with
the two default colours. -/
structure Ctx where
  W : ℕ
  H : ℕ
  Pitch : ℕ
  size : ℕ
  pfb : ℤ
  fullPfb : ℤ
  fullSize : ℕ
  fullHeight : ℕ
  WIDTH : ℕ
  HEIGHT : ℕ
  cursorRow : ℕ
  cursorCol : ℕ
  savedCursor : ℕ × ℕ
  cursorVisible : Bool
  bg : GfxCol
  fg : GfxCol
  inverse : Bool
  underline : Bool
  altCharset : Bool
  lineLimit : ℕ
  fontHeight : ℕ
  fontData : ℕ → Byte
  defaultBg : GfxCol
  defaultFg : GfxCol

/-- The pixel data: memory, the saved cell under the cursor, and the rectangle
saved under the graphic cursor. -/
structure Pix where
  bus : Bus
  cursorBuffer : ℕ → Word
  gcRect : ℕ → Byte

/-- The global state of `gfx.c` with what it sends out: bytes to the serial line,
calls of the console bell, and the keyboard's WordStar mode. -/
structure Gfx where
  ctx : Ctx
  gsx : GsxState
  pix : Pix
  uart : List Byte
  bells : ℕ
  wordstarMode : Bool

namespace Gfx

/-- Apply a drawing operation to the memory. -/
def draw (f : Bus → Bus) (g : Gfx) : Gfx := { g with pix := { g.pix with bus := f g.pix.bus } }

theorem draw_congr {f f' : Bus → Bus} (h : ∀ m, f m = f' m) (g : Gfx) : g.draw f = g.draw f' := by
  rw [draw, draw, h]

/-- `uart_write`. -/
def uartWrite (s : List Byte) (g : Gfx) : Gfx := { g with uart := g.uart ++ s }

end Gfx

/-! ## Configuration -/

/-- What the build and the board fix: switches of `pigfx_config.h` and of the
Makefile, the font tables, and the integers the float expressions of the drawing
code evaluate to. -/
structure Build where
  gfxUseDma : Bool
  standaloneTerminal : Bool
  sendCrLf : Bool
  swapDelWithBackspace : Bool
  backspaceEcho : Bool
  fontHeight : ℕ
  font_predefined : fontHeight = 8 ∨ fontHeight = 14 ∨ fontHeight = 16
  screenLines : ℕ
  fontGlyphs08 : ℕ → Byte
  fontGlyphs14 : ℕ → Byte
  fontGlyphs16 : ℕ → Byte
  /-- `(unsigned int)(armLng * 0.707)`. -/
  shortArm : ℕ → ℕ
  /-- `(int)(x0 + slope * (y - y0))` for a side with the differences `dx`, `dy`. -/
  crossing : (x0 dx dy dist : ℤ) → ℤ
  /-- `10 * (int)(0.5f + 180 * atan2(y, x) / M_PI)`. -/
  arcAngle : (y x : ℤ) → ℤ

/-- The settings of `pigfx_config.h.in` and of the Makefile with blank fonts, and
rational approximations of the float expressions. -/
def Build.shipped : Build where
  gfxUseDma := true
  standaloneTerminal := true
  sendCrLf := false
  swapDelWithBackspace := false
  backspaceEcho := false
  fontHeight := 16
  font_predefined := Or.inr (Or.inr rfl)
  screenLines := 0
  fontGlyphs08 := fun _ => 0
  fontGlyphs14 := fun _ => 0
  fontGlyphs16 := fun _ => 0
  shortArm := fun armLng => armLng * 707 / 1000
  crossing := fun x0 dx dy dist => x0 + (dx * dist).tdiv dy
  arcAngle := fun y x => if x = 0 then 900 else if x = y then 450 else 900 - 450 * x / y

end Pigfx
