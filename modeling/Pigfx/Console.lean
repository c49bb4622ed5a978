import Pigfx.Gfx.Arity

/-!
# Keyboard and serial line

The part of `pigfx.c` that lets two byte sources reach the terminal: bytes of the
host, which `term_main_loop` passes on one at a time, and keys, some of which
`_keypress_handler` keeps for the terminal itself.

## Main definitions

* `Uart` — the divisor registers, `uart0Setbaud`, `uart0Getbaud`.
* `rotateBaudrate`, `keypressHandler` — local keys.
* `Console`, `Input`, `Console.step` — the two sources together.
-/

namespace Pigfx
open Lib

/-! ## The baud rate -/

/-- The divisor registers of the UART: a 16-bit integer part and a 6-bit
fraction. -/
structure Uart where
  ibrd : BitVec 16
  fbrd : BitVec 6
  deriving DecidableEq

def uart0Setbaud (baud : ℕ) : Uart :=
  let divider := 3000000 / baud
  let f1 := 3000000 % baud * 64
  let fractional := f1 / baud
  let fractional := if f1 - fractional * baud ≥ baud / 2 then fractional + 1 else fractional
  { ibrd := BitVec.ofNat 16 divider, fbrd := BitVec.ofNat 6 fractional }

def uart0Getbaud (u : Uart) : ℕ :=
  let f := u.ibrd.toNat * 64 + u.fbrd.toNat
  let baud := if f = 0 then 0 else 3000000 * 64 / f
  if 3000000 * 64 - baud * f ≥ f / 2 then baud + 1 else baud

/-- The initial contents of `baud`. -/
def baudTable : List ℤ :=
  [300, 600, 1200, 2400, 4800, 9600, 19200, 38400, 57600, 115200, 150000, -1, -1]

/-- The index `rotate_baudrate` chooses. -/
def nextBaudIndex (baud : List ℤ) (b : ℤ) : ℕ :=
  let i := baud.findIdx fun x => ¬(x > 0 ∧ x < b + b / 100)
  if baud.getD i (-1) < 0 then 0
  else if baud.getD i (-1) = b then (if baud.getD (i + 1) (-1) < 0 then 0 else i + 1)
  else i

/-! ## The console -/

/-- The terminal, the UART and the table of baud rates. -/
structure Console where
  term : Term
  uart : Uart
  baud : List ℤ

/-- `gfx_term_putstring` on the console. -/
def Console.putstring (b : Build) (str : List Byte) (con : Console) : Console :=
  { con with term := gfxTermPutstring b str con.term }

/-- `uart_write` on the console. -/
def Console.uartWrite (s : List Byte) (con : Console) : Console :=
  { con with term := { con.term with g := con.term.g.uartWrite s } }

def rotateBaudrate (b : Build) (con : Console) : Console :=
  let rate := con.baud.getD (nextBaudIndex con.baud (uart0Getbaud con.uart)) (-1)
  let con := con.putstring b (text "\r\x1b[2K[Terminal at ")
  let con := con.putstring b (u2s (BitVec.ofInt 32 rate))
  let con := con.putstring b (text " baud]\r\n")
  { con with uart := uart0Setbaud (u32 rate) }

/-- The keys the terminal keeps for itself. -/
inductive Hotkey
  | printScreen
  | f12
  | f11
  | f10
  deriving DecidableEq, Repr

/-- The character the keyboard driver delivers for a key. -/
def Hotkey.code : Hotkey → Byte
  | .printScreen => 0xFF
  | .f12 => 0xFE
  | .f11 => 0xFD
  | .f10 => 0xFC

/-- What a local key does. -/
def Hotkey.act (b : Build) (con : Console) : Hotkey → Console
  | .printScreen => con.putstring b (text "\x1b[2J\x1b[32m")
  | .f12 => { con with term := { con.term with g := gfxToggleFontHeight b con.term.g } }
  | .f11 => rotateBaudrate b con
  | .f10 => { con with term := gfxToggleLines b con.term }

/-- One turn of the loop of `_keypress_handler`. -/
def keypress (b : Build) (ch : Byte) (con : Console) : Console :=
  if ch = 0xFF then Hotkey.act b con .printScreen
  else if ch = 0xFE then Hotkey.act b con .f12
  else if ch = 0xFD then Hotkey.act b con .f11
  else if ch = 0xFC then Hotkey.act b con .f10
  else
    let ch := if b.swapDelWithBackspace ∧ ch = 0x7F then 0x08 else ch
    let con := if b.backspaceEcho ∧ ch = 0x08 then con.putstring b [0x7F] else con
    let con := con.uartWrite [ch]
    if b.sendCrLf ∧ ch = 13 then con.uartWrite [10] else con

def keypressHandler (b : Build) (str : List Byte) (con : Console) : Console :=
  (cString str).foldl (fun con ch => keypress b ch con) con

/-- A byte of the host, or a key. -/
inductive Input
  | host (ch : Byte)
  | hotkey (k : Hotkey)
  deriving DecidableEq, Repr

/-- One input taken by the console; a byte of the host is a string of length one. -/
def Console.step (b : Build) (con : Console) : Input → Console
  | .host ch => con.putstring b [ch]
  | .hotkey k => keypressHandler b [k.code] con

theorem step_hotkey (b : Build) (con : Console) (k : Hotkey) :
    con.step b (.hotkey k) = k.act b con := by
  cases k <;> rfl

end Pigfx
