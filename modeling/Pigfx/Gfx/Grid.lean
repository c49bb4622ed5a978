import Pigfx.Gfx.Sequence

/-!
# A terminal of characters

What the text terminal is for: a grid of cells with a cursor, on which commands
print, erase and move lines.  There is no frame buffer here, no cursor that is drawn,
and no moment at which the cursor is outside the grid.

Tokens are the bytes and the control sequences that spell the commands.

## Main definitions

* `Style`, `Cell` — what a cell shows, and how.
* `Grid` — cells and a cursor that is inside them.
* `Command`, `Grid.step` — what can be asked of a grid.
* `Token`, `Token.command` — how it is spelled.
-/

namespace Pigfx
open Lib

/-! ## Cells -/

/-- Colours and rendition of the characters to come. -/
structure Style where
  bg : GfxCol
  fg : GfxCol
  inverse : Bool
  underline : Bool
  altCharset : Bool
  defaultBg : GfxCol
  defaultFg : GfxCol
  deriving DecidableEq

namespace Style

/-- The colour of the ground. -/
def paper (s : Style) : GfxCol := if s.inverse then s.fg else s.bg

/-- The colour of the characters. -/
def ink (s : Style) : GfxCol := if s.inverse then s.bg else s.fg

/-- The character that is shown for a byte. -/
def map (s : Style) (ch : Byte) : Byte := if s.altCharset then altChar ch else ch

def reset (s : Style) : Style :=
  { s with bg := s.defaultBg, fg := s.defaultFg, inverse := false, underline := false }

/-- One parameter of a rendition. -/
def select1 (p : ℕ) (s : Style) : Style :=
  if p = 0 then s.reset
  else if p = 1 then { s with fg := s.fg ||| 8 }
  else if p = 2 then { s with fg := s.fg &&& 7 }
  else if p = 7 then { s with inverse := true }
  else if p = 4 then { s with underline := true }
  else if p = 27 then { s with inverse := false }
  else if 30 ≤ p ∧ p ≤ 37 then { s with fg := (s.fg &&& 8) ||| BitVec.ofNat 8 (p - 30) }
  else if p = 39 then { s with fg := s.defaultFg }
  else if 40 ≤ p ∧ p ≤ 47 then { s with bg := BitVec.ofNat 8 (p - 40) }
  else if p = 49 then { s with bg := s.defaultBg }
  else s

/-- The parameters of a rendition, one after the other; a colour number takes three. -/
def selectAll : List ℕ → Style → Style
  | [], s => s
  | 38 :: 5 :: v :: ps, s => selectAll ps { s with fg := BitVec.ofNat 8 v }
  | 48 :: 5 :: v :: ps, s => selectAll ps { s with bg := BitVec.ofNat 8 v }
  | p :: ps, s => selectAll ps (s.select1 p)

def select (ps : List ℕ) (s : Style) : Style := if ps = [] then s.reset else selectAll ps s

end Style

/-- A cell is blank, shows a character, or still shows what was there at the start. -/
inductive Cell
  | blank (v : GfxCol)
  | glyph (ch : Byte) (s : Style)
  | found (pixels : ℕ → ℕ → Byte)

/-- Pixel `j` of line `i` of a cell, with the glyphs of a font.  A glyph selects between
the two colours bit by bit; the third line from below is where it is underlined. -/
def Cell.pixel (fontHeight : ℕ) (fontData : ℕ → Byte) : Cell → ℕ → ℕ → Byte
  | blank v, _, _ => v
  | glyph ch s, i, j =>
      let mask :=
        if s.underline ∧ i + 3 = fontHeight then if s.inverse then s.paper else s.ink
        else fontData (ch.toNat * 8 * fontHeight + 8 * i + j)
      (mask &&& s.ink) ||| (~~~mask &&& s.paper)
  | found pixels, i, j => pixels i j

/-! ## Grids -/

/-- A grid of `m` rows and `n` columns, with the cursor and the saved cursor inside. -/
structure Grid (m n : ℕ) where
  cell : ℕ → ℕ → Cell
  row : ℕ
  col : ℕ
  saved : ℕ × ℕ
  style : Style
  row_lt : row < m
  col_lt : col < n
  saved_lt : saved.1 < m ∧ saved.2 < n

namespace Grid

variable {m n : ℕ}

/-- The cursor goes to a cell, or as far as the grid goes. -/
def moveTo (r k : ℕ) (g : Grid m n) : Grid m n :=
  { g with
    row := min r (m - 1)
    col := min k (n - 1)
    row_lt := by have := g.row_lt; omega
    col_lt := by have := g.col_lt; omega }

/-- Some cells become blank. -/
def erase (p : ℕ → ℕ → Prop) [∀ r k, Decidable (p r k)] (v : GfxCol) (g : Grid m n) : Grid m n :=
  { g with cell := fun r k => if p r k then .blank v else g.cell r k }

/-- The `k` rows from `top` on disappear, and blank ones come in from below. -/
def deleteRows (top k : ℕ) (g : Grid m n) : Grid m n :=
  { g with
    cell := fun r j =>
      if r < top then g.cell r j
      else if r + k < m then g.cell (r + k) j
      else .blank g.style.paper }

/-- `k` blank rows are put in from `top` on. -/
def insertRows (top k : ℕ) (g : Grid m n) : Grid m n :=
  { g with
    cell := fun r j =>
      if r < top then g.cell r j
      else if r < top + k then .blank g.style.paper
      else g.cell (r - k) j }

/-- The cursor goes down; at the last row the grid scrolls instead. -/
def lineFeed (g : Grid m n) : Grid m n :=
  if h : g.row + 1 < m then { g with row := g.row + 1, row_lt := h } else g.deleteRows 0 1

/-- The cursor goes on; behind the last column it goes to the next row. -/
def advance (g : Grid m n) : Grid m n :=
  if h : g.col + 1 < n then { g with col := g.col + 1, col_lt := h }
  else lineFeed { g with col := 0, col_lt := Nat.zero_lt_of_lt g.col_lt }

/-- A character in the cell of the cursor. -/
def put (ch : Byte) (g : Grid m n) : Grid m n :=
  { g with
    cell := fun r k =>
      if r = g.row ∧ k = g.col then .glyph (g.style.map ch) g.style else g.cell r k }

def print (ch : Byte) (g : Grid m n) : Grid m n := (g.put ch).advance

/-- The cursor goes home on a blank grid. -/
def clear (g : Grid m n) : Grid m n := (g.moveTo 0 0).erase (fun _ _ => True) g.style.paper

end Grid

/-! ## Commands -/

/-- From the cursor to the end, from the beginning to the cursor, or all. -/
inductive Extent
  | toEnd
  | toStart
  | all
  deriving DecidableEq, Repr

inductive Command
  | print (ch : Byte)
  | carriageReturn
  | lineFeed
  | backspace
  | tab
  | formFeed
  | up (k : ℕ)
  | down (k : ℕ)
  | forward (k : ℕ)
  | back (k : ℕ)
  | position (row col : ℕ)
  | save
  | restore
  | backTab
  | eraseInLine (e : Extent)
  | eraseInDisplay (e : Extent)
  | rendition (ps : List ℕ)
  | insertLines (k : ℕ)
  | deleteLines (k : ℕ)
  deriving DecidableEq, Repr

namespace Grid

variable {m n : ℕ}

/-- Erasing leaves the colour of the ground as it is when the video is not inverted;
clearing the whole grid and moving lines leave the colour it has. -/
def step (g : Grid m n) : Command → Grid m n
  | .print ch => g.print ch
  | .carriageReturn => g.moveTo g.row 0
  | .lineFeed => g.lineFeed
  | .backspace => g.moveTo g.row (g.col - 1)
  | .tab => g.moveTo g.row (g.col / 8 * 8 + 8)
  | .formFeed => g.clear
  | .up k => g.moveTo (g.row - k) g.col
  | .down k => g.moveTo (g.row + k) g.col
  | .forward k => g.moveTo g.row (g.col + k)
  | .back k => g.moveTo g.row (g.col - k)
  | .position r k => g.moveTo (r - 1) (k - 1)
  | .save => { g with saved := (g.row, g.col), saved_lt := ⟨g.row_lt, g.col_lt⟩ }
  | .restore => g.moveTo g.saved.1 g.saved.2
  | .backTab => g.moveTo g.row (if g.col % 8 ≠ 0 then g.col / 8 * 8 else g.col - 8)
  | .eraseInLine .toEnd => g.erase (fun r k => r = g.row ∧ g.col ≤ k) g.style.bg
  | .eraseInLine .toStart => g.erase (fun r k => r = g.row ∧ k ≤ g.col) g.style.bg
  | .eraseInLine .all => g.erase (fun r _ => r = g.row) g.style.bg
  | .eraseInDisplay .toEnd => g.erase (fun r k => r = g.row ∧ g.col ≤ k ∨ g.row < r) g.style.bg
  | .eraseInDisplay .toStart => g.erase (fun r k => r = g.row ∧ k ≤ g.col ∨ r < g.row) g.style.bg
  | .eraseInDisplay .all => g.clear
  | .rendition ps => { g with style := g.style.select ps }
  | .insertLines k => g.insertRows g.row k
  | .deleteLines k => g.deleteRows g.row k

/-- Positions count from one, and no more lines are moved than there are. -/
def Allows (g : Grid m n) : Command → Prop
  | .position r k => 1 ≤ r ∧ 1 ≤ k
  | .insertLines k | .deleteLines k => k ≤ m - g.row
  | _ => True

instance (g : Grid m n) : ∀ cmd, Decidable (g.Allows cmd)
  | .position _ _ => inferInstanceAs (Decidable (_ ∧ _))
  | .insertLines k | .deleteLines k => inferInstanceAs (Decidable (k ≤ _))
  | .print _ | .carriageReturn | .lineFeed | .backspace | .tab | .formFeed | .up _ | .down _ | .forward _
  | .back _ | .save | .restore | .backTab | .eraseInLine _ | .eraseInDisplay _ | .rendition _ =>
      inferInstanceAs (Decidable True)

end Grid

/-! ## Tokens -/

/-- A byte, or a control sequence with its parameters as they are written. -/
inductive Token
  | byte (ch : Byte)
  | csi (ds : List (List Byte)) (L : Byte)
  deriving DecidableEq, Repr

/-- The extent a parameter stands for. -/
def extentOf : ℕ → Option Extent
  | 0 => some .toEnd
  | 1 => some .toStart
  | 2 => some .all
  | _ => none

/-- The command of a final letter with its parameters. -/
def csiCommand (L : Byte) (ps : List ℕ) : Option Command :=
  if L = chr 'A' then some (.up (ps.headD 1))
  else if L = chr 'B' then some (.down (ps.headD 1))
  else if L = chr 'C' then some (.forward (ps.headD 1))
  else if L = chr 'D' then some (.back (ps.headD 1))
  else if L = chr 'f' ∨ L = chr 'H' then some (.position (ps.getD 0 1) (ps.getD 1 1))
  else if L = chr 's' then some .save
  else if L = chr 'u' then some .restore
  else if L = chr 'Z' then some .backTab
  else if L = chr 'K' then if ps.length ≤ 1 then (extentOf (ps.headD 0)).map .eraseInLine else none
  else if L = chr 'J' then (extentOf (ps.headD 0)).map .eraseInDisplay
  else if L = chr 'm' then some (.rendition ps)
  else if L = chr 'L' then some (.insertLines (ps.headD 1))
  else if L = chr 'M' then some (.deleteLines (ps.headD 1))
  else none

namespace Token

/-- The bytes of a token. -/
def bytes : Token → List Byte
  | byte ch => [ch]
  | csi [] L => sequenceOf none [] [] L
  | csi (d :: ds) L => sequenceOf none d ds L

/-- The numbers of the parameters; a sequence without any digit or separator has none. -/
def values (ds : List (List Byte)) : List ℕ := if ds = [[]] then [] else ds.map decimal

/-- What a token asks for. -/
def command : Token → Option Command
  | byte ch =>
      if ch = 0x0D then some .carriageReturn
      else if ch = 0x0A then some .lineFeed
      else if ch = 0x09 then some .tab
      else if ch = 0x08 ∨ ch = 0x7F then some .backspace
      else if ch = 0x0C then some .formFeed
      else if ch = 0 ∨ ch = TERM_ESCAPE_CHAR ∨ isControl ch then none
      else some (.print ch)
  | csi ds L => csiCommand L (values ds)

/-- Parameters are digit strings, with numbers below `2 ^ 20`. -/
def WellFormed : Token → Prop
  | byte _ => True
  | csi ds _ => ∀ d ∈ ds, (∀ x ∈ d, isDigit x) ∧ decimal d < 2 ^ 20

instance : ∀ tok : Token, Decidable tok.WellFormed
  | byte _ => inferInstanceAs (Decidable True)
  | csi ds _ => inferInstanceAs (Decidable (∀ d ∈ ds, _ ∧ _))

/-- The parameters fit the array. -/
def Fits : Token → Prop
  | byte _ => True
  | csi ds _ => ds.length ≤ CMD_PARAMS_LENGTH

instance : ∀ tok : Token, Decidable tok.Fits
  | byte _ => inferInstanceAs (Decidable True)
  | csi ds _ => inferInstanceAs (Decidable (ds.length ≤ _))

end Token

namespace Grid

variable {m n : ℕ}

/-- The grid after a token. -/
def read (g : Grid m n) (tok : Token) : Grid m n :=
  match tok.command with
  | some cmd => g.step cmd
  | none => g

/-- The token is well formed and asks for something the grid allows. -/
def Accepts (g : Grid m n) (tok : Token) : Prop :=
  match tok.command with
  | some cmd => tok.WellFormed ∧ g.Allows cmd
  | none => False

instance (g : Grid m n) (tok : Token) : Decidable (g.Accepts tok) := by
  rw [Accepts]
  split <;> infer_instance

/-- The token is accepted, and its parameters fit the array. -/
def Takes (g : Grid m n) (tok : Token) : Prop := g.Accepts tok ∧ tok.Fits

instance (g : Grid m n) (tok : Token) : Decidable (g.Takes tok) := inferInstanceAs (Decidable (_ ∧ _))

end Grid

end Pigfx
