import Pigfx.Gfx.Decompose

/-!
# Where the operations are executed

A byte that finds the cursor inside the grid executes its operations with the
cursor at most one row or one column outside, and leaves it inside again.  The
cells outside are few, and the byte and the context tell which they are.

## Main definitions

* `overhang` — the cells outside the grid that the cursor passes through.
* `lineCount`, `restoresCursor`, `setsVisibility` — what else a byte asks for.
* `TextOp.Legal` — what an operation finds, and `textOps_legal`.
-/

namespace Pigfx
open Lib

/-! ## What a byte asks for -/

/-- The byte ends a sequence, if it is a letter. -/
def atLetter (st : ScnState) : Prop := st.next = .selectescape ∨ st.next = .readDigit

instance (st : ScnState) : Decidable (atLetter st) := inferInstanceAs (Decidable (_ ∨ _))

theorem next_scan_parameter {x : Byte} (h : isParameter x) {st : ScnState} (hat : atLetter st) :
    (scan x st).1.next = .readDigit := by
  rw [scan, not_isControl_parameter h]
  simp only [Bool.false_eq_true, if_false, scanText]
  rcases hat with hn | hn <;> rw [hn]
  · dsimp only
    by_cases hd : isDigit x
    · rw [if_pos hd]
    · rw [if_neg hd, if_pos (h.resolve_left hd)]
  · dsimp only
    by_cases hd : isDigit x
    · rw [if_pos hd]; rfl
    · obtain rfl := h.resolve_left hd
      rfl

section Letter
variable {st : ScnState} (hat : atLetter st) {L : Byte} (hL : isFinal L) (hP : L ≠ chr '?' ∧ L ≠ chr '#')
include hat hL hP

theorem scan_letter : (scan L st).1 = st.backToNormal := by
  rcases hat with hn | hn
  · rw [scan_final_selectescape hn hL hP]
  · rw [scan_final hn hL]

/-- The scanner calls `state_fun_final_letter`. -/
theorem byteAction_letter (b : Build) {t : Term} (ht : t.scn = st) :
    (byteAction b L t).g = finalLetterAction b L st t.g := by
  obtain ⟨hctl, hdig, hsep, hzero⟩ := hL
  subst ht
  rw [byteAction, if_neg (by simp [hctl]), dispatch]
  rcases hat with hn | hn <;> rw [hn]
  · dsimp only [stateFunSelectescape]
    rw [if_neg (by simp [hdig]), if_neg hsep, if_neg (by simp [hP.1, hP.2])]
    rfl
  · dsimp only [stateFunReadDigit]
    rw [if_neg (by simp [hdig]), if_neg hzero, if_neg hsep]
    rfl

/-- Without a prefix a letter is left to the second switch. -/
theorem actionOps_letter (b : Build) (c : Ctx) (hmode : st.privateModeChar ≠ chr '#') :
    actionOps b L st c = ansiOps L st c := by
  obtain ⟨hctl, hdig, hsep, hzero⟩ := hL
  have hletter : letterOps L st c = ansiOps L st c := by
    rw [letterOps, if_neg (fun hm => hmode hm.1), if_neg (fun hm => hmode hm.1), if_neg (fun hm => hmode hm.1)]
  have hfirst : ¬(isDigit L ∨ L = chr ';' ∨ L = chr '?' ∨ L = chr '#') := by simp [hdig, hsep, hP.1, hP.2]
  have hlater : ¬(isDigit L ∨ L = 0 ∨ L = chr ';') := by simpa [hdig, hsep] using hzero
  rw [actionOps, hctl, ← hletter, scannerOps]
  rcases hat with hn | hn <;> rw [hn]
  · exact if_neg hfirst
  · exact if_neg hlater

end Letter

/-- The byte prints a character. -/
def prints (ch : Byte) (st : ScnState) : Prop :=
  isControl ch = false ∧ (st.next = .normaltext ∧ ch ≠ TERM_ESCAPE_CHAR ∨
    st.next = .waitsquarebracket ∧ ch = TERM_ESCAPE_CHAR ∨
    atLetter st ∧ st.privateModeChar = chr '#' ∧ ch = chr 'c' ∧ st.cmdParamsSize = 1)

instance (ch : Byte) (st : ScnState) : Decidable (prints ch st) := by unfold prints; infer_instance

/-- The byte is the `u` of `ESC [ u`. -/
def restoresCursor (ch : Byte) (st : ScnState) : Prop := atLetter st ∧ ch = chr 'u'

instance (ch : Byte) (st : ScnState) : Decidable (restoresCursor ch st) :=
  inferInstanceAs (Decidable (_ ∧ _))

/-- The byte shows or hides the cursor. -/
def setsVisibility (ch : Byte) (st : ScnState) : Prop :=
  atLetter st ∧ (ch = chr 'l' ∨ ch = chr 'h') ∧ st.isCursorMode

instance (ch : Byte) (st : ScnState) : Decidable (setsVisibility ch st) :=
  inferInstanceAs (Decidable (_ ∧ _))

/-- The number of lines the byte inserts or deletes. -/
def lineCount (ch : Byte) (st : ScnState) : ℕ :=
  if atLetter st ∧ (ch = chr 'M' ∨ ch = chr 'L') then u32 st.countParam else 0

/-- The cells outside the grid at which the cursor is drawn while a byte is taken:
below the last row after a line feed there, or after a saved position just below
it; behind the last column after printing there, and then possibly below the last
row. -/
def overhang (ch : Byte) (st : ScnState) (c : Ctx) : List (ℕ × ℕ) :=
  if ch = 0x0A then if c.cursorRow + 1 = c.HEIGHT then [(c.HEIGHT, c.cursorCol)] else []
  else if prints ch st then
    if c.cursorCol + 1 = c.WIDTH then
      (c.cursorRow, c.WIDTH) :: if c.cursorRow + 1 = c.HEIGHT then [(c.HEIGHT, 0)] else []
    else []
  else if restoresCursor ch st then
    if c.savedCursor.1 = c.HEIGHT then [c.savedCursor] else []
  else []

/-! ## Legal operations -/

/-- What an operation of the byte `ch`, taken in the context `c₀`, finds in the
context in which it is executed. -/
def TextOp.Legal (ch : Byte) (st : ScnState) (c₀ c : Ctx) : TextOp → Prop
  | wait | eraseLine | clear | send _ | bell | wordstar _ => c.InRange
  | attrs a =>
      c.InRange ∧ (a.savedCursor = c.savedCursor ∨ a.savedCursor = (c.cursorRow, c.cursorCol))
  | move row col =>
      c.cursorRow < c.HEIGHT ∧ c.cursorCol ≤ c.WIDTH ∧ col < c.WIDTH ∧
        (row < c.HEIGHT ∨ row = c.HEIGHT ∧ (row, col) ∈ overhang ch st c₀)
  | erase x y width height =>
      c.InRange ∧ 8 ≤ width ∧ width ≤ c.W ∧ ∃ row col n, x = col * 8 ∧ y = row * c.fontHeight ∧
        height = n * c.fontHeight ∧ col < c.WIDTH ∧ 0 < n ∧ row + n ≤ c.HEIGHT
  | print _ => c.InRange ∧ (c.cursorCol + 1 = c.WIDTH → (c.cursorRow, c.WIDTH) ∈ overhang ch st c₀)
  | delete n | insert n => c.InRange ∧ c.cursorRow = c₀.cursorRow ∧ n = lineCount ch st
  | visible _ => c.InRange ∧ setsVisibility ch st
  | scroll => c.cursorRow = c.HEIGHT ∧ c.cursorCol < c.WIDTH

/-- The cursor is inside the grid, or it has just left it. -/
inductive Ctx.Near (c : Ctx) (ch : Byte) (st : ScnState) (c₀ : Ctx) : Prop
  | inside (h : c.InRange)
  | below (hrow : c.cursorRow = c.HEIGHT) (hcol : c.cursorCol < c.WIDTH)
  | behind (hrow : c.cursorRow < c.HEIGHT) (hcol : c.cursorCol = c.WIDTH)
      (hend : c.cursorRow + 1 = c.HEIGHT → (c.HEIGHT, 0) ∈ overhang ch st c₀)

/-- Operations that are legal one after the other and leave the cursor near the
grid. -/
structure LegalRun (ch : Byte) (st : ScnState) (c₀ c : Ctx) (ops : List TextOp) : Prop where
  along : Along TextOp.ctx (TextOp.Legal ch st c₀) c ops
  near : (ops.foldl TextOp.ctx c).Near ch st c₀

theorem Ctx.savedCursor_selectGraphicRendition (st : ScnState) (c : Ctx) :
    (c.selectGraphicRendition st).savedCursor = c.savedCursor := by
  apply selectGraphicRendition_induction (P := fun x => x.savedCursor = c.savedCursor)
  case h => rfl
  all_goals intros; assumption

/-- At a letter other than `c` nothing is printed. -/
theorem not_prints_of_atLetter {ch : Byte} {st : ScnState} (hl : atLetter st) (hc : ch ≠ chr 'c') :
    ¬prints ch st := by
  rintro ⟨-, ⟨hn, -⟩ | ⟨hn, -⟩ | ⟨-, -, h, -⟩⟩
  · rcases hl with h | h <;> rw [hn] at h <;> cases h
  · rcases hl with h | h <;> rw [hn] at h <;> cases h
  · exact hc h

section Legal
variable {ch : Byte} {st : ScnState} {c₀ c : Ctx}

@[simp] theorem TextOp.geometry_ctx (op : TextOp) (c : Ctx) : (op.ctx c).geometry = c.geometry := by
  cases op <;> rfl

theorem legalRun_nil (hr : c.InRange) : LegalRun ch st c₀ c [] := ⟨trivial, .inside hr⟩

theorem legalRun_cons {op : TextOp} {ops : List TextOp} (h : op.Legal ch st c₀ c)
    (hops : LegalRun ch st c₀ (op.ctx c) ops) : LegalRun ch st c₀ c (op :: ops) :=
  ⟨⟨h, hops.along⟩, hops.near⟩

theorem legalRun_ite {p : Prop} {_ : Decidable p} {xs ys : List TextOp}
    (hx : p → LegalRun ch st c₀ c xs) (hy : ¬p → LegalRun ch st c₀ c ys) :
    LegalRun ch st c₀ c (if p then xs else ys) := by
  split
  · exact hx ‹_›
  · exact hy ‹_›

/-- A single operation that does not move the cursor. -/
theorem legalRun_still {op : TextOp} (h : op.Legal ch st c₀ c) (hr : (op.ctx c).InRange) :
    LegalRun ch st c₀ c [op] := legalRun_cons h (legalRun_nil hr)

/-- A single move inside the grid. -/
theorem legalRun_move (hr : c.InRange) {row col : ℕ} (hrow : row < c.HEIGHT) (hcol : col < c.WIDTH) :
    LegalRun ch st c₀ c [.move row col] :=
  legalRun_still ⟨hr.row, hr.col.le, hcol, Or.inl hrow⟩ ⟨hrow, hcol⟩

/-- `gfx_term_move_cursor` clamps its target. -/
theorem Ctx.Sized.moveCursor_inRange (hs : c.Sized) (row col : ℤ) : (c.moveCursor row col).InRange := by
  have := hs.rows; have := hs.cols
  constructor
  · change min (u32 ((c.HEIGHT : ℤ) - 1)) _ < c.HEIGHT
    rw [hs.u32_lastRow]; omega
  · change min (u32 ((c.WIDTH : ℤ) - 1)) _ < c.WIDTH
    rw [hs.u32_lastCol]; omega

variable (hs : c.Sized) (hr : c.InRange)
include hs hr

theorem legalRun_moveOp (row col : ℤ) : LegalRun ch st c₀ c [c.moveOp row col] :=
  legalRun_move hr (hs.moveCursor_inRange row col).row (hs.moveCursor_inRange row col).col

/-- The cursor goes home and the screen is cleared. -/
theorem legalRun_home : LegalRun ch st c₀ c [c.moveOp 0 0, .clear] := by
  have hm := hs.moveCursor_inRange 0 0
  exact legalRun_cons ⟨hr.row, hr.col.le, hm.col, Or.inl hm.row⟩ (legalRun_still hm hm)

theorem legal_eraseTillEnd : c.eraseTillEnd.Legal ch st c₀ c := by
  have hW := hs.textWidth; have := hs.cols
  exact ⟨hr, by omega, le_refl _, c.cursorRow, c.cursorCol, 1, rfl, rfl, (Nat.one_mul _).symm, hr.col,
    Nat.one_pos, hr.row⟩

theorem legal_eraseTillCursor : c.eraseTillCursor.Legal ch st c₀ c := by
  have hW := hs.textWidth; have hcol := hr.col
  have hw : FONT_WIDTH = 8 := rfl
  exact ⟨hr, by simp [hw], by rw [hw]; omega, c.cursorRow, 0, 1, by simp, rfl, (Nat.one_mul _).symm,
    hs.cols, Nat.one_pos, hr.row⟩

theorem legal_eraseRows {row n : ℕ} (hn : 0 < n) (hrow : row + n ≤ c.HEIGHT) :
    (c.eraseRows row n).Legal ch st c₀ c := by
  have hW := hs.textWidth; have := hs.cols
  exact ⟨hr, by omega, le_refl _, row, 0, n, by simp, rfl, rfl, hs.cols, hn, hrow⟩

theorem legalRun_controlOps (b : Build) (h0A : ch = 0x0A → c₀ = c) :
    LegalRun ch st c₀ c (controlOps b ch c) := by
  have hrow := hr.row; have hcol := hr.col
  refine legalRun_ite (fun _ => legalRun_move hr hrow hs.cols) fun _ => ?_
  refine legalRun_ite (fun hlf => ?_) fun _ => ?_
  · -- a line feed may leave the grid
    obtain rfl := h0A hlf
    by_cases hlast : c₀.cursorRow + 1 = c₀.HEIGHT
    · have hmem : (c₀.HEIGHT, c₀.cursorCol) ∈ overhang ch st c₀ := by
        rw [overhang, if_pos hlf, if_pos hlast]; exact List.mem_singleton_self _
      exact legalRun_cons ⟨hrow, hcol.le, hcol, Or.inr ⟨hlast, hlast ▸ hmem⟩⟩
        ⟨trivial, .below (c := c₀.setCursor (c₀.cursorRow + 1) c₀.cursorCol) hlast hcol⟩
    · exact legalRun_move hr (by omega) hcol
  refine legalRun_ite (fun _ => legalRun_move hr hrow (by have := hs.cols; omega)) fun _ => ?_
  refine legalRun_ite (fun _ => ?_) fun _ => ?_
  · refine legalRun_ite (fun h => legalRun_move hr hrow (by omega)) fun _ => legalRun_nil hr
  refine legalRun_ite (fun _ => ?_) fun _ => ?_
  · exact legalRun_ite (fun _ => legalRun_still hr hr) fun _ => legalRun_nil hr
  exact legalRun_ite (fun _ => legalRun_home hs hr) fun _ => legalRun_nil hr

theorem legalRun_eraseDisplayOps (st' : ScnState) :
    LegalRun ch st c₀ c (eraseDisplayOps st' c) := by
  have hrow := hr.row
  rw [eraseDisplayOps]
  split
  · refine legalRun_cons (legal_eraseTillEnd hs hr) (legalRun_ite (fun h => ?_) fun _ => legalRun_nil hr)
    exact legalRun_still (legal_eraseRows hs hr (by omega) (by omega)) hr
  · refine legalRun_cons (legal_eraseTillCursor hs hr) (legalRun_ite (fun h => ?_) fun _ => legalRun_nil hr)
    exact legalRun_still (legal_eraseRows hs hr h (by omega)) hr
  · exact legalRun_home hs hr
  · exact legalRun_nil hr

theorem legalRun_eraseLineOps (st' : ScnState) : LegalRun ch st c₀ c (eraseLineOps st' c) := by
  rw [eraseLineOps]
  refine legalRun_ite (fun _ => legalRun_still (legal_eraseTillEnd hs hr) hr) fun _ => ?_
  refine legalRun_ite (fun _ => ?_) fun _ => legalRun_nil hr
  split
  · exact legalRun_still (legal_eraseTillEnd hs hr) hr
  · exact legalRun_still (legal_eraseTillCursor hs hr) hr
  · exact legalRun_still hr hr
  · exact legalRun_nil hr

omit hs in
/-- The saved position is recalled; it may lie just below the grid. -/
theorem legalRun_recall (hl : atLetter st) (hu : ch = chr 'u') (hsr : c.savedCursor.1 ≤ c.HEIGHT)
    (hsc : c.savedCursor.2 < c.WIDTH) :
    LegalRun ch st c c [.move c.savedCursor.1 c.savedCursor.2] := by
  rcases Nat.lt_or_eq_of_le hsr with hlt | heq
  · exact legalRun_move hr hlt hsc
  · have hmem : (c.savedCursor.1, c.savedCursor.2) ∈ overhang ch st c := by
      rw [overhang, if_neg (by rw [hu]; decide), if_neg (not_prints_of_atLetter hl (by rw [hu]; decide)),
        if_pos ⟨hl, hu⟩, if_pos heq]
      exact List.mem_singleton_self _
    exact legalRun_cons ⟨hr.row, hr.col.le, hsc, Or.inr ⟨heq, hmem⟩⟩
      ⟨trivial, .below (c := c.setCursor c.savedCursor.1 c.savedCursor.2) heq hsc⟩

theorem legalRun_ansiOps (hl : atLetter st)
    (hu : ch = chr 'u' → c.savedCursor.1 ≤ c.HEIGHT ∧ c.savedCursor.2 < c.WIDTH) :
    LegalRun ch st c c (ansiOps ch st c) := by
  have hrow := hr.row; have hcol := hr.col
  have hcount : ∀ h : ch = chr 'M' ∨ ch = chr 'L', u32 st.countParam = lineCount ch st := fun h => by
    rw [lineCount, if_pos ⟨hl, h⟩]
  rw [ansiOps]
  refine legalRun_ite (fun h => ?_) fun _ => ?_
  · exact legalRun_ite (fun hm => legalRun_still ⟨hr, hl, Or.inl h, hm⟩ ⟨hrow, hcol⟩)
      fun _ => legalRun_nil hr
  refine legalRun_ite (fun h => ?_) fun _ => ?_
  · exact legalRun_ite (fun hm => legalRun_still ⟨hr, hl, Or.inr h, hm⟩ ⟨hrow, hcol⟩)
      fun _ => legalRun_nil hr
  refine legalRun_ite (fun _ => legalRun_eraseLineOps hs hr st) fun _ => ?_
  refine legalRun_ite (fun _ => legalRun_eraseDisplayOps hs hr st) fun _ => ?_
  refine legalRun_ite (fun _ => legalRun_moveOp hs hr _ _) fun _ => ?_
  refine legalRun_ite (fun _ => legalRun_moveOp hs hr _ _) fun _ => ?_
  refine legalRun_ite (fun _ => legalRun_moveOp hs hr _ _) fun _ => ?_
  refine legalRun_ite (fun _ => legalRun_moveOp hs hr _ _) fun _ => ?_
  refine legalRun_ite (fun h => legalRun_still ⟨hr, rfl, hcount (Or.inl h)⟩ hr) fun _ => ?_
  refine legalRun_ite (fun h => legalRun_still ⟨hr, rfl, hcount (Or.inr h)⟩ hr) fun _ => ?_
  refine legalRun_ite (fun _ => legalRun_move hr hrow (by split <;> omega)) fun _ => ?_
  refine legalRun_ite (fun _ => legalRun_still ⟨hr, ?_⟩ ⟨hrow, hcol⟩) fun _ => ?_
  · exact Or.inl (c.savedCursor_selectGraphicRendition st)
  refine legalRun_ite (fun _ => legalRun_moveOp hs hr _ _) fun _ => ?_
  refine legalRun_ite (fun _ => legalRun_still ⟨hr, Or.inr rfl⟩ ⟨hrow, hcol⟩) fun _ => ?_
  refine legalRun_ite (fun h => legalRun_recall hr hl h (hu h).1 (hu h).2) fun _ => ?_
  refine legalRun_ite (fun _ => ?_) fun _ => ?_
  · exact legalRun_ite (fun _ => legalRun_still hr hr) fun _ => legalRun_nil hr
  refine legalRun_ite (fun _ => ?_) fun _ => legalRun_nil hr
  refine legalRun_ite (fun _ => ?_) fun _ => legalRun_nil hr
  refine legalRun_ite (fun _ => legalRun_still hr hr) fun _ => ?_
  exact legalRun_ite (fun _ => legalRun_still hr hr) fun _ => legalRun_nil hr

/-- A printed character may step behind the last column. -/
theorem legalRun_print (hp : prints ch st) (x : Byte) : LegalRun ch st c c [.print x] := by
  have hrow := hr.row; have hcol := hr.col; have hW := hs.width_lt
  have hnext : u32 ((c.cursorCol : ℤ) + 1) = c.cursorCol + 1 :=
    u32_natCast (n := c.cursorCol + 1) (by omega)
  have hlf : ch ≠ 0x0A := by
    rintro rfl
    have := hp.1
    revert this; decide
  have hmem : c.cursorCol + 1 = c.WIDTH → overhang ch st c = (c.cursorRow, c.WIDTH) ::
      if c.cursorRow + 1 = c.HEIGHT then [(c.HEIGHT, 0)] else [] := fun h => by
    rw [overhang, if_neg hlf, if_pos hp, if_pos h]
  refine ⟨⟨⟨hr, fun h => by rw [hmem h]; exact List.mem_cons_self⟩, trivial⟩, ?_⟩
  change (c.setCursor c.cursorRow (u32 ((c.cursorCol : ℤ) + 1))).Near ch st c
  rw [hnext]
  by_cases hend : c.cursorCol + 1 = c.WIDTH
  · refine .behind hrow hend fun hlast => ?_
    have hlast' : c.cursorRow + 1 = c.HEIGHT := hlast
    rw [hmem hend, if_pos hlast']
    exact List.mem_cons_of_mem _ (List.mem_singleton_self _)
  · exact .inside ⟨hrow, by change c.cursorCol + 1 < c.WIDTH; omega⟩

theorem legalRun_letterOps (hl : atLetter st) (hc : isControl ch = false)
    (hu : ch = chr 'u' → c.savedCursor.1 ≤ c.HEIGHT ∧ c.savedCursor.2 < c.WIDTH) :
    LegalRun ch st c c (letterOps ch st c) := by
  have hattr : ∀ a : Attrs, a.savedCursor = c.savedCursor → LegalRun ch st c c [.attrs a] :=
    fun a ha => legalRun_still ⟨hr, Or.inl ha⟩ ⟨hr.row, hr.col⟩
  rw [letterOps]
  refine legalRun_ite (fun _ => ?_) fun _ => ?_
  · refine legalRun_ite (fun _ => ?_) fun _ => legalRun_nil hr
    refine legalRun_ite (fun _ => hattr _ rfl) fun _ => ?_
    exact legalRun_ite (fun _ => hattr _ rfl) fun _ => legalRun_nil hr
  refine legalRun_ite (fun h => ?_) fun _ => ?_
  · refine legalRun_ite (fun hsize => ?_) fun _ => legalRun_nil hr
    exact legalRun_print hs hr ⟨hc, Or.inr (Or.inr ⟨hl, h.1, h.2, hsize⟩)⟩ _
  refine legalRun_ite (fun _ => ?_) fun _ => legalRun_ansiOps hs hr hl hu
  refine legalRun_ite (fun _ => legalRun_still hr hr) fun _ => ?_
  exact legalRun_ite (fun _ => legalRun_still hr hr) fun _ => legalRun_nil hr

theorem legalRun_scannerOps (hc : isControl ch = false)
    (hu : restoresCursor ch st → c.savedCursor.1 ≤ c.HEIGHT ∧ c.savedCursor.2 < c.WIDTH) :
    LegalRun ch st c c (scannerOps ch st c) := by
  have hattr : ∀ a : Attrs, a.savedCursor = c.savedCursor → LegalRun ch st c c [.attrs a] :=
    fun a ha => legalRun_still ⟨hr, Or.inl ha⟩ ⟨hr.row, hr.col⟩
  rw [scannerOps]
  cases hn : st.next with
  | normaltext =>
      exact legalRun_ite (fun _ => legalRun_nil hr)
        fun h => legalRun_print hs hr ⟨hc, Or.inl ⟨hn, h⟩⟩ _
  | waitsquarebracket =>
      refine legalRun_ite (fun _ => legalRun_nil hr) fun _ => ?_
      refine legalRun_ite (fun h => legalRun_print hs hr ⟨hc, Or.inr (Or.inl ⟨hn, h⟩)⟩ _) fun _ => ?_
      refine legalRun_ite (fun _ => ?_) fun _ => legalRun_nil hr
      -- `ESC c` resets the attributes first
      exact legalRun_cons ⟨hr, Or.inl rfl⟩
        (legalRun_home (c := c.setAttrs c.resetAttrib.attrs) (hs.congr rfl) ⟨hr.row, hr.col⟩)
  | selectescape =>
      exact legalRun_ite (fun _ => legalRun_nil hr)
        fun _ => legalRun_letterOps hs hr (Or.inl hn) hc fun h => hu ⟨Or.inl hn, h⟩
  | readDigit =>
      exact legalRun_ite (fun _ => legalRun_nil hr)
        fun _ => legalRun_letterOps hs hr (Or.inr hn) hc fun h => hu ⟨Or.inr hn, h⟩
  | altCharset =>
      refine legalRun_ite (fun _ => hattr _ rfl) fun _ => ?_
      exact legalRun_ite (fun _ => hattr _ rfl) fun _ => legalRun_nil hr

theorem legalRun_actionOps (b : Build)
    (hu : restoresCursor ch st → c.savedCursor.1 ≤ c.HEIGHT ∧ c.savedCursor.2 < c.WIDTH) :
    LegalRun ch st c c (actionOps b ch st c) :=
  legalRun_ite (fun _ => legalRun_controlOps hs hr b fun _ => rfl)
    fun h => legalRun_scannerOps hs hr (by simpa using h) hu

end Legal

/-! ## A whole byte -/

section Fixup
variable {ch : Byte} {st : ScnState} {c₀ c : Ctx}

theorem geometry_foldl (ops : List TextOp) (c : Ctx) :
    (ops.foldl TextOp.ctx c).geometry = c.geometry := by
  induction ops generalizing c with
  | nil => rfl
  | cons op ops ih => rw [List.foldl_cons, ih, TextOp.geometry_ctx]

/-- The fix-ups bring the cursor back into the grid. -/
theorem fixupOps_legal (hs : c.Sized) (hn : c.Near ch st c₀) :
    Along TextOp.ctx (TextOp.Legal ch st c₀) c (fixupOps c) ∧
      ((fixupOps c).foldl TextOp.ctx c).InRange := by
  have hrows := hs.rows; have hcols := hs.cols; have hH := hs.height_lt
  -- the last row, after a scroll
  have hscroll : ∀ d : Ctx, d.geometry = c.geometry → d.cursorRow = d.HEIGHT → d.cursorCol < d.WIDTH →
      scrollOps d = [.scroll] ∧ (TextOp.ctx d .scroll).InRange := by
    intro d hd hrow hcol
    have hsd := hs.congr hd
    have h1 : u32 ((d.cursorRow : ℤ) - 1) = d.HEIGHT - 1 := by rw [hrow]; exact hsd.u32_lastRow
    refine ⟨by rw [scrollOps, if_pos hrow.ge], ?_, hcol⟩
    change u32 ((d.cursorRow : ℤ) - 1) < d.HEIGHT
    have := hsd.rows
    omega
  rw [fixupOps]
  cases hn with
  | inside h =>
      have hw : wrapOps c = [] := by rw [wrapOps, if_neg (by have := h.col; omega)]
      have hsc : scrollOps c = [] := by rw [scrollOps, if_neg (by have := h.row; omega)]
      rw [hw, List.foldl_nil, hsc]
      exact ⟨trivial, h⟩
  | below hrow hcol =>
      have hw : wrapOps c = [] := by rw [wrapOps, if_neg (by omega)]
      obtain ⟨hops, hin⟩ := hscroll c rfl hrow hcol
      rw [hw, List.foldl_nil, hops]
      exact ⟨⟨⟨hrow, hcol⟩, trivial⟩, hin⟩
  | behind hrow hcol hend =>
      have hw : wrapOps c = [.move (c.cursorRow + 1) 0] := by rw [wrapOps, if_pos hcol.ge]
      rw [hw]
      by_cases hlast : c.cursorRow + 1 = c.HEIGHT
      · obtain ⟨hops, hin⟩ := hscroll (c.setCursor (c.cursorRow + 1) 0) rfl hlast hcols
        have hops' : scrollOps ([TextOp.move (c.cursorRow + 1) 0].foldl TextOp.ctx c) = [.scroll] := hops
        rw [hops']
        exact ⟨⟨⟨hrow, hcol.le, hcols, Or.inr ⟨hlast, hlast ▸ hend hlast⟩⟩, ⟨hlast, hcols⟩, trivial⟩, hin⟩
      · have hops' : scrollOps ([TextOp.move (c.cursorRow + 1) 0].foldl TextOp.ctx c) = [] := by
          change scrollOps (c.setCursor (c.cursorRow + 1) 0) = []
          rw [scrollOps, if_neg]
          change ¬c.HEIGHT ≤ c.cursorRow + 1
          omega
        rw [hops', List.append_nil]
        refine ⟨⟨⟨hrow, hcol.le, hcols, Or.inl ?_⟩, trivial⟩, ?_, hcols⟩
        · omega
        · change c.cursorRow + 1 < c.HEIGHT
          omega

/-- **The operations of a byte are legal** and leave the cursor inside the grid. -/
theorem textOps_legal (b : Build) (hs : c.Sized) (hr : c.InRange)
    (hu : restoresCursor ch st → c.savedCursor.1 ≤ c.HEIGHT ∧ c.savedCursor.2 < c.WIDTH) :
    Along TextOp.ctx (TextOp.Legal ch st c) c (textOps b ch st c) ∧
      ((textOps b ch st c).foldl TextOp.ctx c).InRange := by
  have hact := legalRun_actionOps hs hr b hu
  have hacts : LegalRun ch st c c (.wait :: actionOps b ch st c) := legalRun_cons hr hact
  have hsized : ((TextOp.wait :: actionOps b ch st c).foldl TextOp.ctx c).Sized :=
    hs.congr (geometry_foldl _ c)
  have hfix := fixupOps_legal hsized hacts.near
  rw [textOps]
  rw [along_append, List.foldl_append]
  exact ⟨⟨hacts.along, hfix.1⟩, hfix.2⟩

end Fixup

/-! ## The terminal executes the operations of a byte -/

/-- The fix-ups of the source are the fix-up operations, near the grid. -/
theorem fixup_ops (b : Build) {g : Gfx} (hs : g.ctx.Sized) {ch : Byte} {st : ScnState} {c₀ : Ctx}
    (hn : g.ctx.Near ch st c₀) : scrollFixup (wrapFixup g) = runOps b (fixupOps g.ctx) g := by
  have hscroll : ∀ g : Gfx, scrollFixup g = runOps b (scrollOps g.ctx) g := fun g => by
    rw [scrollFixup, scrollOps]
    exact runOps_ite b (fun _ => rfl) fun _ => rfl
  have hwrap : wrapFixup g = runOps b (wrapOps g.ctx) g := by
    rw [wrapFixup, wrapOps]
    refine runOps_ite b (fun h => ?_) fun _ => rfl
    have hrow : g.ctx.cursorRow < g.ctx.HEIGHT := by
      cases hn with
      | inside h => exact h.row
      | below hrow hcol => omega
      | behind hrow _ _ => exact hrow
    rw [relocate]
    simp only [hs.u32_row hrow]
    rfl
  rw [hscroll, hwrap, ctx_runOps, fixupOps, runOps_append]

/-- **A byte of text does what its operations do.** -/
theorem putByte_textOps (b : Build) {ch : Byte} {t : Term} (hs : t.g.ctx.Sized) (hr : t.g.ctx.InRange)
    (hG : ¬isGsxCall ch t.scn)
    (hu : restoresCursor ch t.scn → t.g.ctx.savedCursor.1 ≤ t.g.ctx.HEIGHT ∧
      t.g.ctx.savedCursor.2 < t.g.ctx.WIDTH) :
    (putByte b ch t).g = runOps b (textOps b ch t.scn t.g.ctx) t.g := by
  have hact := byteAction_ops b (t := { t with g := t.g.draw dmaWait }) hs hr hG
  have hacts : LegalRun ch t.scn t.g.ctx t.g.ctx (.wait :: actionOps b ch t.scn t.g.ctx) :=
    legalRun_cons hr (legalRun_actionOps hs hr b hu)
  have hnear := hacts.near
  have hsized : ((TextOp.wait :: actionOps b ch t.scn t.g.ctx).foldl TextOp.ctx t.g.ctx).Sized :=
    hs.congr (geometry_foldl _ _)
  rw [putByte, textOps]
  dsimp only
  rw [runOps_append, hact]
  change scrollFixup (wrapFixup (runOps b (.wait :: actionOps b ch t.scn t.g.ctx) t.g)) = _
  rw [← ctx_runOps b] at hnear hsized ⊢
  exact fixup_ops b hsized hnear

end Pigfx
