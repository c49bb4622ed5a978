import Pigfx.Gfx.Rendition

/-!
# Where the cursor goes

The parameters of a movement are unsigned; the arithmetic of the movements is that of `int`.
A parameter from 2³¹ on is a negative number of rows, and one row before the first is one
behind the last.

## Main definitions

* `Arrow` — the four directions, `Arrow.target` — where they should lead.
* `arrow_saturates_iff` — when they lead there.
* `Address` — the fields of `ESC [ row ; col H`.
* `address_iff` — when the cursor gets there.
-/

namespace Pigfx
open Lib

/-! ## A sequence and its letter -/

section Sequence
variable (b : Build) {t : Term} (hready : t.scn.Ready)
include hready

/-- A sequence without a prefix is its letter, which acts on the numbers of its parameters. -/
theorem putstring_letter (h : t.AtRest) {d : List Byte} {ds : List (List Byte)}
    (hd : ∀ e ∈ d :: ds, ∀ x ∈ e, isDigit x) (hlen : ds.length + 1 ≤ CMD_PARAMS_LENGTH) {L : Byte}
    (hL : isFinal L) (hP : L ≠ chr '?' ∧ L ≠ chr '#') :
    let t' := gfxTermPutstring b (sequenceOf none d ds L) t
    ∃ t₁ : Term, t.g.SameScreen t₁.g ∧ atLetter t₁.scn ∧ t₁.scn.privateModeChar = 0 ∧
      t₁.scn.Reads (sequenceValues d ds) ∧ t' = putByte b L t₁ ∧ t'.Between := by
  intro t'
  have hread : t' = putByte b L (runBytes b (runBytes b t [TERM_ESCAPE_CHAR, chr '['])
      (d ++ ds.flatMap fun e => chr ';' :: e)) := by
    change gfxTermPutstring b _ t = _
    rw [putstring_sequenceOf b t (by simp) hd hL.2.2.2, runBytes_sequence]
    rfl
  obtain ⟨hopened, hn⟩ := sameScreen_opened b h.inRange h.next
  obtain ⟨hmode, hreads⟩ := reads_parameters b h.next hready hd hlen
  generalize runBytes b t [TERM_ESCAPE_CHAR, chr '['] = t₀ at *
  have hr : t₀.g.ctx.InRange := by rw [hopened.ctx]; exact h.inRange
  obtain ⟨hbody, hat⟩ := sameScreen_parameters b _ (isParameter_body hd) hr (Or.inl hn)
  have hnext := (putByte_final b hat hL hP).2
  exact ⟨_, hopened.trans hbody, hat, hmode, hreads, hread, by rw [hread]; exact hnext,
    ready_runBytes b hready _⟩

/-- A sequence does what its letter stands for, if that leaves the cursor in the grid. -/
theorem sequence_ops (h : t.AtRest) (hs : t.g.ctx.Sized) {d : List Byte} {ds : List (List Byte)}
    (hd : ∀ e ∈ d :: ds, ∀ x ∈ e, isDigit x) (hlen : ds.length + 1 ≤ CMD_PARAMS_LENGTH) {L : Byte}
    (hL : isAnsiLetter L) {ops : List TextOp}
    (hops : ∀ st : ScnState, st.Reads (sequenceValues d ds) → ansiOps L st t.g.ctx = ops)
    (hin : (ops.foldl TextOp.ctx t.g.ctx).InRange) :
    let t' := gfxTermPutstring b (sequenceOf none d ds L) t
    (runOps b ops t.g).SameScreen t'.g ∧ t'.Between := by
  intro t'
  obtain ⟨t₁, hsame, hat, hmode, hreads, hput, hbetween⟩ := putstring_letter b hready h hd hlen hL.1 hL.2.1
  have hacts : actionOps b L t₁.scn t₁.g.ctx = ops := by
    rw [actionOps_letter hat hL.1 hL.2.1 b t₁.g.ctx (by rw [hmode]; decide), hsame.ctx]
    exact hops _ hreads
  have hacted := putByte_ops b (t := t₁) (by rw [hsame.ctx]; exact hs) (by rw [hsame.ctx]; exact h.inRange)
    (fun hcall => hL.2.2 hcall.2.2) hacts (by rw [hsame.ctx]; exact hin)
  have hwait : t₁.g.SameScreen (t₁.g.draw dmaWait) := ⟨rfl, rfl, rfl⟩
  refine ⟨?_, hbetween⟩
  change (runOps b ops t.g).SameScreen (gfxTermPutstring b _ t).g
  rw [hput, hacted]
  exact (hsame.trans hwait).runOps b ops

/-- A sequence whose letter moves the cursor to a place in the grid. -/
theorem moves_sequence (h : t.AtRest) (hs : t.g.ctx.Sized) {d : List Byte} {ds : List (List Byte)}
    (hd : ∀ e ∈ d :: ds, ∀ x ∈ e, isDigit x) (hlen : ds.length + 1 ≤ CMD_PARAMS_LENGTH) {L : Byte}
    (hL : isAnsiLetter L) {row col : ℕ}
    (hops : ∀ st : ScnState, st.Reads (sequenceValues d ds) → ansiOps L st t.g.ctx = [.move row col])
    (hrow : row < t.g.ctx.HEIGHT) (hcol : col < t.g.ctx.WIDTH) :
    let t' := gfxTermPutstring b (sequenceOf none d ds L) t
    (relocate (Ctx.setCursor row col) t.g).SameScreen t'.g ∧ t'.Between :=
  sequence_ops b hready h hs hd hlen hL hops ⟨hrow, hcol⟩

end Sequence

/-! ## Two moves -/

/-- What is rendered does not depend on the buffer, -/
theorem data_gfxTermRenderCursor_congr (c : Ctx) {p q : Pix} (hdata : q.bus.data = p.bus.data) :
    (gfxTermRenderCursor c q).bus.data = (gfxTermRenderCursor c p).bus.data := by
  refine iterate_relation c.fontHeight _ _ _ _ (fun x y : Pix => x.bus.data = y.bus.data) hdata ?_
  intro i x y _ hxy
  exact data_renderWord_congr c _ _ (data_renderWord_congr c _ _ hxy)

/-- and the buffer keeps what lies behind the cell. -/
theorem cursorBuffer_gfxTermRenderCursor_of_le (c : Ctx) (p : Pix) {j : ℕ} (hj : 2 * c.fontHeight ≤ j) :
    (gfxTermRenderCursor c p).cursorBuffer j = p.cursorBuffer j := by
  refine iterate_induction c.fontHeight _ _ (fun _ (q : Pix) => q.cursorBuffer j = p.cursorBuffer j) rfl ?_
  intro i q hi h
  rw [cursorBuffer_renderWord, if_neg (by omega), cursorBuffer_renderWord, if_neg (by omega)]
  exact h

theorem same_gfxTermRenderCursor_of_data {c : Ctx} (hstep : 8 ≤ c.rowStep) {p q : Pix}
    (hdata : q.bus.data = p.bus.data)
    (htail : ∀ j, 2 * c.fontHeight ≤ j → q.cursorBuffer j = p.cursorBuffer j) :
    (gfxTermRenderCursor c p).Same (gfxTermRenderCursor c q) := by
  refine ⟨?_, data_gfxTermRenderCursor_congr c hdata⟩
  funext j
  by_cases hj : 2 * c.fontHeight ≤ j
  · rw [cursorBuffer_gfxTermRenderCursor_of_le c q hj, cursorBuffer_gfxTermRenderCursor_of_le c p hj]
    exact htail j hj
  · have hp := (saved_gfxTermRenderCursor hstep p).buffer (j / 2) (by omega) (j % 2) (by omega)
    have hq := (saved_gfxTermRenderCursor hstep q).buffer (j / 2) (by omega) (j % 2) (by omega)
    rw [Nat.div_add_mod] at hp hq
    rw [hp, hq]
    exact Bus.word_congr fun k _ => by rw [hdata]

/-- **Only the last move counts**: a cell that is passed is put back. -/
theorem relocate_relocate {g : Gfx} (hstep : 8 ≤ g.ctx.rowStep) (row col row' col' : ℕ) :
    (relocate (Ctx.setCursor row' col') g).SameScreen
      (relocate (Ctx.setCursor row' col') (relocate (Ctx.setCursor row col) g)) := by
  have hdata : (gfxRestoreCursorContent (g.ctx.setCursor row col)
      (relocate (Ctx.setCursor row col) g).pix).bus.data = (gfxRestoreCursorContent g.ctx g.pix).bus.data :=
    (data_gfxRestoreCursorContent (c := g.ctx.setCursor row col) hstep _).trans
      (logicalScreen_gfxTermRenderCursor (c := g.ctx.setCursor row col) hstep _)
  have hsame := same_gfxTermRenderCursor_of_data (c := g.ctx.setCursor row' col') hstep hdata
    fun j hj => cursorBuffer_gfxTermRenderCursor_of_le (g.ctx.setCursor row col) _ hj
  exact ⟨rfl, hsame.1, hsame.2⟩

/-! ## Clamped coordinates -/

/-- A coordinate of `gfx_term_move_cursor` in a grid of `m`. -/
def clampTo (m : ℕ) (v : ℤ) : ℕ := min (u32 (m - 1)) (if 0 < v then v.toNat else 0)

theorem clampTo_eq {m : ℕ} (hm : 0 < m) (hlt : m < 2 ^ 31) (v : ℤ) : clampTo m v = min (m - 1) v.toNat := by
  have hlast : u32 ((m : ℤ) - 1) = m - 1 := by
    rw [u32_of_nonneg (by omega) (by omega)]
    omega
  rw [clampTo, hlast]
  split <;> omega

theorem i32_cases {x : ℤ} (hlo : -2 ^ 32 ≤ x) (hhi : x < 2 ^ 32) :
    -2 ^ 31 ≤ x ∧ x < 2 ^ 31 ∧ i32 x = x ∨ 2 ^ 31 ≤ x ∧ i32 x = x - 2 ^ 32 ∨
      x < -2 ^ 31 ∧ i32 x = x + 2 ^ 32 := by
  unfold i32
  rw [Int.bmod_def]
  split <;> omega

section Clamp
variable {m x n : ℕ} (hx : x < m) (hm : m < 2 ^ 31) (hn : n < 2 ^ 32)
include hx hm

theorem clampTo_stay : clampTo m x = x := by
  rw [clampTo_eq (by omega) hm]
  omega

include hn

/-- Backwards, as the code computes it. -/
theorem clampTo_back_iff : clampTo m (max 0 (i32 (x - i32 n))) = x - n ↔ n ≤ 2 ^ 31 + x ∨ m = 1 := by
  have hint := i32_cases (x := (n : ℤ)) (by omega) (by omega)
  have hdiff := i32_cases (x := (x : ℤ) - i32 n) (by omega) (by omega)
  rw [clampTo_eq (by omega) hm]
  omega

/-- Forwards. -/
theorem clampTo_forth_iff :
    clampTo m (min ((m : ℤ) - 1) (i32 (x + i32 n))) = min (m - 1) (x + n) ↔ x + n < 2 ^ 31 ∨ m = 1 := by
  have hint := i32_cases (x := (n : ℤ)) (by omega) (by omega)
  have hsum := i32_cases (x := (x : ℤ) + i32 n) (by omega) (by omega)
  rw [clampTo_eq (by omega) hm]
  omega

end Clamp

/-! ## Relative motion -/

/-- The letters that move the cursor by a number of rows or columns. -/
inductive Arrow
  | up
  | down
  | right
  | left
  deriving DecidableEq, Repr

namespace Arrow

/-- The letter itself. -/
def byte : Arrow → Byte
  | up => chr 'A'
  | down => chr 'B'
  | right => chr 'C'
  | left => chr 'D'

/-- Where `n` rows or columns lead: no further than to the edge. -/
def target (n : ℕ) (c : Ctx) : Arrow → ℕ × ℕ
  | up => (c.cursorRow - n, c.cursorCol)
  | down => (min (c.HEIGHT - 1) (c.cursorRow + n), c.cursorCol)
  | right => (c.cursorRow, min (c.WIDTH - 1) (c.cursorCol + n))
  | left => (c.cursorRow, c.cursorCol - n)

/-- The sum or difference is an `int`, or there is nowhere else to go. -/
def Fits (n : ℕ) (c : Ctx) : Arrow → Prop
  | up => n ≤ 2 ^ 31 + c.cursorRow ∨ c.HEIGHT = 1
  | down => c.cursorRow + n < 2 ^ 31 ∨ c.HEIGHT = 1
  | right => c.cursorCol + n < 2 ^ 31 ∨ c.WIDTH = 1
  | left => n ≤ 2 ^ 31 + c.cursorCol ∨ c.WIDTH = 1

/-- Where they lead in the code. -/
def reached (n : ℕ) (c : Ctx) : Arrow → ℕ × ℕ
  | up => (clampTo c.HEIGHT (max 0 (i32 (c.cursorRow - i32 n))), clampTo c.WIDTH c.cursorCol)
  | down => (clampTo c.HEIGHT (min (c.HEIGHT - 1) (i32 (c.cursorRow + i32 n))), clampTo c.WIDTH c.cursorCol)
  | right => (clampTo c.HEIGHT c.cursorRow, clampTo c.WIDTH (min (c.WIDTH - 1) (i32 (c.cursorCol + i32 n))))
  | left => (clampTo c.HEIGHT c.cursorRow, clampTo c.WIDTH (max 0 (i32 (c.cursorCol - i32 n))))

/-- The number of rows or columns that a parameter stands for; without one it is one. -/
def count (d : Numeral) : ℕ := if d.1 = [] then 1 else decimal d.1 % 2 ^ 32

theorem count_lt (d : Numeral) : count d < 2 ^ 32 := by
  rw [count]
  split
  · decide
  · exact Nat.mod_lt _ (by decide)

/-- `ESC [ n` and the letter. -/
def bytes (d : Numeral) (a : Arrow) : List Byte := sequenceOf none d.1 [] a.byte

/-- The terminal receives the sequence. -/
def run (b : Build) (t : Term) (d : Numeral) (a : Arrow) : Term := gfxTermPutstring b (a.bytes d) t

/-- The count as the handler reads it. -/
theorem countParam_reads {st : ScnState} {d : Numeral} (h : st.Reads (sequenceValues d.1 [])) :
    st.countParam = i32 (count d) := by
  have hsize := h.size
  by_cases hd : d.1 = []
  · rw [sequenceValues, if_pos ⟨hd, rfl⟩] at hsize
    rw [ScnState.countParam, if_neg (by simp [hsize]), count, if_pos hd]
    rfl
  · have hvalues : sequenceValues d.1 [] = [count d] := by
      rw [sequenceValues, if_neg (fun h => hd h.1), count, if_neg hd]
      rfl
    rw [hvalues] at h hsize
    have hvalue := h.value 0 (by simp)
    rw [ScnState.countParam, if_pos (by simp [hsize]), ScnState.intParam, hvalue]
    exact BitVec.toInt_ofNat' _

theorem ansiOps_arrow {st : ScnState} {d : Numeral} (h : st.Reads (sequenceValues d.1 [])) (c : Ctx)
    (a : Arrow) :
    ansiOps a.byte st c = [.move (a.reached (count d) c).1 (a.reached (count d) c).2] := by
  have hcount := countParam_reads h
  cases a with
  | up =>
      change [c.moveOp (max 0 (i32 (c.cursorRow - st.countParam))) c.cursorCol] = _
      rw [hcount]
      rfl
  | down =>
      change [c.moveOp (min (c.HEIGHT - 1) (i32 (c.cursorRow + st.countParam))) c.cursorCol] = _
      rw [hcount]
      rfl
  | right =>
      change [c.moveOp c.cursorRow (min (c.WIDTH - 1) (i32 (c.cursorCol + st.countParam)))] = _
      rw [hcount]
      rfl
  | left =>
      change [c.moveOp c.cursorRow (max 0 (i32 (c.cursorCol - st.countParam)))] = _
      rw [hcount]
      rfl

section Grid
variable {c : Ctx} (hs : c.Sized) (hr : c.InRange)
include hs hr

/-- **The arrow leads to its target** exactly if the arithmetic fits. -/
theorem reached_eq_target_iff {n : ℕ} (hn : n < 2 ^ 32) (a : Arrow) :
    a.reached n c = a.target n c ↔ a.Fits n c := by
  have hrow := clampTo_stay hr.row hs.height_lt
  have hcol := clampTo_stay hr.col hs.width_lt
  cases a with
  | up =>
      rw [reached, target, Prod.mk.injEq, hcol, clampTo_back_iff hr.row hs.height_lt hn]
      exact and_iff_left rfl
  | down =>
      rw [reached, target, Prod.mk.injEq, hcol, clampTo_forth_iff hr.row hs.height_lt hn]
      exact and_iff_left rfl
  | right =>
      rw [reached, target, Prod.mk.injEq, hrow, clampTo_forth_iff hr.col hs.width_lt hn]
      exact and_iff_right rfl
  | left =>
      rw [reached, target, Prod.mk.injEq, hrow, clampTo_back_iff hr.col hs.width_lt hn]
      exact and_iff_right rfl

omit hr in
/-- In any case it leads to a place in the grid. -/
theorem reached_lt (n : ℕ) (a : Arrow) : (a.reached n c).1 < c.HEIGHT ∧ (a.reached n c).2 < c.WIDTH := by
  have hrow : ∀ v, clampTo c.HEIGHT v < c.HEIGHT := by
    intro v
    have hpos := hs.rows
    rw [clampTo_eq hpos hs.height_lt]
    omega
  have hcol : ∀ v, clampTo c.WIDTH v < c.WIDTH := by
    intro v
    have hpos := hs.cols
    rw [clampTo_eq hpos hs.width_lt]
    omega
  cases a <;> exact ⟨hrow _, hcol _⟩

omit hs hr in
/-- A part of a count that fits, fits. -/
theorem Fits.part {m n : ℕ} {a : Arrow} (h : a.Fits (m + n) c) : a.Fits m c := by
  cases a <;> simp only [Fits] at * <;> omega

/-- So does the rest, from where the part has led. -/
theorem Fits.rest {m n : ℕ} {a : Arrow} (h : a.Fits (m + n) c) :
    a.Fits n (c.setCursor (a.target m c).1 (a.target m c).2) := by
  have hrow := hr.row; have hcol := hr.col
  have hH := hs.height_lt; have hW := hs.width_lt
  cases a <;> simp only [Fits, target, Ctx.setCursor] at * <;> omega

omit hs hr in
theorem target_add (m n : ℕ) (a : Arrow) :
    a.target n (c.setCursor (a.target m c).1 (a.target m c).2) = a.target (m + n) c := by
  have hback : ∀ x : ℕ, x - m - n = x - (m + n) := by omega
  have hforth : ∀ k x : ℕ, min (k - 1) (min (k - 1) (x + m) + n) = min (k - 1) (x + (m + n)) := by omega
  cases a with
  | up => exact congrArg (·, c.cursorCol) (hback c.cursorRow)
  | down => exact congrArg (·, c.cursorCol) (hforth c.HEIGHT c.cursorRow)
  | right => exact congrArg (c.cursorRow, ·) (hforth c.WIDTH c.cursorCol)
  | left => exact congrArg (c.cursorRow, ·) (hback c.cursorCol)

end Grid

section Run
variable (b : Build) {t : Term} (hready : t.scn.Ready) (h : t.AtRest) (hs : t.g.ctx.Sized)
include hready h hs

/-- The sequence moves the cursor to where the arrow leads. -/
theorem run_spec (d : Numeral) (a : Arrow) :
    (relocate (Ctx.setCursor (a.reached (count d) t.g.ctx).1 (a.reached (count d) t.g.ctx).2) t.g).SameScreen
      (a.run b t d).g ∧ (a.run b t d).Between := by
  have hlt := reached_lt hs (count d) a
  have hL : isAnsiLetter a.byte := by cases a <;> decide
  refine moves_sequence b hready h hs ?_ (by decide) hL (fun st hst => ansiOps_arrow hst t.g.ctx a) hlt.1 hlt.2
  intro e he
  rw [List.mem_singleton] at he
  rw [he]
  exact d.2

theorem cursor_run (d : Numeral) (a : Arrow) :
    ((a.run b t d).g.ctx.cursorRow, (a.run b t d).g.ctx.cursorCol) = a.reached (count d) t.g.ctx := by
  rw [(run_spec b hready h hs d a).1.ctx]
  rfl

/-- Two sequences that fit do what one does. -/
theorem run_run {d d₁ d₂ : Numeral} {a : Arrow} (hsum : count d₁ + count d₂ = count d)
    (hfits : a.Fits (count d) t.g.ctx) : (a.run b t d).g.SameScreen (a.run b (a.run b t d₁) d₂).g := by
  rw [← hsum] at hfits
  obtain ⟨hfirst, hbetween⟩ := run_spec b hready h hs d₁ a
  have hwhole := (run_spec b hready h hs d a).1
  rw [(reached_eq_target_iff hs h.inRange (count_lt d₁) a).mpr hfits.part] at hfirst
  rw [(reached_eq_target_iff hs h.inRange (count_lt d) a).mpr (hsum ▸ hfits)] at hwhole
  generalize a.run b t d₁ = t₁ at hfirst hbetween ⊢
  have hctx : t₁.g.ctx = t.g.ctx.setCursor _ _ := hfirst.ctx
  have hr₁ : t₁.g.ctx.InRange := by
    have hlt := reached_lt hs (count d₁) a
    rw [(reached_eq_target_iff hs h.inRange (count_lt d₁) a).mpr hfits.part] at hlt
    rw [hctx]
    exact ⟨hlt.1, hlt.2⟩
  have hs₁ : t₁.g.ctx.Sized := hs.congr (by rw [hctx]; rfl)
  have hrest : t₁.AtRest := ⟨hr₁, hbetween.next, by rw [hctx]; exact h.pitch⟩
  obtain ⟨hsecond, -⟩ := run_spec b hbetween.ready hrest hs₁ d₂ a
  have hreached : a.reached (count d₂) t₁.g.ctx = a.target (count d) t.g.ctx := by
    have hrest' := hfits.rest hs h.inRange
    rw [← hctx] at hrest'
    rw [(reached_eq_target_iff hs₁ hr₁ (count_lt d₂) a).mpr hrest', hctx, target_add, hsum]
  rw [hreached] at hsecond
  have hpassed := relocate_relocate h.rowStep (a.target (count d₁) t.g.ctx).1 (a.target (count d₁) t.g.ctx).2
    (a.target (count d) t.g.ctx).1 (a.target (count d) t.g.ctx).2
  exact hwhole.symm.trans (hpassed.trans ((hfirst.relocate _).trans hsecond))

end Run

end Arrow

/-- **An arrow stops at the edge**, and two of them do what one does, exactly if the sum or
the difference of the coordinate and the parameter fits into an `int`. -/
theorem arrow_saturates_iff (b : Build) (t : Term) (hready : t.scn.Ready) (h : t.AtRest) (hs : t.g.ctx.Sized)
    (a : Arrow) (d : Numeral) :
    (((a.run b t d).g.ctx.cursorRow, (a.run b t d).g.ctx.cursorCol) = a.target (Arrow.count d) t.g.ctx ∧
      ∀ d₁ d₂ : Numeral, Arrow.count d₁ + Arrow.count d₂ = Arrow.count d →
        (a.run b t d).g.SameScreen (a.run b (a.run b t d₁) d₂).g) ↔
      a.Fits (Arrow.count d) t.g.ctx := by
  rw [Arrow.cursor_run b hready h hs, Arrow.reached_eq_target_iff hs h.inRange (Arrow.count_lt d)]
  exact and_iff_left_of_imp fun hfits d₁ d₂ hsum => Arrow.run_run b hready h hs hsum hfits

/-- The terminal at the start. -/
theorem Term.atRest_start (b : Build) (pFramebuffer : ℤ) {width height pitch : ℕ} (size : ℕ) (data : ℤ → Byte)
    (hw : 8 ≤ width) (hw' : width < 2 ^ 31) (hh : 32 ≤ height) (hh' : height < 2 ^ 31) (hp : 8 ≤ pitch) :
    let t := Term.start b pFramebuffer width height pitch size data
    t.AtRest ∧ t.scn.Ready ∧ t.g.ctx.Sized := by
  intro t
  have hsteady : t.Steady := steady_start b pFramebuffer pitch size data hw hw' hh hh'
  exact ⟨⟨hsteady.ctx.toInRange, rfl, hp⟩, ⟨fun _ => rfl, Nat.zero_le _⟩, hsteady.ctx.toSized⟩

theorem Term.atRest_vga :
    let t := Term.start .shipped 0 640 480 640 307200 (fun _ => 0)
    t.AtRest ∧ t.scn.Ready ∧ t.g.ctx.Sized :=
  Term.atRest_start .shipped 0 307200 _ (by decide) (by decide) (by decide) (by decide) (by decide)

/-- `ESC [ 3 B` from the first row. -/
theorem arrow_saturates_iff_down :
    let t := Term.start .shipped 0 640 480 640 307200 (fun _ => 0)
    let n : Numeral := ⟨text "3", by decide⟩
    ((Arrow.down.run .shipped t n).g.ctx.cursorRow,
      (Arrow.down.run .shipped t n).g.ctx.cursorCol) = (3, 0) := by
  intro t n
  obtain ⟨hrest, hready, hsized⟩ : t.AtRest ∧ t.scn.Ready ∧ t.g.ctx.Sized := Term.atRest_vga
  have hfits : Arrow.down.Fits (Arrow.count n) t.g.ctx := Or.inl (by decide)
  have htarget : Arrow.down.target (Arrow.count n) t.g.ctx = (3, 0) := by decide
  rw [← htarget]
  exact ((arrow_saturates_iff .shipped t hready hrest hsized .down n).mpr hfits).1

/-- `ESC [ 4294967295 A` moves down. -/
theorem arrow_up_goes_down :
    let t := Term.start .shipped 0 640 480 640 307200 (fun _ => 0)
    let n : Numeral := ⟨text "4294967295", by decide⟩
    t.AtRest ∧ t.scn.Ready ∧ t.g.ctx.Sized ∧ Arrow.up.bytes n = text "\x1b[4294967295A" ∧
      (Arrow.up.run .shipped t n).g.ctx.cursorRow = 1 ∧ Arrow.target (Arrow.count n) t.g.ctx .up = (0, 0) := by
  intro t n
  obtain ⟨hrest, hready, hsized⟩ : t.AtRest ∧ t.scn.Ready ∧ t.g.ctx.Sized := Term.atRest_vga
  exact ⟨hrest, hready, hsized, by decide, by decide, by decide⟩

/-! ## Absolute addressing -/

/-- The letters of absolute addressing. -/
inductive AddressLetter
  | H
  | f
  deriving DecidableEq, Repr

def AddressLetter.byte : AddressLetter → Byte
  | H => chr 'H'
  | f => chr 'f'

/-- `ESC [ row ; col H`.  A field is a numeral, and may be empty; the second may be left out.
Without a second field, an empty first field is the same as none. -/
structure Address where
  letter : AddressLetter
  row : Numeral
  col : Option Numeral
  rowSmall : decimal row.1 < 2 ^ 32
  colSmall : ∀ c ∈ col, decimal c.1 < 2 ^ 32

namespace Address

def bytes (a : Address) : List Byte :=
  sequenceOf none a.row.1 (a.col.toList.map Subtype.val) a.letter.byte

/-- The terminal receives the sequence. -/
def run (b : Build) (t : Term) (a : Address) : Term := gfxTermPutstring b a.bytes t

/-- A field that is empty is one. -/
def field (d : Numeral) : ℕ := if d.1 = [] then 1 else decimal d.1

/-- The row that is asked for, counted from zero. -/
def targetRow (a : Address) (c : Ctx) : ℕ := min (max (field a.row) 1) c.HEIGHT - 1

/-- The column. -/
def targetCol (a : Address) (c : Ctx) : ℕ := min (max ((a.col.map field).getD 1) 1) c.WIDTH - 1

/-- The row is not given at all, or is not zero, or there is no other.  A row that is left empty
before a column is zero. -/
def RowGiven (a : Address) (c : Ctx) : Prop :=
  a.row.1 = [] ∧ a.col = none ∨ decimal a.row.1 ≠ 0 ∨ c.HEIGHT = 1

/-- The same of the column. -/
def ColGiven (a : Address) (c : Ctx) : Prop := (∀ d ∈ a.col, decimal d.1 ≠ 0) ∨ c.WIDTH = 1

/-- A coordinate counted from one, as the code counts it from zero. -/
def pred (m v : ℕ) : ℕ := clampTo m (min (u32 ((v : ℤ) - 1)) (m - 1) : ℕ)

theorem pred_eq_iff {m v : ℕ} (hm : 0 < m) (hlt : m < 2 ^ 31) (hv : v < 2 ^ 32) :
    pred m v = min (max v 1) m - 1 ↔ v ≠ 0 ∨ m = 1 := by
  rw [pred, clampTo_eq hm hlt]
  rcases Nat.eq_zero_or_pos v with rfl | hpos
  · have hwrap : u32 (((0 : ℕ) : ℤ) - 1) = 2 ^ 32 - 1 := rfl
    rw [hwrap]
    omega
  · rw [u32_of_nonneg (by omega) (by omega)]
    omega

/-- The row that the handler reads. -/
def readRow (a : Address) : ℕ := if a.row.1 = [] ∧ a.col = none then 1 else decimal a.row.1

/-- The column. -/
def readCol (a : Address) : ℕ := (a.col.map fun d => decimal d.1).getD 1

theorem readRow_lt (a : Address) : a.readRow < 2 ^ 32 := by
  rw [readRow]
  split
  · decide
  · exact a.rowSmall

theorem readCol_lt (a : Address) : a.readCol < 2 ^ 32 := by
  have hsmall := a.colSmall
  rw [readCol]
  cases hcol : a.col with
  | none => decide
  | some d => exact hsmall d hcol

/-- What is read and what is asked for differ in zero only. -/
theorem max_field_row (a : Address) : max (field a.row) 1 = max a.readRow 1 := by
  rw [field, readRow]
  by_cases hrow : a.row.1 = []
  · rw [if_pos hrow]
    split
    · rfl
    · rw [hrow]
      rfl
  · rw [if_neg hrow, if_neg (fun h => hrow h.1)]

theorem max_field_col (a : Address) : max ((a.col.map field).getD 1) 1 = max a.readCol 1 := by
  rw [readCol]
  cases a.col with
  | none => rfl
  | some d =>
      change max (field d) 1 = max (decimal d.1) 1
      rw [field]
      split
      · rename_i hnil
        rw [hnil]
        rfl
      · rfl

theorem rowGiven_iff (a : Address) (c : Ctx) : a.RowGiven c ↔ a.readRow ≠ 0 ∨ c.HEIGHT = 1 := by
  rw [RowGiven, readRow]
  by_cases hnone : a.row.1 = [] ∧ a.col = none
  · simp [hnone]
  · simp [hnone]

theorem colGiven_iff (a : Address) (c : Ctx) : a.ColGiven c ↔ a.readCol ≠ 0 ∨ c.WIDTH = 1 := by
  rw [ColGiven, readCol]
  cases a.col with
  | none => simp
  | some d => simp

theorem digits (a : Address) : ∀ e ∈ a.row.1 :: a.col.toList.map Subtype.val, ∀ x ∈ e, isDigit x :=
  a.row.digits a.col.toList

/-- The fields as the handler reads them. -/
theorem read_eq {a : Address} {st : ScnState}
    (h : st.Reads (sequenceValues a.row.1 (a.col.toList.map Subtype.val))) :
    (if st.cmdParamsSize < 1 then 1 else (st.param 0).toNat) = a.readRow ∧
      (if st.cmdParamsSize < 2 then 1 else (st.param 1).toNat) = a.readCol := by
  have hsize := h.size
  have hrow := Nat.mod_eq_of_lt a.rowSmall
  have hsmall := a.colSmall
  rw [readRow, readCol]
  cases hcol : a.col with
  | none =>
      rw [hcol] at h hsize
      by_cases hnil : a.row.1 = []
      · rw [sequenceValues, if_pos ⟨hnil, rfl⟩] at hsize
        simp [hsize, hnil]
      · have hvalues : sequenceValues a.row.1 [] = [decimal a.row.1] := by
          rw [sequenceValues, if_neg (fun h => hnil h.1), List.map_cons, hrow]
          rfl
        change st.Reads (sequenceValues a.row.1 []) at h
        change _ = (sequenceValues a.row.1 []).length at hsize
        rw [hvalues] at h hsize
        have hparam := h.toNat_param (i := 0) (by simp)
        simpa [hsize, hnil] using hparam
  | some d =>
      rw [hcol] at h hsize
      have hvalues : sequenceValues a.row.1 [d.1] = [decimal a.row.1, decimal d.1] := by
        rw [sequenceValues, if_neg (by simp), List.map_cons, hrow, List.map_cons,
          Nat.mod_eq_of_lt (hsmall d hcol)]
        rfl
      change st.Reads (sequenceValues a.row.1 [d.1]) at h
      change _ = (sequenceValues a.row.1 [d.1]).length at hsize
      rw [hvalues] at h hsize
      have hfirst := h.toNat_param (i := 0) (by simp)
      have hsecond := h.toNat_param (i := 1) (by simp)
      simpa [hsize] using And.intro hfirst hsecond

theorem ansiOps_address {a : Address} {st : ScnState}
    (h : st.Reads (sequenceValues a.row.1 (a.col.toList.map Subtype.val))) (c : Ctx) :
    ansiOps a.letter.byte st c = [.move (pred c.HEIGHT a.readRow) (pred c.WIDTH a.readCol)] := by
  obtain ⟨hrow, hcol⟩ := read_eq h
  rw [← hrow, ← hcol]
  cases a.letter <;> rfl

theorem pred_lt {m : ℕ} (hm : 0 < m) (hlt : m < 2 ^ 31) (v : ℕ) : pred m v < m := by
  rw [pred, clampTo_eq hm hlt]
  omega

/-- The sequence moves the cursor to the place that the handler reads. -/
theorem cursor_run (b : Build) {t : Term} (hready : t.scn.Ready) (h : t.AtRest) (hs : t.g.ctx.Sized)
    (a : Address) :
    (a.run b t).g.ctx.cursorRow = pred t.g.ctx.HEIGHT a.readRow ∧
      (a.run b t).g.ctx.cursorCol = pred t.g.ctx.WIDTH a.readCol := by
  have hL : isAnsiLetter a.letter.byte := by cases a.letter <;> decide
  have hlen : (a.col.toList.map Subtype.val).length + 1 ≤ CMD_PARAMS_LENGTH := by
    cases a.col <;> simp [CMD_PARAMS_LENGTH]
  have hmoved := moves_sequence b hready h hs a.digits hlen hL (fun st hst => ansiOps_address hst t.g.ctx)
    (pred_lt hs.rows hs.height_lt a.readRow) (pred_lt hs.cols hs.width_lt a.readCol)
  have hctx : (a.run b t).g.ctx = t.g.ctx.setCursor _ _ := hmoved.1.ctx
  rw [hctx]
  exact ⟨rfl, rfl⟩

end Address

/-- **Absolute addressing** gets to the row and the column that are asked for exactly if none
of the fields that are sent is empty or zero. -/
theorem address_iff (b : Build) (t : Term) (hready : t.scn.Ready) (h : t.AtRest) (hs : t.g.ctx.Sized)
    (a : Address) :
    ((a.run b t).g.ctx.cursorRow = a.targetRow t.g.ctx ∧ (a.run b t).g.ctx.cursorCol = a.targetCol t.g.ctx) ↔
      a.RowGiven t.g.ctx ∧ a.ColGiven t.g.ctx := by
  obtain ⟨hrow, hcol⟩ := a.cursor_run b hready h hs
  rw [hrow, hcol, Address.targetRow, Address.targetCol, a.max_field_row, a.max_field_col,
    Address.pred_eq_iff hs.rows hs.height_lt a.readRow_lt, Address.pred_eq_iff hs.cols hs.width_lt a.readCol_lt,
    a.rowGiven_iff, a.colGiven_iff]

/-- `ESC [ 5 ; 10 H` -/
theorem address_iff_row_five :
    let t := Term.start .shipped 0 640 480 640 307200 (fun _ => 0)
    let a : Address := ⟨.H, ⟨text "5", by decide⟩, some ⟨text "10", by decide⟩, by decide, by decide⟩
    (a.run .shipped t).g.ctx.cursorRow = 4 ∧ (a.run .shipped t).g.ctx.cursorCol = 9 := by
  intro t a
  obtain ⟨hrest, hready, hsized⟩ : t.AtRest ∧ t.scn.Ready ∧ t.g.ctx.Sized := Term.atRest_vga
  have hgiven : a.RowGiven t.g.ctx ∧ a.ColGiven t.g.ctx := ⟨Or.inr (Or.inl (by decide)), Or.inl (by decide)⟩
  have hrow : a.targetRow t.g.ctx = 4 := by decide
  have hcol : a.targetCol t.g.ctx = 9 := by decide
  rw [← hrow, ← hcol]
  exact (address_iff .shipped t hready hrest hsized a).mpr hgiven

/-- `ESC [ ; 10 H` goes to the last row. -/
theorem address_empty_row :
    let t := Term.start .shipped 0 640 480 640 307200 (fun _ => 0)
    let a : Address := ⟨.H, ⟨[], by decide⟩, some ⟨text "10", by decide⟩, by decide, by decide⟩
    t.AtRest ∧ t.scn.Ready ∧ t.g.ctx.Sized ∧ a.bytes = text "\x1b[;10H" ∧ a.targetRow t.g.ctx = 0 ∧
      (a.run .shipped t).g.ctx.cursorRow = 28 := by
  intro t a
  obtain ⟨hrest, hready, hsized⟩ : t.AtRest ∧ t.scn.Ready ∧ t.g.ctx.Sized := Term.atRest_vga
  exact ⟨hrest, hready, hsized, by decide, by decide, by decide⟩

end Pigfx
