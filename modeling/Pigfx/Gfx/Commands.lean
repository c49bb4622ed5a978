import Pigfx.Gfx.Depict
import Mathlib.Data.List.GetD

/-!
# Commands on a screen

The operations of a control byte, of a character and of a final letter take a picture of
a grid to the picture of the grid after the command they stand for.

## Main definitions

* `ScnState.Reads`, `ScnState.Holds` — a scanner that has read a list of numbers.
* `reads_parameters` — what the letter of a sequence finds.
* `LetterCommand` — what the final letters stand for.
* `depicts_byte`, `depicts_letter` — the commands of the terminal.
-/

namespace Pigfx
open Lib

/-! ## Parameters -/

/-- The parameters of the scanner are the numbers `ps`. -/
structure ScnState.Reads (st : ScnState) (ps : List ℕ) : Prop where
  size : st.cmdParamsSize = ps.length
  value : ∀ i < ps.length, st.param i = BitVec.ofNat 32 (ps.getD i 0)
  lt : ∀ p ∈ ps, p < 2 ^ 32

namespace ScnState.Reads

variable {st : ScnState} {ps : List ℕ} (h : st.Reads ps)
include h

theorem toNat_param {i : ℕ} (hi : i < ps.length) : (st.param i).toNat = ps.getD i 0 := by
  have hlt : ps.getD i 0 < 2 ^ 32 := by
    rw [List.getD_eq_getElem _ _ hi]
    exact h.lt _ (List.getElem_mem hi)
  rw [h.value i hi, BitVec.toNat_ofNat, Nat.mod_eq_of_lt hlt]

theorem param_eq_iff {i v : ℕ} (hi : i < ps.length) (hv : v < 2 ^ 32) :
    st.param i = BitVec.ofNat 32 v ↔ ps.getD i 0 = v := by
  rw [← BitVec.toNat_inj, h.toNat_param hi, BitVec.toNat_ofNat, Nat.mod_eq_of_lt hv]

theorem setWidth_param {i : ℕ} (hi : i < ps.length) :
    (st.param i).setWidth 8 = BitVec.ofNat 8 (ps.getD i 0) := by
  rw [h.value i hi, BitVec.setWidth_ofNat_of_le (by omega)]

end ScnState.Reads

/-- The numbers that the scanner keeps of the parameters `d ; ds` of a sequence.  A sequence
that has none at all is not read as one with an empty parameter. -/
def sequenceValues (d : List Byte) (ds : List (List Byte)) : List ℕ :=
  if d = [] ∧ ds = [] then [] else (d :: ds).map fun e => decimal e % 2 ^ 32

theorem Decoded.reads {P : Option Byte} {ds : List (List Byte)} {st : ScnState} (h : Decoded P ds st)
    (hlen : ds.length ≤ CMD_PARAMS_LENGTH) : st.Reads (ds.map fun e => decimal e % 2 ^ 32) where
  size := by rw [h.size, List.length_map]
  value := by
    intro i hi
    rw [List.length_map] at hi
    have hvalue : (ds.map fun e => decimal e % 2 ^ 32).getD i 0 = decimal (ds.getD i []) % 2 ^ 32 := by
      rw [List.getD_eq_getElem _ _ (by rwa [List.length_map]), List.getElem_map, List.getD_eq_getElem _ _ hi]
    rw [ScnState.param_of_lt (by omega), h.value i hi, hvalue]
    apply BitVec.eq_of_toNat_eq
    rw [BitVec.toNat_ofNat, BitVec.toNat_ofNat, Nat.mod_mod]
  lt := by
    intro p hp
    obtain ⟨e, -, rfl⟩ := List.mem_map.mp hp
    exact Nat.mod_lt _ (by decide)

/-- **The letter of a sequence without a prefix** finds the numbers of its parameters. -/
theorem reads_parameters (b : Build) {t : Term} (hn : t.scn.next = .normaltext) (hready : t.scn.Ready)
    {d : List Byte} {ds : List (List Byte)} (hd : ∀ e ∈ d :: ds, ∀ x ∈ e, isDigit x)
    (hlen : ds.length + 1 ≤ CMD_PARAMS_LENGTH) :
    let t' := runBytes b (runBytes b t [TERM_ESCAPE_CHAR, chr '[']) (d ++ ds.flatMap fun e => chr ';' :: e)
    t'.scn.privateModeChar = 0 ∧ t'.scn.Reads (sequenceValues d ds) := by
  intro t'
  have hopened : (runBytes b t [TERM_ESCAPE_CHAR, chr '[']).scn = t.scn.opened := by
    rw [scn_runBytes, foldl_opened hn]
  have hst : t'.scn = ((d ++ ds.flatMap fun e => chr ';' :: e).foldl scanAll (t.scn.opened, [])).1 := by
    rw [← hopened]
    exact scn_runBytes b _ _
  rw [sequenceValues]
  split
  · rename_i hnone
    obtain ⟨rfl, rfl⟩ := hnone
    have hidle := hready.idle (by rw [hn]; decide)
    rw [hst]
    refine ⟨rfl, ?_, by simp, by simp⟩
    change (t.scn.setParam 0 1).cmdParamsSize = 0
    rw [ScnState.size_setParam (by decide), hidle]
  · rename_i hsome
    have hdec := (@decoded_body t.scn.opened rfl rfl none (Or.inl rfl) d ds hd hlen
      (fun h => hsome h.2) []).1
    rw [hst]
    exact ⟨hdec.mode, hdec.reads hlen⟩

/-- The scanner has read the numbers `ps`, and no private mode character. -/
structure ScnState.Holds (st : ScnState) (ps : List ℕ) : Prop where
  mode : st.privateModeChar = 0
  size : st.cmdParamsSize = ps.length
  value : ∀ i < ps.length, st.param i = BitVec.ofNat 32 (ps.getD i 0)
  small : ∀ p ∈ ps, p < 2 ^ 20

namespace ScnState.Holds

variable {st : ScnState} {ps : List ℕ} (h : st.Holds ps)
include h

theorem reads : st.Reads ps := ⟨h.size, h.value, fun p hp => (h.small p hp).trans (by decide)⟩

theorem getD_lt {i : ℕ} (hi : i < ps.length) : ps.getD i 0 < 2 ^ 20 := by
  rw [List.getD_eq_getElem _ _ hi]
  exact h.small _ (List.getElem_mem hi)

theorem toNat_param {i : ℕ} (hi : i < ps.length) : (st.param i).toNat = ps.getD i 0 := h.reads.toNat_param hi

theorem intParam {i : ℕ} (hi : i < ps.length) : st.intParam i = (ps.getD i 0 : ℕ) := by
  have hlt := h.getD_lt hi
  have hnat := h.toNat_param hi
  rw [ScnState.intParam, BitVec.toInt_eq_toNat_of_lt (by omega), hnat]

/-- A parameter that may be left out is one. -/
theorem defaulted (i : ℕ) : (if st.cmdParamsSize < i + 1 then 1 else (st.param i).toNat) = ps.getD i 1 := by
  rw [h.size]
  split
  · rw [List.getD_eq_default _ _ (by omega)]
  · rename_i hi
    rw [h.toNat_param (by omega), List.getD_eq_getElem _ _ (by omega), List.getD_eq_getElem _ _ (by omega)]

theorem countParam : st.countParam = (ps.headD 1 : ℕ) := by
  have hsize := h.size
  cases ps with
  | nil => rw [ScnState.countParam, if_neg (by simp [hsize])]; rfl
  | cons p ps =>
      rw [ScnState.countParam, if_pos (by simp [hsize]), h.intParam (by simp)]
      rfl

theorem headD_lt : ps.headD 1 < 2 ^ 20 := by
  cases ps with
  | nil => decide
  | cons p ps => exact h.small p List.mem_cons_self

/-- The parameter of `ESC [ J`. -/
theorem eraseParam : (if st.cmdParamsSize ≥ 1 then (st.param 0).toNat else 0) = ps.headD 0 := by
  have hsize := h.size
  cases ps with
  | nil => rw [if_neg (by simp [hsize])]; rfl
  | cons p ps =>
      rw [if_pos (by simp [hsize]), h.toNat_param (by simp)]
      rfl

end ScnState.Holds

/-! ## Renditions -/

section Rendition
variable {st : ScnState} {ps : List ℕ}

theorem style_ite {p q : Prop} {_ : Decidable p} {_ : Decidable q} {x y : Ctx} {s s' : Style} (hpq : p ↔ q)
    (hx : q → x.style = s) (hy : y.style = s') :
    (if p then x else y).style = if q then s else s' := by
  by_cases h : q
  · rw [if_pos h, if_pos (hpq.mpr h), hx h]
  · rw [if_neg h, if_neg (fun hp => h (hpq.mp hp)), hy]

/-- A colour number as the code converts it. -/
theorem toCol_sub {p a : ℕ} (h : a ≤ p) : toCol ((p : ℤ) - a) = BitVec.ofNat 8 (p - a) := by
  rw [toCol, ← Nat.cast_sub h, BitVec.ofInt_natCast]

theorem style_sgr (p : ℕ) (c : Ctx) : (c.sgr p).style = c.style.select1 p := by
  refine style_ite (by omega) (fun _ => rfl) ?_
  refine style_ite (by omega) (fun _ => rfl) ?_
  refine style_ite (by omega) (fun _ => rfl) ?_
  refine style_ite (by omega) (fun _ => rfl) ?_
  refine style_ite (by omega) (fun _ => rfl) ?_
  refine style_ite (by omega) (fun _ => rfl) ?_
  refine style_ite (by omega) (fun h => ?_) ?_
  · rw [← toCol_sub h.1]; rfl
  refine style_ite (by omega) (fun _ => rfl) ?_
  refine style_ite (by omega) (fun h => ?_) ?_
  · rw [← toCol_sub h.1]; rfl
  exact style_ite (by omega) (fun _ => rfl) rfl

/-- A parameter that is a negative number selects nothing, as it does unsigned. -/
theorem style_sgr_toInt (w : Word) (c : Ctx) : (c.sgr w.toInt).style = c.style.select1 w.toNat := by
  rw [← style_sgr]
  by_cases hsmall : 2 * w.toNat < 2 ^ 32
  · rw [BitVec.toInt_eq_toNat_of_lt hsmall]
  · have hint := w.toInt_lt
    have hneg : w.toInt < 0 := by
      rw [BitVec.toInt_eq_toNat_cond, if_neg hsmall]
      omega
    have hsame : ∀ p : ℤ, p < 0 ∨ 50 ≤ p → c.sgr p = c := by
      intro p hp
      rw [Ctx.sgr, if_neg (by omega), if_neg (by omega), if_neg (by omega), if_neg (by omega),
        if_neg (by omega), if_neg (by omega), if_neg (by omega), if_neg (by omega), if_neg (by omega),
        if_neg (by omega)]
    rw [hsame _ (Or.inl hneg), hsame _ (Or.inr (by omega))]

/-- A number that does not begin a colour of three. -/
theorem Style.selectAll_cons {p : ℕ} {ps : List ℕ} (h38 : ¬(p = 38 ∧ 2 ≤ ps.length ∧ ps.getD 0 0 = 5))
    (h48 : ¬(p = 48 ∧ 2 ≤ ps.length ∧ ps.getD 0 0 = 5)) (s : Style) :
    Style.selectAll (p :: ps) s = Style.selectAll ps (s.select1 p) := by
  rw [Style.selectAll]
  · rintro v rest rfl rfl
    exact h38 ⟨rfl, by simp, rfl⟩
  · rintro v rest rfl rfl
    exact h48 ⟨rfl, by simp, rfl⟩

theorem drop_getD {i : ℕ} (hi : i < ps.length) : ps.drop i = ps.getD i 0 :: ps.drop (i + 1) := by
  rw [List.getD_eq_getElem _ _ hi]
  exact List.drop_eq_getElem_cons hi

/-- A colour number takes three parameters. -/
theorem colour_iff (h : st.Reads ps) {i p : ℕ} (hp : p < 2 ^ 32) :
    (i + 2 < ps.length ∧ st.param i = BitVec.ofNat 32 p ∧ st.param (i + 1) = 5) ↔
      i + 2 < ps.length ∧ ps.getD i 0 = p ∧ ps.getD (i + 1) 0 = 5 := by
  refine and_congr_right fun hl => ?_
  exact and_congr (h.param_eq_iff (by omega) hp) (h.param_eq_iff (by omega) (v := 5) (by decide))

/-- The loop of the source goes through the parameters as the selection does. -/
theorem style_sgrLoop (h : st.Reads ps) (fuel i : ℕ) (c : Ctx) (hfuel : ps.length ≤ i + fuel) :
    (sgrLoop st fuel i c).style = Style.selectAll (ps.drop i) c.style := by
  induction fuel generalizing i c with
  | zero =>
      rw [List.drop_eq_nil_of_le (by omega)]
      rfl
  | succ fuel ih =>
      rw [sgrLoop, h.size]
      by_cases hi : i < ps.length
      · have hone : ∀ p < 2 ^ 32, ¬(i + 2 < ps.length ∧ st.param i = BitVec.ofNat 32 p ∧ st.param (i + 1) = 5) →
            ¬(ps.getD i 0 = p ∧ 2 ≤ (ps.drop (i + 1)).length ∧ (ps.drop (i + 1)).getD 0 0 = 5) := by
          rintro p hp hno ⟨hv, hl, h5⟩
          rw [List.length_drop] at hl
          rw [List.getD_eq_getElem?_getD, List.getElem?_drop, ← List.getD_eq_getElem?_getD, Nat.add_zero] at h5
          exact hno ((colour_iff h hp).mpr ⟨by omega, hv, h5⟩)
        rw [if_pos hi, drop_getD hi]
        split
        · rename_i h38
          obtain ⟨hl, hp, hq⟩ := (colour_iff h (by decide)).mp h38
          rw [ih (i + 3) _ (by omega), h.setWidth_param hl, drop_getD (by omega : i + 1 < ps.length),
            drop_getD hl, hp, hq]
          rfl
        · rename_i h38
          split
          · rename_i h48
            obtain ⟨hl, hp, hq⟩ := (colour_iff h (by decide)).mp h48
            rw [ih (i + 3) _ (by omega), h.setWidth_param hl, drop_getD (by omega : i + 1 < ps.length),
              drop_getD hl, hp, hq]
            rfl
          · rename_i h48
            rw [ih (i + 1) _ (by omega), ScnState.intParam, style_sgr_toInt, h.toNat_param hi,
              Style.selectAll_cons (hone 38 (by decide) h38) (hone 48 (by decide) h48)]
      · rw [if_neg hi, List.drop_eq_nil_of_le (by omega)]
        rfl

theorem style_selectGraphicRendition (h : st.Reads ps) (c : Ctx) :
    (c.selectGraphicRendition st).style = c.style.select ps := by
  refine style_ite ?_ (fun _ => rfl) ?_
  · rw [h.size, List.length_eq_zero_iff]
  · rw [h.size]
    exact style_sgrLoop h _ 0 c (by omega)

end Rendition

/-! ## Control bytes and characters -/

section Command
variable {b : Build} {m n : ℕ} {G G' : Grid m n} {c : Ctx} {d : ℤ → Byte}

theorem Reaches.append {xs : List TextOp} (h : Reaches b xs c d G) (ys : List TextOp)
    (h' : Depicts G (xs.foldl TextOp.ctx c) (paintOps b xs c d) →
      Reaches b ys (xs.foldl TextOp.ctx c) (paintOps b xs c d) G') : Reaches b (xs ++ ys) c d G' := by
  have hend := h' h
  rw [Reaches, List.foldl_append, paintOps_append]
  exact hend

/-- The cursor goes home on a blank grid. -/
theorem depicts_home (h : Depicts G c d) : Reaches b [c.moveOp 0 0, .clear] c d G.clear :=
  (depicts_moveOp h (r := 0) (k := 0) (by simp) (by simp)).append [.clear] depicts_clear

/-- **A control byte or a character does what it stands for.** -/
theorem depicts_byte (ha : c.Aligned b) (h : Depicts G c d) {ch : Byte} {cmd : Command}
    (hcmd : (Token.byte ch).command = some cmd) {st : ScnState} (hn : st.next = .normaltext) :
    Reaches b (textOps b ch st c) c d (G.step cmd) := by
  have hrow := h.row; have hcol := h.col
  have hr := G.row_lt; have hk := G.col_lt
  rw [Token.command] at hcmd
  split_ifs at hcmd with hCR hLF hHT hBS hFF hother
  · subst hCR
    obtain rfl := Option.some.inj hcmd
    exact depicts_textOps (depicts_move h (by omega) (by omega))
  · subst hLF
    obtain rfl := Option.some.inj hcmd
    exact depicts_lineFeed h st
  · subst hHT
    obtain rfl := Option.some.inj hcmd
    refine depicts_textOps (depicts_move h (by omega) ?_)
    rw [hcol, h.sameCols]
  · obtain rfl := Option.some.inj hcmd
    refine depicts_textOps ?_
    have hops : actionOps b ch st c = if c.cursorCol > 0 then [.move c.cursorRow (c.cursorCol - 1)] else [] := by
      rcases hBS with rfl | rfl <;> rfl
    rw [hops]
    split
    · exact depicts_move h (by omega) (by omega)
    · have hstay := h.toPictured.setCursor (G.moveTo G.row (G.col - 1)) rfl rfl rfl
      have hctx : c.setCursor (G.moveTo G.row (G.col - 1)).row (G.moveTo G.row (G.col - 1)).col = c := by
        have h1 : (G.moveTo G.row (G.col - 1)).row = c.cursorRow := by change min _ _ = _; omega
        have h2 : (G.moveTo G.row (G.col - 1)).col = c.cursorCol := by change min _ _ = _; omega
        rw [h1, h2]
        rfl
      rw [hctx] at hstay
      exact hstay
  · subst hFF
    obtain rfl := Option.some.inj hcmd
    exact depicts_textOps (depicts_home h)
  · obtain rfl := Option.some.inj hcmd
    push Not at hother
    exact depicts_print ha h hn (by simpa using hother.2.2) hother.2.1

/-! ## Final letters -/

/-- Attributes change no cell. -/
theorem depicts_attrs (h : Depicts G c d) {a : Attrs} (hcell : G'.cell = G.cell) (hrow : G'.row = G.row)
    (hcol : G'.col = G.col) (hsaved : a.savedCursor = G'.saved) (hstyle : (c.setAttrs a).style = G'.style) :
    Reaches b [.attrs a] c d G' := by
  refine ⟨⟨h.toScreen.congr rfl, h.sameRows, h.sameCols, hsaved, hstyle, ?_⟩, ?_, ?_⟩
  · rw [hcell]; exact h.shows.congr_ctx rfl
  · rw [hrow]; exact h.row
  · rw [hcol]; exact h.col

theorem Depicts.erase_or {p q s : ℕ → ℕ → Prop} [∀ r k, Decidable (p r k)] [∀ r k, Decidable (q r k)]
    [∀ r k, Decidable (s r k)] {v : GfxCol} (h : Depicts ((G.erase p v).erase q v) c d)
    (hs : ∀ r < m, ∀ k < n, s r k ↔ p r k ∨ q r k) : Depicts (G.erase s v) c d := by
  refine h.recell fun r hr k hk => ?_
  have hor := hs r hr k hk
  simp only [Grid.erase]
  split_ifs <;> first | rfl | (exfalso; tauto)

section Erase
variable (ha : c.Aligned b) (h : Depicts G c d)
include ha h

/-- From the cursor to the end of the row. -/
theorem depicts_eraseTillEnd :
    Reaches b [c.eraseTillEnd] c d (G.erase (fun r k => r = G.row ∧ G.col ≤ k) G.style.bg) := by
  have hcolumns := h.columns; have hn := h.sameCols; have hcol := h.col; have hrow := h.row
  have hr := G.row_lt; have hk := G.col_lt
  have herase := depicts_erase ha h (p := fun r k => r = G.row ∧ G.col ≤ k) c.cursorRow
    c.cursorCol 1 (n - G.col) c.W (by omega) (by omega) (by omega)
    (by omega) le_rfl (by omega) (by intro r _ k _; omega)
  rw [one_mul] at herase
  exact herase

/-- From the beginning of the row to the cursor. -/
theorem depicts_eraseTillCursor :
    Reaches b [c.eraseTillCursor] c d (G.erase (fun r k => r = G.row ∧ k ≤ G.col) G.style.bg) := by
  have hcolumns := h.columns; have hn := h.sameCols; have hcol := h.col; have hrow := h.row
  have hr := G.row_lt; have hk := G.col_lt
  have herase := depicts_erase ha h (p := fun r k => r = G.row ∧ k ≤ G.col) c.cursorRow 0
    1 (G.col + 1) ((c.cursorCol + 1) * 8) (by omega) (by omega) (by omega)
    (by omega) (by omega) (by omega) (by intro r _ k _; omega)
  rw [one_mul] at herase
  exact herase

/-- Whole rows. -/
theorem depicts_eraseRows (row rows : ℕ) (hrows : 0 < rows) (hrow : row + rows ≤ m) :
    Reaches b [c.eraseRows row rows] c d (G.erase (fun r _ => row ≤ r ∧ r < row + rows) G.style.bg) := by
  have hcolumns := h.columns; have hn := h.sameCols; have hk := G.col_lt
  exact depicts_erase ha h (p := fun r _ => row ≤ r ∧ r < row + rows) row 0 rows n c.W hrow hrows (by omega)
    (by omega) le_rfl (by omega) (by intro r _ k _; omega)

/-- The row of the cursor. -/
theorem depicts_eraseLine :
    Reaches b [.eraseLine] c d (G.erase (fun r _ => r = G.row) G.style.bg) := by
  have hrow := h.row; have hr := G.row_lt
  have hline := depicts_eraseRows ha h c.cursorRow 1 (by omega) (by omega)
  rw [Ctx.eraseRows, one_mul] at hline
  have hcell := Depicts.recell (f := (G.erase (fun r _ => r = G.row) G.style.bg).cell) hline (by
    intro r _ k _
    refine if_congr ?_ rfl rfl
    omega)
  exact hcell

theorem depicts_eraseLineOps {st : ScnState} {ps : List ℕ} (hst : st.Holds ps) (hlen : ps.length ≤ 1) {e : Extent}
    (he : extentOf (ps.headD 0) = some e) : Reaches b (eraseLineOps st c) c d (G.step (.eraseInLine e)) := by
  have hsize := hst.size
  rw [eraseLineOps]
  rcases ps with _ | ⟨p, _ | ⟨q, ps⟩⟩
  · rw [if_pos (by simpa using hsize)]
    obtain rfl := Option.some.inj he
    exact depicts_eraseTillEnd ha h
  · have hone : st.cmdParamsSize = 1 := by simpa using hsize
    have hp : (st.param 0).toNat = p := hst.toNat_param (by simp)
    rw [if_neg (by omega), if_pos hone, hp]
    rcases p with _ | _ | _ | p
    · obtain rfl := Option.some.inj he
      exact depicts_eraseTillEnd ha h
    · obtain rfl := Option.some.inj he
      exact depicts_eraseTillCursor ha h
    · obtain rfl := Option.some.inj he
      exact depicts_eraseLine ha h
    · exact absurd he (by simp [extentOf])
  · simp at hlen

theorem depicts_eraseDisplayOps {st : ScnState} {ps : List ℕ} (hst : st.Holds ps) {e : Extent}
    (he : extentOf (ps.headD 0) = some e) : Reaches b (eraseDisplayOps st c) c d (G.step (.eraseInDisplay e)) := by
  have hm := h.sameRows; have hrow := h.row
  have hr := G.row_lt
  rw [eraseDisplayOps, hst.eraseParam]
  generalize ps.headD 0 = p at he
  rcases p with _ | _ | _ | p
  · obtain rfl := Option.some.inj he
    refine (depicts_eraseTillEnd ha h).append _ fun h' => ?_
    change Reaches b (if c.cursorRow + 1 < c.HEIGHT then _ else _) c _ _
    split
    · exact (depicts_eraseRows ha h' _ _ (by omega) (by omega)).erase_or fun r hr k hk => by omega
    · exact h'.recell fun r hr k hk => if_congr (by omega) rfl rfl
  · obtain rfl := Option.some.inj he
    refine (depicts_eraseTillCursor ha h).append _ fun h' => ?_
    change Reaches b (if c.cursorRow > 0 then _ else _) c _ _
    split
    · exact (depicts_eraseRows ha h' _ _ (by omega) (by omega)).erase_or fun r hr k hk => by omega
    · exact h'.recell fun r hr k hk => if_congr (by omega) rfl rfl
  · obtain rfl := Option.some.inj he
    exact depicts_home h
  · exact absurd he (by simp [extentOf])

end Erase

/-- Cursor motion by a number of rows and columns. -/
theorem depicts_relative (h : Depicts G c d) {i j : ℤ} {r k : ℕ} (hrow : i.toNat = min r (m - 1))
    (hcol : j.toNat = min k (n - 1)) : Reaches b [c.moveOp i j] c d (G.moveTo r k) :=
  depicts_moveOp h (by omega) (by omega)

/-- The letters and what they stand for. -/
inductive LetterCommand (ps : List ℕ) : Byte → Command → Prop
  | up : LetterCommand ps (chr 'A') (.up (ps.headD 1))
  | down : LetterCommand ps (chr 'B') (.down (ps.headD 1))
  | forward : LetterCommand ps (chr 'C') (.forward (ps.headD 1))
  | back : LetterCommand ps (chr 'D') (.back (ps.headD 1))
  | position {L : Byte} (hL : L = chr 'f' ∨ L = chr 'H') :
      LetterCommand ps L (.position (ps.getD 0 1) (ps.getD 1 1))
  | save : LetterCommand ps (chr 's') .save
  | restore : LetterCommand ps (chr 'u') .restore
  | backTab : LetterCommand ps (chr 'Z') .backTab
  | eraseInLine {e : Extent} (hlen : ps.length ≤ 1) (he : extentOf (ps.headD 0) = some e) :
      LetterCommand ps (chr 'K') (.eraseInLine e)
  | eraseInDisplay {e : Extent} (he : extentOf (ps.headD 0) = some e) :
      LetterCommand ps (chr 'J') (.eraseInDisplay e)
  | rendition : LetterCommand ps (chr 'm') (.rendition ps)
  | insertLines : LetterCommand ps (chr 'L') (.insertLines (ps.headD 1))
  | deleteLines : LetterCommand ps (chr 'M') (.deleteLines (ps.headD 1))

theorem ite_eq_some {α : Type} {p : Prop} {_ : Decidable p} {x y : Option α} {a : α}
    (h : (if p then x else y) = some a) : p ∧ x = some a ∨ ¬p ∧ y = some a := by
  by_cases hp : p
  · rw [if_pos hp] at h; exact Or.inl ⟨hp, h⟩
  · rw [if_neg hp] at h; exact Or.inr ⟨hp, h⟩

theorem letterCommand_of_eq {L : Byte} {ps : List ℕ} {cmd : Command} (h : csiCommand L ps = some cmd) :
    LetterCommand ps L cmd := by
  rw [csiCommand] at h
  rcases ite_eq_some h with ⟨rfl, hx⟩ | ⟨-, h⟩
  · cases hx; exact .up
  rcases ite_eq_some h with ⟨rfl, hx⟩ | ⟨-, h⟩
  · cases hx; exact .down
  rcases ite_eq_some h with ⟨rfl, hx⟩ | ⟨-, h⟩
  · cases hx; exact .forward
  rcases ite_eq_some h with ⟨rfl, hx⟩ | ⟨-, h⟩
  · cases hx; exact .back
  rcases ite_eq_some h with ⟨hL, hx⟩ | ⟨-, h⟩
  · cases hx; exact .position hL
  rcases ite_eq_some h with ⟨rfl, hx⟩ | ⟨-, h⟩
  · cases hx; exact .save
  rcases ite_eq_some h with ⟨rfl, hx⟩ | ⟨-, h⟩
  · cases hx; exact .restore
  rcases ite_eq_some h with ⟨rfl, hx⟩ | ⟨-, h⟩
  · cases hx; exact .backTab
  rcases ite_eq_some h with ⟨rfl, hx⟩ | ⟨-, h⟩
  · rcases ite_eq_some hx with ⟨hlen, hext⟩ | ⟨-, hnone⟩
    · obtain ⟨e, he, rfl⟩ := Option.map_eq_some_iff.mp hext
      exact .eraseInLine hlen he
    · cases hnone
  rcases ite_eq_some h with ⟨rfl, hx⟩ | ⟨-, h⟩
  · obtain ⟨e, he, rfl⟩ := Option.map_eq_some_iff.mp hx
    exact .eraseInDisplay he
  rcases ite_eq_some h with ⟨rfl, hx⟩ | ⟨-, h⟩
  · cases hx; exact .rendition
  rcases ite_eq_some h with ⟨rfl, hx⟩ | ⟨-, h⟩
  · cases hx; exact .insertLines
  rcases ite_eq_some h with ⟨rfl, hx⟩ | ⟨-, h⟩
  · cases hx; exact .deleteLines
  · cases h

/-- `ESC [ H` counts from one. -/
theorem depicts_position (h : Depicts G c d) {st : ScnState} {ps : List ℕ} (hst : st.Holds ps) {L : Byte}
    (hL : L = chr 'f' ∨ L = chr 'H') (h1 : 1 ≤ ps.getD 0 1) (h2 : 1 ≤ ps.getD 1 1) :
    Reaches b (ansiOps L st c) c d (G.moveTo (ps.getD 0 1 - 1) (ps.getD 1 1 - 1)) := by
  have hm := h.sameRows; have hn := h.sameCols
  have hr := G.row_lt; have hk := G.col_lt
  have hops : ansiOps L st c =
      [c.moveOp (min (u32 ((ps.getD 0 1 : ℕ) - 1)) (c.HEIGHT - 1) : ℕ)
        (min (u32 ((ps.getD 1 1 : ℕ) - 1)) (c.WIDTH - 1) : ℕ)] := by
    rw [← hst.defaulted 0, ← hst.defaulted 1]
    rcases hL with rfl | rfl <;> rfl
  have hpred : ∀ i, 1 ≤ ps.getD i 1 → u32 ((ps.getD i 1 : ℕ) - 1) = ps.getD i 1 - 1 := by
    intro i hi
    have hlt : ps.getD i 1 < 2 ^ 20 := by
      by_cases hlen : i < ps.length
      · rw [List.getD_eq_getElem _ _ hlen]; exact hst.small _ (List.getElem_mem hlen)
      · rw [List.getD_eq_default _ _ (by omega)]; decide
    rw [u32_of_nonneg (by omega) (by omega)]
    omega
  rw [hops, hpred 0 h1, hpred 1 h2]
  exact depicts_relative h (by omega) (by omega)

/-- **The operations of a final letter do what it stands for.** -/
theorem depicts_ansiOps (ha : c.Aligned b) (h : Depicts G c d) {st : ScnState} {ps : List ℕ} (hst : st.Holds ps) {L : Byte}
    {cmd : Command} (hcmd : LetterCommand ps L cmd) (hok : G.Allows cmd) :
    Reaches b (ansiOps L st c) c d (G.step cmd) := by
  have hcount := hst.countParam; have hsmall := hst.headD_lt
  obtain ⟨hH, hW⟩ := h.int_range
  have hm := h.sameRows; have hn := h.sameCols; have hrow := h.row; have hcol := h.col
  have hr := G.row_lt; have hk := G.col_lt
  have hminus : ∀ x : ℕ, x < 2 ^ 30 → i32 ((x : ℤ) - st.countParam) = x - ps.headD 1 := fun x hx => by
    rw [hcount]; exact i32_of_range (by omega) (by omega)
  have hplus : ∀ x : ℕ, x < 2 ^ 30 → i32 ((x : ℤ) + st.countParam) = x + ps.headD 1 := fun x hx => by
    rw [hcount]; exact i32_of_range (by omega) (by omega)
  have hlines : u32 st.countParam = ps.headD 1 := by rw [hcount]; exact u32_natCast (by omega)
  cases hcmd with
  | up =>
      refine depicts_relative h (i := max 0 (i32 (c.cursorRow - st.countParam))) ?_ (by omega)
      rw [hminus _ (by omega)]
      omega
  | down =>
      refine depicts_relative h (i := min (c.HEIGHT - 1) (i32 (c.cursorRow + st.countParam))) ?_ (by omega)
      rw [hplus _ (by omega)]
      omega
  | forward =>
      refine depicts_relative h (j := min (c.WIDTH - 1) (i32 (c.cursorCol + st.countParam))) (by omega) ?_
      rw [hplus _ (by omega)]
      omega
  | back =>
      refine depicts_relative h (j := max 0 (i32 (c.cursorCol - st.countParam))) (by omega) ?_
      rw [hminus _ (by omega)]
      omega
  | position hL => exact depicts_position h hst hL hok.1 hok.2
  | save =>
      refine depicts_attrs h (a := { c.attrs with savedCursor := (c.cursorRow, c.cursorCol) }) rfl rfl rfl ?_
        h.style
      rw [hrow, hcol]
      rfl
  | restore =>
      have hsaved := h.saved; have hin := G.saved_lt
      refine depicts_move h (i := c.savedCursor.1) (j := c.savedCursor.2) ?_ ?_
      · rw [hsaved]; omega
      · rw [hsaved]; omega
  | backTab =>
      refine depicts_move h (i := c.cursorRow) (j := if c.cursorCol % 8 ≠ 0 then c.cursorCol / 8 * 8
        else c.cursorCol - 8) (by omega) ?_
      rw [hcol]
      split <;> omega
  | eraseInLine hlen he => exact depicts_eraseLineOps ha h hst hlen he
  | eraseInDisplay he => exact depicts_eraseDisplayOps ha h hst he
  | rendition =>
      refine depicts_attrs h (a := (c.selectGraphicRendition st).attrs) rfl rfl rfl ?_ ?_
      · change (c.selectGraphicRendition st).savedCursor = _
        rw [Ctx.savedCursor_selectGraphicRendition]
        exact h.saved
      · rw [← Ctx.selectGraphicRendition_attrs, style_selectGraphicRendition hst.reads, h.style]
        rfl
  | insertLines =>
      have hops : ansiOps (chr 'L') st c = [.insert (u32 st.countParam)] := rfl
      rw [hops, hlines]
      exact depicts_insert ha h hok
  | deleteLines =>
      have hops : ansiOps (chr 'M') st c = [.delete (u32 st.countParam)] := rfl
      rw [hops, hlines]
      exact depicts_delete ha h hok

/-- The letters mean nothing else to the scanner. -/
theorem letterCommand_final {L : Byte} {ps : List ℕ} {cmd : Command} (h : LetterCommand ps L cmd) :
    (isControl L = false ∧ isDigit L = false ∧ L ≠ chr ';' ∧ L ≠ 0) ∧ (L ≠ chr '?' ∧ L ≠ chr '#') ∧
      L ≠ chr 'G' ∧ L ≠ chr 'l' ∧ L ≠ chr 'h' := by
  cases h with
  | position hL => rcases hL with rfl | rfl <;> decide
  | _ => decide

/-- **A final letter does what it stands for.** -/
theorem depicts_letter (ha : c.Aligned b) (h : Depicts G c d) {st : ScnState} {ps : List ℕ} (hst : st.Holds ps)
    (hat : atLetter st) {L : Byte} {cmd : Command} (hcmd : LetterCommand ps L cmd) (hok : G.Allows cmd) :
    Reaches b (textOps b L st c) c d (G.step cmd) := by
  obtain ⟨hfinal, hbare, -⟩ := letterCommand_final hcmd
  have hmode : st.privateModeChar ≠ chr '#' := by rw [hst.mode]; decide
  have hacts := actionOps_letter hat hfinal hbare b c hmode
  refine depicts_textOps ?_
  rw [hacts]
  exact depicts_ansiOps ha h hst hcmd hok

end Command

end Pigfx
