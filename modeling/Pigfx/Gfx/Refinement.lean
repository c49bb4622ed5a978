import Pigfx.Gfx.Commands

/-!
# The terminal refines a grid of characters

A terminal whose cursor is hidden renders a grid when its context and memory depict it.
The bytes of a token take it to a terminal that renders the grid after the command, so
after any stream of tokens the text area shows what the grid has become.

The lines of the screen have to begin at whole words, because the characters are
painted in words; and where the transfer engine erases, the screen has to fit its fields.

## Main definitions

* `Presents`, `Renders` — a terminal and a grid, inside and between tokens.
* `putstring_refines` — the refinement.
-/

namespace Pigfx
open Lib

/-! ## The scanner -/

/-- What the scanner has read is what the token says. -/
theorem Decoded.holds {ds : List (List Byte)} {st : ScnState} (h : Decoded none ds st)
    (hlen : ds.length ≤ CMD_PARAMS_LENGTH) (hsmall : ∀ d ∈ ds, decimal d < 2 ^ 20) :
    st.Holds (ds.map decimal) := by
  refine ⟨h.mode, by simpa using h.size, fun i hi => ?_, ?_⟩
  · rw [List.length_map] at hi
    rw [ScnState.param_of_lt (by omega), h.value i hi, List.getD_eq_getElem _ _ hi,
      List.getD_eq_getElem _ _ (by rw [List.length_map]; exact hi), List.getElem_map]
  · intro p hp
    obtain ⟨d, hd, rfl⟩ := List.mem_map.mp hp
    exact hsmall d hd

theorem ScnState.mode_setParam (i : ℕ) (v : Word) (st : ScnState) :
    (st.setParam i v).privateModeChar = st.privateModeChar := by
  rw [setParam]
  split
  · rfl
  · split <;> rfl

/-- A separator that does not fit sets the number of parameters to zero. -/
theorem Decoded.holds_overflow {ds : List (List Byte)} {st : ScnState} (h : Decoded none ds st)
    (hlen : ds.length = CMD_PARAMS_LENGTH) : (scan (chr ';') st).1.Holds [] := by
  have hready : st.Ready := ⟨fun hn => absurd h.next hn, by rw [h.size]; omega⟩
  have hc : isControl (chr ';') = false := by decide
  have hd : isDigit (chr ';') = false := by decide
  have h0 : chr ';' ≠ 0 := by decide
  have hscan : (scan (chr ';') st).1 = st.pushParam := by
    simp only [scan, hc, scanText, h.next, hd, h0, if_true, Bool.false_eq_true, if_false]
  have hmode : st.pushParam.privateModeChar = st.privateModeChar :=
    ScnState.mode_setParam _ _ { st with cmdParamsSize := st.cmdParamsSize + 1 }
  rw [hscan]
  refine ⟨by rw [hmode]; exact h.mode, ?_, fun i hi => absurd hi (Nat.not_lt_zero i), fun p hp => by cases hp⟩
  rw [ScnState.size_pushParam hready, h.size, if_pos hlen]
  rfl

/-- A byte that is a token leaves the scanner in normal text. -/
theorem scan_token {ch : Byte} {cmd : Command} (hcmd : (Token.byte ch).command = some cmd) {st : ScnState}
    (hn : st.next = .normaltext) : (scan ch st).1 = st := by
  rw [scan]
  split
  · rfl
  · rename_i hctl
    have hesc : ch ≠ TERM_ESCAPE_CHAR := by
      rintro rfl
      cases hcmd
    rw [scanText, hn]
    exact if_neg hesc

/-- Tokens contain no zero byte. -/
theorem bytes_ne_zero {m n : ℕ} {G : Grid m n} {tok : Token} (hacc : G.Accepts tok) : ∀ x ∈ tok.bytes, x ≠ 0 := by
  unfold Grid.Accepts at hacc
  cases hcmd : tok.command with
  | none => rw [hcmd] at hacc; exact hacc.elim
  | some cmd =>
      rw [hcmd] at hacc
      cases tok with
      | byte ch =>
          intro x hx
          obtain rfl : x = ch := by simpa [Token.bytes] using hx
          rintro rfl
          cases hcmd
      | csi ds L =>
          have hL : L ≠ 0 := (letterCommand_final (letterCommand_of_eq hcmd)).1.2.2.2
          have hdigits : ∀ e ∈ ds, ∀ x ∈ e, isDigit x := fun e he => (hacc.1 e he).1
          cases ds with
          | nil => exact sequenceOf_ne_zero (by simp) (by simp) hL
          | cons d ds => exact sequenceOf_ne_zero (by simp) hdigits hL

theorem cString_tokens {m n : ℕ} (toks : List Token) {G : Grid m n}
    (hacc : Along Grid.read Grid.Accepts G toks) :
    cString (toks.flatMap Token.bytes) = toks.flatMap Token.bytes := by
  have hbytes : ∀ x ∈ toks.flatMap Token.bytes, x ≠ 0 := by
    induction toks generalizing G with
    | nil => intro x hx; cases hx
    | cons tok toks ih =>
        intro x hx
        rw [List.flatMap_cons, List.mem_append] at hx
        exact hx.elim (bytes_ne_zero hacc.1 x) (ih hacc.2 x)
  rw [cString, List.takeWhile_eq_self_iff]
  simpa using hbytes

theorem runBytes_flatMap (b : Build) (toks : List Token) (t : Term) :
    runBytes b t (toks.flatMap Token.bytes) = toks.foldl (fun t tok => runBytes b t tok.bytes) t := by
  induction toks generalizing t with
  | nil => rfl
  | cons tok toks ih => rw [List.flatMap_cons, runBytes_append, ih, List.foldl_cons]

/-! ## Terminals and grids -/

/-- The terminal, whose cursor is hidden, shows the grid in the text area of `c₀`. -/
structure Presents (c₀ : Ctx) {m n : ℕ} (G : Grid m n) (t : Term) : Prop where
  depicts : Depicts G t.g.ctx t.g.pix.bus.data
  hidden : t.g.Hidden
  geometry : t.g.ctx.geometry = c₀.geometry

/-- The same between two tokens. -/
structure Renders (c₀ : Ctx) {m n : ℕ} (G : Grid m n) (t : Term) : Prop extends Presents c₀ G t where
  next : t.scn.next = .normaltext
  size : t.scn.cmdParamsSize = 0

section Byte
variable {b : Build} {c₀ : Ctx} {m n : ℕ} {G G' : Grid m n} {t : Term} (ha : c₀.Aligned b)
include ha

/-- A byte whose operations reach a grid shows it. -/
theorem presents_putByte (h : Presents c₀ G t) {ch : Byte} (hG : ¬isGsxCall ch t.scn)
    (hvis : ¬setsVisibility ch t.scn)
    (hend : Reaches b (textOps b ch t.scn t.g.ctx) t.g.ctx t.g.pix.bus.data G') :
    Presents c₀ G' (putByte b ch t) := by
  have hd := h.depicts
  have hsaved : t.g.ctx.savedCursor.1 ≤ t.g.ctx.HEIGHT ∧ t.g.ctx.savedCursor.2 < t.g.ctx.WIDTH := by
    have hin := G.saved_lt
    rw [hd.saved, hd.sameRows, hd.sameCols]
    omega
  have hrun := putByte_textOps b hd.toSized hd.inRange hG fun _ => hsaved
  have hlegal : Along TextOp.ctx (TextOp.Legal ch t.scn t.g.ctx) t.g.ctx (textOps b ch t.scn t.g.ctx) :=
    (textOps_legal b hd.toSized hd.inRange fun _ => hsaved).1
  have hstep := (ha.congr h.geometry).rowStep hd.toScreen
  have hdraws := hidden_runOps (b := b) _ hd.toScreen hstep.2 h.hidden hlegal hvis
  refine ⟨?_, ?_, ?_⟩
  · rw [hrun, hdraws.2, ctx_runOps]; exact hend
  · rw [hrun]; exact hdraws.1
  · rw [hrun, ctx_runOps, geometry_foldl]; exact h.geometry

/-- A byte that asks for nothing. -/
theorem presents_silent (h : Presents c₀ G t) {ch : Byte} (hG : ¬isGsxCall ch t.scn)
    (hvis : ¬setsVisibility ch t.scn) (hops : actionOps b ch t.scn t.g.ctx = []) :
    Presents c₀ G (putByte b ch t) := by
  refine presents_putByte ha h hG hvis (depicts_textOps ?_)
  rw [hops]
  exact h.depicts

/-! ## Sequences -/

theorem presents_parameter (h : Presents c₀ G t) (hat : atLetter t.scn) {x : Byte} (hx : isParameter x) :
    Presents c₀ G (putByte b x t) ∧ atLetter (putByte b x t).scn := by
  have hne : x ≠ chr 'G' ∧ x ≠ chr 'l' ∧ x ≠ chr 'h' := by
    rcases hx with hx | rfl
    · have hr := isDigit_range hx
      refine ⟨?_, ?_, ?_⟩ <;> rintro rfl <;> revert hr <;> decide
    · decide
  have hops : actionOps b x t.scn t.g.ctx = [] := by
    rw [actionOps, not_isControl_parameter hx, scannerOps]
    rcases hat with hn | hn
    · rw [hn]; exact if_pos (hx.elim Or.inl fun h => Or.inr (Or.inl h))
    · rw [hn]; exact if_pos (hx.elim Or.inl fun h => Or.inr (Or.inr h))
  refine ⟨presents_silent ha h (fun hG => hne.1 hG.2.2) (fun hv => ?_) hops, Or.inr ?_⟩
  · exact hv.2.1.elim hne.2.1 hne.2.2
  · rw [putByte_scn]; exact next_scan_parameter hx hat

theorem presents_parameters (xs : List Byte) (hxs : ∀ x ∈ xs, isParameter x) {t : Term} (h : Presents c₀ G t)
    (hat : atLetter t.scn) : Presents c₀ G (runBytes b t xs) ∧ atLetter (runBytes b t xs).scn := by
  induction xs generalizing t with
  | nil => exact ⟨h, hat⟩
  | cons x xs ih =>
      obtain ⟨hp, hat'⟩ := presents_parameter ha h hat (hxs x List.mem_cons_self)
      exact ih (fun y hy => hxs y (List.mem_cons_of_mem _ hy)) hp hat'

/-- The bracket. -/
theorem presents_opened (h : Renders c₀ G t) :
    Presents c₀ G (runBytes b t [TERM_ESCAPE_CHAR, chr '[']) ∧
      (runBytes b t [TERM_ESCAPE_CHAR, chr '[']).scn = t.scn.opened := by
  have hfirst : (putByte b TERM_ESCAPE_CHAR t).scn.next = .waitsquarebracket := by
    rw [putByte_scn, scan, scanText, h.next]; rfl
  have hesc : Presents c₀ G (putByte b TERM_ESCAPE_CHAR t) := by
    refine presents_silent ha h.toPresents (fun hG => ?_) (fun hv => ?_) ?_
    · exact absurd hG.2.2 (by decide)
    · exact absurd hv.2.1 (by decide)
    · rw [actionOps, scannerOps, h.next]; rfl
  refine ⟨presents_silent ha hesc (fun hG => ?_) (fun hv => ?_) ?_, ?_⟩
  · exact absurd hG.2.2 (by decide)
  · exact absurd hv.2.1 (by decide)
  · rw [actionOps, scannerOps, hfirst]; rfl
  · rw [scn_runBytes, foldl_opened h.next]

/-- Everything up to the letter. -/
theorem presents_body (h : Renders c₀ G t) {d : List Byte} {ds : List (List Byte)}
    (hds : ∀ e ∈ d :: ds, ∀ x ∈ e, isDigit x) :
    let t' := runBytes b (runBytes b t [TERM_ESCAPE_CHAR, chr '[']) (d ++ ds.flatMap fun e => chr ';' :: e)
    Presents c₀ G t' ∧ atLetter t'.scn := by
  intro t'
  obtain ⟨hopen, hscn⟩ := presents_opened ha h (b := b)
  exact presents_parameters ha _ (isParameter_body hds) hopen (by rw [hscn]; exact Or.inl rfl)

/-- The letter. -/
theorem renders_letter (h : Presents c₀ G t) (hat : atLetter t.scn) {ps : List ℕ} (hst : t.scn.Holds ps) {L : Byte}
    {cmd : Command} (hcmd : csiCommand L ps = some cmd) (hok : G.Allows cmd) :
    Renders c₀ (G.step cmd) (putByte b L t) := by
  have hletter := letterCommand_of_eq hcmd
  obtain ⟨hfinal, hbare, hLG, hLl, hLh⟩ := letterCommand_final hletter
  have hscan := scan_letter hat hfinal hbare
  have hvis : ¬setsVisibility L t.scn := fun hv => hv.2.1.elim hLl hLh
  have hdone := depicts_letter (ha.congr h.geometry) h.depicts hst hat hletter hok
  refine ⟨presents_putByte ha h (fun hG => hLG hG.2.2) hvis hdone, ?_, ?_⟩
  · rw [putByte_scn, hscan]; rfl
  · rw [putByte_scn, hscan]; rfl

/-- The scanner after the parameters of a sequence that has some. -/
theorem decoded_parameters (h : Renders c₀ G t) {d : List Byte} {ds : List (List Byte)}
    (hds : ∀ e ∈ d :: ds, ∀ x ∈ e, isDigit x) (hlen : (d :: ds).length ≤ CMD_PARAMS_LENGTH)
    (hne : ¬(d = [] ∧ ds = [])) :
    Decoded none (d :: ds) (runBytes b (runBytes b t [TERM_ESCAPE_CHAR, chr '['])
      (d ++ ds.flatMap fun e => chr ';' :: e)).scn := by
  have hscn := (presents_opened ha h (b := b)).2
  have hmode : (runBytes b t [TERM_ESCAPE_CHAR, chr '[']).scn.privateModeChar = 0 := by rw [hscn]; rfl
  have hnext : (runBytes b t [TERM_ESCAPE_CHAR, chr '[']).scn.next = .selectescape := by rw [hscn]; rfl
  rw [scn_runBytes]
  exact (decoded_body hnext hmode (Or.inl rfl) d ds hds (by simpa using hlen) (fun hno => hne hno.2) []).1

/-- **The bytes of a sequence do what its letter stands for.** -/
theorem renders_sequence (h : Renders c₀ G t) {d : List Byte} {ds : List (List Byte)} {L : Byte} {cmd : Command}
    (hw : ∀ e ∈ d :: ds, (∀ x ∈ e, isDigit x) ∧ decimal e < 2 ^ 20) (hlen : (d :: ds).length ≤ CMD_PARAMS_LENGTH)
    (hcmd : csiCommand L (Token.values (d :: ds)) = some cmd) (hok : G.Allows cmd) :
    Renders c₀ (G.step cmd) (runBytes b t (sequenceOf none d ds L)) := by
  have hdigits : ∀ e ∈ d :: ds, ∀ x ∈ e, isDigit x := fun e he => (hw e he).1
  obtain ⟨hread, hat⟩ := presents_body ha h (b := b) hdigits
  rw [runBytes_sequence]
  refine renders_letter ha hread hat ?_ hcmd hok
  by_cases hnone : d = [] ∧ ds = []
  · -- the letter follows the bracket
    obtain ⟨rfl, rfl⟩ := hnone
    have hscn := (presents_opened ha h (b := b)).2
    change (runBytes b t [TERM_ESCAPE_CHAR, chr '[']).scn.Holds []
    rw [hscn]
    refine ⟨rfl, ?_, fun i hi => absurd hi (Nat.not_lt_zero i), fun p hp => by cases hp⟩
    change (t.scn.setParam 0 1).cmdParamsSize = 0
    rw [ScnState.size_setParam (by decide)]
    exact h.size
  · have hvalues : Token.values (d :: ds) = (d :: ds).map decimal := by
      rw [Token.values, if_neg]
      rintro heq
      cases heq
      exact hnone ⟨rfl, rfl⟩
    rw [hvalues]
    exact (decoded_parameters ha h hdigits hlen hnone).holds hlen fun e he => (hw e he).2

/-- One separator too many, and the sequence is read as one without parameters. -/
theorem renders_overflow (h : Renders c₀ G t) {d : List Byte} {ds : List (List Byte)} {L : Byte} {cmd : Command}
    (hds : ∀ e ∈ d :: ds, ∀ x ∈ e, isDigit x) (hlen : (d :: ds).length = CMD_PARAMS_LENGTH)
    (hcmd : csiCommand L [] = some cmd) (hok : G.Allows cmd) :
    Renders c₀ (G.step cmd) (runBytes b t (sequenceOf none d (ds ++ [[]]) L)) := by
  have hdigits : ∀ e ∈ d :: (ds ++ [[]]), ∀ x ∈ e, isDigit x := by
    intro e he x hx
    rw [← List.cons_append, List.mem_append, List.mem_singleton] at he
    rcases he with he | rfl
    · exact hds e he x hx
    · cases hx
  obtain ⟨hread, hat⟩ := presents_body ha h (b := b) hdigits
  rw [runBytes_sequence]
  refine renders_letter ha hread hat ?_ hcmd hok
  have hne : ¬(d = [] ∧ ds = []) := by
    rintro ⟨-, rfl⟩
    simp at hlen
  have hdec := decoded_parameters ha h (b := b) hds hlen.le hne
  have hbody : (d ++ (ds ++ [[]]).flatMap fun e => chr ';' :: e) =
      (d ++ ds.flatMap fun e => chr ';' :: e) ++ [chr ';'] := by
    simp
  rw [hbody, runBytes_append]
  generalize runBytes b (runBytes b t [TERM_ESCAPE_CHAR, chr '[']) (d ++ ds.flatMap fun e => chr ';' :: e) = t'
    at hdec
  change (putByte b (chr ';') t').scn.Holds []
  rw [putByte_scn]
  exact hdec.holds_overflow hlen

/-- **A token does what it stands for.** -/
theorem renders_token (h : Renders c₀ G t) {tok : Token} (hacc : G.Accepts tok) (hfits : tok.Fits) :
    Renders c₀ (G.read tok) (runBytes b t tok.bytes) := by
  unfold Grid.Accepts at hacc
  rw [Grid.read]
  cases hcmd : tok.command with
  | none => rw [hcmd] at hacc; exact hacc.elim
  | some cmd =>
      rw [hcmd] at hacc
      obtain ⟨hw, hok⟩ := hacc
      cases tok with
      | byte ch =>
          have hscan := scan_token hcmd h.next
          have hplain : ¬(t.scn.next = .selectescape ∨ t.scn.next = .readDigit) := by
            rw [h.next]; decide
          refine ⟨?_, ?_, ?_⟩
          · exact presents_putByte ha h.toPresents (fun hG => hplain hG.1) (fun hv => hplain hv.1)
              (depicts_byte (ha.congr h.geometry) h.depicts hcmd h.next)
          · change (putByte b ch t).scn.next = _
            rw [putByte_scn, hscan]
            exact h.next
          · change (putByte b ch t).scn.cmdParamsSize = _
            rw [putByte_scn, hscan]
            exact h.size
      | csi ds L =>
          cases ds with
          | nil =>
              -- a sequence that is written without parameters
              have hw' : (Token.csi [[]] L).WellFormed := by
                intro d hd
                obtain rfl : d = [] := by simpa using hd
                exact ⟨fun x hx => absurd hx List.not_mem_nil, by decide⟩
              exact renders_sequence ha h hw' (by decide) hcmd hok
          | cons d ds => exact renders_sequence ha h hw hfits hcmd hok

/-- **The terminal refines a grid of characters.**  After any stream of tokens the text
area shows the grid after their commands, and the cursor is where that of the grid is. -/
theorem putstring_refines (h : Renders c₀ G t) (toks : List Token) (hacc : Along Grid.read Grid.Takes G toks) :
    let t' := gfxTermPutstring b (toks.flatMap Token.bytes) t
    let G' := toks.foldl Grid.read G
    (∀ x < c₀.W, ∀ y < c₀.H, t'.g.pix.bus.data (c₀.PFB x y) = picture c₀ G'.cell x y) ∧
      t'.g.ctx.cursorRow = G'.row ∧ t'.g.ctx.cursorCol = G'.col ∧ Renders c₀ G' t' := by
  intro t' G'
  have hrun : t' = toks.foldl (fun t tok => runBytes b t tok.bytes) t := by
    have hall : Along Grid.read Grid.Accepts G toks :=
      hacc.mono (I := fun _ => True) (fun _ _ _ _ => trivial) (fun _ _ _ hP => hP.1) trivial
    rw [← runBytes_flatMap, ← cString_tokens toks hall]
    rfl
  have hend : Renders c₀ G' t' := by
    have hstep : ∀ (G : Grid m n) (t : Term) (tok : Token), Renders c₀ G t → G.Takes tok →
        Renders c₀ (G.read tok) (runBytes b t tok.bytes) := fun _ _ _ hR hP => renders_token ha hR hP.1 hP.2
    rw [hrun]
    exact hacc.relation (g := fun t tok => runBytes b t tok.bytes) hstep h
  have hd := hend.depicts
  have hgeo := hend.geometry.symm
  exact ⟨fun x hx y hy => (hd.shows.congr_ctx hgeo).picture (hd.toScreen.congr hgeo) hx hy, hd.row, hd.col, hend⟩

end Byte

/-! ## Every screen is a grid -/

/-- The grid a terminal shows, with the pixels it finds. -/
def Ctx.grid (c : Ctx) (hr : c.InRange) (hs : c.savedCursor.1 < c.HEIGHT ∧ c.savedCursor.2 < c.WIDTH)
    (d : ℤ → Byte) : Grid c.HEIGHT c.WIDTH where
  cell := fun r k => .found fun i j => d (c.pixelAddr r k i j)
  row := c.cursorRow
  col := c.cursorCol
  saved := c.savedCursor
  style := c.style
  row_lt := hr.row
  col_lt := hr.col
  saved_lt := hs

/-- A terminal with a hidden cursor renders a grid, whatever is on its screen. -/
theorem renders_grid {t : Term} (hscreen : t.g.ctx.Screen) (hr : t.g.ctx.InRange)
    (hs : t.g.ctx.savedCursor.1 < t.g.ctx.HEIGHT ∧ t.g.ctx.savedCursor.2 < t.g.ctx.WIDTH) (hh : t.g.Hidden)
    (hn : t.scn.next = .normaltext) (hsize : t.scn.cmdParamsSize = 0) :
    Renders t.g.ctx (t.g.ctx.grid hr hs t.g.pix.bus.data) t :=
  ⟨⟨⟨⟨hscreen, rfl, rfl, rfl, rfl, fun _ _ _ _ _ _ _ _ => rfl⟩, rfl, rfl⟩, hh, rfl⟩, hn, hsize⟩

/-- A blank screen with a hidden cursor, and a background of another colour. -/
def Term.blank (cols rows pitch : ℕ) : Term :=
  let t := Term.static fun _ => 0
  { t with
    g := { t.g with
      ctx := { t.g.ctx with
        W := 8 * cols, H := rows * 8, Pitch := pitch, size := pitch * (rows * 8), WIDTH := cols, HEIGHT := rows
        fontHeight := 8, fg := DEFAULT_FG, bg := 1 } } }

theorem blank_screen {cols rows pitch : ℕ} (hc : 0 < cols) (hr : 0 < rows) (hp : 8 * cols ≤ pitch)
    (hw : 8 * cols < 2 ^ 31) (hh : rows * 8 < 2 ^ 31) (hsize : pitch * (rows * 8) < 2 ^ 32) :
    (Term.blank cols rows pitch).g.ctx.Screen :=
  ⟨⟨hr, hc, Nat.succ_pos 7, le_rfl, le_rfl, hw, hh⟩, rfl, rfl, rfl, hp, hsize⟩

theorem blank_hidden (cols rows pitch : ℕ) : (Term.blank cols rows pitch).g.Hidden := by
  refine ⟨rfl, ?_⟩
  funext x
  have hzero : ∀ i j, cellByte (fun _ _ => 0) i j = 0 := by
    intro i j
    simp [cellByte, byteOf]
  change logicalScreen _ _ x = 0
  rw [logicalScreen]
  split
  · exact hzero _ _
  · rfl

/-- The grid of a blank screen. -/
def Grid.blank {cols rows : ℕ} (hc : 0 < cols) (hr : 0 < rows) (pitch : ℕ) : Grid rows cols :=
  (Term.blank cols rows pitch).g.ctx.grid ⟨hr, hc⟩ ⟨hr, hc⟩ fun _ => 0

theorem blank_renders (cols rows pitch : ℕ) (hc : 0 < cols) (hr : 0 < rows) (hp : 8 * cols ≤ pitch)
    (hw : 8 * cols < 2 ^ 31) (hh : rows * 8 < 2 ^ 31) (hsize : pitch * (rows * 8) < 2 ^ 32) :
    Renders (Term.blank cols rows pitch).g.ctx (Grid.blank hc hr pitch) (.blank cols rows pitch) :=
  renders_grid (blank_screen hc hr hp hw hh hsize) ⟨hr, hc⟩ ⟨hr, hc⟩ (blank_hidden cols rows pitch) rfl rfl

/-- A character is printed, the line behind it erased, and an inverted one printed at the
end of the next line, so that the screen scrolls. -/
theorem putstring_refines_scroll :
    let toks := [Token.byte (chr 'A'), .csi [[chr '0']] (chr 'K'), .byte 0x0A, .csi [[], [chr '7']] (chr 'm'),
      .byte (chr 'B')]
    let c := (Term.blank 2 2 16).g.ctx
    let t' := gfxTermPutstring .shipped (toks.flatMap Token.bytes) (.blank 2 2 16)
    (∀ x < c.W, ∀ y < c.H, t'.g.pix.bus.data (c.PFB x y) =
      picture c (toks.foldl Grid.read (Grid.blank Nat.two_pos Nat.two_pos 16)).cell x y) ∧
      t'.g.ctx.cursorRow = 1 ∧ t'.g.ctx.cursorCol = 0 := by
  intro toks c t'
  have hend := putstring_refines (b := .shipped) ⟨rfl, fun _ => ⟨by decide, by decide⟩⟩
    (blank_renders 2 2 16 Nat.two_pos Nat.two_pos (by decide) (by decide) (by decide) (by decide)) toks
    (by decide)
  exact ⟨hend.1, hend.2.1, hend.2.2.1⟩

/-- On the text area of `c₀` some tokens do what they stand for. -/
def Ctx.ShowsTokens (b : Build) (c₀ : Ctx) (toks : List Token) : Prop :=
  ∀ {m n : ℕ} (G : Grid m n) (t : Term), Renders c₀ G t → Along Grid.read Grid.Accepts G toks →
    let t' := gfxTermPutstring b (toks.flatMap Token.bytes) t
    let G' := toks.foldl Grid.read G
    (∀ x < c₀.W, ∀ y < c₀.H, t'.g.pix.bus.data (c₀.PFB x y) = picture c₀ G'.cell x y) ∧
      t'.g.ctx.cursorRow = G'.row ∧ t'.g.ctx.cursorCol = G'.col

/-- A cursor motion with 645 parameters. -/
def longDown : List (List Byte) := [chr '2'] :: (List.replicate 643 [] ++ [[]])

/-- Neither the pitch, nor the number of lines, nor the number of parameters is free.  With
17 bytes to a line a character is painted askew; with `2 ^ 15 + 8` the stride of an
erased row is negative; with more than `2 ^ 14` lines an erased screen is cut short; and
645 parameters are read as none. -/
theorem putstring_not_refines :
    ¬Ctx.ShowsTokens .shipped (Term.blank 2 1 17).g.ctx [.byte (chr ' ')] ∧
      ¬Ctx.ShowsTokens .shipped (Term.blank 1 1 (2 ^ 15 + 8)).g.ctx [.csi [] (chr 'K')] ∧
      ¬Ctx.ShowsTokens .shipped (Term.blank 1 2050 8).g.ctx [.csi [] (chr 'J')] ∧
      ¬Ctx.ShowsTokens .shipped (Term.blank 1 3 8).g.ctx [.csi longDown (chr 'B')] := by
  refine ⟨fun h => ?_, fun h => ?_, fun h => ?_, fun h => ?_⟩
  · have hpixel := (h _ _ (blank_renders 2 1 17 Nat.two_pos Nat.one_pos (by decide) (by decide) (by decide)
      (by decide)) (by decide)).1 7 (by decide) 1 (by decide)
    revert hpixel
    decide
  · have hpixel := (h _ _ (blank_renders 1 1 (2 ^ 15 + 8) Nat.one_pos Nat.one_pos (by decide) (by decide)
      (by decide) (by decide)) (by decide)).1 0 (by decide) 1 (by decide)
    revert hpixel
    decide
  · have hpixel := (h _ _ (blank_renders 1 2050 8 Nat.one_pos (by decide) (by decide) (by decide) (by decide)
      (by decide)) (by decide)).1 0 (by decide) 16 (by decide)
    revert hpixel
    decide
  · have hblank := blank_renders 1 3 8 Nat.one_pos (by decide) (by decide) (by decide) (by decide) (by decide)
    have hacc : Along Grid.read Grid.Accepts (Grid.blank Nat.one_pos (by decide : 0 < 3) 8)
        [.csi longDown (chr 'B')] := by decide +kernel
    have hdigits : ∀ e ∈ [chr '2'] :: List.replicate 643 [], ∀ x ∈ e, isDigit x := by
      intro e he x hx
      rcases List.mem_cons.mp he with rfl | he
      · rw [List.mem_singleton.mp hx]; decide
      · rw [(List.mem_replicate.mp he).2] at hx; cases hx
    have hread := renders_overflow (b := .shipped) ⟨rfl, fun _ => ⟨by decide, by decide⟩⟩ hblank (L := chr 'B')
      hdigits (by rw [List.length_cons, List.length_replicate]) rfl trivial
    have hcursor := (h _ _ hblank hacc).2.1
    rw [gfxTermPutstring_eq, cString_tokens _ hacc, List.flatMap_singleton, longDown, Token.bytes] at hcursor
    rw [hread.depicts.row] at hcursor
    revert hcursor
    decide

end Pigfx
