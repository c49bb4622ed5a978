import Pigfx.Gfx.Motion

/-!
# What the terminal sends back

Some sequences are answered over the serial line.  An answer follows its query at once, so a
host that counts its queries can tell the answers apart.

A cursor report is three decimal digits for the row and three for the column, each of a byte.
Sent back as an address, it leads to the place it was made at, as long as a byte was enough.

## Main definitions

* `Query`, `queryOf` — the calls of `state_fun_final_letter` that are answered.
* `Query.Answers` — what an answer looks like.
* `answers_match_queries`, `report_returns_iff` — the main results.
-/

namespace Pigfx
open Lib

/-! ## Queries -/

/-- What a host can ask for. -/
inductive Query
  /-- `ESC [ c` -/
  | attributes
  /-- `ESC [ 5 n` -/
  | status
  /-- `ESC [ 6 n` -/
  | position
  /-- a GSX call -/
  | gsx
  deriving DecidableEq, Repr

/-- The answer, with the row and the column counted from one. -/
def Query.answer (row col : Byte) : Query → List Byte
  | attributes => [0x1B, chr '[', chr '?', chr '1', chr ';', chr '0', chr 'c']
  | status => [0x1B, chr '[', chr '0', chr 'n']
  | position => [0x1B, chr '['] ++ b2s row ++ [chr ';'] ++ b2s col ++ [chr 'R']
  | gsx => [chr 'G']

/-- The opcode is known, and a bitmap has as many values as it says. -/
def ScnState.gsxKnown (st : ScnState) : Bool :=
  if (st.param 0).toNat = OPC_DRAW_BITMAP then st.cmdParamsSize = u32 (st.intParam 3 + 4)
  else OPC_OPEN_WORKSTATION ≤ (st.param 0).toNat ∧ (st.param 0).toNat ≤ OPC_INPUT_MODE

/-- The query that a letter stands for. -/
def queryOf (ch : Byte) (st : ScnState) : Option Query :=
  if st.privateModeChar = chr '#' ∧ ch = chr 'G' then
    if st.cmdParamsSize > 0 ∧ st.gsxKnown then some .gsx else none
  else if ch = chr 'c' then
    if st.privateModeChar ≠ chr '#' ∧ (st.cmdParamsSize = 0 ∨ st.param 0 = 0) then some .attributes else none
  else if ch = chr 'n' ∧ st.cmdParamsSize = 1 then
    if st.param 0 = 5 then some .status else if st.param 0 = 6 then some .position else none
  else none

/-- The queries among the events of a run. -/
def queries (es : List ScnEvent) : List Query :=
  es.filterMap fun
    | .param _ => none
    | .finalLetter ch st => queryOf ch st

/-- The answer is one to this query. -/
def Query.Answers (q : Query) (answer : List Byte) : Prop := ∃ row col, answer = q.answer row col

/-! ## A letter -/

section Letter
variable (b : Build) (st : ScnState) (g : Gfx)

theorem uart_ite {p : Prop} [Decidable p] {x y : Gfx} {u : List Byte} (hx : x.uart = u) (hy : y.uart = u) :
    (if p then x else y).uart = u := by
  split
  · exact hx
  · exact hy

theorem uart_gfxTermClearLines (fromRow toRow : ℤ) : (gfxTermClearLines b fromRow toRow g).uart = g.uart :=
  uart_ite rfl rfl

theorem uart_clearToEndOfScreen : (clearToEndOfScreen b g).uart = g.uart :=
  uart_ite (uart_gfxTermClearLines b _ _ _) rfl

theorem uart_eraseDisplay : (eraseDisplay b st g).uart = g.uart := by
  rw [eraseDisplay]
  split
  · exact uart_clearToEndOfScreen b g
  · exact uart_ite (uart_gfxTermClearLines b _ _ _) rfl
  · rfl
  · rfl

theorem uart_eraseLine : (eraseLine b st g).uart = g.uart := by
  rw [eraseLine]
  refine uart_ite rfl (uart_ite ?_ rfl)
  split <;> rfl

theorem uart_gfxEscape : (gfxEscape b st g).uart = g.uart := by
  rw [gfxEscape]
  split
  case h_8 => exact uart_clearToEndOfScreen b g
  case h_11 => exact iterate_induction _ _ g (fun _ g' => g'.uart = g.uart) rfl fun i x _ h => h
  all_goals rfl

theorem uart_gfxDrawingPrimitive : (gfxDrawingPrimitive b st g).uart = g.uart := by
  rw [gfxDrawingPrimitive]
  split
  case h_2 => exact uart_ite rfl rfl
  all_goals rfl

theorem gfxDrawBitmap_answer (h : (st.param 0).toNat = OPC_DRAW_BITMAP) :
    (gfxDrawBitmap st g).1.uart = g.uart ∧ (gfxDrawBitmap st g).2 = st.gsxKnown := by
  rw [gfxDrawBitmap, ScnState.gsxKnown, if_pos h]
  by_cases hsize : st.cmdParamsSize = u32 (st.intParam 3 + 4)
  · simp only [hsize, if_true, decide_true]
    exact ⟨rfl, trivial⟩
  · simp [hsize]

/-- A GSX call sends nothing itself; it says whether it is known. -/
theorem gsxCommand_answer : (gsxCommand b st g).1.uart = g.uart ∧ (gsxCommand b st g).2 = st.gsxKnown := by
  have hknown : ∀ n, (st.param 0).toNat = n → 1 ≤ n ∧ n ≤ 33 ∧ n ≠ 10 → true = st.gsxKnown := by
    intro n hn hlt
    rw [ScnState.gsxKnown, if_neg (by rw [hn]; exact hlt.2.2), eq_comm, decide_eq_true_iff, hn]
    exact ⟨hlt.1, hlt.2.1⟩
  rw [gsxCommand]
  split
  case h_5 h => exact ⟨uart_ite (uart_gfxEscape b st g) rfl, hknown _ h (by decide)⟩
  case h_6 h => exact ⟨uart_ite rfl rfl, hknown _ h (by decide)⟩
  case h_9 h => exact ⟨uart_ite (uart_ite rfl rfl) rfl, hknown _ h (by decide)⟩
  case h_10 h => exact gfxDrawBitmap_answer st g h
  case h_11 h => exact ⟨uart_gfxDrawingPrimitive b st g, hknown _ h (by decide)⟩
  case h_13 h => exact ⟨uart_ite rfl rfl, hknown _ h (by decide)⟩
  case h_34 =>
    refine ⟨rfl, ?_⟩
    rw [ScnState.gsxKnown, if_neg ‹_›, eq_comm, decide_eq_false_iff_not]
    rintro ⟨hlo, hhi⟩
    -- the cases before have taken all of them
    generalize (st.param 0).toNat = n at *
    interval_cases n <;> contradiction
  all_goals exact ⟨rfl, hknown _ ‹_› (by decide)⟩

/-- What is sent for a query, at the cursor. -/
def Gfx.answersTo (qs : List Query) (g : Gfx) : List Byte :=
  qs.flatMap (Query.answer (BitVec.ofNat 8 g.ctx.cursorRow + 1) (BitVec.ofNat 8 g.ctx.cursorCol + 1))

theorem uart_gsxCall :
    (gsxCall b st g).uart = g.uart ++ if st.cmdParamsSize > 0 ∧ st.gsxKnown then [chr 'G'] else [] := by
  obtain ⟨huart, hknown⟩ := gsxCommand_answer b st g
  rw [gsxCall]
  by_cases hsome : st.cmdParamsSize > 0
  · rw [if_pos hsome]
    simp only [hknown]
    cases hk : st.gsxKnown with
    | true => simp [hsome, Gfx.uartWrite, huart]
    | false => simp [huart]
  · rw [if_neg hsome, if_neg fun h => hsome h.1, List.append_nil]

/-- The letters that are not answered. -/
theorem uart_ansiAction_other {ch : Byte} (hc : ch ≠ chr 'c') (hn : ch ≠ chr 'n') :
    (ansiAction b ch st g).uart = g.uart := by
  unfold ansiAction
  refine uart_ite (uart_ite rfl rfl) (uart_ite (uart_ite rfl rfl) ?_)
  refine uart_ite (uart_eraseLine b st g) (uart_ite (uart_eraseDisplay b st g) ?_)
  refine uart_ite rfl (uart_ite rfl (uart_ite rfl (uart_ite rfl (uart_ite rfl (uart_ite rfl ?_)))))
  refine uart_ite rfl (uart_ite rfl (uart_ite rfl (uart_ite rfl (uart_ite rfl ?_))))
  rw [if_neg hc, if_neg hn]

theorem queryOf_other {ch : Byte} (hG : ¬(st.privateModeChar = chr '#' ∧ ch = chr 'G')) (hc : ch ≠ chr 'c')
    (hn : ch ≠ chr 'n') : queryOf ch st = none := by
  rw [queryOf, if_neg hG, if_neg hc, if_neg (fun h => hn h.1)]

theorem uart_attributes (hmode : st.privateModeChar ≠ chr '#') :
    (ansiAction b (chr 'c') st g).uart = g.uart ++ g.answersTo (queryOf (chr 'c') st).toList := by
  have hquery : queryOf (chr 'c') st = if st.cmdParamsSize = 0 ∨ st.param 0 = 0 then some .attributes else none := by
    rw [queryOf, if_neg (fun h => hmode h.1), if_pos rfl]
    simp [hmode]
  have hact : ansiAction b (chr 'c') st g = if st.cmdParamsSize = 0 ∨ st.param 0 = 0 then
      g.uartWrite (Query.attributes.answer 0 0) else g := rfl
  rw [hquery, hact]
  split
  · rfl
  · exact (List.append_nil _).symm

theorem uart_status :
    (ansiAction b (chr 'n') st g).uart = g.uart ++ g.answersTo (queryOf (chr 'n') st).toList := by
  have hquery : queryOf (chr 'n') st = if st.cmdParamsSize = 1 then
      if st.param 0 = 5 then some .status else if st.param 0 = 6 then some .position else none else none := by
    rw [queryOf, if_neg (fun h => absurd h.2 (by decide)), if_neg (by decide)]
    simp
  have hact : ansiAction b (chr 'n') st g = if st.cmdParamsSize = 1 then
      if st.param 0 = 5 then g.uartWrite (Query.status.answer 0 0)
      else if st.param 0 = 6 then g.uartWrite (Query.position.answer (BitVec.ofNat 8 g.ctx.cursorRow + 1)
        (BitVec.ofNat 8 g.ctx.cursorCol + 1))
      else g else g := rfl
  rw [hquery, hact]
  split_ifs
  · rfl
  · exact congrArg (g.uart ++ ·) (List.append_nil _).symm
  · exact (List.append_nil _).symm
  · exact (List.append_nil _).symm

/-- **A letter is answered if it is a query**, with the place of the cursor. -/
theorem uart_finalLetterAction (ch : Byte) :
    (finalLetterAction b ch st g).uart = g.uart ++ g.answersTo (queryOf ch st).toList := by
  rw [finalLetterAction]
  by_cases hG : st.privateModeChar = chr '#' ∧ ch = chr 'G'
  · rw [if_pos hG, uart_gsxCall, queryOf, if_pos hG]
    split <;> rfl
  rw [if_neg hG]
  by_cases hc : ch = chr 'c'
  · subst hc
    by_cases hmode : st.privateModeChar = chr '#'
    · have hquery : queryOf (chr 'c') st = none := by
        rw [queryOf, if_neg hG, if_pos rfl, if_neg (fun h => h.1 hmode)]
      rw [if_neg (fun h => absurd h.2 (by decide)), if_pos ⟨hmode, rfl⟩, hquery]
      refine Eq.trans ?_ (List.append_nil _).symm
      exact uart_ite rfl rfl
    · rw [if_neg (fun h => hmode h.1), if_neg (fun h => hmode h.1), if_neg (fun h => hmode h.1)]
      exact uart_attributes b st g hmode
  by_cases hn : ch = chr 'n'
  · subst hn
    rw [if_neg (fun h => absurd h.2 (by decide)), if_neg (fun h => hc h.2), if_neg (fun h => absurd h.2 (by decide))]
    exact uart_status b st g
  · rw [queryOf_other st hG hc hn]
    refine Eq.trans ?_ (List.append_nil _).symm
    refine uart_ite (uart_ite (uart_ite rfl (uart_ite rfl rfl)) rfl) (uart_ite (uart_ite rfl rfl) ?_)
    exact uart_ite (uart_ite rfl (uart_ite rfl rfl)) (uart_ansiAction_other b st g hc hn)

end Letter

/-! ## A byte -/

theorem uart_controlAction (b : Build) (ch : Byte) (g : Gfx) : (controlAction b ch g).uart = g.uart := by
  unfold controlAction
  refine uart_ite rfl (uart_ite rfl (uart_ite rfl (uart_ite (uart_ite rfl rfl) ?_)))
  exact uart_ite (uart_ite rfl rfl) (uart_ite rfl rfl)

theorem uart_fixups (g : Gfx) : (scrollFixup (wrapFixup g)).uart = g.uart := by
  have hwrap : (wrapFixup g).uart = g.uart := uart_ite rfl rfl
  rw [← hwrap]
  exact uart_ite rfl rfl

theorem uart_dispatch (b : Build) (ch : Byte) (t : Term) :
    (dispatch b ch t).g.uart = t.g.uart ++ t.g.answersTo (queries (scanText ch t.scn).2) := by
  have hletter : ∀ st : ScnState, queries [.finalLetter ch st] = (queryOf ch st).toList := by
    intro st
    cases hquery : queryOf ch st with
    | none => exact List.filterMap_cons_none hquery
    | some q => exact List.filterMap_cons_some hquery
  have hquiet : t.g.uart = t.g.uart ++ t.g.answersTo [] := (List.append_nil _).symm
  rw [dispatch, scanText]
  cases hn : t.scn.next with
  | normaltext =>
      refine Eq.trans ?_ hquiet
      dsimp only [stateFunNormaltext]
      split <;> rfl
  | waitsquarebracket =>
      dsimp only [stateFunWaitsquarebracket]
      split
      · exact hquiet
      · split
        · exact hquiet
        · refine Eq.trans ?_ hquiet
          exact uart_ite rfl (uart_ite rfl rfl)
  | altCharset =>
      refine Eq.trans ?_ hquiet
      exact uart_ite rfl (uart_ite rfl rfl)
  | selectescape =>
      dsimp only [stateFunSelectescape]
      split
      · exact hquiet
      · split
        · exact hquiet
        · split
          · exact hquiet
          · rw [hletter]
            exact uart_finalLetterAction b t.scn t.g ch
  | readDigit =>
      dsimp only [stateFunReadDigit]
      split
      · exact hquiet
      · split
        · exact hquiet
        · split
          · exact hquiet
          · rw [hletter]
            exact uart_finalLetterAction b t.scn t.g ch

/-- **A byte is answered if the scanner makes a query of it.** -/
theorem uart_putByte (b : Build) (ch : Byte) (t : Term) :
    (putByte b ch t).g.uart = t.g.uart ++ t.g.answersTo (queries (scan ch t.scn).2) := by
  have hfix : (putByte b ch t).g.uart = (byteAction b ch { t with g := t.g.draw dmaWait }).g.uart := uart_fixups _
  rw [hfix, byteAction, scan]
  split
  · rw [uart_controlAction]
    exact (List.append_nil _).symm
  · exact uart_dispatch b ch _

/-! ## A run -/

/-- The answers to a query have one length. -/
def Query.width : Query → ℕ
  | attributes => 7
  | status => 4
  | position => 10
  | gsx => 1

theorem Query.Answers.length {q : Query} {answer : List Byte} (h : q.Answers answer) : answer.length = q.width := by
  obtain ⟨row, col, rfl⟩ := h
  cases q <;> rfl

/-- So what is sent can be taken apart in one way only. -/
theorem answers_unique {qs : List Query} {as as' : List (List Byte)} (h : List.Forall₂ Query.Answers qs as)
    (h' : List.Forall₂ Query.Answers qs as') (heq : as.flatten = as'.flatten) : as = as' := by
  induction h generalizing as' with
  | nil =>
      cases h'
      rfl
  | cons ha has ih =>
      cases h' with
      | cons ha' has' =>
          rw [List.flatten_cons, List.flatten_cons] at heq
          obtain ⟨hhead, htail⟩ := List.append_inj heq (ha.length.trans ha'.length.symm)
          rw [hhead, ih has' htail]

theorem queries_append (es es' : List ScnEvent) : queries (es ++ es') = queries es ++ queries es' :=
  List.filterMap_append

/-- What is sent at one place answers the queries. -/
theorem answersTo_answers (g : Gfx) (qs : List Query) :
    ∃ answers, List.Forall₂ Query.Answers qs answers ∧ g.answersTo qs = answers.flatten := by
  induction qs with
  | nil => exact ⟨[], .nil, rfl⟩
  | cons q qs ih =>
      obtain ⟨answers, hanswers, heq⟩ := ih
      refine ⟨g.answersTo [q] :: answers, .cons ⟨_, _, List.append_nil _⟩ hanswers, ?_⟩
      rw [List.flatten_cons, ← heq]
      change (q :: qs).flatMap _ = [q].flatMap _ ++ qs.flatMap _
      rw [← List.flatMap_append, List.singleton_append]

theorem uart_runBytes (b : Build) (t : Term) (bytes : List Byte) :
    ∃ answers, List.Forall₂ Query.Answers (queries (bytes.foldl scanAll (t.scn, [])).2) answers ∧
      (runBytes b t bytes).g.uart = t.g.uart ++ answers.flatten := by
  induction bytes generalizing t with
  | nil => exact ⟨[], .nil, (List.append_nil _).symm⟩
  | cons ch bytes ih =>
      obtain ⟨first, hfirst, hsent⟩ := answersTo_answers t.g (queries (scan ch t.scn).2)
      obtain ⟨rest, hrest, hrun⟩ := ih (putByte b ch t)
      refine ⟨first ++ rest, ?_, ?_⟩
      · rw [List.foldl_cons, scanAll, foldl_scanAll_log, queries_append, ← putByte_scn b]
        exact List.rel_append hfirst hrest
      · change (runBytes b (putByte b ch t) bytes).g.uart = _
        rw [hrun, uart_putByte, hsent, List.flatten_append, List.append_assoc]

/-- **Answers can be told apart.**  What is sent during a run is one answer for each query among
the bytes, in their order; it can be cut into such answers in one way, and which queries there
are does not depend on the screen. -/
theorem answers_match_queries (b : Build) (t : Term) (strs : List (List Byte)) :
    ∃! answers, List.Forall₂ Query.Answers (queries ((streamOf strs).foldl scanAll (t.scn, [])).2) answers ∧
      (strs.foldl (fun t str => gfxTermPutstring b str t) t).g.uart = t.g.uart ++ answers.flatten := by
  obtain ⟨answers, hanswers, hsent⟩ := uart_runBytes b t (streamOf strs)
  rw [putstrings_eq]
  refine ⟨answers, ⟨hanswers, hsent⟩, ?_⟩
  rintro answers' ⟨hanswers', hsent'⟩
  exact answers_unique hanswers' hanswers (List.append_cancel_left (hsent'.symm.trans hsent))

/-! ## The cursor report -/

theorem isDigit_ofNat {k : ℕ} (hk : k < 10) : isDigit (BitVec.ofNat 8 (48 + k)) := by
  interval_cases k <;> decide

theorem isDigit_b2s (n : Byte) : ∀ x ∈ b2s n, isDigit x := by
  have hn := n.isLt
  intro x hx
  simp only [b2s, List.mem_cons, List.not_mem_nil, or_false] at hx
  rcases hx with rfl | rfl | rfl <;> exact isDigit_ofNat (by omega)

theorem decimal_b2s (n : Byte) : decimal (b2s n) = n.toNat := by
  have hn := n.isLt
  simp only [b2s, decimal, List.foldl_cons, List.foldl_nil, BitVec.toNat_ofNat]
  omega

/-- The numbers of a report as an address. -/
def reportAddress (row col : Byte) : Address where
  letter := .H
  row := ⟨b2s row, isDigit_b2s row⟩
  col := some ⟨b2s col, isDigit_b2s col⟩
  rowSmall := by
    rw [decimal_b2s]
    omega
  colSmall := by
    intro c hc
    obtain rfl := Option.some.inj hc
    rw [decimal_b2s]
    omega

/-- `ESC [ 6 n` -/
def askPosition (b : Build) (t : Term) : Term := gfxTermPutstring b (sequenceOf none (text "6") [] (chr 'n')) t

/-- A byte is enough for the coordinate counted from one; or it is zero, and the coordinate is the last. -/
def Reportable (size v : ℕ) : Prop := v + 1 < 256 ∨ (v + 1) % 256 = 0 ∧ v + 1 = size

theorem pred_report_iff {m v : ℕ} (hv : v < m) (hm : m < 2 ^ 31) :
    Address.pred m (BitVec.ofNat 8 v + 1).toNat = v ↔ Reportable m v := by
  have hbyte : (BitVec.ofNat 8 v + 1).toNat = (v + 1) % 256 := by
    rw [BitVec.toNat_add, BitVec.toNat_ofNat]
    exact Nat.mod_add_mod v 256 1
  rw [hbyte, Address.pred, clampTo_eq (by omega) hm, Reportable]
  rcases Nat.eq_zero_or_pos ((v + 1) % 256) with hzero | hpos
  · have hwrap : u32 (((0 : ℕ) : ℤ) - 1) = 2 ^ 32 - 1 := rfl
    rw [hzero, hwrap]
    omega
  · rw [u32_of_nonneg (by omega) (by omega)]
    omega

section Report
variable (b : Build) {t : Term} (hready : t.scn.Ready) (h : t.AtRest)
include hready h

/-- What the letter of the query finds. -/
theorem askPosition_letter :
    ∃ t₁ : Term, t₁.g.uart = t.g.uart ∧ t.g.SameScreen t₁.g ∧ scan (chr 'n') t₁.scn = (t₁.scn.backToNormal,
      [.finalLetter (chr 'n') t₁.scn]) ∧ queryOf (chr 'n') t₁.scn = some .position ∧
      askPosition b t = putByte b (chr 'n') t₁ := by
  obtain ⟨hopened, hn⟩ := sameScreen_opened b h.inRange h.next
  have hdigits : ∀ e ∈ [text "6"], ∀ x ∈ e, isDigit x := by decide
  have hreads : (runBytes b t [TERM_ESCAPE_CHAR, chr '[', chr '6']).scn.Reads [6] :=
    (reads_parameters b h.next hready hdigits (by decide)).2
  have hevents : [TERM_ESCAPE_CHAR, chr '[', chr '6'].foldl scanAll (t.scn, []) =
      scanAll (t.scn.opened, [.param 0]) (chr '6') := congrArg (scanAll · (chr '6')) (foldl_opened h.next)
  have hnext : (runBytes b t [TERM_ESCAPE_CHAR, chr '[', chr '6']).scn.next = .readDigit := by
    rw [scn_runBytes, hevents]
    rfl
  obtain ⟨answers, hanswers, hsent⟩ := uart_runBytes b t [TERM_ESCAPE_CHAR, chr '[', chr '6']
  rw [hevents] at hanswers
  obtain rfl : answers = [] := List.forall₂_nil_left_iff.mp hanswers
  refine ⟨runBytes b t [TERM_ESCAPE_CHAR, chr '[', chr '6'], ?_, ?_, scan_final hnext (by decide), ?_, rfl⟩
  · exact hsent.trans (List.append_nil _)
  · have hr : (runBytes b t [TERM_ESCAPE_CHAR, chr '[']).g.ctx.InRange := by
      rw [hopened.ctx]
      exact h.inRange
    have hsix : ∀ ch ∈ [chr '6'], isParameter ch := by
      intro ch hch
      obtain rfl := List.mem_singleton.mp hch
      exact Or.inl (by decide)
    exact hopened.trans (sameScreen_parameters b [chr '6'] hsix hr (Or.inl hn)).1
  · have hparam := hreads.value 0 (by decide)
    rw [queryOf, if_neg (fun h => absurd h.2 (by decide)), if_neg (by decide), if_pos ⟨rfl, hreads.size⟩, hparam]
    rfl

/-- The terminal reports where its cursor is, and stays as it is. -/
theorem askPosition_spec (hs : t.g.ctx.Sized) :
    (askPosition b t).g.uart = t.g.uart ++ Query.position.answer (BitVec.ofNat 8 t.g.ctx.cursorRow + 1)
      (BitVec.ofNat 8 t.g.ctx.cursorCol + 1) ∧ t.g.SameScreen (askPosition b t).g := by
  constructor
  · obtain ⟨t₁, huart, hsame, hscan, hquery, hask⟩ := askPosition_letter b hready h
    have hqueries : queries [.finalLetter (chr 'n') t₁.scn] = [.position] := List.filterMap_cons_some hquery
    rw [hask, uart_putByte, hscan, hqueries, huart, Gfx.answersTo, ← hsame.ctx]
    rfl
  · have hops : ∀ st : ScnState, st.Reads (sequenceValues (text "6") []) → ansiOps (chr 'n') st t.g.ctx =
        [.send (Query.position.answer (BitVec.ofNat 8 t.g.ctx.cursorRow + 1)
          (BitVec.ofNat 8 t.g.ctx.cursorCol + 1))] := by
      intro st hst
      have hsize : st.cmdParamsSize = 1 := hst.size
      have hparam : st.param 0 = BitVec.ofNat 32 6 := hst.value 0 (by decide)
      change (if st.cmdParamsSize = 1 then _ else _) = _
      rw [if_pos hsize, hparam]
      rfl
    have hsend : ∀ s : List Byte, t.g.SameScreen (t.g.uartWrite s) := fun _ => ⟨rfl, rfl, rfl⟩
    exact (hsend _).trans
      (sequence_ops b hready h hs (by decide) (by decide) (L := chr 'n') (by decide) hops h.inRange).1

end Report

/-- **A report leads back.**  Sent back as an address, it brings any cursor of the same grid to the
place it was made at, exactly if both coordinates fit. -/
theorem report_returns_iff (b : Build) (t t' : Term) (hready : t.scn.Ready) (h : t.AtRest) (hs : t.g.ctx.Sized)
    (hready' : t'.scn.Ready) (h' : t'.AtRest) (hs' : t'.g.ctx.Sized)
    (hgrid : t'.g.ctx.HEIGHT = t.g.ctx.HEIGHT ∧ t'.g.ctx.WIDTH = t.g.ctx.WIDTH) :
    ∃ numbers, (askPosition b t).g.uart = t.g.uart ++ ([TERM_ESCAPE_CHAR, chr '['] ++ numbers ++ [chr 'R']) ∧
      t.g.SameScreen (askPosition b t).g ∧
      let back := gfxTermPutstring b ([TERM_ESCAPE_CHAR, chr '['] ++ numbers ++ [chr 'H']) t'
      (back.g.ctx.cursorRow = t.g.ctx.cursorRow ∧ back.g.ctx.cursorCol = t.g.ctx.cursorCol ↔
        Reportable t.g.ctx.HEIGHT t.g.ctx.cursorRow ∧ Reportable t.g.ctx.WIDTH t.g.ctx.cursorCol) := by
  obtain ⟨huart, hsame⟩ := askPosition_spec b hready h hs
  generalize hrow : BitVec.ofNat 8 t.g.ctx.cursorRow + 1 = row at huart
  generalize hcol : BitVec.ofNat 8 t.g.ctx.cursorCol + 1 = col at huart
  refine ⟨b2s row ++ chr ';' :: b2s col, huart, hsame, ?_⟩
  have hback := (reportAddress row col).cursor_run b hready' h' hs'
  have hreadRow : (reportAddress row col).readRow = row.toNat := decimal_b2s row
  have hreadCol : (reportAddress row col).readCol = col.toNat := decimal_b2s col
  have hbytes : (reportAddress row col).run b t' = gfxTermPutstring b
      ([TERM_ESCAPE_CHAR, chr '['] ++ (b2s row ++ chr ';' :: b2s col) ++ [chr 'H']) t' := rfl
  rw [hbytes, hreadRow, hreadCol, hgrid.1, hgrid.2] at hback
  dsimp only
  rw [hback.1, hback.2, ← hrow, ← hcol, pred_report_iff h.inRange.row hs.height_lt,
    pred_report_iff h.inRange.col hs.width_lt]

/-- From the first cell of a screen of 640 by 480 and back. -/
theorem report_returns_home :
    let t := Term.start .shipped 0 640 480 640 307200 (fun _ => 0)
    ∃ numbers, (askPosition .shipped t).g.uart = [TERM_ESCAPE_CHAR, chr '['] ++ numbers ++ [chr 'R'] ∧
      let back := gfxTermPutstring .shipped ([TERM_ESCAPE_CHAR, chr '['] ++ numbers ++ [chr 'H']) t
      back.g.ctx.cursorRow = 0 ∧ back.g.ctx.cursorCol = 0 := by
  intro t
  obtain ⟨hrest, hready, hsized⟩ : t.AtRest ∧ t.scn.Ready ∧ t.g.ctx.Sized := Term.atRest_vga
  obtain ⟨numbers, huart, -, hback⟩ :=
    report_returns_iff .shipped t t hready hrest hsized hready hrest hsized ⟨rfl, rfl⟩
  exact ⟨numbers, huart, hback.mpr ⟨Or.inl (by decide), Or.inl (by decide)⟩⟩

end Pigfx
