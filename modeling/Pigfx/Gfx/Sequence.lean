import Pigfx.Gfx.Decoder

/-!
# Escape sequences

Two properties of the scanner over every stream.  A well-formed sequence is
decoded to the call of `state_fun_final_letter` it spells, wherever control bytes
are strewn into it; and the parameter array is respected exactly as long as no
separator arrives when it is full.

## Main definitions

* `decimal`, `sequenceOf` — what a sequence says and how it is spelled.
* `Decoded` — the scanner after the parameters read so far.
* `SeparatorOverflow` — a separator that finds the array full.
-/

namespace Pigfx
open Lib

/-! ## Spelling -/

/-- The value of a digit string. -/
def decimal (d : List Byte) : ℕ := d.foldl (fun v x => 10 * v + (x.toNat - 48)) 0

theorem decimal_append (d : List Byte) (x : Byte) :
    decimal (d ++ [x]) = 10 * decimal d + (x.toNat - 48) := by
  simp [decimal, List.foldl_append]

/-- `ESC [ P d;ds L` -/
def sequenceOf (P : Option Byte) (d : List Byte) (ds : List (List Byte)) (L : Byte) : List Byte :=
  [TERM_ESCAPE_CHAR, chr '['] ++ P.toList ++ d ++ ds.flatMap (fun e => chr ';' :: e) ++ [L]

/-- The bytes between the bracket and the letter. -/
def isParameter (x : Byte) : Prop := isDigit x ∨ x = chr ';'

theorem isParameter_body {d : List Byte} {ds : List (List Byte)} (hd : ∀ e ∈ d :: ds, ∀ x ∈ e, isDigit x) :
    ∀ x ∈ d ++ ds.flatMap (fun e => chr ';' :: e), isParameter x := by
  intro x hx
  rw [List.mem_append, List.mem_flatMap] at hx
  rcases hx with hx | ⟨e, he, hx⟩
  · exact Or.inl (hd d List.mem_cons_self x hx)
  · rcases List.mem_cons.mp hx with rfl | hx
    · exact Or.inr rfl
    · exact Or.inl (hd e (List.mem_cons_of_mem _ he) x hx)

/-- The opening, the body and the letter are read one after the other. -/
theorem runBytes_sequence (b : Build) (t : Term) (P : Option Byte) (d : List Byte) (ds : List (List Byte))
    (L : Byte) : runBytes b t (sequenceOf P d ds L) =
      putByte b L (runBytes b (runBytes b (runBytes b t [TERM_ESCAPE_CHAR, chr '[']) P.toList)
        (d ++ ds.flatMap fun e => chr ';' :: e)) := by
  simp only [sequenceOf, runBytes_append]
  rfl

/-- The calls of `state_fun_final_letter` among the events. -/
def ScnEvent.isCall : ScnEvent → Bool
  | .param _ => false
  | .finalLetter _ _ => true

/-! ## Reading parameters -/

theorem isDigit_range {x : Byte} (h : isDigit x) : 48 ≤ x.toNat ∧ x.toNat ≤ 57 := by
  simpa [isDigit, chr, BitVec.le_def] using h

theorem not_isControl_digit {x : Byte} (h : isDigit x) : isControl x = false := by
  have hr := isDigit_range h
  simp only [isControl, ← BitVec.toNat_inj, decide_eq_false_iff_not, BitVec.reduceToNat]
  omega

theorem not_isControl_parameter {x : Byte} (h : isParameter x) : isControl x = false := by
  rcases h with h | rfl
  · exact not_isControl_digit h
  · decide

theorem toNat_digitValue {x : Byte} (h : isDigit x) : (digitValue x).toNat = x.toNat - 48 := by
  have hr := isDigit_range h
  simp only [digitValue, chr, BitVec.toNat_setWidth, BitVec.toNat_sub, BitVec.toNat_ofNat]
  have : '0'.toNat = 48 := rfl
  omega

/-- A sequence has no zero byte. -/
theorem sequenceOf_ne_zero {P : Option Byte} (hP : ∀ p ∈ P, p ≠ 0) {d : List Byte} {ds : List (List Byte)}
    (hd : ∀ e ∈ d :: ds, ∀ x ∈ e, isDigit x) {L : Byte} (hL : L ≠ 0) : ∀ ch ∈ sequenceOf P d ds L, ch ≠ 0 := by
  have hdigit : ∀ x, isDigit x → x ≠ 0 := by
    rintro x hx rfl
    exact absurd hx (by decide)
  intro ch hch
  simp only [sequenceOf, List.mem_append, List.mem_cons, List.mem_flatMap, List.not_mem_nil, or_false,
    Option.mem_toList] at hch
  rcases hch with (((hintro | hp) | hx) | hsep) | rfl
  · rcases hintro with rfl | rfl <;> decide
  · exact hP ch hp
  · exact hdigit ch (hd d List.mem_cons_self ch hx)
  · obtain ⟨e, he, rfl | hx⟩ := hsep
    · decide
    · exact hdigit ch (hd e (List.mem_cons_of_mem _ he) ch hx)
  · exact hL

theorem cString_sequenceOf {P : Option Byte} (hP : ∀ p ∈ P, p ≠ 0) {d : List Byte} {ds : List (List Byte)}
    (hd : ∀ e ∈ d :: ds, ∀ x ∈ e, isDigit x) {L : Byte} (hL : L ≠ 0) :
    cString (sequenceOf P d ds L) = sequenceOf P d ds L := by
  rw [cString, List.takeWhile_eq_self_iff]
  intro ch hch
  exact decide_eq_true (sequenceOf_ne_zero hP hd hL ch hch)

/-- A sequence is printed from its first byte to its letter. -/
theorem putstring_sequenceOf (b : Build) (t : Term) {P : Option Byte} (hP : ∀ p ∈ P, p ≠ 0) {d : List Byte}
    {ds : List (List Byte)} (hd : ∀ e ∈ d :: ds, ∀ x ∈ e, isDigit x) {L : Byte} (hL : L ≠ 0) :
    gfxTermPutstring b (sequenceOf P d ds L) t = runBytes b t (sequenceOf P d ds L) := by
  rw [gfxTermPutstring_eq, cString_sequenceOf hP hd hL]

/-- The scanner has read the prefix `P` and the parameters `ds`, the last of which
may still grow. -/
structure Decoded (P : Option Byte) (ds : List (List Byte)) (st : ScnState) : Prop where
  next : st.next = .readDigit
  mode : st.privateModeChar = P.getD 0
  size : st.cmdParamsSize = ds.length
  value : ∀ i < ds.length, st.cmdParams i = BitVec.ofNat 32 (decimal (ds.getD i []))

theorem Decoded.toNat_param {P : Option Byte} {ds : List (List Byte)} {st : ScnState} (h : Decoded P ds st)
    (i : ℕ) (hi : i < CMD_PARAMS_LENGTH) (hlen : i < ds.length) :
    (st.param i).toNat = decimal (ds.getD i []) % 2 ^ 32 := by
  rw [ScnState.param_of_lt hi, h.value i hlen, BitVec.toNat_ofNat]

/-- A digit multiplies the last parameter by ten and adds to it. -/
theorem decoded_digit {P : Option Byte} {ds : List (List Byte)} {e : List Byte} {st : ScnState}
    (h : Decoded P (ds ++ [e]) st) (hl : ds.length < CMD_PARAMS_LENGTH) {x : Byte} (hx : isDigit x) :
    Decoded P (ds ++ [e ++ [x]]) (scan x st).1 ∧
      (scan x st).2.filter ScnEvent.isCall = [] := by
  have hs : st.cmdParamsSize = ds.length + 1 := by simpa using h.size
  have hi : st.lastIndex = ds.length := by
    rw [ScnState.lastIndex_of_pos (by omega) (by omega), hs, Nat.add_sub_cancel]
  have hv : st.cmdParams ds.length = BitVec.ofNat 32 (decimal e) := by
    simpa using h.value ds.length (by simp)
  simp only [scan, not_isControl_digit hx, scanText, h.next, hx, ScnState.pushDigit, hi,
    ScnState.param_of_lt hl, ScnState.setParam_of_lt hl, if_true, Bool.false_eq_true, if_false]
  refine ⟨⟨rfl, h.mode, by simpa using h.size, ?_⟩, rfl⟩
  intro i hil
  by_cases hlast : i = ds.length
  · subst hlast
    simp only [if_true, hv]
    apply BitVec.eq_of_toNat_eq
    simp [decimal_append, toNat_digitValue hx, Nat.mul_comm]
  · have hlt : i < ds.length := by simp at hil; omega
    have hold := h.value i (by simp; omega)
    simpa [hlast, List.getElem?_append_left hlt] using hold

theorem decoded_digits {P : Option Byte} {ds : List (List Byte)} (hl : ds.length < CMD_PARAMS_LENGTH)
    (d : List Byte) (hd : ∀ x ∈ d, isDigit x) :
    ∀ {e : List Byte} {s : Track}, Decoded P (ds ++ [e]) s.1 →
      Decoded P (ds ++ [e ++ d]) (d.foldl scanAll s).1 ∧
        (d.foldl scanAll s).2.filter ScnEvent.isCall = s.2.filter ScnEvent.isCall := by
  induction d with
  | nil => intro e s h; simpa using h
  | cons x d ih =>
      intro e s h
      have hx := decoded_digit h hl (hd x List.mem_cons_self)
      have hrest := ih (fun y hy => hd y (List.mem_cons_of_mem _ hy)) (s := scanAll s x) hx.1
      refine ⟨by simpa using hrest.1, ?_⟩
      rw [List.foldl_cons, hrest.2, scanAll, List.filter_append, hx.2, List.append_nil]

/-- A separator starts a new parameter with the value zero. -/
theorem decoded_separator {P : Option Byte} {ds : List (List Byte)} {st : ScnState}
    (h : Decoded P ds st) (hl : ds.length < CMD_PARAMS_LENGTH) :
    Decoded P (ds ++ [[]]) (scan (chr ';') st).1 ∧
      (scan (chr ';') st).2.filter ScnEvent.isCall = [] := by
  have hc : isControl (chr ';') = false := by decide
  have hd : isDigit (chr ';') = false := by decide
  have h0 : chr ';' ≠ 0 := by decide
  have hs : st.cmdParamsSize < CMD_PARAMS_LENGTH := by rw [h.size]; exact hl
  simp only [scan, hc, scanText, h.next, hd, h0, ScnState.pushParam_of_lt hs, if_true,
    Bool.false_eq_true, if_false]
  refine ⟨⟨rfl, h.mode, by simp [h.size], ?_⟩, rfl⟩
  intro i hil
  by_cases hlast : i = ds.length
  · subst hlast; simp [decimal, h.size]
  · have hlt : i < ds.length := by simp at hil; omega
    simpa [hlast, h.size, List.getElem?_append_left hlt] using h.value i hlt

/-- The rest of a parameter and all the following ones. -/
theorem decoded_tail {P : Option Byte} (ds : List (List Byte)) (hds : ∀ e ∈ ds, ∀ x ∈ e, isDigit x) :
    ∀ {l : List (List Byte)} {e : List Byte} (d : List Byte) {s : Track}, (∀ x ∈ d, isDigit x) →
      Decoded P (l ++ [e]) s.1 → l.length + 1 + ds.length ≤ CMD_PARAMS_LENGTH →
      Decoded P (l ++ (e ++ d) :: ds) ((d ++ ds.flatMap fun e => chr ';' :: e).foldl scanAll s).1 ∧
        ((d ++ ds.flatMap fun e => chr ';' :: e).foldl scanAll s).2.filter ScnEvent.isCall =
          s.2.filter ScnEvent.isCall := by
  induction ds with
  | nil =>
      intro l e d s hd h hl
      simpa using decoded_digits (by simp at hl; omega) d hd h
  | cons e' ds ih =>
      intro l e d s hd h hl
      simp only [List.length_cons] at hl
      have hdig := decoded_digits (by omega) d hd h
      have hsep := decoded_separator hdig.1 (by simp; omega)
      have hrest := ih (fun x hx => hds x (List.mem_cons_of_mem _ hx)) (l := l ++ [e ++ d]) e'
        (s := scanAll (d.foldl scanAll s) (chr ';')) (hds e' List.mem_cons_self) hsep.1
        (by simp; omega)
      rw [List.flatMap_cons, List.cons_append, List.foldl_append, List.foldl_cons]
      refine ⟨by simpa using hrest.1, ?_⟩
      rw [hrest.2, scanAll, List.filter_append, hsep.2, List.append_nil, hdig.2]

/-! ## The first byte after the bracket -/

theorem decoded_mode {st : ScnState} (hn : st.next = .selectescape) {c : Byte}
    (hc : c = chr '?' ∨ c = chr '#') :
    Decoded (some c) [[]] (scan c st).1 ∧ (scan c st).2.filter ScnEvent.isCall = [] := by
  have hctl : isControl c = false := by rcases hc with rfl | rfl <;> decide
  have hdig : isDigit c = false := by rcases hc with rfl | rfl <;> decide
  have hsep : c ≠ chr ';' := by rcases hc with rfl | rfl <;> decide
  have hl : 0 < CMD_PARAMS_LENGTH := by decide
  simp only [scan, hctl, scanText, hn, hdig, hsep, hc, ScnState.setParam_of_lt hl, if_true,
    Bool.false_eq_true, if_false]
  refine ⟨⟨rfl, rfl, rfl, ?_⟩, rfl⟩
  intro i hi
  obtain rfl : i = 0 := by simpa using hi
  rfl

theorem decoded_first_digit {st : ScnState} (hn : st.next = .selectescape)
    (hm : st.privateModeChar = 0) {x : Byte} (hx : isDigit x) :
    Decoded none [[x]] (scan x st).1 ∧ (scan x st).2.filter ScnEvent.isCall = [] := by
  have hl : 0 < CMD_PARAMS_LENGTH := by decide
  simp only [scan, not_isControl_digit hx, scanText, hn, hx, ScnState.setParam_of_lt hl, if_true,
    Bool.false_eq_true, if_false]
  refine ⟨⟨rfl, hm, rfl, ?_⟩, rfl⟩
  intro i hi
  obtain rfl : i = 0 := by simpa using hi
  apply BitVec.eq_of_toNat_eq
  have hr := isDigit_range hx
  simp [toNat_digitValue hx, decimal]
  omega

theorem decoded_first_separator {st : ScnState} (hn : st.next = .selectescape)
    (hm : st.privateModeChar = 0) :
    Decoded none [[], []] (scan (chr ';') st).1 ∧
      (scan (chr ';') st).2.filter ScnEvent.isCall = [] := by
  have hctl : isControl (chr ';') = false := by decide
  have hdig : isDigit (chr ';') = false := by decide
  have hl : 1 < CMD_PARAMS_LENGTH := by decide
  simp only [scan, hctl, scanText, hn, hdig, ScnState.setParam_of_lt (Nat.zero_lt_of_lt hl),
    ScnState.setParam_of_lt hl, if_true, Bool.false_eq_true, if_false]
  refine ⟨⟨rfl, hm, rfl, ?_⟩, rfl⟩
  intro i hi
  have hi2 : i < 2 := by simpa using hi
  interval_cases i <;> rfl

/-! ## Final letters -/

/-- The bytes that can end a sequence once a parameter has been read. -/
def isFinal (L : Byte) : Prop := isControl L = false ∧ isDigit L = false ∧ L ≠ chr ';' ∧ L ≠ 0

instance (L : Byte) : Decidable (isFinal L) := inferInstanceAs (Decidable (_ ∧ _))

/-- Among them those that start no parameters and are not the letter of the GSX calls. -/
def isAnsiLetter (L : Byte) : Prop := isFinal L ∧ (L ≠ chr '?' ∧ L ≠ chr '#') ∧ L ≠ chr 'G'

instance (L : Byte) : Decidable (isAnsiLetter L) := inferInstanceAs (Decidable (_ ∧ _))

theorem scan_final {st : ScnState} {L : Byte} (hn : st.next = .readDigit) (hL : isFinal L) :
    scan L st = (st.backToNormal, [.finalLetter L st]) := by
  obtain ⟨hc, hd, hsep, h0⟩ := hL
  simp only [scan, scanText, hn, hc, hd, hsep, h0, Bool.false_eq_true, if_false]

theorem scan_final_selectescape {st : ScnState} {L : Byte} (hn : st.next = .selectescape)
    (hL : isFinal L) (hP : L ≠ chr '?' ∧ L ≠ chr '#') :
    scan L st = (st.backToNormal, [.finalLetter L st]) := by
  obtain ⟨hc, hd, hsep, -⟩ := hL
  simp [scan, scanText, hn, hc, hd, hsep, hP.1, hP.2]

/-- The scanner after `ESC [`. -/
def ScnState.opened (st : ScnState) : ScnState :=
  { st.setParam 0 1 with privateModeChar := 0, next := .selectescape }

theorem foldl_opened {st : ScnState} (hn : st.next = .normaltext) :
    [TERM_ESCAPE_CHAR, chr '['].foldl scanAll (st, []) = (st.opened, [.param 0]) := by
  have h1 : isControl TERM_ESCAPE_CHAR = false := by decide
  have h2 : isControl (chr '[') = false := by decide
  simp only [List.foldl_cons, List.foldl_nil, scanAll, scan, h1, h2, scanText, hn, if_true,
    Bool.false_eq_true, if_false]
  rfl

/-- The parameters after `ESC [` when there is something to read. -/
theorem decoded_body {st : ScnState} (hn : st.next = .selectescape) (hm : st.privateModeChar = 0)
    {P : Option Byte} (hP : P = none ∨ P = some (chr '?') ∨ P = some (chr '#')) (d : List Byte)
    (ds : List (List Byte)) (hd : ∀ e ∈ d :: ds, ∀ x ∈ e, isDigit x)
    (hlen : ds.length + 1 ≤ CMD_PARAMS_LENGTH) (hne : ¬(P = none ∧ d = [] ∧ ds = []))
    (es : List ScnEvent) :
    let s := (P.toList ++ d ++ ds.flatMap fun e => chr ';' :: e).foldl scanAll (st, es)
    Decoded P (d :: ds) s.1 ∧ s.2.filter ScnEvent.isCall = es.filter ScnEvent.isCall := by
  have hds : ∀ e ∈ ds, ∀ x ∈ e, isDigit x := fun e he => hd e (List.mem_cons_of_mem _ he)
  have hd0 : ∀ x ∈ d, isDigit x := hd d List.mem_cons_self
  -- what the first byte leaves, the tail extends
  have first : ∀ {c : Byte} {l : List (List Byte)} {e : List Byte} (d : List Byte)
      (ds : List (List Byte)), (∀ x ∈ d, isDigit x) → (∀ e ∈ ds, ∀ x ∈ e, isDigit x) →
      Decoded P (l ++ [e]) (scan c st).1 ∧ (scan c st).2.filter ScnEvent.isCall = [] →
      l.length + 1 + ds.length ≤ CMD_PARAMS_LENGTH →
      let s := (c :: (d ++ ds.flatMap fun e => chr ';' :: e)).foldl scanAll (st, es)
      Decoded P (l ++ (e ++ d) :: ds) s.1 ∧
        s.2.filter ScnEvent.isCall = es.filter ScnEvent.isCall := by
    intro c l e d ds hd hds h hl
    have htail := decoded_tail ds hds d (s := scanAll (st, es) c) hd h.1 hl
    refine ⟨htail.1, ?_⟩
    rw [List.foldl_cons, htail.2, scanAll, List.filter_append, h.2, List.append_nil]
  cases P with
  | some c =>
      have hc : c = chr '?' ∨ c = chr '#' := by simpa using hP
      exact first (l := []) (e := []) d ds hd0 hds (decoded_mode hn hc) (by simp; omega)
  | none =>
      cases d with
      | cons x d =>
          exact first (l := []) (e := [x]) d ds (fun y hy => hd0 y (List.mem_cons_of_mem _ hy)) hds
            (decoded_first_digit hn hm (hd0 x List.mem_cons_self)) (by simp; omega)
      | nil =>
          cases ds with
          | nil => exact absurd ⟨rfl, rfl, rfl⟩ hne
          | cons e ds =>
              simp only [List.length_cons] at hlen
              exact first (l := [[]]) (e := []) e ds (hds e List.mem_cons_self)
                (fun e' he' => hds e' (List.mem_cons_of_mem _ he')) (decoded_first_separator hn hm)
                (by simp; omega)

/-- **Decoding.**  A stream that is a sequence but for control bytes, fed in any
chunks to a terminal in normal text, calls `state_fun_final_letter` once, with the
letter, the prefix and the parameters the sequence spells, and leaves the scanner
in normal text. -/
theorem decode_sequence (b : Build) (t : Term) (hn : t.scn.next = .normaltext)
    (hs : t.scn.cmdParamsSize = 0) (P : Option Byte)
    (hP : P = none ∨ P = some (chr '?') ∨ P = some (chr '#')) (d : List Byte) (ds : List (List Byte))
    (hd : ∀ e ∈ d :: ds, ∀ x ∈ e, isDigit x) (hlen : ds.length + 1 ≤ CMD_PARAMS_LENGTH) (L : Byte)
    (hL : isFinal L) (hbare : P = none ∧ d = [] ∧ ds = [] → L ≠ chr '?' ∧ L ≠ chr '#')
    (strs : List (List Byte))
    (hstream : (streamOf strs).filter (fun ch => !isControl ch) = sequenceOf P d ds L) :
    let t' := strs.foldl (fun t str => gfxTermPutstring b str t) t
    ∃ es st, t'.log = t.log ++ es ∧ es.filter ScnEvent.isCall = [.finalLetter L st] ∧
      st.privateModeChar = P.getD 0 ∧
      (P = none ∧ d = [] ∧ ds = [] → st.cmdParamsSize = 0) ∧
      (¬(P = none ∧ d = [] ∧ ds = []) → st.cmdParamsSize = ds.length + 1 ∧
        ∀ i < ds.length + 1, st.cmdParams i = BitVec.ofNat 32 (decimal ((d :: ds).getD i []))) ∧
      t'.scn.next = .normaltext ∧ t'.scn.cmdParamsSize = 0 := by
  intro t'
  have htrack : t'.track = (sequenceOf P d ds L).foldl scanAll t.track := by
    rw [← hstream, foldl_scanAll_filter, ← track_runBytes b, ← putstrings_eq]
  have hsplit := foldl_scanAll_log (sequenceOf P d ds L) t.scn t.log
  have hscn : t'.scn = ((sequenceOf P d ds L).foldl scanAll (t.scn, [])).1 :=
    congrArg Prod.fst (htrack.trans hsplit)
  have hlog : t'.log = t.log ++ ((sequenceOf P d ds L).foldl scanAll (t.scn, [])).2 :=
    congrArg Prod.snd (htrack.trans hsplit)
  have hspell : sequenceOf P d ds L = [TERM_ESCAPE_CHAR, chr '['] ++
      (P.toList ++ d ++ ds.flatMap fun e => chr ';' :: e) ++ [L] := by
    simp [sequenceOf]
  rw [hspell, List.foldl_append, List.foldl_append, foldl_opened hn] at hscn hlog
  have ho : t.scn.opened.next = .selectescape := rfl
  have hm : t.scn.opened.privateModeChar = 0 := rfl
  by_cases hne : P = none ∧ d = [] ∧ ds = []
  · -- the letter follows the bracket
    obtain ⟨rfl, rfl, rfl⟩ := hne
    have hscan := scan_final_selectescape ho hL (hbare ⟨rfl, rfl, rfl⟩)
    refine ⟨_, t.scn.opened, hlog, ?_, hm, fun _ => ?_, fun h => absurd ⟨rfl, rfl, rfl⟩ h, ?_, ?_⟩
    · simp [scanAll, hscan, ScnEvent.isCall]
    · simpa [ScnState.opened, ScnState.size_setParam] using hs
    · rw [hscn]; simp [scanAll, hscan, ScnState.backToNormal]
    · rw [hscn]; simp [scanAll, hscan, ScnState.backToNormal]
  · -- the letter follows the parameters
    obtain ⟨hdec, hcalls⟩ := decoded_body ho hm hP d ds hd hlen hne [.param 0]
    generalize (P.toList ++ d ++ ds.flatMap fun e => chr ';' :: e).foldl scanAll
      (t.scn.opened, [.param 0]) = s at hscn hlog hdec hcalls
    have hscan := scan_final hdec.next hL
    refine ⟨_, s.1, hlog, ?_, hdec.mode, fun h => absurd h hne, fun _ => ⟨by simpa using hdec.size,
      fun i hi => hdec.value i (by simpa using hi)⟩, ?_, ?_⟩
    · simp [scanAll, hscan, List.filter_append, hcalls, ScnEvent.isCall]
    · rw [hscn]; simp [scanAll, hscan, ScnState.backToNormal]
    · rw [hscn]; simp [scanAll, hscan, ScnState.backToNormal]

/-- `ESC [ 5 ; 1 H` in two strings, with a carriage return inside. -/
theorem decode_sequence_home :
    let strs := [text "\x1b[5", text "\r;1H"]
    let t := Term.start .shipped 0 640 480 640 307200 (fun _ => 0)
    let t' := strs.foldl (fun t str => gfxTermPutstring .shipped str t) t
    t.scn.next = .normaltext ∧
      ∃ es st, t'.log = t.log ++ es ∧ es.filter ScnEvent.isCall = [.finalLetter (chr 'H') st] ∧
        st.privateModeChar = 0 ∧ st.cmdParamsSize = 2 ∧ st.cmdParams 0 = 5 ∧ st.cmdParams 1 = 1 ∧
        t'.scn.next = .normaltext := by
  intro strs t t'
  refine ⟨rfl, ?_⟩
  obtain ⟨es, st, hlog, hcall, hmode, -, hpar, hnext, -⟩ := decode_sequence .shipped t rfl rfl none
    (Or.inl rfl) [chr '5'] [[chr '1']] (by decide) (by decide) (chr 'H') ⟨by decide, by decide,
    by decide, by decide⟩ (by decide) strs (by decide)
  obtain ⟨hsize, hval⟩ := hpar (by decide)
  exact ⟨es, st, hlog, hcall, hmode, hsize, hval 0 (by decide), hval 1 (by decide), hnext⟩

/-! ## The parameter array -/

/-- The byte is a separator, and the digit state finds the array full. -/
def SeparatorOverflow (st : ScnState) (ch : Byte) : Prop :=
  st.next = .readDigit ∧ ch = chr ';' ∧ CMD_PARAMS_LENGTH ≤ st.cmdParamsSize

instance (st : ScnState) (ch : Byte) : Decidable (SeparatorOverflow st ch) :=
  inferInstanceAs (Decidable (_ ∧ _ ∧ _))

/-- Every access to the parameter array among the events has its index in range. -/
def ParamsInBounds (es : List ScnEvent) : Prop := ∀ i, .param i ∈ es → i < CMD_PARAMS_LENGTH

theorem paramsInBounds_append (xs ys : List ScnEvent) :
    ParamsInBounds (xs ++ ys) ↔ ParamsInBounds xs ∧ ParamsInBounds ys := by
  simp only [ParamsInBounds, List.mem_append]
  exact ⟨fun h => ⟨fun i hi => h i (Or.inl hi), fun i hi => h i (Or.inr hi)⟩,
    fun h i hi => hi.elim (h.1 i) (h.2 i)⟩

/-- As long as no separator overflows, a digit always has a parameter to go to. -/
structure ScnState.Counting (st : ScnState) : Prop extends st.Ready where
  pending : st.next = .readDigit → 0 < st.cmdParamsSize

theorem counting_scan {ch : Byte} {st : ScnState} (h : st.Counting)
    (hov : ¬SeparatorOverflow st ch) : (scan ch st).1.Counting := by
  refine ⟨ready_scan ch h.toReady, ?_⟩
  have hf := h.fits
  rw [scan]
  split
  · exact h.pending
  rw [scanText]
  cases hn : st.next with
  | normaltext => simp only; split <;> simp [hn]
  | waitsquarebracket =>
      simp only
      split
      · simp
      · split <;> simp
  | selectescape =>
      simp only
      split
      · intro; simp
      · split
        · intro; simp [CMD_PARAMS_LENGTH]
        · split
          · intro; simp
          · simp [ScnState.backToNormal]
  | readDigit =>
      have hp := h.pending hn
      have hl := ScnState.lastIndex_ne h.fits
      simp only
      split
      · intro; simpa [ScnState.pushDigit, ScnState.size_setParam hl] using hp
      · split
        · intro; simpa [ScnState.pushDigit, ScnState.size_setParam hl] using hp
        · split
          · rename_i hsep
            have hlt : st.cmdParamsSize < CMD_PARAMS_LENGTH :=
              Nat.lt_of_not_le fun hle => hov ⟨hn, hsep, hle⟩
            intro
            simp [ScnState.pushParam_of_lt hlt]
          · simp [ScnState.backToNormal]
  | altCharset => simp

theorem paramsInBounds_scan {ch : Byte} {st : ScnState} (h : st.Counting) :
    ParamsInBounds (scan ch st).2 ↔ ¬SeparatorOverflow st ch := by
  have hf := h.fits
  have hc : CMD_PARAMS_LENGTH = 644 := rfl
  rw [scan, SeparatorOverflow]
  by_cases hctl : isControl ch
  · have hsep : ch ≠ chr ';' := by rintro rfl; revert hctl; decide
    simp [hctl, hsep, ParamsInBounds]
  simp only [hctl, Bool.false_eq_true, if_false, scanText]
  cases hn : st.next with
  | normaltext => simp [ParamsInBounds]
  | waitsquarebracket =>
      simp only
      split
      · simp [ParamsInBounds, hc]
      · split <;> simp [ParamsInBounds]
  | selectescape =>
      simp only
      split
      · simp [ParamsInBounds, hc]
      · split
        · simp [ParamsInBounds, hc]
        · split <;> simp [ParamsInBounds, hc]
  | readDigit =>
      have hp := h.pending hn
      have hi := ScnState.lastIndex_of_pos hp hf
      simp only
      split
      · rename_i hdig
        have hsep : ch ≠ chr ';' := by rintro rfl; revert hdig; decide
        simp [ParamsInBounds, hsep, hi]
        omega
      · split
        · rename_i h0
          have hsep : ch ≠ chr ';' := by rw [h0]; decide
          simp [ParamsInBounds, hsep, hi]
          omega
        · split
          · rename_i hsep
            simp [ParamsInBounds, hsep]
          · rename_i hsep
            simp [ParamsInBounds, hsep]
  | altCharset => simp [ParamsInBounds]

theorem paramsInBounds_foldl (bytes : List Byte) {st : ScnState} (h : st.Counting) :
    ParamsInBounds (bytes.foldl scanAll (st, [])).2 ↔
      Along (fun st ch => (scan ch st).1) (fun st ch => ¬SeparatorOverflow st ch) st bytes := by
  induction bytes generalizing st with
  | nil => simp [ParamsInBounds]
  | cons ch bytes ih =>
      have hstep : scanAll (st, []) ch = ((scan ch st).1, (scan ch st).2) := by simp [scanAll]
      rw [List.foldl_cons, hstep, foldl_scanAll_log, paramsInBounds_append, along_cons,
        paramsInBounds_scan h]
      by_cases hov : SeparatorOverflow st ch
      · simp [hov]
      · rw [ih (counting_scan h hov)]

/-- The scanner after `gfx_set_env`. -/
theorem counting_start (b : Build) (pFramebuffer : ℤ) (width height pitch size : ℕ)
    (data : ℤ → Byte) :
    (Term.start b pFramebuffer width height pitch size data).scn.Counting :=
  ⟨⟨fun _ => rfl, Nat.zero_le _⟩, fun h => by cases h⟩

/-- **The parameter array is respected until a separator overflows.**  From the
start, all accesses of the scanner to `cmd_params` have an index below
`CMD_PARAMS_LENGTH` exactly if no separator of the stream finds the array full. -/
theorem paramsInBounds_iff (b : Build) (pFramebuffer : ℤ) (width height pitch size : ℕ)
    (data : ℤ → Byte) (strs : List (List Byte)) :
    let t := Term.start b pFramebuffer width height pitch size data
    ParamsInBounds (strs.foldl (fun t str => gfxTermPutstring b str t) t).log ↔
      Along (fun t ch => putByte b ch t) (fun t ch => ¬SeparatorOverflow t.scn ch) t (streamOf strs) := by
  intro t
  have hcount : t.scn.Counting := counting_start b pFramebuffer width height pitch size data
  have hlog : t.log = [] := rfl
  have htrack := track_runBytes b t (streamOf strs)
  have hlog' : (strs.foldl (fun t str => gfxTermPutstring b str t) t).log =
      ((streamOf strs).foldl scanAll (t.scn, [])).2 := by
    rw [putstrings_eq]
    exact congrArg Prod.snd htrack
  rw [hlog', paramsInBounds_foldl _ hcount]
  exact (along_scn b (fun st ch => ¬SeparatorOverflow st ch) t (streamOf strs)).symm

/-- Separators below the limit are counted. -/
theorem foldl_separators (n : ℕ) {st : ScnState} (hn : st.next = .readDigit)
    (hl : st.cmdParamsSize + n ≤ CMD_PARAMS_LENGTH) :
    let st' := (List.replicate n (chr ';')).foldl (fun st ch => (scan ch st).1) st
    st'.next = .readDigit ∧ st'.cmdParamsSize = st.cmdParamsSize + n := by
  induction n generalizing st with
  | zero => exact ⟨hn, rfl⟩
  | succ n ih =>
      have hc : isControl (chr ';') = false := by decide
      have hd : isDigit (chr ';') = false := by decide
      have h0 : chr ';' ≠ 0 := by decide
      have hstep : (scan (chr ';') st).1 = st.pushParam := by
        simp only [scan, hc, scanText, hn, hd, h0, if_true, Bool.false_eq_true, if_false]
      have hlt : st.cmdParamsSize < CMD_PARAMS_LENGTH := by omega
      have hp := ScnState.pushParam_of_lt hlt
      have hnext : (scan (chr ';') st).1.next = .readDigit := by rw [hstep, hp]
      have hsize : (scan (chr ';') st).1.cmdParamsSize = st.cmdParamsSize + 1 := by rw [hstep, hp]
      have hrest := ih hnext (by omega)
      rw [hsize] at hrest
      exact ⟨hrest.1, by rw [List.replicate_succ, List.foldl_cons, hrest.2]; omega⟩

/-- One separator too many behind `ESC [ 0`. -/
theorem not_along_separators {st : ScnState} (hn : st.next = .normaltext) {n : ℕ}
    (hl : n + 1 = CMD_PARAMS_LENGTH) :
    ¬Along (fun st ch => (scan ch st).1) (fun st ch => ¬SeparatorOverflow st ch) st
      (text "\x1b[0" ++ (List.replicate n (chr ';') ++ [chr ';'])) := by
  intro h
  rw [along_append, along_append] at h
  have hopen : ((text "\x1b[0").foldl (fun st ch => (scan ch st).1) st).next = .readDigit ∧
      ((text "\x1b[0").foldl (fun st ch => (scan ch st).1) st).cmdParamsSize = 1 := by
    cases st with
    | mk next after params size mode => cases hn; exact ⟨rfl, rfl⟩
  have hsep := foldl_separators n hopen.1 (by rw [hopen.2]; omega)
  exact h.2.2.1 ⟨hsep.1, rfl, by rw [hsep.2, hopen.2]; omega⟩

/-- `ESC [ 0` with `CMD_PARAMS_LENGTH` separators behind it reaches past the array. -/
theorem paramsInBounds_fails :
    ¬∀ (b : Build) (pFramebuffer : ℤ) (width height pitch size : ℕ) (data : ℤ → Byte)
      (strs : List (List Byte)),
      ParamsInBounds (strs.foldl (fun t str => gfxTermPutstring b str t)
        (Term.start b pFramebuffer width height pitch size data)).log := by
  intro h
  obtain ⟨n, hn⟩ : ∃ n, n + 1 = CMD_PARAMS_LENGTH := ⟨643, rfl⟩
  let stream := text "\x1b[0" ++ (List.replicate n (chr ';') ++ [chr ';'])
  have hstream : streamOf [stream] = stream := by
    refine streamOf_singleton fun x hx => ?_
    rcases List.mem_append.mp hx with hx | hx
    · exact (by decide : ∀ y ∈ text "\x1b[0", y ≠ 0) x hx
    · rcases List.mem_append.mp hx with hx | hx
      · rw [(List.mem_replicate.mp hx).2]; decide
      · rw [List.mem_singleton.mp hx]; decide
  have hbad := h .shipped 0 640 480 640 307200 (fun _ => 0) [stream]
  rw [putstrings_eq, hstream] at hbad
  have hcount := counting_start .shipped 0 640 480 640 307200 (fun _ => 0)
  have htrack := congrArg Prod.snd (track_runBytes .shipped
    (Term.start .shipped 0 640 480 640 307200 (fun _ => 0)) stream)
  change (runBytes _ _ _).log = _ at htrack
  rw [htrack] at hbad
  exact not_along_separators rfl hn ((paramsInBounds_foldl _ hcount).mp hbad)

end Pigfx
