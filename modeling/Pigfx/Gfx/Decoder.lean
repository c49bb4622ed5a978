import Pigfx.Gfx.Terminal
import Mathlib.Data.List.TakeWhile

/-!
# The scanner as an automaton

What a byte does to the scanner depends on the byte and on the scanner alone; the
rest of the terminal is never consulted.  `scan` is that automaton, with the
accesses and calls a byte gives rise to, and `putByte_scan` connects it to the
state functions.

Two facts hold in every state a run can reach.  Outside the digit state no
parameter is pending, and no byte leaves more than `CMD_PARAMS_LENGTH` parameters
behind, because the increment that would do so overwrites the counter itself.

## Main definitions

* `scan` — the automaton; `scanAll` runs it over a stream.
* `ScnState.Ready` — the invariant of its states.
* `streamOf` — the bytes a list of strings feeds to the terminal.
-/

namespace Pigfx
open Lib

/-! ## The automaton -/

/-- `back_to_normal` -/
def ScnState.backToNormal (st : ScnState) : ScnState :=
  { st with cmdParamsSize := 0, next := .normaltext }

/-- The state after one more digit in the last parameter. -/
def ScnState.pushDigit (v : Word) (st : ScnState) : ScnState :=
  { st.setParam st.lastIndex (st.param st.lastIndex * 10 + v) with next := .readDigit }

/-- The state after a separator. -/
def ScnState.pushParam (st : ScnState) : ScnState :=
  let scn := { st with cmdParamsSize := st.cmdParamsSize + 1 }
  { scn.setParam scn.lastIndex 0 with next := .readDigit }

/-- What a byte that is not a control byte does to the scanner. -/
def scanText (ch : Byte) (st : ScnState) : ScnState × List ScnEvent :=
  match st.next with
  | .normaltext =>
      (if ch = TERM_ESCAPE_CHAR then { st with next := .waitsquarebracket } else st, [])
  | .waitsquarebracket =>
      if ch = chr '[' then
        ({ st.setParam 0 1 with privateModeChar := 0, next := .selectescape }, [.param 0])
      else if ch = chr '(' then ({ st with next := .altCharset }, [])
      else ({ st with next := .normaltext }, [])
  | .selectescape =>
      if isDigit ch then
        ({ { st with cmdParamsSize := 1 }.setParam 0 (digitValue ch) with next := .readDigit },
          [.param 0])
      else if ch = chr ';' then
        ({ ({ st with cmdParamsSize := 2 }.setParam 0 0).setParam 1 0 with next := .readDigit },
          [.param 0, .param 1])
      else if ch = chr '?' ∨ ch = chr '#' then
        ({ { st with privateModeChar := ch, cmdParamsSize := 1 }.setParam 0 0 with
            next := .readDigit }, [.param 0])
      else (st.backToNormal, [.finalLetter ch st])
  | .readDigit =>
      if isDigit ch then (st.pushDigit (digitValue ch), [.param st.lastIndex, .param st.lastIndex])
      else if ch = 0 then (st.pushDigit 0, [.param st.lastIndex, .param st.lastIndex])
      else if ch = chr ';' then (st.pushParam, [.param st.cmdParamsSize])
      else (st.backToNormal, [.finalLetter ch st])
  | .altCharset => ({ st with next := .normaltext }, [])

/-- What a byte does to the scanner: control bytes pass it by. -/
def scan (ch : Byte) (st : ScnState) : ScnState × List ScnEvent :=
  if isControl ch then (st, []) else scanText ch st

/-- A terminal without its picture. -/
abbrev Track := ScnState × List ScnEvent

/-- The automaton over a stream, with the events in order. -/
def scanAll (s : Track) (ch : Byte) : Track := ((scan ch s.1).1, s.2 ++ (scan ch s.1).2)

/-- What the automaton sees of a terminal. -/
def Term.track (t : Term) : Track := (t.scn, t.log)

theorem dispatch_scan (b : Build) (ch : Byte) (t : Term) :
    (dispatch b ch t).track = ((scanText ch t.scn).1, t.log ++ (scanText ch t.scn).2) := by
  rw [dispatch, scanText, Term.track]
  cases hn : t.scn.next with
  | normaltext =>
      simp only [stateFunNormaltext]
      split <;> simp
  | waitsquarebracket =>
      simp only [stateFunWaitsquarebracket, Term.note]
      split
      · rfl
      · split <;> simp
  | selectescape =>
      simp only [stateFunSelectescape, stateFunFinalLetter, Term.note, ScnState.backToNormal]
      split
      · rfl
      · split
        · rfl
        · split <;> rfl
  | readDigit =>
      simp only [stateFunReadDigit, stateFunFinalLetter, Term.note, ScnState.backToNormal,
        ScnState.pushDigit, ScnState.pushParam]
      split
      · rfl
      · split
        · simp
        · split <;> rfl
  | altCharset => simp [stateFunAltCharset]

/-- **The scanner ignores the picture.** -/
theorem putByte_scan (b : Build) (ch : Byte) (t : Term) :
    (putByte b ch t).track = scanAll t.track ch := by
  have h : (putByte b ch t).track = (byteAction b ch { t with g := t.g.draw dmaWait }).track := rfl
  rw [h, byteAction, scanAll, scan]
  split
  · simp [Term.track]
  · exact dispatch_scan b ch _

/-! ## Streams -/

/-- The bytes of a C string. -/
def cString (str : List Byte) : List Byte := str.takeWhile (· ≠ 0)

/-- The bytes that a sequence of calls of `gfx_term_putstring` feeds to the
terminal. -/
def streamOf (strs : List (List Byte)) : List Byte := strs.flatMap cString

theorem streamOf_singleton {str : List Byte} (h : ∀ ch ∈ str, ch ≠ 0) : streamOf [str] = str := by
  rw [streamOf, List.flatMap_singleton, cString, List.takeWhile_eq_self_iff]
  simpa using h

/-- The run of the terminal over a stream. -/
def runBytes (b : Build) (t : Term) (bytes : List Byte) : Term :=
  bytes.foldl (fun t ch => putByte b ch t) t

theorem gfxTermPutstring_eq (b : Build) (str : List Byte) (t : Term) :
    gfxTermPutstring b str t = runBytes b t (cString str) := rfl

theorem runBytes_append (b : Build) (t : Term) (xs ys : List Byte) :
    runBytes b t (xs ++ ys) = runBytes b (runBytes b t xs) ys := List.foldl_append

/-- Only the stream matters, not how it is cut into strings. -/
theorem putstrings_eq (b : Build) (strs : List (List Byte)) (t : Term) :
    strs.foldl (fun t str => gfxTermPutstring b str t) t = runBytes b t (streamOf strs) := by
  induction strs generalizing t with
  | nil => rfl
  | cons str strs ih =>
      have hs : streamOf (str :: strs) = cString str ++ streamOf strs := List.flatMap_cons
      rw [List.foldl_cons, ih, gfxTermPutstring_eq, hs, runBytes_append]

theorem track_runBytes (b : Build) (t : Term) (bytes : List Byte) :
    (runBytes b t bytes).track = bytes.foldl scanAll t.track := by
  induction bytes generalizing t with
  | nil => rfl
  | cons ch bytes ih => rw [List.foldl_cons, ← putByte_scan b ch t, ← ih]; rfl

theorem putByte_scn (b : Build) (ch : Byte) (t : Term) :
    (putByte b ch t).scn = (scan ch t.scn).1 := congrArg Prod.fst (putByte_scan b ch t)

/-- A condition on the scanner may be checked on the automaton. -/
theorem along_scn (b : Build) (P : ScnState → Byte → Prop) (t : Term) (bytes : List Byte) :
    Along (fun t ch => putByte b ch t) (fun t ch => P t.scn ch) t bytes ↔
      Along (fun st ch => (scan ch st).1) P t.scn bytes :=
  along_map Term.scn (fun t ch => putByte_scn b ch t) t bytes

/-- The events of a run are appended to those before it. -/
theorem foldl_scanAll_log (bytes : List Byte) (st : ScnState) (es : List ScnEvent) :
    bytes.foldl scanAll (st, es) =
      ((bytes.foldl scanAll (st, [])).1, es ++ (bytes.foldl scanAll (st, [])).2) := by
  induction bytes generalizing st es with
  | nil => simp
  | cons ch bytes ih =>
      simp only [List.foldl_cons, scanAll]
      rw [ih, ih (scan ch st).1 ([] ++ _)]
      simp

theorem scn_runBytes (b : Build) (t : Term) (bytes : List Byte) :
    (runBytes b t bytes).scn = (bytes.foldl scanAll (t.scn, [])).1 := by
  have htrack := track_runBytes b t bytes
  rw [Term.track, Term.track, foldl_scanAll_log] at htrack
  exact congrArg Prod.fst htrack

/-- Control bytes may be left out of a stream. -/
theorem foldl_scanAll_filter (bytes : List Byte) (s : Track) :
    (bytes.filter fun ch => !isControl ch).foldl scanAll s = bytes.foldl scanAll s := by
  induction bytes generalizing s with
  | nil => rfl
  | cons ch bytes ih =>
      by_cases h : isControl ch
      · have hs : scanAll s ch = s := by simp [scanAll, scan, h]
        rw [List.filter_cons_of_neg (by simp [h]), ih, List.foldl_cons, hs]
      · rw [List.filter_cons_of_pos (by simp [h]), List.foldl_cons, List.foldl_cons, ih]

/-! ## What every state satisfies -/

/-- Parameters are pending in the digit state only, and there are no more of them
than the array holds. -/
structure ScnState.Ready (st : ScnState) : Prop where
  idle : st.next ≠ .readDigit → st.cmdParamsSize = 0
  fits : st.cmdParamsSize ≤ CMD_PARAMS_LENGTH

@[simp] theorem ScnState.size_setParam {i : ℕ} (hi : i ≠ CMD_PARAMS_LENGTH) (v : Word)
    (st : ScnState) : (st.setParam i v).cmdParamsSize = st.cmdParamsSize := by
  rw [setParam]
  split
  · contradiction
  · split <;> rfl

theorem ScnState.lastIndex_of_pos {st : ScnState} (h : 0 < st.cmdParamsSize)
    (hl : st.cmdParamsSize ≤ CMD_PARAMS_LENGTH) : st.lastIndex = st.cmdParamsSize - 1 := by
  have hc : CMD_PARAMS_LENGTH = 644 := rfl
  rw [lastIndex]
  rw [u32_of_nonneg (by omega) (by omega)]
  omega

theorem ScnState.lastIndex_ne {st : ScnState} (h : st.cmdParamsSize ≤ CMD_PARAMS_LENGTH) :
    st.lastIndex ≠ CMD_PARAMS_LENGTH := by
  have hc : CMD_PARAMS_LENGTH = 644 := rfl
  unfold lastIndex u32
  omega

theorem ScnState.ready_backToNormal (st : ScnState) : st.backToNormal.Ready :=
  ⟨fun _ => rfl, Nat.zero_le _⟩

theorem ScnState.ready_pushDigit {v : Word} {st : ScnState} (h : st.Ready) :
    (st.pushDigit v).Ready :=
  ⟨fun hn => absurd rfl hn, by
    simpa [pushDigit, size_setParam (lastIndex_ne h.fits)] using h.fits⟩

theorem ScnState.param_of_lt {st : ScnState} {i : ℕ} (hi : i < CMD_PARAMS_LENGTH) :
    st.param i = st.cmdParams i := by
  have hc : CMD_PARAMS_LENGTH = 644 := rfl
  rw [param, if_neg (by omega), if_neg (by omega)]

theorem ScnState.setParam_of_lt {st : ScnState} {i : ℕ} (hi : i < CMD_PARAMS_LENGTH) (v : Word) :
    st.setParam i v = { st with cmdParams := fun j => if j = i then v else st.cmdParams j } := by
  have hc : CMD_PARAMS_LENGTH = 644 := rfl
  rw [setParam, if_neg (by omega), if_neg (by omega)]

theorem ScnState.pushParam_of_lt {st : ScnState} (h : st.cmdParamsSize < CMD_PARAMS_LENGTH) :
    st.pushParam =
      { st with
        cmdParamsSize := st.cmdParamsSize + 1
        cmdParams := fun j => if j = st.cmdParamsSize then 0 else st.cmdParams j
        next := .readDigit } := by
  have hi : lastIndex { st with cmdParamsSize := st.cmdParamsSize + 1 } = st.cmdParamsSize := by
    have hc : CMD_PARAMS_LENGTH = 644 := rfl
    unfold lastIndex u32; push_cast; omega
  simp only [pushParam, hi, setParam_of_lt h]

/-- The separator that does not fit sets the counter to zero. -/
theorem ScnState.size_pushParam {st : ScnState} (h : st.Ready) :
    st.pushParam.cmdParamsSize =
      if st.cmdParamsSize = CMD_PARAMS_LENGTH then 0 else st.cmdParamsSize + 1 := by
  have hf := h.fits
  by_cases heq : st.cmdParamsSize = CMD_PARAMS_LENGTH
  · have hi : ScnState.lastIndex { st with cmdParamsSize := st.cmdParamsSize + 1 } =
        CMD_PARAMS_LENGTH := by
      unfold lastIndex; rw [heq]; rfl
    simp only [pushParam, hi, if_pos heq]
    rfl
  · rw [if_neg heq, pushParam_of_lt (by omega)]

theorem ScnState.ready_pushParam {st : ScnState} (h : st.Ready) : st.pushParam.Ready := by
  refine ⟨fun hn => absurd rfl hn, ?_⟩
  have hf := h.fits
  rw [size_pushParam h]
  split <;> omega

theorem ready_scanText (ch : Byte) {st : ScnState} (h : st.Ready) : (scanText ch st).1.Ready := by
  rw [scanText]
  cases hn : st.next with
  | normaltext =>
      have hs := h.idle (by simp [hn])
      simp only
      split
      · exact ⟨fun _ => hs, h.fits⟩
      · exact h
  | waitsquarebracket =>
      have hs := h.idle (by simp [hn])
      simp only
      split
      · exact ⟨fun _ => by simpa using hs, by simpa using h.fits⟩
      · split
        · exact ⟨fun _ => hs, h.fits⟩
        · exact ⟨fun _ => hs, h.fits⟩
  | selectescape =>
      simp only
      split
      · exact ⟨fun hd => absurd rfl hd, by simp⟩
      · split
        · exact ⟨fun hd => absurd rfl hd, by simp [CMD_PARAMS_LENGTH]⟩
        · split
          · exact ⟨fun hd => absurd rfl hd, by simp⟩
          · exact st.ready_backToNormal
  | readDigit =>
      simp only
      split
      · exact ScnState.ready_pushDigit h
      · split
        · exact ScnState.ready_pushDigit h
        · split
          · exact ScnState.ready_pushParam h
          · exact st.ready_backToNormal
  | altCharset => exact ⟨fun _ => h.idle (by simp [hn]), h.fits⟩

theorem ready_scan (ch : Byte) {st : ScnState} (h : st.Ready) : (scan ch st).1.Ready := by
  rw [scan]
  split
  · exact h
  · exact ready_scanText ch h

/-- **Every reachable scanner state is ready.** -/
theorem ready_putByte (b : Build) (ch : Byte) {t : Term} (h : t.scn.Ready) :
    (putByte b ch t).scn.Ready := by
  rw [putByte_scn]
  exact ready_scan ch h

theorem ready_runBytes (b : Build) {t : Term} (h : t.scn.Ready) (bytes : List Byte) :
    (runBytes b t bytes).scn.Ready :=
  foldl_invariant (I := fun t : Term => t.scn.Ready) (fun _ ch h => ready_putByte b ch h) t bytes h

end Pigfx
