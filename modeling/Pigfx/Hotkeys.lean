import Pigfx.Console
import Pigfx.Decimal
import Mathlib.Data.List.Basic

/-!
# Local keys between the bytes of the host

The messages of the local keys go through the scanner the host's bytes go
through.  A key leaves the scanner alone if it prints nothing, or if the scanner is
in normal text; in the middle of a sequence every message ends the sequence.

## Main definitions

* `ScnState.feed` — the automaton over a message.
* `ScnState.SameParse` — what the host's next bytes depend on.
* `Hotkey.Harmless` — when a key leaves that unchanged.
* `hostCalls` — the sequences decoded from the host's bytes.
-/

namespace Pigfx
open Lib

/-! ## What the messages consist of -/

/-- What the messages say around their numbers and behind their escape characters. -/
theorem plain_text : ∀ s ∈ ["[", " lines]\r\n", "lines]\r\n", "[Terminal at ", " baud]\r\n", "[2K", "[2J"],
    ∀ x ∈ text s, x ≠ 0 ∧ x ≠ TERM_ESCAPE_CHAR := by
  simp only [← List.forall_iff_forall_mem]
  decide

/-- Nothing ends the messages that start with an escape character. -/
theorem escape_text : ∀ s ∈ ["\r\x1b[2K[Terminal at ", "\x1b[2J\x1b[32m"], ∀ x ∈ text s, x ≠ 0 := by
  simp only [← List.forall_iff_forall_mem]
  decide

/-- Two texts without an escape character, one behind the other. -/
theorem plain_append {s s' : List Byte} (hs : ∀ x ∈ s, x ≠ TERM_ESCAPE_CHAR)
    (hs' : ∀ x ∈ s', x ≠ TERM_ESCAPE_CHAR) : ∀ x ∈ s ++ s', x ≠ TERM_ESCAPE_CHAR := by
  intro x hx
  rcases List.mem_append.mp hx with hx | hx
  · exact hs x hx
  · exact hs' x hx

/-! ## Feeding a message -/

namespace ScnState

/-- The scanner after a message. -/
def feed (st : ScnState) (bytes : List Byte) : ScnState := bytes.foldl (fun st ch => (scan ch st).1) st

@[simp] theorem feed_cons (st : ScnState) (ch : Byte) (bytes : List Byte) :
    st.feed (ch :: bytes) = (scan ch st).1.feed bytes := rfl

theorem feed_append (st : ScnState) (xs ys : List Byte) :
    st.feed (xs ++ ys) = (st.feed xs).feed ys := List.foldl_append

theorem feed_append₃ (st : ScnState) (xs ys zs : List Byte) :
    st.feed (xs ++ (ys ++ zs)) = ((st.feed xs).feed ys).feed zs := by
  rw [feed_append, feed_append]

/-- Normal text without an escape character leaves the scanner alone. -/
theorem feed_plain {st : ScnState} (hn : st.next = .normaltext) {bytes : List Byte}
    (hb : ∀ x ∈ bytes, x ≠ TERM_ESCAPE_CHAR) : st.feed bytes = st := by
  induction bytes with
  | nil => rfl
  | cons ch bytes ih =>
      have hch : (scan ch st).1 = st := by
        have hne := hb ch List.mem_cons_self
        simp only [scan, scanText, hn, if_neg hne, ite_self]
      rw [feed_cons, hch]
      exact ih fun x hx => hb x (List.mem_cons_of_mem _ hx)

/-- A final byte ends an open sequence. -/
theorem scan_ends {st : ScnState} (hn : st.next = .selectescape ∨ st.next = .readDigit) {L : Byte}
    (hL : isFinal L) (hP : L ≠ chr '?' ∧ L ≠ chr '#') : (scan L st).1.next = .normaltext := by
  rcases hn with hn | hn
  · rw [scan_final_selectescape hn hL hP]; rfl
  · rw [scan_final hn hL]; rfl

/-- In the middle of a sequence an escape character ends it. -/
theorem scan_escape {st : ScnState} (hn : st.next ≠ .normaltext) :
    (scan TERM_ESCAPE_CHAR st).1.next = .normaltext := by
  have hfinal : isFinal TERM_ESCAPE_CHAR := by decide
  have hc : isControl TERM_ESCAPE_CHAR = false := by decide
  cases hst : st.next with
  | normaltext => exact absurd hst hn
  | waitsquarebracket =>
      simp only [scan, hc, scanText, hst, Bool.false_eq_true, if_false]
      rw [if_neg (by decide), if_neg (by decide)]
  | selectescape => exact scan_ends (Or.inl hst) hfinal (by decide)
  | readDigit => exact scan_ends (Or.inr hst) hfinal (by decide)
  | altCharset => simp only [scan, hc, scanText, hst, Bool.false_eq_true, if_false]

/-- Digits keep a sequence open. -/
theorem feed_digits {st : ScnState} (hn : st.next = .selectescape ∨ st.next = .readDigit)
    {bytes : List Byte} (hb : ∀ x ∈ bytes, isDigit x) :
    (st.feed bytes).next = .selectescape ∨ (st.feed bytes).next = .readDigit := by
  induction bytes generalizing st with
  | nil => exact hn
  | cons ch bytes ih =>
      have hd := hb ch List.mem_cons_self
      rw [feed_cons]
      refine ih (Or.inr ?_) fun x hx => hb x (List.mem_cons_of_mem _ hx)
      rcases hn with hn | hn
      · simp only [scan, not_isControl_digit hd, scanText, hn, hd, Bool.false_eq_true, if_true, if_false]
      · simp only [scan, not_isControl_digit hd, scanText, hn, hd, Bool.false_eq_true, if_true, if_false]
        rfl

/-! ## The messages -/

/-- What the following bytes of the host are read with. -/
structure SameParse (st st' : ScnState) : Prop where
  next : st'.next = st.next
  mode : st'.privateModeChar = st.privateModeChar
  size : st'.cmdParamsSize = st.cmdParamsSize
  params : ∀ i < st.cmdParamsSize, st'.cmdParams i = st.cmdParams i

theorem Agree.sameParse {st st' : ScnState} (h : st.Agree st') : st.SameParse st' :=
  ⟨h.next.symm, h.mode.symm, h.size.symm, fun i hi => (h.params i hi).symm⟩

/-- The sequences of the messages, from normal text. -/
theorem feed_sequence {st : ScnState} (hr : st.Ready) (hn : st.next = .normaltext) {seq : List Byte}
    (hseq : seq = text "\x1b[2K" ∨ seq = text "\x1b[2J\x1b[32m") :
    ({ st with privateModeChar := 0 } : ScnState).Agree (st.feed seq) := by
  have hs := hr.idle (by simp [hn])
  cases st with
  | mk next after params size mode =>
      cases hn; cases hs
      rcases hseq with rfl | rfl <;>
        exact ⟨rfl, rfl, rfl, rfl, fun i hi => absurd hi (Nat.not_lt_zero i)⟩

/-- The same in the middle of a sequence: its escape character ends that sequence, and
the rest is text. -/
theorem feed_broken {st : ScnState} (hn : st.next ≠ .normaltext) {l : List Byte}
    (hl : ∀ x ∈ l, x ≠ TERM_ESCAPE_CHAR) :
    (st.feed (TERM_ESCAPE_CHAR :: l)).next = .normaltext := by
  rw [feed_cons, feed_plain (scan_escape hn) hl]
  exact scan_escape hn

/-- The message of `gfx_toggle_lines`. -/
theorem feed_lines (st : ScnState) {digits : List Byte} (hd : ∀ x ∈ digits, isDigit x) :
    (st.next = .normaltext → st.feed (text "[" ++ (digits ++ text " lines]\r\n")) = st) ∧
    (st.next ≠ .normaltext →
      (st.feed (text "[" ++ (digits ++ text " lines]\r\n"))).next = .normaltext) := by
  have hplain : ∀ x ∈ digits ++ text " lines]\r\n", x ≠ TERM_ESCAPE_CHAR :=
    plain_append (fun x hx => (isDigit_ne (hd x hx)).2)
      fun x hx => (plain_text " lines]\r\n" (by simp) x hx).2
  have hall : ∀ x ∈ text "[" ++ (digits ++ text " lines]\r\n"), x ≠ TERM_ESCAPE_CHAR :=
    plain_append (fun x hx => (plain_text "[" (by simp) x hx).2) hplain
  refine ⟨fun hn => feed_plain hn hall, fun hn => ?_⟩
  have hbracket : isFinal (chr '[') := by decide
  have hc : isControl (chr '[') = false := by decide
  change ((scan (chr '[') st).1.feed (digits ++ text " lines]\r\n")).next = .normaltext
  -- where the bracket ends a sequence the rest is plain
  have hend : (scan (chr '[') st).1.next = .normaltext →
      ((scan (chr '[') st).1.feed (digits ++ text " lines]\r\n")).next = .normaltext :=
    fun h => by rw [feed_plain h hplain]; exact h
  cases hst : st.next with
  | normaltext => exact absurd hst hn
  | waitsquarebracket =>
      -- the bracket opens a sequence, which the blank ends
      have hopen : (scan (chr '[') st).1.next = .selectescape := by
        simp only [scan, hc, scanText, hst, if_true, Bool.false_eq_true, if_false]
      have hdig := feed_digits (Or.inl hopen) hd
      have hspace := scan_ends hdig (L := chr ' ') (by decide) (by decide)
      have htail : text " lines]\r\n" = chr ' ' :: text "lines]\r\n" := rfl
      rw [feed_append, htail, feed_cons,
        feed_plain hspace fun x hx => (plain_text "lines]\r\n" (by simp) x hx).2]
      exact hspace
  | selectescape => exact hend (scan_ends (Or.inl hst) hbracket (by decide))
  | readDigit => exact hend (scan_ends (Or.inr hst) hbracket (by decide))
  | altCharset =>
      exact hend (by simp only [scan, hc, scanText, hst, Bool.false_eq_true, if_false])

end ScnState

/-! ## One key -/

/-- When a key leaves the scanner as the host's next byte needs it. -/
def Hotkey.Harmless (st : ScnState) : Hotkey → Prop
  | .f12 => True
  | .f10 => st.next = .normaltext
  | .f11 | .printScreen => st.next = .normaltext ∧ st.privateModeChar = 0

instance (st : ScnState) (k : Hotkey) : Decidable (k.Harmless st) := by
  cases k <;> unfold Hotkey.Harmless <;> infer_instance

theorem scn_gfxTermPutstring (b : Build) (str : List Byte) (t : Term) (hz : ∀ x ∈ str, x ≠ 0) :
    (gfxTermPutstring b str t).scn = t.scn.feed str := by
  have hstr : cString str = str := by
    rw [cString, List.takeWhile_eq_self_iff]; simpa using hz
  rw [gfxTermPutstring_eq, hstr]
  clear hz hstr
  induction str generalizing t with
  | nil => rfl
  | cons ch str ih => exact (ih _).trans (by rw [putByte_scn]; rfl)

theorem u2s_ne_zero (u : Word) : ∀ x ∈ u2s u, x ≠ 0 := fun x hx => (isDigit_ne (u2s_isDigit u x hx)).1

theorem scn_gfxToggleLines (b : Build) (t : Term) :
    ∃ u : Word, (gfxToggleLines b t).scn = t.scn.feed (text "[" ++ (u2s u ++ text " lines]\r\n")) := by
  rw [gfxToggleLines]
  rw [scn_gfxTermPutstring _ _ _ fun x hx => (plain_text " lines]\r\n" (by simp) x hx).1,
    scn_gfxTermPutstring _ _ _ (u2s_ne_zero _),
    scn_gfxTermPutstring _ _ _ fun x hx => (plain_text "[" (by simp) x hx).1]
  exact ⟨_, (ScnState.feed_append₃ _ _ _ _).symm⟩

/-- The carriage return in front of the message passes the scanner by. -/
theorem scn_rotateBaudrate (b : Build) (con : Console) :
    ∃ u : Word, (rotateBaudrate b con).term.scn =
      con.term.scn.feed (text "\x1b[2K" ++ (text "[Terminal at " ++ (u2s u ++ text " baud]\r\n"))) := by
  have hcr : ∀ bytes, con.term.scn.feed (text "\r\x1b[2K[Terminal at " ++ bytes) =
      con.term.scn.feed (text "\x1b[2K" ++ (text "[Terminal at " ++ bytes)) := fun _ => rfl
  unfold rotateBaudrate Console.putstring
  dsimp only
  rw [scn_gfxTermPutstring _ _ _ fun x hx => (plain_text " baud]\r\n" (by simp) x hx).1,
    scn_gfxTermPutstring _ _ _ (u2s_ne_zero _), scn_gfxTermPutstring _ _ _ (escape_text _ (by simp))]
  exact ⟨_, ((hcr _).symm.trans (ScnState.feed_append₃ _ _ _ _)).symm⟩

/-- The rest of the message of `rotate_baudrate` is plain. -/
theorem baud_plain (u : Word) :
    ∀ x ∈ text "[Terminal at " ++ (u2s u ++ text " baud]\r\n"), x ≠ TERM_ESCAPE_CHAR := by
  refine plain_append (fun x hx => (plain_text "[Terminal at " (by simp) x hx).2) ?_
  refine plain_append (fun x hx => (isDigit_ne (u2s_isDigit u x hx)).2) ?_
  exact fun x hx => (plain_text " baud]\r\n" (by simp) x hx).2

/-- What a key does to the scanner where it is harmless. -/
theorem agree_act (b : Build) (con : Console) (hr : con.term.scn.Ready) (k : Hotkey)
    (h : k.Harmless con.term.scn) : con.term.scn.Agree (k.act b con).term.scn := by
  have hrefl : ∀ st : ScnState, st.Agree st := fun st => ⟨rfl, rfl, rfl, rfl, fun _ _ => rfl⟩
  cases k with
  | f12 => exact hrefl _
  | f10 =>
      obtain ⟨u, hu⟩ := scn_gfxToggleLines b con.term
      change con.term.scn.Agree (gfxToggleLines b con.term).scn
      rw [hu, (ScnState.feed_lines _ (u2s_isDigit u)).1 h]
      exact hrefl _
  | f11 =>
      obtain ⟨u, hu⟩ := scn_rotateBaudrate b con
      have hseq := ScnState.feed_sequence hr h.1 (Or.inl rfl)
      rw [← h.2] at hseq
      change con.term.scn.Agree (rotateBaudrate b con).term.scn
      rw [hu, ScnState.feed_append, ScnState.feed_plain (hseq.next.symm.trans h.1) (baud_plain u)]
      exact hseq
  | printScreen =>
      have hseq := ScnState.feed_sequence hr h.1 (Or.inr rfl)
      rw [← h.2] at hseq
      have hscn := scn_gfxTermPutstring b (text "\x1b[2J\x1b[32m") con.term (escape_text _ (by simp))
      rw [← hscn] at hseq
      exact hseq

/-- Where a key is not harmless the scanner ends in normal text, and in normal text
without a mode. -/
theorem act_of_not_harmless (b : Build) (con : Console) (hr : con.term.scn.Ready) (k : Hotkey)
    (h : ¬k.Harmless con.term.scn) :
    (k.act b con).term.scn.next = .normaltext ∧
      (con.term.scn.next = .normaltext → (k.act b con).term.scn.privateModeChar = 0) := by
  cases k with
  | f12 => exact absurd trivial h
  | f10 =>
      obtain ⟨u, hu⟩ := scn_gfxToggleLines b con.term
      change (gfxToggleLines b con.term).scn.next = _ ∧ _
      rw [hu]
      exact ⟨(ScnState.feed_lines _ (u2s_isDigit u)).2 h, fun hn => absurd hn h⟩
  | f11 =>
      obtain ⟨u, hu⟩ := scn_rotateBaudrate b con
      change (rotateBaudrate b con).term.scn.next = _ ∧
        (_ → (rotateBaudrate b con).term.scn.privateModeChar = 0)
      rw [hu]
      by_cases hn : con.term.scn.next = .normaltext
      · have hseq := ScnState.feed_sequence hr hn (Or.inl rfl)
        rw [ScnState.feed_append, ScnState.feed_plain (hseq.next.symm.trans hn) (baud_plain u)]
        exact ⟨hseq.next.symm.trans hn, fun _ => hseq.mode.symm⟩
      · refine ⟨ScnState.feed_broken hn (l := text "[2K" ++ _) ?_, fun h => absurd h hn⟩
        exact plain_append (fun x hx => (plain_text "[2K" (by simp) x hx).2) (baud_plain u)
  | printScreen =>
      have hscn := scn_gfxTermPutstring b (text "\x1b[2J\x1b[32m") con.term (escape_text _ (by simp))
      change (gfxTermPutstring _ _ _).scn.next = _ ∧ (_ → (gfxTermPutstring _ _ _).scn.privateModeChar = 0)
      rw [hscn]
      by_cases hn : con.term.scn.next = .normaltext
      · have hseq := ScnState.feed_sequence hr hn (Or.inr rfl)
        exact ⟨hseq.next.symm.trans hn, fun _ => hseq.mode.symm⟩
      · -- the first sequence is broken, the second one is read from normal text
        have hbroken := ScnState.feed_broken hn (l := text "[2J")
          fun x hx => (plain_text "[2J" (by simp) x hx).2
        have hgreen : ∀ st : ScnState, st.next = .normaltext →
            (st.feed (text "\x1b[32m")).next = .normaltext := by
          intro st hst
          cases st with
          | mk next after params size mode => cases hst; rfl
        exact ⟨hgreen _ hbroken, fun h => absurd h hn⟩

/-- A key leaves the scanner unchanged exactly where it is harmless. -/
theorem sameParse_act_iff (b : Build) (con : Console) (hr : con.term.scn.Ready) (k : Hotkey) :
    con.term.scn.SameParse (k.act b con).term.scn ↔ k.Harmless con.term.scn := by
  refine ⟨fun hsame => ?_, fun h => (agree_act b con hr k h).sameParse⟩
  by_contra h
  have hend := act_of_not_harmless b con hr k h
  have hn : con.term.scn.next = .normaltext := hsame.next.symm.trans hend.1
  have hm : con.term.scn.privateModeChar = 0 := hsame.mode.symm.trans (hend.2 hn)
  cases k with
  | f12 => exact h trivial
  | f10 => exact h hn
  | f11 => exact h ⟨hn, hm⟩
  | printScreen => exact h ⟨hn, hm⟩

/-! ## Interleavings -/

/-- A call of `state_fun_final_letter` as the host means it: letter, mode, and
parameters. -/
def ScnEvent.decoded : ScnEvent → Option (Byte × Byte × List Word)
  | .param _ => none
  | .finalLetter ch st => some (ch, st.privateModeChar, (List.range st.cmdParamsSize).map st.cmdParams)

/-- The sequences the scanner decodes while it takes a byte of the host. -/
def Console.callsOf (b : Build) (con : Console) (i : Input) : List (Byte × Byte × List Word) :=
  ((con.step b i).term.log.drop con.term.log.length).filterMap ScnEvent.decoded

/-- The sequences decoded from the bytes of the host, over a run. -/
def hostCalls (b : Build) : Console → List Input → List (Byte × Byte × List Word)
  | _, [] => []
  | con, .host ch :: is => con.callsOf b (.host ch) ++ hostCalls b (con.step b (.host ch)) is
  | con, .hotkey k :: is => hostCalls b (con.step b (.hotkey k)) is

def Input.isHost : Input → Bool
  | .host _ => true
  | .hotkey _ => false

/-- A hotkey among the inputs is harmless. -/
def Input.Harmless (con : Console) : Input → Prop
  | .host _ => True
  | .hotkey k => k.Harmless con.term.scn

theorem scn_step_host (b : Build) (con : Console) (ch : Byte) :
    (con.step b (.host ch)).term.scn = if ch = 0 then con.term.scn else (scan ch con.term.scn).1 := by
  by_cases h : ch = 0
  · subst h; rfl
  · rw [if_neg h]
    exact (scn_gfxTermPutstring b [ch] con.term (by simpa using h)).trans rfl

theorem callsOf_host (b : Build) (con : Console) (ch : Byte) :
    con.callsOf b (.host ch) =
      if ch = 0 then [] else (scan ch con.term.scn).2.filterMap ScnEvent.decoded := by
  by_cases h : ch = 0
  · subst h
    simp [Console.callsOf, Console.step, Console.putstring, gfxTermPutstring]
  · have hstr : cString [ch] = [ch] := by
      rw [cString, List.takeWhile_eq_self_iff]; simpa using h
    have hlog : (con.step b (.host ch)).term.log = con.term.log ++ (scan ch con.term.scn).2 := by
      change (gfxTermPutstring b [ch] con.term).log = _
      rw [gfxTermPutstring_eq, hstr]
      exact congrArg Prod.snd (putByte_scan b ch con.term)
    rw [Console.callsOf, hlog, List.drop_left, if_neg h]

/-- Scanners that agree decode the same. -/
theorem decoded_agree {st st' : ScnState} (h : st.Agree st') (ch : Byte) :
    (scan ch st).2.filterMap ScnEvent.decoded = (scan ch st').2.filterMap ScnEvent.decoded := by
  have hcall : ScnEvent.decoded (.finalLetter ch st) = ScnEvent.decoded (.finalLetter ch st') := by
    simp only [ScnEvent.decoded, h.mode, ← h.size]
    refine congrArg (fun ps => some (ch, _, ps)) (List.map_congr_left fun i hi => ?_)
    exact h.params i (List.mem_range.mp hi)
  simp only [scan]
  split
  · rfl
  simp only [scanText]
  rw [← h.next]
  cases st.next with
  | normaltext => rfl
  | waitsquarebracket =>
      simp only
      split
      · rfl
      · split <;> rfl
  | selectescape =>
      simp only
      split
      · rfl
      · split
        · rfl
        · split
          · rfl
          · simp only [List.filterMap_cons, hcall]
  | readDigit =>
      simp only
      split
      · rfl
      · split
        · rfl
        · split
          · rfl
          · simp only [List.filterMap_cons, hcall]
  | altCharset => rfl

theorem ready_step (b : Build) (i : Input) {con : Console} (hr : con.term.scn.Ready) :
    (con.step b i).term.scn.Ready := by
  have hput : ∀ (str : List Byte) (t : Term), t.scn.Ready → (gfxTermPutstring b str t).scn.Ready :=
    fun str t h => ready_runBytes b h (cString str)
  cases i with
  | host ch => exact hput _ _ hr
  | hotkey k =>
      rw [step_hotkey]
      cases k with
      | printScreen => exact hput _ _ hr
      | f12 => exact hr
      | f11 => exact hput _ _ (hput _ _ (hput _ _ hr))
      | f10 => exact hput _ _ (hput _ _ (hput _ _ hr))

theorem ScnState.Agree.trans {st₁ st₂ st₃ : ScnState} (h : st₁.Agree st₂) (h' : st₂.Agree st₃) :
    st₁.Agree st₃ :=
  ⟨h.next.trans h'.next, h.after.trans h'.after, h.mode.trans h'.mode, h.size.trans h'.size,
    fun i hi => (h.params i hi).trans (h'.params i (h.size ▸ hi))⟩

theorem ScnState.Agree.symm {st st' : ScnState} (h : st.Agree st') : st'.Agree st :=
  ⟨h.next.symm, h.after.symm, h.mode.symm, h.size.symm, fun i hi => (h.params i (h.size ▸ hi)).symm⟩

/-- Harmless keys may be left out of a run. -/
theorem hostCalls_filter (b : Build) (is : List Input) {con con' : Console}
    (hr : con.term.scn.Ready) (hagree : con.term.scn.Agree con'.term.scn)
    (hsafe : Along (Console.step b) Input.Harmless con is) :
    hostCalls b con is = hostCalls b con' (is.filter Input.isHost) := by
  induction is generalizing con con' with
  | nil => rfl
  | cons i is ih =>
      have hr' := ready_step b i hr
      cases i with
      | host ch =>
          have hstep : (con.step b (.host ch)).term.scn.Agree (con'.step b (.host ch)).term.scn := by
            rw [scn_step_host, scn_step_host]
            split
            · exact hagree
            · simp only [scan]
              split
              · exact hagree
              · exact agree_scanText hagree hr ch
          rw [List.filter_cons_of_pos rfl, hostCalls, hostCalls, callsOf_host, callsOf_host,
            decoded_agree hagree, ih hr' hstep hsafe.2]
      | hotkey k =>
          have hact := agree_act b con hr k hsafe.1
          have hstep : (con.step b (.hotkey k)).term.scn.Agree con'.term.scn := by
            rw [step_hotkey]; exact hact.symm.trans hagree
          rw [List.filter_cons_of_neg (by simp [Input.isHost]), hostCalls, ih hr' hstep hsafe.2]

/-- The console after start-up. -/
def Console.start (b : Build) (pFramebuffer : ℤ) (width height pitch size : ℕ) (data : ℤ → Byte)
    (uart : Uart) (baud : List ℤ) : Console :=
  { term := Term.start b pFramebuffer width height pitch size data, uart := uart, baud := baud }

theorem ready_run (b : Build) (pFramebuffer : ℤ) (width height pitch size : ℕ) (data : ℤ → Byte)
    (uart : Uart) (baud : List ℤ) (past : List Input) :
    (past.foldl (Console.step b)
      (Console.start b pFramebuffer width height pitch size data uart baud)).term.scn.Ready :=
  foldl_invariant (I := fun con : Console => con.term.scn.Ready) (fun _ i h => ready_step b i h) _ past
    (counting_start b pFramebuffer width height pitch size data).toReady

/-- **Local keys and the host's stream.**  In every reachable state a key leaves what
the host's next bytes are read with unchanged exactly if it is harmless there, and
a run in which all keys are harmless decodes the bytes of the host as without the
keys. -/
theorem hotkeys_transparent_iff (b : Build) (pFramebuffer : ℤ) (width height pitch size : ℕ)
    (data : ℤ → Byte) (uart : Uart) (baud : List ℤ) (past : List Input) :
    let con := past.foldl (Console.step b)
      (Console.start b pFramebuffer width height pitch size data uart baud)
    (∀ k, con.term.scn.SameParse (con.step b (.hotkey k)).term.scn ↔ k.Harmless con.term.scn) ∧
      ∀ is, Along (Console.step b) Input.Harmless con is →
        hostCalls b con is = hostCalls b con (is.filter Input.isHost) := by
  intro con
  have hr : con.term.scn.Ready := ready_run b pFramebuffer width height pitch size data uart baud past
  have hrefl : con.term.scn.Agree con.term.scn := ⟨rfl, rfl, rfl, rfl, fun _ _ => rfl⟩
  refine ⟨fun k => ?_, fun is hsafe => hostCalls_filter b is hr hrefl hsafe⟩
  rw [step_hotkey]
  exact sameParse_act_iff b con hr k

/-- The font key inside `ESC [ 5 H`. -/
theorem hotkeys_transparent_font :
    let con := Console.start .shipped 0 640 480 640 307200 (fun _ => 0) (uart0Setbaud 9600) baudTable
    let is : List Input := [.host 0x1B, .host (chr '['), .host (chr '5'), .hotkey .f12, .host (chr 'H')]
    hostCalls .shipped con is = hostCalls .shipped con (is.filter Input.isHost) := by
  intro con is
  exact (hotkeys_transparent_iff .shipped 0 640 480 640 307200 (fun _ => 0) (uart0Setbaud 9600) baudTable
    []).2 is ⟨trivial, trivial, trivial, trivial, trivial, trivial⟩

/-- The line key inside `ESC [ 5 H` ends the host's sequence. -/
theorem hotkeys_break_sequence :
    ¬∀ (b : Build) (pFramebuffer : ℤ) (width height pitch size : ℕ) (data : ℤ → Byte) (uart : Uart)
      (baud : List ℤ) (past : List Input) (k : Hotkey),
      let con := past.foldl (Console.step b)
        (Console.start b pFramebuffer width height pitch size data uart baud)
      con.term.scn.SameParse (con.step b (.hotkey k)).term.scn := by
  intro h
  have hnext := (h .shipped 0 640 480 640 307200 (fun _ => 0) (uart0Setbaud 9600) baudTable
    [.host 0x1B, .host (chr '['), .host (chr '5')] .f10).next
  revert hnext
  decide

end Pigfx
