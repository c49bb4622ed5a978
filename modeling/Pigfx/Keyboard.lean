import Mathlib.Data.List.Count
import Mathlib.Data.List.Infix
import Pigfx.Lib.Loop
import Pigfx.Lib.Memory

/-!
# The keys of a report

The keyboard sends reports of eight bytes, of which six are the codes of the keys that are held.
The driver takes the last code of a report that is not zero, and makes a key event for it unless
the report before had it too.

So a report is good for one event at most, and for none if a key that was held before stands
behind the new one.

## Main definitions

* `usbKeyboardDeviceCompletionRoutine`, `usbKeyboardDeviceGetKeyCode` — the code.
* `IsNew` — the codes of a report that the report before does not have.
* `LastCode` — the code is the one that the driver takes.
-/

namespace Pigfx
open Lib

/-! ## The code -/

abbrev BOOT_REPORT_SIZE : ℕ := 8
abbrev REPEAT_DELAY : ℕ := 500 * 100 / 1000
abbrev REPEAT_RATE : ℕ := 40 * 100 / 1000

/-- A report, by the indices of its bytes. -/
abbrev Report := ℕ → Byte

/-- What the driver calls: the key map and the handlers, with a state of their own, and the
timers of the kernel. -/
structure KeyboardCalls (κ : Type) where
  /-- what `USBKeyboardDeviceGenerateKeyEvent` does for some modifiers and a code, with the string
  that it returns -/
  generate : Byte → Byte → κ → Option Word × κ
  pKeyPressedHandler : Option (Word → κ → κ)
  pKeyStatusHandlerRaw : Option (Byte → Report → κ → κ)
  startKernelTimer : ℕ → Word → κ → Word × κ
  cancelKernelTimer : Word → κ → κ

/-- The members of `TusbKeyboardDevice` that change, the state of what is called, and the codes
for which key events were generated. -/
structure Keyboard (κ : Type) where
  pLastPhyCodes : ℕ → Byte
  ucRepeatingKey : Byte
  hTimer : Word
  called : κ
  events : List Byte

section Code
variable {κ : Type} (calls : KeyboardCalls κ)

/-- A device that is made. -/
def usbKeyboardDevice (called : κ) : Keyboard κ where
  pLastPhyCodes _ := 0
  ucRepeatingKey := 0
  hTimer := 0
  called := called
  events := []

def usbKeyboardDeviceGetModifiers (pReportBuffer : Report) : Byte := pReportBuffer 0

/-- The loop over the indices below `n + 2`, down to 2. -/
def lastKeyCode (pReportBuffer : Report) : ℕ → Byte
  | 0 => 0
  | n + 1 =>
      let ucKeyCode := pReportBuffer (n + 2)
      if ucKeyCode ≠ 0 then ucKeyCode else lastKeyCode pReportBuffer n

def usbKeyboardDeviceGetKeyCode (pReportBuffer : Report) : Byte := lastKeyCode pReportBuffer 6

def usbKeyboardDeviceGenerateKeyEvent (modifiers ucPhyCode : Byte) (k : Keyboard κ) :
    Option Word × Keyboard κ :=
  let (pKeyString, called) := calls.generate modifiers ucPhyCode k.called
  (pKeyString, { k with called, events := k.events ++ [ucPhyCode] })

/-- The timer that repeats a key is stopped. -/
def Keyboard.cancelTimer (k : Keyboard κ) : Keyboard κ :=
  { k with called := calls.cancelKernelTimer k.hTimer k.called, hTimer := 0 }

/-- Another key or none: a key that repeats is stopped. -/
def Keyboard.stopRepeating (ucPhyCode : Byte) (k : Keyboard κ) : Keyboard κ :=
  if (ucPhyCode = 0 ∨ ucPhyCode ≠ k.ucRepeatingKey) ∧ k.hTimer ≠ 0 then
    { k.cancelTimer calls with ucRepeatingKey := 0 }
  else k

/-- The code, or 0 for a key that was held before. -/
def Keyboard.newPhyCode (ucPhyCode : Byte) (k : Keyboard κ) : Byte :=
  if ucPhyCode ≠ 0 then
    if [2, 3, 4, 5, 6, 7].any fun i => ucPhyCode = k.pLastPhyCodes i then 0 else ucPhyCode
  else ucPhyCode

/-- The codes are kept for the next report. -/
def Keyboard.keepPhyCodes (pReportBuffer : Report) (k : Keyboard κ) : Keyboard κ :=
  { k with
    pLastPhyCodes := fun i => if 2 ≤ i ∧ i < BOOT_REPORT_SIZE then pReportBuffer i else k.pLastPhyCodes i }

/-- A key event, and the timer that will repeat it. -/
def Keyboard.keyPressed (modifiers ucPhyCode : Byte) (k : Keyboard κ) : Keyboard κ :=
  let (pKeyString, k) := usbKeyboardDeviceGenerateKeyEvent calls modifiers ucPhyCode k
  let k := if k.hTimer ≠ 0 then k.cancelTimer calls else k
  match pKeyString, calls.pKeyPressedHandler with
  | some pKeyString, some _ =>
    let (hTimer, called) := calls.startKernelTimer REPEAT_DELAY pKeyString k.called
    { k with hTimer, called, ucRepeatingKey := ucPhyCode }
  | _, _ => k

def usbKeyboardDeviceCompletionRoutine (status resultLength : ℕ) (pReportBuffer : Report) (k : Keyboard κ) :
    Keyboard κ :=
  if status ≠ 0 ∧ resultLength = BOOT_REPORT_SIZE then
    let modifiers := usbKeyboardDeviceGetModifiers pReportBuffer
    match calls.pKeyStatusHandlerRaw with
    | some handler => { k with called := handler modifiers (fun i => pReportBuffer (i + 2)) k.called }
    | none =>
      let ucPhyCode := usbKeyboardDeviceGetKeyCode pReportBuffer
      let k := k.stopRepeating calls ucPhyCode
      let ucPhyCode := k.newPhyCode ucPhyCode
      let k := k.keepPhyCodes pReportBuffer
      if ucPhyCode ≠ 0 then k.keyPressed calls modifiers ucPhyCode else k
  else k

/-- The timer repeats a key: its string goes to the handler again. -/
def usbKeyboardDeviceTimerHandler (hTimer pParam : Word) (k : Keyboard κ) : Keyboard κ :=
  let called := calls.cancelKernelTimer hTimer k.called
  let called :=
    match calls.pKeyPressedHandler with
    | some handler => handler pParam called
    | none => called
  let (hTimer, called) := calls.startKernelTimer REPEAT_RATE pParam called
  { k with hTimer, called }

end Code

/-! ## Runs -/

/-- What reaches the driver: a report, or a timer that has run out. -/
inductive KeyInput
  | report (pReportBuffer : Report)
  | timer (hTimer pParam : Word)

def Keyboard.step {κ : Type} (calls : KeyboardCalls κ) (k : Keyboard κ) : KeyInput → Keyboard κ
  | .report pReportBuffer => usbKeyboardDeviceCompletionRoutine calls 1 BOOT_REPORT_SIZE pReportBuffer k
  | .timer hTimer pParam => usbKeyboardDeviceTimerHandler calls hTimer pParam k

/-- The inputs, from the start. -/
def keyboardRun {κ : Type} (calls : KeyboardCalls κ) (called : κ) (es : List KeyInput) : Keyboard κ :=
  es.foldl (Keyboard.step calls) (usbKeyboardDevice called)

/-- The last report, with no key before the first one. -/
def lastReport (es : List KeyInput) : Report :=
  es.foldl (fun last e => match e with
    | .report pReportBuffer => pReportBuffer
    | .timer _ _ => last) fun _ => 0

/-! ## Codes -/

/-- The code stands in one of the bytes for keys. -/
def HasCode (report : Report) (c : Byte) : Prop := ∃ i < BOOT_REPORT_SIZE, 2 ≤ i ∧ report i = c

/-- A key of the report that was not held before. -/
def IsNew (last report : Report) (c : Byte) : Prop := c ≠ 0 ∧ HasCode report c ∧ ¬HasCode last c

/-- Behind the code there are only zeros. -/
def LastCode (report : Report) (c : Byte) : Prop :=
  ∃ i < BOOT_REPORT_SIZE, 2 ≤ i ∧ report i = c ∧ ∀ j < BOOT_REPORT_SIZE, i < j → report j = 0

instance (report : Report) (c : Byte) : Decidable (HasCode report c) :=
  inferInstanceAs (Decidable (∃ i < BOOT_REPORT_SIZE, 2 ≤ i ∧ report i = c))

instance (last report : Report) (c : Byte) : Decidable (IsNew last report c) :=
  inferInstanceAs (Decidable (_ ∧ _ ∧ ¬_))

theorem hasCode_congr {r r' : Report} (h : ∀ i, 2 ≤ i → i < BOOT_REPORT_SIZE → r i = r' i) (c : Byte) :
    HasCode r c ↔ HasCode r' c := by
  constructor
  · rintro ⟨i, hi, hlow, hcode⟩
    exact ⟨i, hi, hlow, (h i hlow hi).symm.trans hcode⟩
  · rintro ⟨i, hi, hlow, hcode⟩
    exact ⟨i, hi, hlow, (h i hlow hi).trans hcode⟩

/-- The loop finds the last code that is not zero. -/
theorem lastKeyCode_eq_iff (report : Report) {c : Byte} (hc : c ≠ 0) (n : ℕ) :
    lastKeyCode report n = c ↔ ∃ i < n + 2, 2 ≤ i ∧ report i = c ∧ ∀ j < n + 2, i < j → report j = 0 := by
  induction n with
  | zero =>
    refine iff_of_false (fun h => hc h.symm) ?_
    rintro ⟨i, hi, hlow, -⟩
    omega
  | succ n ih =>
    rw [lastKeyCode]
    by_cases hlast : report (n + 2) = 0
    · rw [if_neg (not_not.mpr hlast), ih]
      constructor
      · rintro ⟨i, hi, hlow, hcode, hzero⟩
        refine ⟨i, by omega, hlow, hcode, fun j hj hij => ?_⟩
        rcases Nat.lt_succ_iff_lt_or_eq.mp hj with hlt | rfl
        · exact hzero j hlt hij
        · exact hlast
      · rintro ⟨i, hi, hlow, hcode, hzero⟩
        have hne : i ≠ n + 2 := by
          rintro rfl
          exact hc (hcode.symm.trans hlast)
        exact ⟨i, by omega, hlow, hcode, fun j hj hij => hzero j (by omega) hij⟩
    · rw [if_pos hlast]
      constructor
      · intro hcode
        exact ⟨n + 2, by omega, by omega, hcode, fun j hj hij => by omega⟩
      · rintro ⟨i, hi, hlow, hcode, hzero⟩
        rcases Nat.lt_succ_iff_lt_or_eq.mp hi with hlt | rfl
        · exact absurd (hzero (n + 2) (by omega) hlt) hlast
        · exact hcode

theorem getKeyCode_eq_iff (report : Report) {c : Byte} (hc : c ≠ 0) :
    usbKeyboardDeviceGetKeyCode report = c ↔ LastCode report c :=
  lastKeyCode_eq_iff report hc 6

theorem LastCode.hasCode {report : Report} {c : Byte} (h : LastCode report c) : HasCode report c := by
  obtain ⟨i, hi, hlow, hcode, -⟩ := h
  exact ⟨i, hi, hlow, hcode⟩

/-- The code that is taken is one of the report. -/
theorem hasCode_getKeyCode {report : Report} (h : usbKeyboardDeviceGetKeyCode report ≠ 0) :
    HasCode report (usbKeyboardDeviceGetKeyCode report) :=
  ((getKeyCode_eq_iff report h).mp rfl).hasCode

theorem any_eq_iff (report : Report) (c : Byte) :
    ([2, 3, 4, 5, 6, 7].any fun i => c = report i) = true ↔ HasCode report c := by
  rw [List.any_eq_true]
  constructor
  · rintro ⟨i, hi, hcode⟩
    have hrange : ∀ i ∈ [2, 3, 4, 5, 6, 7], i < BOOT_REPORT_SIZE ∧ 2 ≤ i := by decide
    exact ⟨i, (hrange i hi).1, (hrange i hi).2, (of_decide_eq_true hcode).symm⟩
  · rintro ⟨i, hi, hlow, hcode⟩
    refine ⟨i, ?_, decide_eq_true hcode.symm⟩
    interval_cases i <;> decide

/-! ## One input -/

section Step
variable {κ : Type} (calls : KeyboardCalls κ) (k : Keyboard κ)

theorem stopRepeating_spec (c : Byte) :
    (k.stopRepeating calls c).events = k.events ∧
      (k.stopRepeating calls c).pLastPhyCodes = k.pLastPhyCodes := by
  rw [Keyboard.stopRepeating]
  split
  · exact ⟨rfl, rfl⟩
  · exact ⟨rfl, rfl⟩

theorem newPhyCode_eq (c : Byte) : k.newPhyCode c = if HasCode k.pLastPhyCodes c then 0 else c := by
  rw [Keyboard.newPhyCode]
  simp only [any_eq_iff]
  split
  · rfl
  · next hzero =>
    rw [not_not.mp hzero]
    split
    · rfl
    · rfl

theorem keyPressed_spec (modifiers c : Byte) :
    (k.keyPressed calls modifiers c).events = k.events ++ [c] ∧
      (k.keyPressed calls modifiers c).pLastPhyCodes = k.pLastPhyCodes := by
  have hcancel (k : Keyboard κ) : (if k.hTimer ≠ 0 then k.cancelTimer calls else k).events = k.events ∧
      (if k.hTimer ≠ 0 then k.cancelTimer calls else k).pLastPhyCodes = k.pLastPhyCodes := by
    split
    · exact ⟨rfl, rfl⟩
    · exact ⟨rfl, rfl⟩
  rw [Keyboard.keyPressed]
  dsimp only
  split
  · exact hcancel _
  · exact hcancel _

/-- **What a report does.**  The code that is taken is an event if the report before does not have
it, and the codes of the report are kept. -/
theorem step_report (hraw : calls.pKeyStatusHandlerRaw = none) (report : Report) :
    (k.step calls (.report report)).events = k.events ++
        (if IsNew k.pLastPhyCodes report (usbKeyboardDeviceGetKeyCode report)
          then [usbKeyboardDeviceGetKeyCode report] else []) ∧
      ∀ i, 2 ≤ i → i < BOOT_REPORT_SIZE →
        (k.step calls (.report report)).pLastPhyCodes i = report i := by
  rw [Keyboard.step, usbKeyboardDeviceCompletionRoutine, if_pos ⟨Nat.one_ne_zero, rfl⟩]
  simp only [hraw]
  obtain ⟨hevents, hcodes⟩ := stopRepeating_spec calls k (usbKeyboardDeviceGetKeyCode report)
  rw [newPhyCode_eq, hcodes]
  have hkept (k : Keyboard κ) (i : ℕ) (hlow : 2 ≤ i) (hi : i < BOOT_REPORT_SIZE) :
      (k.keepPhyCodes report).pLastPhyCodes i = report i := if_pos ⟨hlow, hi⟩
  by_cases hnew : IsNew k.pLastPhyCodes report (usbKeyboardDeviceGetKeyCode report)
  · obtain ⟨hkey, hlast⟩ := keyPressed_spec calls
      ((k.stopRepeating calls (usbKeyboardDeviceGetKeyCode report)).keepPhyCodes report)
      (usbKeyboardDeviceGetModifiers report) (usbKeyboardDeviceGetKeyCode report)
    rw [if_neg hnew.2.2, if_pos hnew.1, if_pos hnew, hkey, hlast]
    exact ⟨congrArg (· ++ _) hevents, hkept _⟩
  · have hheld : (if HasCode k.pLastPhyCodes (usbKeyboardDeviceGetKeyCode report) then 0
        else usbKeyboardDeviceGetKeyCode report) = 0 := by
      by_cases hzero : usbKeyboardDeviceGetKeyCode report = 0
      · rw [hzero, ite_self]
      · refine if_pos (by_contra fun hbefore => hnew ⟨hzero, hasCode_getKeyCode hzero, hbefore⟩)
    rw [hheld, if_neg (by simp), if_neg hnew, List.append_nil]
    exact ⟨hevents, hkept _⟩

/-- A key that repeats is no event. -/
theorem step_timer (hTimer pParam : Word) :
    (k.step calls (.timer hTimer pParam)).events = k.events ∧
      (k.step calls (.timer hTimer pParam)).pLastPhyCodes = k.pLastPhyCodes :=
  ⟨rfl, rfl⟩

end Step

/-! ## Every run -/

section Runs
variable {κ : Type} {calls : KeyboardCalls κ} (hraw : calls.pKeyStatusHandlerRaw = none) (called : κ)
include hraw

/-- The driver has the codes of the last report. -/
theorem keyboardRun_lastPhyCodes (es : List KeyInput) :
    ∀ i, 2 ≤ i → i < BOOT_REPORT_SIZE →
      (keyboardRun calls called es).pLastPhyCodes i = lastReport es i := by
  refine foldl_relation (R := fun (k : Keyboard κ) (last : Report) =>
    ∀ i, 2 ≤ i → i < BOOT_REPORT_SIZE → k.pLastPhyCodes i = last i) (fun k last e h => ?_) es fun _ _ _ => rfl
  cases e with
  | report report => exact (step_report calls k hraw report).2
  | timer hTimer pParam =>
    rw [(step_timer calls k hTimer pParam).2]
    exact h

/-- The events of a report, after any inputs. -/
theorem keyboardRun_report (es : List KeyInput) (report : Report) :
    (keyboardRun calls called (es ++ [.report report])).events =
      (keyboardRun calls called es).events ++
        (if IsNew (lastReport es) report (usbKeyboardDeviceGetKeyCode report)
          then [usbKeyboardDeviceGetKeyCode report] else []) := by
  have hcodes := keyboardRun_lastPhyCodes hraw called es
  have hiff (c : Byte) :
      IsNew (keyboardRun calls called es).pLastPhyCodes report c ↔ IsNew (lastReport es) report c :=
    and_congr_right fun _ => and_congr_right fun _ => not_congr (hasCode_congr hcodes c)
  rw [keyboardRun, List.foldl_append]
  simp only [← hiff]
  exact (step_report calls _ hraw report).1

/-- Behind some inputs, the events of a report are exactly its new codes. -/
def ReportsNew {κ : Type} (calls : KeyboardCalls κ) (called : κ) (es : List KeyInput) (report : Report) :
    Prop :=
  ∃ new,
    (keyboardRun calls called (es ++ [.report report])).events =
      (keyboardRun calls called es).events ++ new ∧
    ∀ c, new.count c = if IsNew (lastReport es) report c then 1 else 0

theorem reportsNew_iff (es : List KeyInput) (report : Report) :
    ReportsNew calls called es report ↔ ∀ c, IsNew (lastReport es) report c → LastCode report c := by
  have hrun := keyboardRun_report hraw called es report
  unfold ReportsNew
  constructor
  · rintro ⟨new, hnew, hcount⟩ c hc
    rw [hrun] at hnew
    have hone : 0 < new.count c := by
      rw [hcount, if_pos hc]
      exact Nat.one_pos
    have hmem := List.count_pos_iff.mp hone
    rw [← List.append_cancel_left hnew] at hmem
    split at hmem
    · rw [List.mem_singleton] at hmem
      exact (getKeyCode_eq_iff report hc.1).mp hmem.symm
    · exact nomatch hmem
  · intro h
    refine ⟨_, hrun, fun c => ?_⟩
    by_cases hc : IsNew (lastReport es) report c
    · have hcode := (getKeyCode_eq_iff report hc.1).mpr (h c hc)
      rw [hcode, if_pos hc, if_pos hc, List.count_singleton_self]
    · rw [if_neg hc]
      split
      · next hcode =>
        refine List.count_eq_zero_of_not_mem fun hmem => hc ?_
        rw [List.mem_singleton.mp hmem]
        exact hcode
      · rfl

/-- **Every new key of a report is an event**, and nothing else is, exactly if in each report the
new codes stand in front of zeros only. -/
theorem rollover_iff (es : List KeyInput) :
    (∀ before report, before ++ [.report report] <+: es → ReportsNew calls called before report) ↔
      ∀ before report, before ++ [.report report] <+: es →
        ∀ c, IsNew (lastReport before) report c → LastCode report c :=
  forall_congr' fun before => forall_congr' fun report =>
    imp_congr_right fun _ => reportsNew_iff hraw called before report

end Runs

/-- A keyboard without handlers. -/
def noCalls : KeyboardCalls Unit where
  generate _ _ _ := (none, ())
  pKeyPressedHandler := none
  pKeyStatusHandlerRaw := none
  startKernelTimer _ _ _ := (1, ())
  cancelKernelTimer _ _ := ()

/-- A report with the codes that are given. -/
def reportOf (codes : List Byte) : Report := fun i => if i < 2 then 0 else codes.getD (i - 2) 0

/-- A key is pressed. -/
theorem rollover_first : ReportsNew noCalls () [] (reportOf [4]) := by
  refine (rollover_iff rfl () [.report (reportOf [4])]).mpr ?_ [] _ (List.prefix_refl _)
  rintro before report hprefix c ⟨hpressed, ⟨i, hi, hlow, rfl⟩, -⟩
  have hnil : before = [] := by
    have hlength := hprefix.length_le
    simp only [List.length_append, List.length_singleton] at hlength
    exact List.length_eq_zero_iff.mp (by omega)
  subst hnil
  obtain ⟨rfl⟩ : report = reportOf [4] := by simpa using hprefix
  have hfirst : i = 2 := by
    by_contra hne
    interval_cases i <;> first | exact hne rfl | exact hpressed rfl
  subst hfirst
  exact ⟨2, by decide, le_rfl, rfl, by decide⟩

/-- A second key is pressed, which stands in front of the first one. -/
theorem rollover_in_front :
    ¬∀ before report, before ++ [.report report] <+: [.report (reportOf [4]), .report (reportOf [5, 4])] →
      ReportsNew noCalls () before report := by
  intro h
  obtain ⟨new, hnew, hcount⟩ := h [.report (reportOf [4])] (reportOf [5, 4]) (List.prefix_refl _)
  have hnone : [4] = [4] ++ new := hnew
  have hfive := hcount 5
  rw [List.self_eq_append_right.mp hnone] at hfive
  exact absurd hfive (by decide)

end Pigfx
