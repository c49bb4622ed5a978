import Mathlib.Data.List.Forall2
import Mathlib.Data.List.ReduceOption
import Pigfx.Lib.Memory
import Pigfx.Lib.While

/-!
# Configuration descriptors

A USB device describes itself by a chain of descriptors, each of which begins with its length and its
type.  The parser of the USB library checks the chain once, and then hands out the descriptors of a
type one after another.

Positions are counted from the beginning of the buffer.  The loops have no bound: a descriptor of
length zero is a place where the check stays for ever.

## Main definitions

* `USBConfigurationParser`, `USBConfigurationParserGetDescriptor` — the code.
* `Passed` — chains that are as they should be, `Rest` — what is left of one.
* `parser_valid_iff`, `parser_hangs_iff` — which buffers are accepted.
* `get_in_order`, `sections_enumerated` — what is handed out.
-/

namespace Pigfx.Usb
open Lib

/-! ## The code -/

def DESCRIPTOR_CONFIGURATION : Byte := 2
def DESCRIPTOR_INTERFACE : Byte := 4
def DESCRIPTOR_ENDPOINT : Byte := 5

/-- A parser; null is `none`. -/
structure TUSBConfigurationParser where
  m_pBuffer : ℕ → Byte
  m_nBufLen : ℕ
  m_bValid : Bool
  m_pEndPosition : ℕ
  m_pNextPosition : ℕ
  m_pCurrentDescriptor : Option ℕ
  m_pErrorPosition : ℕ

section Fields
variable (b : ℕ → Byte) (p : ℕ)

def bLength : ℕ := (b p).toNat
def bDescriptorType : Byte := b (p + 1)
def wTotalLength : ℕ := (b (p + 2)).toNat + 256 * (b (p + 3)).toNat
def bInterfaceClass : Byte := b (p + 5)

end Fields

/-- The local variables of the check. -/
structure Scan where
  pCurrentPosition : ℕ
  ucLastDescType : Byte
  bInAudioInterface : Bool

/-- The `switch`: the expected length, with zero for any, and whether this is an audio interface. -/
def expected (b : ℕ → Byte) (s : Scan) : Option (ℕ × Bool) :=
  if bDescriptorType b s.pCurrentPosition = DESCRIPTOR_CONFIGURATION then
    if s.ucLastDescType ≠ 0 then none else some (9, s.bInAudioInterface)
  else if bDescriptorType b s.pCurrentPosition = DESCRIPTOR_INTERFACE then
    if s.ucLastDescType = 0 then none else some (9, bInterfaceClass b s.pCurrentPosition == 0x01)
  else if bDescriptorType b s.pCurrentPosition = DESCRIPTOR_ENDPOINT then
    if s.ucLastDescType = 0 ∨ s.ucLastDescType = DESCRIPTOR_CONFIGURATION then none
    else some (if s.bInAudioInterface then 9 else 7, s.bInAudioInterface)
  else some (0, s.bInAudioInterface)

/-- A turn of the check; an error is the position where it was found. -/
def scanTurn (b : ℕ → Byte) (stop : ℕ) (s : Scan) : Scan ⊕ Except ℕ Scan :=
  if s.pCurrentPosition + 2 < stop then
    if stop < s.pCurrentPosition + bLength b s.pCurrentPosition then .inr (.error s.pCurrentPosition)
    else
      match expected b s with
      | none => .inr (.error s.pCurrentPosition)
      | some (len, audio) =>
          if len ≠ 0 ∧ bLength b s.pCurrentPosition ≠ len then .inr (.error s.pCurrentPosition)
          else .inl ⟨s.pCurrentPosition + bLength b s.pCurrentPosition, bDescriptorType b s.pCurrentPosition, audio⟩
  else .inr (.ok s)

/-- The constructor; `n` is a number of turns. -/
def USBConfigurationParser (n : ℕ) (b : ℕ → Byte) (nBufLen : ℕ) : Option TUSBConfigurationParser :=
  let this : TUSBConfigurationParser :=
    { m_pBuffer := b, m_nBufLen := nBufLen, m_bValid := false, m_pEndPosition := nBufLen, m_pNextPosition := 0
      m_pCurrentDescriptor := none, m_pErrorPosition := 0 }
  if nBufLen < 4 ∨ 512 < nBufLen then some this
  else if bLength b 0 ≠ 9 ∨ bDescriptorType b 0 ≠ DESCRIPTOR_CONFIGURATION ∨ nBufLen < wTotalLength b 0 then some this
  else
    let this := if wTotalLength b 0 < nBufLen then { this with m_pEndPosition := wTotalLength b 0 } else this
    match runLoop (scanTurn b this.m_pEndPosition) n ⟨0, 0, false⟩ with
    | none => none
    | some (.error p) => some { this with m_pErrorPosition := p }
    | some (.ok s) =>
        if s.pCurrentPosition ≠ this.m_pEndPosition then some { this with m_pErrorPosition := s.pCurrentPosition }
        else some { this with m_bValid := true }

/-- A turn of the search; it ends with what is found and the next position. -/
def searchTurn (b : ℕ → Byte) (stop : ℕ) (ucType : Byte) (p : ℕ) : ℕ ⊕ Option ℕ × ℕ :=
  if p < stop then
    if ucType = DESCRIPTOR_ENDPOINT ∧ bDescriptorType b p = DESCRIPTOR_INTERFACE then .inr (none, p)
    else if bDescriptorType b p = ucType then .inr (some p, p + bLength b p)
    else .inl (p + bLength b p)
  else .inr (none, p)

def USBConfigurationParserGetDescriptor (n : ℕ) (this : TUSBConfigurationParser) (ucType : Byte) :
    Option (Option ℕ × TUSBConfigurationParser) :=
  match runLoop (searchTurn this.m_pBuffer this.m_pEndPosition ucType) n this.m_pNextPosition with
  | none => none
  | some (pResult, pNext) =>
      some (pResult,
        { this with
          m_pNextPosition := pNext
          m_pErrorPosition := pResult.getD this.m_pErrorPosition
          m_pCurrentDescriptor := pResult })

/-! ## Chains -/

/-- The class of the last interface is audio. -/
def inAudio (b : ℕ → Byte) (ps : List ℕ) : Bool :=
  match ps.reverse.find? (fun p => bDescriptorType b p = DESCRIPTOR_INTERFACE) with
  | some p => bInterfaceClass b p == 0x01
  | none => false

/-- The type of the last descriptor, or zero. -/
def lastType (b : ℕ → Byte) (ps : List ℕ) : Byte := (ps.getLast?.map (bDescriptorType b)).getD 0

/-- What may stand behind the descriptors at `ps`.  A descriptor of type zero makes the next one a first
one. -/
@[mk_iff]
structure Fits (b : ℕ → Byte) (ps : List ℕ) (p : ℕ) : Prop where
  configuration : bDescriptorType b p = DESCRIPTOR_CONFIGURATION → lastType b ps = 0 ∧ bLength b p = 9
  interface : bDescriptorType b p = DESCRIPTOR_INTERFACE → lastType b ps ≠ 0 ∧ bLength b p = 9
  endpoint : bDescriptorType b p = DESCRIPTOR_ENDPOINT →
    lastType b ps ≠ 0 ∧ lastType b ps ≠ DESCRIPTOR_CONFIGURATION ∧ bLength b p = if inAudio b ps then 9 else 7

/-- The descriptors at `ps` stand one behind the other from the beginning on, up to `p`.  Each of them has
a third byte before the end. -/
inductive Passed (b : ℕ → Byte) (stop : ℕ) : List ℕ → ℕ → Prop
  | nil : Passed b stop [] 0
  | snoc {ps : List ℕ} {p : ℕ} : Passed b stop ps p → p + 2 < stop → p + bLength b p ≤ stop → Fits b ps p →
      Passed b stop (ps ++ [p]) (p + bLength b p)

variable {b : ℕ → Byte} {stop : ℕ}

/-- The local variables behind these descriptors. -/
def scanAfter (b : ℕ → Byte) (ps : List ℕ) (p : ℕ) : Scan := ⟨p, lastType b ps, inAudio b ps⟩

@[simp] theorem lastType_snoc (b : ℕ → Byte) (ps : List ℕ) (p : ℕ) : lastType b (ps ++ [p]) = bDescriptorType b p := by
  simp [lastType]

theorem inAudio_snoc (b : ℕ → Byte) (ps : List ℕ) (p : ℕ) :
    inAudio b (ps ++ [p]) = if bDescriptorType b p = DESCRIPTOR_INTERFACE then bInterfaceClass b p == 0x01 else inAudio b ps := by
  by_cases htype : bDescriptorType b p = DESCRIPTOR_INTERFACE
  · simp [inAudio, htype]
  · simp [inAudio, htype]

/-- The `switch` lets through what fits. -/
theorem expected_iff (b : ℕ → Byte) (ps : List ℕ) (p : ℕ) :
    (∃ len, expected b (scanAfter b ps p) = some (len, inAudio b (ps ++ [p])) ∧ ¬(len ≠ 0 ∧ bLength b p ≠ len)) ↔
      Fits b ps p := by
  have hci : ¬DESCRIPTOR_CONFIGURATION = DESCRIPTOR_INTERFACE := by decide
  have hce : ¬DESCRIPTOR_CONFIGURATION = DESCRIPTOR_ENDPOINT := by decide
  have hie : ¬DESCRIPTOR_INTERFACE = DESCRIPTOR_ENDPOINT := by decide
  rw [inAudio_snoc, fits_iff]
  by_cases hc : bDescriptorType b p = DESCRIPTOR_CONFIGURATION
  · by_cases hlast : lastType b ps = 0#8
    · simp [expected, scanAfter, hc, hci, hce, hlast]
    · simp [expected, scanAfter, hc, hci, hce, hlast]
  by_cases hi : bDescriptorType b p = DESCRIPTOR_INTERFACE
  · by_cases hlast : lastType b ps = 0#8
    · simp [expected, scanAfter, hi, Ne.symm hci, hie, hlast]
    · simp [expected, scanAfter, hi, Ne.symm hci, hie, hlast]
  by_cases he : bDescriptorType b p = DESCRIPTOR_ENDPOINT
  · by_cases hlast : lastType b ps = 0#8
    · simp [expected, scanAfter, he, Ne.symm hce, Ne.symm hie, hlast]
    · by_cases hconfig : lastType b ps = DESCRIPTOR_CONFIGURATION
      · simp [expected, scanAfter, he, Ne.symm hce, Ne.symm hie, hconfig]
      · cases haudio : inAudio b ps with
        | true => simp [expected, scanAfter, he, Ne.symm hce, Ne.symm hie, hlast, hconfig, haudio]
        | false => simp [expected, scanAfter, he, Ne.symm hce, Ne.symm hie, hlast, hconfig, haudio]
  · simp [expected, scanAfter, hc, hi, he]

theorem expected_audio {ps : List ℕ} {p len : ℕ} {audio : Bool} (h : expected b (scanAfter b ps p) = some (len, audio)) :
    audio = inAudio b (ps ++ [p]) := by
  have hie : ¬DESCRIPTOR_CONFIGURATION = DESCRIPTOR_INTERFACE := by decide
  rw [inAudio_snoc]
  unfold expected at h
  split_ifs at h <;> simp_all [scanAfter]

/-- A turn that goes on passes a descriptor that fits, -/
theorem scanTurn_inl_iff (ps : List ℕ) (p : ℕ) (s : Scan) :
    scanTurn b stop (scanAfter b ps p) = .inl s ↔
      (p + 2 < stop ∧ p + bLength b p ≤ stop ∧ Fits b ps p) ∧ s = scanAfter b (ps ++ [p]) (p + bLength b p) := by
  have hnext : scanAfter b (ps ++ [p]) (p + bLength b p) =
      ⟨p + bLength b p, bDescriptorType b p, inAudio b (ps ++ [p])⟩ := by simp [scanAfter]
  rw [← expected_iff, hnext, scanTurn]
  change (if p + 2 < stop then if stop < p + bLength b p then _ else _ else _) = _ ↔ _
  by_cases hmore : p + 2 < stop
  · by_cases hfar : stop < p + bLength b p
    · rw [if_pos hmore, if_pos hfar]
      have hno : ¬p + bLength b p ≤ stop := Nat.not_le.mpr hfar
      simp [hno]
    · rw [if_pos hmore, if_neg hfar]
      have hin : p + bLength b p ≤ stop := Nat.not_lt.mp hfar
      cases hexpected : expected b (scanAfter b ps p) with
      | none => simp
      | some pair =>
          obtain ⟨len, audio⟩ := pair
          obtain rfl := expected_audio hexpected
          by_cases hlen : len ≠ 0 ∧ bLength b p ≠ len
          · simp [scanAfter, hlen]
          · change (if len ≠ 0 ∧ bLength b p ≠ len then _ else _) = _ ↔ _
            rw [if_neg hlen]
            constructor
            · intro h
              exact ⟨⟨hmore, hin, len, rfl, hlen⟩, (Sum.inl.inj h).symm⟩
            · rintro ⟨-, rfl⟩
              rfl
  · rw [if_neg hmore]
    simp [hmore]

/-- and the loop ends where no third byte is left. -/
theorem scanTurn_ok_iff (ps : List ℕ) (p : ℕ) (s : Scan) :
    scanTurn b stop (scanAfter b ps p) = .inr (.ok s) ↔ ¬p + 2 < stop ∧ s = scanAfter b ps p := by
  rw [scanTurn]
  change (if p + 2 < stop then if stop < p + bLength b p then _ else _ else _) = _ ↔ _
  by_cases hmore : p + 2 < stop
  · rw [if_pos hmore]
    have hno : ∀ r : Scan ⊕ Except ℕ Scan, (∀ s, r ≠ .inr (.ok s)) → (r = .inr (.ok s) ↔ ¬p + 2 < stop ∧ s = scanAfter b ps p) :=
      fun r hr => ⟨fun h => absurd h (hr s), fun h => absurd hmore h.1⟩
    refine hno _ fun t => ?_
    by_cases hfar : stop < p + bLength b p
    · simp [hfar]
    · cases hexpected : expected b (scanAfter b ps p) with
      | none => simp [hfar]
      | some pair =>
          simp only [hfar, if_false]
          split <;> simp
  · simp [hmore, eq_comm]

/-! ## The check -/

/-- The loop follows a chain. -/
theorem scan_passed {ps : List ℕ} {p : ℕ} (h : Passed b stop ps p) (n : ℕ) :
    runLoop (scanTurn b stop) (n + ps.length) ⟨0, 0, false⟩ = runLoop (scanTurn b stop) n (scanAfter b ps p) := by
  induction h generalizing n with
  | nil => rfl
  | snoc hpassed hmore hin hfits ih =>
      rw [List.length_append, List.length_singleton, Nat.add_comm _ 1, ← Nat.add_assoc, ih,
        runLoop_inl ((scanTurn_inl_iff _ _ _).mpr ⟨⟨hmore, hin, hfits⟩, rfl⟩)]

/-- A result comes from a chain. -/
theorem passed_of_scan {n : ℕ} {ps : List ℕ} {p : ℕ} {s : Scan} (h : Passed b stop ps p)
    (hrun : runLoop (scanTurn b stop) n (scanAfter b ps p) = some (.ok s)) :
    ∃ ps', Passed b stop ps' s.pCurrentPosition := by
  induction n generalizing ps p with
  | zero => cases hrun
  | succ n ih =>
      cases hturn : scanTurn b stop (scanAfter b ps p) with
      | inl s' =>
          obtain ⟨⟨hmore, hin, hfits⟩, rfl⟩ := (scanTurn_inl_iff _ _ _).mp hturn
          rw [runLoop_inl hturn] at hrun
          exact ih (h.snoc hmore hin hfits) hrun
      | inr r =>
          rw [runLoop_inr hturn] at hrun
          cases hrun
          obtain ⟨-, rfl⟩ := (scanTurn_ok_iff _ _ _).mp hturn
          exact ⟨ps, h⟩

/-- **Where the check stays**: a descriptor of length zero whose type says nothing about its length. -/
structure Stuck (b : ℕ → Byte) (stop p : ℕ) : Prop where
  more : p + 2 < stop
  length : bLength b p = 0
  unknown : bDescriptorType b p ≠ DESCRIPTOR_CONFIGURATION ∧ bDescriptorType b p ≠ DESCRIPTOR_INTERFACE ∧
    bDescriptorType b p ≠ DESCRIPTOR_ENDPOINT

theorem scan_stuck {ps : List ℕ} {p : ℕ} (h : Stuck b stop p) (n : ℕ) :
    runLoop (scanTurn b stop) n (scanAfter b ps p) = none := by
  induction n generalizing ps with
  | zero => rfl
  | succ n ih =>
      have hfits : Fits b ps p :=
        ⟨fun ht => absurd ht h.unknown.1, fun ht => absurd ht h.unknown.2.1, fun ht => absurd ht h.unknown.2.2⟩
      have hin : p + bLength b p ≤ stop := by
        have := h.more
        rw [h.length]
        omega
      have hturn := (scanTurn_inl_iff ps p _).mpr ⟨⟨h.more, hin, hfits⟩, rfl⟩
      rw [runLoop_inl hturn, h.length]
      exact ih

/-- The check ends, or gets to such a place. -/
theorem scan_ends {ps : List ℕ} {p : ℕ} (h : Passed b stop ps p) (hstuck : ∀ ps' p', Passed b stop ps' p' → ¬Stuck b stop p') :
    ∃ n r, runLoop (scanTurn b stop) n (scanAfter b ps p) = some r := by
  induction hk : stop - p using Nat.strongRecOn generalizing ps p with
  | _ k ih =>
      cases hturn : scanTurn b stop (scanAfter b ps p) with
      | inr r => exact ⟨1, r, runLoop_inr hturn⟩
      | inl s =>
          obtain ⟨⟨hmore, hin, hfits⟩, rfl⟩ := (scanTurn_inl_iff _ _ _).mp hturn
          have hpos : 0 < bLength b p := by
            by_contra hzero
            have hlength : bLength b p = 0 := by omega
            refine hstuck ps p h ⟨hmore, hlength, fun ht => ?_, fun ht => ?_, fun ht => ?_⟩
            · have hnine := (hfits.configuration ht).2
              omega
            · have hnine := (hfits.interface ht).2
              omega
            · have hseven := (hfits.endpoint ht).2.2
              split at hseven <;> omega
          obtain ⟨n, r, hrun⟩ := ih _ (by omega) (h.snoc hmore hin hfits) rfl
          exact ⟨n + 1, r, (runLoop_inl hturn).trans hrun⟩

/-- What is checked before the loop. -/
structure Header (b : ℕ → Byte) (nBufLen : ℕ) : Prop where
  long : 4 ≤ nBufLen
  short : nBufLen ≤ 512
  length : bLength b 0 = 9
  type : bDescriptorType b 0 = DESCRIPTOR_CONFIGURATION
  total : wTotalLength b 0 ≤ nBufLen

/-- The parser before the loop. -/
def beforeLoop (b : ℕ → Byte) (nBufLen stop : ℕ) : TUSBConfigurationParser :=
  { m_pBuffer := b, m_nBufLen := nBufLen, m_bValid := false, m_pEndPosition := stop, m_pNextPosition := 0
    m_pCurrentDescriptor := none, m_pErrorPosition := 0 }

/-- The parser behind the loop. -/
def afterLoop (this : TUSBConfigurationParser) : Except ℕ Scan → TUSBConfigurationParser
  | .error p => { this with m_pErrorPosition := p }
  | .ok s =>
      if s.pCurrentPosition ≠ this.m_pEndPosition then { this with m_pErrorPosition := s.pCurrentPosition }
      else { this with m_bValid := true }

variable {nBufLen : ℕ}

theorem parser_of_header (h : Header b nBufLen) (n : ℕ) :
    USBConfigurationParser n b nBufLen = (runLoop (scanTurn b (wTotalLength b 0)) n ⟨0, 0, false⟩).map
      (afterLoop (beforeLoop b nBufLen (wTotalLength b 0))) := by
  have hlong := h.long; have hshort := h.short; have htotal := h.total
  have hend : (if wTotalLength b 0 < nBufLen then
      { beforeLoop b nBufLen nBufLen with m_pEndPosition := wTotalLength b 0 } else beforeLoop b nBufLen nBufLen) =
      beforeLoop b nBufLen (wTotalLength b 0) := by
    split
    · rfl
    · have hsame : nBufLen = wTotalLength b 0 := by omega
      rw [← hsame]
  rw [USBConfigurationParser, if_neg (by omega), if_neg (by simp [h.length, h.type, htotal])]
  simp only [beforeLoop] at hend ⊢
  rw [hend]
  cases runLoop (scanTurn b (wTotalLength b 0)) n ⟨0, 0, false⟩ with
  | none => rfl
  | some r =>
      cases r with
      | error p => rfl
      | ok s =>
          rw [Option.map_some, afterLoop]
          exact (apply_ite some _ _ _).symm

theorem parser_of_not_header (h : ¬Header b nBufLen) (n : ℕ) :
    USBConfigurationParser n b nBufLen = some (beforeLoop b nBufLen nBufLen) := by
  rw [USBConfigurationParser]
  by_cases hsize : nBufLen < 4 ∨ 512 < nBufLen
  · rw [if_pos hsize]
    rfl
  · rw [if_neg hsize, if_pos]
    · rfl
    · by_contra hno
      exact h ⟨by omega, by omega, not_not.mp fun h => hno (.inl h), not_not.mp fun h => hno (.inr (.inl h)),
        Nat.not_lt.mp fun h => hno (.inr (.inr h))⟩

/-- **Which buffers are accepted**: those that begin with a configuration descriptor, and then with a
chain of descriptors that fit and that ends where the total length says.  If that length is zero, no
chain is needed. -/
theorem parser_valid_iff (b : ℕ → Byte) (nBufLen : ℕ) :
    (∃ n this, USBConfigurationParser n b nBufLen = some this ∧ this.m_bValid = true) ↔
      Header b nBufLen ∧ ∃ ps, Passed b (wTotalLength b 0) ps (wTotalLength b 0) := by
  constructor
  · rintro ⟨n, this, hrun, hvalid⟩
    by_cases h : Header b nBufLen
    · rw [parser_of_header h, Option.map_eq_some_iff] at hrun
      obtain ⟨r, hloop, rfl⟩ := hrun
      cases r with
      | error p => cases hvalid
      | ok s =>
          obtain ⟨ps, hps⟩ := passed_of_scan .nil hloop
          rw [afterLoop] at hvalid
          by_cases hend : s.pCurrentPosition ≠ (beforeLoop b nBufLen (wTotalLength b 0)).m_pEndPosition
          · rw [if_pos hend] at hvalid
            cases hvalid
          · have hsame : s.pCurrentPosition = wTotalLength b 0 := not_not.mp hend
            rw [hsame] at hps
            exact ⟨h, ps, hps⟩
    · rw [parser_of_not_header h] at hrun
      cases hrun
      cases hvalid
  · rintro ⟨h, ps, hps⟩
    have hloop : runLoop (scanTurn b (wTotalLength b 0)) (1 + ps.length) ⟨0, 0, false⟩ =
        some (.ok (scanAfter b ps (wTotalLength b 0))) := by
      rw [scan_passed hps 1]
      exact runLoop_inr ((scanTurn_ok_iff _ _ _).mpr ⟨by omega, rfl⟩)
    refine ⟨1 + ps.length, _, by rw [parser_of_header h, hloop, Option.map_some], ?_⟩
    rw [afterLoop, if_neg]
    exact not_not.mpr rfl

/-- **When the constructor does not return**: when it gets to a descriptor of length zero and unknown type,
behind others that fit. -/
theorem parser_hangs_iff (b : ℕ → Byte) (nBufLen : ℕ) :
    (∀ n, USBConfigurationParser n b nBufLen = none) ↔
      Header b nBufLen ∧ ∃ ps p, Passed b (wTotalLength b 0) ps p ∧ Stuck b (wTotalLength b 0) p := by
  constructor
  · intro hnone
    by_cases h : Header b nBufLen
    · refine ⟨h, ?_⟩
      by_contra hno
      have hclean : ∀ ps p, Passed b (wTotalLength b 0) ps p → ¬Stuck b (wTotalLength b 0) p :=
        fun ps p hpassed hstuck => hno ⟨ps, p, hpassed, hstuck⟩
      obtain ⟨n, r, hrun⟩ := scan_ends .nil hclean
      have hsome := hnone n
      rw [parser_of_header h] at hsome
      change Option.map _ (runLoop _ n (scanAfter b [] 0)) = none at hsome
      rw [hrun] at hsome
      cases hsome
    · have hsome := hnone 0
      rw [parser_of_not_header h] at hsome
      cases hsome
  · rintro ⟨h, ps, p, hpassed, hstuck⟩ n
    rw [parser_of_header h, Option.map_eq_none_iff]
    cases hrun : runLoop (scanTurn b (wTotalLength b 0)) n ⟨0, 0, false⟩ with
    | none => rfl
    | some r =>
        have hmore := runLoop_more hrun ps.length
        rw [scan_passed hpassed, scan_stuck hstuck] at hmore
        cases hmore

/-! ## What is handed out -/

/-- The descriptors from a position on. -/
inductive Rest (b : ℕ → Byte) (stop : ℕ) : ℕ → List ℕ → Prop
  | nil : Rest b stop stop []
  | cons {p : ℕ} {ps : List ℕ} : p < stop → 0 < bLength b p → Rest b stop (p + bLength b p) ps → Rest b stop p (p :: ps)

theorem Rest.le {p : ℕ} {ps : List ℕ} (h : Rest b stop p ps) : p ≤ stop := by
  cases h with
  | nil => exact le_refl _
  | cons hlt _ _ => exact hlt.le

/-- A chain that gets to the end has no descriptor of length zero. -/
theorem Passed.rest {ps qs : List ℕ} {p : ℕ} (h : Passed b stop ps p) (hrest : Rest b stop p qs) :
    Rest b stop 0 (ps ++ qs) := by
  induction h generalizing qs with
  | nil => exact hrest
  | @snoc ps p hpassed hmore hin hfits ih =>
      rw [List.append_assoc, List.singleton_append]
      by_cases hzero : bLength b p = 0
      · rw [hzero, Nat.add_zero] at hrest
        cases hrest with
        | nil => omega
        | cons _ hpos _ => omega
      · exact ih (.cons (by omega) (by omega) hrest)

/-- The search among the descriptors that are left. -/
def seek (b : ℕ → Byte) (ucType : Byte) : List ℕ → Option ℕ × List ℕ
  | [] => (none, [])
  | p :: ps =>
      if ucType = DESCRIPTOR_ENDPOINT ∧ bDescriptorType b p = DESCRIPTOR_INTERFACE then (none, p :: ps)
      else if bDescriptorType b p = ucType then (some p, ps)
      else seek b ucType ps

theorem search_rest (ucType : Byte) {p : ℕ} {ps : List ℕ} (h : Rest b stop p ps) {n : ℕ} (hn : stop - p < n) :
    ∃ next, runLoop (searchTurn b stop ucType) n p = some ((seek b ucType ps).1, next) ∧
      Rest b stop next (seek b ucType ps).2 := by
  induction h generalizing n with
  | nil =>
      obtain ⟨n, rfl⟩ : ∃ m, n = m + 1 := ⟨n - 1, by omega⟩
      exact ⟨stop, runLoop_inr (by simp [searchTurn, seek]), .nil⟩
  | @cons p ps hlt hpos hrest ih =>
      obtain ⟨n, rfl⟩ : ∃ m, n = m + 1 := ⟨n - 1, by omega⟩
      by_cases hbreak : ucType = DESCRIPTOR_ENDPOINT ∧ bDescriptorType b p = DESCRIPTOR_INTERFACE
      · refine ⟨p, runLoop_inr ?_, ?_⟩
        · simp [searchTurn, seek, hlt, hbreak]
        · rw [seek, if_pos hbreak]
          exact .cons hlt hpos hrest
      · by_cases htype : bDescriptorType b p = ucType
        · refine ⟨p + bLength b p, runLoop_inr ?_, ?_⟩
          · rw [searchTurn, if_pos hlt, if_neg hbreak, if_pos htype, seek, if_neg hbreak, if_pos htype]
          · rw [seek, if_neg hbreak, if_pos htype]
            exact hrest
        · have hle := hrest.le
          obtain ⟨next, hrun, hnext⟩ := ih (n := n) (by omega)
          have hturn : searchTurn b stop ucType p = .inl (p + bLength b p) := by
            rw [searchTurn, if_pos hlt, if_neg hbreak, if_neg htype]
          refine ⟨next, ?_, ?_⟩
          · rw [runLoop_inl hturn, hrun, seek, if_neg hbreak, if_neg htype]
          · rw [seek, if_neg hbreak, if_neg htype]
            exact hnext

/-- The parser is valid, and these descriptors are left. -/
structure Left (this : TUSBConfigurationParser) (ps : List ℕ) : Prop where
  valid : this.m_bValid = true
  rest : Rest this.m_pBuffer this.m_pEndPosition this.m_pNextPosition ps

/-- **`USBConfigurationParserGetDescriptor`** returns what the search among the descriptors finds. -/
theorem get_left {this : TUSBConfigurationParser} {ps : List ℕ} (h : Left this ps) (ucType : Byte) {n : ℕ}
    (hn : this.m_pEndPosition < n) :
    ∃ this', USBConfigurationParserGetDescriptor n this ucType = some ((seek this.m_pBuffer ucType ps).1, this') ∧
      Left this' (seek this.m_pBuffer ucType ps).2 ∧ this'.m_pBuffer = this.m_pBuffer ∧
      this'.m_pEndPosition = this.m_pEndPosition := by
  obtain ⟨next, hrun, hrest⟩ := search_rest ucType h.rest (n := n) (by omega)
  refine ⟨{ this with
    m_pNextPosition := next
    m_pErrorPosition := (seek this.m_pBuffer ucType ps).1.getD this.m_pErrorPosition
    m_pCurrentDescriptor := (seek this.m_pBuffer ucType ps).1 }, ?_, ⟨h.valid, hrest⟩, rfl, rfl⟩
  rw [USBConfigurationParserGetDescriptor, hrun]

/-- A parser that was found valid stands at the beginning of its chain. -/
theorem left_of_valid {n : ℕ} {this : TUSBConfigurationParser} (hrun : USBConfigurationParser n b nBufLen = some this)
    (hvalid : this.m_bValid = true) :
    ∃ ps, Left this ps ∧ this.m_pBuffer = b ∧ this.m_pEndPosition ≤ nBufLen ∧ this.m_pNextPosition = 0 := by
  by_cases h : Header b nBufLen
  · rw [parser_of_header h, Option.map_eq_some_iff] at hrun
    obtain ⟨r, hloop, rfl⟩ := hrun
    cases r with
    | error p => cases hvalid
    | ok s =>
        obtain ⟨ps, hps⟩ := passed_of_scan .nil hloop
        by_cases hend : s.pCurrentPosition ≠ (beforeLoop b nBufLen (wTotalLength b 0)).m_pEndPosition
        · rw [afterLoop, if_pos hend] at hvalid
          cases hvalid
        · have hsame : s.pCurrentPosition = wTotalLength b 0 := not_not.mp hend
          rw [hsame] at hps
          rw [afterLoop, if_neg hend]
          refine ⟨ps, ⟨rfl, ?_⟩, rfl, h.total, rfl⟩
          have hall := hps.rest .nil
          rw [List.append_nil] at hall
          exact hall
  · rw [parser_of_not_header h] at hrun
    cases hrun
    cases hvalid

theorem seek_suffix (b : ℕ → Byte) (ucType : Byte) (ps : List ℕ) : (seek b ucType ps).2 <:+ ps := by
  induction ps with
  | nil => exact ⟨[], rfl⟩
  | cons p ps ih =>
      rw [seek]
      split_ifs
      · exact ⟨[], rfl⟩
      · exact ⟨[p], rfl⟩
      · exact ih.trans ⟨[p], rfl⟩

theorem seek_some {ucType : Byte} {ps : List ℕ} {q : ℕ} (h : (seek b ucType ps).1 = some q) :
    bDescriptorType b q = ucType ∧ q :: (seek b ucType ps).2 <:+ ps := by
  induction ps with
  | nil => cases h
  | cons p ps ih =>
      by_cases hbreak : ucType = DESCRIPTOR_ENDPOINT ∧ bDescriptorType b p = DESCRIPTOR_INTERFACE
      · rw [seek, if_pos hbreak] at h
        cases h
      by_cases htype : bDescriptorType b p = ucType
      · rw [seek, if_neg hbreak, if_pos htype] at h ⊢
        cases h
        exact ⟨htype, [], rfl⟩
      · rw [seek, if_neg hbreak, if_neg htype] at h ⊢
        obtain ⟨hq, hsuffix⟩ := ih h
        exact ⟨hq, hsuffix.trans ⟨[p], rfl⟩⟩

/-- Calls one after another. -/
def getAll (n : ℕ) (this : TUSBConfigurationParser) : List Byte → Option (List (Option ℕ))
  | [] => some []
  | t :: ts =>
      match USBConfigurationParserGetDescriptor n this t with
      | none => none
      | some (r, this') => (getAll n this' ts).map (r :: ·)

/-- What the calls return, by the descriptors that are left. -/
def seekAll (b : ℕ → Byte) : List ℕ → List Byte → List (Option ℕ)
  | _, [] => []
  | ps, t :: ts => (seek b t ps).1 :: seekAll b (seek b t ps).2 ts

theorem getAll_left {this : TUSBConfigurationParser} {ps : List ℕ} (h : Left this ps) (types : List Byte) {n : ℕ}
    (hn : this.m_pEndPosition < n) : getAll n this types = some (seekAll this.m_pBuffer ps types) := by
  induction types generalizing this ps with
  | nil => rfl
  | cons t ts ih =>
      obtain ⟨this', hget, hleft, hbuffer, hend⟩ := get_left h t hn
      rw [getAll, hget]
      change Option.map _ (getAll n this' ts) = _
      rw [ih hleft (by rw [hend]; exact hn), hbuffer]
      rfl

theorem seekAll_sublist (b : ℕ → Byte) (ps : List ℕ) (types : List Byte) : (seekAll b ps types).reduceOption.Sublist ps := by
  induction types generalizing ps with
  | nil => exact List.nil_sublist ps
  | cons t ts ih =>
      rw [seekAll]
      have hrest := ih (seek b t ps).2
      cases hfound : (seek b t ps).1 with
      | none =>
          rw [List.reduceOption_cons_of_none]
          exact hrest.trans (seek_suffix b t ps).sublist
      | some q =>
          rw [List.reduceOption_cons_of_some]
          exact (hrest.cons_cons q).trans (seek_some hfound).2.sublist

theorem seekAll_types (b : ℕ → Byte) (ps : List ℕ) (types : List Byte) :
    List.Forall₂ (fun r t => ∀ q ∈ r, bDescriptorType b q = t) (seekAll b ps types) types := by
  induction types generalizing ps with
  | nil => exact .nil
  | cons t ts ih => exact .cons (fun q hq => (seek_some hq).1) (ih _)

/-- The descriptors stand one behind the other, inside of the buffer. -/
theorem Rest.apart {p : ℕ} {ps : List ℕ} (h : Rest b stop p ps) :
    ps.Pairwise (fun q q' => q + bLength b q ≤ q') ∧ ∀ q ∈ ps, p ≤ q ∧ q + bLength b q ≤ stop := by
  induction h with
  | nil => simp
  | @cons p ps hlt hpos hrest ih =>
      refine ⟨List.pairwise_cons.mpr ⟨fun q hq => (ih.2 q hq).1, ih.1⟩, List.forall_mem_cons.mpr ⟨⟨le_refl _, hrest.le⟩, ?_⟩⟩
      intro q hq
      exact ⟨by have := (ih.2 q hq).1; omega, (ih.2 q hq).2⟩

/-- **Descriptors are handed out in order**: whatever types are asked for, one after another, every call
to a valid parser returns, with null or with a descriptor of its type that lies in the buffer, behind
those handed out before. -/
theorem get_in_order {n : ℕ} {this : TUSBConfigurationParser} (hrun : USBConfigurationParser n b nBufLen = some this)
    (hvalid : this.m_bValid = true) (types : List Byte) :
    ∃ results, (∀ n, nBufLen < n → getAll n this types = some results) ∧
      List.Forall₂ (fun r t => ∀ q ∈ r, bDescriptorType b q = t) results types ∧
      results.reduceOption.Pairwise (fun q q' => q + bLength b q ≤ q') ∧
      ∀ q ∈ results.reduceOption, q + bLength b q ≤ nBufLen := by
  obtain ⟨ps, hleft, hbuffer, hend, -⟩ := left_of_valid hrun hvalid
  have hrest := hleft.rest
  rw [hbuffer] at hrest
  obtain ⟨hapart, hinside⟩ := hrest.apart
  have hsub := seekAll_sublist b ps types
  refine ⟨seekAll b ps types, fun n hn => ?_, seekAll_types b ps types, hapart.sublist hsub, fun q hq => ?_⟩
  · rw [getAll_left hleft types (by omega), hbuffer]
  · exact (hinside q (hsub.subset hq)).2.trans hend

/-- The configuration of a keyboard: an interface with an endpoint. -/
def keyboardConfiguration (k : ℕ) : Byte :=
  [9, 2, 25, 0, 1, 1, 0, 0xA0, 50, 9, 4, 0, 0, 1, 3, 1, 1, 0, 7, 5, 0x81, 3, 8, 0, 10].getD k 0

theorem get_in_order_keyboard :
    ∃ this results, USBConfigurationParser 4 keyboardConfiguration 25 = some this ∧
      getAll 26 this [5, 4, 5, 5] = some results ∧
      results.reduceOption.Pairwise (fun q q' => q + bLength keyboardConfiguration q ≤ q') := by
  obtain ⟨this, hrun, hvalid⟩ :
      ∃ this, USBConfigurationParser 4 keyboardConfiguration 25 = some this ∧ this.m_bValid = true := ⟨_, rfl, rfl⟩
  obtain ⟨results, hget, -, hpairwise, -⟩ := get_in_order hrun hvalid [5, 4, 5, 5]
  exact ⟨this, results, hrun, hget 26 (by decide), hpairwise⟩

/-! ## Interfaces and their endpoints -/

/-- Asks for one type until null is returned; each descriptor comes with the parser behind it.  `k` is a
number of calls. -/
def collect (n : ℕ) (ucType : Byte) : ℕ → TUSBConfigurationParser → Option (List (ℕ × TUSBConfigurationParser))
  | 0, _ => none
  | k + 1, this =>
      match USBConfigurationParserGetDescriptor n this ucType with
      | none => none
      | some (none, _) => some []
      | some (some p, this') => (collect n ucType k this').map ((p, this') :: ·)

/-- The endpoints before the next interface. -/
def ownEndpoints (b : ℕ → Byte) (ps : List ℕ) : List ℕ :=
  (ps.takeWhile (fun p => bDescriptorType b p ≠ DESCRIPTOR_INTERFACE)).filter
    (fun p => bDescriptorType b p = DESCRIPTOR_ENDPOINT)

/-- Each interface with its endpoints. -/
def sections (b : ℕ → Byte) : List ℕ → List (ℕ × List ℕ)
  | [] => []
  | p :: ps => if bDescriptorType b p = DESCRIPTOR_INTERFACE then (p, ownEndpoints b ps) :: sections b ps else sections b ps

/-- The interfaces of a device, and for each the endpoints that a copy of the parser hands out. -/
def enumerate (n : ℕ) (this : TUSBConfigurationParser) : Option (List (ℕ × List ℕ)) :=
  (collect n DESCRIPTOR_INTERFACE n this).bind fun interfaces =>
    interfaces.mapM fun c => (collect n DESCRIPTOR_ENDPOINT n c.2).map fun endpoints => (c.1, endpoints.map Prod.fst)

/-- What is collected, by the descriptors that are left: each descriptor with those behind it. -/
def seekEvery (b : ℕ → Byte) (ucType : Byte) : ℕ → List ℕ → List (ℕ × List ℕ)
  | 0, _ => []
  | k + 1, ps =>
      match seek b ucType ps with
      | (none, _) => []
      | (some p, ps') => (p, ps') :: seekEvery b ucType k ps'

theorem Rest.length_le {p : ℕ} {ps : List ℕ} (h : Rest b stop p ps) : ps.length ≤ stop - p := by
  induction h with
  | nil => simp
  | cons hlt hpos hrest ih =>
      rw [List.length_cons]
      omega

theorem collect_left {this : TUSBConfigurationParser} {ps : List ℕ} (h : Left this ps) (ucType : Byte) {n k : ℕ}
    (hn : this.m_pEndPosition < n) (hk : ps.length < k) :
    ∃ l, collect n ucType k this = some l ∧
      List.Forall₂ (fun c d => c.1 = d.1 ∧ Left c.2 d.2 ∧ c.2.m_pBuffer = this.m_pBuffer ∧
        c.2.m_pEndPosition = this.m_pEndPosition) l (seekEvery this.m_pBuffer ucType k ps) := by
  induction k generalizing this ps with
  | zero => cases hk
  | succ k ih =>
      obtain ⟨this', hget, hleft, hbuffer, hend⟩ := get_left h ucType hn
      rw [collect, hget, seekEvery]
      cases hfound : seek this.m_pBuffer ucType ps with
      | mk r ps' =>
          have hleft : Left this' ps' := by simpa [hfound] using hleft
          cases r with
          | none => exact ⟨[], rfl, .nil⟩
          | some p =>
              have hshort : ps'.length < ps.length := by
                have hsuffix := (seek_some (by rw [hfound])).2.length_le
                rw [hfound, List.length_cons] at hsuffix
                exact hsuffix
              obtain ⟨l, hcollect, hall⟩ := ih hleft (by rw [hend]; exact hn) (by omega)
              rw [hbuffer, hend] at hall
              exact ⟨(p, this') :: l, by simp [hcollect], .cons ⟨rfl, hleft, hbuffer, hend⟩ hall⟩

theorem seekEvery_cons {ucType : Byte} {p : ℕ} {ps : List ℕ} {k : ℕ}
    (hbreak : ¬(ucType = DESCRIPTOR_ENDPOINT ∧ bDescriptorType b p = DESCRIPTOR_INTERFACE)) :
    seekEvery b ucType (k + 1) (p :: ps) =
      if bDescriptorType b p = ucType then (p, ps) :: seekEvery b ucType k ps else seekEvery b ucType (k + 1) ps := by
  by_cases htype : bDescriptorType b p = ucType
  · rw [if_pos htype, seekEvery, seek, if_neg hbreak, if_pos htype]
  · rw [if_neg htype, seekEvery, seek, if_neg hbreak, if_neg htype, seekEvery]

theorem seekEvery_interface (b : ℕ → Byte) {k : ℕ} {ps : List ℕ} (hk : ps.length < k) :
    (seekEvery b DESCRIPTOR_INTERFACE k ps).map (fun d => (d.1, ownEndpoints b d.2)) = sections b ps := by
  have hnever : ∀ p, ¬(DESCRIPTOR_INTERFACE = DESCRIPTOR_ENDPOINT ∧ bDescriptorType b p = DESCRIPTOR_INTERFACE) :=
    fun p h => absurd h.1 (by decide)
  induction ps generalizing k with
  | nil => cases k <;> rfl
  | cons p ps ih =>
      rw [List.length_cons] at hk
      obtain ⟨k, rfl⟩ : ∃ j, k = j + 1 := ⟨k - 1, by omega⟩
      rw [seekEvery_cons (hnever p), sections]
      by_cases htype : bDescriptorType b p = DESCRIPTOR_INTERFACE
      · rw [if_pos htype, if_pos htype, List.map_cons, ih (by omega)]
      · rw [if_neg htype, if_neg htype, ih (by omega)]

theorem seekEvery_endpoint (b : ℕ → Byte) {k : ℕ} {ps : List ℕ} (hk : ps.length < k) :
    (seekEvery b DESCRIPTOR_ENDPOINT k ps).map Prod.fst = ownEndpoints b ps := by
  induction ps generalizing k with
  | nil => cases k <;> rfl
  | cons p ps ih =>
      rw [List.length_cons] at hk
      obtain ⟨k, rfl⟩ : ∃ j, k = j + 1 := ⟨k - 1, by omega⟩
      by_cases hinterface : bDescriptorType b p = DESCRIPTOR_INTERFACE
      · rw [seekEvery, seek, if_pos ⟨rfl, hinterface⟩]
        simp [ownEndpoints, hinterface]
      · rw [seekEvery_cons fun h => hinterface h.2]
        by_cases htype : bDescriptorType b p = DESCRIPTOR_ENDPOINT
        · have hother : ¬DESCRIPTOR_ENDPOINT = DESCRIPTOR_INTERFACE := by decide
          rw [if_pos htype, List.map_cons, ih (by omega)]
          simp [ownEndpoints, htype, hother]
        · rw [if_neg htype, ih (by omega)]
          simp [ownEndpoints, hinterface, htype]

theorem mapM_of_forall₂ {α β γ : Type} {f : α → Option γ} {g : β → γ} {l : List α} {ds : List β}
    (h : List.Forall₂ (fun c d => f c = some (g d)) l ds) : l.mapM f = some (ds.map g) := by
  induction h with
  | nil => rfl
  | cons hfirst _ ih => simp [List.mapM_cons, hfirst, ih]

/-- **Interfaces and their endpoints**: the enumeration of a device with a valid configuration ends.  It
finds each interface once, in order, and a copy of the parser that is made there hands out exactly the
endpoints that stand before the next interface. -/
theorem sections_enumerated {n : ℕ} {this : TUSBConfigurationParser} (hrun : USBConfigurationParser n b nBufLen = some this)
    (hvalid : this.m_bValid = true) :
    ∃ ps, Rest b this.m_pEndPosition 0 ps ∧ ∀ n, nBufLen < n → enumerate n this = some (sections b ps) := by
  obtain ⟨ps, hleft, hbuffer, hend, hnext⟩ := left_of_valid hrun hvalid
  have hrest := hleft.rest
  have hlength := hrest.length_le
  rw [hbuffer, hnext] at hrest
  refine ⟨ps, hrest, fun n hn => ?_⟩
  obtain ⟨l, hcollect, hall⟩ := collect_left hleft DESCRIPTOR_INTERFACE (n := n) (k := n) (by omega) (by omega)
  rw [enumerate, hcollect, Option.bind_some, ← seekEvery_interface b (k := n) (by omega), ← hbuffer]
  refine mapM_of_forall₂ (List.Forall₂.imp (fun c d h => ?_) hall)
  obtain ⟨hposition, hcopy, hsame, hstop⟩ := h
  have hshort := hcopy.rest.length_le
  obtain ⟨l', hcollect', hall'⟩ := collect_left hcopy DESCRIPTOR_ENDPOINT (n := n) (k := n) (by omega) (by omega)
  have hfirst : l'.map Prod.fst = (seekEvery this.m_pBuffer DESCRIPTOR_ENDPOINT n d.2).map Prod.fst := by
    have hsame' : List.Forall₂ (· = ·) (l'.map Prod.fst) ((seekEvery this.m_pBuffer DESCRIPTOR_ENDPOINT n d.2).map Prod.fst) := by
      rw [List.forall₂_map_left_iff, List.forall₂_map_right_iff, ← hsame]
      exact List.Forall₂.imp (fun _ _ h => h.1) hall'
    rwa [List.forall₂_eq_eq_eq] at hsame'
  rw [hcollect', Option.map_some, hfirst, seekEvery_endpoint _ (by omega), hposition]

theorem sections_enumerated_keyboard :
    ∃ this ps, USBConfigurationParser 4 keyboardConfiguration 25 = some this ∧
      enumerate 26 this = some (sections keyboardConfiguration ps) := by
  obtain ⟨this, hrun, hvalid⟩ :
      ∃ this, USBConfigurationParser 4 keyboardConfiguration 25 = some this ∧ this.m_bValid = true := ⟨_, rfl, rfl⟩
  obtain ⟨ps, -, henumerate⟩ := sections_enumerated hrun hvalid
  exact ⟨this, ps, hrun, henumerate 26 (by decide)⟩

end Pigfx.Usb
