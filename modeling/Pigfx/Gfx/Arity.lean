import Pigfx.Gfx.Sequence

/-!
# What a sequence reads of its parameters

The parameter array is never cleared: entries behind the current parameters keep
what earlier sequences left there.  The ANSI letters look at the count before
they read, most GSX handlers do not.  `gsxArity` is the number of parameters a
GSX call reads; as long as every call brings that many, what is left over in the
array is unobservable.

## Main definitions

* `ScnState.gsxArity` — the number of parameters a call reads.
* `ScnState.Agree` — scanners that differ behind the current parameters only.
* `Underfed` — a call that reads more parameters than it was given.
-/

namespace Pigfx
open Lib

/-! ## Arities -/

namespace ScnState

/-- What `gfx_escape` reads. -/
def escapeArity (st : ScnState) : ℕ :=
  match (st.param 1).toNat with
  | 11 => 4
  | 12 => 3 + (st.param 2).toNat
  | 18 => 4
  | _ => 2

/-- What `gfx_drawing_primitive` reads. -/
def primitiveArity (st : ScnState) : ℕ :=
  match (st.param 1).toNat with
  | 1 => 6
  | 2 => 7
  | 4 => 5
  | _ => 2

/-- What a GSX call reads, its opcode included.  Handlers that compare the count
themselves read nothing when they refuse. -/
def gsxArity (st : ScnState) : ℕ :=
  match (st.param 0).toNat with
  | OPC_OPEN_WORKSTATION => 11
  | OPC_ESCAPE => st.escapeArity
  | OPC_DRAW_POLYLINE =>
      if st.cmdParamsSize ≥ 6 then 2 * (st.param 1 - 1).toInt.toNat + 4 else 1
  | OPC_DRAW_POLYMARKER => 2 * (st.intParam 1).toNat + 2
  | OPC_DRAW_TEXT => 4 + (st.param 1).toNat
  | OPC_DRAW_FILLED_POLYGON =>
      if st.cmdParamsSize > 2 ∧ (st.param 1).toNat > 2 then 2 * (st.intParam 1).toNat + 2 else 1
  | OPC_DRAW_BITMAP => 4
  | OPC_DRAWING_PRIMITIVE => st.primitiveArity
  | OPC_TEXT_HEIGHT => 4
  | OPC_POLYLINE_LINETYPE | OPC_POLYLINE_LINEWIDTH | OPC_POLYLINE_COLOUR | OPC_POLYMARKER_TYPE
  | OPC_POLYMARKER_HEIGHT | OPC_POLYMARKER_COLOUR | OPC_TEXT_FONT | OPC_TEXT_COLOUR | OPC_FILL_STYLE
  | OPC_FILL_STYLE_INDEX | OPC_FILL_COLOUR | OPC_WRITING_MODE => 2
  | _ => 1

/-! ## Agreement -/

/-- Two scanners that differ at most behind the current parameters. -/
structure Agree (st st' : ScnState) : Prop where
  next : st.next = st'.next
  after : st.afterReadDigit = st'.afterReadDigit
  mode : st.privateModeChar = st'.privateModeChar
  size : st.cmdParamsSize = st'.cmdParamsSize
  params : ∀ i < st.cmdParamsSize, st.cmdParams i = st'.cmdParams i

variable {st st' : ScnState}

theorem Agree.param (h : st.Agree st') {i : ℕ} (hi : i < st.cmdParamsSize) :
    st.param i = st'.param i := by
  simp only [ScnState.param, h.size, h.after, h.params i hi]

theorem Agree.intParam (h : st.Agree st') {i : ℕ} (hi : i < st.cmdParamsSize) :
    st.intParam i = st'.intParam i := congrArg BitVec.toInt (h.param hi)

theorem Agree.lastParam (h : st.Agree st') : st.param st.lastIndex = st'.param st'.lastIndex := by
  have hi : st.lastIndex = st'.lastIndex := by rw [lastIndex, lastIndex, h.size]
  rw [← hi]
  by_cases h0 : st.cmdParamsSize = 0
  · have hw : st.lastIndex = 2 ^ 32 - 1 := by rw [lastIndex, h0]; rfl
    rw [hw, ScnState.param, ScnState.param, h.after]
    rfl
  · refine h.param ?_
    unfold lastIndex u32
    omega

end ScnState

open ScnState

/-! ## The scanner keeps agreement -/

section Scan
variable {st st' : ScnState}

theorem agree_setParam (h : st.Agree st') {i : ℕ} (hi : i ≠ CMD_PARAMS_LENGTH) (v : Word) :
    (st.setParam i v).Agree (st'.setParam i v) := by
  simp only [setParam]
  rw [if_neg hi, if_neg hi]
  split
  · exact ⟨h.next, rfl, h.mode, h.size, h.params⟩
  · refine ⟨h.next, h.after, h.mode, h.size, fun j hj => ?_⟩
    dsimp only
    split
    · rfl
    · exact h.params j hj

theorem agree_next (h : st.Agree st') (f : StateFun) :
    ({ st with next := f } : ScnState).Agree { st' with next := f } :=
  ⟨rfl, h.after, h.mode, h.size, h.params⟩

/-- Setting parameter zero makes the first parameter agree. -/
theorem agree_first (h : st.Agree st') (v : Word) (mode : Byte) :
    ({ { st with privateModeChar := mode, cmdParamsSize := 1 }.setParam 0 v with
        next := .readDigit } : ScnState).Agree
      { { st' with privateModeChar := mode, cmdParamsSize := 1 }.setParam 0 v with
        next := .readDigit } := by
  refine ⟨rfl, h.after, rfl, rfl, fun j hj => ?_⟩
  obtain rfl : j = 0 := Nat.lt_one_iff.mp hj
  rfl

theorem agree_pushParam (h : st.Agree st') (hr : st.Ready) : st.pushParam.Agree st'.pushParam := by
  have hf := hr.fits
  by_cases hlt : st.cmdParamsSize < CMD_PARAMS_LENGTH
  · rw [pushParam_of_lt hlt, pushParam_of_lt (h.size ▸ hlt)]
    refine ⟨rfl, h.after, h.mode, by simp [h.size], fun j hj => ?_⟩
    have hj' : j < st.cmdParamsSize + 1 := hj
    dsimp only
    rw [← h.size]
    split
    · rfl
    · exact h.params j (by omega)
  · -- the separator that overflows sets the counter to zero
    have h0 : st.pushParam.cmdParamsSize = 0 := by rw [size_pushParam hr, if_pos (by omega)]
    have hi : lastIndex { st with cmdParamsSize := st.cmdParamsSize + 1 } = CMD_PARAMS_LENGTH := by
      unfold lastIndex; rw [show st.cmdParamsSize = CMD_PARAMS_LENGTH by omega]; rfl
    have hi' : lastIndex { st' with cmdParamsSize := st'.cmdParamsSize + 1 } = CMD_PARAMS_LENGTH := by
      unfold lastIndex; rw [← h.size, show st.cmdParamsSize = CMD_PARAMS_LENGTH by omega]; rfl
    simp only [pushParam, hi, hi']
    exact ⟨rfl, h.after, h.mode, rfl, fun _ hj => absurd hj (Nat.not_lt_zero _)⟩

theorem agree_pushDigit (h : st.Agree st') (hr : st.Ready) (v : Word) :
    (st.pushDigit v).Agree (st'.pushDigit v) := by
  have hi : st.lastIndex = st'.lastIndex := by rw [lastIndex, lastIndex, h.size]
  simp only [pushDigit]
  rw [← h.lastParam, ← hi]
  exact agree_next (agree_setParam h (lastIndex_ne hr.fits) _) _

theorem agree_scanText (h : st.Agree st') (hr : st.Ready) (ch : Byte) :
    (scanText ch st).1.Agree (scanText ch st').1 := by
  simp only [scanText]
  rw [← h.next]
  cases hn : st.next with
  | normaltext =>
      simp only
      split
      · exact agree_next h _
      · exact h
  | waitsquarebracket =>
      have h0 := hr.idle (by simp [hn])
      simp only
      split
      · refine ⟨rfl, ?_, rfl, ?_, fun j hj => ?_⟩
        · simpa [setParam_of_lt (i := 0) (by decide)] using h.after
        · simpa [setParam_of_lt (i := 0) (by decide)] using h.size
        · simp [setParam_of_lt (i := 0) (by decide), h0] at hj
      · split
        · exact agree_next h _
        · exact agree_next h _
  | selectescape =>
      have hm := h.mode
      simp only
      split
      · have hf := agree_first h (digitValue ch) st.privateModeChar
        exact ⟨rfl, hf.after, hm, rfl, hf.params⟩
      · split
        · refine ⟨rfl, h.after, hm, rfl, fun j hj => ?_⟩
          have hj2 : j < 2 := hj
          interval_cases j <;> rfl
        · split
          · exact agree_first h 0 ch
          · exact ⟨rfl, h.after, hm, rfl, fun _ hj => absurd hj (Nat.not_lt_zero _)⟩
  | readDigit =>
      simp only
      split
      · exact agree_pushDigit h hr _
      · split
        · exact agree_pushDigit h hr _
        · split
          · exact agree_pushParam h hr
          · exact ⟨rfl, h.after, h.mode, rfl, fun _ hj => absurd hj (Nat.not_lt_zero _)⟩
  | altCharset => exact agree_next h _

end Scan

/-! ## Handlers read no more than their arity -/

section Handlers
variable {st st' : ScnState} (h : st.Agree st') (b : Build) (g : Gfx)
include h

theorem gfxOpenWorkstation_agree (hn : 11 ≤ st.cmdParamsSize) :
    gfxOpenWorkstation b st g = gfxOpenWorkstation b st' g := by
  have hp : ∀ i < 11, st.intParam i = st'.intParam i := fun i hi => h.intParam (by omega)
  have ho : ∀ gsx : GsxState, gsx.opened st = gsx.opened st' := fun gsx => by
    simp only [GsxState.opened, hp 1 (by omega), hp 2 (by omega), hp 3 (by omega), hp 4 (by omega),
      hp 5 (by omega), hp 6 (by omega), hp 7 (by omega), hp 8 (by omega), hp 9 (by omega),
      hp 10 (by omega)]
  simp only [gfxOpenWorkstation, ho]

theorem gfxEscape_agree (h0 : 0 < st.cmdParamsSize) (hn : st.escapeArity ≤ st.cmdParamsSize) :
    gfxEscape b st g = gfxEscape b st' g := by
  have h2 : 2 ≤ st.escapeArity := by unfold escapeArity; split <;> omega
  have h1 : st.param 1 = st'.param 1 := h.param (by omega)
  simp only [gfxEscape]
  rw [← h1]
  unfold escapeArity at hn
  split
  · rfl
  · rfl
  · rfl
  · rfl
  · rfl
  · rfl
  · rfl
  · rfl
  · rfl
  · rename_i heq
    simp only [heq] at hn
    rw [h.param (i := 2) (by omega), h.param (i := 3) (by omega)]
  · rename_i heq
    simp only [heq] at hn
    rw [← h.param (i := 2) (by omega)]
    exact iterate_congr _ _ _ _ fun i x hi => by rw [h.param (i := 3 + i) (by omega)]
  · rfl
  · rfl
  · rename_i heq
    simp only [heq] at hn
    rw [h.intParam (i := 2) (by omega), h.intParam (i := 3) (by omega)]
  · rfl
  · rfl

theorem gfxDrawPolyline_agree (hs : 6 ≤ st.cmdParamsSize)
    (hn : 2 * (st.param 1 - 1).toInt.toNat + 4 ≤ st.cmdParamsSize) :
    gfxDrawPolyline st g = gfxDrawPolyline st' g := by
  have h1 : st.param 1 = st'.param 1 := h.param (by omega)
  refine Gfx.draw_congr (fun m => ?_) g
  rw [← h1]
  refine iterate_congr _ _ _ _ fun k x hk => ?_
  rw [h.intParam (i := 2 * k + 2) (by omega), h.intParam (i := 2 * k + 3) (by omega),
    h.intParam (i := 2 * k + 4) (by omega), h.intParam (i := 2 * k + 5) (by omega)]

theorem gfxDrawPolymarkers_agree (hn : 2 * (st.intParam 1).toNat + 2 ≤ st.cmdParamsSize) :
    gfxDrawPolymarkers b st g = gfxDrawPolymarkers b st' g := by
  have h1 : st.intParam 1 = st'.intParam 1 := h.intParam (by omega)
  refine Gfx.draw_congr (fun m => ?_) g
  rw [← h1]
  refine iterate_congr _ _ _ _ fun i x hi => ?_
  rw [h.intParam (i := i + i + 2) (by omega), h.intParam (i := i + i + 3) (by omega)]

theorem gfxDrawText_agree (hn : 4 + (st.param 1).toNat ≤ st.cmdParamsSize) :
    gfxDrawText st g = gfxDrawText st' g := by
  have h1 : st.param 1 = st'.param 1 := h.param (by omega)
  refine Gfx.draw_congr (fun m => congrArg Prod.snd ?_) g
  rw [← h1, ← h.intParam (i := 2) (by omega), ← h.intParam (i := 3) (by omega)]
  refine iterate_congr _ _ _ _ fun i x hi => ?_
  rw [h.param (i := i + 4) (by omega)]

omit h in
/-- The fill looks at the vertices up to the repeated one. -/
theorem fillPolygon_congr {n : ℕ} {xin xin' yin yin' : ℕ → ℤ}
    (hx : ∀ i < n, xin i = xin' i ∧ xin (i + 1) = xin' (i + 1))
    (hy : ∀ i < n, yin i = yin' i ∧ yin (i + 1) = yin' (i + 1)) :
    fillPolygon b n xin yin g = fillPolygon b n xin' yin' g := by
  have hline : ∀ m, iterate n (fun i => gfxLine g.ctx (xin i) (yin i) (xin (i + 1)) (yin (i + 1))
        (toCol g.gsx.fillColour)) m =
      iterate n (fun i => gfxLine g.ctx (xin' i) (yin' i) (xin' (i + 1)) (yin' (i + 1))
        (toCol g.gsx.fillColour)) m :=
    fun m => iterate_congr _ _ _ _ fun i m hi => by
      rw [(hx i hi).1, (hx i hi).2, (hy i hi).1, (hy i hi).2]
  have hmin : iterate n (fun i ymin => if yin i < ymin then yin i else ymin) GSX_MAX_NDC =
      iterate n (fun i ymin => if yin' i < ymin then yin' i else ymin) GSX_MAX_NDC :=
    iterate_congr _ _ _ _ fun i _ hi => by rw [(hy i hi).1]
  have hmax : iterate n (fun i ymax => if yin i > ymax then yin i else ymax) 0 =
      iterate n (fun i ymax => if yin' i > ymax then yin' i else ymax) 0 :=
    iterate_congr _ _ _ _ fun i _ hi => by rw [(hy i hi).1]
  have hcross : ∀ y, polygonCrossings b xin yin n y = polygonCrossings b xin' yin' n y :=
    fun y => iterate_congr _ _ _ _ fun i s hi => by
      rw [(hx i hi).1, (hx i hi).2, (hy i hi).1, (hy i hi).2]
  simp only [fillPolygon, Gfx.draw_congr hline, hmin, hmax, hcross]

theorem gfxFilledPolygon_agree (hs : 2 < st.cmdParamsSize)
    (hn : 2 * (st.intParam 1).toNat + 2 ≤ st.cmdParamsSize) :
    gfxFilledPolygon b st g = gfxFilledPolygon b st' g := by
  have h1 : st.intParam 1 = st'.intParam 1 := h.intParam (by omega)
  simp only [gfxFilledPolygon]
  rw [← h1]
  refine fillPolygon_congr b g (fun i hi => ?_) (fun i hi => ?_)
  · rw [if_neg (by omega), if_neg (by omega), h.intParam (i := 2 * i + 2) (by omega)]
    split
    · exact ⟨rfl, h.intParam (by omega)⟩
    · exact ⟨rfl, h.intParam (by omega)⟩
  · rw [if_neg (by omega), if_neg (by omega), h.intParam (i := 2 * i + 3) (by omega)]
    split
    · exact ⟨rfl, h.intParam (by omega)⟩
    · exact ⟨rfl, h.intParam (by omega)⟩

theorem gfxDrawBitmap_agree (hn : 4 ≤ st.cmdParamsSize) :
    gfxDrawBitmap st g = gfxDrawBitmap st' g := by
  unfold gfxDrawBitmap
  rw [← h.intParam (i := 1) (by omega), ← h.intParam (i := 2) (by omega),
    ← h.intParam (i := 3) (by omega), ← h.size]
  dsimp only
  split
  · rename_i hw
    refine congrArg (·, true) (Gfx.draw_congr (fun m => iterate_congr _ _ _ _ fun x m hx => ?_) g)
    -- the count admits exactly the pixels it announces
    have hr := (st.param 3).isLt
    have hi : st.intParam 3 < 2 ^ 31 := BitVec.toInt_lt
    rw [u32_of_nonneg (by omega) (by omega)] at hw
    rw [h.param (i := 4 + x) (by omega)]
  · rfl

theorem gfxDrawingPrimitive_agree (h0 : 0 < st.cmdParamsSize)
    (hn : st.primitiveArity ≤ st.cmdParamsSize) :
    gfxDrawingPrimitive b st g = gfxDrawingPrimitive b st' g := by
  have h2 : 2 ≤ st.primitiveArity := by unfold primitiveArity; split <;> omega
  have h1 : st.param 1 = st'.param 1 := h.param (by omega)
  simp only [gfxDrawingPrimitive]
  rw [← h1]
  unfold primitiveArity at hn
  split
  · rename_i heq
    simp only [heq] at hn
    rw [h.intParam (i := 2) (by omega), h.intParam (i := 3) (by omega),
      h.intParam (i := 4) (by omega), h.intParam (i := 5) (by omega)]
  · rename_i heq
    simp only [heq] at hn
    rw [h.intParam (i := 2) (by omega), h.intParam (i := 3) (by omega),
      h.intParam (i := 4) (by omega), h.intParam (i := 5) (by omega),
      h.intParam (i := 6) (by omega)]
  · rename_i heq
    simp only [heq] at hn
    rw [h.intParam (i := 2) (by omega), h.intParam (i := 3) (by omega),
      h.intParam (i := 4) (by omega)]
  · rfl

theorem gsxCommand_agree (h0 : 0 < st.cmdParamsSize) (hn : st.gsxArity ≤ st.cmdParamsSize) :
    gsxCommand b st g = gsxCommand b st' g := by
  have hop : st.param 0 = st'.param 0 := h.param h0
  simp only [gsxCommand]
  rw [← hop, ← h.size]
  unfold gsxArity at hn
  split <;> rename_i heq
  · simp only [heq] at hn
    rw [gfxOpenWorkstation_agree h b g hn]
  · rfl
  · rfl
  · rfl
  · simp only [heq] at hn
    rw [gfxEscape_agree h b g h0 hn]
  · simp only [heq] at hn
    split
    · rename_i hs
      rw [if_pos hs] at hn
      rw [gfxDrawPolyline_agree h g hs hn]
    · rfl
  · simp only [heq] at hn
    rw [gfxDrawPolymarkers_agree h b g hn]
  · simp only [heq] at hn
    rw [gfxDrawText_agree h g hn]
  · simp only [heq] at hn
    by_cases hs : st.cmdParamsSize > 2
    · rw [← h.param (i := 1) (by omega)]
      split
      · rename_i hc
        rw [if_pos hc] at hn
        rw [gfxFilledPolygon_agree h b g hs hn]
      · rfl
    · rw [if_neg (fun hc => hs hc.1), if_neg (fun hc => hs hc.1)]
  · simp only [heq] at hn
    exact gfxDrawBitmap_agree h g hn
  · simp only [heq] at hn
    rw [gfxDrawingPrimitive_agree h b g h0 hn]
  · simp only [heq] at hn
    rw [gfxSetTextHeight, gfxSetTextHeight, h.intParam (i := 1) (by omega),
      h.intParam (i := 2) (by omega), h.intParam (i := 3) (by omega)]
  · split
    · rw [gfxSetTextDirection, gfxSetTextDirection, h.intParam (i := 1) (by omega)]
    · rfl
  all_goals first | rfl | (simp only [heq] at hn; rw [h.intParam (i := 1) (by omega)])

end Handlers

/-! ## Final letters -/

section Letters
variable {st st' : ScnState} (h : st.Agree st') (b : Build)
include h

theorem countParam_agree : st.countParam = st'.countParam := by
  simp only [countParam]
  rw [← h.size]
  split
  · exact h.intParam (by omega)
  · rfl

theorem sgrLoop_agree (fuel i : ℕ) (c : Ctx) : sgrLoop st fuel i c = sgrLoop st' fuel i c := by
  induction fuel generalizing i c with
  | zero => rfl
  | succ fuel ih =>
      rw [sgrLoop, sgrLoop, ← h.size]
      by_cases hi : i < st.cmdParamsSize
      · rw [if_pos hi, if_pos hi, h.param hi, h.intParam hi, ih, ih, ih]
        by_cases hi2 : i + 2 < st.cmdParamsSize
        · rw [h.param (i := i + 1) (by omega), h.param hi2]
        · simp only [hi2, false_and, if_false]
      · rw [if_neg hi, if_neg hi]

theorem isCursorMode_agree : st.isCursorMode = st'.isCursorMode := by
  simp only [isCursorMode]
  rw [← h.mode, ← h.size]
  by_cases hs : st.cmdParamsSize = 1
  · rw [h.param (i := 0) (by omega)]
  · simp only [hs, false_and, and_false]

theorem eraseDisplay_agree (g : Gfx) : eraseDisplay b st g = eraseDisplay b st' g := by
  simp only [eraseDisplay]
  rw [← h.size]
  by_cases hs : st.cmdParamsSize ≥ 1
  · rw [if_pos hs, if_pos hs, h.param (i := 0) (by omega)]
  · rw [if_neg hs, if_neg hs]

theorem eraseLine_agree (g : Gfx) : eraseLine b st g = eraseLine b st' g := by
  simp only [eraseLine]
  rw [← h.size]
  by_cases hs : st.cmdParamsSize = 1
  · rw [h.param (i := 0) (by omega)]
  · simp only [hs, if_false]

theorem ansiAction_agree (ch : Byte) (g : Gfx) : ansiAction b ch st g = ansiAction b ch st' g := by
  have hrow : (if st.cmdParamsSize < 1 then 1 else (st.param 0).toNat) =
      if st.cmdParamsSize < 1 then 1 else (st'.param 0).toNat := by
    split
    · rfl
    · rw [h.param (i := 0) (by omega)]
  have hcol : (if st.cmdParamsSize < 2 then 1 else (st.param 1).toNat) =
      if st.cmdParamsSize < 2 then 1 else (st'.param 1).toNat := by
    split
    · rfl
    · rw [h.param (i := 1) (by omega)]
  have h0 : st.cmdParamsSize = 0 ∨ st.param 0 = st'.param 0 :=
    (Nat.eq_zero_or_pos _).imp_right fun hp => h.param hp
  simp only [ansiAction]
  simp only [isCursorMode_agree h, countParam_agree h, eraseLine_agree h b, eraseDisplay_agree h b,
    Ctx.selectGraphicRendition, sgrLoop_agree h, hrow, hcol, ← h.size]
  rcases h0 with h0 | h0
  · simp only [h0, true_or, if_true, if_false, Nat.zero_ne_one]
  · simp only [h0]

theorem gsxCall_agree (g : Gfx) (hn : 0 < st.cmdParamsSize → st.gsxArity ≤ st.cmdParamsSize) :
    gsxCall b st g = gsxCall b st' g := by
  simp only [gsxCall]
  rw [← h.size]
  split
  · rename_i hs
    rw [gsxCommand_agree h b g hs (hn hs)]
  · rfl

/-- A call with as many parameters as it reads acts alike on agreeing scanners. -/
theorem finalLetterAction_agree (ch : Byte) (g : Gfx)
    (hn : st.privateModeChar = chr '#' ∧ ch = chr 'G' → 0 < st.cmdParamsSize →
      st.gsxArity ≤ st.cmdParamsSize) :
    finalLetterAction b ch st g = finalLetterAction b ch st' g := by
  simp only [finalLetterAction]
  simp only [← h.mode, ansiAction_agree h b, ← h.size]
  split
  · rename_i hG
    exact gsxCall_agree h b g (hn hG)
  · rcases Nat.lt_trichotomy st.cmdParamsSize 1 with hs | hs | hs
    · simp only [show st.cmdParamsSize = 0 by omega, Nat.zero_ne_one, OfNat.zero_ne_ofNat, false_and,
        if_false]
    · simp only [hs, h.param (i := 0) (by omega), OfNat.one_ne_ofNat, false_and, if_false]
    · simp only [h.param (i := 0) (by omega), h.param (i := 1) hs]

end Letters

/-! ## Bytes and runs -/

/-- The byte makes a GSX call that reads more parameters than it was given. -/
def Underfed (st : ScnState) (ch : Byte) : Prop :=
  st.next = .readDigit ∧ st.privateModeChar = chr '#' ∧ ch = chr 'G' ∧ 0 < st.cmdParamsSize ∧
    st.cmdParamsSize < st.gsxArity

instance (st : ScnState) (ch : Byte) : Decidable (Underfed st ch) :=
  inferInstanceAs (Decidable (_ ∧ _ ∧ _ ∧ _ ∧ _))

/-- Two terminals that differ at most behind the current parameters. -/
structure Term.Agree (t t' : Term) : Prop where
  g : t.g = t'.g
  scn : t.scn.Agree t'.scn
  ready : t.scn.Ready

theorem dispatch_agree {t t' : Term} (h : t.Agree t') (b : Build) (ch : Byte)
    (hn : ¬Underfed t.scn ch) : (dispatch b ch t).g = (dispatch b ch t').g := by
  have hg := h.g
  simp only [dispatch]
  rw [← h.scn.next]
  cases hst : t.scn.next with
  | normaltext =>
      simp only [stateFunNormaltext, hg]
      split <;> rfl
  | waitsquarebracket =>
      simp only [stateFunWaitsquarebracket, Term.note, hg]
      split
      · rfl
      · split <;> rfl
  | selectescape =>
      have hlet := finalLetterAction_agree h.scn b ch t'.g fun _ hs => by
        have := h.ready.idle (by simp [hst]); omega
      simp only [stateFunSelectescape, stateFunFinalLetter, Term.note, hg]
      split
      · rfl
      · split
        · rfl
        · split
          · rfl
          · exact hlet
  | readDigit =>
      have hlet := finalLetterAction_agree h.scn b ch t'.g fun hG hs => by
        by_contra hlt
        exact hn ⟨hst, hG.1, hG.2, hs, by omega⟩
      simp only [stateFunReadDigit, stateFunFinalLetter, Term.note, hg]
      split
      · rfl
      · split
        · rfl
        · split
          · rfl
          · exact hlet
  | altCharset => simp only [stateFunAltCharset, hg]

theorem putByte_agree {t t' : Term} (h : t.Agree t') (b : Build) (ch : Byte)
    (hn : ¬Underfed t.scn ch) : (putByte b ch t).Agree (putByte b ch t') := by
  refine ⟨?_, ?_, ready_putByte b ch h.ready⟩
  · have hact : (byteAction b ch { t with g := t.g.draw dmaWait }).g =
        (byteAction b ch { t' with g := t'.g.draw dmaWait }).g := by
      simp only [byteAction]
      split
      · simp only [h.g]
      · have hwait : Term.Agree { t with g := t.g.draw dmaWait } { t' with g := t'.g.draw dmaWait } :=
          ⟨by simp only [h.g], h.scn, h.ready⟩
        exact dispatch_agree hwait b ch hn
    simp only [putByte, hact]
  · rw [putByte_scn, putByte_scn]
    simp only [scan]
    split
    · exact h.scn
    · exact agree_scanText h.scn h.ready ch

/-- **Leftover parameters are unobservable in fed runs.**  If every GSX call of the
stream brings the parameters it reads, two terminals without pending parameters that
differ in the contents of `cmd_params` end with the same picture, cursor, attributes,
GSX state and output. -/
theorem leftover_unobservable (b : Build) (t : Term) (hs : t.scn.cmdParamsSize = 0)
    (leftover : ℕ → Word) (strs : List (List Byte))
    (hfed : Along (fun t ch => putByte b ch t) (fun t ch => ¬Underfed t.scn ch) t (streamOf strs)) :
    (strs.foldl (fun t str => gfxTermPutstring b str t) t).g =
      (strs.foldl (fun t str => gfxTermPutstring b str t)
        { t with scn := { t.scn with cmdParams := leftover } }).g := by
  have hstart : t.Agree { t with scn := { t.scn with cmdParams := leftover } } :=
    ⟨rfl, ⟨rfl, rfl, rfl, rfl, fun i hi => by omega⟩,
      ⟨fun _ => hs, hs ▸ Nat.zero_le _⟩⟩
  rw [putstrings_eq, putstrings_eq]
  have hend := hfed.relation (R := Term.Agree) (g := fun t ch => putByte b ch t)
    (fun _ _ ch h hf => putByte_agree h b ch hf) hstart
  exact hend.g

/-- A GSX call with its parameter, and an ANSI sequence without one. -/
theorem leftover_unobservable_home :
    let t := Term.start .shipped 0 640 480 640 307200 (fun _ => 0)
    let strs := [text "\x1b[#15;3G\x1b[H"]
    (strs.foldl (fun t str => gfxTermPutstring .shipped str t) t).g =
      (strs.foldl (fun t str => gfxTermPutstring .shipped str t)
        { t with scn := { t.scn with cmdParams := fun _ => 7 } }).g := by
  exact leftover_unobservable .shipped _ rfl (fun _ => 7) _
    ((along_scn _ (fun st ch => ¬Underfed st ch) _ _).mpr (by decide))

/-- `ESC [ # 15 G` sets the line style to what an earlier sequence left behind. -/
theorem leftover_observed :
    ¬∀ (b : Build) (t : Term), t.scn.next = .normaltext → t.scn.cmdParamsSize = 0 →
      ∀ (leftover : ℕ → Word) (strs : List (List Byte)),
        Along (fun t ch => putByte b ch t) (fun t ch => ¬SeparatorOverflow t.scn ch) t
          (streamOf strs) →
        (strs.foldl (fun t str => gfxTermPutstring b str t) t).g =
          (strs.foldl (fun t str => gfxTermPutstring b str t)
            { t with scn := { t.scn with cmdParams := leftover } }).g := by
  intro h
  have heq := h .shipped (.static fun _ => 0) rfl rfl (fun _ => 7) [text "\x1b[#15G"]
    ((along_scn _ (fun st ch => ¬SeparatorOverflow st ch) _ _).mpr (by decide))
  have hstyle := congrArg (fun g => g.gsx.lineStyle) heq
  revert hstyle
  decide

end Pigfx
