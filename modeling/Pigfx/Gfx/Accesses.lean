import Pigfx.Lib.Channel
import Pigfx.Gfx.Gsx

/-!
# Who draws

The drawing routines fall into two kinds.  Characters, lines, pixels and the moves of
`ESC [ L` and `ESC [ M` are loops of the processor; clearing, filling and the scroll
prepare a transfer and start it.

## Main definitions

* `cpu_gfxPutc`, `cpu_gfxLine`, .. — one theorem for each routine of the processor.
* `opening_dmaExecuteQueue`, `opening_gfxClear`, `opening_gfxFillRect` — transfers.
* `round_gfxTermRenderCursor` — rendering waits first.
-/

namespace Pigfx
open Lib

/-! ## The processor -/

section Cpu
variable (b : Build) (c : Ctx) (gsx : GsxState) (clr : GfxCol) (m : Bus)

theorem cpu_put32_pair (a : ℤ) (v w : Word) : m.Cpu ((m.put32 a v).put32 (a + 4) w) :=
  (Bus.Cpu.put32 a v m).trans (.put32 _ _ _)

theorem cpu_gfxPutc (row col : ℕ) (ch : Byte) : m.Cpu (gfxPutc c row col ch m) := by
  refine .ite (.refl m) (.ite (.refl m) ?_)
  exact Bus.Cpu.iterate _ (fun _ x => cpu_put32_pair x _ _ _) m

theorem cpu_gfxDeleteLines (row n : ℕ) : m.Cpu (gfxDeleteLines c row n m) :=
  (Bus.Cpu.copyUp _ _ _ m).trans (.fillWords _ _ _ _)

theorem cpu_gfxInsertLines (row n : ℕ) : m.Cpu (gfxInsertLines c row n m) :=
  (Bus.Cpu.copyDown _ _ _ m).trans (.fillWords _ _ _ _)

/-! ### Lines and pixels -/

theorem cpu_lineLoop (deltax deltay major minor : ℤ) (nr : ℕ) (pfb error : ℤ) :
    m.Cpu (lineLoop deltax deltay major minor clr nr pfb error m) := by
  induction nr generalizing pfb error m with
  | zero => exact .refl m
  | succ nr ih =>
      have hput := Bus.Cpu.put8 pfb clr m
      exact .ite (hput.trans (ih _ _ _)) (hput.trans (ih _ _ _))

theorem cpu_gfxLine (x0 y0 x1 y1 : ℤ) : m.Cpu (gfxLine c x0 y0 x1 y1 clr m) :=
  .ite (cpu_lineLoop _ m _ _ _ _ _ _ _) (cpu_lineLoop _ m _ _ _ _ _ _ _)

theorem cpu_gfxPixel (x y : ℤ) : m.Cpu (gfxPixel c x y clr m) := .ite (.put8 _ _ m) (.refl m)

theorem cpu_pixelSpan (x0 x1 y : ℤ) (p : ℤ → Bool) : m.Cpu (pixelSpan c x0 x1 y clr p m) :=
  Bus.Cpu.iterate _ (fun _ x => .ite (cpu_gfxPixel c clr x _ _) (.refl x)) m

theorem cpu_gfxFilledHline (x0 x1 y : ℤ) : m.Cpu (gfxFilledHline c gsx x0 x1 y clr m) := by
  have hspan := cpu_pixelSpan c clr m x0 x1 y
  have hline := cpu_gfxLine c clr m x0 y x1 y
  unfold gfxFilledHline
  dsimp only
  split
  · exact .refl m
  · exact hline
  · split <;> first | exact .refl m | exact hline | exact hspan _
  · split <;> first | exact .refl m | exact hspan _ | exact .ite hline (.refl m) | exact .ite hline (hspan _)
  · exact .refl m

/-! ### Circles and arcs -/

theorem cpu_midpointLoop {plot : ℤ → ℤ → Bus → Bus} (hplot : ∀ x y (m : Bus), m.Cpu (plot x y m)) (n : ℕ)
    (f ddFx ddFy x y : ℤ) : m.Cpu (midpointLoop plot n f ddFx ddFy x y m) := by
  induction n generalizing m f ddFx ddFy x y with
  | zero => exact .refl m
  | succ n ih => exact .ite ((hplot _ _ m).trans (ih _ _ _ _ _ _)) (.refl m)

theorem cpu_gfxCircle (x0 y0 r : ℤ) (filled : Bool) : m.Cpu (gfxCircle c gsx x0 y0 r clr filled m) := by
  have hpixel := cpu_gfxPixel c clr
  have hhline : ∀ (x : Bus) x0 x1 y, x.Cpu (if filled then gfxFilledHline c gsx x0 x1 y clr x else x) :=
    fun x _ _ _ => .ite (cpu_gfxFilledHline c gsx clr x _ _ _) (.refl x)
  refine Bus.Cpu.trans ?_ (cpu_midpointLoop _ (fun x y m => ?_) _ _ _ _ _ _)
  · exact ((((hpixel m _ _).trans (hpixel _ _ _)).trans (hpixel _ _ _)).trans (hpixel _ _ _)).trans (hhline _ _ _ _)
  · have hpixels := (((hpixel m (x0 + x) (y0 + y)).trans (hpixel _ (x0 - x) (y0 + y))).trans
      (hpixel _ (x0 + x) (y0 - y))).trans (hpixel _ (x0 - x) (y0 - y))
    have hmirrored := (((hpixels.trans (hpixel _ (x0 + y) (y0 + x))).trans (hpixel _ (x0 - y) (y0 + x))).trans
      (hpixel _ (x0 + y) (y0 - x))).trans (hpixel _ (x0 - y) (y0 - x))
    exact (((hmirrored.trans (hhline _ _ _ _)).trans (hhline _ _ _ _)).trans (hhline _ _ _ _)).trans
      (hhline _ _ _ _)

theorem cpu_gfxDrawArcPoint (x0 y0 x y a0 a1 : ℤ) : m.Cpu (gfxDrawArcPoint b c x0 y0 x y a0 a1 clr m) := by
  have hpoint : ∀ (m : Bus) a px py, m.Cpu (if a0 ≤ a ∧ a ≤ a1 then gfxPixel c px py clr m else m) :=
    fun m _ _ _ => .ite (cpu_gfxPixel c clr m _ _) (.refl m)
  refine .ite ?_ (.refl m)
  -- the four points of the right half, and the four of the left half
  refine .trans (.trans (.trans (.trans ?_ (hpoint _ _ _ _)) (hpoint _ _ _ _)) (hpoint _ _ _ _)) (hpoint _ _ _ _)
  exact (((hpoint m _ _ _).trans (hpoint _ _ _ _)).trans (hpoint _ _ _ _)).trans (hpoint _ _ _ _)

theorem cpu_gfxDrawArc (x0 y0 r arcS arcE : ℤ) : m.Cpu (gfxDrawArc b c x0 y0 r arcS arcE clr m) :=
  (cpu_gfxDrawArcPoint b c clr m _ _ _ _ _ _).trans
    (cpu_midpointLoop _ (fun _ _ x => cpu_gfxDrawArcPoint b c clr x _ _ _ _ _ _) _ _ _ _ _ _)

/-! ### Markers, glyphs, polygons -/

theorem cpu_drawMarker (x y : ℤ) : m.Cpu (drawMarker b c gsx x y m) := by
  have hline := cpu_gfxLine c (toCol gsx.markerColour)
  rw [drawMarker]
  dsimp only
  split
  · exact cpu_gfxPixel c _ m _ _
  · exact (hline m _ _ _ _).trans (hline _ _ _ _ _)
  · exact (((hline m _ _ _ _).trans (hline _ _ _ _ _)).trans (hline _ _ _ _ _)).trans (hline _ _ _ _ _)
  · exact cpu_gfxCircle c gsx _ m _ _ _ _
  · exact (hline m _ _ _ _).trans (hline _ _ _ _ _)
  · exact .refl m

theorem cpu_drawGlyph (ch : Byte) (x y : ℤ) : m.Cpu (drawGlyph c gsx ch x y m) := by
  refine Bus.Cpu.iterate _ (fun yy m => Bus.Cpu.iterate _ (fun xx m => ?_) m) m
  refine .ite (.refl m) (.ite (cpu_gfxPixel c _ m _ _) ?_)
  exact Bus.Cpu.iterate _ (fun i m => Bus.Cpu.iterate _ (fun j m => cpu_gfxPixel c _ m _ _) m) m

theorem cpu_fillSpans (n : ℕ) (xi : ℕ → ℤ) (y : ℤ) :
    m.Cpu (iterate n (fun i => gfxFilledHline c gsx (xi (2 * i)) (xi (2 * i + 1)) y clr) m) :=
  Bus.Cpu.iterate _ (fun _ x => cpu_gfxFilledHline c gsx clr x _ _ _) m

/-! ### The graphic cursor -/

theorem cpu_xorPixel (a : ℤ) : m.Cpu (xorPixel a m) := (Bus.Cpu.note (e := .cpuRead a 1) rfl m).trans (.put8 _ _ _)

theorem cpu_gfxReadRect (ulx uly w h : ℤ) (p : Pix) : p.bus.Cpu (gfxReadRect c ulx uly w h p).bus := by
  refine iterate_induction _ _ _ (fun _ (q : Pix) => p.bus.Cpu q.bus) (.refl _) fun y q _ hq => ?_
  refine iterate_induction _ _ _ (fun _ (q : Pix) => p.bus.Cpu q.bus) hq fun x r _ hr => ?_
  exact hr.trans (.note rfl _)

theorem cpu_gfxWriteRect (ulx uly w h : ℤ) (p : Pix) : p.bus.Cpu (gfxWriteRect c ulx uly w h p).bus :=
  Bus.Cpu.iterate _ (fun _ x => Bus.Cpu.iterate _ (fun _ x => .put8 _ _ x) x) p.bus

/-! ### The text cursor -/

theorem cpu_gfxRestoreCursorContent (p : Pix) : p.bus.Cpu (gfxRestoreCursorContent c p).bus :=
  Bus.Cpu.iterate _ (fun _ x => cpu_put32_pair x _ _ _) p.bus

theorem cpu_invertByte (a : ℤ) : m.Cpu (c.invertByte a m) :=
  (Bus.Cpu.note (e := .cpuRead a 1) rfl m).trans (.put8 _ _ _)

theorem cpu_renderWord (k : ℕ) (pfb : ℤ) (p : Pix) : p.bus.Cpu (renderWord c k pfb p).bus := by
  have hread := Bus.Cpu.note (e := .cpuRead pfb 4) rfl p.bus
  refine .ite ?_ hread
  exact (((hread.trans (cpu_invertByte c _ pfb)).trans (cpu_invertByte c _ (pfb + 1))).trans
    (cpu_invertByte c _ (pfb + 2))).trans (cpu_invertByte c _ (pfb + 3))

end Cpu

/-! ## Transfers -/

section Transfer
variable (b : Build) (c : Ctx) (m : Bus)

theorem byDma_blockFill (n : ℕ) (a : ℤ) (w : Word) : m.Adds ByDma (blockFill n a w m) :=
  ⟨[.dmaWrite a n], rfl, by simp [ByDma, Event.isDma]⟩

theorem byDma_run (op : DmaOp) : m.Adds ByDma (op.run m) := by
  rw [DmaOp.run]
  split
  · split
    · exact byDma_blockFill m _ _ _
    · exact ⟨[.dmaRead _ _, .dmaWrite _ _], rfl, by simp [ByDma, Event.isDma]⟩
  · split
    · exact byDma_blockFill m _ _ _
    · exact Bus.Adds.iterate byDma_nil (fun _ _ => ByDma.append) _ (fun _ x => byDma_blockFill x _ _ _) m

theorem trace_foldl_note (e : Event) (ops : List DmaOp) :
    (ops.foldl (fun m _ => m.note e) m).trace = m.trace ++ List.replicate ops.length e := by
  induction ops generalizing m with
  | nil => simp
  | cons op ops ih =>
      rw [List.foldl_cons, ih, Bus.trace_note, List.append_assoc, List.length_cons, List.replicate_succ,
        List.singleton_append]

/-- The operations are prepared, the engine is started, and then it is at work. -/
theorem trace_dmaExecuteQueue (ops : List DmaOp) : ∃ es, ByDma es ∧ (dmaExecuteQueue ops m).trace =
    m.trace ++ (List.replicate ops.length .dmaSetup ++ .dmaStart :: es) := by
  obtain ⟨es, htrace, hes⟩ := Bus.Adds.foldl ((ops.foldl (fun m _ => m.note .dmaSetup) m).note .dmaStart)
    byDma_nil (fun _ _ => ByDma.append) (f := fun m op => op.run m) (fun op x => byDma_run x op) ops
  refine ⟨es, hes, ?_⟩
  rw [dmaExecuteQueue, htrace, Bus.trace_note, trace_foldl_note]
  simp

theorem round_setups (n : ℕ) : Round (List.replicate n .dmaSetup) := by
  induction n with
  | zero => exact round_nil
  | succ n ih => exact ⟨⟨by decide, ih.undisturbed⟩, ih.idle⟩

/-- A transfer may be prepared and started when the channel is idle. -/
theorem opening_dmaExecuteQueue (ops : List DmaOp) : m.Adds Opening (dmaExecuteQueue ops m) := by
  obtain ⟨es, hes, htrace⟩ := trace_dmaExecuteQueue m ops
  exact ⟨_, htrace, (round_setups ops.length).opening ⟨by decide, hes.guarded⟩⟩

/-- It is left running. -/
theorem busyAfter_dmaExecuteQueue (a : Bool) (ops : List DmaOp) : busyAfter a (dmaExecuteQueue ops m).trace := by
  obtain ⟨es, hes, htrace⟩ := trace_dmaExecuteQueue m ops
  rw [htrace, busyAfter_append, busyAfter_append]
  exact hes.busyAfter true

theorem opening_gfxClear : m.Adds Opening (gfxClear b c m) := by
  rw [gfxClear]
  split
  · exact opening_dmaExecuteQueue m _
  · exact (Bus.Cpu.fillBytes _ _ _ m).mono fun _ h => h.round.undisturbed

theorem opening_gfxFillRect (x y width height : ℕ) : m.Adds Opening (gfxFillRect b c x y width height m) := by
  rw [gfxFillRect]
  dsimp only
  split
  · exact .nil trivial m
  · split
    · exact opening_dmaExecuteQueue m _
    · exact (Bus.Cpu.iterate _ (fun _ x => .fillBytes _ _ _ x) m).mono fun _ h => h.round.undisturbed

end Transfer

/-- Rendering the cursor waits for the channel, and then the processor is at work. -/
theorem waits_gfxTermRenderCursor (c : Ctx) (p : Pix) :
    p.bus.Adds (fun es => ∃ ys, es = .dmaIdle :: ys ∧ ByCpu ys) (gfxTermRenderCursor c p).bus := by
  have hcpu : (dmaWait p.bus).Cpu (gfxTermRenderCursor c p).bus := by
    refine iterate_induction _ _ _ (fun _ (q : Pix) => (dmaWait p.bus).Cpu q.bus) (.refl _) fun i q _ hq => ?_
    exact (hq.trans (cpu_renderWord c _ _ q)).trans (cpu_renderWord c _ _ _)
  obtain ⟨ys, hys, hby⟩ := hcpu
  exact ⟨.dmaIdle :: ys, by rw [hys]; simp [dmaWait], ys, rfl, hby⟩

end Pigfx
