import Pigfx.Gfx.CursorRange
import Pigfx.Gfx.Steps

/-!
# Transfers of channel 0 are left alone

Whoever starts a transfer leaves it to the next one to wait for its end.  Within a byte
the rendering of the cursor waits, and a byte begins by waiting; the scroll at the end of a
byte is left running.  The toggles clear the screen without waiting.

## Main definitions

* `Gfx.Rounds` — from an idle channel to an idle channel, disturbing nothing.
* `Gfx.Steps.rounds` — the steps of a byte.
* `Term.Busy`, `busy_putByte` — what a byte leaves running.
* `dma_exclusive_iff` — runs of calls.
-/

namespace Pigfx
open Lib

/-! ## Operations between two waits -/

/-- Begun with an idle channel, what happens between the two states disturbs no transfer and
leaves the channel idle. -/
def Gfx.Rounds (g g' : Gfx) : Prop := g.pix.bus.Adds Round g'.pix.bus

namespace Gfx.Rounds

variable {g g' g'' : Gfx}

theorem refl (g : Gfx) : g.Rounds g := .nil round_nil _

theorem trans (h : g.Rounds g') (h' : g'.Rounds g'') : g.Rounds g'' := h.append h' fun _ _ => Round.append

theorem of_cpu (h : g.pix.bus.Cpu g'.pix.bus) : g.Rounds g' := h.mono fun _ => ByCpu.round

end Gfx.Rounds

/-- A transfer may run until the cursor is rendered. -/
theorem round_gfxTermRenderCursor (c : Ctx) {m : Bus} {p : Pix} (h : m.Adds Opening p.bus) :
    m.Adds Round (gfxTermRenderCursor c p).bus := by
  refine h.append (waits_gfxTermRenderCursor c p) ?_
  rintro xs _ hxs ⟨ys, rfl, hys⟩
  exact round_wait hxs hys.round

/-- The steps of a byte come between two waits. -/
theorem Gfx.Steps.rounds {b : Build} {g g' : Gfx} (h : g.Steps b g') : g.Rounds g' := by
  induction h with
  | refl g => exact .refl g
  | trans _ _ ih ih' => exact ih.trans ih'
  | @assign g g' hpix _ =>
    rw [Gfx.Rounds, hpix]
    exact Gfx.Rounds.refl g
  | drawn g p hp => exact .of_cpu hp
  | render g => exact round_gfxTermRenderCursor g.ctx (.nil trivial _)
  | erase g c x y width height =>
    exact round_gfxTermRenderCursor g.ctx (opening_gfxFillRect b _ _ x y width height)
  | clear g c => exact round_gfxTermRenderCursor g.ctx (opening_gfxClear b c _)

/-! ## Bytes -/

/-- A transfer of channel 0 may be running: it has been started, and nobody has seen its end. -/
def Gfx.Busy (g : Gfx) : Prop := busyAfter false g.pix.bus.trace

instance (g : Gfx) : Decidable g.Busy := inferInstanceAs (Decidable (_ = true))

theorem opening_scrollLine (g : Gfx) : g.pix.bus.Adds Opening (scrollLine g).pix.bus :=
  (Gfx.Rounds.of_cpu (cpu_gfxRestoreCursorContent _ _)).append (opening_dmaExecuteQueue _ _) fun _ _ => Round.opening

section Bytes
variable (b : Build) (ch : Byte) (t : Term)

/-- What comes before the scroll. -/
def unscrolled : Gfx := wrapFixup (byteAction b ch { t with g := t.g.draw dmaWait }).g

/-- A byte waits, acts, and may leave the scroll running. -/
theorem waits_putByte : t.g.pix.bus.Adds (fun es => ∃ ys, es = .dmaIdle :: ys ∧ Round ys)
    (unscrolled b ch t).pix.bus := by
  have hact := steps_byteAction b ch { t with g := t.g.draw dmaWait }
  obtain ⟨ys, hys, hround⟩ := (hact.trans (steps_wrapFixup b _)).rounds
  refine ⟨.dmaIdle :: ys, ?_, ys, rfl, hround⟩
  rw [unscrolled, hys]
  simp [Gfx.draw, dmaWait]

theorem guarded_putByte : t.g.pix.bus.Adds Guarded (putByte b ch t).g.pix.bus := by
  have hscroll : (unscrolled b ch t).pix.bus.Adds Opening (scrollFixup (unscrolled b ch t)).pix.bus := by
    rw [scrollFixup]
    split
    · exact opening_scrollLine _
    · exact .nil trivial _
  refine (waits_putByte b ch t).append hscroll ?_
  rintro _ zs ⟨ys, rfl, hys⟩ hzs
  exact guarded_wait (hys.opening hzs)

/-- **A byte leaves a transfer running exactly if it scrolls.** -/
theorem busy_putByte : (putByte b ch t).g.Busy ↔
    (unscrolled b ch t).ctx.HEIGHT ≤ (unscrolled b ch t).ctx.cursorRow := by
  have hidle : ¬(unscrolled b ch t).Busy := by
    obtain ⟨_, htrace, ys, rfl, hround⟩ := waits_putByte b ch t
    rw [Gfx.Busy, Bool.not_eq_true, htrace, busyAfter_append]
    exact hround.idle
  change (scrollFixup (unscrolled b ch t)).Busy ↔ _
  rw [scrollFixup]
  split
  · rename_i hrow
    exact ⟨fun _ => hrow, fun _ => busyAfter_dmaExecuteQueue _ _ _⟩
  · rename_i hrow
    exact ⟨fun h => absurd h hidle, fun h => absurd h hrow⟩

theorem guarded_runBytes (bytes : List Byte) : t.g.pix.bus.Adds Guarded (runBytes b t bytes).g.pix.bus :=
  foldl_invariant (I := fun x : Term => t.g.pix.bus.Adds Guarded x.g.pix.bus)
    (fun x ch h => h.append (guarded_putByte b ch x) fun _ _ => Guarded.append) t bytes (.nil trivial _)

end Bytes

/-! ## Toggles -/

/-- Clearing may begin at once: the channel is idle, or there is nothing to clear for the
processor. -/
def Gfx.MayClear (b : Build) (g : Gfx) : Prop := ¬g.Busy ∨ b.gfxUseDma = false ∧ g.ctx.size = 0

instance (b : Build) (g : Gfx) : Decidable (g.MayClear b) := inferInstanceAs (Decidable (_ ∨ _))

theorem length_fillBytes (n : ℕ) (a : ℤ) (v : Byte) (m : Bus) :
    (fillBytes n a v m).trace.length = m.trace.length + n :=
  iterate_induction n _ m (fun k x => x.trace.length = m.trace.length + k) rfl fun i x _ h => by
    rw [Bus.trace_put8, List.length_append, h]
    rfl

/-- Clearing begins with an event that disturbs a transfer, unless it does nothing. -/
theorem disturbs_gfxClear (b : Build) (c : Ctx) (m : Bus) (h : ¬(b.gfxUseDma = false ∧ c.size = 0)) :
    m.Adds (fun es => ∃ e ys, es = e :: ys ∧ e.disturbs) (gfxClear b c m) := by
  by_cases hdma : b.gfxUseDma
  · rw [gfxClear, if_pos hdma]
    obtain ⟨es, -, htrace⟩ := trace_dmaExecuteQueue m [⟨.word c.getBg32, c.pfb, c.size, 0, DMA_TI_DEST_INC⟩]
    exact ⟨_, htrace, .dmaSetup, .dmaStart :: es, rfl, rfl⟩
  · rw [gfxClear, if_neg hdma]
    obtain ⟨es, htrace, hcpu⟩ := Bus.Cpu.fillBytes c.size c.pfb c.getBg m
    have hlength := length_fillBytes c.size c.pfb c.getBg m
    have hsize : c.size ≠ 0 := fun hs => h ⟨by simpa using hdma, hs⟩
    rw [htrace, List.length_append] at hlength
    refine ⟨es, htrace, ?_⟩
    cases es with
    | nil => simp at hlength; omega
    | cons e ys =>
        have he := hcpu e List.mem_cons_self
        exact ⟨e, ys, rfl, by rw [Event.disturbs, he, Bool.true_or]⟩

/-- **Changing the geometry disturbs nothing exactly if it may begin to clear.** -/
theorem undisturbed_gfxSetScreenGeometry (b : Build) (g : Gfx) :
    Undisturbed false (gfxSetScreenGeometry b g).pix.bus.trace ↔
      Undisturbed false g.pix.bus.trace ∧ g.MayClear b := by
  have hrender : (gfxClear b g.ctx g.pix.bus).Adds Guarded (gfxSetScreenGeometry b g).pix.bus := by
    refine (waits_gfxTermRenderCursor g.ctx.setScreenGeometry (g.draw (gfxClear b g.ctx)).pix).mono ?_
    rintro _ ⟨ys, rfl, hys⟩
    exact guarded_wait hys.round.undisturbed
  rw [hrender.undisturbed_iff]
  constructor
  · intro h
    by_cases hempty : b.gfxUseDma = false ∧ g.ctx.size = 0
    · obtain ⟨es, htrace, -⟩ := opening_gfxClear b g.ctx g.pix.bus
      rw [htrace, undisturbed_append] at h
      exact ⟨h.1, Or.inr hempty⟩
    · obtain ⟨_, htrace, e, ys, rfl, he⟩ := disturbs_gfxClear b g.ctx g.pix.bus hempty
      rw [htrace, undisturbed_append] at h
      refine ⟨h.1, Or.inl fun hbusy => h.2.1 ?_⟩
      rw [he, Bool.and_true]
      exact hbusy
  · rintro ⟨h, hidle | ⟨hdma, hsize⟩⟩
    · obtain ⟨es, htrace, hes⟩ := opening_gfxClear b g.ctx g.pix.bus
      rw [Gfx.Busy, Bool.not_eq_true] at hidle
      rw [htrace, undisturbed_append, hidle]
      exact ⟨h, hes⟩
    · rw [gfxClear, if_neg (by simp [hdma]), hsize]
      exact h

/-! ## Runs of calls -/

/-- The call does not toggle anything while a transfer may be running. -/
def Call.Admissible (b : Build) (t : Term) : Call → Prop
  | .putstring _ => True
  | .toggleFontHeight | .toggleLines => t.g.MayClear b

/-- One call. -/
theorem undisturbed_call (b : Build) (t : Term) (call : Call) :
    Undisturbed false (call.run b t).g.pix.bus.trace ↔
      Undisturbed false t.g.pix.bus.trace ∧ call.Admissible b t := by
  rw [Call.run_eq, (guarded_runBytes b _ _).undisturbed_iff]
  cases call with
  | putstring str => exact (and_iff_left trivial).symm
  | toggleFontHeight =>
      change Undisturbed false (gfxToggleFontHeight b t.g).pix.bus.trace ↔ _
      rw [gfxToggleFontHeight]
      split_ifs <;> exact undisturbed_gfxSetScreenGeometry b { t.g with ctx := t.g.ctx.setFontHeight b _ }
  | toggleLines => exact undisturbed_gfxSetScreenGeometry b { t.g with ctx := t.g.ctx.toggleLines }

/-- **Exclusivity of channel 0.**  Whenever the transfers complete, no call rewrites what the
engine reads and no access of the processor falls into a transfer, exactly if no toggle
comes while a transfer may be running. -/
theorem dma_exclusive_iff (b : Build) (pFramebuffer : ℤ) (width height pitch size : ℕ) (data : ℤ → Byte)
    (calls : List Call) :
    (∀ completes, Exclusive completes false (calls.foldl (Call.run b)
      (Term.start b pFramebuffer width height pitch size data)).g.pix.bus.trace) ↔
    Along (Call.run b) (fun t call => call.Admissible b t)
      (Term.start b pFramebuffer width height pitch size data) calls := by
  have hstart : Undisturbed false (Term.start b pFramebuffer width height pitch size data).g.pix.bus.trace :=
    (undisturbed_gfxSetScreenGeometry b _).mpr ⟨trivial, Or.inl Bool.false_ne_true⟩
  have hrun := along_iff (I := fun t : Term => Undisturbed false t.g.pix.bus.trace) (undisturbed_call b)
    (Term.start b pFramebuffer width height pitch size data) calls
  rw [exclusive_forall_iff, hrun]
  exact and_iff_right hstart

/-- A toggle after a byte that scrolls disturbs the scroll. -/
theorem not_exclusive_toggle {b : Build} (hdma : b.gfxUseDma) {ch : Byte} (hch : ch ≠ 0) {t : Term}
    (hscroll : (unscrolled b ch t).ctx.HEIGHT ≤ (unscrolled b ch t).ctx.cursorRow) :
    ¬Exclusive (fun _ => false) false
      ([.putstring [ch], .toggleFontHeight].foldl (Call.run b) t).g.pix.bus.trace := by
  intro h
  have hone : (Call.putstring [ch]).run b t = putByte b ch t := by
    change gfxTermPutstring b [ch] t = _
    rw [gfxTermPutstring, List.takeWhile_cons_of_pos (by simpa using hch)]
    rfl
  have hundisturbed : Undisturbed false (Call.toggleFontHeight.run b (putByte b ch t)).g.pix.bus.trace := by
    rw [← hone]
    exact exclusive_never h
  rcases ((undisturbed_call b _ .toggleFontHeight).mp hundisturbed).2 with hidle | ⟨hplain, -⟩
  · exact hidle ((busy_putByte b ch t).mpr hscroll)
  · exact absurd hdma (by simp [hplain])

/-- A line feed on the last row, and then a toggle.  The screen is cleared with the control
block that the scroll is still using. -/
theorem toggle_disturbs_scroll :
    let t := Term.start .shipped 0 640 480 640 307200 (fun _ => 0)
    ¬Exclusive (fun _ => false) false
      ([.putstring (List.replicate 28 0x0A), .putstring [0x0A], .toggleFontHeight].foldl
        (Call.run .shipped) t).g.pix.bus.trace := by
  intro t
  rw [List.foldl_cons]
  exact not_exclusive_toggle rfl (by decide) (by decide +kernel)

end Pigfx
