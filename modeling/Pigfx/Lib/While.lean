import Mathlib.Data.Nat.Notation
import Mathlib.Tactic.Common

/-!
# Loops without a bound

A `while` loop, whose body may also leave it by a `break` or a `return`.  One turn goes on
with a state or ends with a result; the loop takes turns until one ends.  A number of turns
is given with it, and a loop that needs more has no result.

That number is no part of what a loop computes: a result stays the same when more turns are
allowed.  A measure that every turn decreases gives a number that is enough.

## Main definitions

* `runLoop turn n s` — the result within `n` turns, if there is one.
* `whileDo c body n s` — a loop that ends by its condition only.
* `runLoop_total`, `whileDo_total` — a measure and an invariant give a result.
-/

namespace Pigfx.Lib

universe u v
variable {σ : Type u} {ρ : Type v}

/-- Turns of the loop from `s` until one ends it, `n` of them at most. -/
def runLoop (turn : σ → σ ⊕ ρ) : ℕ → σ → Option ρ
  | 0, _ => none
  | n + 1, s =>
      match turn s with
      | .inl s' => runLoop turn n s'
      | .inr r => some r

variable {turn : σ → σ ⊕ ρ} {s s' : σ} {r : ρ} {n : ℕ}

theorem runLoop_inl (h : turn s = .inl s') : runLoop turn (n + 1) s = runLoop turn n s' := by
  simp only [runLoop, h]

theorem runLoop_inr (h : turn s = .inr r) : runLoop turn (n + 1) s = some r := by
  simp only [runLoop, h]

/-- More turns do not change a result. -/
theorem runLoop_more (h : runLoop turn n s = some r) (k : ℕ) : runLoop turn (n + k) s = some r := by
  induction n generalizing s with
  | zero => cases h
  | succ n ih =>
      rw [Nat.add_right_comm]
      cases hturn : turn s with
      | inl s' =>
          rw [runLoop_inl hturn] at h ⊢
          exact ih h
      | inr r' =>
          rw [runLoop_inr hturn] at h ⊢
          exact h

/-- **The rule for loops.**  Where every turn keeps the invariant and decreases the measure,
and every end from the invariant is as wanted, the loop ends, and as wanted.  The result does
not depend on the number of turns allowed. -/
theorem runLoop_total {I : σ → Prop} {Q : ρ → Prop} (μ : σ → ℕ)
    (hnext : ∀ s s', I s → turn s = .inl s' → I s' ∧ μ s' < μ s)
    (hend : ∀ s r, I s → turn s = .inr r → Q r) (hs : I s) :
    ∃ r, (∀ n, μ s < n → runLoop turn n s = some r) ∧ Q r := by
  -- the induction is on a bound of the measure
  induction hk : μ s using Nat.strongRecOn generalizing s with
  | _ k ih =>
      cases hturn : turn s with
      | inr r =>
          refine ⟨r, fun n hn => ?_, hend s r hs hturn⟩
          obtain ⟨n, rfl⟩ : ∃ m, n = m + 1 := ⟨n - 1, by omega⟩
          exact runLoop_inr hturn
      | inl s' =>
          obtain ⟨hinv, hless⟩ := hnext s s' hs hturn
          obtain ⟨r, hrun, hr⟩ := ih (μ s') (by omega) hinv rfl
          refine ⟨r, fun n hn => ?_, hr⟩
          obtain ⟨n, rfl⟩ : ∃ m, n = m + 1 := ⟨n - 1, by omega⟩
          rw [runLoop_inl hturn]
          exact hrun n (by omega)

/-- `while (c) body;` -/
def whileDo (c : σ → Prop) [DecidablePred c] (body : σ → σ) (n : ℕ) (s : σ) : Option σ :=
  runLoop (fun s => if c s then .inl (body s) else .inr s) n s

variable {c : σ → Prop} [DecidablePred c] {body : σ → σ}

/-- **The rule for `while`.** -/
theorem whileDo_total {I : σ → Prop} (μ : σ → ℕ) (hbody : ∀ s, I s → c s → I (body s) ∧ μ (body s) < μ s)
    (hs : I s) : ∃ t, (∀ n, μ s < n → whileDo c body n s = some t) ∧ I t ∧ ¬c t := by
  refine runLoop_total μ ?_ ?_ hs
  · intro s s' hs hturn
    by_cases hc : c s
    · rw [if_pos hc] at hturn
      cases hturn
      exact hbody s hs hc
    · rw [if_neg hc] at hturn
      cases hturn
  · intro s r hs hturn
    by_cases hc : c s
    · rw [if_pos hc] at hturn
      cases hturn
    · rw [if_neg hc] at hturn
      cases hturn
      exact ⟨hs, hc⟩

end Pigfx.Lib
