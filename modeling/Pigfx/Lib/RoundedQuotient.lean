import Mathlib.Tactic.Linarith
import Mathlib.Tactic.Ring

/-!
# Quotients rounded by their remainder

A quotient is rounded up when its remainder is at least half the divisor, the half rounded
down.  So the quotient is the one number between two products, and dividing by a rounded
quotient brings the divisor back, as far as its size allows.

## Main definitions

* `roundDiv` — the rounded quotient.
* `IsRounded` — the products around it.
* `roundDiv_roundDiv_roundDiv` — three divisions are one.
-/

namespace Pigfx.Lib

def roundDiv (n d : ℕ) : ℕ := if n - n / d * d ≥ d / 2 then n / d + 1 else n / d

/-- Half the divisor below and above the quotient lie on both sides of the dividend, which
counts as half a unit larger than it is. -/
structure IsRounded (n d q : ℕ) : Prop where
  le : 2 * (q * d) ≤ 2 * n + 1 + d
  lt : 2 * n + 1 < 2 * (q * d) + d

variable {n d q r : ℕ}

theorem isRounded_roundDiv (n : ℕ) (hd : 0 < d) : IsRounded n d (roundDiv n d) := by
  have hdiv : n / d * d + n % d = n := Nat.div_add_mod' n d
  have hmod : n % d < d := Nat.mod_lt n hd
  rw [roundDiv]
  generalize n / d = k at *
  have hsucc : (k + 1) * d = k * d + d := Nat.succ_mul k d
  split
  · constructor <;> omega
  · constructor <;> omega

/-- There is one such quotient only. -/
theorem IsRounded.unique (h : IsRounded n d q) (h' : IsRounded n d r) : q = r := by
  obtain ⟨hle, hlt⟩ := h
  obtain ⟨hle', hlt'⟩ := h'
  by_contra hne
  rcases Nat.lt_or_gt_of_ne hne with hqr | hqr
  · have hmul : (q + 1) * d ≤ r * d := Nat.mul_le_mul_right d hqr
    rw [Nat.succ_mul] at hmul
    omega
  · have hmul : (r + 1) * d ≤ q * d := Nat.mul_le_mul_right d hqr
    rw [Nat.succ_mul] at hmul
    omega

theorem IsRounded.pos (h : IsRounded n d q) : 0 < d := by
  have hle := h.le; have hlt := h.lt
  omega

theorem IsRounded.roundDiv_eq (h : IsRounded n d q) : roundDiv n d = q :=
  (isRounded_roundDiv n h.pos).unique h

/-- Whole divisors pass through. -/
theorem roundDiv_mul_add (hd : 0 < d) (a r : ℕ) : roundDiv (a * d + r) d = a + roundDiv r d := by
  obtain ⟨hle, hlt⟩ := isRounded_roundDiv r hd
  apply IsRounded.roundDiv_eq
  constructor <;> rw [Nat.add_mul] <;> omega

/-- Divisor and quotient change places if the quotient is the larger. -/
theorem IsRounded.swap (h : IsRounded n d q) (hdq : d ≤ q) : IsRounded n q d := by
  obtain ⟨hle, hlt⟩ := h
  constructor <;> rw [Nat.mul_comm d q] <;> omega

/-- **Three divisions are one.** -/
theorem roundDiv_roundDiv_roundDiv (hd : 0 < d) (hq : 0 < roundDiv n d) :
    roundDiv n (roundDiv n (roundDiv n d)) = roundDiv n d := by
  have h := isRounded_roundDiv n hd
  have h' := isRounded_roundDiv n hq
  generalize roundDiv n d = q at *
  generalize roundDiv n q = e at *
  by_cases hdq : d ≤ q
  · -- the divisor comes back
    obtain rfl := h'.unique (h.swap hdq)
    exact h.roundDiv_eq
  · by_cases hqe : q ≤ e
    · exact (h'.swap hqe).roundDiv_eq
    · -- else the dividend would lie on both sides of a square
      obtain ⟨k, rfl⟩ : ∃ k, q = k + 1 := ⟨q - 1, by omega⟩
      have hlow : (2 * k + 1) * (k + 2) ≤ (2 * k + 1) * d := Nat.mul_le_mul_left _ (by omega)
      have hhigh : e * (k + 1) ≤ k * (k + 1) := Nat.mul_le_mul_right _ (by omega)
      have hle := h.le; have hlt := h'.lt
      linarith

end Pigfx.Lib
