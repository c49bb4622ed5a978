import Mathlib.Data.Nat.Notation
import Mathlib.Tactic.Common

/-!
# Counted loops and conditional runs

Two shapes that nearly every argument about sequential code goes through: a loop
that runs a body once per index, and a run that feeds a list of inputs to a step
function.  Each has one induction rule for an invariant and one for a relation
between two executions.

A run may be known to satisfy a condition at each of its steps only.  `Along`
says that, and its rules turn a fact about one conditional step into a fact about
every conditional run.

## Main definitions

* `iterate n f s` — the body `f` at every index below `n`, in ascending order.
* `Along step P s xs` — every step of the run from `s` over `xs` satisfies `P`.
* `iterate_induction`, `Along.invariant`, `Along.relation` — the induction rules.
-/

namespace Pigfx.Lib

universe u v w
variable {σ : Type u} {τ : Type v} {ι : Type w}

/-! ## Counted loops -/

/-- Apply the body at index zero, then at one, and so on below `n`. -/
def iterate : ℕ → (ℕ → σ → σ) → σ → σ
  | 0, _, s => s
  | n + 1, f, s => f n (iterate n f s)

@[simp] theorem iterate_zero (f : ℕ → σ → σ) (s : σ) : iterate 0 f s = s := rfl

theorem iterate_succ (n : ℕ) (f : ℕ → σ → σ) (s : σ) :
    iterate (n + 1) f s = f n (iterate n f s) := rfl

/-- A loop may be entered at its second index. -/
theorem iterate_succ_left (n : ℕ) (f : ℕ → σ → σ) (s : σ) :
    iterate (n + 1) f s = iterate n (fun i => f (i + 1)) (f 0 s) := by
  induction n with
  | zero => rfl
  | succ n ih =>
    rw [iterate_succ, ih]
    rfl

/-- **The loop rule.**  What holds before the first index and passes from each index
to the next holds after the last one. -/
theorem iterate_induction (n : ℕ) (f : ℕ → σ → σ) (s : σ) (P : ℕ → σ → Prop) (h0 : P 0 s)
    (hstep : ∀ i x, i < n → P i x → P (i + 1) (f i x)) : P n (iterate n f s) := by
  induction n with
  | zero => exact h0
  | succ n ih =>
      have hn : P n (iterate n f s) := ih fun i x hi => hstep i x (by omega)
      exact hstep n _ (by omega) hn

/-- Two loops of one length whose bodies preserve a relation end related. -/
theorem iterate_relation (n : ℕ) (f : ℕ → σ → σ) (g : ℕ → τ → τ) (s : σ) (t : τ)
    (R : σ → τ → Prop) (h0 : R s t)
    (hstep : ∀ i x y, i < n → R x y → R (f i x) (g i y)) :
    R (iterate n f s) (iterate n g t) := by
  induction n with
  | zero => exact h0
  | succ n ih =>
      have hn : R (iterate n f s) (iterate n g t) := ih fun i x y hi => hstep i x y (by omega)
      exact hstep n _ _ (by omega) hn

/-- Bodies that agree on every index of the range give the same loop. -/
theorem iterate_congr (n : ℕ) (f g : ℕ → σ → σ) (s : σ) (h : ∀ i x, i < n → f i x = g i x) :
    iterate n f s = iterate n g s :=
  iterate_relation n f g s s (· = ·) rfl fun i x y hi hxy => by rw [h i x hi, hxy]

/-- A loop over a pair whose first component runs by itself. -/
theorem iterate_pair (n : ℕ) (f : ℕ → σ → σ) (g : ℕ → σ → τ → τ) (s : σ) (t : τ) :
    iterate n (fun i (x : σ × τ) => (f i x.1, g i x.1 x.2)) (s, t) =
      (iterate n f s, iterate n (fun i => g i (iterate i f s)) t) := by
  induction n with
  | zero => rfl
  | succ n ih => rw [iterate_succ, ih, iterate_succ, iterate_succ]

/-- A counted loop folds over its indices. -/
theorem iterate_eq_foldl (n : ℕ) (f : ℕ → σ → σ) (s : σ) :
    iterate n f s = (List.range n).foldl (fun s i => f i s) s := by
  induction n with
  | zero => rfl
  | succ n ih => simp [iterate_succ, ih, List.range_succ]

/-- A loop over folds is one fold. -/
theorem iterate_foldl (n : ℕ) (g : σ → τ → σ) (xs : ℕ → List τ) (s : σ) :
    iterate n (fun i x => (xs i).foldl g x) s = ((List.range n).flatMap xs).foldl g s := by
  induction n with
  | zero => rfl
  | succ n ih => simp [iterate_succ, ih, List.range_succ]

/-! ## Conditional runs -/

/-- Every step of the run from `s` over the inputs satisfies `P` at the state in
which the step starts. -/
def Along (step : σ → ι → σ) (P : σ → ι → Prop) : σ → List ι → Prop
  | _, [] => True
  | s, x :: xs => P s x ∧ Along step P (step s x) xs

variable {step : σ → ι → σ} {P Q : σ → ι → Prop}

/-- A decidable condition is decidable along a run. -/
instance Along.decidable [∀ s x, Decidable (P s x)] :
    ∀ (s : σ) (xs : List ι), Decidable (Along step P s xs)
  | _, [] => isTrue trivial
  | s, x :: xs =>
      have := Along.decidable (step s x) xs
      inferInstanceAs (Decidable (P s x ∧ Along step P (step s x) xs))

@[simp] theorem along_nil (s : σ) : Along step P s [] := trivial

@[simp] theorem along_cons (s : σ) (x : ι) (xs : List ι) :
    Along step P s (x :: xs) ↔ P s x ∧ Along step P (step s x) xs := Iff.rfl

theorem along_append (s : σ) (xs ys : List ι) :
    Along step P s (xs ++ ys) ↔ Along step P s xs ∧ Along step P (xs.foldl step s) ys := by
  induction xs generalizing s with
  | nil => simp
  | cons x xs ih => simp [ih, and_assoc]

/-- A condition on an image of the state may be checked on the image's own run. -/
theorem along_map {step' : τ → ι → τ} {P' : τ → ι → Prop} (φ : σ → τ)
    (h : ∀ s x, φ (step s x) = step' (φ s) x) (s : σ) (xs : List ι) :
    Along step (fun s x => P' (φ s) x) s xs ↔ Along step' P' (φ s) xs := by
  induction xs generalizing s with
  | nil => simp
  | cons x xs ih => simp [ih, h]

/-- **Invariance along a run.**  An invariant that every conditional step
preserves holds at the end of every run whose steps all meet the condition. -/
theorem Along.invariant {I : σ → Prop} (hstep : ∀ s x, I s → P s x → I (step s x))
    {s : σ} {xs : List ι} (h : Along step P s xs) (hs : I s) : I (xs.foldl step s) := by
  induction xs generalizing s with
  | nil => exact hs
  | cons x xs ih => exact ih h.2 (hstep s x hs h.1)

/-- A condition may be weakened at the states that satisfy an invariant. -/
theorem Along.mono {I : σ → Prop} (hstep : ∀ s x, I s → P s x → I (step s x))
    (hPQ : ∀ s x, I s → P s x → Q s x) {s : σ} {xs : List ι} (h : Along step P s xs)
    (hs : I s) : Along step Q s xs := by
  induction xs generalizing s with
  | nil => trivial
  | cons x xs ih => exact ⟨hPQ s x hs h.1, ih h.2 (hstep s x hs h.1)⟩

/-- Conditions that agree at the states that satisfy an invariant agree along a run. -/
theorem along_congr {I : σ → Prop} (hstep : ∀ s x, I s → I (step s x)) (hPQ : ∀ s x, I s → (P s x ↔ Q s x))
    {s : σ} (xs : List ι) (hs : I s) : Along step P s xs ↔ Along step Q s xs := by
  constructor
  · exact fun h => h.mono (fun t x ht _ => hstep t x ht) (fun t x ht => (hPQ t x ht).mp) hs
  · exact fun h => h.mono (fun t x ht _ => hstep t x ht) (fun t x ht => (hPQ t x ht).mpr) hs

/-- **A relation along two runs.**  If every conditional step preserves a relation
between two machines fed the same inputs, two related states end related. -/
theorem Along.relation {R : σ → τ → Prop} {g : τ → ι → τ}
    (hstep : ∀ s t x, R s t → P s x → R (step s x) (g t x))
    {s : σ} {t : τ} {xs : List ι} (h : Along step P s xs) (hst : R s t) :
    R (xs.foldl step s) (xs.foldl g t) := by
  induction xs generalizing s t with
  | nil => exact hst
  | cons x xs ih => exact ih h.2 (hstep s t x hst h.1)

/-- **Exactness along a run.**  If a step keeps a property exactly under a condition, a run
keeps it exactly if each of its steps meets the condition. -/
theorem along_iff_of {I J : σ → Prop} (hJ : ∀ s x, J s → J (step s x))
    (hstep : ∀ s x, J s → (I (step s x) ↔ I s ∧ P s x)) {s : σ} (hs : J s) (xs : List ι) :
    I (xs.foldl step s) ↔ I s ∧ Along step P s xs := by
  induction xs generalizing s with
  | nil => simp
  | cons x xs ih => rw [List.foldl_cons, ih (hJ s x hs), hstep s x hs, along_cons, and_assoc]

theorem along_iff {I : σ → Prop} (hstep : ∀ s x, I (step s x) ↔ I s ∧ P s x) (s : σ) (xs : List ι) :
    I (xs.foldl step s) ↔ I s ∧ Along step P s xs :=
  along_iff_of (J := fun _ => True) (fun _ _ _ => trivial) (fun s x _ => hstep s x) trivial xs

/-- An invariant that every step preserves holds at the end of every run. -/
theorem foldl_invariant {I : σ → Prop} (hstep : ∀ s x, I s → I (step s x))
    (s : σ) (xs : List ι) (hs : I s) : I (xs.foldl step s) := by
  induction xs generalizing s with
  | nil => exact hs
  | cons x xs ih => exact ih (step s x) (hstep s x hs)

/-- A relation that every pair of steps preserves holds at the end of two runs over
the same inputs. -/
theorem foldl_relation {R : σ → τ → Prop} {g : τ → ι → τ}
    (hstep : ∀ s t x, R s t → R (step s x) (g t x)) {s : σ} {t : τ} (xs : List ι)
    (hst : R s t) : R (xs.foldl step s) (xs.foldl g t) := by
  induction xs generalizing s t with
  | nil => exact hst
  | cons x xs ih => exact ih (hstep s t x hst)

end Pigfx.Lib
