import Mathlib.Algebra.Order.Group.Unbundled.Int
import Mathlib.Algebra.Order.Ring.Abs
import Mathlib.Data.Int.Notation
import Mathlib.Data.Set.Basic
import Mathlib.Logic.Relation

/-!
# The raster

Pixels of the plane are pairs of integers.  Two distinct pixels are neighbours if they
touch at a side or at a corner, and a set of pixels is connected if any two of them are
joined by a path of neighbours inside the set.  A map that keeps neighbours carries
paths over, which reduces the connectedness of a symmetric figure to one of its parts.

## Main definitions

* `Pixel`, `Neighbours` — a point of the raster; points that touch.
* `Path`, `EightConnected` — paths of neighbours inside a set.
* `mirror` — the eight mirror images of an offset.
-/

namespace Pigfx.Lib

abbrev Pixel := ℤ × ℤ

/-- Distinct pixels that touch, at a side or at a corner. -/
def Neighbours (p q : Pixel) : Prop := p ≠ q ∧ |p.1 - q.1| ≤ 1 ∧ |p.2 - q.2| ≤ 1

theorem Neighbours.symm {p q : Pixel} (h : Neighbours p q) : Neighbours q p := by
  constructor
  · exact h.1.symm
  · rw [abs_sub_comm q.1, abs_sub_comm q.2]
    exact h.2

/-! ## Paths -/

/-- The pixels are joined by a path of neighbours inside the set. -/
def Path (S : Set Pixel) : Pixel → Pixel → Prop :=
  Relation.ReflTransGen fun p q => p ∈ S ∧ q ∈ S ∧ Neighbours p q

/-- Any two pixels of the set are joined by a path inside it. -/
def EightConnected (S : Set Pixel) : Prop := ∀ p ∈ S, ∀ q ∈ S, Path S p q

namespace Path

variable {S T : Set Pixel} {p q r : Pixel}

theorem refl (p : Pixel) : Path S p p := Relation.ReflTransGen.refl

theorem single (hp : p ∈ S) (hq : q ∈ S) (h : Neighbours p q) : Path S p q :=
  Relation.ReflTransGen.single ⟨hp, hq, h⟩

theorem trans (h : Path S p q) (h' : Path S q r) : Path S p r := Relation.ReflTransGen.trans h h'

theorem symm (h : Path S p q) : Path S q p := by
  induction h with
  | refl => exact refl p
  | tail _ hstep ih => exact (single hstep.2.1 hstep.1 hstep.2.2.symm).trans ih

/-- A map that keeps neighbours keeps paths. -/
theorem map {f : Pixel → Pixel} (hf : ∀ a b, Neighbours a b → Neighbours (f a) (f b))
    (hS : ∀ a ∈ S, f a ∈ T) (h : Path S p q) : Path T (f p) (f q) := by
  induction h with
  | refl => exact refl (f p)
  | tail _ hstep ih => exact ih.trans (single (hS _ hstep.1) (hS _ hstep.2.1) (hf _ _ hstep.2.2))

/-- Pixels that agree or are neighbours are joined. -/
theorem of_near (hp : p ∈ S) (hq : q ∈ S) (h1 : |p.1 - q.1| ≤ 1) (h2 : |p.2 - q.2| ≤ 1) :
    Path S p q := by
  by_cases h : p = q
  · rw [h]
    exact refl q
  · exact single hp hq ⟨h, h1, h2⟩

/-- A sequence of pixels of the set in which each agrees with its successor or touches it. -/
theorem of_sequence {P : ℕ → Pixel} {n : ℕ} (hS : ∀ k ≤ n, P k ∈ S)
    (hnear : ∀ k < n, |(P k).1 - (P (k + 1)).1| ≤ 1 ∧ |(P k).2 - (P (k + 1)).2| ≤ 1) :
    ∀ k ≤ n, Path S (P 0) (P k) := by
  intro k hk
  induction k with
  | zero => exact refl _
  | succ k ih =>
    have hstep := hnear k (by omega)
    exact (ih (by omega)).trans (of_near (hS k (by omega)) (hS (k + 1) hk) hstep.1 hstep.2)

end Path

/-- A set all of whose pixels are joined to one of them is connected. -/
theorem eightConnected_of_base {S : Set Pixel} (base : Pixel) (h : ∀ p ∈ S, Path S base p) :
    EightConnected S := by
  intro p hp q hq
  exact (h p hp).symm.trans (h q hq)

/-! ## Mirror images -/

/-- The mirror images of an offset in the axes and in the diagonals. -/
def mirror (u v : ℤ) : List Pixel :=
  [(u, v), (-u, v), (u, -v), (-u, -v), (v, u), (-v, u), (v, -u), (-v, -u)]

theorem mem_mirror_self (u v : ℤ) : (u, v) ∈ mirror u v := List.mem_cons_self

/-- The images of an image are images. -/
theorem mirror_trans {u v : ℤ} {p q : Pixel} (hp : p ∈ mirror u v) (hq : q ∈ mirror p.1 p.2) :
    q ∈ mirror u v := by
  simp only [mirror, List.mem_cons, List.not_mem_nil, or_false] at hp
  rcases hp with rfl | rfl | rfl | rfl | rfl | rfl | rfl | rfl <;>
    simp only [mirror, neg_neg, List.mem_cons, List.not_mem_nil, or_false] at hq ⊢ <;> tauto

section Images
variable {a b : Pixel}

theorem Neighbours.negFst (h : Neighbours a b) : Neighbours (-a.1, a.2) (-b.1, b.2) := by
  simp only [Neighbours, ne_eq, Prod.ext_iff, abs_le] at h ⊢
  omega

theorem Neighbours.negSnd (h : Neighbours a b) : Neighbours (a.1, -a.2) (b.1, -b.2) := by
  simp only [Neighbours, ne_eq, Prod.ext_iff, abs_le] at h ⊢
  omega

theorem Neighbours.swap (h : Neighbours a b) : Neighbours a.swap b.swap := by
  simp only [Neighbours, ne_eq, Prod.ext_iff, Prod.fst_swap, Prod.snd_swap] at h ⊢
  tauto

theorem Neighbours.add_left (h : Neighbours a b) (z : Pixel) : Neighbours (z + a) (z + b) := by
  simp only [Neighbours, ne_eq, Prod.ext_iff, Prod.fst_add, Prod.snd_add, abs_le] at h ⊢
  omega

end Images

end Pigfx.Lib
