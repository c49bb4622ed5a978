import Pigfx.Lib.Loop
import Mathlib.Algebra.Order.Group.Unbundled.Int
import Mathlib.Data.List.Nodup
import Mathlib.Data.List.Perm.Basic
import Mathlib.Logic.Equiv.Basic
import Mathlib.Order.Lattice

/-!
# Exchange sort and alternation

Two facts about sequences.  An exchange sort without any shortcut passes over an array as
often as it has places and exchanges neighbours that are out of order: each pass settles
one more place from the end.  And a property of the points of a closed sequence changes an
even number of times on the way around.

## Main definitions

* `exchange`, `exchangePass`, `exchangeSort` — the sort, on arrays indexed by `ℕ`.
* `Settled` — the places from some index on are in their final order.
* `exchangeSort_sorted`, `exists_perm_exchangeSort` — the array is sorted and permuted.
* `even_changes` — changes around a closed sequence.
-/

namespace Pigfx.Lib

universe u
variable {α : Type u} [LinearOrder α]

/-! ## The sort -/

/-- Exchange the places `j` and `j + 1` if they are out of order. -/
def exchange (j : ℕ) (a : ℕ → α) : ℕ → α :=
  if a j > a (j + 1) then fun l => if l = j then a (j + 1) else if l = j + 1 then a j else a l else a

/-- Exchange along the first `n + 1` places. -/
def exchangePass (n : ℕ) (a : ℕ → α) : ℕ → α := iterate n exchange a

def exchangeSort (n : ℕ) (a : ℕ → α) : ℕ → α := iterate n (fun _ => exchangePass n) a

theorem exchange_of_le {j : ℕ} {a : ℕ → α} (h : a j ≤ a (j + 1)) : exchange j a = a :=
  if_neg (not_lt.mpr h)

theorem exchange_other {j l : ℕ} (a : ℕ → α) (h : l ≠ j) (h' : l ≠ j + 1) : exchange j a l = a l := by
  rw [exchange]
  split
  · simp [h, h']
  · rfl

theorem exchange_fst (j : ℕ) (a : ℕ → α) : exchange j a j = min (a j) (a (j + 1)) := by
  rw [exchange]
  split
  case isTrue h => simp [h.le]
  case isFalse h => simp [not_lt.mp h]

theorem exchange_snd (j : ℕ) (a : ℕ → α) : exchange j a (j + 1) = max (a j) (a (j + 1)) := by
  rw [exchange]
  split
  case isTrue h => simp [h.le]
  case isFalse h => simp [not_lt.mp h]

/-! ## The order -/

/-- Behind place `p`, and up to place `n`, nothing smaller stands to the right. -/
def Settled (n p : ℕ) (a : ℕ → α) : Prop := ∀ i l, i ≤ l → p < l → l ≤ n → a i ≤ a l

/-- An exchange keeps what is settled. -/
theorem Settled.exchange {n p j : ℕ} {a : ℕ → α} (h : Settled n p a) (hj : j < n) :
    Settled n p (exchange j a) := by
  by_cases hp : p < j + 1
  · -- both places are in order already
    rw [exchange_of_le (h j (j + 1) (by omega) hp hj)]
    exact h
  · intro i l hil hpl hln
    have hl : Lib.exchange j a l = a l := exchange_other a (by omega) (by omega)
    rw [hl]
    by_cases hi : i = j
    · rw [hi, exchange_fst]
      exact min_le_of_left_le (h j l (by omega) hpl hln)
    by_cases hi' : i = j + 1
    · rw [hi', exchange_snd]
      exact max_le (h j l (by omega) hpl hln) (h (j + 1) l (by omega) hpl hln)
    · rw [exchange_other a hi hi']
      exact h i l hil hpl hln

/-- **A pass settles one more place.**  Behind index `j` of the pass the greatest of the
places passed stands at `j`, until the settled part begins. -/
theorem Settled.pass {n p : ℕ} {a : ℕ → α} (h : Settled n p a) (hp : 0 < p) (hpn : p ≤ n) :
    Settled n (p - 1) (exchangePass n a) := by
  have hinv : Settled n p (exchangePass n a) ∧ ∀ i ≤ min n p,
      exchangePass n a i ≤ exchangePass n a (min n p) := by
    refine iterate_induction n Lib.exchange a
      (fun j a => Settled n p a ∧ ∀ i ≤ min j p, a i ≤ a (min j p)) ⟨h, ?_⟩ ?_
    · intro i hi
      obtain rfl : i = 0 := by omega
      simp
    · rintro j a hj ⟨hs, hmax⟩
      refine ⟨hs.exchange hj, ?_⟩
      intro i hi
      by_cases hjp : p < j + 1
      · have hmin : min (j + 1) p = min j p := by omega
        rw [exchange_of_le (hs j (j + 1) (by omega) hjp hj), hmin]
        exact hmax i (hmin ▸ hi)
      · have hmin : min (j + 1) p = j + 1 := by omega
        have hmin' : min j p = j := by omega
        rw [hmin] at hi ⊢
        rw [hmin'] at hmax
        rw [exchange_snd]
        by_cases hij : i = j + 1
        · rw [hij, exchange_snd]
        by_cases hij' : i = j
        · rw [hij', exchange_fst]
          exact min_le_max
        · rw [exchange_other a hij' hij]
          exact le_max_of_le_left (hmax i (by omega))
  intro i l hil hpl hln
  by_cases hl : l = p
  · have hmin : min n p = p := by omega
    rw [hmin] at hinv
    rw [hl]
    exact hinv.2 i (by omega)
  · exact hinv.1 i l hil (by omega) hln

/-- **The first `n + 1` places end sorted.** -/
theorem exchangeSort_sorted (n : ℕ) (a : ℕ → α) :
    ∀ i l, i ≤ l → l ≤ n → exchangeSort n a i ≤ exchangeSort n a l := by
  have hinv : Settled n (n - n) (exchangeSort n a) := by
    refine iterate_induction n (fun _ => exchangePass n) a (fun t a => Settled n (n - t) a) ?_ ?_
    · intro i l _ hl hln
      omega
    · intro t a ht hs
      have hpass := hs.pass (by omega) (by omega)
      have hsub : n - t - 1 = n - (t + 1) := by omega
      rw [hsub] at hpass
      exact hpass
  intro i l hil hln
  rcases Nat.eq_zero_or_pos l with rfl | hl
  · obtain rfl : i = 0 := by omega
    exact le_rfl
  · exact hinv i l hil (by omega) hln

/-! ## The permutation -/

/-- `a'` is `a` with its first `n + 1` places permuted. -/
def Permuted (n : ℕ) (a a' : ℕ → α) : Prop :=
  ∃ σ : Equiv.Perm ℕ, (∀ j, n < j → σ j = j) ∧ ∀ j, a' j = a (σ j)

omit [LinearOrder α] in
theorem Permuted.refl (n : ℕ) (a : ℕ → α) : Permuted n a a :=
  ⟨Equiv.refl ℕ, fun _ _ => rfl, fun _ => rfl⟩

omit [LinearOrder α] in
theorem Permuted.trans {n : ℕ} {a a' a'' : ℕ → α} (h : Permuted n a a') (h' : Permuted n a' a'') :
    Permuted n a a'' := by
  rcases h with ⟨σ, hσ, ha⟩
  rcases h' with ⟨τ, hτ, ha'⟩
  refine ⟨τ.trans σ, ?_, ?_⟩
  · intro j hj
    rw [Equiv.trans_apply, hτ j hj, hσ j hj]
  · intro j
    rw [ha', ha, Equiv.trans_apply]

theorem permuted_exchange {n j : ℕ} (hj : j < n) (a : ℕ → α) : Permuted n a (exchange j a) := by
  rw [exchange]
  split
  · refine ⟨Equiv.swap j (j + 1), ?_, ?_⟩
    · intro l hl
      exact Equiv.swap_apply_of_ne_of_ne (by omega) (by omega)
    · intro l
      rw [Equiv.swap_apply_def]
      dsimp only
      split_ifs <;> rfl
  · exact Permuted.refl n a

/-- **The sort permutes the first `n + 1` places.** -/
theorem permuted_exchangeSort (n : ℕ) (a : ℕ → α) : Permuted n a (exchangeSort n a) := by
  refine iterate_induction n (fun _ => exchangePass n) a (fun _ a' => Permuted n a a')
    (Permuted.refl n a) ?_
  intro _ a' _ h
  exact h.trans (iterate_induction n exchange a' (fun _ a'' => Permuted n a' a'')
    (Permuted.refl n a') fun _ _ hj h => h.trans (permuted_exchange hj _))

omit [LinearOrder α] in
/-- A permuted array lists the same values. -/
theorem Permuted.perm {n : ℕ} {a a' : ℕ → α} (h : Permuted n a a') :
    ((List.range (n + 1)).map a').Perm ((List.range (n + 1)).map a) := by
  rcases h with ⟨σ, hσ, ha⟩
  have hrange : ((List.range (n + 1)).map σ).Perm (List.range (n + 1)) := by
    apply (List.perm_ext_iff_of_nodup (List.Nodup.map σ.injective List.nodup_range) List.nodup_range).mpr
    intro l
    have hle : ∀ j, σ j ≤ n ↔ j ≤ n := by
      intro j
      by_contra hne
      rcases not_iff.mp hne with h
      by_cases hj : n < j
      · rw [hσ j hj] at h
        omega
      · have hbig : n < σ j := by omega
        have hfix : σ (σ j) = σ j := hσ _ hbig
        have heq : σ j = j := σ.injective hfix
        omega
    simp only [List.mem_map, List.mem_range, Nat.lt_succ_iff]
    constructor
    · rintro ⟨j, hj, rfl⟩
      exact (hle j).mpr hj
    · intro hl
      exact ⟨σ.symm l, (hle _).mp (by simpa using hl), by simp⟩
  have hmap : (List.range (n + 1)).map a' = ((List.range (n + 1)).map σ).map a := by
    rw [List.map_map]
    exact List.map_congr_left fun j _ => ha j
  rw [hmap]
  exact hrange.map a

/-! ## Alternation -/

/-- **A property changes an even number of times around a closed sequence.** -/
theorem even_changes (p : ℕ → Bool) (n : ℕ) :
    ((List.range n).countP fun i => p i != p (i + 1)) % 2 = (if p n = p 0 then 0 else 1) := by
  induction n with
  | zero => simp
  | succ n ih =>
    rw [List.range_succ, List.countP_append, List.countP_singleton]
    cases h0 : p 0 <;> cases hn : p n <;> cases hn' : p (n + 1) <;> simp_all <;> omega

end Pigfx.Lib
