import Mathlib.Data.List.Count
import Mathlib.Data.Nat.Notation
import Mathlib.Tactic.Common

/-!
# Lists of intervals

Ranges of addresses as half-open intervals, and lists of them.  How often a list
covers an address is a number, so a list that is cut, joined or reordered can be
compared with the old one by an equation that holds at each address, and what is
free and what is taken add up.

A list whose members leave a gap between each two is determined by what it covers
(`Separated.unique`), and `coalesce` turns every ascending list into such a one
without changing the cover.  Together they make the result of releasing several
ranges independent of the order.

## Main definitions

* `Interval`, `cover` — a range of addresses, how many members hold an address.
* `Ascending`, `Separated` — members in order, members in order with gaps.
* `coalesce` — join each member with the neighbours it touches.
* `Tiles` — the list covers each address of a range exactly once, and no other.
-/

namespace Pigfx.Lib

/-- The addresses from `start` on, `size` of them. -/
structure Interval where
  start : ℕ
  size : ℕ
  deriving DecidableEq, Repr

namespace Interval

/-- The first address behind the interval. -/
def stop (i : Interval) : ℕ := i.start + i.size

/-- The interval holds the address. -/
abbrev Has (i : Interval) (x : ℕ) : Prop := i.start ≤ x ∧ x < i.start + i.size

/-- Two intervals that touch, as one. -/
def join (i j : Interval) : Interval := ⟨i.start, i.size + j.size⟩

end Interval

/-! ## Covers -/

/-- How many members hold the address. -/
def cover (x : ℕ) (L : List Interval) : ℕ := L.countP fun i => decide (i.Has x)

@[simp] theorem cover_nil (x : ℕ) : cover x [] = 0 := rfl

theorem cover_cons (x : ℕ) (i : Interval) (L : List Interval) :
    cover x (i :: L) = (if i.Has x then 1 else 0) + cover x L := by
  simp only [cover, List.countP_cons, decide_eq_true_eq]
  omega

@[simp] theorem cover_append (x : ℕ) (L M : List Interval) :
    cover x (L ++ M) = cover x L + cover x M := by
  simp [cover]

theorem cover_perm {L M : List Interval} (h : L.Perm M) (x : ℕ) : cover x L = cover x M :=
  h.countP_eq _

theorem cover_pos {x : ℕ} {i : Interval} {L : List Interval} (hi : i ∈ L) (hx : i.Has x) :
    0 < cover x L := by
  simp only [cover, List.countP_pos_iff, decide_eq_true_eq]
  exact ⟨i, hi, hx⟩

theorem cover_eq_zero {x : ℕ} {L : List Interval} : cover x L = 0 ↔ ∀ i ∈ L, ¬i.Has x := by
  simp [cover, List.countP_eq_zero]

/-- The parts of a member that is cut cover what the whole did. -/
theorem cover_cut (x : ℕ) (A B : List Interval) {i : Interval} {d : ℕ} (hd : d ≤ i.size) :
    cover x (A ++ ⟨i.start + d, i.size - d⟩ :: B) + cover x [⟨i.start, d⟩]
      = cover x (A ++ i :: B) := by
  simp only [cover_append, cover_cons, cover_nil, Interval.Has]
  split_ifs <;> omega

/-! ## Order -/

/-- Each member ends before the next one starts, or where it starts. -/
def Ascending (L : List Interval) : Prop := L.Pairwise fun i j => i.stop ≤ j.start

/-- Each member ends before the next one starts, with a gap between them. -/
def Separated (L : List Interval) : Prop := L.Pairwise fun i j => i.stop < j.start

theorem Separated.ascending {L : List Interval} (h : Separated L) : Ascending L :=
  List.Pairwise.imp Nat.le_of_lt h

/-- Members in order have no address in common. -/
theorem Ascending.cover_le_one {L : List Interval} (h : Ascending L) (x : ℕ) : cover x L ≤ 1 := by
  induction L with
  | nil => exact Nat.zero_le _
  | cons i L ih =>
      rw [Ascending, List.pairwise_cons] at h
      rw [cover_cons]
      split
      · rename_i hx
        have hrest : cover x L = 0 := by
          rw [cover_eq_zero]
          intro j hj hxj
          have hij := h.1 j hj
          simp only [Interval.stop] at hij
          omega
        omega
      · have hrest := ih h.2
        omega

/-- No member of a separated list ends where one starts. -/
theorem Separated.stop_ne {L : List Interval} (h : Separated L) (hpos : ∀ i ∈ L, 0 < i.size)
    {i j : Interval} (hi : i ∈ L) (hj : j ∈ L) : i.stop ≠ j.start := by
  induction L with
  | nil => cases hi
  | cons k L ih =>
      have hk := List.pairwise_cons.mp h
      have hkpos := hpos k List.mem_cons_self
      rcases List.mem_cons.mp hi with hik | hiL <;> rcases List.mem_cons.mp hj with hjk | hjL
      · rw [hik, hjk]
        simp only [Interval.stop]
        omega
      · rw [hik]
        exact Nat.ne_of_lt (hk.1 j hjL)
      · have hlt := hk.1 i hiL
        rw [hjk]
        simp only [Interval.stop] at hlt ⊢
        omega
      · exact ih hk.2 (fun l hl => hpos l (List.mem_cons_of_mem _ hl)) hiL hjL

/-- An ascending list of non-empty intervals is no longer than the range it lies in. -/
theorem Ascending.length_le {L : List Interval} (h : Ascending L) (hpos : ∀ i ∈ L, 0 < i.size)
    {lo hi : ℕ} (hlo : lo ≤ hi) (hin : ∀ i ∈ L, lo ≤ i.start ∧ i.stop ≤ hi) :
    lo + L.length ≤ hi := by
  induction L generalizing lo with
  | nil => exact hlo
  | cons i L ih =>
      rw [Ascending, List.pairwise_cons] at h
      have hi := hin i List.mem_cons_self
      have hi0 := hpos i List.mem_cons_self
      have hrest := ih h.2 (fun j hj => hpos j (List.mem_cons_of_mem _ hj)) hi.2
        fun j hj => ⟨h.1 j hj, (hin j (List.mem_cons_of_mem _ hj)).2⟩
      simp only [Interval.stop] at hrest
      simp only [List.length_cons]
      omega

/-- The members of an ascending list start one behind the other. -/
theorem Ascending.starts_lt {L : List Interval} (h : Ascending L) (hpos : ∀ i ∈ L, 0 < i.size) :
    (L.map Interval.start).Pairwise (· < ·) := by
  rw [List.pairwise_map]
  refine List.Pairwise.imp_of_mem ?_ h
  intro i j hi _ hij
  have hi0 := hpos i hi
  simp only [Interval.stop] at hij
  omega

/-- A member may be replaced by a part of it. -/
theorem Separated.shrink {A B : List Interval} {i j : Interval} (h : Separated (A ++ i :: B))
    (hstart : i.start ≤ j.start) (hstop : j.stop ≤ i.stop) : Separated (A ++ j :: B) := by
  simp only [Separated, List.pairwise_append, List.pairwise_cons, List.mem_cons,
    forall_eq_or_imp] at h ⊢
  refine ⟨h.1, ⟨fun b hb => ?_, h.2.1.2⟩, fun a ha => ⟨?_, (h.2.2 a ha).2⟩⟩
  · have hb' := h.2.1.1 b hb
    omega
  · have ha' := (h.2.2 a ha).1
    omega

/-- An address divides an ascending list into what starts before it and what does not. -/
theorem Ascending.split {L : List Interval} (h : Ascending L) (s : ℕ) :
    ∃ A B, L = A ++ B ∧ (∀ a ∈ A, a.start < s) ∧ ∀ b ∈ B, s ≤ b.start := by
  induction L with
  | nil => exact ⟨[], [], rfl, by simp, by simp⟩
  | cons i L ih =>
      rw [Ascending, List.pairwise_cons] at h
      by_cases hi : i.start < s
      · obtain ⟨A, B, rfl, hA, hB⟩ := ih h.2
        exact ⟨i :: A, B, rfl, by simpa using ⟨hi, hA⟩, hB⟩
      · refine ⟨[], i :: L, rfl, by simp, ?_⟩
        intro b hb
        rcases List.mem_cons.mp hb with rfl | hb
        · omega
        · have hib := h.1 b hb
          simp only [Interval.stop] at hib
          omega

/-- A new interval that meets no member finds its place by its start alone. -/
theorem ascending_insert {A B : List Interval} {n : Interval} (h : Ascending (A ++ B))
    (hn : 0 < n.size) (hB : ∀ b ∈ B, 0 < b.size) (hlow : ∀ a ∈ A, a.start < n.start)
    (hhigh : ∀ b ∈ B, n.start < b.start) (hfree : ∀ x, n.Has x → cover x (A ++ B) = 0) :
    Ascending (A ++ n :: B) := by
  have hA : ∀ a ∈ A, a.stop ≤ n.start := by
    intro a ha
    have hx := cover_eq_zero.mp (hfree n.start ⟨Nat.le_refl _, by omega⟩) a (by simp [ha])
    have ha' := hlow a ha
    simp only [Interval.Has] at hx
    simp only [Interval.stop]
    omega
  have hBn : ∀ b ∈ B, n.stop ≤ b.start := by
    intro b hb
    by_contra hlt
    have hb' := hhigh b hb
    have hx : n.Has b.start := ⟨by omega, by simp only [Interval.stop] at hlt; omega⟩
    have hb0 := hB b hb
    exact cover_eq_zero.mp (hfree _ hx) b (by simp [hb]) ⟨Nat.le_refl _, by omega⟩
  rw [Ascending, List.pairwise_append] at h ⊢
  refine ⟨h.1, List.pairwise_cons.mpr ⟨hBn, h.2.1⟩, ?_⟩
  intro a ha b hb
  rcases List.mem_cons.mp hb with rfl | hb
  · exact hA a ha
  · exact h.2.2 a ha b hb

/-! ## Joining neighbours -/

/-- Join the first interval with each following one it touches, then go on with the
next. -/
def coalesce : Interval → List Interval → List Interval
  | i, [] => [i]
  | i, j :: L => if i.stop = j.start then coalesce (i.join j) L else i :: coalesce j L

theorem coalesce_nil (i : Interval) : coalesce i [] = [i] := rfl

theorem coalesce_cons (i j : Interval) (L : List Interval) :
    coalesce i (j :: L) = if i.stop = j.start then coalesce (i.join j) L else i :: coalesce j L := rfl

/-- Joining neighbours changes no cover. -/
theorem cover_coalesce (x : ℕ) (i : Interval) (L : List Interval) :
    cover x (coalesce i L) = cover x (i :: L) := by
  induction L generalizing i with
  | nil => rfl
  | cons j L ih =>
      rw [coalesce_cons]
      split
      · next h =>
          rw [ih]
          simp only [cover_cons, Interval.Has, Interval.join, Interval.stop] at h ⊢
          split_ifs <;> omega
      · rw [cover_cons, ih, cover_cons x i]

/-- What joining preserves, the joined list keeps. -/
theorem forall_coalesce {P : Interval → Prop}
    (hjoin : ∀ i j, P i → P j → i.stop = j.start → P (i.join j)) {i : Interval}
    {L : List Interval} (hi : P i) (hL : ∀ j ∈ L, P j) : ∀ j ∈ coalesce i L, P j := by
  induction L generalizing i with
  | nil => simpa [coalesce_nil] using hi
  | cons j L ih =>
      rw [coalesce_cons]
      have hj : P j := hL j List.mem_cons_self
      have hL' : ∀ j ∈ L, P j := fun l hl => hL l (List.mem_cons_of_mem _ hl)
      split
      · next h => exact ih (hjoin i j hi hj h) hL'
      · intro l hl
        rcases List.mem_cons.mp hl with rfl | hl
        · exact hi
        · exact ih hj hL' l hl

/-- The joined list starts where the list did. -/
theorem coalesce_eq_cons (i : Interval) (L : List Interval) :
    ∃ n M, coalesce i L = ⟨i.start, n⟩ :: M := by
  induction L generalizing i with
  | nil => exact ⟨i.size, [], rfl⟩
  | cons j L ih =>
      rw [coalesce_cons]
      split
      · exact ih (i.join j)
      · exact ⟨i.size, _, rfl⟩

/-- In the joined list no two members touch. -/
theorem separated_coalesce {i : Interval} {L : List Interval} (h : Ascending (i :: L)) :
    Separated (coalesce i L) := by
  induction L generalizing i with
  | nil => simp [coalesce_nil, Separated]
  | cons j L ih =>
      rw [Ascending, List.pairwise_cons] at h
      have hij := h.1 j List.mem_cons_self
      have htail := List.pairwise_cons.mp h.2
      rw [coalesce_cons]
      split
      · next heq =>
          refine ih (List.pairwise_cons.mpr ⟨?_, htail.2⟩)
          intro l hl
          have hjl := htail.1 l hl
          simp only [Interval.join, Interval.stop] at heq hjl ⊢
          omega
      · next hne =>
          refine List.pairwise_cons.mpr ⟨?_, ih h.2⟩
          refine forall_coalesce (P := fun l => i.stop < l.start) ?_ (by omega) ?_
          · intro l l' hl _ _
            exact hl
          · intro l hl
            have hjl := htail.1 l hl
            simp only [Interval.stop] at hij hne hjl ⊢
            omega

/-! ## Separated lists are canonical -/

private theorem cover_eq_zero_of_lt {L : List Interval} {x : ℕ}
    (h : ∀ i ∈ L, x < i.start) : cover x L = 0 := by
  refine cover_eq_zero.mpr fun i hi hx => ?_
  have := h i hi
  exact absurd hx.1 (by omega)

/-- Of two separated lists with one cover, the heads start together. -/
private theorem Separated.start_le {i j : Interval} {L M : List Interval} (hi : 0 < i.size)
    (hM : Separated (j :: M)) (h : ∀ x, cover x (i :: L) = cover x (j :: M)) :
    j.start ≤ i.start := by
  by_contra hlt
  have hz : cover i.start (j :: M) = 0 := by
    refine cover_eq_zero_of_lt fun l hl => ?_
    rcases List.mem_cons.mp hl with rfl | hl
    · omega
    · have := (List.pairwise_cons.mp hM).1 l hl
      simp only [Interval.stop] at this
      omega
  have hpos := cover_pos (x := i.start) (L := i :: L) List.mem_cons_self ⟨Nat.le_refl _, by omega⟩
  rw [h, hz] at hpos
  omega

/-- ... and end together. -/
private theorem Separated.size_le {i j : Interval} {L M : List Interval}
    (hL : Separated (i :: L)) (hs : i.start = j.start)
    (h : ∀ x, cover x (i :: L) = cover x (j :: M)) : j.size ≤ i.size := by
  by_contra hlt
  have hz : cover i.stop (i :: L) = 0 := by
    rw [cover_cons, cover_eq_zero_of_lt (List.pairwise_cons.mp hL).1, if_neg]
    simp [Interval.Has, Interval.stop]
  have hpos := cover_pos (x := i.stop) (L := j :: M) List.mem_cons_self
    ⟨by simp only [Interval.stop]; omega, by simp only [Interval.stop]; omega⟩
  rw [← h, hz] at hpos
  omega

/-- **Separated lists are canonical.**  Non-empty intervals with gaps between them
are determined by what they cover. -/
theorem Separated.unique {L M : List Interval} (hL : Separated L) (hM : Separated M)
    (hL0 : ∀ i ∈ L, 0 < i.size) (hM0 : ∀ i ∈ M, 0 < i.size)
    (h : ∀ x, cover x L = cover x M) : L = M := by
  induction L generalizing M with
  | nil =>
      cases M with
      | nil => rfl
      | cons j M =>
          have hj := hM0 j List.mem_cons_self
          have hpos := cover_pos (x := j.start) (L := j :: M) List.mem_cons_self
            ⟨Nat.le_refl _, by omega⟩
          rw [← h, cover_nil] at hpos
          omega
  | cons i L ih =>
      have hi := hL0 i List.mem_cons_self
      cases M with
      | nil =>
          have hpos := cover_pos (x := i.start) (L := i :: L) List.mem_cons_self
            ⟨Nat.le_refl _, by omega⟩
          rw [h, cover_nil] at hpos
          omega
      | cons j M =>
          have hj := hM0 j List.mem_cons_self
          have hs : i.start = j.start :=
            Nat.le_antisymm (Separated.start_le hj hL fun x => (h x).symm)
              (Separated.start_le hi hM h)
          have hn : i.size = j.size :=
            Nat.le_antisymm (Separated.size_le hM hs.symm fun x => (h x).symm)
              (Separated.size_le hL hs h)
          have hij : i = j := by
            cases i
            cases j
            simp_all
          subst hij
          rw [ih (List.pairwise_cons.mp hL).2 (List.pairwise_cons.mp hM).2
            (fun l hl => hL0 l (List.mem_cons_of_mem _ hl))
            (fun l hl => hM0 l (List.mem_cons_of_mem _ hl))]
          intro x
          have hx := h x
          rw [cover_cons, cover_cons] at hx
          omega

/-! ## Tilings -/

/-- The list covers each of the `n` addresses from `a` on exactly once, and covers no
other address. -/
def Tiles (a n : ℕ) (L : List Interval) : Prop :=
  ∀ x, cover x L = if a ≤ x ∧ x < a + n then 1 else 0

theorem Tiles.perm {a n : ℕ} {L M : List Interval} (h : Tiles a n L) (hLM : L.Perm M) :
    Tiles a n M :=
  fun x => (cover_perm hLM x).symm.trans (h x)

theorem Tiles.cover_le_one {a n : ℕ} {L : List Interval} (h : Tiles a n L) (x : ℕ) :
    cover x L ≤ 1 := by
  rw [h x]
  split_ifs <;> omega

/-- An address lies in one member only. -/
theorem eq_of_cover_le_one {x : ℕ} {L : List Interval} (h : cover x L ≤ 1) {i j : Interval}
    (hi : i ∈ L) (hj : j ∈ L) (hix : i.Has x) (hjx : j.Has x) : i = j := by
  obtain ⟨A, B, rfl⟩ := List.append_of_mem hi
  rw [cover_perm List.perm_middle, cover_cons, if_pos hix] at h
  by_contra hne
  have hmem : j ∈ A ++ B := by
    simp only [List.mem_append, List.mem_cons] at hj ⊢
    rcases hj with hj | rfl | hj
    · exact .inl hj
    · exact absurd rfl hne
    · exact .inr hj
  have hpos := cover_pos hmem hjx
  omega

/-- Non-empty intervals that do not meet start at different addresses. -/
theorem nodup_starts_of_cover {L : List Interval} (h : ∀ x, cover x L ≤ 1)
    (hpos : ∀ i ∈ L, 0 < i.size) : (L.map Interval.start).Nodup := by
  induction L with
  | nil => exact List.nodup_nil
  | cons i L ih =>
      have hi : i.Has i.start := ⟨Nat.le_refl _, by have := hpos i List.mem_cons_self; omega⟩
      refine List.nodup_cons.mpr ⟨fun hmem => ?_, ih (fun x => ?_) fun j hj =>
        hpos j (List.mem_cons_of_mem _ hj)⟩
      · obtain ⟨j, hj, hji⟩ := List.mem_map.mp hmem
        have hjpos := hpos j (List.mem_cons_of_mem _ hj)
        have hc := cover_pos (x := i.start) hj ⟨Nat.le_of_eq hji, by omega⟩
        have hx := h i.start
        rw [cover_cons, if_pos hi] at hx
        omega
      · have hx := h x
        rw [cover_cons] at hx
        omega

/-- A separated tiling is the range itself. -/
theorem Tiles.eq_singleton {a n : ℕ} {L : List Interval} (h : Tiles a n L) (hn : 0 < n)
    (hL : Separated L) (hL0 : ∀ i ∈ L, 0 < i.size) : L = [⟨a, n⟩] := by
  refine hL.unique (M := [⟨a, n⟩]) (by simp [Separated]) hL0 (by simpa using hn) fun x => ?_
  rw [h, cover_cons]
  simp [Interval.Has]

end Pigfx.Lib
