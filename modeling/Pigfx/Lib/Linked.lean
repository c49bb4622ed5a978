import Mathlib.Data.List.Basic
import Mathlib.Tactic.Common

/-!
# Linked lists

A doubly linked list is a list of nodes together with two functions that say, for
each node, which nodes are its neighbours.  What is proved of a list being linked
is proved of segments, between a node before and a node behind, so that a list may
be cut wherever a loop stands and put together again.

Putting a node between two segments is one theorem (`Linked.splice`), whatever was
there before: an insertion starts from two halves of one list, a replacement and a
removal from the parts that stay.

A walk needs the links in one direction only.

## Main definitions

* `Links` — the two link functions.
* `Linked k p L e` — the nodes `L` are linked in order, from `p` before them to `e`
  behind them.
* `Leads next L e` — the nodes `L` are linked in one direction.
* `follow` — the loop that goes from node to node while a condition holds.
* `walk` — the nodes met on the way to the end.
-/

namespace Pigfx.Lib

universe u
variable {α : Type u}

/-- Where each node says its neighbours are. -/
structure Links (α : Type u) where
  prev : α → α
  next : α → α

/-- The nodes are linked in order; the first points back to `p`, the last on to `e`. -/
def Linked (k : Links α) : α → List α → α → Prop
  | _, [], _ => True
  | p, a :: L, e => k.prev a = p ∧ k.next a = L.headD e ∧ Linked k a L e

/-! ## Segments -/

variable {k k' : Links α} {p q e e' : α} {L A B : List α}

theorem headD_append (A B : List α) (e : α) : (A ++ B).headD e = A.headD (B.headD e) := by
  cases A <;> rfl

theorem headD_mem {d : α} (h : L.headD d ≠ d) : L.headD d ∈ L := by
  cases L with
  | nil => exact absurd rfl h
  | cons a L => exact List.mem_cons_self

theorem getLastD_mem {d : α} (h : L.getLastD d ≠ d) : L.getLastD d ∈ L :=
  (List.mem_cons.mp List.getLastD_mem_cons).resolve_left h

theorem linked_append (A B : List α) :
    Linked k p (A ++ B) e ↔ Linked k p A (B.headD e) ∧ Linked k (A.getLastD p) B e := by
  induction A generalizing p with
  | nil => simp [Linked]
  | cons a A ih =>
      simp only [List.cons_append, Linked, ih, headD_append, List.getLastD_cons, and_assoc]

/-- Links that agree on the nodes of a segment link it alike. -/
theorem Linked.congr (h : Linked k p L e)
    (hk : ∀ a ∈ L, k'.prev a = k.prev a ∧ k'.next a = k.next a) : Linked k' p L e := by
  induction L generalizing p with
  | nil => trivial
  | cons a L ih =>
      have ha := hk a List.mem_cons_self
      exact ⟨ha.1.trans h.1, ha.2.trans h.2.1, ih h.2.2 fun b hb => hk b (List.mem_cons_of_mem _ hb)⟩

/-- When only the last node's next link changes, the segment leads somewhere else. -/
theorem Linked.leadTo [DecidableEq α] (h : Linked k p L e) (hL : L.Nodup)
    (hprev : ∀ a ∈ L, k'.prev a = k.prev a)
    (hnext : ∀ a ∈ L, k'.next a = if a = L.getLastD p then e' else k.next a) :
    Linked k' p L e' := by
  induction L generalizing p with
  | nil => trivial
  | cons a L ih =>
      have ha := List.nodup_cons.mp hL
      refine ⟨(hprev a List.mem_cons_self).trans h.1, ?_, ?_⟩
      · rw [hnext a List.mem_cons_self, List.getLastD_cons]
        cases L with
        | nil => simp
        | cons b L =>
            have hne : a ≠ L.getLastD b := by
              rintro rfl
              exact ha.1 List.getLastD_mem_cons
            rw [List.getLastD_cons, if_neg hne, h.2.1]
            rfl
      · refine ih h.2.2 ha.2 (fun b hb => hprev b (List.mem_cons_of_mem _ hb)) ?_
        intro b hb
        rw [hnext b (List.mem_cons_of_mem _ hb), List.getLastD_cons]

/-- When only the first node's prev link changes, the segment comes from somewhere else. -/
theorem Linked.comeFrom [DecidableEq α] (h : Linked k p L e) (hL : L.Nodup)
    (hnext : ∀ a ∈ L, k'.next a = k.next a)
    (hprev : ∀ a ∈ L, k'.prev a = if a = L.headD e then q else k.prev a) :
    Linked k' q L e := by
  cases L with
  | nil => trivial
  | cons a L =>
      refine ⟨?_, (hnext a List.mem_cons_self).trans h.2.1, ?_⟩
      · rw [hprev a List.mem_cons_self]
        simp
      · refine h.2.2.congr fun b hb => ⟨?_, hnext b (List.mem_cons_of_mem _ hb)⟩
        rw [hprev b (List.mem_cons_of_mem _ hb), if_neg]
        rintro rfl
        exact (List.nodup_cons.mp hL).1 hb

/-- **A node between two segments.**  Its links name the ends of the segments, the
ends' links name it, and all other links of the segments are kept. -/
theorem Linked.splice [DecidableEq α] {n e₁ p₁ : α} (hA : Linked k p A e₁) (hB : Linked k p₁ B e)
    (hdA : A.Nodup) (hdB : B.Nodup) (hn : k'.prev n = A.getLastD p ∧ k'.next n = B.headD e)
    (hprevA : ∀ a ∈ A, k'.prev a = k.prev a)
    (hnextA : ∀ a ∈ A, k'.next a = if a = A.getLastD p then n else k.next a)
    (hnextB : ∀ b ∈ B, k'.next b = k.next b)
    (hprevB : ∀ b ∈ B, k'.prev b = if b = B.headD e then n else k.prev b) :
    Linked k' p (A ++ n :: B) e :=
  (linked_append A (n :: B)).mpr
    ⟨hA.leadTo hdA hprevA hnextA, hn.1, hn.2, hB.comeFrom hdB hnextB hprevB⟩

/-! ## Links in one direction -/

/-- Each node says which one is next; the last one says `e`. -/
def Leads (next : α → α) : List α → α → Prop
  | [], _ => True
  | a :: L, e => next a = L.headD e ∧ Leads next L e

theorem Linked.leads (h : Linked k p L e) : Leads k.next L e := by
  induction L generalizing p with
  | nil => trivial
  | cons a L ih => exact ⟨h.2.1, ih h.2.2⟩

/-- The nodes by their positions. -/
theorem leads_iff {next : α → α} :
    Leads next L e ↔ ∀ i (hi : i < L.length), next L[i] = L.getD (i + 1) e := by
  induction L with
  | nil => simp [Leads]
  | cons a L ih =>
      have hhead : L.headD e = (a :: L).getD (0 + 1) e := by cases L <;> rfl
      rw [Leads, ih, hhead]
      constructor
      · rintro ⟨hfirst, hrest⟩ (_ | i) hi
        · exact hfirst
        · exact hrest i (Nat.lt_of_succ_lt_succ hi)
      · intro h
        exact ⟨h 0 (Nat.succ_pos _), fun i hi => h (i + 1) (Nat.succ_lt_succ hi)⟩

/-! ## Going along a list -/

/-- From node to node while the condition holds.  The first argument bounds the
number of steps. -/
def follow (next : α → α) (cond : α → Bool) : ℕ → α → Option α
  | 0, _ => none
  | n + 1, a => if cond a then follow next cond n (next a) else some a

/-- The nodes from here to the end `e`.  The first argument bounds their number. -/
def walk [DecidableEq α] (next : α → α) (e : α) : ℕ → α → Option (List α)
  | 0, _ => none
  | n + 1, a => if a = e then some [] else (walk next e n (next a)).map (a :: ·)

/-- The loop stops at the first node of the list at which the condition fails. -/
theorem follow_eq {cond : α → Bool} {a : α} (h : Linked k p (A ++ a :: B) e)
    (hA : ∀ b ∈ A, cond b = true) (ha : cond a = false) {n : ℕ} (hn : A.length < n) :
    follow k.next cond n (A.headD a) = some a := by
  induction A generalizing p n with
  | nil =>
      obtain ⟨n, rfl⟩ : ∃ m, n = m + 1 := ⟨n - 1, by simp at hn; omega⟩
      simp [follow, ha]
  | cons b A ih =>
      obtain ⟨n, rfl⟩ : ∃ m, n = m + 1 := ⟨n - 1, by simp at hn; omega⟩
      have hb : cond b = true := hA b List.mem_cons_self
      have hnext : k.next b = A.headD a := h.2.1.trans (headD_append A (a :: B) e)
      rw [List.headD_cons, follow, if_pos hb, hnext]
      exact ih h.2.2 (fun c hc => hA c (List.mem_cons_of_mem _ hc))
        (by simp only [List.length_cons] at hn; omega)

section Walk
variable [DecidableEq α] {next next' : α → α}

/-- Walking a list yields its nodes. -/
theorem Leads.walk_eq (h : Leads next L e) (he : e ∉ L) {n : ℕ} (hn : L.length < n) :
    walk next e n (L.headD e) = some L := by
  induction L generalizing n with
  | nil =>
      obtain ⟨n, rfl⟩ : ∃ m, n = m + 1 := ⟨n - 1, by simp at hn; omega⟩
      simp [walk]
  | cons a L ih =>
      obtain ⟨n, rfl⟩ : ∃ m, n = m + 1 := ⟨n - 1, by simp at hn; omega⟩
      have hae : a ≠ e := fun heq => he (heq ▸ List.mem_cons_self)
      rw [List.headD_cons, walk, if_neg hae, h.1,
        ih h.2 (fun hL => he (List.mem_cons_of_mem _ hL))
          (by simp only [List.length_cons] at hn; omega)]
      rfl

theorem walk_eq (h : Linked k p L e) (he : e ∉ L) {n : ℕ} (hn : L.length < n) :
    walk k.next e n (L.headD e) = some L :=
  h.leads.walk_eq he hn

/-- What is behind the nodes of a set that the links do not leave does not matter. -/
theorem walk_congr {S : Set α} (hS : ∀ a ∈ S, next a = e ∨ next a ∈ S)
    (heq : ∀ a ∈ S, next' a = next a) (n : ℕ) {a : α} (ha : a = e ∨ a ∈ S) :
    walk next' e n a = walk next e n a := by
  induction n generalizing a with
  | zero => rfl
  | succ n ih =>
      by_cases hae : a = e
      · rw [walk, walk, if_pos hae, if_pos hae]
      · have haS := ha.resolve_left hae
        rw [walk, walk, if_neg hae, if_neg hae, heq a haS, ih (hS a haS)]

theorem mem_of_walk {S : Set α} (hS : ∀ a ∈ S, next a = e ∨ next a ∈ S) {n : ℕ} {a : α}
    (ha : a = e ∨ a ∈ S) (h : walk next e n a = some L) : ∀ b ∈ L, b ∈ S := by
  induction n generalizing a L with
  | zero => exact nomatch h
  | succ n ih =>
      rw [walk] at h
      by_cases hae : a = e
      · rw [if_pos hae] at h
        cases h
        exact fun b hb => nomatch hb
      · rw [if_neg hae, Option.map_eq_some_iff] at h
        obtain ⟨L, hL, rfl⟩ := h
        have haS := ha.resolve_left hae
        intro b hb
        rcases List.mem_cons.mp hb with rfl | hb
        · exact haS
        · exact ih (hS a haS) hL b hb

end Walk

end Pigfx.Lib
