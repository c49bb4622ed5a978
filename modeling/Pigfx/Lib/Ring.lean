import Mathlib.Data.Nat.Notation
import Mathlib.Logic.Function.Basic
import Mathlib.Tactic.Common
import Pigfx.Lib.Loop

/-!
# Circular buffers and bounded queues

A circular buffer of `N` cells keeps a head and a tail index, each of which wraps to
zero behind the last cell.  Equal indices mean an empty buffer, so it can hold
`N - 1` entries only; a push into a full buffer moves the head and drops the oldest
entry.  Read from the head, the buffer is a queue of capacity `N - 1` that discards
its oldest entry when it overflows.

## Main definitions

* `RingBuffer`, `RingBuffer.push`, `RingBuffer.pop` — the buffer and its two operations.
* `RingBuffer.contents` — the entries between head and tail, oldest first.
* `Traffic`, `Fifo`, `Fifo.step` — the bounded queue, with what it handed out.
* `RingBuffer.contents_push`, `RingBuffer.contents_pop` — the buffer is the queue.
-/

namespace Pigfx.Lib

universe u
variable {α : Type u}

/-! ## Indices -/

/-- The index behind `i` in a buffer of `N` cells. -/
def nextIndex (N i : ℕ) : ℕ := if i + 1 ≥ N then 0 else i + 1

/-- The index `k` places behind `h`. -/
def slot (N h k : ℕ) : ℕ := if h + k < N then h + k else h + k - N

/-- How many places the tail is behind the head. -/
def occupied (N h t : ℕ) : ℕ := if h ≤ t then t - h else N - h + t

variable {N h t k : ℕ}

theorem nextIndex_lt (hN : 0 < N) : nextIndex N h < N := by
  simp only [nextIndex]
  split <;> omega

@[simp] theorem slot_zero (hh : h < N) : slot N h 0 = h := by
  simp [slot, hh]

theorem slot_occupied (hh : h < N) (ht : t < N) : slot N h (occupied N h t) = t := by
  simp only [slot, occupied]
  split <;> split <;> omega

theorem slot_nextIndex (hh : h < N) (hk : k < N) :
    slot N (nextIndex N h) k = slot N h (k + 1) := by
  simp only [slot, nextIndex]
  split <;> split <;> split <;> omega

theorem slot_ne {j : ℕ} (hj : j < k) (hk : k < N) : slot N h j ≠ slot N h k := by
  simp only [slot]
  split <;> split <;> omega

theorem occupied_lt (hh : h < N) (ht : t < N) : occupied N h t < N := by
  simp only [occupied]
  split <;> omega

@[simp] theorem occupied_self : occupied N h h = 0 := by
  simp [occupied]

/-- The tail moves one place away from the head, unless it meets it. -/
theorem occupied_nextIndex (hh : h < N) (ht : t < N) (hne : nextIndex N t ≠ h) :
    occupied N h (nextIndex N t) = occupied N h t + 1 := by
  simp only [occupied, nextIndex] at hne ⊢
  split_ifs at hne ⊢ <;> omega

/-- The tail meets the head when all places but one are occupied. -/
theorem nextIndex_eq_iff (hh : h < N) (ht : t < N) :
    nextIndex N t = h ↔ occupied N h t = N - 1 := by
  simp only [occupied, nextIndex]
  split <;> split <;> omega

/-- A head that is right behind the tail has all places but one in front of it. -/
theorem occupied_nextIndex_self (hh : h < N) : occupied N (nextIndex N h) h = N - 1 := by
  simp only [occupied, nextIndex]
  split <;> split <;> omega

/-- The head moves one place towards the tail. -/
theorem occupied_head (hh : h < N) (ht : t < N) (hne : h ≠ t) :
    occupied N (nextIndex N h) t + 1 = occupied N h t := by
  simp only [occupied, nextIndex]
  split <;> split <;> split <;> omega

/-! ## Windows -/

/-- The `n` cells from index `h` on. -/
def window (N : ℕ) (cells : ℕ → α) (h n : ℕ) : List α :=
  (List.range n).map fun k => cells (slot N h k)

@[simp] theorem length_window (cells : ℕ → α) (n : ℕ) : (window N cells h n).length = n := by
  simp [window]

theorem window_succ (cells : ℕ → α) (n : ℕ) :
    window N cells h (n + 1) = window N cells h n ++ [cells (slot N h n)] := by
  simp [window, List.range_succ]

/-- A window is its first cell followed by the window behind it. -/
theorem window_cons (cells : ℕ → α) {n : ℕ} (hh : h < N) (hn : n < N) :
    window N cells h (n + 1) = cells h :: window N cells (nextIndex N h) n := by
  simp only [window, List.range_succ_eq_map, List.map_cons, List.map_map, slot_zero hh]
  congr 1
  apply List.map_congr_left
  intro k hk
  have hkn : k < n := List.mem_range.mp hk
  simp only [Function.comp_apply, slot_nextIndex hh (Nat.lt_trans hkn hn), Nat.succ_eq_add_one]

/-- A store right behind a window does not change it. -/
theorem window_update (cells : ℕ → α) (x : α) {n : ℕ} (hn : n < N) :
    window N (Function.update cells (slot N h n) x) h n = window N cells h n := by
  apply List.map_congr_left
  intro k hk
  exact Function.update_of_ne (slot_ne (List.mem_range.mp hk) hn) _ _

/-! ## The circular buffer -/

/-- The cells, the index of the oldest entry and the index of the next free cell. -/
structure RingBuffer (α : Type u) where
  cells : ℕ → α
  head : ℕ
  tail : ℕ

namespace RingBuffer

/-- Both indices are inside a buffer of `N` cells. -/
structure Inside (N : ℕ) (r : RingBuffer α) : Prop where
  head_lt : r.head < N
  tail_lt : r.tail < N

/-- Store at the tail and advance it; if it meets the head, advance that too. -/
def push (N : ℕ) (x : α) (r : RingBuffer α) : RingBuffer α :=
  let tail := nextIndex N r.tail
  { cells := Function.update r.cells r.tail x
    head := if tail = r.head then nextIndex N r.head else r.head
    tail := tail }

/-- Advance the head. -/
def pop (N : ℕ) (r : RingBuffer α) : RingBuffer α := { r with head := nextIndex N r.head }

/-- The number of entries. -/
def length (N : ℕ) (r : RingBuffer α) : ℕ := occupied N r.head r.tail

/-- The entries, oldest first. -/
def contents (N : ℕ) (r : RingBuffer α) : List α := window N r.cells r.head (r.length N)

variable {r : RingBuffer α}

@[simp] theorem length_contents : (r.contents N).length = r.length N := by
  simp [contents]

theorem Inside.length_lt (hr : r.Inside N) : r.length N < N :=
  occupied_lt hr.head_lt hr.tail_lt

theorem Inside.push (hr : r.Inside N) (x : α) : (r.push N x).Inside N := by
  have hN : 0 < N := Nat.zero_lt_of_lt hr.head_lt
  constructor
  · simp only [RingBuffer.push]
    split
    · exact nextIndex_lt hN
    · exact hr.head_lt
  · exact nextIndex_lt hN

theorem Inside.pop (hr : r.Inside N) : (r.pop N).Inside N :=
  ⟨nextIndex_lt (Nat.zero_lt_of_lt hr.head_lt), hr.tail_lt⟩

/-- The store of a push, read from the old head. -/
theorem window_push (hr : r.Inside N) (x : α) :
    window N (r.push N x).cells r.head (r.length N + 1) = r.contents N ++ [x] := by
  have hslot : slot N r.head (r.length N) = r.tail := slot_occupied hr.head_lt hr.tail_lt
  have hkeep := window_update (h := r.head) r.cells x hr.length_lt
  rw [hslot] at hkeep
  rw [window_succ, hslot]
  simp [RingBuffer.push, contents, hkeep]

/-- **A push appends**, and drops the oldest entry if the buffer was full. -/
theorem contents_push (hr : r.Inside N) (x : α) :
    (r.push N x).contents N =
      if r.length N < N - 1 then r.contents N ++ [x] else (r.contents N ++ [x]).tail := by
  have hlt := hr.length_lt
  have hmeet := nextIndex_eq_iff hr.head_lt hr.tail_lt
  rw [← window_push hr x]
  by_cases hfull : nextIndex N r.tail = r.head
  · have hlen : r.length N = N - 1 := hmeet.mp hfull
    have hpush : (r.push N x).length N = r.length N := by
      simp [length, push, hfull, occupied_nextIndex_self hr.head_lt, hmeet.mp hfull]
    rw [if_neg (by omega), contents, hpush, window_cons _ hr.head_lt hlt]
    simp [push, hfull]
  · have hlen : r.length N ≠ N - 1 := fun h => hfull (hmeet.mpr h)
    have hpush : (r.push N x).length N = r.length N + 1 := by
      simp [length, push, hfull, occupied_nextIndex hr.head_lt hr.tail_lt hfull]
    rw [if_pos (by omega), contents, hpush]
    simp [push, hfull]

theorem length_pop (hr : r.Inside N) (hne : r.head ≠ r.tail) :
    (r.pop N).length N + 1 = r.length N :=
  occupied_head hr.head_lt hr.tail_lt hne

/-- **A pop removes the oldest entry**, which is the one at the head. -/
theorem contents_pop (hr : r.Inside N) (hne : r.head ≠ r.tail) :
    r.contents N = r.cells r.head :: (r.pop N).contents N := by
  have hlen := length_pop hr hne
  have hlt := hr.length_lt
  rw [contents, ← hlen, window_cons _ hr.head_lt (by omega)]
  rfl

theorem length_push (hr : r.Inside N) (x : α) :
    (r.push N x).length N = if r.length N < N - 1 then r.length N + 1 else r.length N := by
  rw [← length_contents, contents_push hr]
  split <;> simp

theorem contents_of_eq (heq : r.head = r.tail) : r.contents N = [] := by
  simp [contents, length, heq, window]

end RingBuffer

/-! ## The bounded queue -/

/-- What may happen to a queue. -/
inductive Traffic (α : Type u)
  | arrive (x : α)
  | read
  deriving DecidableEq

/-- A queue, what it has handed out so far, and how many entries it has lost. -/
structure Fifo (α : Type u) where
  waiting : List α
  handed : List α
  lost : ℕ

namespace Fifo

def empty : Fifo α := ⟨[], [], 0⟩

/-- A full queue loses its oldest entry to an arrival; an empty one hands out
nothing. -/
def step (c : ℕ) (f : Fifo α) : Traffic α → Fifo α
  | .arrive x =>
    if f.waiting.length < c then { f with waiting := f.waiting ++ [x] }
    else { f with waiting := (f.waiting ++ [x]).tail, lost := f.lost + 1 }
  | .read =>
    match f.waiting with
    | [] => f
    | x :: xs => { f with waiting := xs, handed := f.handed ++ [x] }

end Fifo

/-- The entries that arrive, in order. -/
def arrivals (steps : List (Traffic α)) : List α :=
  steps.filterMap fun
    | .arrive x => some x
    | .read => none

theorem arrivals_append (xs ys : List (Traffic α)) :
    arrivals (xs ++ ys) = arrivals xs ++ arrivals ys :=
  List.filterMap_append

/-- What a queue handed out and still holds is a part of what arrived, in the same
order, and everything else is counted as lost. -/
structure Fifo.Accounts (f : Fifo α) (arrived : List α) : Prop where
  sublist : (f.handed ++ f.waiting).Sublist arrived
  length_eq : f.handed.length + f.waiting.length + f.lost = arrived.length

theorem Fifo.Accounts.step {f : Fifo α} {arrived : List α} (hf : f.Accounts arrived) (c : ℕ)
    (e : Traffic α) : (f.step c e).Accounts (arrived ++ arrivals [e]) := by
  obtain ⟨hsub, hlen⟩ := hf
  cases e with
  | arrive x =>
    have happ : (f.handed ++ (f.waiting ++ [x])).Sublist (arrived ++ [x]) := by
      simpa using hsub.append_right [x]
    simp only [Fifo.step, arrivals, List.filterMap_cons, List.filterMap_nil]
    split
    · exact ⟨happ, by simp; omega⟩
    · refine ⟨?_, by simp; omega⟩
      exact ((List.tail_sublist _).append_left _).trans happ
  | read =>
    simp only [Fifo.step, arrivals, List.filterMap_cons, List.filterMap_nil, List.append_nil]
    split
    · exact ⟨hsub, hlen⟩
    · rename_i x xs hw
      rw [hw] at hsub hlen
      exact ⟨by simpa using hsub, by simp at hlen ⊢; omega⟩

theorem Fifo.Accounts.foldl (c : ℕ) (steps : List (Traffic α)) {f : Fifo α} {arrived : List α}
    (hf : f.Accounts arrived) :
    (steps.foldl (Fifo.step c) f).Accounts (arrived ++ arrivals steps) := by
  induction steps generalizing f arrived with
  | nil => simpa [arrivals] using hf
  | cons e steps ih =>
    have hrest := ih (hf.step c e)
    rwa [List.append_assoc, ← arrivals_append] at hrest

/-- **A bounded queue accounts for everything that arrived.** -/
theorem Fifo.accounts_foldl (c : ℕ) (steps : List (Traffic α)) :
    (steps.foldl (Fifo.step c) Fifo.empty).Accounts (arrivals steps) := by
  have hempty : (Fifo.empty : Fifo α).Accounts [] := ⟨by simp [Fifo.empty], rfl⟩
  simpa using hempty.foldl c steps

end Pigfx.Lib
