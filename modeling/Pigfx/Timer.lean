import Mathlib.Algebra.Group.Int.Defs
import Mathlib.Algebra.Group.Nat.Defs
import Mathlib.Data.Int.Notation
import Mathlib.Data.List.Perm.Basic
import Mathlib.Data.List.Nodup
import Pigfx.Lib.Loop

/-!
# The timer table

`stupid_timer.c` keeps twenty timers in a table.  A slot whose handler is null is
free; `timer_poll` clears the slot of a timer that is due and then calls its handler,
which may itself attach and detach timers, also in slots the poll has passed or has
yet to reach.

Every call leaves a note.  The notes alone say which timers are outstanding: those
that were attached and neither fired nor detached since.  What the table does is then
compared with that list.

A poll is given the clock readings it makes and the calls each handler makes, so a
statement about every poll is one about every behaviour of the handlers.

## Main definitions

* `attachTimerHandler`, `detachTimerHandler`, `timerPoll` — the code.
* `outstanding` — the timers a list of notes leaves running.
* `Timers.Tracks` — the table holds exactly the outstanding timers.
* `Note.Lawful` — what a note promises about the notes before it.
* `fires_iff` — when a poll invokes a handler, for every reading of the clock.
-/

namespace Pigfx.Timer
open Lib

variable {H P C : Type}

/-! ## The code -/

/-- An entry of the table, for any kind of handlers, parameters and contexts; no
handler stands for the null pointer. -/
structure TimerUnit (H P C : Type) where
  handler : Option H
  pParam : P
  pContext : C
  microsecInterval : BitVec 32
  lastTick : BitVec 32
  deriving DecidableEq

def nTimers : ℕ := 20

/-- What was called, and with which handle: the one an attach returned, the one a
detach was given, or the one a handler was invoked with. -/
inductive Note (H P C : Type)
  | attach (hnd : BitVec 32) (u : TimerUnit H P C)
  | detach (hnd : BitVec 32)
  | fire (hnd : BitVec 32) (handler : H) (pParam : P) (pContext : C)
  deriving DecidableEq

/-- The table and the notes, oldest first. -/
structure Timers (H P C : Type) where
  units : ℕ → TimerUnit H P C
  notes : List (Note H P C)

/-- The handle of a slot. -/
def handle (hnd : ℕ) : BitVec 32 := BitVec.ofNat 32 (hnd + 1)

namespace Timers

def note (n : Note H P C) (s : Timers H P C) : Timers H P C := { s with notes := s.notes ++ [n] }

def setUnit (hnd : ℕ) (u : TimerUnit H P C) (s : Timers H P C) : Timers H P C :=
  { s with units := Function.update s.units hnd u }

/-- Set the handler of a slot to null. -/
def clear (hnd : ℕ) (s : Timers H P C) : Timers H P C :=
  s.setUnit hnd { s.units hnd with handler := none }

end Timers

def timersInit (units : ℕ → TimerUnit H P C) : Timers H P C where
  units hnd := { units hnd with handler := none }
  notes := []

/-- The entry an attach fills in. -/
def TimerUnit.attached (millis : BitVec 32) (handler : H) (pParam : P) (pContext : C)
    (now : BitVec 32) : TimerUnit H P C :=
  { handler := some handler, pParam, pContext, microsecInterval := millis * 1000, lastTick := now }

def attachTimerHandler (millis : BitVec 32) (handler : H) (pParam : P) (pContext : C)
    (now : BitVec 32) (s : Timers H P C) : BitVec 32 × Timers H P C :=
  let u := TimerUnit.attached millis handler pParam pContext now
  match (List.range nTimers).find? fun hnd => (s.units hnd).handler.isNone with
  | some hnd => (handle hnd, (s.setUnit hnd u).note (.attach (handle hnd) u))
  | none => (0, s.note (.attach 0 u))

def detachTimerHandler (hnd : BitVec 32) (s : Timers H P C) : Timers H P C :=
  (if (hnd - 1).toNat < nTimers then s.clear (hnd - 1).toNat else s).note (.detach hnd)

/-- The time has come, as far as a wrapping clock can tell. -/
def TimerUnit.due (u : TimerUnit H P C) (tnow : BitVec 32) : Prop :=
  tnow - u.lastTick > u.microsecInterval ∧
    (tnow > u.lastTick ∨ tnow < u.lastTick ∧ u.lastTick - tnow > 1000000)

instance (u : TimerUnit H P C) (tnow : BitVec 32) : Decidable (u.due tnow) :=
  inferInstanceAs (Decidable (_ ∧ (_ ∨ _ ∧ _)))

/-- A call of the two functions that handlers may use. -/
inductive Call (H P C : Type)
  | attach (millis : BitVec 32) (handler : H) (pParam : P) (pContext : C) (now : BitVec 32)
  | detach (hnd : BitVec 32)

def Call.run (s : Timers H P C) : Call H P C → Timers H P C
  | .attach millis handler pParam pContext now =>
    (attachTimerHandler millis handler pParam pContext now s).2
  | .detach hnd => detachTimerHandler hnd s

/-- One turn of the loop of `timer_poll`; `body` is what the handler calls. -/
def pollSlot (tnow : BitVec 32) (body : List (Call H P C)) (hnd : ℕ) (s : Timers H P C) :
    Timers H P C :=
  let u := s.units hnd
  match u.handler with
  | none => s
  | some handler =>
    if u.due tnow then
      body.foldl Call.run
        ((s.clear hnd).note (.fire (handle hnd) handler u.pParam u.pContext))
    else s

def timerPoll (tnow : ℕ → BitVec 32) (body : ℕ → List (Call H P C)) (s : Timers H P C) :
    Timers H P C :=
  iterate nTimers (fun hnd s => pollSlot (tnow hnd) (body hnd) hnd s) s

/-- A call from outside. -/
inductive Op (H P C : Type)
  | call (c : Call H P C)
  | poll (tnow : ℕ → BitVec 32) (body : ℕ → List (Call H P C))

def Op.run (s : Timers H P C) : Op H P C → Timers H P C
  | .call c => c.run s
  | .poll tnow body => timerPoll tnow body s

/-! ## Outstanding timers -/

/-- A successful attach adds a timer; a detach or an invocation removes it. -/
def Note.update (running : List (BitVec 32 × TimerUnit H P C)) :
    Note H P C → List (BitVec 32 × TimerUnit H P C)
  | .attach hnd u => if hnd = 0 then running else running ++ [(hnd, u)]
  | .detach hnd => running.filter (·.1 ≠ hnd)
  | .fire hnd _ _ _ => running.filter (·.1 ≠ hnd)

/-- The timers that were attached and have neither fired nor been detached. -/
def outstanding (notes : List (Note H P C)) : List (BitVec 32 × TimerUnit H P C) :=
  notes.foldl Note.update []

theorem outstanding_append (p : List (Note H P C)) (n : Note H P C) :
    outstanding (p ++ [n]) = n.update (outstanding p) := by
  simp [outstanding]

/-- What a note promises, given the timers running before it. -/
def Note.Lawful (running : List (BitVec 32 × TimerUnit H P C)) : Note H P C → Prop
  | .attach hnd _ => hnd = 0 ↔ running.length = nTimers
  | .detach _ => True
  | .fire hnd handler pParam pContext =>
    ∃ u, (hnd, u) ∈ running ∧ u.handler = some handler ∧ u.pParam = pParam ∧
      u.pContext = pContext

/-! ## Handles and slots -/

theorem handle_sub_one {i : ℕ} (hi : i < nTimers) : (handle i - 1).toNat = i := by
  simp only [nTimers] at hi
  simp [handle]
  omega

theorem handle_inj {i j : ℕ} (hi : i < nTimers) (hj : j < nTimers) (h : handle i = handle j) :
    i = j := by
  rw [← handle_sub_one hi, h, handle_sub_one hj]

theorem handle_ne_zero {i : ℕ} (hi : i < nTimers) : handle i ≠ 0 := by
  simp only [nTimers] at hi
  intro h
  have h := congrArg BitVec.toNat h
  simp [handle] at h
  omega

/-- Every handle names a slot number, if not always one of the table. -/
theorem handle_slot (hnd : BitVec 32) : handle (hnd - 1).toNat = hnd := by
  apply BitVec.eq_of_toNat_eq
  simp [handle, BitVec.toNat_sub]
  omega

/-! ## The table holds the outstanding timers -/

/-- The occupied slots are the running timers, each under its own handle. -/
structure Tracks (units : ℕ → TimerUnit H P C) (running : List (BitVec 32 × TimerUnit H P C)) :
    Prop where
  mem_iff : ∀ hnd u, (hnd, u) ∈ running ↔
    ∃ i < nTimers, hnd = handle i ∧ units i = u ∧ u.handler.isSome
  nodup : (running.map Prod.fst).Nodup

variable {units : ℕ → TimerUnit H P C} {running : List (BitVec 32 × TimerUnit H P C)}

theorem Tracks.clear (h : Tracks units running) {i : ℕ} (hi : i < nTimers) :
    Tracks (Function.update units i { units i with handler := none })
      (running.filter (·.1 ≠ handle i)) := by
  constructor
  · intro hnd u
    rw [List.mem_filter, h.mem_iff]
    constructor
    · rintro ⟨⟨j, hj, rfl, rfl, hsome⟩, hne⟩
      have hji : j ≠ i := fun heq => by simp [heq] at hne
      exact ⟨j, hj, rfl, Function.update_of_ne hji _ _, hsome⟩
    · rintro ⟨j, hj, rfl, rfl, hsome⟩
      by_cases hji : j = i
      · subst hji
        simp at hsome
      · rw [Function.update_of_ne hji] at hsome ⊢
        have hne : handle j ≠ handle i := fun heq => hji (handle_inj hj hi heq)
        exact ⟨⟨j, hj, rfl, rfl, hsome⟩, by simpa using hne⟩
  · exact h.nodup.sublist (List.filter_sublist.map _)

/-- A detach of a number that is no slot's handle concerns no timer. -/
theorem Tracks.filter_of_not_lt (h : Tracks units running) {hnd : BitVec 32}
    (hout : ¬(hnd - 1).toNat < nTimers) : running.filter (·.1 ≠ hnd) = running := by
  rw [List.filter_eq_self]
  rintro ⟨hnd', u⟩ hmem
  obtain ⟨i, hi, rfl, -⟩ := (h.mem_iff hnd' u).mp hmem
  have hne : handle i ≠ hnd := by
    rintro rfl
    exact hout (by rwa [handle_sub_one hi])
  simpa using hne

theorem Tracks.attach (h : Tracks units running) {i : ℕ} (hi : i < nTimers)
    (hfree : (units i).handler.isNone) {u : TimerUnit H P C} (hu : u.handler.isSome) :
    Tracks (Function.update units i u) (running ++ [(handle i, u)]) := by
  have hnew : handle i ∉ running.map Prod.fst := by
    intro hmem
    obtain ⟨⟨hnd, v⟩, hv, heq⟩ := List.mem_map.mp hmem
    obtain ⟨j, hj, rfl, rfl, hsome⟩ := (h.mem_iff hnd v).mp hv
    obtain rfl : j = i := handle_inj hj hi heq
    simp [Option.isNone_iff_eq_none.mp hfree] at hsome
  constructor
  · intro hnd v
    rw [List.mem_append, h.mem_iff, List.mem_singleton]
    constructor
    · rintro (⟨j, hj, rfl, rfl, hsome⟩ | heq)
      · have hji : j ≠ i := by
          rintro rfl
          simp [Option.isNone_iff_eq_none.mp hfree] at hsome
        exact ⟨j, hj, rfl, Function.update_of_ne hji _ _, hsome⟩
      · obtain ⟨rfl, rfl⟩ := Prod.mk.inj heq
        exact ⟨i, hi, rfl, Function.update_self _ _ _, hu⟩
    · rintro ⟨j, hj, rfl, rfl, hsome⟩
      by_cases hji : j = i
      · subst hji
        exact Or.inr (by rw [Function.update_self])
      · rw [Function.update_of_ne hji] at hsome ⊢
        exact Or.inl ⟨j, hj, rfl, rfl, hsome⟩
  · rw [List.map_append, List.nodup_append]
    refine ⟨h.nodup, by simp, ?_⟩
    rintro a ha b hb rfl
    obtain rfl : a = handle i := by simpa using hb
    exact hnew ha

/-- There are as many running timers as occupied slots. -/
theorem Tracks.length_eq (h : Tracks units running) :
    running.length =
      ((List.range nTimers).filter fun i => (units i).handler.isSome).length := by
  have hperm : (running.map Prod.fst).Perm
      (((List.range nTimers).filter fun i => (units i).handler.isSome).map handle) := by
    refine (List.perm_ext_iff_of_nodup h.nodup ?_).mpr ?_
    · refine List.Nodup.map_on ?_ (List.nodup_range.filter _)
      intro i hi j hj heq
      simp only [List.mem_filter, List.mem_range] at hi hj
      exact handle_inj hi.1 hj.1 heq
    · intro hnd
      simp only [List.mem_map, List.mem_filter, List.mem_range, Prod.exists, exists_and_right,
        exists_eq_right, h.mem_iff]
      constructor
      · rintro ⟨u, i, hi, rfl, rfl, hsome⟩
        exact ⟨i, ⟨hi, hsome⟩, rfl⟩
      · rintro ⟨i, ⟨hi, hsome⟩, rfl⟩
        exact ⟨_, i, hi, rfl, rfl, hsome⟩
  simpa using hperm.length_eq

theorem Tracks.length_le (h : Tracks units running) : running.length ≤ nTimers := by
  rw [h.length_eq]
  exact Nat.le_trans (List.length_filter_le _ _) (by simp)

/-- The table is full when no slot is free. -/
theorem Tracks.length_eq_iff (h : Tracks units running) :
    running.length = nTimers ↔ ∀ i < nTimers, (units i).handler.isSome := by
  have hrange := List.length_filter_eq_length_iff
    (p := fun i => (units i).handler.isSome) (l := List.range nTimers)
  rw [List.length_range] at hrange
  rw [h.length_eq, hrange]
  simp

/-- Distinct handles other than zero, and no more of them than slots. -/
structure Distinct (running : List (BitVec 32 × TimerUnit H P C)) : Prop where
  nodup : (running.map Prod.fst).Nodup
  nonzero : 0 ∉ running.map Prod.fst
  length_le : running.length ≤ nTimers

theorem Tracks.distinct (h : Tracks units running) : Distinct running := by
  refine ⟨h.nodup, ?_, h.length_le⟩
  intro hmem
  obtain ⟨⟨hnd, u⟩, hu, heq⟩ := List.mem_map.mp hmem
  obtain ⟨i, hi, rfl, -⟩ := (h.mem_iff hnd u).mp hu
  exact handle_ne_zero hi heq

/-! ## Lawful notes -/

/-- Every note keeps its promise, and at every moment the running timers have distinct
handles. -/
structure Lawful (notes : List (Note H P C)) : Prop where
  distinct : ∀ p, p <+: notes → Distinct (outstanding p)
  lawful : ∀ p n, p ++ [n] <+: notes → n.Lawful (outstanding p)

theorem Lawful.concat {notes : List (Note H P C)} (h : Lawful notes) {n : Note H P C}
    (hn : n.Lawful (outstanding notes)) (hdist : Distinct (outstanding (notes ++ [n]))) :
    Lawful (notes ++ [n]) := by
  constructor
  · intro p hp
    rcases List.prefix_concat_iff.mp hp with rfl | hp
    · exact hdist
    · exact h.distinct p hp
  · intro p m hp
    rcases List.prefix_concat_iff.mp hp with heq | hp
    · obtain ⟨rfl, hm⟩ := List.append_inj' heq rfl
      obtain rfl : m = n := by simpa using hm
      exact hn
    · exact h.lawful p m hp

/-- **The invariant**: the table holds the outstanding timers and the notes are
lawful. -/
structure Timers.Good (s : Timers H P C) : Prop where
  tracks : Tracks s.units (outstanding s.notes)
  lawful : Lawful s.notes

/-- A lawful note that the table keeps up with preserves the invariant. -/
theorem Timers.Good.note {s : Timers H P C} (h : s.Good) {n : Note H P C}
    (hn : n.Lawful (outstanding s.notes)) {units : ℕ → TimerUnit H P C}
    (ht : Tracks units (n.update (outstanding s.notes))) :
    (Timers.note n { s with units := units }).Good := by
  have ht' : Tracks units (outstanding (s.notes ++ [n])) := by
    rwa [outstanding_append]
  exact ⟨ht', h.lawful.concat hn ht'.distinct⟩

theorem Timers.Good.attach {s : Timers H P C} (h : s.Good) (millis : BitVec 32) (handler : H)
    (pParam : P) (pContext : C) (now : BitVec 32) :
    (attachTimerHandler millis handler pParam pContext now s).2.Good := by
  have hfull := h.tracks.length_eq_iff
  simp only [attachTimerHandler]
  split
  · rename_i i hfind
    have hi : i < nTimers := List.mem_range.mp (List.mem_of_find?_eq_some hfind)
    have hfree : (s.units i).handler.isNone :=
      List.find?_some (p := fun hnd => (s.units hnd).handler.isNone) hfind
    have hne := handle_ne_zero hi
    refine h.note ?_ ?_
    · refine iff_of_false hne fun hlen => ?_
      have hsome := hfull.mp hlen i hi
      simp [Option.isNone_iff_eq_none.mp hfree] at hsome
    · simp only [Note.update, if_neg hne]
      exact h.tracks.attach hi hfree rfl
  · rename_i hfind
    refine h.note ?_ ?_
    · refine iff_of_true rfl (hfull.mpr fun i hi => ?_)
      have hocc := List.find?_eq_none.mp hfind i (List.mem_range.mpr hi)
      rw [← Option.not_isNone, Bool.not_eq_true']
      exact Bool.eq_false_iff.mpr hocc
    · simpa [Note.update] using h.tracks

theorem Timers.Good.detach {s : Timers H P C} (h : s.Good) (hnd : BitVec 32) :
    (detachTimerHandler hnd s).Good := by
  simp only [detachTimerHandler]
  split
  · rename_i hlt
    refine h.note (n := .detach hnd) trivial ?_
    have hclear := h.tracks.clear hlt
    rwa [handle_slot] at hclear
  · rename_i hout
    refine h.note (n := .detach hnd) trivial ?_
    simpa only [Note.update, h.tracks.filter_of_not_lt hout] using h.tracks

theorem Timers.Good.call {s : Timers H P C} (h : s.Good) (c : Call H P C) : (c.run s).Good := by
  cases c with
  | attach millis handler pParam pContext now => exact h.attach millis handler pParam pContext now
  | detach hnd => exact h.detach hnd

/-- An invocation reads the entry that its attach filled in. -/
theorem Timers.Good.fire {s : Timers H P C} (h : s.Good) {i : ℕ} (hi : i < nTimers) {f : H}
    (hf : (s.units i).handler = some f) :
    ((s.clear i).note (.fire (handle i) f (s.units i).pParam (s.units i).pContext)).Good := by
  refine h.note ?_ (h.tracks.clear hi)
  refine ⟨s.units i, ?_, hf, rfl, rfl⟩
  exact (h.tracks.mem_iff _ _).mpr ⟨i, hi, rfl, rfl, by rw [hf]; rfl⟩

theorem Timers.Good.pollSlot {s : Timers H P C} (h : s.Good) {i : ℕ} (hi : i < nTimers)
    (tnow : BitVec 32) (body : List (Call H P C)) : (pollSlot tnow body i s).Good := by
  simp only [Timer.pollSlot]
  split
  · exact h
  · rename_i f hf
    split
    · exact foldl_invariant (fun _ c h => h.call c) _ body (h.fire hi hf)
    · exact h

/-- A handler may do what it likes: the table is in order again before it starts. -/
theorem Timers.Good.timerPoll {s : Timers H P C} (h : s.Good) (tnow : ℕ → BitVec 32)
    (body : ℕ → List (Call H P C)) : (timerPoll tnow body s).Good :=
  iterate_induction nTimers _ s (fun _ s => s.Good) h fun i _ hi hs =>
    hs.pollSlot hi (tnow i) (body i)

theorem Timers.Good.run {s : Timers H P C} (h : s.Good) (op : Op H P C) : (op.run s).Good := by
  cases op with
  | call c => exact h.call c
  | poll tnow body => exact h.timerPoll tnow body

/-! ## One-shot timers -/

/-- The poll invokes the handler of the slot, as its entry says. -/
def Timers.Fires (s : Timers H P C) (hnd : ℕ) (tnow : BitVec 32) (body : List (Call H P C)) : Prop :=
  ∃ f, (s.units hnd).handler = some f ∧
    s.notes ++ [.fire (handle hnd) f (s.units hnd).pParam (s.units hnd).pContext] <+:
      (pollSlot tnow body hnd s).notes

theorem notes_call (s : Timers H P C) (c : Call H P C) : s.notes <+: (c.run s).notes := by
  cases c with
  | attach millis handler pParam pContext now =>
    simp only [Call.run, attachTimerHandler]
    split
    · exact List.prefix_append _ _
    · exact List.prefix_append _ _
  | detach hnd =>
    simp only [Call.run, detachTimerHandler]
    split
    · exact List.prefix_append _ _
    · exact List.prefix_append _ _

theorem notes_calls (body : List (Call H P C)) (s : Timers H P C) :
    s.notes <+: (body.foldl Call.run s).notes := by
  induction body generalizing s with
  | nil => exact List.prefix_rfl
  | cons c body ih => exact (notes_call s c).trans (ih (c.run s))

/-- A slot fires exactly if its timer is due. -/
theorem Timers.fires_iff_due {s : Timers H P C} {hnd : ℕ} {f : H} (hf : (s.units hnd).handler = some f)
    (tnow : BitVec 32) (body : List (Call H P C)) : s.Fires hnd tnow body ↔ (s.units hnd).due tnow := by
  constructor
  · rintro ⟨f', -, hnotes⟩
    by_contra hdue
    have hpoll : pollSlot tnow body hnd s = s := by
      simp only [pollSlot, hf, if_neg hdue]
    rw [hpoll] at hnotes
    have hlen := hnotes.length_le
    simp only [List.length_append, List.length_singleton] at hlen
    omega
  · intro hdue
    refine ⟨f, hf, ?_⟩
    simp only [pollSlot, hf, if_pos hdue]
    exact notes_calls body ((s.clear hnd).note (.fire (handle hnd) f _ _))

section Clock
variable {u : TimerUnit H P C} {d : ℤ}

/-- What the clock shows `d` microseconds after the attach. -/
def TimerUnit.clock (u : TimerUnit H P C) (d : ℤ) : BitVec 32 := BitVec.ofInt 32 (u.lastTick.toNat + d)

theorem TimerUnit.toNat_clock : ((u.clock d).toNat : ℤ) = (u.lastTick.toNat + d) % 2 ^ 32 := by
  rw [clock, BitVec.toNat_ofInt]
  omega

/-- The unsigned difference is the true time, up to whole turns of the counter. -/
theorem TimerUnit.toNat_clock_sub : ((u.clock d - u.lastTick).toNat : ℤ) = d % 2 ^ 32 := by
  have hclock := u.toNat_clock (d := d)
  have hlast := u.lastTick.isLt
  rw [BitVec.toNat_sub]
  omega

/-- The three comparisons, as comparisons of numbers. -/
theorem TimerUnit.due_clock_iff : u.due (u.clock d) ↔
    u.microsecInterval.toNat < d % 2 ^ 32 ∧
      (u.lastTick.toNat < (u.lastTick.toNat + d) % 2 ^ 32 ∨
        (u.lastTick.toNat + d) % 2 ^ 32 + 1000000 < u.lastTick.toNat) := by
  have hclock := u.toNat_clock (d := d)
  have hsub := u.toNat_clock_sub (d := d)
  have hlast := u.lastTick.isLt
  have hback : u.lastTick.toNat ≤ (u.clock d).toNat ∨
      (u.lastTick - u.clock d).toNat = u.lastTick.toNat - (u.clock d).toNat := by
    rw [BitVec.toNat_sub]
    omega
  have hguard : (1000000 : BitVec 32).toNat = 1000000 := rfl
  simp only [due, gt_iff_lt, BitVec.lt_def, hguard]
  omega

/-- **Late polls**: up to a second before the counter comes round, a poll is right. -/
theorem TimerUnit.due_iff_of_late (h0 : 0 ≤ d) (h : d < 2 ^ 32 - 1000000) :
    u.due (u.clock d) ↔ u.microsecInterval.toNat < d := by
  have hlast := u.lastTick.isLt
  rw [due_clock_iff]
  omega

/-- **Early polls**: a reading up to a second older than the timer is taken for one from the
future if the counter passed zero in between. -/
theorem TimerUnit.due_iff_of_early (h0 : -1000000 ≤ d) (h : d < 0)
    (hi : u.microsecInterval.toNat < 2 ^ 31) : u.due (u.clock d) ↔ u.lastTick.toNat + d < 0 := by
  have hlast := u.lastTick.isLt
  rw [due_clock_iff]
  omega

end Clock

/-- **A poll fires a timer exactly if its interval has passed**, unless the reading is older
than the timer and the counter passed zero in between. -/
theorem fires_iff (s : Timers H P C) {hnd : ℕ} {f : H} (hf : (s.units hnd).handler = some f)
    (body : List (Call H P C)) {d : ℤ} (hlo : -1000000 ≤ d) (hhi : d < 2 ^ 32 - 1000000)
    (hearly : d < 0 → (s.units hnd).microsecInterval.toNat < 2 ^ 31) :
    (s.Fires hnd ((s.units hnd).clock d) body ↔ (s.units hnd).microsecInterval.toNat < d) ↔
      0 ≤ d ∨ -d ≤ (s.units hnd).lastTick.toNat := by
  rw [Timers.fires_iff_due hf]
  by_cases h0 : 0 ≤ d
  · rw [TimerUnit.due_iff_of_late h0 hhi]
    simp [h0]
  · rw [TimerUnit.due_iff_of_early hlo (by omega) (hearly (by omega))]
    omega

/-- A timer of two seconds, attached at tick `now`. -/
def attachedAt (now : BitVec 32) : Timers Unit Unit Unit :=
  (attachTimerHandler 2000 () () () now (timersInit fun _ => .attached 1 () () () 0)).2

theorem fires_iff_wrapped :
    ((attachedAt (-1000000)).Fires 0 (((attachedAt (-1000000)).units 0).clock 2000001) [] ↔
      ((attachedAt (-1000000)).units 0).microsecInterval.toNat < (2000001 : ℤ)) :=
  (@fires_iff _ _ _ (attachedAt (-1000000)) 0 () rfl [] 2000001 (by decide) (by decide)
    (fun h => absurd h (by decide))).mpr (Or.inl (by decide))

/-- A timer attached six ticks after the reading, five after the counter passed zero, fires
in that poll. -/
theorem fires_at_once :
    (attachedAt 5).Fires 0 (((attachedAt 5).units 0).clock (-6)) [] ∧
      ((attachedAt 5).units 0).microsecInterval.toNat = 2000000 := by
  refine ⟨(Timers.fires_iff_due (f := ()) rfl _ _).mpr ?_, rfl⟩
  decide

end Pigfx.Timer
