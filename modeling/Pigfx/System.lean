import Mathlib.Data.List.Induction
import Pigfx.Console
import Pigfx.Uart

/-!
# The terminal behind the receive ring

`term_main_loop` takes a byte out of the receive ring and prints it; the interrupts put
bytes into the ring and hand keys to the console in between.  A run is a list of these
events in any order.

The pin of the flow control tells the host to stop.  A host needs time to notice, and the
bytes that it sends until then have to find room in the ring.

## Main definitions

* `System`, `System.step` — the ring and the console, and what can happen.
* `Taken` — what reaches the console.
* `Watched` — a run with the bytes that the host has sent although it was told to stop.
-/

namespace Pigfx
open Lib

/-! ## The code -/

structure System where
  queue : UartBuffer
  con : Console

/-- What can happen, in any order. -/
inductive Event
  /-- a turn of the loop of `uart_fill_queue` -/
  | arrive (ch : Byte)
  /-- `term_main_loop` as far as `uart_fill_queue` -/
  | turn (dmaRunning : Bool)
  /-- the keyboard driver calls `_keypress_handler` -/
  | key (str : List Byte)

def System.step (b : Build) (s : System) : Event → System
  | .arrive ch => { s with queue := uartReceive ch s.queue }
  | .turn dmaRunning =>
      if ¬dmaRunning ∧ s.queue.start ≠ s.queue.stop then
        { queue := termMainLoopRead s.queue, con := s.con.putstring b [s.queue.data s.queue.start] }
      else s
  | .key str => { s with con := keypressHandler b str s.con }

/-- The main loop starts with an empty ring. -/
def System.boot (data : ℕ → Byte) (con : Console) : System := ⟨.boot data, con⟩

/-! ## What the console takes -/

inductive Taken
  | host (ch : Byte)
  | key (str : List Byte)

def Console.take (b : Build) (con : Console) : Taken → Console
  | .host ch => con.putstring b [ch]
  | .key str => keypressHandler b str con

def hostBytes (is : List Taken) : List Byte :=
  is.filterMap fun
    | .host ch => some ch
    | .key _ => none

def keyStrings (is : List Taken) : List (List Byte) :=
  is.filterMap fun
    | .host _ => none
    | .key str => some str

/-- The bytes that the host sends in a run. -/
def sent (es : List Event) : List Byte :=
  es.filterMap fun
    | .arrive ch => some ch
    | _ => none

/-- The keys that are pressed in a run. -/
def pressed (es : List Event) : List (List Byte) :=
  es.filterMap fun
    | .key str => some str
    | _ => none

/-- The events that concern the ring. -/
def traffic (es : List Event) : List (Traffic Byte) :=
  es.filterMap fun
    | .arrive ch => some (.arrive ch)
    | .turn dmaRunning => if dmaRunning then none else some .read
    | .key _ => none

theorem queue_step (b : Build) (s : System) (e : Event) :
    (s.step b e).queue = (traffic [e]).foldl UartBuffer.step s.queue := by
  cases e with
  | arrive ch => rfl
  | key str => rfl
  | turn dmaRunning =>
    cases dmaRunning with
    | true => rfl
    | false =>
      simp only [System.step, traffic, List.filterMap_cons, List.filterMap_nil, Bool.false_eq_true,
        not_false_eq_true, true_and, if_false, List.foldl_cons, List.foldl_nil, UartBuffer.step]
      split
      · rfl
      · next heq => rw [UartBuffer.termMainLoopRead_of_eq (not_not.mp heq)]

/-- **The ring sees its own events only.** -/
theorem queue_run (b : Build) (s : System) (es : List Event) :
    (es.foldl (System.step b) s).queue = (traffic es).foldl UartBuffer.step s.queue := by
  induction es generalizing s with
  | nil => rfl
  | cons e es ih =>
    have hsplit : traffic (e :: es) = traffic [e] ++ traffic es := by
      rw [← List.singleton_append]
      exact List.filterMap_append
    rw [List.foldl_cons, ih, queue_step, hsplit, List.foldl_append]

/-! ## Every run -/

/-- The console has taken the bytes that the ring has handed out, and the keys that were
pressed. -/
def Fed (b : Build) (con : Console) (es : List Event) (s : System) : Prop :=
  ∃ is : List Taken, s.con = is.foldl (Console.take b) con ∧ hostBytes is = s.queue.handed ∧
    keyStrings is = pressed es

theorem Fed.step {b : Build} {con : Console} {es : List Event} {s : System} (h : Fed b con es s) (e : Event) :
    Fed b con (es ++ [e]) (s.step b e) := by
  obtain ⟨is, hcon, hhost, hkeys⟩ := h
  have hpressed : pressed (es ++ [e]) = pressed es ++ pressed [e] := List.filterMap_append
  cases e with
  | arrive ch =>
    refine ⟨is, hcon, ?_, ?_⟩
    · rw [hhost]
      exact (UartBuffer.handed_uartReceive ch s.queue).symm
    · rw [hpressed, hkeys]
      exact (List.append_nil _).symm
  | key str =>
    refine ⟨is ++ [.key str], ?_, ?_, ?_⟩
    · rw [List.foldl_append, ← hcon]
      rfl
    · rw [hostBytes, List.filterMap_append, ← hostBytes, hhost]
      exact List.append_nil _
    · rw [keyStrings, List.filterMap_append, ← keyStrings, hkeys, hpressed]
      rfl
  | turn dmaRunning =>
    rw [System.step]
    by_cases hread : ¬dmaRunning ∧ s.queue.start ≠ s.queue.stop
    · obtain ⟨-, -, hhanded⟩ := UartBuffer.termMainLoopRead_spec hread.2
      rw [if_pos hread]
      refine ⟨is ++ [.host (s.queue.data s.queue.start)], ?_, ?_, ?_⟩
      · rw [List.foldl_append, ← hcon]
        rfl
      · rw [hostBytes, List.filterMap_append, ← hostBytes, hhost, hhanded]
        rfl
      · rw [keyStrings, List.filterMap_append, ← keyStrings, hkeys, hpressed]
        rfl
    · rw [if_neg hread]
      refine ⟨is, hcon, hhost, ?_⟩
      rw [hpressed, hkeys]
      exact (List.append_nil _).symm

theorem fed_run (b : Build) (data : ℕ → Byte) (con : Console) (es : List Event) :
    Fed b con es (es.foldl (System.step b) (.boot data con)) := by
  induction es using List.reverseRecOn with
  | nil => exact ⟨[], rfl, rfl, rfl⟩
  | append_singleton es e ih =>
    rw [List.foldl_append]
    exact ih.step e

/-- A run with the number of bytes that the host has sent since it was told to stop. -/
structure Watched where
  sys : System
  overrun : ℕ

def Watched.step (b : Build) (w : Watched) (e : Event) : Watched :=
  let sys := w.sys.step b e
  let overrun :=
    match e with
    | .arrive _ => if w.sys.queue.rtsPin then w.overrun + 1 else w.overrun
    | _ => w.overrun
  ⟨sys, if sys.queue.rtsPin then overrun else 0⟩

/-- The host sends at most `k` bytes until it stops. -/
def Heeds (k : ℕ) (w : Watched) : Event → Prop
  | .arrive _ => w.sys.queue.rtsPin = true → w.overrun < k
  | _ => True

theorem Heeds.mono {k l : ℕ} {w : Watched} {e : Event} (h : Heeds k w e) (hkl : k ≤ l) : Heeds l w e := by
  cases e with
  | arrive ch => exact fun hpin => (h hpin).trans_le hkl
  | turn dmaRunning => trivial
  | key str => trivial

/-- Every byte that was sent has been handed out or waits in the ring. -/
def Complete (q : UartBuffer) (bytes : List Byte) : Prop := q.handed ++ q.unread = bytes

/-- An event of the ring that fits loses nothing. -/
theorem complete_step {q : UartBuffer} {bytes : List Byte} (h : Complete q bytes)
    (hin : q.ring.Inside uartBufferSize) {e : Traffic Byte} (hfit : q.Fits e) :
    Complete (q.step e) (bytes ++ arrivals [e]) := by
  unfold Complete at *
  cases e with
  | arrive ch =>
    have hlt : q.ring.length uartBufferSize < uartBufferSize - 1 := by
      rw [← RingBuffer.length_contents]
      exact hfit
    have hpush := RingBuffer.contents_push hin ch
    rw [if_pos hlt] at hpush
    have hunread : (q.step (.arrive ch)).unread = q.unread ++ [ch] := by
      simp only [UartBuffer.unread, UartBuffer.step, UartBuffer.ring_uartReceive, hpush]
    rw [hunread, UartBuffer.step, UartBuffer.handed_uartReceive, ← List.append_assoc, h]
    rfl
  | read =>
    have hnone : arrivals [(.read : Traffic Byte)] = [] := rfl
    rw [hnone, List.append_nil]
    by_cases heq : q.start = q.stop
    · rw [UartBuffer.step, UartBuffer.termMainLoopRead_of_eq heq, h]
    · obtain ⟨hring, -, hhanded⟩ := UartBuffer.termMainLoopRead_spec heq
      have hpop := RingBuffer.contents_pop hin heq
      have hunread : q.unread = q.data q.start :: (termMainLoopRead q).unread := by
        rw [UartBuffer.unread, hpop, ← hring]
        rfl
      rw [UartBuffer.step, hhanded, ← h, hunread, List.append_assoc]
      rfl

/-- Nothing is lost so far, and the counter says how far the host has gone on. -/
structure Watched.Lossless (w : Watched) (es : List Event) : Prop where
  drift : w.sys.queue.Drift 0
  flow : w.sys.queue.Flow
  count_le : w.sys.queue.count ≤ rtsOffLimit + 1 + w.overrun
  complete : Complete w.sys.queue (sent es)

/-- The room that is left when the host is told to stop. -/
def slack : ℕ := uartBufferSize - 1 - (rtsOffLimit + 1)

theorem sent_append (es : List Event) (e : Event) : sent (es ++ [e]) = sent es ++ sent [e] :=
  List.filterMap_append

/-- A turn reads a byte or leaves the ring alone. -/
theorem queue_turn (b : Build) (s : System) (dmaRunning : Bool) :
    (s.step b (.turn dmaRunning)).queue = s.queue ∨
      (s.step b (.turn dmaRunning)).queue = s.queue.step .read := by
  rw [System.step]
  split
  · exact Or.inr rfl
  · exact Or.inl rfl

theorem count_read_le (q : UartBuffer) : (q.step .read).count ≤ q.count := by
  by_cases heq : q.start = q.stop
  · rw [UartBuffer.step, UartBuffer.termMainLoopRead_of_eq heq]
  · rw [UartBuffer.step, (UartBuffer.termMainLoopRead_spec heq).2.1]
    exact Nat.sub_le _ 1

theorem rtsOn_of_pin {q : UartBuffer} (hflow : q.Flow) (hpin : q.rtsPin = false) : q.rtsOn = true := by
  have hflag := hflow.pin
  rw [hpin] at hflag
  cases hon : q.rtsOn with
  | true => rfl
  | false =>
    rw [hon] at hflag
    cases hflag

/-- A host that heeds the pin finds room for its byte. -/
theorem Watched.Lossless.fits {w : Watched} {es : List Event} (h : w.Lossless es) {ch : Byte}
    (hheeds : Heeds slack w (.arrive ch)) : w.sys.queue.Fits (.arrive ch) := by
  have hcount := h.drift.count_eq
  have hlimit : rtsOffLimit + 1 + slack = uartBufferSize - 1 := rfl
  have hle := h.count_le
  change w.sys.queue.unread.length < uartBufferSize - 1
  cases hon : w.sys.queue.rtsOn with
  | true =>
    have hlow := h.flow.on_le hon
    omega
  | false =>
    have hpin : w.sys.queue.rtsPin = true := by rw [h.flow.pin, hon]; rfl
    have hroom : w.overrun < slack := hheeds hpin
    omega

/-- The counter stays within the bound if it grows with the overrun only. -/
theorem Watched.count_le_of {q : UartBuffer} (hflow : q.Flow) {n : ℕ}
    (h : q.rtsPin = true → q.count ≤ rtsOffLimit + 1 + n) :
    q.count ≤ rtsOffLimit + 1 + (if q.rtsPin then n else 0) := by
  cases hpin : q.rtsPin with
  | true => exact h hpin
  | false =>
    have hle := hflow.on_le (rtsOn_of_pin hflow hpin)
    simp only [Bool.false_eq_true, if_false]
    omega

theorem Watched.Lossless.step {w : Watched} {es : List Event} (b : Build) (h : w.Lossless es) (e : Event)
    (hheeds : Heeds slack w e) : (w.step b e).Lossless (es ++ [e]) := by
  obtain ⟨hdrift, hflow, hcount, hcomplete⟩ := h
  cases e with
  | arrive ch =>
    have hfit := Watched.Lossless.fits ⟨hdrift, hflow, hcount, hcomplete⟩ hheeds
    have hflow' := hflow.step (.arrive ch)
    refine ⟨hdrift.fits (by omega) hfit, hflow', Watched.count_le_of hflow' fun _ => ?_, ?_⟩
    · have hnext : (w.sys.queue.step (.arrive ch)).count ≤ w.sys.queue.count + 1 := by
        rw [UartBuffer.step, UartBuffer.count_uartReceive]
        split <;> omega
      cases hpin : w.sys.queue.rtsPin with
      | true =>
        simp only [if_true]
        omega
      | false =>
        have hlow := hflow.on_le (rtsOn_of_pin hflow hpin)
        simp only [Bool.false_eq_true, if_false]
        omega
    · rw [sent_append]
      exact complete_step hcomplete hdrift.inside hfit
  | key str =>
    refine ⟨hdrift, hflow, Watched.count_le_of hflow fun _ => hcount, ?_⟩
    rw [sent_append]
    exact (List.append_nil (sent es)).symm ▸ hcomplete
  | turn dmaRunning =>
    have hsent : sent (es ++ [.turn dmaRunning]) = sent es := by
      rw [sent_append]
      exact List.append_nil _
    rcases queue_turn b w.sys dmaRunning with heq | heq
    · refine ⟨?_, ?_, ?_, ?_⟩
      all_goals simp only [Watched.step, heq, hsent]
      · exact hdrift
      · exact hflow
      · exact Watched.count_le_of hflow fun _ => hcount
      · exact hcomplete
    · have hflow' := hflow.step .read
      have hread := complete_step hcomplete hdrift.inside (e := .read) trivial
      refine ⟨?_, ?_, ?_, ?_⟩
      all_goals simp only [Watched.step, heq, hsent]
      · exact hdrift.fits (by omega) trivial
      · exact hflow'
      · exact Watched.count_le_of hflow' fun _ => (count_read_le _).trans hcount
      · exact (List.append_nil (sent es)) ▸ hread

theorem watched_sys (b : Build) (w : Watched) (es : List Event) :
    (es.foldl (Watched.step b) w).sys = es.foldl (System.step b) w.sys := by
  induction es generalizing w with
  | nil => rfl
  | cons e es ih => exact ih (w.step b e)

theorem lossless_run (b : Build) {w : Watched} {past es : List Event} (hw : w.Lossless past)
    (h : Along (Watched.step b) (Heeds slack) w es) :
    (es.foldl (Watched.step b) w).Lossless (past ++ es) := by
  induction es generalizing w past with
  | nil => rwa [List.append_nil]
  | cons e es ih =>
    have hrest := ih (hw.step b e h.1) h.2
    rwa [List.append_assoc] at hrest

theorem lossless_boot (data : ℕ → Byte) (con : Console) : Watched.Lossless ⟨.boot data con, 0⟩ [] :=
  ⟨UartBuffer.drift_boot data, UartBuffer.flow_boot data, Nat.zero_le _,
    (congrArg _ (UartBuffer.unread_boot data)).trans rfl⟩

/-! ### A host that is too slow -/

section Slow
variable (b : Build) (data : ℕ → Byte) (con : Console)

/-- The run in which only the host does something. -/
def flood (n : ℕ) : List Event := List.replicate n (.arrive 0)

theorem traffic_flood (n : ℕ) : traffic (flood n) = List.replicate n (.arrive 0) :=
  List.filterMap_replicate_of_some rfl

theorem sent_flood (n : ℕ) : sent (flood n) = List.replicate n 0 :=
  List.filterMap_replicate_of_some rfl

theorem rtsPin_receive {q : UartBuffer} {ch : Byte} (h : (uartReceive ch q).rtsPin = true) :
    q.rtsPin = true ∨ rtsOffLimit < q.count + 1 := by
  by_contra hno
  obtain ⟨hpin, hlow⟩ := not_or.mp hno
  refine hpin ?_
  have hcount : ¬(if q.count < uartBufferSize then q.count + 1 else q.count) > rtsOffLimit := by
    split <;> omega
  rw [uartReceive, rtsHold, if_neg fun hboth => hcount hboth.2] at h
  exact h

/-- The overrun of a host that never stops. -/
theorem overrun_flood (n : ℕ) (hn : n < uartBufferSize) :
    let w := (flood n).foldl (Watched.step b) ⟨.boot data con, 0⟩
    (w.sys.queue.rtsPin = true → rtsOffLimit < n) ∧ w.overrun ≤ n - (rtsOffLimit + 1) ∧
      w.sys.queue.count = n := by
  induction n with
  | zero => exact ⟨nofun, le_rfl, rfl⟩
  | succ n ih =>
    obtain ⟨hpin, hover, hcount⟩ := ih (by omega)
    rw [flood, List.replicate_succ', List.foldl_append, ← flood]
    generalize (flood n).foldl (Watched.step b) ⟨.boot data con, 0⟩ = w at *
    simp only [List.foldl_cons, List.foldl_nil, Watched.step, System.step]
    refine ⟨fun hnext => ?_, ?_, ?_⟩
    · rcases rtsPin_receive hnext with hbefore | hlimit
      · exact (hpin hbefore).trans (Nat.lt_succ_self n)
      · rwa [hcount] at hlimit
    · have hreset {p : Prop} [Decidable p] {x m : ℕ} (hx : x ≤ m) : (if p then x else 0) ≤ m := by
        split
        · exact hx
        · exact Nat.zero_le m
      refine hreset ?_
      by_cases hbefore : w.sys.queue.rtsPin = true
      · have hlow := hpin hbefore
        rw [if_pos hbefore]
        omega
      · rw [if_neg hbefore]
        omega
    · rw [UartBuffer.count_uartReceive, hcount, if_pos (by omega)]

/-- A host that goes on for more bytes than there is room for. -/
theorem heeds_flood {k : ℕ} (hk : slack < k) (n : ℕ) (hn : n ≤ uartBufferSize) :
    Along (Watched.step b) (Heeds k) ⟨.boot data con, 0⟩ (flood n) := by
  induction n with
  | zero => trivial
  | succ n ih =>
    obtain ⟨-, hover, -⟩ := overrun_flood b data con n (by omega)
    have hlimit : rtsOffLimit + 1 + slack = uartBufferSize - 1 := rfl
    rw [flood, List.replicate_succ', along_append]
    exact ⟨ih (by omega), fun _ => by rw [← flood]; omega, trivial⟩

theorem handed_flood (n : ℕ) :
    ((List.replicate n (.arrive 0)).foldl UartBuffer.step (.boot data)).handed = [] := by
  induction n with
  | zero => rfl
  | succ n ih =>
    rw [List.replicate_succ', List.foldl_append, ← ih]
    exact UartBuffer.handed_uartReceive 0 _

end Slow

/-- **Nothing is lost** if the host sends at most 4094 bytes after it was told to stop, and a
host that sends more may lose a byte.  As long as nothing is lost the console has taken all
that was sent, up to the bytes that still wait. -/
theorem stream_lossless_iff (b : Build) (data : ℕ → Byte) (con : Console) (k : ℕ) :
    (∀ es, Along (Watched.step b) (Heeds k) ⟨.boot data con, 0⟩ es →
      let s := es.foldl (System.step b) (.boot data con)
      ∃ is : List Taken, s.con = is.foldl (Console.take b) con ∧ keyStrings is = pressed es ∧
        hostBytes is = s.queue.handed ∧ hostBytes is ++ s.queue.unread = sent es) ↔ k ≤ 4094 := by
  have hslack : slack = 4094 := rfl
  constructor
  · intro h
    by_contra hk
    obtain ⟨is, -, -, hhost, hall⟩ := h (flood uartBufferSize) (heeds_flood b data con (by omega) _ le_rfl)
    have hqueue : ((flood uartBufferSize).foldl (System.step b) (.boot data con)).queue =
        (List.replicate uartBufferSize (.arrive 0)).foldl UartBuffer.step (.boot data) := by
      rw [queue_run, traffic_flood]
      rfl
    rw [hqueue] at hhost hall
    obtain ⟨-, hlength⟩ := UartBuffer.overfill_boot data 0 (uartBufferSize - 1) rfl
    have hnone : ((List.replicate uartBufferSize (.arrive 0)).foldl UartBuffer.step (.boot data)).handed = [] :=
      handed_flood data _
    have hbytes := congrArg List.length hall
    rw [hhost, hnone, sent_flood, List.nil_append, hlength, List.length_replicate] at hbytes
    exact absurd hbytes (by decide)
  · intro hk es hes
    have hheeds : Along (Watched.step b) (Heeds slack) ⟨.boot data con, 0⟩ es :=
      hes.mono (I := fun _ => True) (fun _ _ _ _ => trivial)
        (fun w e _ h => h.mono (by omega)) trivial
    have hrun := lossless_run b (lossless_boot data con) hheeds
    obtain ⟨is, hcon, hhost, hkeys⟩ := fed_run b data con es
    refine ⟨is, hcon, hkeys, hhost, ?_⟩
    have hcomplete := hrun.complete
    rw [watched_sys] at hcomplete
    rw [hhost]
    exact hcomplete

end Pigfx
