import Pigfx.Gfx.Types
import Pigfx.Lib.Ring

/-!
# The serial receive buffer

The interrupt routine of `pigfx.c` stores the bytes of the host in a ring and
`term_main_loop` takes them out one at a time.  A counter kept beside the two indices
decides when the host is told to stop and when it may go on.

The indices are offsets from `uart_buffer`.  A run is a list of arrivals and reads, in
any order; the queue it is compared with is the bounded queue of the library.

## Main definitions

* `UartBuffer` — the ring, the counter, the flow control and what was handed over.
* `uartReceive`, `termMainLoopRead` — an arrival and a read.
* `UartBuffer.Good` — the invariant of every run.
-/

namespace Pigfx
open Lib

/-! ## The code -/

def uartBufferSize : ℕ := 16384
def rtsOffLimit : ℕ := 3 * uartBufferSize / 4
def rtsOnLimit : ℕ := uartBufferSize / 4

/-- The globals of the receive path, and the bytes `gfx_term_putstring` was given. -/
structure UartBuffer where
  /-- `uart_buffer` -/
  data : ℕ → Byte
  /-- `uart_buffer_start` -/
  start : ℕ
  /-- `uart_buffer_end` -/
  stop : ℕ
  /-- `uart_buffer_count` -/
  count : ℕ
  rtsOn : Bool
  /-- `QUASI_RTS_PIN`; high tells the host to stop -/
  rtsPin : Bool
  handed : List Byte

def heartbeatInit (q : UartBuffer) : UartBuffer := { q with rtsOn := true, rtsPin := false }

def initializeUartIrq (q : UartBuffer) : UartBuffer :=
  { q with start := 0, stop := 0, count := 0 }

/-- The state in which `entry_point` enables the interrupt. -/
def UartBuffer.boot (data : ℕ → Byte) : UartBuffer :=
  initializeUartIrq (heartbeatInit
    { data, start := 0, stop := 0, count := 0, rtsOn := false, rtsPin := false, handed := [] })

/-- Tell the host to stop when the buffer fills up. -/
def rtsHold (q : UartBuffer) : UartBuffer :=
  if q.rtsOn ∧ q.count > rtsOffLimit then { q with rtsOn := false, rtsPin := true } else q

/-- Tell the host to go on when the buffer has drained. -/
def rtsResume (q : UartBuffer) : UartBuffer :=
  if ¬q.rtsOn ∧ q.count < rtsOnLimit then { q with rtsOn := true, rtsPin := false } else q

/-- One turn of the loop of `uart_fill_queue`. -/
def uartReceive (ch : Byte) (q : UartBuffer) : UartBuffer :=
  let data := Function.update q.data q.stop ch
  let stop := if q.stop + 1 ≥ uartBufferSize then 0 else q.stop + 1
  let start :=
    if stop = q.start then
      (if q.start + 1 ≥ uartBufferSize then 0 else q.start + 1)
    else q.start
  let count := if q.count < uartBufferSize then q.count + 1 else q.count
  rtsHold { q with data, start, stop, count }

/-- `uart_fill_queue` while `uart_poll` delivers the given bytes. -/
def uartFillQueue (chs : List Byte) (q : UartBuffer) : UartBuffer :=
  chs.foldl (fun q ch => uartReceive ch q) q

/-- The part of `term_main_loop` that takes one byte out of the ring. -/
def termMainLoopRead (q : UartBuffer) : UartBuffer :=
  if q.start ≠ q.stop then
    let ch := q.data q.start
    let count := if q.count > 0 then q.count - 1 else q.count
    let q := rtsResume { q with start := q.start + 1, count }
    let start := if q.start ≥ uartBufferSize then 0 else q.start
    { q with start, handed := q.handed ++ [ch] }
  else q

namespace UartBuffer

/-- An arrival or a read. -/
def step (q : UartBuffer) : Traffic Byte → UartBuffer
  | .arrive ch => uartReceive ch q
  | .read => termMainLoopRead q

theorem uartFillQueue_eq (chs : List Byte) (q : UartBuffer) :
    uartFillQueue chs q = (chs.map Traffic.arrive).foldl step q := by
  rw [List.foldl_map]
  rfl

/-! ## The ring behind the globals -/

def ring (q : UartBuffer) : RingBuffer Byte := ⟨q.data, q.start, q.stop⟩

/-- The bytes between `uart_buffer_start` and `uart_buffer_end`. -/
def unread (q : UartBuffer) : List Byte := q.ring.contents uartBufferSize

/-- The distance of the two pointers, modulo the size of the buffer. -/
def distance (q : UartBuffer) : ℕ := (q.stop + uartBufferSize - q.start) % uartBufferSize

theorem distance_eq {q : UartBuffer} (hq : q.ring.Inside uartBufferSize) :
    q.distance = q.unread.length := by
  obtain ⟨hs, he⟩ := hq
  simp only [ring] at hs he
  simp only [distance, unread, RingBuffer.length_contents, RingBuffer.length, ring, occupied]
  split
  · rw [show q.stop + uartBufferSize - q.start = q.stop - q.start + uartBufferSize by omega,
      Nat.add_mod_right, Nat.mod_eq_of_lt (by omega)]
  · rw [show q.stop + uartBufferSize - q.start = uartBufferSize - q.start + q.stop by omega,
      Nat.mod_eq_of_lt (by omega)]

@[simp] theorem ring_rtsHold (q : UartBuffer) : (rtsHold q).ring = q.ring := by
  simp only [rtsHold]
  split <;> rfl

@[simp] theorem count_rtsHold (q : UartBuffer) : (rtsHold q).count = q.count := by
  simp only [rtsHold]
  split <;> rfl

@[simp] theorem handed_rtsHold (q : UartBuffer) : (rtsHold q).handed = q.handed := by
  simp only [rtsHold]
  split <;> rfl

/-- The flow control touches neither the ring nor the counter. -/
theorem rtsResume_eq (q : UartBuffer) :
    ∃ on pin, rtsResume q = { q with rtsOn := on, rtsPin := pin } := by
  simp only [rtsResume]
  split
  · exact ⟨_, _, rfl⟩
  · exact ⟨q.rtsOn, q.rtsPin, rfl⟩

theorem ring_uartReceive (ch : Byte) (q : UartBuffer) :
    (uartReceive ch q).ring = q.ring.push uartBufferSize ch :=
  ring_rtsHold _

theorem count_uartReceive (ch : Byte) (q : UartBuffer) :
    (uartReceive ch q).count = if q.count < uartBufferSize then q.count + 1 else q.count :=
  count_rtsHold _

@[simp] theorem handed_uartReceive (ch : Byte) (q : UartBuffer) :
    (uartReceive ch q).handed = q.handed :=
  handed_rtsHold _

theorem termMainLoopRead_of_eq {q : UartBuffer} (h : q.start = q.stop) :
    termMainLoopRead q = q := by
  simp [termMainLoopRead, h]

/-- **What a read does**, up to the two flow control flags. -/
theorem termMainLoopRead_spec {q : UartBuffer} (h : q.start ≠ q.stop) :
    (termMainLoopRead q).ring = q.ring.pop uartBufferSize ∧
      (termMainLoopRead q).count = q.count - 1 ∧
      (termMainLoopRead q).handed = q.handed ++ [q.data q.start] := by
  have hcount : (if q.count > 0 then q.count - 1 else q.count) = q.count - 1 := by
    split <;> omega
  simp only [termMainLoopRead, if_pos h, hcount]
  obtain ⟨on, pin, heq⟩ := rtsResume_eq { q with start := q.start + 1, count := q.count - 1 }
  rw [heq]
  exact ⟨rfl, rfl, rfl⟩

theorem inside_boot (data : ℕ → Byte) : (boot data).ring.Inside uartBufferSize :=
  have hpos : 0 < uartBufferSize := by decide
  ⟨hpos, hpos⟩

theorem unread_boot (data : ℕ → Byte) : (boot data).unread = [] :=
  RingBuffer.contents_of_eq rfl

theorem inside_step {q : UartBuffer} (hq : q.ring.Inside uartBufferSize) (e : Traffic Byte) :
    (q.step e).ring.Inside uartBufferSize := by
  cases e with
  | arrive ch =>
    simp only [step, ring_uartReceive]
    exact hq.push ch
  | read =>
    by_cases h : q.start = q.stop
    · simpa only [step, termMainLoopRead_of_eq h] using hq
    · simp only [step, (termMainLoopRead_spec h).1]
      exact hq.pop

/-! ## The ring is a bounded queue -/

/-- The ring holds what the queue holds and has handed over what the queue has. -/
structure Simulates (q : UartBuffer) (f : Fifo Byte) : Prop where
  inside : q.ring.Inside uartBufferSize
  unread : q.unread = f.waiting
  handed : q.handed = f.handed

theorem Simulates.length_eq {q : UartBuffer} {f : Fifo Byte} (h : q.Simulates f) :
    q.ring.length uartBufferSize = f.waiting.length := by
  rw [← h.unread, UartBuffer.unread, RingBuffer.length_contents]

theorem Simulates.receive {q : UartBuffer} {f : Fifo Byte} (h : q.Simulates f) (ch : Byte) :
    (uartReceive ch q).Simulates (f.step (uartBufferSize - 1) (.arrive ch)) := by
  have hcontents := RingBuffer.contents_push h.inside ch
  have hun := h.unread
  simp only [UartBuffer.unread] at hun
  rw [hun, h.length_eq] at hcontents
  refine ⟨inside_step h.inside (.arrive ch), ?_, ?_⟩
  · simp only [UartBuffer.unread, ring_uartReceive, hcontents, Fifo.step]
    split <;> rfl
  · simp only [handed_uartReceive, h.handed, Fifo.step]
    split <;> rfl

theorem Simulates.read {q : UartBuffer} {f : Fifo Byte} (h : q.Simulates f) :
    (termMainLoopRead q).Simulates (f.step (uartBufferSize - 1) .read) := by
  have hun := h.unread
  simp only [UartBuffer.unread] at hun
  by_cases heq : q.start = q.stop
  · -- nothing is read, and the queue is empty
    have hnil : f.waiting = [] := by
      rw [← hun]
      exact RingBuffer.contents_of_eq heq
    simpa [termMainLoopRead_of_eq heq, Fifo.step, hnil] using h
  · obtain ⟨hring, -, hhanded⟩ := termMainLoopRead_spec heq
    have hcons := RingBuffer.contents_pop h.inside heq
    rw [hun] at hcons
    refine ⟨inside_step h.inside .read, ?_, ?_⟩
    · simp [UartBuffer.unread, hring, Fifo.step, hcons]
    · simp [hhanded, Fifo.step, hcons, h.handed, ring]

theorem Simulates.step {q : UartBuffer} {f : Fifo Byte} (h : q.Simulates f) (e : Traffic Byte) :
    (q.step e).Simulates (f.step (uartBufferSize - 1) e) := by
  cases e with
  | arrive ch => exact h.receive ch
  | read => exact h.read

/-- **The receive ring is a bounded queue.**  Over every order of arrivals and reads it
hands over, and still holds, what a queue of one byte less than the buffer does; both
indices stay inside the buffer, and what arrived is handed over once and in order,
waits in the ring, or was dropped as the oldest byte of a full queue. -/
theorem uart_bounded_fifo (data : ℕ → Byte) (steps : List (Traffic Byte)) :
    let q := steps.foldl step (boot data)
    let f := steps.foldl (Fifo.step (uartBufferSize - 1)) Fifo.empty
    q.handed = f.handed ∧ q.unread = f.waiting ∧
      q.start < uartBufferSize ∧ q.stop < uartBufferSize ∧
      (q.handed ++ q.unread).Sublist (arrivals steps) ∧
      q.handed.length + q.unread.length + f.lost = (arrivals steps).length := by
  intro q f
  have hboot : (boot data).Simulates Fifo.empty :=
    ⟨inside_boot data, unread_boot data, rfl⟩
  obtain ⟨hin, hun, hha⟩ : q.Simulates f :=
    foldl_relation (R := Simulates) (fun _ _ e h => h.step e) steps hboot
  obtain ⟨hsub, hlen⟩ : f.Accounts (arrivals steps) := Fifo.accounts_foldl _ steps
  refine ⟨hha, hun, hin.head_lt, hin.tail_lt, ?_, ?_⟩
  · rwa [hha, hun]
  · rwa [hha, hun]

/-! ## The counter -/

/-- The counter is `d` ahead of the ring. -/
structure Drift (d : ℕ) (q : UartBuffer) : Prop where
  inside : q.ring.Inside uartBufferSize
  count_eq : q.count = q.unread.length + d

/-- No byte arrives while the ring is full. -/
def Fits (q : UartBuffer) : Traffic Byte → Prop
  | .arrive _ => q.unread.length < uartBufferSize - 1
  | .read => True

theorem drift_boot (data : ℕ → Byte) : (boot data).Drift 0 :=
  ⟨inside_boot data, by rw [unread_boot]; rfl⟩

theorem length_unread_lt {q : UartBuffer} (hq : q.ring.Inside uartBufferSize) :
    q.unread.length < uartBufferSize := by
  rw [unread, RingBuffer.length_contents]
  exact hq.length_lt

theorem length_unread_receive {q : UartBuffer} (hq : q.ring.Inside uartBufferSize) (ch : Byte) :
    (uartReceive ch q).unread.length =
      if q.unread.length < uartBufferSize - 1 then q.unread.length + 1 else q.unread.length := by
  simp only [unread, RingBuffer.length_contents, ring_uartReceive]
  exact RingBuffer.length_push hq ch

theorem length_unread_read {q : UartBuffer} (hq : q.ring.Inside uartBufferSize)
    (h : q.start ≠ q.stop) : (termMainLoopRead q).unread.length + 1 = q.unread.length := by
  simp only [unread, RingBuffer.length_contents, (termMainLoopRead_spec h).1]
  exact RingBuffer.length_pop hq h

/-- A step that fits keeps the drift. -/
theorem Drift.fits {d : ℕ} {q : UartBuffer} (hd : d ≤ 1) (hq : q.Drift d) {e : Traffic Byte}
    (hfit : q.Fits e) : (q.step e).Drift d := by
  obtain ⟨hin, hcount⟩ := hq
  refine ⟨inside_step hin e, ?_⟩
  cases e with
  | arrive ch =>
    have hlt : q.unread.length < uartBufferSize - 1 := hfit
    have hlen := length_unread_receive hin ch
    rw [if_pos hlt] at hlen
    simp only [step, count_uartReceive, hlen]
    rw [if_pos (by omega)]
    omega
  | read =>
    by_cases h : q.start = q.stop
    · simpa only [step, termMainLoopRead_of_eq h] using hcount
    · have hlen := length_unread_read hin h
      simp only [step, (termMainLoopRead_spec h).2.1]
      omega

/-- An arrival at a full ring puts the counter one ahead, whatever it was before. -/
theorem Drift.overflow {d : ℕ} {q : UartBuffer} (hd : d ≤ 1) (hq : q.Drift d)
    {e : Traffic Byte} (hfull : ¬q.Fits e) : (q.step e).Drift 1 := by
  obtain ⟨hin, hcount⟩ := hq
  refine ⟨inside_step hin e, ?_⟩
  cases e with
  | arrive ch =>
    have hge : ¬q.unread.length < uartBufferSize - 1 := hfull
    have hlt := length_unread_lt hin
    have hlen := length_unread_receive hin ch
    rw [if_neg hge] at hlen
    simp only [step, count_uartReceive, hlen]
    split <;> omega
  | read => exact absurd trivial hfull

/-- Once ahead, the counter stays ahead. -/
theorem Drift.run {q : UartBuffer} (hq : q.Drift 1) (steps : List (Traffic Byte)) :
    (steps.foldl step q).Drift 1 := by
  refine foldl_invariant ?_ q steps hq
  intro q e h
  by_cases hfit : q.Fits e
  · exact h.fits (le_refl 1) hfit
  · exact h.overflow (le_refl 1) hfit

theorem Drift.exact_iff {q : UartBuffer} (hq : q.Drift 0) (steps : List (Traffic Byte)) :
    (steps.foldl step q).count = (steps.foldl step q).unread.length ↔
      Along step Fits q steps := by
  induction steps generalizing q with
  | nil => simp [hq.count_eq]
  | cons e steps ih =>
    rw [along_cons, List.foldl_cons]
    by_cases hfit : q.Fits e
    · simp [ih (hq.fits (by omega) hfit), hfit]
    · have hahead := ((hq.overflow (by omega) hfit).run steps).count_eq
      simp [hfit, hahead]

theorem inside_run (data : ℕ → Byte) (steps : List (Traffic Byte)) :
    (steps.foldl step (boot data)).ring.Inside uartBufferSize :=
  foldl_invariant (I := fun q : UartBuffer => q.ring.Inside uartBufferSize)
    (fun _ e h => inside_step h e) _ steps (inside_boot data)

/-- **The counter is exact as long as the ring never overflows**, and from the first
arrival at a full ring on it is not: there the counter still grows while the number of
unread bytes does not. -/
theorem count_exact_iff (data : ℕ → Byte) (steps : List (Traffic Byte)) :
    (steps.foldl step (boot data)).count = (steps.foldl step (boot data)).distance ↔
      Along step Fits (boot data) steps := by
  rw [distance_eq (inside_run data steps)]
  exact (drift_boot data).exact_iff steps

/-- Arrivals alone fill the ring up to its last place but one. -/
theorem fill_boot (data : ℕ → Byte) (ch : Byte) (n : ℕ) (hn : n ≤ uartBufferSize - 1) :
    ((List.replicate n (Traffic.arrive ch)).foldl step (boot data)).Drift 0 ∧
      ((List.replicate n (Traffic.arrive ch)).foldl step (boot data)).unread.length = n := by
  induction n with
  | zero => exact ⟨drift_boot data, by simp [unread_boot]⟩
  | succ n ih =>
    obtain ⟨hdrift, hlen⟩ := ih (by omega)
    have hlt : n < uartBufferSize - 1 := by omega
    have hnext := length_unread_receive hdrift.inside ch
    rw [hlen, if_pos hlt] at hnext
    rw [List.replicate_succ', List.foldl_append]
    refine ⟨?_, hnext⟩
    exact Drift.fits (e := .arrive ch) (by omega) hdrift (by simpa only [Fits, hlen] using hlt)

/-- One more arrival, and the counter is ahead. -/
theorem overfill_boot (data : ℕ → Byte) (ch : Byte) (n : ℕ) (hn : n + 1 = uartBufferSize) :
    ((List.replicate uartBufferSize (Traffic.arrive ch)).foldl step (boot data)).Drift 1 ∧
      ((List.replicate uartBufferSize (Traffic.arrive ch)).foldl step
        (boot data)).unread.length = n := by
  obtain ⟨hdrift, hlen⟩ := fill_boot data ch n (by omega)
  have hfull : ¬n < uartBufferSize - 1 := by omega
  have hnext := length_unread_receive hdrift.inside ch
  rw [hlen, if_neg hfull] at hnext
  rw [← hn, List.replicate_succ', List.foldl_append]
  refine ⟨?_, hnext⟩
  exact Drift.overflow (e := .arrive ch) (by omega) hdrift (by simpa only [Fits, hlen] using hfull)

/-- A host that ignores the flow control and sends 16384 bytes: the ring holds 16383 of
them, the counter says 16384. -/
theorem count_exceeds_unread :
    ((List.replicate uartBufferSize (Traffic.arrive 0)).foldl step
        (boot fun _ => 0)).count = 16384 ∧
      ((List.replicate uartBufferSize (Traffic.arrive 0)).foldl step
        (boot fun _ => 0)).distance = 16383 := by
  obtain ⟨hdrift, hlen⟩ := overfill_boot (fun _ => 0) 0 16383 (by decide)
  constructor
  · rw [hdrift.count_eq, hlen]
  · rw [distance_eq hdrift.inside, hlen]

/-! ## Flow control -/

/-- The host is held off only while the counter is not low and let go only while it is
not high, and the pin says so. -/
structure Flow (q : UartBuffer) : Prop where
  on_le : q.rtsOn = true → q.count ≤ rtsOffLimit
  off_ge : q.rtsOn = false → rtsOnLimit ≤ q.count
  pin : q.rtsPin = !q.rtsOn

theorem rtsOnLimit_le : rtsOnLimit ≤ rtsOffLimit := by decide

/-- Holding repairs the upper limit. -/
theorem flow_rtsHold {q : UartBuffer} (hoff : q.rtsOn = false → rtsOnLimit ≤ q.count)
    (hpin : q.rtsPin = !q.rtsOn) : (rtsHold q).Flow := by
  simp only [rtsHold]
  split
  · rename_i hhold
    refine ⟨(nomatch ·), fun _ => ?_, rfl⟩
    exact rtsOnLimit_le.trans (le_of_lt hhold.2)
  · rename_i hkeep
    refine ⟨fun hon => ?_, hoff, hpin⟩
    exact not_lt.mp fun hlt => hkeep ⟨hon, hlt⟩

/-- Resuming repairs the lower limit. -/
theorem flow_rtsResume {q : UartBuffer} (hon : q.rtsOn = true → q.count ≤ rtsOffLimit)
    (hpin : q.rtsPin = !q.rtsOn) : (rtsResume q).Flow := by
  simp only [rtsResume]
  split
  · rename_i hresume
    refine ⟨fun _ => ?_, (nomatch ·), rfl⟩
    exact (le_of_lt hresume.2).trans rtsOnLimit_le
  · rename_i hkeep
    refine ⟨hon, fun hoff => ?_, hpin⟩
    exact not_lt.mp fun hlt => hkeep ⟨by simp [hoff], hlt⟩

theorem flow_boot (data : ℕ → Byte) : (boot data).Flow :=
  ⟨fun _ => Nat.zero_le _, (nomatch ·), rfl⟩

/-- An arrival never lowers the counter and a read never raises it, so each endangers
one limit only. -/
theorem Flow.step {q : UartBuffer} (h : q.Flow) (e : Traffic Byte) : (q.step e).Flow := by
  obtain ⟨hon, hoff, hpin⟩ := h
  cases e with
  | arrive ch =>
    refine flow_rtsHold (fun hf => (hoff hf).trans ?_) hpin
    simp only
    split <;> omega
  | read =>
    by_cases heq : q.start = q.stop
    · simp only [UartBuffer.step, termMainLoopRead_of_eq heq]
      exact ⟨hon, hoff, hpin⟩
    · simp only [UartBuffer.step, termMainLoopRead, ne_eq, heq, not_false_eq_true, if_true]
      have hflow : (rtsResume { q with
          start := q.start + 1, count := if q.count > 0 then q.count - 1 else q.count }).Flow := by
        refine flow_rtsResume (fun ht => le_trans ?_ (hon ht)) hpin
        simp only
        split <;> omega
      exact ⟨hflow.on_le, hflow.off_ge, hflow.pin⟩

theorem Drift.step {d : ℕ} {q : UartBuffer} (hd : d ≤ 1) (hq : q.Drift d) (e : Traffic Byte) :
    ∃ d ≤ 1, (q.step e).Drift d := by
  by_cases hfit : q.Fits e
  · exact ⟨d, hd, hq.fits hd hfit⟩
  · exact ⟨1, le_refl 1, hq.overflow hd hfit⟩

/-- **The invariant of the receive path**: the flow control follows the counter, and the
counter is at most one ahead of the ring. -/
structure Good (q : UartBuffer) : Prop where
  flow : q.Flow
  drift : ∃ d ≤ 1, q.Drift d

theorem Good.step {q : UartBuffer} (h : q.Good) (e : Traffic Byte) : (q.step e).Good := by
  obtain ⟨hflow, d, hd, hdrift⟩ := h
  exact ⟨hflow.step e, hdrift.step hd e⟩

end UartBuffer

end Pigfx
