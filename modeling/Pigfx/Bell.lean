import Pigfx.DmaQueue

/-!
# The bell

A BEL rings the bell: a tone is sent over two DMA channels, while the program goes on.  A BEL
that comes during a tone is counted, up to five, and `term_main_loop` rings the bell for it when
the tone has ended.

Both call `bell`, which takes a pending bell off whenever it starts a tone.  A BEL that comes
between the end of a tone and the next look of the main loop is taken for a pending one.

`bell_ringing` reads two registers.  A channel that ends between the two readings might as well
have ended before or after both, so a reading is one step.

## Main definitions

* `Bell`, `bell`, `bellsPoll` — the code, with the tones it has started.
* `BellRun` — a run, with the BELs received and dropped.
* `BellRun.Attended` — what a step must not do, so that no bell is lost.
-/

namespace Pigfx
open Lib DmaQueue

/-! ## The code -/

abbrev SPI0_BASE : Word := 0x20204000
abbrev SPI0_CS : Word := SPI0_BASE + 0x00
abbrev SPI0_FIFO : Word := SPI0_BASE + 0x04
abbrev SPI0_CLK : Word := SPI0_BASE + 0x08
abbrev SPI0_DLEN : Word := SPI0_BASE + 0x0c
abbrev CS_DMAEN : Word := 1 <<< 8
abbrev CS_TA : Word := 1 <<< 7
abbrev CS_CLEAR_RX : Word := 1 <<< 5
abbrev CS_CLEAR_TX : Word := 1 <<< 4

abbrev SPI0_TX_DMA_CHANNEL : Word := 1
abbrev SPI0_RX_DMA_CHANNEL : Word := 2

/-- `BUS_IO_ADDRESS` -/
def busIoAddress (a : Word) : Word := (a &&& ~~~0xFF000000) ||| 0x7E000000

/-- The addresses of the static variables. -/
structure BellStatics where
  ctr_blocks : BitVec 24
  bell_bits : Word
  dummy : Word

/-- The size of `bell_bits`: forty rows of five bytes. -/
abbrev nCount : Word := 40 * 5

/-- The state of the bell, and the number of tones that it has started. -/
structure Bell where
  dma : DmaUnit
  bellsPendingCount : Word
  tones : ℕ

def bellInit (s : DmaUnit) : Bell :=
  let s := dmaInit SPI0_TX_DMA_CHANNEL s
  let s := dmaInit SPI0_RX_DMA_CHANNEL s
  let s := s.w32 SPI0_CLK (250000000 / 8000)
  let s := s.w32 SPI0_CS 0
  ⟨s, 0, 0⟩

def bellRinging (b : Bell) : Bool :=
  dmaRunning SPI0_TX_DMA_CHANNEL b.dma ≠ 0 || dmaRunning SPI0_RX_DMA_CHANNEL b.dma ≠ 0

def bellsPending (b : Bell) : Word := b.bellsPendingCount

section Code
variable (st : BellStatics)

/-- The tone on its way out. -/
def txRequest : DmaRequest where
  src := mem2uncached st.bell_bits
  dst := busIoAddress SPI0_FIFO
  len := nCount
  stride := 0
  TRANSFER_INFO := DMA_TI_DREQ_SPITX ||| DmaQueue.DMA_TI_SRC_INC ||| DMA_TI_DEST_DREQ ||| DMA_TI_WAIT_RESP

/-- What comes in for it is thrown away. -/
def rxRequest : DmaRequest where
  src := busIoAddress SPI0_FIFO
  dst := mem2uncached st.dummy
  len := nCount
  stride := 0
  TRANSFER_INFO := DMA_TI_DREQ_SPIRX ||| DMA_TI_SRC_DREQ ||| DMA_TI_WAIT_RESP

/-- The tone is started. -/
def startTone (s : DmaUnit) : DmaUnit :=
  let s := (dmaEnqueueOperation st.ctr_blocks SPI0_TX_DMA_CHANNEL (txRequest st) s).2
  let s := (dmaEnqueueOperation st.ctr_blocks SPI0_RX_DMA_CHANNEL (rxRequest st) s).2
  let s := s.w32 SPI0_DLEN nCount
  let s := s.w32 SPI0_CS (CS_CLEAR_RX ||| CS_CLEAR_TX ||| CS_DMAEN ||| CS_TA)
  let s := DmaQueue.dmaExecuteQueue st.ctr_blocks SPI0_TX_DMA_CHANNEL s
  DmaQueue.dmaExecuteQueue st.ctr_blocks SPI0_RX_DMA_CHANNEL s

def bell (b : Bell) : Bell :=
  if ¬bellRinging b then
    let n := if b.bellsPendingCount > 0 then b.bellsPendingCount - 1 else b.bellsPendingCount
    ⟨startTone st b.dma, n, b.tones + 1⟩
  else if b.bellsPendingCount < 5 then { b with bellsPendingCount := b.bellsPendingCount + 1 }
  else b

/-- The look of `term_main_loop` at the bell: a BEL is put out for a pending one. -/
def bellsPoll (b : Bell) : Bell := if bellsPending b ≠ 0 ∧ ¬bellRinging b then bell st b else b

end Code

/-- A channel has ended: it is active no more. -/
def dmaEnded (channel : Word) (s : DmaUnit) : DmaUnit :=
  let cs := DMA_BASE + (channel <<< 8) + DMA_CS_OFFSET
  s.w32 cs (s.regs cs &&& ~~~DMA_CS_ACTIVE)

/-! ## Runs -/

/-- What can happen, in any order. -/
inductive BellEvent
  | bel
  | poll
  | ended (channel : Word)
  deriving DecidableEq, Repr

/-- The bell, and what came in: a BEL is dropped if it comes during a tone while five bells are
pending. -/
structure BellRun where
  bell : Bell
  received : ℕ
  dropped : ℕ

def BellRun.step (st : BellStatics) (r : BellRun) : BellEvent → BellRun
  | .bel => ⟨Pigfx.bell st r.bell, r.received + 1,
      if bellRinging r.bell ∧ r.bell.bellsPendingCount ≥ 5 then r.dropped + 1 else r.dropped⟩
  | .poll => { r with bell := bellsPoll st r.bell }
  | .ended channel => { r with bell := { r.bell with dma := dmaEnded channel r.bell.dma } }

/-- The events, from the start. -/
def bellRun (st : BellStatics) (es : List BellEvent) (s : DmaUnit) : BellRun :=
  es.foldl (BellRun.step st) ⟨bellInit s, 0, 0⟩

/-! ## The tone -/

section Tone
variable (st : BellStatics) {s : DmaUnit}

/-- The queues of the two channels are empty. -/
structure BellReady (s : DmaUnit) : Prop where
  tx : Queued st.ctr_blocks SPI0_TX_DMA_CHANNEL [] s
  rx : Queued st.ctr_blocks SPI0_RX_DMA_CHANNEL [] s

/-- **A tone that is started is heard.**  Each channel finds its operation and nothing else, and
the queues are empty again. -/
theorem BellReady.startTone (h : BellReady st s) :
    BellReady st (startTone st s) ∧
      (startTone st s).chain 5 (blockAt st.ctr_blocks SPI0_TX_DMA_CHANNEL 0) = some [txRequest st] ∧
      (startTone st s).chain 5 (blockAt st.ctr_blocks SPI0_RX_DMA_CHANNEL 0) = some [rxRequest st] ∧
      dmaRunning SPI0_RX_DMA_CHANNEL (startTone st s) ≠ 0 := by
  obtain ⟨n, s₁, -, htx, hkeeps, hqueued⟩ := h.tx.enqueue (by decide) (by decide) (txRequest st)
  have hrx := h.rx.congr (hkeeps.currBlk _ (by decide)) (hkeeps.load _ (by decide) (by decide))
  obtain ⟨n', s₂, -, hrx', hkeeps', hqueued'⟩ := hrx.enqueue (by decide) (by decide) (rxRequest st)
  have htx' := hqueued.congr (hkeeps'.currBlk _ (by decide)) (hkeeps'.load _ (by decide) (by decide))
  have hmem : (Pigfx.startTone st s).mem = s₂.mem := by
    simp only [Pigfx.startTone, htx, hrx']
    exact (dmaExecuteQueue_spec st.ctr_blocks _ _).2.1.trans (dmaExecuteQueue_spec st.ctr_blocks _ _).2.1
  have hload (c : Word) (k : ℕ) (_ : k < 4) (f : BlockMember) :
      (Pigfx.startTone st s).load (blockAt st.ctr_blocks c k) f = s₂.load (blockAt st.ctr_blocks c k) f :=
    congrFun hmem _
  refine ⟨⟨htx'.reset hmem ?_, hqueued'.reset hmem ?_⟩, ?_, ?_, ?_⟩
  · rfl
  · rfl
  · rw [htx'.chain_congr (hload _)]
    exact htx'.chain_eq (by simp) (by omega)
  · rw [hqueued'.chain_congr (hload _)]
    exact hqueued'.chain_eq (by simp) (by omega)
  · have hrunning : dmaRunning SPI0_RX_DMA_CHANNEL (Pigfx.startTone st s) = DMA_CS_ACTIVE :=
      dmaRunning_execute st.ctr_blocks (by decide) _
    rw [hrunning]
    decide

end Tone

/-! ## Steps -/

section Step
variable (st : BellStatics) {b : Bell} {r : BellRun}

theorem bell_idle (h : bellRinging b = false) :
    bell st b = ⟨startTone st b.dma,
      if b.bellsPendingCount > 0 then b.bellsPendingCount - 1 else b.bellsPendingCount, b.tones + 1⟩ := by
  rw [bell, if_pos (by simp [h])]

theorem bell_ringing (h : bellRinging b = true) :
    bell st b =
      if b.bellsPendingCount < 5 then { b with bellsPendingCount := b.bellsPendingCount + 1 } else b := by
  rw [bell, if_neg (by simp [h])]

/-- A BEL leaves the queues empty, whether it starts a tone or not. -/
theorem BellReady.bell (h : BellReady st b.dma) : BellReady st (bell st b).dma := by
  cases hringing : bellRinging b with
  | false =>
    rw [bell_idle st hringing]
    exact h.startTone.1
  | true =>
    rw [bell_ringing st hringing]
    split
    · exact h
    · exact h

/-- The tones and the pending bells. -/
def Bell.kept (b : Bell) : ℕ := b.tones + b.bellsPendingCount.toNat

theorem kept_idle (h : bellRinging b = false) :
    (bell st b).bellsPendingCount.toNat = b.bellsPendingCount.toNat - 1 ∧
      (bell st b).kept = if b.bellsPendingCount = 0 then b.kept + 1 else b.kept := by
  rw [bell_idle st h, Bell.kept, Bell.kept]
  dsimp only
  by_cases hzero : b.bellsPendingCount = 0
  · rw [hzero]
    exact ⟨rfl, rfl⟩
  · have hne : b.bellsPendingCount.toNat ≠ 0 := fun h0 => hzero (BitVec.eq_of_toNat_eq h0)
    have hpos : b.bellsPendingCount > 0 := Nat.pos_of_ne_zero hne
    have hpred : (b.bellsPendingCount - 1).toNat = b.bellsPendingCount.toNat - 1 :=
      BitVec.toNat_sub_of_le (y := 1) (Nat.pos_of_ne_zero hne)
    rw [if_pos hpos, if_neg hzero, hpred]
    omega

theorem kept_ringing (h : bellRinging b = true) (hmax : b.bellsPendingCount.toNat ≤ 5) :
    (bell st b).bellsPendingCount.toNat ≤ 5 ∧
      (bell st b).kept = if b.bellsPendingCount ≥ 5 then b.kept else b.kept + 1 := by
  rw [bell_ringing st h, Bell.kept, Bell.kept]
  by_cases hfull : b.bellsPendingCount ≥ 5
  · rw [if_neg (BitVec.not_lt.mpr hfull), if_pos hfull]
    exact ⟨hmax, rfl⟩
  · have hlt : b.bellsPendingCount < 5 := BitVec.not_le.mp hfull
    have htoNat : b.bellsPendingCount.toNat < 5 := hlt
    have hsucc : (b.bellsPendingCount + 1).toNat = b.bellsPendingCount.toNat + 1 :=
      BitVec.toNat_add_of_lt (show b.bellsPendingCount.toNat + 1 < 2 ^ 32 by omega)
    rw [if_pos hlt, if_neg hfull]
    dsimp only
    rw [hsucc]
    omega

/-- **No bell is lost in a step** unless it is a BEL that finds a bell pending and no tone. -/
def BellRun.Attended (r : BellRun) (e : BellEvent) : Prop :=
  e = .bel → bellRinging r.bell = true ∨ r.bell.bellsPendingCount = 0

instance (r : BellRun) (e : BellEvent) : Decidable (r.Attended e) := inferInstanceAs (Decidable (_ → _ ∨ _))

/-- The tones and the pending bells are the BELs received, but for those that were dropped. -/
def BellRun.Conserved (r : BellRun) : Prop :=
  r.bell.tones + r.bell.bellsPendingCount.toNat + r.dropped = r.received

instance (r : BellRun) : Decidable r.Conserved := inferInstanceAs (Decidable (_ = _))

/-- In every run, at most five bells are pending, and none is invented. -/
structure BellRun.Good (r : BellRun) : Prop where
  pending_le : r.bell.bellsPendingCount.toNat ≤ 5
  kept_le : r.bell.kept + r.dropped ≤ r.received

theorem kept_poll (hmax : b.bellsPendingCount.toNat ≤ 5) :
    (bellsPoll st b).bellsPendingCount.toNat ≤ 5 ∧ (bellsPoll st b).kept = b.kept := by
  by_cases hlook : bellsPending b ≠ 0 ∧ ¬bellRinging b
  · obtain ⟨hpending, hkept⟩ := kept_idle st (Bool.eq_false_iff.mpr hlook.2)
    rw [bellsPoll, if_pos hlook, hkept, if_neg (show b.bellsPendingCount ≠ 0 from hlook.1)]
    exact ⟨by omega, rfl⟩
  · rw [bellsPoll, if_neg hlook]
    exact ⟨hmax, rfl⟩

/-- **What a step does.**  A bell is lost in a step that is not attended to, and in no other. -/
theorem BellRun.step_spec (hmax : r.bell.bellsPendingCount.toNat ≤ 5) (e : BellEvent) :
    (r.step st e).bell.bellsPendingCount.toNat ≤ 5 ∧
      (r.step st e).bell.kept + (r.step st e).dropped + (if r.Attended e then 0 else 1) + r.received =
        r.bell.kept + r.dropped + (r.step st e).received := by
  cases e with
  | poll =>
    obtain ⟨hpending, hkept⟩ := kept_poll st hmax
    rw [if_pos (by nofun)]
    simp only [BellRun.step, hkept]
    exact ⟨hpending, rfl⟩
  | ended channel =>
    rw [if_pos (by nofun)]
    exact ⟨hmax, rfl⟩
  | bel =>
    cases hringing : bellRinging r.bell with
    | true =>
      obtain ⟨hpending, hkept⟩ := kept_ringing st hringing hmax
      rw [if_pos (show r.Attended .bel from fun _ => Or.inl hringing)]
      simp only [BellRun.step, hkept, hringing, true_and]
      refine ⟨hpending, ?_⟩
      by_cases hfull : r.bell.bellsPendingCount ≥ 5
      · rw [if_pos hfull, if_pos hfull]
        omega
      · rw [if_neg hfull, if_neg hfull]
        omega
    | false =>
      obtain ⟨hpending, hkept⟩ := kept_idle st hringing
      simp only [BellRun.step, hkept, hringing, Bool.false_eq_true, false_and, if_false]
      refine ⟨by omega, ?_⟩
      by_cases hzero : r.bell.bellsPendingCount = 0
      · rw [if_pos hzero, if_pos (show r.Attended .bel from fun _ => Or.inr hzero)]
        omega
      · have hunattended : ¬r.Attended .bel := fun h =>
          (h rfl).elim (fun htrue => nomatch hringing.symm.trans htrue) hzero
        rw [if_neg hzero, if_neg hunattended]
        omega

theorem BellReady.step (h : BellReady st r.bell.dma) (e : BellEvent) : BellReady st (r.step st e).bell.dma := by
  cases e with
  | bel => exact h.bell
  | ended channel => exact ⟨h.tx.congr rfl fun _ _ _ => rfl, h.rx.congr rfl fun _ _ _ => rfl⟩
  | poll =>
    simp only [BellRun.step, bellsPoll]
    split
    · exact h.bell
    · exact h

theorem BellRun.Good.step (h : r.Good) (e : BellEvent) : (r.step st e).Good := by
  obtain ⟨hpending, hbalance⟩ := BellRun.step_spec st h.pending_le e
  have hle := h.kept_le
  exact ⟨hpending, by omega⟩

theorem BellRun.Good.conserved_step (h : r.Good) (e : BellEvent) :
    (r.step st e).Conserved ↔ r.Conserved ∧ r.Attended e := by
  obtain ⟨-, hbalance⟩ := BellRun.step_spec st h.pending_le e
  have hle := h.kept_le
  unfold BellRun.Conserved
  unfold Bell.kept at hbalance hle
  by_cases hattended : r.Attended e
  · rw [if_pos hattended] at hbalance
    rw [and_iff_left hattended]
    omega
  · rw [if_neg hattended] at hbalance
    refine iff_of_false ?_ fun hboth => hattended hboth.2
    omega

end Step

/-! ## Every run -/

section Runs
variable (st : BellStatics) (s : DmaUnit)

/-- The queues of the bell are empty when it is initialised. -/
theorem bellInit_ready {s : DmaUnit} (hs : s.Cleared st.ctr_blocks) : BellReady st (bellInit s).dma := by
  obtain ⟨hkeeps, hmem, hzero⟩ := dmaInit_spec st.ctr_blocks SPI0_TX_DMA_CHANNEL s
  obtain ⟨hkeeps', hmem', hzero'⟩ :=
    dmaInit_spec st.ctr_blocks SPI0_RX_DMA_CHANNEL (dmaInit SPI0_TX_DMA_CHANNEL s)
  have htx := (hs.queued SPI0_TX_DMA_CHANNEL (by decide)).reset hmem (hzero (by decide))
  have hrx := (hs.queued SPI0_RX_DMA_CHANNEL (by decide)).reset (hmem'.trans hmem) (hzero' (by decide))
  have htx' := htx.congr (hkeeps'.currBlk _ (by decide)) (hkeeps'.load _ (by decide) (by decide))
  exact ⟨htx'.congr rfl fun _ _ _ => rfl, hrx.congr rfl fun _ _ _ => rfl⟩

/-- The queues of the bell are empty between any two steps. -/
theorem bellRun_ready {s : DmaUnit} (hs : s.Cleared st.ctr_blocks) (es : List BellEvent) :
    BellReady st (bellRun st es s).bell.dma :=
  foldl_invariant (I := fun r : BellRun => BellReady st r.bell.dma) (fun _ e h => h.step st e) _ es
    (bellInit_ready st hs)

theorem good_start : BellRun.Good ⟨bellInit s, 0, 0⟩ := ⟨Nat.zero_le 5, le_rfl⟩

theorem bellRun_good (es : List BellEvent) : (bellRun st es s).Good :=
  foldl_invariant (I := BellRun.Good) (fun _ e h => h.step st e) _ es (good_start s)

theorem bellRun_conserved_iff (es : List BellEvent) :
    (bellRun st es s).Conserved ↔ Along (BellRun.step st) BellRun.Attended ⟨bellInit s, 0, 0⟩ es := by
  have hzero : BellRun.Conserved ⟨bellInit s, 0, 0⟩ := rfl
  rw [bellRun, along_iff_of (I := BellRun.Conserved) (fun _ e h => h.step st e)
    (fun _ e h => h.conserved_step st e) (good_start s) es]
  exact and_iff_right hzero

/-- **No bell is lost or invented** in a run, after any number of its steps, exactly if no BEL
comes while a bell is pending and no tone is running.  Five bells at most are pending in every
run. -/
theorem bells_conserved_iff (es : List BellEvent) :
    (∀ n, (bellRun st (es.take n) s).Conserved ∧ (bellRun st (es.take n) s).bell.bellsPendingCount ≤ 5) ↔
      Along (BellRun.step st) BellRun.Attended ⟨bellInit s, 0, 0⟩ es := by
  constructor
  · intro h
    have hend := (h es.length).1
    rw [List.take_length] at hend
    exact (bellRun_conserved_iff st s es).mp hend
  · intro h n
    rw [← List.take_append_drop n es] at h
    exact ⟨(bellRun_conserved_iff st s _).mpr ((along_append _ _ _).mp h).1, (bellRun_good st s _).pending_le⟩

end Runs

/-- The tone ends between the look of the main loop and the third BEL. -/
def lostBell : List BellEvent := [.poll, .bel, .poll, .bel, .poll, .ended 1, .ended 2, .bel]

theorem bells_not_conserved :
    ¬(bellRun ⟨0x100, 0x40000000, 0x40000200⟩ lostBell ⟨fun _ => 0, fun _ => 0, fun _ => 0⟩).Conserved := by
  decide

end Pigfx
