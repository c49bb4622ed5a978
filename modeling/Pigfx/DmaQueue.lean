import Mathlib.Data.BitVec
import Pigfx.Lib.Linked
import Pigfx.Lib.Loop
import Pigfx.Lib.Memory

/-!
# The queues of the DMA channels

`dma.c` has four control blocks for each of three channels.  An operation is put into the
next block of its channel, and the link of the block before leads there.  The engine is given
the first block and follows the links.

The blocks are never cleared.  What an earlier queue has left in them lies behind a link that
is written anew with every operation.

An address and its uncached alias differ in the upper four bits only, so the memory is
addressed by the lower ones.  The control blocks are aligned; their address is given without
its last byte.

## Main definitions

* `DmaUnit` — the memory, the registers and the positions in the queues.
* `dmaEnqueueOperation`, `dmaExecuteQueue` — the code.
* `DmaUnit.chain` — what the engine finds behind an address.
* `DmaRun.Good` — the invariant of every run.
-/

namespace Pigfx.DmaQueue
open Lib

/-! ## The code -/

abbrev DMA_CHANNELS : Word := 3
abbrev DMA_SCBS : Word := 4
abbrev DMA_BASE : Word := 0x20007000
abbrev DMA_GLOBAL_ENABLE : Word := DMA_BASE + 0x0FF0
abbrev DMA_CS_OFFSET : Word := 0x00
abbrev DMA_CONBLK_AD_OFFSET : Word := 0x04
abbrev DMA_TI_DREQ_SPITX : Word := 6 <<< 16
abbrev DMA_TI_DREQ_SPIRX : Word := 7 <<< 16
abbrev DMA_TI_SRC_DREQ : Word := 1 <<< 10
abbrev DMA_TI_SRC_INC : Word := 1 <<< 8
abbrev DMA_TI_DEST_DREQ : Word := 1 <<< 6
abbrev DMA_TI_WAIT_RESP : Word := 1 <<< 3
abbrev DMA_CS_INT : Word := 1 <<< 2
abbrev DMA_CS_END : Word := 1 <<< 1
abbrev DMA_CS_ACTIVE : Word := 1 <<< 0

/-- `mem_2uncached` -/
def mem2uncached (x : Word) : Word := (x &&& 0x0FFFFFFF) ||| 0x40000000

/-- The members of a `DMA_Control_Block`. -/
inductive BlockMember
  | TI
  | SOURCE_AD
  | DEST_AD
  | TXFR_LEN
  | STRIDE
  | NEXTCONBK
  | reserved1
  | reserved2
  deriving DecidableEq, Repr

/-- Where a member lies in its block. -/
def BlockMember.offset : BlockMember → ℕ
  | TI => 0
  | SOURCE_AD => 4
  | DEST_AD => 8
  | TXFR_LEN => 12
  | STRIDE => 16
  | NEXTCONBK => 20
  | reserved1 => 24
  | reserved2 => 28

/-- The arguments of `dma_enqueue_operation` behind the channel. -/
structure DmaRequest where
  src : Word
  dst : Word
  len : Word
  stride : Word
  TRANSFER_INFO : Word
  deriving DecidableEq, Repr

/-- The members of a block for an operation that is the last one. -/
def DmaRequest.member (op : DmaRequest) : BlockMember → Word
  | .TI => op.TRANSFER_INFO
  | .SOURCE_AD => op.src
  | .DEST_AD => op.dst
  | .TXFR_LEN => op.len
  | .STRIDE => op.stride
  | .NEXTCONBK => 0
  | .reserved1 => 0
  | .reserved2 => 0

/-- `&ctr_blocks[channel][k]` -/
def ctrBlock (ctr_blocks : BitVec 24) (channel k : Word) : Word :=
  ctr_blocks ++ (0 : BitVec 8) + channel * (4 * 32) + k * 32

/-- Where a member of the block at `blk` lies in the memory. -/
def location (blk : Word) (f : BlockMember) : BitVec 28 := (blk + BitVec.ofNat 32 f.offset).setWidth 28

/-- The memory by the lower bits of addresses, `curr_blk` and the registers. -/
structure DmaUnit where
  mem : BitVec 28 → Word
  currBlk : Word → Word
  regs : Word → Word

namespace DmaUnit

/-- `W32` -/
def w32 (a v : Word) (s : DmaUnit) : DmaUnit := { s with regs := Function.update s.regs a v }

/-- Read a member of the block at `blk`. -/
def load (blk : Word) (f : BlockMember) (s : DmaUnit) : Word := s.mem (location blk f)

/-- Assign to a member of the block at `blk`. -/
def store (blk : Word) (f : BlockMember) (v : Word) (s : DmaUnit) : DmaUnit :=
  { s with mem := Function.update s.mem (location blk f) v }

def setCurrBlk (channel k : Word) (s : DmaUnit) : DmaUnit :=
  { s with currBlk := Function.update s.currBlk channel k }

end DmaUnit

section Code
variable (ctr_blocks : BitVec 24)

def dmaInit (channel : Word) (s : DmaUnit) : DmaUnit :=
  if channel < DMA_CHANNELS then
    (s.setCurrBlk channel 0).w32 DMA_GLOBAL_ENABLE (s.regs DMA_GLOBAL_ENABLE ||| (1 : Word) <<< channel)
  else s

/-- With the value that is returned. -/
def dmaEnqueueOperation (channel : Word) (op : DmaRequest) (s : DmaUnit) : Word × DmaUnit :=
  if channel ≥ DMA_CHANNELS then (0, s) else
  if s.currBlk channel = DMA_SCBS then (0, s) else
  let blk := mem2uncached (ctrBlock ctr_blocks channel (s.currBlk channel))
  let s := s.store blk .TI op.TRANSFER_INFO
  let s := s.store blk .SOURCE_AD op.src
  let s := s.store blk .DEST_AD op.dst
  let s := s.store blk .TXFR_LEN op.len
  let s := s.store blk .STRIDE op.stride
  let s := s.store blk .NEXTCONBK 0
  let s := s.store blk .reserved1 0
  let s := s.store blk .reserved2 0
  let s :=
    if s.currBlk channel > 0 then
      s.store (ctrBlock ctr_blocks channel (s.currBlk channel - 1)) .NEXTCONBK blk
    else s
  let s := s.setCurrBlk channel (s.currBlk channel + 1)
  (s.currBlk channel, s)

def dmaExecuteQueue (channel : Word) (s : DmaUnit) : DmaUnit :=
  if channel < DMA_CHANNELS then
    let s := s.w32 (DMA_BASE + (channel <<< 8) + DMA_CONBLK_AD_OFFSET)
      (mem2uncached (ctrBlock ctr_blocks channel 0))
    let s := s.w32 (DMA_BASE + (channel <<< 8) + DMA_CS_OFFSET) (DMA_CS_INT ||| DMA_CS_END ||| DMA_CS_ACTIVE)
    s.setCurrBlk channel 0
  else s

def dmaRunning (channel : Word) (s : DmaUnit) : Word :=
  if channel < DMA_CHANNELS then s.regs (DMA_BASE + (channel <<< 8) + DMA_CS_OFFSET) &&& DMA_CS_ACTIVE else 0

end Code

/-! ## Runs -/

/-- A call of one of the functions, for the channel that is its first argument. -/
inductive DmaCall
  | init (channel : Word)
  | enqueue (channel : Word) (op : DmaRequest)
  | execute (channel : Word)

def DmaCall.channel : DmaCall → Word
  | init channel => channel
  | enqueue channel _ => channel
  | execute channel => channel

/-- The state, and for each channel the operations that were accepted since its queue was
executed or initialised last, in order. -/
structure DmaRun where
  unit : DmaUnit
  accepted : Word → List DmaRequest

/-- An operation is accepted if the function does not return 0. -/
def DmaRun.step (ctr_blocks : BitVec 24) (r : DmaRun) : DmaCall → DmaRun
  | .init channel => ⟨dmaInit channel r.unit, Function.update r.accepted channel []⟩
  | .enqueue channel op =>
      let (n, s) := dmaEnqueueOperation ctr_blocks channel op r.unit
      ⟨s, if n = 0 then r.accepted else Function.update r.accepted channel (r.accepted channel ++ [op])⟩
  | .execute channel => ⟨dmaExecuteQueue ctr_blocks channel r.unit, Function.update r.accepted channel []⟩

/-- What the engine finds on its way from the block at `blk`; `n` bounds the number of blocks. -/
def DmaUnit.chain (n : ℕ) (blk : Word) (s : DmaUnit) : Option (List DmaRequest) :=
  (walk (fun a => s.load a .NEXTCONBK) 0 n blk).map fun blks => blks.map fun a =>
    ⟨s.load a .SOURCE_AD, s.load a .DEST_AD, s.load a .TXFR_LEN, s.load a .STRIDE, s.load a .TI⟩

/-! ## Addresses -/

theorem BlockMember.offset_lt (f : BlockMember) : f.offset < 32 := by cases f <;> decide

theorem BlockMember.offset_injective : Function.Injective BlockMember.offset := by
  intro f g
  cases f <;> cases g <;> decide

/-- An uncached address is that of the same memory. -/
theorem location_mem2uncached (x : Word) (f : BlockMember) : location (mem2uncached x) f = location x f := by
  have hbits : (mem2uncached x).setWidth 28 = x.setWidth 28 := by
    have hand : (0x0FFFFFFF : Word).setWidth 28 = BitVec.allOnes 28 := by decide
    have hor : (0x40000000 : Word).setWidth 28 = 0#28 := by decide
    rw [mem2uncached, BitVec.setWidth_or, BitVec.setWidth_and, hand, hor, BitVec.and_allOnes, BitVec.or_zero]
  rw [location, location, BitVec.setWidth_add _ _ (by omega), BitVec.setWidth_add _ _ (by omega), hbits]

theorem mem2uncached_ne_zero (x : Word) : mem2uncached x ≠ 0 := by
  intro h
  exact absurd (BitVec.or_eq_zero_iff.mp h).2 (by decide)

section Blocks
variable (ctr_blocks : BitVec 24)

/-- The uncached address of a block. -/
def blockAt (channel : Word) (k : ℕ) : Word := mem2uncached (ctrBlock ctr_blocks channel (BitVec.ofNat 32 k))

theorem location_blockAt (channel : Word) (k : ℕ) (f : BlockMember) :
    location (blockAt ctr_blocks channel k) f =
      BitVec.ofNat 28 (ctr_blocks ++ (0 : BitVec 8)).toNat +
        BitVec.ofNat 28 (128 * channel.toNat + 32 * k + f.offset) := by
  have hsum : ctrBlock ctr_blocks channel (BitVec.ofNat 32 k) + BitVec.ofNat 32 f.offset =
      BitVec.ofNat 32 ((ctr_blocks ++ (0 : BitVec 8)).toNat + (128 * channel.toNat + 32 * k + f.offset)) := by
    have hblock : (4 * 32 : Word) = BitVec.ofNat 32 128 := rfl
    rw [ctrBlock, hblock, BitVec.mul_comm channel, BitVec.mul_comm (BitVec.ofNat 32 k), BitVec.add_assoc,
      BitVec.add_assoc, ← BitVec.add_assoc (_ * channel)]
    simp only [BitVec.ofNat_add, BitVec.ofNat_mul, BitVec.ofNat_toNat, BitVec.setWidth_eq]
    rfl
  rw [blockAt, location_mem2uncached, location, hsum, BitVec.setWidth_ofNat_of_le (by omega),
    BitVec.ofNat_add]

/-- **The blocks do not overlap.** -/
theorem location_inj {c c' : Word} (hc : c < 3) (hc' : c' < 3) {k k' : ℕ} (hk : k < 4) (hk' : k' < 4)
    (f f' : BlockMember) :
    location (blockAt ctr_blocks c k) f = location (blockAt ctr_blocks c' k') f' ↔
      c = c' ∧ k = k' ∧ f = f' := by
  constructor
  · intro h
    rw [location_blockAt, location_blockAt, BitVec.add_right_inj] at h
    have hoffset := congrArg BitVec.toNat h
    simp only [BitVec.toNat_ofNat] at hoffset
    have hf := f.offset_lt
    have hf' := f'.offset_lt
    have hlt : c.toNat < 3 := hc
    have hlt' : c'.toNat < 3 := hc'
    refine ⟨BitVec.eq_of_toNat_eq (by omega), by omega, BlockMember.offset_injective (by omega)⟩
  · rintro ⟨rfl, rfl, rfl⟩
    rfl

end Blocks

/-! ## One call -/

section Stores
variable (a b : Word) (f g : BlockMember) (v : Word) (s : DmaUnit)

theorem load_store :
    (s.store a f v).load b g = if location b g = location a f then v else s.load b g :=
  Function.update_apply s.mem (location a f) v (location b g)

@[simp] theorem currBlk_store : (s.store a f v).currBlk = s.currBlk := rfl
@[simp] theorem regs_store : (s.store a f v).regs = s.regs := rfl
@[simp] theorem regs_setCurrBlk : (s.setCurrBlk a v).regs = s.regs := rfl
theorem regs_w32 : (s.w32 a v).regs b = if b = a then v else s.regs b := Function.update_apply s.regs a v b
@[simp] theorem load_setCurrBlk : (s.setCurrBlk a v).load b g = s.load b g := rfl
@[simp] theorem load_w32 : (s.w32 a v).load b g = s.load b g := rfl

end Stores

/-- All members of a block are written. -/
def DmaUnit.fill (blk : Word) (op : DmaRequest) (s : DmaUnit) : DmaUnit :=
  [.TI, .SOURCE_AD, .DEST_AD, .TXFR_LEN, .STRIDE, .NEXTCONBK, .reserved1, .reserved2].foldl
    (fun s f => s.store blk f (op.member f)) s

section Step
variable (ctr_blocks : BitVec 24) {c c' : Word} {k n : ℕ} {s : DmaUnit}

theorem load_fill (hc : c < 3) (hc' : c' < 3) (hn : n < 4) (hk : k < 4) (op : DmaRequest) (f : BlockMember) :
    (s.fill (blockAt ctr_blocks c n) op).load (blockAt ctr_blocks c' k) f =
      if c' = c ∧ k = n then op.member f else s.load (blockAt ctr_blocks c' k) f := by
  simp only [DmaUnit.fill, List.foldl_cons, List.foldl_nil, load_store, location_inj ctr_blocks hc' hc hk hn]
  by_cases hblock : c' = c ∧ k = n
  · cases f <;> simp [hblock]
  · simp only [← and_assoc, hblock, false_and, if_false]

/-- The code of an accepted call. -/
theorem enqueue_eq (hc : c < 3) {x : Word} (hcurr : s.currBlk c = x) (hfull : x ≠ 4) (op : DmaRequest) :
    dmaEnqueueOperation ctr_blocks c op s =
      (x + 1,
        ((if x > 0 then
            (s.fill (mem2uncached (ctrBlock ctr_blocks c x)) op).store
              (ctrBlock ctr_blocks c (x - 1)) .NEXTCONBK (mem2uncached (ctrBlock ctr_blocks c x))
          else s.fill (mem2uncached (ctrBlock ctr_blocks c x)) op).setCurrBlk c (x + 1))) := by
  subst hcurr
  rw [dmaEnqueueOperation, if_neg (BitVec.not_le.mpr hc), if_neg hfull]
  by_cases hpos : s.currBlk c > 0
  · simp only [currBlk_store, hpos, if_true, DmaUnit.setCurrBlk, Function.update_self]
    rfl
  · simp only [currBlk_store, hpos, if_false, DmaUnit.setCurrBlk, Function.update_self]
    rfl

/-- **What an accepted call does.**  It fills the next block and links the block before to it. -/
theorem enqueue_accepts (hc : c < 3) (hn : n < 4) (hcurr : s.currBlk c = BitVec.ofNat 32 n)
    (op : DmaRequest) :
    ∃ s', dmaEnqueueOperation ctr_blocks c op s = (BitVec.ofNat 32 (n + 1), s') ∧
      s'.currBlk = Function.update s.currBlk c (BitVec.ofNat 32 (n + 1)) ∧
      ∀ c' < 3, ∀ k < 4, ∀ f, s'.load (blockAt ctr_blocks c' k) f =
        if c' = c ∧ k = n then op.member f
        else if c' = c ∧ k + 1 = n ∧ f = .NEXTCONBK then blockAt ctr_blocks c n
        else s.load (blockAt ctr_blocks c' k) f := by
  have hfull : BitVec.ofNat 32 n ≠ 4 := by
    intro h
    have htoNat : n % 2 ^ 32 = 4 := congrArg BitVec.toNat h
    omega
  have hnext : BitVec.ofNat 32 n + 1 = BitVec.ofNat 32 (n + 1) := (BitVec.ofNat_add n 1).symm
  have hrun := enqueue_eq ctr_blocks hc hcurr hfull op
  rw [hnext] at hrun
  cases n with
  | zero =>
    refine ⟨_, hrun, rfl, fun c' hc' k hk f => ?_⟩
    rw [if_neg (by decide), load_setCurrBlk]
    exact (load_fill ctr_blocks hc hc' hn hk op f).trans (by simp)
  | succ n =>
    have hpos : BitVec.ofNat 32 (n + 1) > 0 := by
      have htoNat : 0 < (n + 1) % 2 ^ 32 := by omega
      exact htoNat
    have hlast : BitVec.ofNat 32 (n + 1) - 1 = BitVec.ofNat 32 n := by
      rw [BitVec.ofNat_add]
      simp
    rw [if_pos hpos, hlast] at hrun
    refine ⟨_, hrun, rfl, fun c' hc' k hk f => ?_⟩
    rw [load_setCurrBlk, load_store, ← location_mem2uncached (ctrBlock _ _ _)]
    have hfill := load_fill ctr_blocks (s := s) hc hc' hn hk op f
    have hinj := location_inj ctr_blocks hc' hc hk (show n < 4 by omega) f .NEXTCONBK
    unfold blockAt at *
    simp only [hfill, hinj, Nat.add_right_cancel_iff]
    -- the two blocks that are written differ
    by_cases hlink : c' = c ∧ k = n ∧ f = .NEXTCONBK
    · rw [if_pos hlink, if_neg (by omega), if_pos hlink]
    · rw [if_neg hlink, if_neg hlink]

theorem enqueue_rejects (h : c ≥ 3 ∨ s.currBlk c = 4) (op : DmaRequest) :
    dmaEnqueueOperation ctr_blocks c op s = (0, s) := by
  by_cases hc : c ≥ 3
  · exact if_pos hc
  · exact (if_neg hc).trans (if_pos (h.resolve_left hc))

end Step

/-! ## The invariant -/

section Invariant
variable (ctr_blocks : BitVec 24)

/-- The first blocks of the channel hold the operations of its queue, each with a link to the
next one.  Every link leads to the next block or nowhere. -/
structure Queued (c : Word) (ops : List DmaRequest) (s : DmaUnit) : Prop where
  length_le : ops.length ≤ 4
  currBlk : s.currBlk c = BitVec.ofNat 32 ops.length
  members : ∀ k (hk : k < ops.length) f, f ≠ .NEXTCONBK →
    s.load (blockAt ctr_blocks c k) f = ops[k].member f
  next : ∀ k < ops.length, s.load (blockAt ctr_blocks c k) .NEXTCONBK =
    if k + 1 < ops.length then blockAt ctr_blocks c (k + 1) else 0
  stale : ∀ k < 4, s.load (blockAt ctr_blocks c k) .NEXTCONBK = 0 ∨
    k + 1 < 4 ∧ s.load (blockAt ctr_blocks c k) .NEXTCONBK = blockAt ctr_blocks c (k + 1)

/-- **The invariant.**  The accepted operations of every channel are queued. -/
def DmaRun.Good (r : DmaRun) : Prop := ∀ c < 3, Queued ctr_blocks c (r.accepted c) r.unit

end Invariant

section Preservation
variable {ctr_blocks : BitVec 24} {c c' : Word} {ops : List DmaRequest} {s s' : DmaUnit}

theorem Queued.congr (h : Queued ctr_blocks c ops s) (hcurr : s'.currBlk c = s.currBlk c)
    (hload : ∀ k < 4, ∀ f, s'.load (blockAt ctr_blocks c k) f = s.load (blockAt ctr_blocks c k) f) :
    Queued ctr_blocks c ops s' := by
  have hlength := h.length_le
  refine ⟨hlength, hcurr.trans h.currBlk, fun k hk f hf => ?_, fun k hk => ?_, fun k hk => ?_⟩
  · rw [hload k (by omega)]
    exact h.members k hk f hf
  · rw [hload k (by omega)]
    exact h.next k hk
  · rw [hload k hk]
    exact h.stale k hk

/-- The queue is given up, and its blocks stay as they are. -/
theorem Queued.reset (h : Queued ctr_blocks c ops s) (hmem : s'.mem = s.mem) (hcurr : s'.currBlk c = 0) :
    Queued ctr_blocks c [] s' := by
  refine ⟨Nat.zero_le 4, hcurr, fun k hk => (Nat.not_lt_zero k hk).elim,
    fun k hk => (Nat.not_lt_zero k hk).elim, fun k hk => ?_⟩
  have hload : s'.load (blockAt ctr_blocks c k) .NEXTCONBK = s.load (blockAt ctr_blocks c k) .NEXTCONBK :=
    congrFun hmem _
  rw [hload]
  exact h.stale k hk

/-- An accepted call puts its operation at the end of the queue. -/
theorem Queued.push (h : Queued ctr_blocks c ops s) (hlength : ops.length < 4) {op : DmaRequest}
    (hcurr : s'.currBlk c = BitVec.ofNat 32 (ops.length + 1))
    (hload : ∀ k < 4, ∀ f, s'.load (blockAt ctr_blocks c k) f =
      if k = ops.length then op.member f
      else if k + 1 = ops.length ∧ f = .NEXTCONBK then blockAt ctr_blocks c ops.length
      else s.load (blockAt ctr_blocks c k) f) :
    Queued ctr_blocks c (ops ++ [op]) s' := by
  have hsucc : (ops ++ [op]).length = ops.length + 1 := by simp
  refine ⟨by omega, by rw [hsucc]; exact hcurr, fun k hk f hf => ?_, fun k hk => ?_, fun k hk => ?_⟩
  · rw [hload k (by omega)]
    by_cases hlast : k = ops.length
    · subst hlast
      simp
    · rw [if_neg hlast, if_neg (fun hlink => hf hlink.2), h.members k (by omega) f hf,
        List.getElem_append_left]
  · rw [hload k (by omega)]
    by_cases hlast : k = ops.length
    · rw [if_pos hlast, if_neg (by omega)]
      rfl
    · rw [if_neg hlast]
      by_cases hlink : k + 1 = ops.length
      · rw [if_pos ⟨hlink, rfl⟩, if_pos (by omega), hlink]
      · rw [if_neg (fun hboth => hlink hboth.1), h.next k (by omega), if_pos (by omega), if_pos (by omega)]
  · rw [hload k hk]
    by_cases hlast : k = ops.length
    · rw [if_pos hlast]
      exact Or.inl rfl
    · by_cases hlink : k + 1 = ops.length
      · rw [if_neg hlast, if_pos ⟨hlink, rfl⟩, hlink]
        exact Or.inr ⟨hlength, rfl⟩
      · rw [if_neg hlast, if_neg (fun hboth => hlink hboth.1)]
        exact h.stale k hk

/-- The state of the other channels stays as it is. -/
structure Keeps (ctr_blocks : BitVec 24) (c : Word) (s s' : DmaUnit) : Prop where
  currBlk : ∀ c' ≠ c, s'.currBlk c' = s.currBlk c'
  load : ∀ c' < 3, c' ≠ c → ∀ k < 4, ∀ f,
    s'.load (blockAt ctr_blocks c' k) f = s.load (blockAt ctr_blocks c' k) f

theorem Keeps.refl (ctr_blocks : BitVec 24) (c : Word) (s : DmaUnit) : Keeps ctr_blocks c s s :=
  ⟨fun _ _ => rfl, fun _ _ _ _ _ _ => rfl⟩

/-- The queue of a channel is given up. -/
theorem Keeps.reset {ctr_blocks : BitVec 24} {c : Word} {s s' : DmaUnit} (hmem : s'.mem = s.mem)
    (hcurr : s'.currBlk = Function.update s.currBlk c 0) : Keeps ctr_blocks c s s' :=
  ⟨fun c' hne => by rw [hcurr, Function.update_of_ne hne], fun _ _ _ _ _ _ => congrFun hmem _⟩

/-- An operation for a queue that is not full. -/
theorem Queued.enqueue (h : Queued ctr_blocks c ops s) (hc : c < 3) (hlength : ops.length < 4)
    (op : DmaRequest) :
    ∃ n s', n ≠ 0 ∧ dmaEnqueueOperation ctr_blocks c op s = (n, s') ∧ Keeps ctr_blocks c s s' ∧
      Queued ctr_blocks c (ops ++ [op]) s' := by
  obtain ⟨s', hrun, hcurr, hload⟩ := enqueue_accepts ctr_blocks hc hlength h.currBlk op
  refine ⟨_, s', ?_, hrun, ⟨fun c' hne => ?_, fun c' hc' hne k hk f => ?_⟩, ?_⟩
  · intro hzero
    have htoNat : (ops.length + 1) % 2 ^ 32 = 0 := congrArg BitVec.toNat hzero
    omega
  · rw [hcurr, Function.update_of_ne hne]
  · rw [hload c' hc' k hk f, if_neg (fun hboth => hne hboth.1), if_neg (fun hboth => hne hboth.1)]
  · refine h.push hlength (by rw [hcurr, Function.update_self]) fun k hk f => ?_
    rw [hload c hc k hk f]
    simp only [true_and]

theorem dmaInit_spec (ctr_blocks : BitVec 24) (c : Word) (s : DmaUnit) :
    Keeps ctr_blocks c s (dmaInit c s) ∧ (dmaInit c s).mem = s.mem ∧
      (c < 3 → (dmaInit c s).currBlk c = 0) := by
  by_cases hc : c < 3
  · have heq : dmaInit c s =
        (s.setCurrBlk c 0).w32 DMA_GLOBAL_ENABLE (s.regs DMA_GLOBAL_ENABLE ||| (1 : Word) <<< c) := if_pos hc
    rw [heq]
    exact ⟨Keeps.reset rfl rfl, rfl, fun _ => Function.update_self c 0 _⟩
  · have heq : dmaInit c s = s := if_neg hc
    rw [heq]
    exact ⟨Keeps.refl ctr_blocks c s, rfl, fun hc' => absurd hc' hc⟩

theorem dmaExecuteQueue_spec (ctr_blocks : BitVec 24) (c : Word) (s : DmaUnit) :
    Keeps ctr_blocks c s (dmaExecuteQueue ctr_blocks c s) ∧ (dmaExecuteQueue ctr_blocks c s).mem = s.mem ∧
      (c < 3 → (dmaExecuteQueue ctr_blocks c s).currBlk c = 0) := by
  by_cases hc : c < 3
  · rw [dmaExecuteQueue, if_pos hc]
    exact ⟨Keeps.reset rfl rfl, rfl, fun _ => Function.update_self c 0 _⟩
  · rw [dmaExecuteQueue, if_neg hc]
    exact ⟨Keeps.refl ctr_blocks c s, rfl, fun hc' => absurd hc' hc⟩

/-- A channel runs when its queue is executed. -/
theorem dmaRunning_execute (ctr_blocks : BitVec 24) {c : Word} (hc : c < DMA_CHANNELS) (s : DmaUnit) :
    dmaRunning c (dmaExecuteQueue ctr_blocks c s) = DMA_CS_ACTIVE := by
  rw [dmaRunning, if_pos hc, dmaExecuteQueue, if_pos hc]
  simp only [regs_setCurrBlk, regs_w32, if_true]
  rfl

end Preservation

namespace DmaRun
variable {ctr_blocks : BitVec 24} {r : DmaRun}

/-- **The two ways of an operation.** -/
theorem Good.enqueue_cases (h : r.Good ctr_blocks) (c : Word) (op : DmaRequest) :
    ((c ≥ 3 ∨ (r.accepted c).length = 4) ∧ dmaEnqueueOperation ctr_blocks c op r.unit = (0, r.unit)) ∨
      ∃ n s', c < 3 ∧ (r.accepted c).length < 4 ∧ n ≠ 0 ∧
        dmaEnqueueOperation ctr_blocks c op r.unit = (n, s') ∧
        Keeps ctr_blocks c r.unit s' ∧ Queued ctr_blocks c (r.accepted c ++ [op]) s' := by
  by_cases hc : c < 3
  swap
  · have hge : c ≥ 3 := BitVec.not_lt.mp hc
    exact Or.inl ⟨Or.inl hge, enqueue_rejects ctr_blocks (Or.inl hge) op⟩
  have hqueued := h c hc
  by_cases hfull : (r.accepted c).length = 4
  · have hcurr : r.unit.currBlk c = 4 := by
      rw [hqueued.currBlk, hfull]
      rfl
    exact Or.inl ⟨Or.inr hfull, enqueue_rejects ctr_blocks (Or.inr hcurr) op⟩
  · have hlength : (r.accepted c).length < 4 := Nat.lt_of_le_of_ne hqueued.length_le hfull
    obtain ⟨n, s', hn, hrun, hkeeps, hpushed⟩ := hqueued.enqueue hc hlength op
    exact Or.inr ⟨n, s', hc, hlength, hn, hrun, hkeeps, hpushed⟩

/-- The queue of one channel is replaced. -/
theorem Good.replace (h : r.Good ctr_blocks) {c : Word} {s' : DmaUnit} {ops : List DmaRequest}
    (hkeeps : Keeps ctr_blocks c r.unit s') (hqueued : c < 3 → Queued ctr_blocks c ops s') :
    Good ctr_blocks ⟨s', Function.update r.accepted c ops⟩ := by
  intro c' hc'
  dsimp only
  by_cases heq : c' = c
  · subst heq
    rw [Function.update_self]
    exact hqueued hc'
  · rw [Function.update_of_ne heq]
    exact (h c' hc').congr (hkeeps.currBlk c' heq) (hkeeps.load c' hc' heq)

/-- **A call keeps the invariant.** -/
theorem Good.step (h : r.Good ctr_blocks) (call : DmaCall) : (r.step ctr_blocks call).Good ctr_blocks := by
  cases call with
  | init c =>
    obtain ⟨hkeeps, hmem, hcurr⟩ := dmaInit_spec ctr_blocks c r.unit
    exact h.replace hkeeps fun hc => (h c hc).reset hmem (hcurr hc)
  | execute c =>
    obtain ⟨hkeeps, hmem, hcurr⟩ := dmaExecuteQueue_spec ctr_blocks c r.unit
    exact h.replace hkeeps fun hc => (h c hc).reset hmem (hcurr hc)
  | enqueue c op =>
    rw [DmaRun.step]
    rcases h.enqueue_cases c op with ⟨-, hrun⟩ | ⟨n, s', -, -, hn, hrun, hkeeps, hqueued⟩
    · simp only [hrun, if_true]
      exact h
    · simp only [hrun, hn, if_false]
      exact h.replace hkeeps fun _ => hqueued

/-- A call keeps the blocks of the other channels. -/
theorem Good.keeps (h : r.Good ctr_blocks) (call : DmaCall) :
    Keeps ctr_blocks call.channel r.unit (r.step ctr_blocks call).unit := by
  cases call with
  | init c => exact (dmaInit_spec ctr_blocks c r.unit).1
  | execute c => exact (dmaExecuteQueue_spec ctr_blocks c r.unit).1
  | enqueue c op =>
    rw [DmaRun.step]
    rcases h.enqueue_cases c op with ⟨-, hrun⟩ | ⟨n, s', -, -, -, hrun, hkeeps, -⟩
    · rw [hrun]
      exact Keeps.refl ctr_blocks c r.unit
    · rw [hrun]
      exact hkeeps

end DmaRun

/-! ## Chains -/

section Chain
variable {ctr_blocks : BitVec 24} {c : Word} {ops : List DmaRequest} {s s' : DmaUnit}

/-- The blocks of a queue, in order. -/
theorem Queued.leads (h : Queued ctr_blocks c ops s) :
    Leads (fun a => s.load a .NEXTCONBK) ((List.range ops.length).map (blockAt ctr_blocks c)) 0 := by
  rw [leads_iff]
  intro i hi
  rw [List.length_map, List.length_range] at hi
  rw [List.getElem_map, List.getElem_range, h.next i hi, List.getD_eq_getElem?_getD, List.getElem?_map]
  by_cases hlast : i + 1 < ops.length
  · rw [if_pos hlast, List.getElem?_range hlast]
    rfl
  · rw [if_neg hlast, List.getElem?_eq_none (by simp; omega)]
    rfl

/-- The engine finds the operations of a queue that is not empty. -/
theorem Queued.chain_eq (h : Queued ctr_blocks c ops s) (hops : ops ≠ []) {n : ℕ} (hn : 4 < n) :
    s.chain n (blockAt ctr_blocks c 0) = some ops := by
  have hlength := h.length_le
  have hpos := List.length_pos_iff.mpr hops
  have hzero : (0 : Word) ∉ (List.range ops.length).map (blockAt ctr_blocks c) := by
    intro hmem
    obtain ⟨k, -, hk⟩ := List.mem_map.mp hmem
    exact mem2uncached_ne_zero _ hk
  have hfirst : ((List.range ops.length).map (blockAt ctr_blocks c)).headD 0 = blockAt ctr_blocks c 0 := by
    obtain ⟨m, hm⟩ := Nat.exists_eq_add_one.mpr hpos
    rw [hm, List.range_succ_eq_map]
    rfl
  have hwalk := h.leads.walk_eq hzero (show _ < n by rw [List.length_map, List.length_range]; omega)
  rw [hfirst] at hwalk
  rw [DmaUnit.chain, hwalk, Option.map_some, List.map_map]
  refine congrArg some (List.ext_getElem (by simp) fun k hk hk' => ?_)
  have hmember := h.members k hk'
  simp only [List.getElem_map, List.getElem_range, Function.comp_apply, hmember, ne_eq, reduceCtorEq,
    not_false_eq_true]
  rfl

/-- The blocks of a channel decide what is found behind the first one. -/
theorem Queued.chain_congr (h : Queued ctr_blocks c ops s)
    (hload : ∀ k < 4, ∀ f, s'.load (blockAt ctr_blocks c k) f = s.load (blockAt ctr_blocks c k) f) (n : ℕ) :
    s'.chain n (blockAt ctr_blocks c 0) = s.chain n (blockAt ctr_blocks c 0) := by
  let S : Set Word := { a | ∃ k < 4, blockAt ctr_blocks c k = a }
  have hclosed : ∀ a ∈ S, s.load a .NEXTCONBK = 0 ∨ s.load a .NEXTCONBK ∈ S := by
    rintro a ⟨k, hk, rfl⟩
    rcases h.stale k hk with hzero | ⟨hlt, hnext⟩
    · exact Or.inl hzero
    · exact Or.inr ⟨k + 1, hlt, hnext.symm⟩
  have heq : ∀ a ∈ S, ∀ f, s'.load a f = s.load a f := by
    rintro a ⟨k, hk, rfl⟩ f
    exact hload k hk f
  have hfirst : blockAt ctr_blocks c 0 = 0 ∨ blockAt ctr_blocks c 0 ∈ S := Or.inr ⟨0, by omega, rfl⟩
  rw [DmaUnit.chain, DmaUnit.chain, walk_congr hclosed (fun a ha => heq a ha .NEXTCONBK) n hfirst]
  cases hwalk : walk (fun a => s.load a .NEXTCONBK) 0 n (blockAt ctr_blocks c 0) with
  | none => rfl
  | some blks =>
    refine congrArg some (List.map_congr_left fun a ha => ?_)
    have hmem := mem_of_walk hclosed hfirst hwalk a ha
    simp only [heq a hmem]

end Chain

/-! ## Every run -/

/-- The static variables of `dma.c` at the start are zero. -/
structure DmaUnit.Cleared (ctr_blocks : BitVec 24) (s : DmaUnit) : Prop where
  currBlk : ∀ c < 3, s.currBlk c = 0
  links : ∀ c < 3, ∀ k < 4, s.load (blockAt ctr_blocks c k) .NEXTCONBK = 0

section Runs
variable {ctr_blocks : BitVec 24} {s : DmaUnit}

theorem DmaUnit.Cleared.queued (hs : s.Cleared ctr_blocks) (c : Word) (hc : c < 3) :
    Queued ctr_blocks c [] s :=
  ⟨Nat.zero_le 4, hs.currBlk c hc, fun k hk => (Nat.not_lt_zero k hk).elim,
    fun k hk => (Nat.not_lt_zero k hk).elim, fun k hk => Or.inl (hs.links c hc k hk)⟩

/-- The calls, from the start. -/
def dmaRun (ctr_blocks : BitVec 24) (calls : List DmaCall) (s : DmaUnit) : DmaRun :=
  calls.foldl (DmaRun.step ctr_blocks) ⟨s, fun _ => []⟩

theorem dmaRun_good (hs : s.Cleared ctr_blocks) (calls : List DmaCall) :
    (dmaRun ctr_blocks calls s).Good ctr_blocks := by
  exact foldl_invariant (I := DmaRun.Good ctr_blocks) (fun _ call h => h.step call) _ calls hs.queued

/-- The engine is started at the first block. -/
theorem execute_regs {c : Word} (hc : c < DMA_CHANNELS) :
    (dmaExecuteQueue ctr_blocks c s).regs (DMA_BASE + (c <<< 8) + DMA_CONBLK_AD_OFFSET) =
      blockAt ctr_blocks c 0 := by
  have hne : DMA_BASE + (c <<< 8) + DMA_CONBLK_AD_OFFSET ≠ DMA_BASE + (c <<< 8) + DMA_CS_OFFSET := by
    rw [ne_eq, BitVec.add_right_inj]
    decide
  rw [dmaExecuteQueue, if_pos hc]
  simp only [regs_setCurrBlk, regs_w32, if_neg hne, if_true]
  rfl

/-- **The chain is the queue.**  After any calls, an execution starts the engine at a chain that
is exactly the operations accepted for its channel since the last one.  An operation is rejected
if there is no such channel or its queue is full, and changes nothing then; no call has an effect
on the chain of another channel. -/
theorem dma_chain_eq_queue (hs : s.Cleared ctr_blocks) (calls : List DmaCall) :
    let r := dmaRun ctr_blocks calls s
    (∀ c < DMA_CHANNELS, r.accepted c ≠ [] →
      let s' := dmaExecuteQueue ctr_blocks c r.unit
      s'.regs (DMA_BASE + (c <<< 8) + DMA_CONBLK_AD_OFFSET) = blockAt ctr_blocks c 0 ∧
        ∀ n > 4, s'.chain n (blockAt ctr_blocks c 0) = some (r.accepted c)) ∧
    (∀ c op, (dmaEnqueueOperation ctr_blocks c op r.unit).1 = 0 ↔
      c ≥ DMA_CHANNELS ∨ (r.accepted c).length = 4) ∧
    (∀ c op, (dmaEnqueueOperation ctr_blocks c op r.unit).1 = 0 →
      (dmaEnqueueOperation ctr_blocks c op r.unit).2 = r.unit) ∧
    ∀ call : DmaCall, ∀ c < DMA_CHANNELS, c ≠ call.channel → ∀ n,
      (r.step ctr_blocks call).unit.chain n (blockAt ctr_blocks c 0) =
        r.unit.chain n (blockAt ctr_blocks c 0) := by
  have hgood := dmaRun_good hs calls
  generalize dmaRun ctr_blocks calls s = r at hgood
  refine ⟨fun c hc hops => ⟨execute_regs hc, fun n hn => ?_⟩, fun c op => ?_, fun c op => ?_, ?_⟩
  · obtain ⟨-, hmem, -⟩ := dmaExecuteQueue_spec ctr_blocks c r.unit
    rw [(hgood c hc).chain_congr (fun k _ f => congrFun hmem _), (hgood c hc).chain_eq hops hn]
  · rcases hgood.enqueue_cases c op with ⟨hreject, hrun⟩ | ⟨n, s', hc, hlength, hn, hrun, -⟩
    · rw [hrun]
      exact iff_of_true rfl hreject
    · rw [hrun]
      refine iff_of_false hn ?_
      rintro (hge | hfull)
      · exact absurd hc (BitVec.not_lt.mpr hge)
      · omega
  · rcases hgood.enqueue_cases c op with ⟨-, hrun⟩ | ⟨n, s', -, -, hn, hrun, -⟩
    · rw [hrun]
      exact fun _ => rfl
    · rw [hrun]
      exact fun hzero => absurd hzero hn
  · intro call c hc hne n
    exact (hgood c hc).chain_congr ((hgood.keeps call).load c hc hne) n

end Runs

/-- Two operations are executed, then one. -/
def shorterQueue : DmaRun :=
  dmaRun 0x100 [.init 0, .enqueue 0 ⟨1, 2, 3, 0, 16⟩, .enqueue 0 ⟨4, 5, 6, 0, 16⟩, .execute 0,
    .enqueue 0 ⟨7, 8, 9, 0, 16⟩] ⟨fun _ => 0, fun _ => 0, fun _ => 0⟩

theorem dma_chain_of_shorterQueue :
    (dmaExecuteQueue 0x100 0 shorterQueue.unit).chain 5 (blockAt 0x100 0 0) = some [⟨7, 8, 9, 0, 16⟩] := by
  have hcleared : (DmaUnit.mk (fun _ => 0) (fun _ => 0) (fun _ => 0)).Cleared 0x100 :=
    ⟨fun _ _ => rfl, fun _ _ _ _ => rfl⟩
  exact ((dma_chain_eq_queue hcleared _).1 0 (by decide) (by decide)).2 5 (by omega)

end Pigfx.DmaQueue
