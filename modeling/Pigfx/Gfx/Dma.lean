import Pigfx.Gfx.Types

/-!
# Transfers on DMA channel 0

`gfx.c` prepares between one and three operations with `dma_enqueue_operation` and
starts them with `dma_execute_queue(0)` before the same call ends, so the queue of
channel 0 is empty between calls and an operation list stands for it here.

The engine runs its control blocks in order.  In the linear mode the transfer
length counts bytes; in the 2D mode its bits 29:16 count the rows after the first,
its bits 15:0 the bytes of a row, and bits 31:16 of the stride word hold a signed
step from the end of a row to the next one.

## Main definitions

* `DmaOp` — the arguments of `dma_enqueue_operation`.
* `DmaOp.run`, `dmaExecuteQueue` — what the engine does with them.
-/

namespace Pigfx
open Lib

abbrev DMA_TI_SRC_INC : ℕ := 1 <<< 8
abbrev DMA_TI_DEST_INC : ℕ := 1 <<< 4
abbrev DMA_TI_2DMODE : ℕ := 1 <<< 1

/-- Where an operation reads: in memory, or one of the words of `mem_buff_dma`
that hold a colour and are not overwritten before the operation ends. -/
inductive DmaSource
  | memory (a : ℤ)
  | word (w : Word)

/-- The arguments of `dma_enqueue_operation`. -/
structure DmaOp where
  src : DmaSource
  dst : ℤ
  len : ℕ
  stride : ℕ
  TRANSFER_INFO : ℕ

namespace DmaOp

/-- `YLENGTH`, bits 29:16 of the transfer length. -/
def yLength (op : DmaOp) : ℕ := (op.len >>> 16) &&& 0x3FFF

/-- `XLENGTH`, bits 15:0 of the transfer length. -/
def xLength (op : DmaOp) : ℕ := op.len &&& 0xFFFF

/-- `D_STRIDE`, the signed upper half of the stride word. -/
def dStride (op : DmaOp) : ℤ := ((op.stride >>> 16 : ℕ) : ℤ).bmod (2 ^ 16)

/-- The engine's work on one control block, for the combinations in use. -/
def run (op : DmaOp) (m : Bus) : Bus :=
  match op.src with
  | .memory a =>
      if op.TRANSFER_INFO &&& DMA_TI_SRC_INC = 0 then blockFill op.len op.dst (m.word a) m
      else blockCopy op.len a op.dst m
  | .word w =>
      if op.TRANSFER_INFO &&& DMA_TI_2DMODE = 0 then blockFill op.len op.dst w m
      else blockFill2d (op.yLength + 1) op.xLength op.dStride op.dst w m

end DmaOp

/-- Enqueue the operations and execute the queue; the transfers are complete when
the processor next waits for the channel. -/
def dmaExecuteQueue (ops : List DmaOp) (m : Bus) : Bus :=
  ops.foldl (fun m op => op.run m) ((ops.foldl (fun m _ => m.note .dmaSetup) m).note .dmaStart)

/-- `while (dma_running(0));` -/
def dmaWait (m : Bus) : Bus := m.note .dmaIdle

theorem data_foldl_note (e : Event) (ops : List DmaOp) (m : Bus) :
    (ops.foldl (fun m _ => m.note e) m).data = m.data := by
  induction ops generalizing m with
  | nil => rfl
  | cons op ops ih => exact ih (m.note e)

end Pigfx
