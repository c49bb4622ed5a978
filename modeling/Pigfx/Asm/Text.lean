import Pigfx.Lib.Arm

/-!
# The assembly files

The routines of `utils.s`, `timer.s` and `uart.s`, instruction by instruction.  A label that is a
number has the name of its routine before it; what stands behind a call has no label, and
needs none.

## Main definitions

* `Label`, `text` — the instructions, `next` — the labels that are fallen through to.
-/

namespace Pigfx.Asm
open Lib Lib.Arm Reg

/-- The labels of the source. -/
inductive Label
  -- `utils.s`
  | pinMode | pinLoop | maskLoop | maskDone | pinModeExit
  | digitalWrite | digitalWriteExit
  | strlen | strlen1 | strlen2
  | strcmp | strcmp1 | strcmp1'
  | byte2hexstr | byte2hexstr3 | byte2hexstr1 | byte2hexstr1'
  | word2hexstr
  | hex2nibble | isnum | isAF | isaf | hex2nibble1
  | hex2byte
  -- `timer.s`
  | usleep | usleep1
  | time_microsec
  -- `uart.s`
  | uart_write | write_loop | bw | shift_and_send | write_done
  | uart_write_str
  | uart_poll | uart_poll1
  | uart_read_byte | bwr
  | uart_read_hex
  | uart_purge | uart_purge2 | uart_purge1
  deriving DecidableEq, Repr

open Label in
def text : Label → List (Instr Label)
  | pinMode => [
      .push [r0, r1, r2, r3],
      .mov r3 0,
      .mcr,
      .cmp r0 54,
      .bhs pinModeExit,
      .cmp r1 8,
      .bhs pinModeExit,
      .mov r3 0x20,
      .mov r3 (.lsl r3 8),
      .orr r3 r3 0x20,
      .mov r3 (.lsl r3 16),
      .mov r2 7]
  | pinLoop => [
      .cmp r0 10,
      .blt maskLoop,
      .add r3 r3 4,
      .sub r0 r0 10,
      .b pinLoop]
  | maskLoop => [
      .cmp r0 0,
      .beq maskDone,
      .lsl r1 r1 3,
      .lsl r2 r2 3,
      .sub r0 r0 1,
      .b maskLoop]
  | maskDone => [
      .ldr r0 r3 0,
      .bic r0 r0 r2,
      .orr r0 r0 r1,
      .str r0 r3 0]
  | pinModeExit => [
      .mov r3 0,
      .mcr,
      .pop [r0, r1, r2, r3],
      .bx lr]
  | digitalWrite => [
      .push [r0, r1, r3],
      .mov r3 0,
      .mcr,
      .mov r3 0x20,
      .mov r3 (.lsl r3 8),
      .orr r3 r3 0x20,
      .mov r3 (.lsl r3 16),
      .orr r3 r3 0x1C,
      .cmp r0 0,
      .blt digitalWriteExit,
      .cmp r0 32,
      .when .ge (.add r3 r3 4),
      .cmp r0 53,
      .bgt digitalWriteExit,
      .cmp r1 0,
      .when .eq (.add r3 r3 0x0C),
      .mov r1 1,
      .and r0 r0 31,
      .lslr r1 r1 r0,
      .str r1 r3 0]
  | digitalWriteExit => [
      .mov r3 0,
      .mcr,
      .pop [r0, r1, r3],
      .bx lr]
  | strlen => [
      .push [r1, r2],
      .mov r1 r0,
      .mov r0 0]
  | strlen1 => [
      .ldrb r2 r1 0,
      .cmp r2 0,
      .beq strlen2,
      .add r0 r0 1,
      .add r1 r1 1,
      .b strlen1]
  | strlen2 => [
      .pop [r1, r2],
      .bx lr]
  | strcmp => [
      .push [r2, r3]]
  | strcmp1 => [
      .ldrb r2 r0 0,
      .ldrb r3 r1 0,
      .add r0 r0 1,
      .add r1 r1 1,
      .cmp r2 0,
      .beq strcmp1',
      .cmp r3 0,
      .beq strcmp1',
      .cmp r2 r3,
      .beq strcmp1]
  | strcmp1' => [
      .sub r0 r2 r3,
      .pop [r2, r3],
      .bx lr]
  | byte2hexstr => [
      .push [r0, r1, r2, r3, r4],
      .add r4 r1 2,
      .mov r2 (.lsr r0 4)]
  | byte2hexstr3 => [
      .mov r3 48,
      .cmp r2 9,
      .ble byte2hexstr1,
      .add r3 r3 7]
  | byte2hexstr1 => [
      .add r2 r2 r3,
      .strb r2 r1 0,
      .add r1 r1 1,
      .cmp r4 r1,
      .beq byte2hexstr1',
      .and r2 r0 0xF,
      .b byte2hexstr3]
  | byte2hexstr1' => [
      .pop [r0, r1, r2, r3, r4],
      .bx lr]
  | word2hexstr => [
      .push [r0, r1, r2, lr],
      .mov r2 r0,
      .lsr r0 r0 24,
      .and r0 r0 0xFF,
      .bl byte2hexstr,
      .add r1 r1 2,
      .mov r0 r2,
      .lsr r0 r0 16,
      .and r0 r0 0xFF,
      .bl byte2hexstr,
      .add r1 r1 2,
      .mov r0 r2,
      .lsr r0 r0 8,
      .and r0 r0 0xFF,
      .bl byte2hexstr,
      .add r1 r1 2,
      .mov r0 r2,
      .and r0 r0 0xFF,
      .bl byte2hexstr,
      .add r1 r1 2,
      .pop [r0, r1, r2, lr],
      .bx lr]
  | hex2nibble => [
      .push [r2],
      .and r2 r0 0xFF,
      .mov r0 0xF0,
      .cmp r2 47,
      .ble hex2nibble1,
      .cmp r2 103,
      .bge hex2nibble1,
      .cmp r2 57,
      .ble isnum,
      .cmp r2 97,
      .bge isaf,
      .cmp r2 64,
      .ble hex2nibble1,
      .cmp r2 70,
      .ble isAF]
  | isnum => [
      .sub r0 r2 48,
      .b hex2nibble1]
  | isAF => [
      .sub r0 r2 55,
      .b hex2nibble1]
  | isaf => [
      .sub r0 r2 87,
      .b hex2nibble1]
  | hex2nibble1 => [
      .pop [r2],
      .bx lr]
  | hex2byte => [
      .push [r1, r2, lr],
      .mov r1 0,
      .mov r2 r0,
      .ldrb r0 r2 0,
      .bl hex2nibble,
      .add r1 r1 r0,
      .lsl r1 r1 4,
      .ldrb r0 r2 1,
      .bl hex2nibble,
      .add r1 r1 r0,
      .mov r0 r1,
      .pop [r1, r2, lr],
      .bx lr]
  | usleep => [
      .push [r1, r2, r3],
      .mov r3 0,
      .mcr,
      .mov r1 0x2000,
      .lsl r1 r1 16,
      .orr r1 r1 0x3000,
      .add r3 r1 0x4,
      .ldr r2 r3 0,
      .add r0 r0 r2]
  | usleep1 => [
      .ldr r1 r3 0,
      .cmp r1 r0,
      .blt usleep1,
      .mov r3 0,
      .mcr,
      .pop [r1, r2, r3],
      .bx lr]
  | time_microsec => [
      .push [r1, r3],
      .mov r3 0,
      .mcr,
      .mov r1 0x2000,
      .lsl r1 r1 16,
      .orr r1 r1 0x3000,
      .add r3 r1 0x4,
      .ldr r0 r3 0,
      .mov r3 0,
      .mcr,
      .pop [r1, r3],
      .bx lr]
  | uart_write => [
      .push [r2, r3, r4, r5, r6],
      .mov r3 0,
      .mcr,
      .mov r3 0x20,
      .lsl r3 r3 8,
      .orr r3 r3 0x20,
      .lsl r3 r3 8,
      .orr r3 r3 0x10,
      .lsl r3 r3 8,
      .add r4 r3 0x18,
      .mov r6 4]
  | write_loop => [
      .cmp r1 0,
      .beq write_done]
  | bw => [
      .ldr r5 r4 0,
      .tst r5 0x20,
      .bne bw,
      .cmp r6 4,
      .bne shift_and_send,
      .ldr r2 r0 0,
      .add r0 r0 4,
      .mov r6 0]
  | shift_and_send => [
      .and r5 r2 0xFF,
      .str r5 r3 0,
      .lsr r2 r2 8,
      .sub r1 r1 1,
      .add r6 r6 1,
      .b write_loop]
  | write_done => [
      .mov r3 0,
      .mcr,
      .pop [r2, r3, r4, r5, r6],
      .bx lr]
  | uart_write_str => [
      .push [r0, lr],
      .bl strlen,
      .mov r1 r0,
      .pop [r0],
      .bl uart_write,
      .pop [lr],
      .bx lr]
  | uart_poll => [
      .push [r3, r4],
      .mov r3 0,
      .mcr,
      .mov r3 0x20,
      .lsl r3 r3 8,
      .orr r3 r3 0x20,
      .lsl r3 r3 8,
      .orr r3 r3 0x10,
      .lsl r3 r3 8,
      .mov r0 0,
      .ldr r4 r3 0x18,
      .tst r4 0x10,
      .bne uart_poll1,
      .mov r0 1]
  | uart_poll1 => [
      .mov r3 0,
      .mcr,
      .pop [r3, r4],
      .bx lr]
  | uart_read_byte => [
      .push [r3, r4],
      .mov r3 0,
      .mcr,
      .mov r3 0x20,
      .lsl r3 r3 8,
      .orr r3 r3 0x20,
      .lsl r3 r3 8,
      .orr r3 r3 0x10,
      .lsl r3 r3 8]
  | bwr => [
      .ldr r4 r3 0x18,
      .tst r4 0x10,
      .bne bwr,
      .ldr r0 r3 0,
      .and r0 r0 0xFF,
      .mov r3 0,
      .mcr,
      .pop [r3, r4],
      .bx lr]
  | uart_read_hex => [
      .push [r8, lr],
      .sub sp sp 4,
      .mov r8 sp,
      .bl uart_read_byte,
      .strb r0 r8 0,
      .add r8 r8 1,
      .bl uart_read_byte,
      .strb r0 r8 0,
      .sub r0 r8 1,
      .bl hex2byte,
      .add sp sp 4,
      .pop [r8, lr],
      .bx lr]
  | uart_purge => [
      .push [lr]]
  | uart_purge2 => [
      .bl uart_poll,
      .cmp r0 0,
      .beq uart_purge1,
      .bl uart_read_byte,
      .b uart_purge2]
  | uart_purge1 => [
      .pop [lr],
      .bx lr]

/-- The label that stands behind the last instruction. -/
def next : Label → Option Label
  | .pinMode => some .pinLoop
  | .pinLoop => some .maskLoop
  | .maskLoop => some .maskDone
  | .maskDone => some .pinModeExit
  | .digitalWrite => some .digitalWriteExit
  | .strlen => some .strlen1
  | .strlen1 => some .strlen2
  | .strcmp => some .strcmp1
  | .strcmp1 => some .strcmp1'
  | .byte2hexstr => some .byte2hexstr3
  | .byte2hexstr3 => some .byte2hexstr1
  | .byte2hexstr1 => some .byte2hexstr1'
  | .hex2nibble => some .isnum
  | .isnum => some .isAF
  | .isAF => some .isaf
  | .isaf => some .hex2nibble1
  | .usleep => some .usleep1
  | .uart_write => some .write_loop
  | .write_loop => some .bw
  | .bw => some .shift_and_send
  | .shift_and_send => some .write_done
  | .uart_poll => some .uart_poll1
  | .uart_read_byte => some .bwr
  | .uart_purge => some .uart_purge2
  | .uart_purge2 => some .uart_purge1
  | _ => none

def program : Program Label := ⟨text, next⟩

attribute [simp] text program

/-- The labels in the order of the files. -/
def labels : List Label := [
  .pinMode, .pinLoop, .maskLoop, .maskDone, .pinModeExit, .digitalWrite, .digitalWriteExit, .strlen, .strlen1,
  .strlen2, .strcmp, .strcmp1, .strcmp1', .byte2hexstr, .byte2hexstr3, .byte2hexstr1, .byte2hexstr1', .word2hexstr,
  .hex2nibble, .isnum, .isAF, .isaf, .hex2nibble1, .hex2byte, .usleep, .usleep1, .time_microsec, .uart_write,
  .write_loop, .bw, .shift_and_send, .write_done, .uart_write_str, .uart_poll, .uart_poll1, .uart_read_byte, .bwr,
  .uart_read_hex, .uart_purge, .uart_purge2, .uart_purge1]

/-- The program fits, whatever the devices are. -/
theorem placed_link {σ : Type} (device : Word → Bool) (read : Word → σ → Word × σ) (write : Word → Word → σ → σ)
    (unaligned : Word → Ram → Word) : program.Placed (program.link labels device read write unaligned) := by
  refine program.placed_link device read write unaligned (fun l => by cases l <;> decide) ?_ ?_
  · intro l l' hl'
    cases l <;> cases hl' <;> rfl
  · have hlength : (labels.flatMap program.text).length = 277 := by
      rw [List.length_flatMap]
      rfl
    rw [hlength]
    decide

/-- A machine without devices. -/
def bare : Machine Label Unit :=
  program.link labels (fun _ => false) (fun _ _ => (0, ())) (fun _ _ _ => ()) Ram.word

theorem placed_bare : program.Placed bare := placed_link _ _ _ _

end Pigfx.Asm
