import Pigfx.Asm.Serial

/-!
# Receiving

Bytes are read as they come; `uart_purge` reads what is there and drops it.

## Main definitions

* `Receiver` — the port, for what is received.
* `uart_read_hex_reads`, `uart_purge_drops` — the main results.
-/

namespace Pigfx.Asm
open Lib Lib.Arm Reg

variable {σ : Type}

/-- The port, for what is received. -/
structure Receiver (M : Machine Label σ) where
  /-- the bytes that were not read yet, whether they are in the queue or on their way -/
  unread : σ → List Byte
  /-- nothing is in the queue -/
  empty : σ → Prop
  device_status : M.device UART0_FR = true
  device_data : M.device UART0_BASE = true
  status : ∀ d, (M.read UART0_FR d).1 &&& 0x10 = 0 ↔ ¬empty (M.read UART0_FR d).2
  unread_status : ∀ d, unread (M.read UART0_FR d).2 = unread d
  data : ∀ d, ¬empty d → unread d = (M.read UART0_BASE d).1.setWidth 8 :: unread (M.read UART0_BASE d).2
  /-- what is on its way arrives -/
  arrives : ∀ d, unread d ≠ [] → ∃ k, ¬empty ((fun d => (M.read UART0_FR d).2)^[k + 1] d)

variable {M : Machine Label σ} (hp : program.Placed M) {x : Point σ} (t : Receiver M)
include hp

/-! ## `uart_poll` -/

theorem uart_read_byte_entry (hpc : x.pc = M.place .uart_read_byte) :
    M.Goes x
      { x with
        mem := x.mem.putWords (x.regs.sp - 8) [x.regs.r3, x.regs.r4]
        regs := { x.regs with r3 := UART0_BASE, sp := x.regs.sp - 8 }
        pc := M.place .bwr } := by
  rw [hp.next .uart_read_byte _ rfl]
  exact hp.goes hpc fun flags => by simp [UART0_BASE]

/-- A look at an empty queue. -/
theorem bwr_empty (hpc : x.pc = M.place .bwr) (hr3 : x.regs.r3 = UART0_BASE)
    (hempty : t.empty (M.read UART0_FR x.dev).2) :
    M.Goes x
      { x with
        regs := { x.regs with r4 := (M.read UART0_FR x.dev).1 }
        dev := (M.read UART0_FR x.dev).2
        pc := M.place .bwr } := by
  have hstatus : ¬(M.read UART0_FR x.dev).1 &&& 16#32 = 0#32 := fun h => (t.status _).mp h hempty
  have hplace : UART0_BASE + 24#32 = UART0_FR := rfl
  exact hp.goes hpc fun flags => by simp [State.load, hr3, hplace, t.device_status, hstatus]

/-- A look at a queue with a byte in it, and what follows. -/
theorem bwr_read (hpc : x.pc = M.place .bwr) (hr3 : x.regs.r3 = UART0_BASE)
    (hready : ¬t.empty (M.read UART0_FR x.dev).2) {r3 r4 : Word} (hstack : x.mem.words x.regs.sp 2 = [r3, r4]) :
    M.Goes x
      { x with
        regs := { x.regs with
          r0 := (M.read UART0_BASE (M.read UART0_FR x.dev).2).1 &&& 0xFF, r3 := r3, r4 := r4, sp := x.regs.sp + 8 }
        dev := (M.read UART0_BASE (M.read UART0_FR x.dev).2).2
        pc := x.regs.lr } := by
  have hstatus : (M.read UART0_FR x.dev).1 &&& 16#32 = 0#32 := (t.status _).mpr hready
  have hplace : UART0_BASE + 24#32 = UART0_FR := rfl
  exact hp.goes hpc fun flags => by
    simp [State.load, hr3, hplace, t.device_status, t.device_data, hstatus, hstack]

/-- The wait ends before a look at the status that shows a byte. -/
theorem bwr_wait (hpc : x.pc = M.place .bwr) (hr3 : x.regs.r3 = UART0_BASE) (hunread : t.unread x.dev ≠ []) :
    ∃ r4 dev, M.Goes x { x with regs := { x.regs with r4 := r4 }, dev := dev } ∧ t.unread dev = t.unread x.dev ∧
      ¬t.empty (M.read UART0_FR dev).2 := by
  obtain ⟨k, hk⟩ := t.arrives x.dev hunread
  induction k generalizing x with
  | zero => exact ⟨x.regs.r4, x.dev, .refl, rfl, hk⟩
  | succ k ih =>
      by_cases hempty : t.empty (M.read UART0_FR x.dev).2
      · have hturn := bwr_empty hp t hpc hr3 hempty
        generalize hy : Point.mk _ _ _ _ = y at hturn
        have hsame : t.unread y.dev = t.unread x.dev := by
          rw [← hy]
          exact t.unread_status x.dev
        rw [Function.iterate_succ_apply] at hk
        obtain ⟨r4, dev, hwait, hrest, hready⟩ := ih (x := y) (by rw [← hy]) (by rw [← hy]; exact hr3)
          (by rwa [hsame]) (by rw [← hy]; exact hk)
        refine ⟨r4, dev, ?_, hrest.trans hsame, hready⟩
        have hrun := hturn.trans hwait
        simpa [← hy, hpc] using hrun
      · exact ⟨x.regs.r4, x.dev, .refl, rfl, hempty⟩

/-- **`uart_read_byte`** waits for a byte and takes it. -/
theorem uart_read_byte_spec {b : Byte} {bs : List Byte} (hpc : x.pc = M.place .uart_read_byte)
    (hunread : t.unread x.dev = b :: bs) :
    ∃ dev, M.Returns 8 x { x.regs with r0 := b.setWidth 32 } x.mem dev ∧ t.unread dev = bs := by
  have hentry := uart_read_byte_entry hp hpc
  generalize hy : Point.mk _ _ _ _ = y at hentry
  have hsome : t.unread y.dev ≠ [] := by simp [← hy, hunread]
  obtain ⟨r4, dev, hwait, hrest, hready⟩ := bwr_wait hp t (x := y) (by rw [← hy]) (by rw [← hy]) hsome
  generalize hz : Point.mk _ _ _ dev = z at hwait
  have hstack : z.mem.words z.regs.sp 2 = [x.regs.r3, x.regs.r4] := by
    rw [← hz, ← hy]
    exact Ram.words_putWords _ [x.regs.r3, x.regs.r4] x.mem (by simp)
  have hdata : b = (M.read UART0_BASE (M.read UART0_FR dev).2).1.setWidth 8 ∧
      bs = t.unread (M.read UART0_BASE (M.read UART0_FR dev).2).2 := by
    have hnext := t.data _ hready
    rw [t.unread_status, hrest, ← hy, hunread] at hnext
    exact List.cons.inj hnext
  have hread := bwr_read hp t (x := z) (by rw [← hz, ← hy]) (by rw [← hz, ← hy]) (by rw [← hz]; exact hready) hstack
  refine ⟨_, ⟨z.mem, ?_, fun a ha => ?_⟩, hdata.2.symm⟩
  · have hrun := (hentry.trans hwait).trans hread
    rw [and_mask] at hrun
    simpa [← hz, ← hy, hdata.1, BitVec.sub_add_cancel] using hrun
  · rw [← hz, ← hy]
    exact pushed_outside 8 rfl rfl (by decide) ha

/-! ## `uart_purge` -/

omit hp

section
include hp

/-- To the first byte. -/
theorem uart_read_hex_entry (hpc : x.pc = M.place .uart_read_hex) :
    M.Goes x
      { x with
        mem := x.mem.putWords (x.regs.sp - 8) [x.regs.r8, x.regs.lr]
        regs := { x.regs with r8 := x.regs.sp - 12, sp := x.regs.sp - 12, lr := M.behind .uart_read_hex 4 }
        pc := M.place .uart_read_byte } := by
  have hsp : x.regs.sp - 8#32 - 4#32 = x.regs.sp - 12#32 := by bv_omega
  exact hp.goes hpc fun flags => by simp [hsp]

theorem uart_read_hex_second (hpc : x.pc = M.behind .uart_read_hex 4) :
    M.Goes x
      { x with
        mem := x.mem.put x.regs.r8 [x.regs.r0.setWidth 8]
        regs := { x.regs with r8 := x.regs.r8 + 1, lr := M.behind .uart_read_hex 7 }
        pc := M.place .uart_read_byte } :=
  hp.goes_behind 4 hpc fun flags => by simp

theorem uart_read_hex_third (hpc : x.pc = M.behind .uart_read_hex 7) :
    M.Goes x
      { x with
        mem := x.mem.put x.regs.r8 [x.regs.r0.setWidth 8]
        regs := { x.regs with r0 := x.regs.r8 - 1, lr := M.behind .uart_read_hex 10 }
        pc := M.place .hex2byte } :=
  hp.goes_behind 7 hpc fun flags => by simp

theorem uart_read_hex_exit (hpc : x.pc = M.behind .uart_read_hex 10) {r8 lr : Word}
    (hstack : x.mem.words (x.regs.sp + 4) 2 = [r8, lr]) :
    M.Goes x { x with regs := { x.regs with r8 := r8, sp := x.regs.sp + 12, lr := lr }, pc := lr } := by
  have hsp : x.regs.sp + 4#32 + 8#32 = x.regs.sp + 12#32 := by bv_omega
  have hwords : x.mem.words (x.regs.sp + 4#32) 2 = [r8, lr] := hstack
  exact hp.goes_behind 10 hpc fun flags => by simp [hwords, hsp]

end

/-- **`uart_read_hex` reads a byte that is sent as two digits**, however slowly they come. -/
theorem uart_read_hex_reads (hp : program.Placed M) (t : Receiver M) {b : Byte} {bs : List Byte}
    (hpc : x.pc = M.place .uart_read_hex) (hunread : t.unread x.dev = hexByte (b.setWidth 32) ++ bs) :
    ∃ dev, M.Returns 28 x { x.regs with r0 := b.setWidth 32 } x.mem dev ∧ t.unread dev = bs := by
  have hentry := uart_read_hex_entry hp hpc
  generalize hy : Point.mk _ _ _ _ = y at hentry
  have hyunread : t.unread y.dev = hexDigit (b.setWidth 32 >>> 4) :: hexDigit (b.setWidth 32 &&& 15) :: bs := by
    rw [← hy]
    exact hunread
  obtain ⟨dev1, ⟨mem1, hread1, hmem1⟩, hrest1⟩ := uart_read_byte_spec hp t (x := y) (by rw [← hy]) hyunread
  generalize hz : Point.mk _ _ mem1 dev1 = z at hread1
  have hsecond := uart_read_hex_second hp (x := z) (by rw [← hz, ← hy])
  generalize hv : Point.mk _ _ _ _ = v at hsecond
  obtain ⟨dev2, ⟨mem2, hread2, hmem2⟩, hrest2⟩ := uart_read_byte_spec hp t (x := v) (by rw [← hv])
    (by rw [← hv, ← hz]; exact hrest1)
  generalize hw : Point.mk _ _ mem2 dev2 = w at hread2
  have hthird := uart_read_hex_third hp (x := w) (by rw [← hw, ← hv])
  generalize hu : Point.mk _ _ _ _ = u at hthird
  have hback : x.regs.sp - 12 + 1 - 1 = x.regs.sp - 12 := BitVec.add_sub_cancel _ _
  have hur0 : u.regs.r0 = x.regs.sp - 12 := by
    rw [← hu, ← hw, ← hv, ← hz, ← hy]
    exact hback
  have husp : u.regs.sp = x.regs.sp - 12 := by rw [← hu, ← hw, ← hv, ← hz, ← hy]
  have hbyte : ∀ ch : Byte, (ch.setWidth 32).setWidth 8 = ch := fun ch => by bv_omega
  have hmemu : u.mem = mem2.put (x.regs.sp - 12 + 1) [hexDigit (b.setWidth 32 &&& 15)] := by
    simp only [← hu, ← hw, ← hv, ← hz, ← hy, hbyte]
  have hmem1 : ∀ a, ¬Below 8 (x.regs.sp - 12) a → mem1 a = x.mem.putWords (x.regs.sp - 8) [x.regs.r8, x.regs.lr] a := by
    rw [← hy] at hmem1
    exact hmem1
  have hmem2 : ∀ a, ¬Below 8 (x.regs.sp - 12) a →
      mem2 a = mem1.put (x.regs.sp - 12) [hexDigit (b.setWidth 32 >>> 4)] a := by
    simpa only [← hv, ← hz, ← hy, hbyte] using hmem2
  have hclear : ∀ a, Inside (x.regs.sp - 12) 12 a → ¬Below 16 (x.regs.sp - 12) a := by
    intro a ha
    unfold Inside Below at *
    bv_omega
  have hfirst : u.mem (x.regs.sp - 12) = hexDigit (b.setWidth 32 >>> 4) := by
    rw [hmemu, Ram.put_ne (by bv_omega), hmem2 _ fun h => hclear _ (by simp [Inside]) (h.mono (by decide)), Ram.put_self]
  have hlast : u.mem (x.regs.sp - 12 + 1) = hexDigit (b.setWidth 32 &&& 15) := by rw [hmemu, Ram.put_self]
  have hother : ∀ a, ¬Below 8 (x.regs.sp - 12) a → a ≠ x.regs.sp - 12 → a ≠ x.regs.sp - 12 + 1 →
      u.mem a = x.mem.putWords (x.regs.sp - 8) [x.regs.r8, x.regs.lr] a := by
    intro a ha hne hne'
    rw [hmemu, Ram.put_ne hne', hmem2 a ha, Ram.put_ne hne, hmem1 a ha]
  obtain ⟨mem3, hread3, hmem3⟩ := hex2byte_spec hp (x := u) (by rw [← hu])
    (by rw [hur0, husp]; exact fun a ha => hclear a (ha.trans (by decide)))
  rw [hur0, hfirst, hlast] at hread3
  rw [husp] at hmem3
  have hvalue := hexValue_hexByte (b := b.setWidth 32) (by bv_omega)
  rw [hexValue] at hvalue
  rw [hvalue] at hread3
  generalize hs : Point.mk _ _ mem3 _ = s at hread3
  have hlater : s.mem = mem3 := by rw [← hs]
  have hstack : s.mem.words (s.regs.sp + 4) 2 = [x.regs.r8, x.regs.lr] := by
    have hsp : s.regs.sp + 4 = x.regs.sp - 8 := by
      rw [← hs, husp]
      bv_omega
    have hkept : ∀ a, Inside (x.regs.sp - 8) 8 a →
        s.mem a = x.mem.putWords (x.regs.sp - 8) [x.regs.r8, x.regs.lr] a := by
      intro a ha
      have hin : Inside (x.regs.sp - 12) 12 a := by
        unfold Inside at *
        bv_omega
      have hne : a ≠ x.regs.sp - 12 ∧ a ≠ x.regs.sp - 12 + 1 := by
        unfold Inside at ha
        constructor <;> bv_omega
      rw [hlater, hmem3 a (hclear a hin), hother a (fun h => hclear a hin (h.mono (by decide))) hne.1 hne.2]
    rw [hsp]
    exact words_pushed 8 rfl rfl (by decide) hkept
  have hexit := uart_read_hex_exit hp (x := s) (by rw [← hs, ← hu]) hstack
  refine ⟨dev2, ⟨s.mem, ?_, fun a ha => ?_⟩, hrest2⟩
  · have hrun := (((((hentry.trans hread1).trans hsecond).trans hread2).trans hthird).trans hread3).trans hexit
    simpa [← hs, ← hu, ← hw, ← hv, ← hz, ← hy, BitVec.sub_add_cancel] using hrun
  · have hout : a ≠ x.regs.sp - 12 ∧ a ≠ x.regs.sp - 12 + 1 := by
      unfold Below at ha
      constructor <;> bv_omega
    have hlow : ¬Below 16 (x.regs.sp - 12) a := fun h => ha (h.of_sub (by decide))
    rw [hlater, hmem3 a hlow, hother a (fun h => hlow (h.mono (by decide))) hout.1 hout.2]
    exact pushed_outside 8 rfl rfl (by decide) fun h => ha (h.mono (by decide))

/-! ## A slow line -/

/-- A line whose next byte arrives when the status was looked at often enough. -/
structure Line where
  wait : ℕ
  unread : List Byte

/-- A machine with such a line. -/
def lagging : Machine Label Line :=
  program.link labels (fun a => a = UART0_BASE || a = UART0_FR)
    (fun a l =>
      if a = UART0_FR then (if 1 < l.wait ∨ l.unread = [] then 0x10 else 0, { l with wait := l.wait - 1 })
      else ((l.unread.headD 0).setWidth 32, ⟨3, l.unread.tail⟩))
    (fun _ _ l => l) Ram.word

theorem lagging_status (l : Line) :
    lagging.read UART0_FR l = (if 1 < l.wait ∨ l.unread = [] then 0x10 else 0, { l with wait := l.wait - 1 }) := rfl

def lagging_receiver : Receiver lagging where
  unread := Line.unread
  empty l := l.wait ≠ 0 ∨ l.unread = []
  device_status := rfl
  device_data := rfl
  status l := by
    rw [lagging_status]
    by_cases hempty : l.unread = []
    · simp [hempty]
    · by_cases hwait : 1 < l.wait
      · have hmore : l.wait - 1 ≠ 0 := by omega
        simp [hwait, hmore]
      · have hnone : l.wait - 1 = 0 := by omega
        simp [hempty, hwait, hnone]
  unread_status _ := rfl
  data l hready := by
    have hsome : l.unread ≠ [] := fun h => hready (.inr h)
    change l.unread = ((l.unread.headD 0).setWidth 32).setWidth 8 :: l.unread.tail
    cases hunread : l.unread with
    | nil => exact absurd hunread hsome
    | cons b bs =>
        have hbyte : (b.setWidth 32).setWidth 8 = b := by bv_omega
        simp [hbyte]
  arrives l hsome := by
    have hlater : ∀ k (l : Line), (fun l => (lagging.read UART0_FR l).2)^[k] l = { l with wait := l.wait - k } := by
      intro k
      induction k with
      | zero => exact fun _ => rfl
      | succ k ih =>
          intro l
          rw [Function.iterate_succ_apply, ih, lagging_status]
          simp [Nat.sub_sub, Nat.add_comm]
    refine ⟨l.wait, ?_⟩
    rw [hlater]
    simpa using hsome

/-- Two digits, with another byte behind them. -/
theorem uart_read_hex_reads_digits :
    let regs : Regs := { (default : Regs) with sp := 0x8000000 }
    ∃ dev, lagging.Returns 28 ⟨lagging.place .uart_read_hex, regs, fun _ => 0, ⟨5, [0x37, 0x45, 0x0A]⟩⟩
      { regs with r0 := 0x7E } (fun _ => 0) dev ∧ dev.unread = [0x0A] := by
  intro regs
  have hunread : lagging_receiver.unread ⟨5, [0x37, 0x45, 0x0A]⟩ = hexByte ((0x7E : Byte).setWidth 32) ++ [0x0A] := rfl
  exact uart_read_hex_reads (placed_link _ _ _ _) lagging_receiver
    (x := ⟨lagging.place .uart_read_hex, regs, fun _ => 0, ⟨5, [0x37, 0x45, 0x0A]⟩⟩) rfl hunread

end Pigfx.Asm
