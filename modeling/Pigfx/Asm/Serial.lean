import Pigfx.Asm.Hex

/-!
# The serial port

`uart_write` waits for room before each byte, and takes its bytes out of whole words.  What the
routines rely on is a structure: the state of the port may change with every look at its
status, but not between the look and the next access.

## Main definitions

* `Transmitter` — the port, for what is sent.
* `uart_write_sends`, `uart_write_str_sends` — the main results.
-/

namespace Pigfx.Asm
open Lib Lib.Arm Reg

/-- `UART0_BASE` -/
def UART0_BASE : Word := 0x20201000

/-- `UART0_FR` -/
def UART0_FR : Word := 0x20201018

variable {σ : Type}

/-- The port, for what is sent. -/
structure Transmitter (M : Machine Label σ) where
  /-- the bytes that were taken -/
  sent : σ → List Byte
  /-- there is no room in the queue -/
  full : σ → Prop
  device_status : M.device UART0_FR = true
  device_data : M.device UART0_BASE = true
  status : ∀ d, (M.read UART0_FR d).1 &&& 0x20 = 0 ↔ ¬full (M.read UART0_FR d).2
  sent_status : ∀ d, sent (M.read UART0_FR d).2 = sent d
  sent_data : ∀ d w, ¬full d → sent (M.write UART0_BASE w d) = sent d ++ [w.setWidth 8]
  /-- the queue becomes shorter -/
  drains : ∀ d, ∃ k, ¬full ((fun d => (M.read UART0_FR d).2)^[k + 1] d)

theorem masked_first (w : Word) : (w &&& 0xFF).setWidth 8 = byteOf 0 w := by
  have hmask := masked_byte w 0
  rw [Nat.mul_zero, BitVec.ushiftRight_zero] at hmask
  rw [hmask]
  bv_omega

variable {M : Machine Label σ} (hp : program.Placed M) {x : Point σ}
include hp

/-! ## `uart_write` -/

theorem uart_write_entry (hpc : x.pc = M.place .uart_write) :
    M.Goes x
      { x with
        mem := x.mem.putWords (x.regs.sp - 20) [x.regs.r2, x.regs.r3, x.regs.r4, x.regs.r5, x.regs.r6]
        regs := { x.regs with r3 := UART0_BASE, r4 := UART0_FR, r6 := 4, sp := x.regs.sp - 20 }
        pc := M.place .write_loop } := by
  rw [hp.next .uart_write _ rfl]
  exact hp.goes hpc fun flags => by simp [UART0_BASE, UART0_FR]

/-- Nothing is left, -/
theorem write_loop_done (hpc : x.pc = M.place .write_loop) (hr1 : x.regs.r1 = 0) :
    M.Goes x { x with pc := M.place .write_done } :=
  hp.goes hpc fun flags => by simp [hr1]

/-- or something is. -/
theorem write_loop_more (hpc : x.pc = M.place .write_loop) (hr1 : x.regs.r1 ≠ 0) :
    M.Goes x { x with pc := M.place .bw } := by
  rw [hp.next .write_loop _ rfl]
  exact hp.goes hpc fun flags => by simp [show ¬x.regs.r1 = 0#32 from hr1]

theorem bw_busy (t : Transmitter M) (hpc : x.pc = M.place .bw) (hr4 : x.regs.r4 = UART0_FR)
    (hfull : t.full (M.read UART0_FR x.dev).2) :
    M.Goes x
      { x with
        regs := { x.regs with r5 := (M.read UART0_FR x.dev).1 }
        dev := (M.read UART0_FR x.dev).2
        pc := M.place .bw } := by
  have hstatus : ¬(M.read UART0_FR x.dev).1 &&& 32#32 = 0#32 := fun h => (t.status _).mp h hfull
  exact hp.goes hpc fun flags => by simp [State.load, hr4, t.device_status, hstatus]

/-- There is room, and bytes are left of the last word, -/
theorem bw_go (t : Transmitter M) (hpc : x.pc = M.place .bw) (hr4 : x.regs.r4 = UART0_FR)
    (hroom : ¬t.full (M.read UART0_FR x.dev).2) (hr6 : x.regs.r6 ≠ 4) :
    M.Goes x
      { x with
        regs := { x.regs with r5 := (M.read UART0_FR x.dev).1 }
        dev := (M.read UART0_FR x.dev).2
        pc := M.place .shift_and_send } := by
  have hstatus : (M.read UART0_FR x.dev).1 &&& 32#32 = 0#32 := (t.status _).mpr hroom
  have hword : ¬x.regs.r6 = 4#32 := hr6
  exact hp.goes hpc fun flags => by simp [State.load, hr4, t.device_status, hstatus, hword]

/-- The word that is loaded from memory. -/
def loaded (M : Machine Label σ) (mem : Ram) (a : Word) : Word := if a &&& 3 = 0 then mem.word a else M.unaligned a mem

/-- or the next word is loaded. -/
theorem bw_load (t : Transmitter M) (hpc : x.pc = M.place .bw) (hr4 : x.regs.r4 = UART0_FR)
    (hroom : ¬t.full (M.read UART0_FR x.dev).2) (hr6 : x.regs.r6 = 4) (hmem : M.device x.regs.r0 = false) :
    M.Goes x
      { x with
        regs := { x.regs with
          r0 := x.regs.r0 + 4, r2 := loaded M x.mem x.regs.r0, r5 := (M.read UART0_FR x.dev).1, r6 := 0 }
        dev := (M.read UART0_FR x.dev).2
        pc := M.place .shift_and_send } := by
  have hstatus : (M.read UART0_FR x.dev).1 &&& 32#32 = 0#32 := (t.status _).mpr hroom
  rw [hp.next .bw _ rfl]
  refine hp.goes hpc fun flags => ?_
  by_cases haligned : x.regs.r0 &&& 3#32 = 0#32
  · simp [State.load, loaded, hr4, t.device_status, hstatus, hr6, hmem, haligned]
  · simp [State.load, loaded, hr4, t.device_status, hstatus, hr6, hmem, haligned]

theorem shift_and_send (t : Transmitter M) (hpc : x.pc = M.place .shift_and_send) (hr3 : x.regs.r3 = UART0_BASE) :
    M.Goes x
      { x with
        regs := { x.regs with
          r1 := x.regs.r1 - 1, r2 := x.regs.r2 >>> 8, r5 := x.regs.r2 &&& 0xFF, r6 := x.regs.r6 + 1 }
        dev := M.write UART0_BASE (x.regs.r2 &&& 0xFF) x.dev
        pc := M.place .write_loop } :=
  hp.goes hpc fun flags => by simp [State.store, hr3, t.device_data]

theorem write_done_exit (hpc : x.pc = M.place .write_done) {r2 r3 r4 r5 r6 : Word}
    (hstack : x.mem.words x.regs.sp 5 = [r2, r3, r4, r5, r6]) :
    M.Goes x
      { x with
        regs := { x.regs with r2 := r2, r3 := r3, r4 := r4, r5 := r5, r6 := r6, sp := x.regs.sp + 20 }
        pc := x.regs.lr } :=
  hp.goes hpc fun flags => by simp [hstack]

/-- The wait ends before a look at the status that shows room. -/
theorem bw_wait (t : Transmitter M) (hpc : x.pc = M.place .bw) (hr4 : x.regs.r4 = UART0_FR) :
    ∃ r5 dev, M.Goes x { x with regs := { x.regs with r5 := r5 }, dev := dev } ∧ t.sent dev = t.sent x.dev ∧
      ¬t.full (M.read UART0_FR dev).2 := by
  obtain ⟨k, hk⟩ := t.drains x.dev
  induction k generalizing x with
  | zero => exact ⟨x.regs.r5, x.dev, .refl, rfl, hk⟩
  | succ k ih =>
      by_cases hfull : t.full (M.read UART0_FR x.dev).2
      · have hturn := bw_busy hp t hpc hr4 hfull
        generalize hy : Point.mk _ _ _ _ = y at hturn
        rw [Function.iterate_succ_apply] at hk
        obtain ⟨r5, dev, hwait, hsent, hroom⟩ := ih (x := y) (by rw [← hy]) (by rw [← hy]; exact hr4)
          (by rw [← hy]; exact hk)
        refine ⟨r5, dev, ?_, ?_, hroom⟩
        · have hrun := hturn.trans hwait
          simpa [← hy, hpc] using hrun
        · rw [hsent, ← hy]
          exact t.sent_status x.dev
      · exact ⟨x.regs.r5, x.dev, .refl, rfl, hfull⟩

/-- Something is left, and there is room for it. -/
theorem write_loop_ready (t : Transmitter M) (hpc : x.pc = M.place .write_loop) (hr1 : x.regs.r1 ≠ 0)
    (hr4 : x.regs.r4 = UART0_FR) :
    ∃ r5 dev, M.Goes x { x with regs := { x.regs with r5 := r5 }, dev := dev, pc := M.place .bw } ∧
      t.sent (M.read UART0_FR dev).2 = t.sent x.dev ∧ ¬t.full (M.read UART0_FR dev).2 := by
  have hmore := write_loop_more hp hpc hr1
  generalize hy : Point.mk _ _ _ _ = y at hmore
  obtain ⟨r5, dev, hwait, hsent, hroom⟩ := bw_wait hp t (x := y) (by rw [← hy]) (by rw [← hy]; exact hr4)
  refine ⟨r5, dev, ?_, ?_, hroom⟩
  · have hrun := hmore.trans hwait
    simpa [← hy] using hrun
  · rw [t.sent_status, hsent, ← hy]

/-- A turn with a new word. -/
theorem write_loop_word (t : Transmitter M) (hpc : x.pc = M.place .write_loop) (hr1 : x.regs.r1 ≠ 0)
    (hr3 : x.regs.r3 = UART0_BASE) (hr4 : x.regs.r4 = UART0_FR) (hr6 : x.regs.r6 = 4)
    (hmem : M.device x.regs.r0 = false) :
    ∃ r5 dev, t.sent dev = t.sent x.dev ++ [byteOf 0 (loaded M x.mem x.regs.r0)] ∧ M.Goes x
      { x with
        regs := { x.regs with
          r0 := x.regs.r0 + 4, r1 := x.regs.r1 - 1, r2 := loaded M x.mem x.regs.r0 >>> 8, r5 := r5, r6 := 1 }
        dev := dev
        pc := M.place .write_loop } := by
  obtain ⟨r5, dev, hready, hsent, hroom⟩ := write_loop_ready hp t hpc hr1 hr4
  generalize hy : Point.mk _ _ _ dev = y at hready
  have hload := bw_load hp t (x := y) (by rw [← hy]) (by rw [← hy]; exact hr4) (by rw [← hy]; exact hroom)
    (by rw [← hy]; exact hr6) (by rw [← hy]; exact hmem)
  generalize hz : Point.mk _ _ _ _ = z at hload
  have hsend := shift_and_send hp t (x := z) (by rw [← hz]) (by rw [← hz, ← hy]; exact hr3)
  refine ⟨z.regs.r2 &&& 0xFF, M.write UART0_BASE (z.regs.r2 &&& 0xFF) z.dev, ?_, ?_⟩
  · rw [← hz, ← hy, t.sent_data _ _ hroom, hsent, masked_first]
  · have hrun := (hready.trans hload).trans hsend
    simpa [← hz, ← hy] using hrun

/-- A turn with the word that is there. -/
theorem write_loop_byte (t : Transmitter M) (hpc : x.pc = M.place .write_loop) (hr1 : x.regs.r1 ≠ 0)
    (hr3 : x.regs.r3 = UART0_BASE) (hr4 : x.regs.r4 = UART0_FR) (hr6 : x.regs.r6 ≠ 4) :
    ∃ r5 dev, t.sent dev = t.sent x.dev ++ [byteOf 0 x.regs.r2] ∧ M.Goes x
      { x with
        regs := { x.regs with r1 := x.regs.r1 - 1, r2 := x.regs.r2 >>> 8, r5 := r5, r6 := x.regs.r6 + 1 }
        dev := dev
        pc := M.place .write_loop } := by
  obtain ⟨r5, dev, hready, hsent, hroom⟩ := write_loop_ready hp t hpc hr1 hr4
  generalize hy : Point.mk _ _ _ dev = y at hready
  have hgo := bw_go hp t (x := y) (by rw [← hy]) (by rw [← hy]; exact hr4) (by rw [← hy]; exact hroom)
    (by rw [← hy]; exact hr6)
  generalize hz : Point.mk _ _ _ _ = z at hgo
  have hsend := shift_and_send hp t (x := z) (by rw [← hz]) (by rw [← hz, ← hy]; exact hr3)
  refine ⟨z.regs.r2 &&& 0xFF, M.write UART0_BASE (z.regs.r2 &&& 0xFF) z.dev, ?_, ?_⟩
  · rw [← hz, ← hy, t.sent_data _ _ hroom, hsent, masked_first]
  · have hrun := (hready.trans hgo).trans hsend
    simpa [← hz, ← hy] using hrun

/-- What is sent: `c` bytes are left of `w`, and the next word is at `a`. -/
def outgoing (M : Machine Label σ) (mem : Ram) : ℕ → ℕ → Word → Word → List Byte
  | 0, _, _, _ => []
  | n + 1, 0, _, a => byteOf 0 (loaded M mem a) :: outgoing M mem n 3 (loaded M mem a >>> 8) (a + 4)
  | n + 1, c + 1, w, a => byteOf 0 w :: outgoing M mem n c (w >>> 8) a

/-- The loop sends what is left. -/
theorem write_loop_run (t : Transmitter M) {n c : ℕ} (hn : n < 2 ^ 32) (hc : c ≤ 4) (hpc : x.pc = M.place .write_loop)
    (hr1 : x.regs.r1 = BitVec.ofNat 32 n) (hr3 : x.regs.r3 = UART0_BASE) (hr4 : x.regs.r4 = UART0_FR)
    (hr6 : x.regs.r6 = BitVec.ofNat 32 (4 - c)) (hmem : ∀ k < n - c, M.device (x.regs.r0 + BitVec.ofNat 32 k) = false) :
    ∃ r0 r2 r5 r6 dev, t.sent dev = t.sent x.dev ++ outgoing M x.mem n c x.regs.r2 x.regs.r0 ∧ M.Goes x
      { x with
        regs := { x.regs with r0 := r0, r1 := 0, r2 := r2, r5 := r5, r6 := r6 }
        dev := dev
        pc := M.place .write_done } := by
  induction n generalizing c x with
  | zero =>
      refine ⟨x.regs.r0, x.regs.r2, x.regs.r5, x.regs.r6, x.dev, by simp [outgoing], ?_⟩
      have hzero : (0 : Word) = x.regs.r1 := hr1.symm
      rw [hzero]
      exact write_loop_done hp hpc hr1
  | succ n ih =>
      have hmore : x.regs.r1 ≠ 0 := by
        rw [hr1]
        bv_omega
      have hless : x.regs.r1 - 1 = BitVec.ofNat 32 n := by
        rw [hr1]
        bv_omega
      cases c with
      | zero =>
          obtain ⟨r5, dev, hsent, hturn⟩ := write_loop_word hp t hpc hmore hr3 hr4 hr6 (by simpa using hmem 0 (by omega))
          generalize hy : Point.mk _ _ _ dev = y at hturn
          have hnext : ∀ k < n - 3, M.device (y.regs.r0 + BitVec.ofNat 32 k) = false := by
            intro k hk
            have hlater : x.regs.r0 + 4 + BitVec.ofNat 32 k = x.regs.r0 + BitVec.ofNat 32 (k + 4) := by bv_omega
            rw [← hy]
            exact hlater ▸ hmem (k + 4) (by omega)
          obtain ⟨r0, r2, r5', r6, dev', hsent', hrun⟩ := ih (x := y) (by omega) (by omega) (by rw [← hy])
            (by rw [← hy]; exact hless) (by rw [← hy]; exact hr3) (by rw [← hy]; exact hr4) (by rw [← hy]; rfl) hnext
          refine ⟨r0, r2, r5', r6, dev', ?_, ?_⟩
          · rw [hsent', ← hy, hsent, outgoing, List.append_assoc]
            rfl
          · simpa [← hy] using hturn.trans hrun
      | succ c =>
          obtain ⟨r5, dev, hsent, hturn⟩ := write_loop_byte hp t hpc hmore hr3 hr4 (by rw [hr6]; bv_omega)
          generalize hy : Point.mk _ _ _ dev = y at hturn
          have hr6' : x.regs.r6 + 1 = BitVec.ofNat 32 (4 - c) := by
            rw [hr6]
            bv_omega
          have hnext : ∀ k < n - c, M.device (y.regs.r0 + BitVec.ofNat 32 k) = false := by
            intro k hk
            rw [← hy]
            exact hmem k (by omega)
          obtain ⟨r0, r2, r5', r6, dev', hsent', hrun⟩ := ih (x := y) (by omega) (by omega) (by rw [← hy])
            (by rw [← hy]; exact hless) (by rw [← hy]; exact hr3) (by rw [← hy]; exact hr4)
            (by rw [← hy]; exact hr6') hnext
          refine ⟨r0, r2, r5', r6, dev', ?_, ?_⟩
          · rw [hsent', ← hy, hsent, outgoing, List.append_assoc]
            rfl
          · simpa [← hy] using hturn.trans hrun

/-! ## Bytes out of words -/

omit hp

theorem byteOf_shift (k : ℕ) (w : Word) : byteOf k (w >>> 8) = byteOf (k + 1) w := by
  refine BitVec.eq_of_toNat_eq ?_
  rw [toNat_byteOf, toNat_byteOf, BitVec.toNat_ushiftRight, Nat.shiftRight_eq_div_pow, Nat.div_div_eq_div_mul, ← Nat.pow_add,
    Nat.mul_succ, Nat.add_comm]

theorem aligned_next (a : Word) : (a + 4) &&& 3 = a &&& 3 := by
  have hmask : ∀ b : Word, (b &&& 3).toNat = b.toNat % 4 := fun b => Nat.and_two_pow_sub_one_eq_mod _ 2
  refine BitVec.eq_of_toNat_eq ?_
  rw [hmask, hmask]
  bv_omega

/-- The words are whole: they are aligned, or the processor does not mind. -/
def Whole (M : Machine Label σ) (a : Word) : Prop := a &&& 3 = 0 ∨ ∀ a mem, M.unaligned a mem = mem.word a

theorem Whole.next {a : Word} (h : Whole M a) : Whole M (a + 4) := h.imp_left ((aligned_next a).trans ·)

theorem Whole.loaded {a : Word} (h : Whole M a) (mem : Ram) : loaded M mem a = mem.word a := by
  rcases h with h | h
  · exact if_pos h
  · rw [Asm.loaded, h, ite_self]

/-- Bytes that are in memory are sent in their order. -/
theorem outgoing_bytes {mem : Ram} {bs : List Byte} {c : ℕ} {w a : Word} (hwhole : Whole M a)
    (hword : ∀ k ch, k < c → bs[k]? = some ch → byteOf k w = ch)
    (hmem : ∀ k ch, bs[c + k]? = some ch → mem (a + BitVec.ofNat 32 k) = ch) :
    outgoing M mem bs.length c w a = bs := by
  induction bs generalizing c w a with
  | nil => rfl
  | cons b bs ih =>
      cases c with
      | zero =>
          have hbyte : ∀ k < 4, byteOf k (loaded M mem a) = mem (a + BitVec.ofNat 32 k) := by
            intro k hk
            rw [hwhole.loaded, Ram.word, byteOf_wordOf _ k hk]
          have hrest : outgoing M mem bs.length 3 (loaded M mem a >>> 8) (a + 4) = bs := by
            refine ih hwhole.next (fun k ch hk hch => ?_) (fun k ch hch => ?_)
            · rw [byteOf_shift, hbyte _ (by omega)]
              exact hmem (k + 1) ch (by simpa using hch)
            · have hlater : a + 4 + BitVec.ofNat 32 k = a + BitVec.ofNat 32 (3 + k + 1) := by bv_omega
              rw [hlater]
              exact hmem (3 + k + 1) ch (by simpa using hch)
          rw [List.length_cons, outgoing, hrest, hbyte 0 (by decide), hmem 0 b (by simp)]
      | succ c =>
          have hrest : outgoing M mem bs.length c (w >>> 8) a = bs := by
            refine ih hwhole (fun k ch hk hch => ?_) (fun k ch hch => ?_)
            · rw [byteOf_shift]
              exact hword (k + 1) ch (by omega) (by simpa using hch)
            · refine hmem k ch ?_
              rw [Nat.add_right_comm]
              exact hch
          rw [List.length_cons, outgoing, hrest, hword 0 b (by omega) rfl]

/-! ## What is sent -/

/-- The bytes are in memory, where no device is. -/
structure Holds (M : Machine Label σ) (mem : Ram) (a : Word) (bs : List Byte) : Prop where
  bytes : ∀ k ch, bs[k]? = some ch → mem (a + BitVec.ofNat 32 k) = ch
  device : ∀ k < bs.length, M.device (a + BitVec.ofNat 32 k) = false
  length : bs.length < 2 ^ 32

/-- **`uart_write`** sends the bytes, each once and in their order.  It waits as long as it takes. -/
theorem uart_write_spec (hp : program.Placed M) (t : Transmitter M) {bs : List Byte} (hpc : x.pc = M.place .uart_write)
    (hr1 : x.regs.r1 = BitVec.ofNat 32 bs.length) (hbytes : Holds M x.mem x.regs.r0 bs) (hwhole : Whole M x.regs.r0)
    (hclear : ∀ a, Inside x.regs.r0 bs.length a → ¬Below 20 x.regs.sp a) :
    ∃ r0 dev, M.Returns 20 x { x.regs with r0 := r0, r1 := 0 } x.mem dev ∧ t.sent dev = t.sent x.dev ++ bs := by
  have hentry := uart_write_entry hp hpc
  generalize hy : Point.mk _ _ _ _ = y at hentry
  obtain ⟨r0, r2, r5, r6, dev, hsent, hloop⟩ := write_loop_run hp t (x := y) (n := bs.length) (c := 0) hbytes.length
    (by decide) (by rw [← hy]) (by rw [← hy]; exact hr1) (by rw [← hy]) (by rw [← hy]) (by rw [← hy]; rfl)
    (by rw [← hy]; exact hbytes.device)
  generalize hz : Point.mk _ _ _ dev = z at hloop
  have hpushed : ∀ k ch, bs[0 + k]? = some ch → y.mem (x.regs.r0 + BitVec.ofNat 32 k) = ch := by
    intro k ch hch
    rw [Nat.zero_add] at hch
    have hk : k < bs.length := (List.getElem?_eq_some_iff.mp hch).1
    rw [← hbytes.bytes k ch hch, ← hy]
    exact pushed_outside 20 rfl rfl (by decide) (hclear _ (inside_iff.mpr ⟨k, hk, rfl⟩))
  have hall : outgoing M y.mem bs.length 0 y.regs.r2 y.regs.r0 = bs := by
    have hr0 : y.regs.r0 = x.regs.r0 := by rw [← hy]
    rw [hr0]
    exact outgoing_bytes hwhole (fun k ch hk _ => absurd hk (Nat.not_lt_zero k)) hpushed
  have hstack : z.mem.words z.regs.sp 5 = [x.regs.r2, x.regs.r3, x.regs.r4, x.regs.r5, x.regs.r6] := by
    rw [← hz, ← hy]
    exact Ram.words_putWords _ [x.regs.r2, x.regs.r3, x.regs.r4, x.regs.r5, x.regs.r6] x.mem (by simp)
  have hexit := write_done_exit hp (x := z) (by rw [← hz]) hstack
  refine ⟨r0, dev, ⟨z.mem, ?_, fun a ha => ?_⟩, ?_⟩
  · have hrun := (hentry.trans hloop).trans hexit
    simpa [← hz, ← hy, BitVec.sub_add_cancel] using hrun
  · rw [← hz, ← hy]
    exact pushed_outside 20 rfl rfl (by decide) ha
  · rw [hsent, hall, ← hy]

/-! ## `uart_write_str` -/

section
include hp

/-- To the call of `strlen`. -/
theorem uart_write_str_entry (hpc : x.pc = M.place .uart_write_str) :
    M.Goes x
      { x with
        mem := x.mem.putWords (x.regs.sp - 8) [x.regs.r0, x.regs.lr]
        regs := { x.regs with sp := x.regs.sp - 8, lr := M.behind .uart_write_str 2 }
        pc := M.place .strlen } :=
  hp.goes hpc fun _ => rfl

/-- From `strlen` to `uart_write`. -/
theorem uart_write_str_second (hpc : x.pc = M.behind .uart_write_str 2) {r0 : Word}
    (hstack : x.mem.words x.regs.sp 1 = [r0]) :
    M.Goes x
      { x with
        regs := { x.regs with r0 := r0, r1 := x.regs.r0, sp := x.regs.sp + 4, lr := M.behind .uart_write_str 5 }
        pc := M.place .uart_write } :=
  hp.goes_behind 2 hpc fun flags => by simp [hstack]

theorem uart_write_str_exit (hpc : x.pc = M.behind .uart_write_str 5) {lr : Word}
    (hstack : x.mem.words x.regs.sp 1 = [lr]) :
    M.Goes x { x with regs := { x.regs with sp := x.regs.sp + 4, lr := lr }, pc := lr } :=
  hp.goes_behind 5 hpc fun flags => by simp [hstack]

end

/-- **`uart_write_str` sends a string**, without its zero, each byte once and in its order, however
slowly the port takes them; and it leaves memory as it is, except for 24 bytes of the stack. -/
theorem uart_write_str_sends (hp : program.Placed M) (t : Transmitter M) {str : List Byte}
    (hpc : x.pc = M.place .uart_write_str) (hstr : CString x.mem x.regs.r0 str) (hlen : str.length < 2 ^ 32)
    (hdevice : ∀ k < str.length, M.device (x.regs.r0 + BitVec.ofNat 32 k) = false) (hwhole : Whole M x.regs.r0)
    (hclear : ∀ a, Inside x.regs.r0 (str.length + 1) a → ¬Below 24 x.regs.sp a) :
    ∃ r0 dev, M.Returns 24 x { x.regs with r0 := r0, r1 := 0 } x.mem dev ∧ t.sent dev = t.sent x.dev ++ str := by
  have hentry := uart_write_str_entry hp hpc
  have hpushed : CString (x.mem.putWords (x.regs.sp - 8) [x.regs.r0, x.regs.lr]) x.regs.r0 str :=
    hstr.congr (fun a ha => pushed_outside 8 rfl rfl (by decide) fun h => hclear a ha (h.mono (by decide))) hlen
  generalize hy : Point.mk _ _ _ _ = y at hentry
  obtain ⟨mem1, hgo1, hmem1⟩ := strlen_spec hp (x := y) (by rw [← hy]) (by rw [← hy]; exact hpushed)
    (by rw [← hy]; exact fun a ha h => hclear a ha ((h.of_sub (by decide)).mono (by decide))) hlen
  generalize hz : Point.mk _ _ mem1 _ = z at hgo1
  have hkept : ∀ a, ¬Below 8 (x.regs.sp - 8) a → z.mem a = x.mem.putWords (x.regs.sp - 8) [x.regs.r0, x.regs.lr] a := by
    intro a ha
    rw [← hy] at hmem1
    rw [← hz]
    exact hmem1 a ha
  have hstack : z.mem.words z.regs.sp 2 = [x.regs.r0, x.regs.lr] := by
    have hsp : z.regs.sp = x.regs.sp - 8 := by rw [← hz, ← hy]
    rw [hsp]
    exact words_pushed 8 rfl rfl (by decide) fun a ha => hkept a fun h => h.not_inside (by decide) ha
  obtain ⟨hfirst, hlast⟩ : z.mem.word z.regs.sp = x.regs.r0 ∧ z.mem.word (z.regs.sp + 4) = x.regs.lr := by
    simpa [Ram.words] using hstack
  have hstack0 : z.mem.words z.regs.sp 1 = [x.regs.r0] := by simp [Ram.words, hfirst]
  have hsecond := uart_write_str_second hp (x := z) (by rw [← hz, ← hy]) hstack0
  generalize hv : Point.mk _ _ _ _ = v at hsecond
  have hbytes : Holds M v.mem v.regs.r0 str := by
    refine ⟨fun k ch hch => ?_, ?_, hlen⟩
    · have hk : k < str.length := (List.getElem?_eq_some_iff.mp hch).1
      have hout := hclear (x.regs.r0 + BitVec.ofNat 32 k) (inside_iff.mpr ⟨k, by omega, rfl⟩)
      rw [← hv, hkept _ fun h => hout ((h.of_sub (by decide)).mono (by decide))]
      exact (pushed_outside 8 rfl rfl (by decide) fun h => hout (h.mono (by decide))).trans (hstr.bytes k ch hch)
    · rw [← hv]
      exact hdevice
  have hsp : v.regs.sp = x.regs.sp - 4 := by
    rw [← hv, ← hz, ← hy]
    bv_omega
  obtain ⟨r0, dev, ⟨mem2, hgo2, hmem2⟩, hsent⟩ := uart_write_spec hp t (x := v) (by rw [← hv])
    (by rw [← hv, ← hz]) hbytes (by rw [← hv]; exact hwhole) (by
      rw [hsp, ← hv]
      exact fun a ha h => hclear a (ha.trans (Nat.lt_succ_self _)) (h.of_sub (by decide)))
  generalize hw : Point.mk _ _ mem2 _ = w at hgo2
  have hkept2 : ∀ a, ¬Below 20 (x.regs.sp - 4) a → w.mem a = z.mem a := by
    intro a ha
    have hback := hmem2 a (by rwa [hsp])
    rw [← hv] at hback
    rw [← hw]
    exact hback
  have hreturn : w.mem.words w.regs.sp 1 = [x.regs.lr] := by
    have hspw : w.regs.sp = x.regs.sp - 4 := by
      rw [← hw]
      exact hsp
    have hspz : z.regs.sp + 4 = x.regs.sp - 4 := by
      rw [← hsp, ← hv]
    have hsame : w.mem.word (x.regs.sp - 4) = z.mem.word (x.regs.sp - 4) := by
      refine Ram.word_congr fun k hk => hkept2 _ ?_
      unfold Below
      bv_omega
    rw [hspw, Ram.words, hsame, ← hspz, hlast]
    rfl
  have hexit := uart_write_str_exit hp (x := w) (by rw [← hw, ← hv]) hreturn
  refine ⟨r0, dev, ⟨w.mem, ?_, fun a ha => ?_⟩, ?_⟩
  · have hrun := (((hentry.trans hgo1).trans hsecond).trans hgo2).trans hexit
    have hback : x.regs.sp - 8#32 + 4#32 + 4#32 = x.regs.sp := by bv_omega
    simpa [← hw, ← hv, ← hz, ← hy, hback] using hrun
  · have hout := hkept a fun h => ha ((h.of_sub (by decide)).mono (by decide))
    rw [hkept2 a fun h => ha (h.of_sub (by decide)), hout]
    exact pushed_outside 8 rfl rfl (by decide) fun h => ha (h.mono (by decide))
  · rw [hsent, ← hv, ← hz, ← hy]

/-- A port that takes a byte and then has no room until its status was looked at three times. -/
structure Port where
  wait : ℕ
  sent : List Byte

/-- A machine with such a port. -/
def slow : Machine Label Port :=
  program.link labels (fun a => a = UART0_BASE || a = UART0_FR)
    (fun _ p => (if 1 < p.wait then 0x20 else 0, { p with wait := p.wait - 1 }))
    (fun _ w p => if p.wait = 0 then ⟨3, p.sent ++ [w.setWidth 8]⟩ else p) Ram.word

def slow_transmitter : Transmitter slow where
  sent := Port.sent
  full p := p.wait ≠ 0
  device_status := rfl
  device_data := rfl
  status p := by
    change (if 1 < p.wait then (0x20 : Word) else 0) &&& 0x20 = 0 ↔ ¬p.wait - 1 ≠ 0
    split <;> simp <;> omega
  sent_status _ := rfl
  sent_data p w hroom := by
    change (if p.wait = 0 then (⟨3, p.sent ++ [w.setWidth 8]⟩ : Port) else p).sent = _
    rw [if_pos (not_not.mp hroom)]
  drains p := by
    have hwait : ∀ k (p : Port), ((fun p : Port => ({ p with wait := p.wait - 1 } : Port))^[k] p).wait = p.wait - k := by
      intro k
      induction k with
      | zero => simp
      | succ k ih =>
          intro p
          rw [Function.iterate_succ_apply, ih]
          change p.wait - 1 - k = p.wait - (k + 1)
          omega
    exact ⟨p.wait, not_not.mpr ((hwait (p.wait + 1) p).trans (by omega))⟩

/-- Two letters, with no room at first. -/
theorem uart_write_str_sends_letters :
    let regs : Regs := { (default : Regs) with r0 := 0x1000, sp := 0x8000000 }
    let mem : Ram := fun a => if a = 0x1000 then 0x4F else if a = 0x1001 then 0x4B else 0
    ∃ r0 dev, slow.Returns 24 ⟨slow.place .uart_write_str, regs, mem, ⟨3, []⟩⟩ { regs with r0 := r0, r1 := 0 } mem dev ∧
      dev.sent = [0x4F, 0x4B] := by
  intro regs mem
  have hstr : CString mem 0x1000 [0x4F, 0x4B] := ⟨rfl, by decide, rfl, by decide, rfl⟩
  have hclear : ∀ a, Inside 0x1000 3 a → ¬Below 24 0x8000000 a := by
    intro a ha
    unfold Inside Below at *
    bv_omega
  have hdevice : ∀ k < 2, slow.device (0x1000 + BitVec.ofNat 32 k) = false := by
    intro k hk
    interval_cases k <;> rfl
  exact uart_write_str_sends (placed_link _ _ _ _) slow_transmitter
    (x := ⟨slow.place .uart_write_str, regs, mem, ⟨3, []⟩⟩) rfl hstr (by decide) hdevice (.inl (by decide)) hclear

end Pigfx.Asm
