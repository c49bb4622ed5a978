import Pigfx.Asm.Text

/-!
# Pins

`pinMode` changes three bits of a register that it finds by repeated subtraction, and shifts the bits
one pin at a time.  `digitalWrite` writes a single bit.

## Main definitions

* `Gpio` — the registers of the pins.
* `pinMode_sets`, `digitalWrite_drives` — the main results.
-/

namespace Pigfx.Asm
open Lib Lib.Arm Reg

/-- `GPIO_BASE` -/
def GPIO_BASE : Word := 0x20200000

/-- The registers from `GPIO_BASE` on. -/
def gpioRegister (k : ℕ) : Word := GPIO_BASE + BitVec.ofNat 32 (4 * k)

variable {σ : Type}

/-- The pins: six registers for their functions, two that raise pins and two that lower them. -/
structure Gpio (M : Machine Label σ) where
  select : σ → ℕ → Word
  level : σ → ℕ → Bool
  device : ∀ k < 12, M.device (gpioRegister k) = true
  read : ∀ d, ∀ k < 6, (M.read (gpioRegister k) d).1 = select d k
  select_read : ∀ d, ∀ k < 6, select (M.read (gpioRegister k) d).2 = select d
  level_read : ∀ d, ∀ k < 6, level (M.read (gpioRegister k) d).2 = level d
  select_write : ∀ d w, ∀ k < 6, select (M.write (gpioRegister k) w d) = Function.update (select d) k w
  level_write : ∀ d w, ∀ k < 6, level (M.write (gpioRegister k) w d) = level d
  select_drive : ∀ d w, ∀ k, 6 ≤ k → k < 12 → select (M.write (gpioRegister k) w d) = select d
  raise : ∀ d w, ∀ k < 2, ∀ p,
    level (M.write (gpioRegister (7 + k)) w d) p = (level d p || decide (p / 32 = k) && w.getLsbD (p % 32))
  lower : ∀ d w, ∀ k < 2, ∀ p,
    level (M.write (gpioRegister (10 + k)) w d) p = (level d p && !(decide (p / 32 = k) && w.getLsbD (p % 32)))

/-- The function of a pin. -/
def Gpio.function {M : Machine Label σ} (g : Gpio M) (d : σ) (p : ℕ) : Word := g.select d (p / 10) >>> (3 * (p % 10)) &&& 7

/-! ## Three bits of a word -/

theorem getLsbD_seven (i : ℕ) : (7 : Word).getLsbD i = decide (i < 3) := by
  by_cases hi : i < 3
  · interval_cases i <;> rfl
  · have hzero : (7 : Word).toNat.testBit i = false := Nat.testBit_lt_two_pow
      (lt_of_lt_of_le (by decide) (Nat.pow_le_pow_right (by decide) (Nat.not_lt.mp hi)))
    simpa [hi, BitVec.getLsbD] using hzero

theorem getLsbD_of_lt {m : Word} (hm : m < 8) {i : ℕ} (hi : 3 ≤ i) : m.getLsbD i = false :=
  Nat.testBit_lt_two_pow (lt_of_lt_of_le (show m.toNat < 2 ^ 3 from hm) (Nat.pow_le_pow_right (by decide) hi))

/-- The word with `m` in the three bits from `s` on. -/
def withField (v m : Word) (s : ℕ) : Word := (v &&& ~~~((7 : Word) <<< s)) ||| m <<< s

theorem getLsbD_withField (v m : Word) (s : ℕ) {i : ℕ} (hi : i < 32) :
    (withField v m s).getLsbD i =
      (v.getLsbD i && !(decide (s ≤ i) && decide (i - s < 3)) || decide (s ≤ i) && m.getLsbD (i - s)) := by
  simp only [withField, BitVec.getLsbD_and, BitVec.getLsbD_or, BitVec.getLsbD_not, BitVec.getLsbD_shiftLeft, getLsbD_seven, hi]
  by_cases hs : s ≤ i
  · have hlt : ¬i < s := Nat.not_lt.mpr hs
    simp [hs, hlt]
  · have hlt : i < s := Nat.not_le.mp hs
    simp [hs, hlt]

/-- What is put into three bits is read back, -/
theorem field_same {v m : Word} {s : ℕ} (hm : m < 8) (hs : s + 3 ≤ 32) : withField v m s >>> s &&& 7 = m := by
  refine BitVec.eq_of_getLsbD_eq fun i hi => ?_
  rw [BitVec.getLsbD_and, BitVec.getLsbD_ushiftRight, getLsbD_seven]
  by_cases hlow : i < 3
  · rw [getLsbD_withField _ _ _ (by omega), Nat.add_sub_cancel_left]
    simp [hlow]
  · simp [hlow, getLsbD_of_lt hm (Nat.not_lt.mp hlow)]

/-- and the others stay. -/
theorem field_other {v m : Word} {s s' : ℕ} (hm : m < 8) (h : s + 3 ≤ s' ∨ s' + 3 ≤ s) (hs : s' + 3 ≤ 32) :
    withField v m s >>> s' &&& 7 = v >>> s' &&& 7 := by
  refine BitVec.eq_of_getLsbD_eq fun i hi => ?_
  rw [BitVec.getLsbD_and, BitVec.getLsbD_ushiftRight, BitVec.getLsbD_and, BitVec.getLsbD_ushiftRight, getLsbD_seven]
  by_cases hlow : i < 3
  · rw [getLsbD_withField _ _ _ (by omega)]
    by_cases hafter : s ≤ s' + i
    · have hhigh : 3 ≤ s' + i - s := by omega
      simp [hafter, getLsbD_of_lt hm hhigh, Nat.not_lt.mpr hhigh]
    · simp [hafter]
  · simp [hlow]

/-! ## `pinMode` -/

variable {M : Machine Label σ} (hp : program.Placed M) {x : Point σ}

section
include hp

/-- The pin or the function does not exist, -/
theorem pinMode_refuses (hpc : x.pc = M.place .pinMode) (h : 54 ≤ x.regs.r0 ∨ 8 ≤ x.regs.r1) :
    M.Goes x
      { x with
        mem := x.mem.putWords (x.regs.sp - 16) [x.regs.r0, x.regs.r1, x.regs.r2, x.regs.r3]
        regs := { x.regs with r3 := 0, sp := x.regs.sp - 16 }
        pc := M.place .pinModeExit } := by
  refine hp.goes hpc fun flags => ?_
  by_cases h0 : 54#32 ≤ x.regs.r0
  · simp [h0]
  · have h1 : 8#32 ≤ x.regs.r1 := h.resolve_left h0
    simp [h0, h1]

/-- or both do. -/
theorem pinMode_entry (hpc : x.pc = M.place .pinMode) (h0 : ¬54 ≤ x.regs.r0) (h1 : ¬8 ≤ x.regs.r1) :
    M.Goes x
      { x with
        mem := x.mem.putWords (x.regs.sp - 16) [x.regs.r0, x.regs.r1, x.regs.r2, x.regs.r3]
        regs := { x.regs with r2 := 7, r3 := GPIO_BASE, sp := x.regs.sp - 16 }
        pc := M.place .pinLoop } := by
  have h0' : ¬54#32 ≤ x.regs.r0 := h0
  have h1' : ¬8#32 ≤ x.regs.r1 := h1
  rw [hp.next .pinMode _ rfl]
  exact hp.goes hpc fun flags => by simp [h0', h1', GPIO_BASE]

theorem pinLoop_turn (hpc : x.pc = M.place .pinLoop) (h : ¬x.regs.r0.toInt < 10) :
    M.Goes x { x with regs := { x.regs with r0 := x.regs.r0 - 10, r3 := x.regs.r3 + 4 }, pc := M.place .pinLoop } :=
  hp.goes hpc fun flags => by simp [h]

theorem pinLoop_done (hpc : x.pc = M.place .pinLoop) (h : x.regs.r0.toInt < 10) :
    M.Goes x { x with pc := M.place .maskLoop } :=
  hp.goes hpc fun flags => by simp [h]

theorem maskLoop_turn (hpc : x.pc = M.place .maskLoop) (h : ¬x.regs.r0 = 0#32) :
    M.Goes x
      { x with
        regs := { x.regs with r0 := x.regs.r0 - 1, r1 := x.regs.r1 <<< 3, r2 := x.regs.r2 <<< 3 }
        pc := M.place .maskLoop } :=
  hp.goes hpc fun flags => by simp [h]

theorem maskLoop_done (hpc : x.pc = M.place .maskLoop) (h : x.regs.r0 = 0#32) :
    M.Goes x { x with pc := M.place .maskDone } :=
  hp.goes hpc fun flags => by simp [h]

theorem maskDone_store (hpc : x.pc = M.place .maskDone) (hdevice : M.device x.regs.r3 = true) {w : Word} {dev : σ}
    (hread : M.read x.regs.r3 x.dev = (w, dev)) :
    M.Goes x
      { x with
        regs := { x.regs with r0 := (w &&& ~~~x.regs.r2) ||| x.regs.r1 }
        dev := M.write x.regs.r3 ((w &&& ~~~x.regs.r2) ||| x.regs.r1) dev
        pc := M.place .pinModeExit } := by
  rw [hp.next .maskDone _ rfl]
  exact hp.goes hpc fun flags => by simp [State.load, State.store, hdevice, hread]

theorem pinMode_exit (hpc : x.pc = M.place .pinModeExit) {r0 r1 r2 r3 : Word}
    (hstack : x.mem.words x.regs.sp 4 = [r0, r1, r2, r3]) :
    M.Goes x
      { x with regs := { x.regs with r0 := r0, r1 := r1, r2 := r2, r3 := r3, sp := x.regs.sp + 16 }, pc := x.regs.lr } :=
  hp.goes hpc fun flags => by simp [hstack]

/-- The register of the pin is found. -/
theorem pinLoop_run {n k : ℕ} (hn : n < 10) (hk : 10 * k + n < 2 ^ 31) (hpc : x.pc = M.place .pinLoop)
    (hr0 : x.regs.r0 = BitVec.ofNat 32 (10 * k + n)) :
    M.Goes x
      { x with
        regs := { x.regs with r0 := BitVec.ofNat 32 n, r3 := x.regs.r3 + BitVec.ofNat 32 (4 * k) }
        pc := M.place .maskLoop } := by
  have hsigned : x.regs.r0.toInt = 10 * k + n := by
    rw [hr0, BitVec.toInt_eq_toNat_cond, BitVec.toNat_ofNat]
    split_ifs <;> omega
  induction k generalizing x with
  | zero =>
      have hdone := pinLoop_done hp hpc (by omega)
      rw [Nat.mul_zero, Nat.zero_add] at hr0
      simpa [← hr0] using hdone
  | succ k ih =>
      have hturn := pinLoop_turn hp hpc (by omega)
      generalize hy : Point.mk _ _ _ _ = y at hturn
      have hless : y.regs.r0 = BitVec.ofNat 32 (10 * k + n) := by
        rw [← hy, hr0]
        bv_omega
      have hrun := hturn.trans (ih (x := y) (by omega) (by rw [← hy]) hless (by
        rw [hless, BitVec.toInt_eq_toNat_cond, BitVec.toNat_ofNat]
        split_ifs <;> omega))
      have haddress : x.regs.r3 + 4 + BitVec.ofNat 32 (4 * k) = x.regs.r3 + BitVec.ofNat 32 (4 * (k + 1)) := by bv_omega
      rw [← haddress]
      subst hy
      exact hrun

/-- The three bits of the pin are found. -/
theorem maskLoop_run {n : ℕ} (hn : n < 2 ^ 32) (hpc : x.pc = M.place .maskLoop) (hr0 : x.regs.r0 = BitVec.ofNat 32 n) :
    M.Goes x
      { x with
        regs := { x.regs with r0 := 0, r1 := x.regs.r1 <<< (3 * n), r2 := x.regs.r2 <<< (3 * n) }
        pc := M.place .maskDone } := by
  induction n generalizing x with
  | zero =>
      have hdone := maskLoop_done hp hpc hr0
      have hzero : x.regs.r0 = 0 := hr0
      simpa [← hzero] using hdone
  | succ n ih =>
      have hturn := maskLoop_turn hp hpc (by rw [hr0]; bv_omega)
      generalize hy : Point.mk _ _ _ _ = y at hturn
      have hrun := hturn.trans (ih (x := y) (by omega) (by rw [← hy]) (by rw [← hy, hr0]; bv_omega))
      have hshift : ∀ w : Word, w <<< 3 <<< (3 * n) = w <<< (3 * (n + 1)) := by
        intro w
        rw [← BitVec.shiftLeft_add, Nat.mul_succ, Nat.add_comm]
      rw [← hshift, ← hshift]
      subst hy
      exact hrun

end

/-- **`pinMode`** writes one register, or none. -/
theorem pinMode_spec (hp : program.Placed M) (g : Gpio M) (hpc : x.pc = M.place .pinMode) (h0 : x.regs.r0.toNat < 54)
    (h1 : x.regs.r1.toNat < 8) :
    ∃ dev, M.Returns 16 x x.regs x.mem dev ∧ g.level dev = g.level x.dev ∧
      g.select dev = Function.update (g.select x.dev) (x.regs.r0.toNat / 10)
        (withField (g.select x.dev (x.regs.r0.toNat / 10)) x.regs.r1 (3 * (x.regs.r0.toNat % 10))) := by
  have hentry := pinMode_entry hp hpc (by bv_omega) (by bv_omega)
  generalize hy : Point.mk _ _ _ _ = y at hentry
  have hpin : y.regs.r0 = BitVec.ofNat 32 (10 * (x.regs.r0.toNat / 10) + x.regs.r0.toNat % 10) := by
    rw [← hy, Nat.div_add_mod, BitVec.ofNat_toNat, BitVec.setWidth_eq]
  have hfind := pinLoop_run hp (x := y) (Nat.mod_lt _ (by decide)) (by omega) (by rw [← hy]) hpin
  generalize hz : Point.mk _ _ _ _ = z at hfind
  have hmask := maskLoop_run hp (x := z) (n := x.regs.r0.toNat % 10) (by omega) (by rw [← hz]) (by rw [← hz])
  generalize hv : Point.mk _ _ _ _ = v at hmask
  have hr3 : v.regs.r3 = gpioRegister (x.regs.r0.toNat / 10) := by rw [← hv, ← hz, ← hy, gpioRegister]
  have hregister : x.regs.r0.toNat / 10 < 6 := by omega
  have hstore := maskDone_store hp (x := v) (by rw [← hv]) (by rw [hr3]; exact g.device _ (by omega)) rfl
  generalize hw : Point.mk _ _ _ _ = w at hstore
  have hstack : w.mem.words w.regs.sp 4 = [x.regs.r0, x.regs.r1, x.regs.r2, x.regs.r3] := by
    rw [← hw, ← hv, ← hz, ← hy]
    exact Ram.words_putWords _ [x.regs.r0, x.regs.r1, x.regs.r2, x.regs.r3] x.mem (by simp)
  have hexit := pinMode_exit hp (x := w) (by rw [← hw]) hstack
  refine ⟨w.dev, ⟨w.mem, ?_, fun a ha => ?_⟩, ?_, ?_⟩
  · have hrun := (((hentry.trans hfind).trans hmask).trans hstore).trans hexit
    simpa [← hw, ← hv, ← hz, ← hy, BitVec.sub_add_cancel] using hrun
  · rw [← hw, ← hv, ← hz, ← hy]
    exact pushed_outside 16 rfl rfl (by decide) ha
  · rw [← hw, hr3, g.level_write _ _ _ hregister, g.level_read _ _ hregister, ← hv, ← hz, ← hy]
  · rw [← hw, hr3, g.select_write _ _ _ hregister, g.select_read _ _ hregister, g.read _ _ hregister, ← hv, ← hz, ← hy]
    rfl

/-- What does not exist is left alone. -/
theorem pinMode_spec_refuses (hp : program.Placed M) (hpc : x.pc = M.place .pinMode)
    (h : 54 ≤ x.regs.r0.toNat ∨ 8 ≤ x.regs.r1.toNat) : M.Returns 16 x x.regs x.mem x.dev := by
  have hentry := pinMode_refuses hp hpc h
  generalize hy : Point.mk _ _ _ _ = y at hentry
  have hstack : y.mem.words y.regs.sp 4 = [x.regs.r0, x.regs.r1, x.regs.r2, x.regs.r3] := by
    rw [← hy]
    exact Ram.words_putWords _ [x.regs.r0, x.regs.r1, x.regs.r2, x.regs.r3] x.mem (by simp)
  have hexit := pinMode_exit hp (x := y) (by rw [← hy]) hstack
  refine ⟨y.mem, ?_, fun a ha => ?_⟩
  · have hrun := hentry.trans hexit
    simpa [← hy, BitVec.sub_add_cancel] using hrun
  · rw [← hy]
    exact pushed_outside 16 rfl rfl (by decide) ha

/-- **`pinMode` sets the function of one pin**, and changes neither the function of another nor any
level; with a pin or a function that does not exist it changes nothing. -/
theorem pinMode_sets (hp : program.Placed M) (g : Gpio M) (hpc : x.pc = M.place .pinMode) :
    ∃ dev, M.Returns 16 x x.regs x.mem dev ∧ g.level dev = g.level x.dev ∧
      ∀ p < 54, g.function dev p = if p = x.regs.r0.toNat ∧ x.regs.r1.toNat < 8 then x.regs.r1 else g.function x.dev p := by
  by_cases hlegal : x.regs.r0.toNat < 54 ∧ x.regs.r1.toNat < 8
  · obtain ⟨dev, hreturns, hlevel, hselect⟩ := pinMode_spec hp g hpc hlegal.1 hlegal.2
    refine ⟨dev, hreturns, hlevel, fun p hpin => ?_⟩
    rw [Gpio.function, hselect]
    by_cases hsame : p = x.regs.r0.toNat
    · rw [if_pos ⟨hsame, hlegal.2⟩, hsame, Function.update_self]
      exact field_same hlegal.2 (by omega)
    · rw [if_neg fun h => hsame h.1, Gpio.function]
      by_cases hregister : p / 10 = x.regs.r0.toNat / 10
      · rw [hregister, Function.update_self]
        exact field_other hlegal.2 (by omega) (by omega)
      · rw [Function.update_of_ne hregister]
  · have hreturns := pinMode_spec_refuses hp hpc (by omega)
    refine ⟨x.dev, hreturns, rfl, fun p hpin => ?_⟩
    have hother : ¬(p = x.regs.r0.toNat ∧ x.regs.r1.toNat < 8) := fun h => hlegal ⟨h.1 ▸ hpin, h.2⟩
    rw [if_neg hother]

/-! ## `digitalWrite` -/

section
include hp

theorem digitalWrite_entry (hpc : x.pc = M.place .digitalWrite) :
    M.Goes x
      { x with
        mem := x.mem.putWords (x.regs.sp - 12) [x.regs.r0, x.regs.r1, x.regs.r3]
        regs := { x.regs with r3 := gpioRegister 7, sp := x.regs.sp - 12 }
        pc := M.behind .digitalWrite 8 } :=
  hp.goes_part 8 hpc fun flags => by simp [gpioRegister, GPIO_BASE]

theorem digitalWrite_refuses (hpc : x.pc = M.behind .digitalWrite 8) (h : x.regs.r0.toInt < 0 ∨ 53 < x.regs.r0.toInt) :
    ∃ r3, M.Goes x { x with regs := { x.regs with r3 := r3 }, pc := M.place .digitalWriteExit } := by
  refine ⟨if x.regs.r0.toInt < 0 then x.regs.r3 else x.regs.r3 + 4, hp.goes_behind 8 hpc fun flags => ?_⟩
  by_cases hneg : x.regs.r0.toInt < 0
  · simp [hneg]
  · have hhigh : 53 < x.regs.r0.toInt := h.resolve_left hneg
    have hsecond : 32 ≤ x.regs.r0.toInt := by omega
    simp [hneg, hhigh, hsecond]

/-- The write. -/
theorem digitalWrite_store (hpc : x.pc = M.behind .digitalWrite 8) (hlow : ¬x.regs.r0.toInt < 0)
    (hhigh : ¬53 < x.regs.r0.toInt) {a : Word}
    (ha : a = x.regs.r3 + (if 32 ≤ x.regs.r0.toInt then 4 else 0) + (if x.regs.r1 = 0#32 then 12 else 0))
    (hdevice : M.device a = true) :
    M.Goes x
      { x with
        regs := { x.regs with
          r0 := x.regs.r0 &&& 31, r1 := 1#32 <<< ((x.regs.r0 &&& 31).toNat % 256), r3 := a }
        dev := M.write a (1#32 <<< ((x.regs.r0 &&& 31).toNat % 256)) x.dev
        pc := M.place .digitalWriteExit } := by
  rw [hp.next .digitalWrite _ rfl]
  subst ha
  refine hp.goes_behind 8 hpc fun flags => ?_
  by_cases hsecond : 32 ≤ x.regs.r0.toInt
  · by_cases hzero : x.regs.r1 = 0#32
    · have haddress : M.device (x.regs.r3 + 4#32 + 12#32) = true := by simpa [hsecond, hzero] using hdevice
      simp [State.store, hlow, hhigh, hsecond, hzero, haddress]
    · have haddress : M.device (x.regs.r3 + 4#32) = true := by simpa [hsecond, hzero] using hdevice
      simp [State.store, hlow, hhigh, hsecond, hzero, haddress]
  · by_cases hzero : x.regs.r1 = 0#32
    · have haddress : M.device (x.regs.r3 + 12#32) = true := by simpa [hsecond, hzero] using hdevice
      simp [State.store, hlow, hhigh, hsecond, hzero, haddress]
    · have haddress : M.device x.regs.r3 = true := by simpa [hsecond, hzero] using hdevice
      simp [State.store, hlow, hhigh, hsecond, hzero, haddress]

theorem digitalWrite_exit (hpc : x.pc = M.place .digitalWriteExit) {r0 r1 r3 : Word}
    (hstack : x.mem.words x.regs.sp 3 = [r0, r1, r3]) :
    M.Goes x
      { x with regs := { x.regs with r0 := r0, r1 := r1, r3 := r3, sp := x.regs.sp + 12 }, pc := x.regs.lr } :=
  hp.goes hpc fun flags => by simp [hstack]

end

/-- The levels after a write with a single bit. -/
theorem Gpio.level_bit (g : Gpio M) (d : σ) {p : ℕ} (hp54 : p < 54) (high : Bool) :
    g.level (M.write (gpioRegister (if high then 7 + p / 32 else 10 + p / 32)) (1#32 <<< (p % 32)) d) =
      Function.update (g.level d) p high := by
  have hbit : ∀ q, (decide (q / 32 = p / 32) && (1#32 <<< (p % 32)).getLsbD (q % 32)) = decide (q = p) := by
    intro q
    rw [BitVec.getLsbD_shiftLeft]
    by_cases hsame : q = p
    · have hlt : p % 32 < 32 := Nat.mod_lt _ (by decide)
      simp [hsame, hlt]
    · by_cases hregister : q / 32 = p / 32
      · have hrest : q % 32 ≠ p % 32 := by omega
        simp [hsame, hregister, BitVec.getLsbD_one]
        omega
      · simp [hsame, hregister]
  funext q
  cases high with
  | true =>
      rw [if_pos rfl, g.raise _ _ _ (by omega), hbit]
      by_cases hsame : q = p
      · simp [hsame]
      · simp [hsame]
  | false =>
      rw [if_neg Bool.false_ne_true, g.lower _ _ _ (by omega), hbit]
      by_cases hsame : q = p
      · simp [hsame]
      · simp [hsame]

/-- **`digitalWrite` drives one pin**, and changes neither another pin nor a function; with a pin that
does not exist, a negative number included, it changes nothing. -/
theorem digitalWrite_drives (hp : program.Placed M) (g : Gpio M) (hpc : x.pc = M.place .digitalWrite) :
    ∃ dev, M.Returns 12 x x.regs x.mem dev ∧ g.select dev = g.select x.dev ∧
      g.level dev =
        if x.regs.r0.toNat < 54 then Function.update (g.level x.dev) x.regs.r0.toNat (decide (x.regs.r1 ≠ 0))
        else g.level x.dev := by
  have hentry := digitalWrite_entry hp hpc
  generalize hy : Point.mk _ _ _ _ = y at hentry
  have hsigned := BitVec.toInt_eq_toNat_cond x.regs.r0
  have hr0 : y.regs.r0 = x.regs.r0 := by rw [← hy]
  have hsaved : y.mem.words y.regs.sp 3 = [x.regs.r0, x.regs.r1, x.regs.r3] := by
    rw [← hy]
    exact Ram.words_putWords _ [x.regs.r0, x.regs.r1, x.regs.r3] x.mem (by simp)
  have hclean : ∀ a, ¬Below 12 x.regs.sp a → y.mem a = x.mem a := by
    intro a ha
    rw [← hy]
    exact pushed_outside 12 rfl rfl (by decide) ha
  by_cases hpin : x.regs.r0.toNat < 54
  · have hint : x.regs.r0.toInt = x.regs.r0.toNat := by
      rw [hsigned, if_pos (by omega)]
    have haddress : gpioRegister (if decide (x.regs.r1 ≠ 0) then 7 + x.regs.r0.toNat / 32 else 10 + x.regs.r0.toNat / 32) =
        y.regs.r3 + (if 32 ≤ y.regs.r0.toInt then 4 else 0) + (if y.regs.r1 = 0#32 then 12 else 0) := by
      have hr1 : y.regs.r1 = x.regs.r1 := by rw [← hy]
      have hr3 : y.regs.r3 = gpioRegister 7 := by rw [← hy]
      rw [hr0, hr1, hr3, hint]
      by_cases hsecond : 32 ≤ x.regs.r0.toNat
      · have hone : x.regs.r0.toNat / 32 = 1 := by omega
        by_cases hzero : x.regs.r1 = 0#32
        · simp [hsecond, hone, hzero, gpioRegister, GPIO_BASE]
        · simp [hsecond, hone, hzero, gpioRegister, GPIO_BASE]
      · have hnone : x.regs.r0.toNat / 32 = 0 := by omega
        by_cases hzero : x.regs.r1 = 0#32
        · simp [hsecond, hnone, hzero, gpioRegister, GPIO_BASE]
        · simp [hsecond, hnone, hzero, gpioRegister, GPIO_BASE]
    have hregister : (if decide (x.regs.r1 ≠ 0) then 7 + x.regs.r0.toNat / 32 else 10 + x.regs.r0.toNat / 32) < 12 := by
      split <;> omega
    have hbit : (x.regs.r0 &&& 31).toNat % 256 = x.regs.r0.toNat % 32 := by
      have hmask : (x.regs.r0 &&& 31).toNat = x.regs.r0.toNat % 32 := Nat.and_two_pow_sub_one_eq_mod _ 5
      omega
    have hstore := digitalWrite_store hp (x := y) (by rw [← hy]) (by rw [hr0, hint]; omega) (by rw [hr0, hint]; omega)
      haddress (g.device _ hregister)
    generalize hz : Point.mk _ _ _ _ = z at hstore
    have hexit := digitalWrite_exit hp (x := z) (by rw [← hz]) (by rw [← hz]; exact hsaved)
    refine ⟨z.dev, ⟨z.mem, ?_, fun a ha => ?_⟩, ?_, ?_⟩
    · have hrun := (hentry.trans hstore).trans hexit
      simpa [← hz, ← hy, BitVec.sub_add_cancel] using hrun
    · rw [← hz]
      exact hclean a ha
    · rw [← hz, g.select_drive _ _ _ (by split <;> omega) hregister, ← hy]
    · rw [if_pos hpin, ← g.level_bit _ hpin, ← hbit, ← hz, hr0, ← hy]
  · obtain ⟨r3, hrefuse⟩ := digitalWrite_refuses hp (x := y) (by rw [← hy]) (by
      rw [hr0, hsigned]
      split_ifs <;> omega)
    generalize hz : Point.mk _ _ _ _ = z at hrefuse
    have hexit := digitalWrite_exit hp (x := z) (by rw [← hz]) (by rw [← hz]; exact hsaved)
    refine ⟨x.dev, ⟨z.mem, ?_, fun a ha => ?_⟩, rfl, by rw [if_neg hpin]⟩
    · have hrun := (hentry.trans hrefuse).trans hexit
      simpa [← hz, ← hy, BitVec.sub_add_cancel] using hrun
    · rw [← hz]
      exact hclean a ha

/-! ## A machine with pins -/

structure Pins where
  select : ℕ → Word
  level : ℕ → Bool

def gpioIndex (a : Word) : ℕ := (a - GPIO_BASE).toNat / 4

theorem gpioIndex_register {k : ℕ} (hk : k < 12) : gpioIndex (gpioRegister k) = k := by
  rw [gpioIndex, gpioRegister, BitVec.add_comm, BitVec.add_sub_cancel, BitVec.toNat_ofNat]
  omega

/-- What a write to a register does. -/
def Pins.write (k : ℕ) (w : Word) (d : Pins) : Pins :=
  if k < 6 then { d with select := Function.update d.select k w }
  else if k = 7 ∨ k = 8 then { d with level := fun p => d.level p || decide (p / 32 = k - 7) && w.getLsbD (p % 32) }
  else if k = 10 ∨ k = 11 then { d with level := fun p => d.level p && !(decide (p / 32 = k - 10) && w.getLsbD (p % 32)) }
  else d

def wired : Machine Label Pins :=
  program.link labels (fun a => gpioIndex a < 12) (fun a d => (d.select (gpioIndex a), d))
    (fun a w d => d.write (gpioIndex a) w) Ram.word

theorem wired_write {k : ℕ} (hk : k < 12) (w : Word) (d : Pins) : wired.write (gpioRegister k) w d = d.write k w :=
  congrArg (fun k => Pins.write k w d) (gpioIndex_register hk)

def wired_gpio : Gpio wired where
  select := Pins.select
  level := Pins.level
  device k hk := by
    change decide (gpioIndex (gpioRegister k) < 12) = true
    rw [gpioIndex_register hk]
    simpa using hk
  read d k hk := congrArg d.select (gpioIndex_register (by omega))
  select_read _ _ _ := rfl
  level_read _ _ _ := rfl
  select_write d w k hk := by rw [wired_write (by omega), Pins.write, if_pos hk]
  level_write d w k hk := by rw [wired_write (by omega), Pins.write, if_pos hk]
  select_drive d w k hlow hk := by
    rw [wired_write hk, Pins.write, if_neg (by omega)]
    split_ifs <;> rfl
  raise d w k hk p := by
    have hregister : 7 + k = 7 ∨ 7 + k = 8 := by omega
    rw [wired_write (by omega), Pins.write, if_neg (by omega), if_pos hregister, Nat.add_sub_cancel_left]
  lower d w k hk p := by
    have hregister : 10 + k = 10 ∨ 10 + k = 11 := by omega
    rw [wired_write (by omega), Pins.write, if_neg (by omega), if_neg (by omega), if_pos hregister,
      Nat.add_sub_cancel_left]

/-- Pin 18 becomes an output. -/
theorem pinMode_sets_output :
    let regs : Regs := { (default : Regs) with r0 := 18, r1 := 1, sp := 0x8000000 }
    ∃ dev, wired.Returns 16 ⟨wired.place .pinMode, regs, fun _ => 0, ⟨fun _ => 0, fun _ => false⟩⟩ regs (fun _ => 0) dev ∧
      wired_gpio.function dev 18 = 1 := by
  intro regs
  obtain ⟨dev, hreturns, -, hfunction⟩ := pinMode_sets (placed_link _ _ _ _) wired_gpio
    (x := ⟨wired.place .pinMode, regs, fun _ => 0, ⟨fun _ => 0, fun _ => false⟩⟩) rfl
  exact ⟨dev, hreturns, hfunction 18 (by decide)⟩

/-- Pin 47 goes up. -/
theorem digitalWrite_drives_up :
    let regs : Regs := { (default : Regs) with r0 := 47, r1 := 1, sp := 0x8000000 }
    ∃ dev, wired.Returns 12 ⟨wired.place .digitalWrite, regs, fun _ => 0, ⟨fun _ => 0, fun _ => false⟩⟩ regs (fun _ => 0)
        dev ∧ dev.level 47 = true := by
  intro regs
  obtain ⟨dev, hreturns, -, hlevel⟩ := digitalWrite_drives (placed_link _ _ _ _) wired_gpio
    (x := ⟨wired.place .digitalWrite, regs, fun _ => 0, ⟨fun _ => 0, fun _ => false⟩⟩) rfl
  exact ⟨dev, hreturns, congrFun hlevel 47⟩

end Pigfx.Asm
