import Pigfx.Console
import Pigfx.Lib.RoundedQuotient

/-!
# The baud rate

The divisor registers hold 64ths of the ratio between the clock of the UART and the rate.
Setting a rate and reading it back are two roundings of one quotient, and the second makes
up for the first; only a fraction that is rounded up to a whole loses its carry.

The console keeps no position in its table of rates.  It recovers it from the registers, up
to one percent.

## Main definitions

* `Uart.divisor` — the registers as one number.
* `CarryLost` — the fraction does not fit in its register.
* `baud_roundtrip_iff` — when a rate is read back as it was set.
-/

namespace Pigfx
open Lib

/-! ## Setting and reading -/

/-- Sixty-four times the clock of the UART. -/
def clock64 : ℕ := 192000000

/-- The ratio the registers hold, in 64ths. -/
def Uart.divisor (u : Uart) : ℕ := u.ibrd.toNat * 64 + u.fbrd.toNat

/-- `fractional` of `uart0_setbaud`, before it goes to its register. -/
def fractionOf (baud : ℕ) : ℕ := roundDiv (3000000 % baud * 64) baud

theorem uart0Setbaud_eq (baud : ℕ) : uart0Setbaud baud =
    { ibrd := BitVec.ofNat 16 (3000000 / baud), fbrd := BitVec.ofNat 6 (fractionOf baud) } := rfl

theorem uart0Getbaud_eq {u : Uart} (h : 0 < u.divisor) : uart0Getbaud u = roundDiv clock64 u.divisor := by
  have hf : u.ibrd.toNat * 64 + u.fbrd.toNat ≠ 0 := h.ne'
  simp only [uart0Getbaud, if_neg hf]
  rfl

/-- Both registers together round one quotient. -/
theorem roundDiv_clock64 {baud : ℕ} (h : 0 < baud) :
    roundDiv clock64 baud = 3000000 / baud * 64 + fractionOf baud := by
  have hdiv : 3000000 / baud * baud + 3000000 % baud = 3000000 := Nat.div_add_mod' 3000000 baud
  have hsplit : clock64 = 3000000 / baud * 64 * baud + 3000000 % baud * 64 := by
    have hcomm : 3000000 / baud * 64 * baud = 3000000 / baud * baud * 64 := Nat.mul_right_comm _ _ _
    rw [hcomm, ← Nat.add_mul, hdiv]
    rfl
  rw [hsplit, roundDiv_mul_add h]
  rfl

/-- The fraction is at most a whole. -/
theorem fractionOf_le {baud : ℕ} (h : 0 < baud) : fractionOf baud ≤ 64 := by
  have hle := (isRounded_roundDiv (3000000 % baud * 64) h).le
  have hmod : 3000000 % baud < baud := Nat.mod_lt _ h
  change 2 * (fractionOf baud * baud) ≤ _ at hle
  by_contra hgt
  have hmul : 65 * baud ≤ fractionOf baud * baud := Nat.mul_le_mul_right baud (by omega)
  omega

/-- The fraction is rounded up to a whole, and its register keeps nothing of it. -/
def CarryLost (baud : ℕ) : Prop := fractionOf baud = 64

instance (baud : ℕ) : Decidable (CarryLost baud) := inferInstanceAs (Decidable (_ = _))

/-- What the registers hold of a rate. -/
theorem divisor_setbaud {baud : ℕ} (h : 46 ≤ baud) : (uart0Setbaud baud).divisor =
    if CarryLost baud then roundDiv clock64 baud - 64 else roundDiv clock64 baud := by
  have hdivider : 3000000 / baud < 2 ^ 16 := Nat.div_lt_of_lt_mul (by omega)
  have hpos : 0 < baud := by omega
  have hle := fractionOf_le hpos
  rw [roundDiv_clock64 (by omega), Uart.divisor, uart0Setbaud_eq]
  simp only [BitVec.toNat_ofNat, Nat.mod_eq_of_lt hdivider]
  split
  · next hlost =>
      rw [hlost]
      rfl
  · next hkept =>
      rw [Nat.mod_eq_of_lt (show fractionOf baud < 2 ^ 6 from Nat.lt_of_le_of_ne hle hkept)]

/-- A lost carry comes from a quotient that was rounded up to a number of wholes. -/
theorem CarryLost.spec {baud : ℕ} (h : CarryLost baud) (hpos : 0 < baud) :
    64 ∣ roundDiv clock64 baud ∧ clock64 < roundDiv clock64 baud * baud := by
  have hdiv : 3000000 / baud * baud + 3000000 % baud = 3000000 := Nat.div_add_mod' 3000000 baud
  have hmod : 3000000 % baud < baud := Nat.mod_lt _ hpos
  have hmul : (3000000 / baud * 64 + 64) * baud = 64 * (3000000 / baud * baud) + 64 * baud := by ring
  rw [roundDiv_clock64 hpos, h, hmul]
  have hclock : clock64 = 192000000 := rfl
  refine ⟨⟨3000000 / baud + 1, by ring⟩, ?_⟩
  omega

/-! ## Rates that are read from the registers -/

section
variable {u : Uart} (hi : 1 ≤ u.ibrd.toNat)
include hi

theorem divisor_bounds : 64 ≤ u.divisor ∧ u.divisor < 2 ^ 22 := by
  have hibrd := u.ibrd.isLt
  have hfbrd := u.fbrd.isLt
  rw [Uart.divisor]
  omega

theorem isRounded_getbaud : IsRounded clock64 u.divisor (uart0Getbaud u) := by
  have hpos : 0 < u.divisor := by have := divisor_bounds hi; omega
  rw [uart0Getbaud_eq hpos]
  exact isRounded_roundDiv _ hpos

theorem getbaud_bounds : 46 ≤ uart0Getbaud u ∧ uart0Getbaud u ≤ 3000000 := by
  obtain ⟨hlo, hhi⟩ := divisor_bounds hi
  obtain ⟨hle, hlt⟩ := isRounded_getbaud hi
  have hclock : clock64 = 192000000 := rfl
  constructor
  · by_contra hsmall
    have hmul : uart0Getbaud u * u.divisor ≤ 45 * u.divisor := Nat.mul_le_mul_right _ (by omega)
    omega
  · by_contra hlarge
    have hmul : 3000001 * u.divisor ≤ uart0Getbaud u * u.divisor := Nat.mul_le_mul_right _ (by omega)
    omega

/-- The quotient of the clock and a rate that was read. -/
theorem isRounded_divisor : IsRounded clock64 (uart0Getbaud u) (roundDiv clock64 (uart0Getbaud u)) :=
  isRounded_roundDiv _ (by have := getbaud_bounds hi; omega)

/-- **A rate that was read and is set again is the same rate**, if no carry is lost. -/
theorem getbaud_setbaud (hkept : ¬CarryLost (uart0Getbaud u)) :
    uart0Getbaud (uart0Setbaud (uart0Getbaud u)) = uart0Getbaud u := by
  obtain ⟨hlo, hhi⟩ := getbaud_bounds hi
  have hpos : 0 < u.divisor := by have := divisor_bounds hi; omega
  have hdivisor := divisor_setbaud hlo
  rw [if_neg hkept] at hdivisor
  have hround := isRounded_divisor hi
  have hquot : 0 < roundDiv clock64 (uart0Getbaud u) := by
    have hlt := hround.lt
    have hclock : clock64 = 192000000 := rfl
    by_contra hzero
    simp only [Nat.eq_zero_of_not_pos hzero] at hlt
    omega
  have hrate := uart0Getbaud_eq hpos
  rw [uart0Getbaud_eq (hdivisor ▸ hquot), hdivisor, hrate]
  exact roundDiv_roundDiv_roundDiv hpos (by omega)

end

/-! ## A lost carry -/

section
variable {baud : ℕ} (hlo : 46 ≤ baud) (hhi : baud ≤ 3000000) (hlost : CarryLost baud)
include hlo hhi hlost

theorem divisor_of_carryLost : 0 < (uart0Setbaud baud).divisor ∧
    (uart0Setbaud baud).divisor + 64 = roundDiv clock64 baud := by
  obtain ⟨-, hlt⟩ := hlost.spec (by omega)
  have hlarge : 64 < roundDiv clock64 baud := by
    by_contra hle
    have hmul : roundDiv clock64 baud * baud ≤ 64 * baud := Nat.mul_le_mul_right _ (by omega)
    have hclock : clock64 = 192000000 := rfl
    omega
  rw [divisor_setbaud hlo, if_pos hlost]
  omega

/-- The rate is read back too high, by no more than the lost part of the divisor. -/
theorem getbaud_carryLost :
    let g := (uart0Setbaud baud).divisor
    let b := uart0Getbaud (uart0Setbaud baud)
    baud ≤ b ∧ 2 * (b * g) + 1 ≤ 2 * (baud * g) + 128 * baud + g := by
  intro g b
  obtain ⟨hpos, hdivisor⟩ := divisor_of_carryLost hlo hhi hlost
  have hrate : IsRounded clock64 g b := by
    rw [show b = roundDiv clock64 g from uart0Getbaud_eq hpos]
    exact isRounded_roundDiv _ hpos
  have hup := (hlost.spec (by omega)).2
  have hround := (isRounded_roundDiv clock64 (show 0 < baud by omega)).le
  have hle := hrate.le; have hlt := hrate.lt
  have hmul : (g + 64) * baud = baud * g + 64 * baud := by ring
  rw [← hdivisor, hmul] at hup hround
  refine ⟨?_, by omega⟩
  by_contra hsmall
  have hstep : (b + 1) * g ≤ baud * g := Nat.mul_le_mul_right _ (by omega)
  rw [Nat.succ_mul] at hstep
  omega

/-- Where the divisor is large the lost part is less than one percent of it. -/
theorem getbaud_near_of_large (hg : 13760 ≤ (uart0Setbaud baud).divisor) :
    100 * uart0Getbaud (uart0Setbaud baud) ≤ 101 * baud := by
  obtain ⟨-, hle⟩ := getbaud_carryLost hlo hhi hlost
  by_contra hfar
  have hmul : (101 * baud + 1) * (uart0Setbaud baud).divisor ≤
      100 * uart0Getbaud (uart0Setbaud baud) * (uart0Setbaud baud).divisor := Nat.mul_le_mul_right _ (by omega)
  generalize uart0Getbaud (uart0Setbaud baud) = b at *
  generalize (uart0Setbaud baud).divisor = g at *
  by_cases hsmall : baud < 100
  · -- a rate below one hundred comes back as it was
    have hstep : (baud + 1) * g ≤ b * g := Nat.mul_le_mul_right _ (by omega)
    rw [Nat.succ_mul] at hstep
    omega
  · have hprod : 0 ≤ ((baud : ℤ) - 100) * (g - 13760) := mul_nonneg (by omega) (by omega)
    zify at *
    linarith

end

/-! ## Small and large divisors -/

section
variable {u : Uart} (hi : 1 ≤ u.ibrd.toNat)
include hi

/-- Below the square root of the clock the divisor is found again. -/
theorem divisor_of_small (hsmall : u.divisor < 13824) :
    roundDiv clock64 (uart0Getbaud u) = u.divisor := by
  have hrate := isRounded_getbaud hi
  have hle : u.divisor ≤ uart0Getbaud u := by
    by_contra hgt
    have hmul : uart0Getbaud u * u.divisor ≤ 13822 * 13823 := Nat.mul_le_mul (by omega) (by omega)
    have hlt := hrate.lt
    have hclock : clock64 = 192000000 := rfl
    omega
  exact (hrate.swap hle).roundDiv_eq

/-- Above it the rate is below that root, -/
theorem rate_of_large (hlarge : 13824 ≤ u.divisor) : uart0Getbaud u ≤ 13889 := by
  have hclock : clock64 = 192000000 := rfl
  have hle := (isRounded_getbaud hi).le
  by_contra hgt
  have hmul : 13890 * u.divisor ≤ uart0Getbaud u * u.divisor := Nat.mul_le_mul_right _ (by omega)
  omega

/-- and the divisor that is set for the rate is large too. -/
theorem divisor_of_large (hlarge : 13824 ≤ u.divisor) : 13824 ≤ roundDiv clock64 (uart0Getbaud u) := by
  have hclock : clock64 = 192000000 := rfl
  have hlt := (isRounded_divisor hi).lt
  have hrate := rate_of_large hi hlarge
  by_contra hsmall
  have hmul : roundDiv clock64 (uart0Getbaud u) * uart0Getbaud u ≤ 13823 * 13889 :=
    Nat.mul_le_mul (by omega) hrate
  omega

/-- A small divisor with a fraction loses no carry. -/
theorem whole_of_carryLost (hsmall : u.divisor < 13824) (hlost : CarryLost (uart0Getbaud u)) : u.fbrd = 0 := by
  obtain ⟨⟨k, hk⟩, -⟩ := hlost.spec (by have := getbaud_bounds hi; omega)
  rw [divisor_of_small hi hsmall, Uart.divisor] at hk
  have hfbrd := u.fbrd.isLt
  apply BitVec.eq_of_toNat_eq
  change u.fbrd.toNat = 0
  omega

end

/-- Two rates differ by at most one percent of the first. -/
def WithinPercent (b b' : ℕ) : Prop := 100 * |(b' : ℤ) - b| ≤ b

instance (b b' : ℕ) : Decidable (WithinPercent b b') := inferInstanceAs (Decidable (_ ≤ _))

/-- The whole divisors up to that bound, one by one. -/
theorem withinPercent_whole : ∀ i < 216, 1 ≤ i →
    let b := uart0Getbaud ⟨BitVec.ofNat 16 i, 0⟩
    WithinPercent b (uart0Getbaud (uart0Setbaud b)) ↔ ¬(i ≤ 100 ∧ i ≤ 2 * (3000000 % i)) := by
  decide +kernel

/-- The integer part is small, the fraction is zero, and `3000000` divided by the integer part is
rounded up. -/
def Uart.RoundsUp (u : Uart) : Prop :=
  u.fbrd = 0 ∧ u.ibrd.toNat ≤ 100 ∧ u.ibrd.toNat ≤ 2 * (3000000 % u.ibrd.toNat)

instance (u : Uart) : Decidable u.RoundsUp := inferInstanceAs (Decidable (_ ∧ _ ∧ _))

theorem withinPercent_iff {u : Uart} (hi : 1 ≤ u.ibrd.toNat) :
    WithinPercent (uart0Getbaud u) (uart0Getbaud (uart0Setbaud (uart0Getbaud u))) ↔ ¬u.RoundsUp := by
  obtain ⟨hlo, hhi⟩ := getbaud_bounds hi
  by_cases hwhole : u.fbrd = 0 ∧ u.ibrd.toNat < 216
  · have hu : u = ⟨BitVec.ofNat 16 u.ibrd.toNat, 0⟩ := by
      rw [BitVec.ofNat_toNat, BitVec.setWidth_eq, ← hwhole.1]
    have htable := withinPercent_whole u.ibrd.toNat hwhole.2 hi
    rw [← hu] at htable
    rw [Uart.RoundsUp]
    simpa [hwhole.1] using htable
  · -- in the other cases the rate comes back
    have hfbrd := u.fbrd.isLt
    have hnot : ¬u.RoundsUp := fun h => hwhole ⟨h.1, Nat.lt_of_le_of_lt h.2.1 (by decide)⟩
    refine iff_of_true ?_ hnot
    by_cases hlost : CarryLost (uart0Getbaud u)
    · have hlarge : 13824 ≤ u.divisor := by
        by_contra hsmall
        have hzero := whole_of_carryLost hi (by omega) hlost
        have hibrd : ¬u.ibrd.toNat < 216 := fun h => hwhole ⟨hzero, h⟩
        rw [Uart.divisor] at hsmall
        omega
      have hdivisor := divisor_of_carryLost hlo hhi hlost
      have hset := divisor_of_large hi hlarge
      have hle := (getbaud_carryLost hlo hhi hlost).1
      have hnear := getbaud_near_of_large hlo hhi hlost (by omega)
      rw [WithinPercent, abs_of_nonneg (by omega)]
      omega
    · rw [getbaud_setbaud hi hlost, WithinPercent]
      simp

/-! ## The size of the numbers -/

/-- What the operations of `uart0_setbaud` yield, in its order. -/
def setbaudResults (baud : ℕ) : List ℤ :=
  let divider := 3000000 / baud
  let f1 := 3000000 % baud * 64
  let fractional := f1 / baud
  [divider, (3000000 % baud : ℕ), f1, fractional, fractional * baud, f1 - fractional * baud, baud / 2,
    fractional + 1]

/-- What the operations of `uart0_getbaud` yield, in its order. -/
def getbaudResults (u : Uart) : List ℤ :=
  let f := u.ibrd.toNat * 64 + u.fbrd.toNat
  let baud := if f = 0 then 0 else 3000000 * 64 / f
  [u.ibrd.toNat * 64, f, 3000000 * 64, baud, baud * f, 3000000 * 64 - baud * f, f / 2, baud + 1]

/-- An unsigned number of thirty-two bits. -/
def IsUnsigned32 (x : ℤ) : Prop := 0 ≤ x ∧ x < 2 ^ 32

theorem setbaudResults_unsigned (baud : ℕ) (h : baud < 2 ^ 32) : ∀ x ∈ setbaudResults baud, IsUnsigned32 x := by
  have hmod : 3000000 % baud ≤ 3000000 := Nat.mod_le _ _
  have hdivider : 3000000 / baud ≤ 3000000 := Nat.div_le_self _ _
  have hquot : 3000000 % baud * 64 / baud ≤ 3000000 % baud * 64 := Nat.div_le_self _ _
  have hprod : 3000000 % baud * 64 / baud * baud ≤ 3000000 % baud * 64 := Nat.div_mul_le_self _ _
  simp only [setbaudResults, List.forall_mem_cons, IsUnsigned32, List.not_mem_nil,
    false_implies, implies_true, and_true]
  generalize 3000000 % baud = r at *
  generalize 3000000 / baud = divider at *
  generalize r * 64 / baud = fractional at *
  have hpos : 0 ≤ (fractional : ℤ) * baud := by positivity
  zify at hprod
  omega

theorem getbaudResults_unsigned (u : Uart) : ∀ x ∈ getbaudResults u, IsUnsigned32 x := by
  have hibrd := u.ibrd.isLt
  have hfbrd := u.fbrd.isLt
  simp only [getbaudResults, List.forall_mem_cons, IsUnsigned32, List.not_mem_nil,
    false_implies, implies_true, and_true]
  generalize hf : u.ibrd.toNat * 64 + u.fbrd.toNat = f
  generalize hbaud : (if f = 0 then 0 else 3000000 * 64 / f) = baud
  have hprod : baud * f ≤ 3000000 * 64 := by
    rw [← hbaud]
    split
    · omega
    · exact Nat.div_mul_le_self _ _
  have hle : baud ≤ 3000000 * 64 := by
    rw [← hbaud]
    split
    · omega
    · exact Nat.div_le_self _ _
  have hpos : 0 ≤ (baud : ℤ) * f := by positivity
  zify at hprod
  omega

/-- **The round trip of a rate** through the divisor registers stays within one percent exactly
if the rate was not rounded up from a small whole divisor, and no operation overflows. -/
theorem baud_roundtrip_iff (u : Uart) (hi : 1 ≤ u.ibrd.toNat) :
    let b := uart0Getbaud u
    WithinPercent b (uart0Getbaud (uart0Setbaud b)) ∧
        (∀ x ∈ getbaudResults u ++ setbaudResults b ++ getbaudResults (uart0Setbaud b), IsUnsigned32 x) ↔
      ¬(u.fbrd = 0 ∧ u.ibrd.toNat ≤ 100 ∧ u.ibrd.toNat ≤ 2 * (3000000 % u.ibrd.toNat)) := by
  intro b
  have hsize : ∀ x ∈ getbaudResults u ++ setbaudResults b ++ getbaudResults (uart0Setbaud b),
      IsUnsigned32 x := by
    have hb := (getbaud_bounds hi).2
    intro x hx
    rcases List.mem_append.mp hx with hx | hx
    · rcases List.mem_append.mp hx with hx | hx
      · exact getbaudResults_unsigned u x hx
      · exact setbaudResults_unsigned b (by omega) x hx
    · exact getbaudResults_unsigned _ x hx
  rw [and_iff_left hsize]
  exact withinPercent_iff hi

/-- The divisor of 115200 Bd. -/
theorem baud_roundtrip_iff_115200 :
    let b := uart0Getbaud ⟨26, 3⟩
    WithinPercent b (uart0Getbaud (uart0Setbaud b)) :=
  ((baud_roundtrip_iff ⟨26, 3⟩ (by decide)).mpr (by decide)).1

/-- The divisor 14 is read as 214286 Bd; setting that leaves 13, read as 230769 Bd. -/
theorem baud_roundtrip_off :
    uart0Getbaud ⟨14, 0⟩ = 214286 ∧ uart0Setbaud 214286 = ⟨13, 0⟩ ∧
      ¬WithinPercent 214286 (uart0Getbaud (uart0Setbaud 214286)) := by
  decide

end Pigfx
