import Mathlib.Data.List.Induction
import Mathlib.Data.Nat.Log
import Pigfx.Gfx.Sequence
import Pigfx.Lib.While

/-!
# Decimal numbers

`u2s` looks for the power of ten of the first digit and then takes off one digit after
another.  The power grows until it is greater than the number, which would leave thirty-two
bits at the top of the range; so that range has a power of its own.

No power is greater than one that is less than or equal to zero: for 0 the search ends at
once, and no digit is put out.

## Main definitions

* `U2s`, `u2sRun` — the code, with what it computes on the way.
* `U2s.Clean` — nothing went wrong on the way.
* `Canonical` — a number is written as usual.
-/

namespace Pigfx
open Lib

/-! ## The code -/

/-- The variables of the function, with the exact results of its arithmetic, its divisors and the
indices at which it writes. -/
structure U2s where
  u : Word
  i : Word
  j : Word
  buffer : ℕ → Byte
  results : List ℤ
  divisors : List Word
  writes : List ℕ

namespace U2s

def write (c : Byte) (s : U2s) : U2s :=
  { s with buffer := Function.update s.buffer s.j.toNat c, writes := s.writes ++ [s.j.toNat] }

/-- `i *= 10` -/
def grow (s : U2s) : U2s := { s with i := s.i * 10, results := s.results ++ [(s.i.toNat : ℤ) * 10] }

/-- `i /= 10` -/
def shrink (s : U2s) : U2s := { s with i := s.i / 10, divisors := s.divisors ++ [10] }

/-- A turn of the loop over the digits. -/
def digit (s : U2s) : U2s :=
  let d := s.u / s.i
  let s := { s with divisors := s.divisors ++ [s.i], results := s.results ++ [48 + (d.toNat : ℤ)] }
  let s := s.write ((48 + d).setWidth 8)
  let s := { s with j := s.j + 1, results := s.results ++ [(s.j.toNat : ℤ) + 1] }
  let product : ℤ := (d.toNat : ℤ) * s.i.toNat
  let s := { s with u := s.u - d * s.i, results := s.results ++ [product, (s.u.toNat : ℤ) - product] }
  s.shrink

end U2s

/-- `u2s`, with at most `n` turns of each of its loops. -/
def u2sRun (n : ℕ) (u : Word) (buffer : ℕ → Byte) : Option U2s :=
  let s : U2s := ⟨u, 1, 0, buffer, [], [], []⟩
  let found :=
    if s.u ≥ 1000000000 then some { s with i := 1000000000 }
    else (whileDo (fun s : U2s => s.u ≥ s.i) U2s.grow n s).map U2s.shrink
  (found.bind (whileDo (fun s : U2s => s.i > 0) U2s.digit n)).map (U2s.write 0)

/-- The string that is returned: what the buffer holds up to the first zero. -/
def U2s.string (s : U2s) : List Byte := cString ((List.range 20).map s.buffer)

/-- No result leaves thirty-two bits, no divisor is zero, and all writes go to the buffer. -/
structure U2s.Clean (s : U2s) : Prop where
  results : ∀ x ∈ s.results, 0 ≤ x ∧ x < 2 ^ 32
  divisors : ∀ d ∈ s.divisors, d ≠ 0
  writes : ∀ j ∈ s.writes, j < 20

/-- The number in decimal digits, the first of which is 0 only for the number 0. -/
structure Canonical (d : List Byte) (u : ℕ) : Prop where
  ne_nil : d ≠ []
  digits : ∀ x ∈ d, isDigit x
  leading : d.head? = some (chr '0') → u = 0
  value : decimal d = u

/-! ## The digits -/

theorem u2sDigits_zero (fuel u : ℕ) : u2sDigits fuel u 0 = [] := by cases fuel <;> rfl

/-- A turn of the loop leaves the rest of the division. -/
theorem u2sDigits_pow (fuel u k : ℕ) :
    u2sDigits (fuel + 1) u (10 ^ k) =
      BitVec.ofNat 8 (48 + u / 10 ^ k) :: u2sDigits fuel (u % 10 ^ k) (10 ^ k / 10) := by
  have hpos : 10 ^ k > 0 := Nat.pow_pos (by omega)
  have hrest : u - u / 10 ^ k * 10 ^ k = u % 10 ^ k := by
    rw [Nat.mul_comm, ← Nat.mod_eq_sub]
  rw [u2sDigits, if_pos hpos]
  dsimp only
  rw [hrest]

/-- The power of the next digit. -/
theorem pow_succ_div_ten (k : ℕ) : 10 ^ (k + 1) / 10 = 10 ^ k := by
  rw [Nat.pow_succ, Nat.mul_div_cancel _ (by omega)]

/-- The first digit from a power on, if the next power is greater. -/
theorem div_pow_lt_ten {u k : ℕ} (hu : u < 10 ^ (k + 1)) : u / 10 ^ k < 10 :=
  Nat.div_lt_of_lt_mul (by rwa [← Nat.pow_succ])

theorem u2sDigits_isDigit (fuel k : ℕ) :
    ∀ u, u < 10 ^ (k + 1) → ∀ x ∈ u2sDigits fuel u (10 ^ k), isDigit x := by
  induction fuel generalizing k with
  | zero => simp [u2sDigits]
  | succ fuel ih =>
      intro u hu x hx
      rw [u2sDigits_pow] at hx
      rcases List.mem_cons.mp hx with rfl | hx
      · have hd := div_pow_lt_ten hu
        generalize u / 10 ^ k = d at hd
        interval_cases d <;> decide
      · cases k with
        | zero =>
            -- the last digit leaves a zero step
            rw [pow_zero, Nat.div_eq_of_lt (by omega), u2sDigits_zero] at hx
            exact nomatch hx
        | succ k =>
            rw [pow_succ_div_ten] at hx
            exact ih k _ (Nat.mod_lt _ (Nat.pow_pos (by omega))) x hx

/-- The growing loop stops at the first power of ten that is greater. -/
theorem u2sGrow_spec (u : ℕ) (fuel j : ℕ) (hu : u < 10 ^ (j + fuel)) :
    ∃ k, u2sGrow u fuel (10 ^ j) = 10 ^ k ∧ u < 10 ^ k ∧ (j < k → 10 ^ (k - 1) ≤ u) := by
  induction fuel generalizing j with
  | zero => exact ⟨j, rfl, hu, fun hlt => absurd hlt (lt_irrefl j)⟩
  | succ fuel ih =>
      rw [u2sGrow]
      split
      · next hle =>
        obtain ⟨k, hk, hlt, hprev⟩ := ih (j + 1) (by rwa [Nat.add_right_comm, Nat.add_assoc])
        refine ⟨k, by rw [← Nat.pow_succ, hk], hlt, fun hjk => ?_⟩
        by_cases hnext : j + 1 < k
        · exact hprev hnext
        · obtain rfl : k = j + 1 := by omega
          exact hle
      · exact ⟨j, rfl, by omega, fun hlt => absurd hlt (lt_irrefl j)⟩

/-- A number other than 0 has digits from the greatest power of ten that is not greater. -/
theorem u2s_eq {u : Word} (hu : u ≠ 0) :
    ∃ k ≤ 9, 10 ^ k ≤ u.toNat ∧ u.toNat < 10 ^ (k + 1) ∧ u2s u = u2sDigits 10 u.toNat (10 ^ k) := by
  have hlt := u.isLt
  have hpos : 0 < u.toNat := Nat.pos_of_ne_zero fun h0 => hu (BitVec.eq_of_toNat_eq h0)
  unfold u2s
  by_cases hbig : u.toNat ≥ 1000000000
  · rw [if_pos hbig]
    exact ⟨9, le_rfl, hbig, by omega, rfl⟩
  · obtain ⟨k, hk, hu, hprev⟩ := u2sGrow_spec u.toNat 10 0 (by simp; omega)
    rw [pow_zero] at hk
    rw [if_neg hbig, hk]
    cases k with
    | zero => omega
    | succ k =>
        have hle : 10 ^ k ≤ u.toNat := hprev (Nat.succ_pos k)
        have hk9 : k < 10 := (Nat.pow_lt_pow_iff_right (a := 10) (by omega)).mp (by omega)
        rw [pow_succ_div_ten]
        exact ⟨k, by omega, hle, hu, rfl⟩

theorem u2s_zero : u2s 0 = [] := rfl

theorem u2s_isDigit (u : Word) : ∀ x ∈ u2s u, isDigit x := by
  by_cases hu : u = 0
  · rw [hu, u2s_zero]
    exact fun x hx => nomatch hx
  · obtain ⟨k, -, -, hlt, heq⟩ := u2s_eq hu
    rw [heq]
    exact u2sDigits_isDigit 10 k _ hlt

theorem isDigit_ne {x : Byte} (h : isDigit x) : x ≠ 0 ∧ x ≠ TERM_ESCAPE_CHAR := by
  have hr := isDigit_range h
  refine ⟨?_, ?_⟩ <;> rintro rfl <;> simp at hr

/-! ## The value -/

theorem decimal_cons (x : Byte) (d : List Byte) :
    decimal (x :: d) = (x.toNat - 48) * 10 ^ d.length + decimal d := by
  induction d using List.reverseRecOn with
  | nil => simp [decimal]
  | append_singleton d y ih =>
      rw [← List.cons_append, decimal_append, ih, decimal_append, List.length_append, List.length_singleton,
        Nat.pow_succ]
      ring

/-- The byte of a digit. -/
theorem toNat_digit {d : ℕ} (hd : d < 10) : (BitVec.ofNat 8 (48 + d)).toNat = 48 + d := by
  rw [BitVec.toNat_ofNat]
  omega

/-- The digits from a power of ten on: as many as the power says, and with the value that they are
made of. -/
theorem u2sDigits_spec (fuel k u : ℕ) (hfuel : k < fuel) (hu : u < 10 ^ (k + 1)) :
    (u2sDigits fuel u (10 ^ k)).length = k + 1 ∧ decimal (u2sDigits fuel u (10 ^ k)) = u := by
  induction k generalizing fuel u with
  | zero =>
      obtain ⟨fuel, rfl⟩ := Nat.exists_eq_add_one.mpr hfuel
      rw [u2sDigits_pow, pow_zero, Nat.div_one, Nat.div_eq_of_lt (by omega), u2sDigits_zero, decimal_cons,
        toNat_digit hu]
      simp [decimal]
  | succ k ih =>
      obtain ⟨fuel, rfl⟩ := Nat.exists_eq_add_one.mpr (Nat.zero_lt_of_lt hfuel)
      have hd := div_pow_lt_ten hu
      obtain ⟨hlength, hvalue⟩ :=
        ih fuel (u % 10 ^ (k + 1)) (by omega) (Nat.mod_lt _ (Nat.pow_pos (by omega)))
      rw [u2sDigits_pow, pow_succ_div_ten, List.length_cons, decimal_cons, hlength, hvalue, toNat_digit hd,
        Nat.add_sub_cancel_left]
      exact ⟨rfl, Nat.div_add_mod' u _⟩

/-- **Every number but 0 is written as usual**; nothing is written for 0. -/
theorem canonical_u2s_iff (u : Word) : Canonical (u2s u) u.toNat ↔ u ≠ 0 := by
  constructor
  · rintro h rfl
    exact h.ne_nil u2s_zero
  · intro hu
    obtain ⟨k, hk, hle, hlt, heq⟩ := u2s_eq hu
    obtain ⟨hlength, hvalue⟩ := u2sDigits_spec 10 k u.toNat (by omega) hlt
    rw [← heq] at hlength hvalue
    refine ⟨fun hnil => ?_, u2s_isDigit u, fun hzero => ?_, hvalue⟩
    · rw [hnil] at hlength
      exact nomatch hlength
    · rw [heq, u2sDigits_pow, List.head?_cons, Option.some.injEq] at hzero
      have hd := div_pow_lt_ten hlt
      have hpos : 0 < u.toNat / 10 ^ k := Nat.div_pos hle (Nat.pow_pos (by omega))
      have htoNat := congrArg BitVec.toNat hzero
      rw [toNat_digit hd] at htoNat
      have hchr : (chr '0').toNat = 48 := rfl
      omega

/-! ## The loops -/

section Loops
variable {u : Word} {buffer : ℕ → Byte} {s : U2s}

/-- The first loop has found a power of ten that the search meets too. -/
structure Growing (u : Word) (buffer : ℕ → Byte) (s : U2s) : Prop where
  state : s = ⟨u, s.i, 0, buffer, s.results, [], []⟩
  power : ∃ k ≤ 9, s.i.toNat = 10 ^ k ∧ u2sGrow u.toNat (10 - k) (10 ^ k) = u2sGrow u.toNat 10 1
  results : ∀ x ∈ s.results, 0 ≤ x ∧ x < 2 ^ 32

theorem Growing.grow (h : Growing u buffer s) (hu : u.toNat < 10 ^ 9) (hc : s.u ≥ s.i) :
    Growing u buffer s.grow ∧ 9 - Nat.log 10 s.grow.i.toNat < 9 - Nat.log 10 s.i.toNat := by
  obtain ⟨hstate, ⟨k, hk, hi, hgrow⟩, hresults⟩ := h
  have hsu : s.u = u := by rw [hstate]
  have hle : 10 ^ k ≤ u.toNat := by
    rw [← hi, ← hsu]
    exact hc
  have hk9 : k < 9 := (Nat.pow_lt_pow_iff_right (a := 10) (by omega)).mp (by omega)
  have hbound : 10 ^ (k + 1) ≤ 10 ^ 9 := Nat.pow_le_pow_right (by omega) hk9
  rw [Nat.pow_succ] at hbound
  have hnext : s.grow.i.toNat = 10 ^ (k + 1) := by
    have hmul : s.grow.i.toNat = s.i.toNat * 10 % 2 ^ 32 := BitVec.toNat_mul s.i 10
    rw [hmul, hi, Nat.mod_eq_of_lt (by omega), Nat.pow_succ]
  refine ⟨⟨?_, ⟨k + 1, by omega, hnext, ?_⟩, ?_⟩, ?_⟩
  · rw [hstate]
    rfl
  · obtain ⟨m, hm⟩ : ∃ m, 10 - k = m + 1 := ⟨9 - k, by omega⟩
    rw [hm, u2sGrow, if_pos hle, ← Nat.pow_succ] at hgrow
    rw [← hgrow, show 10 - (k + 1) = m by omega]
  · intro x hx
    rcases List.mem_append.mp hx with hx | hx
    · exact hresults x hx
    · rw [List.mem_singleton.mp hx, hi]
      push_cast
      have hcast : ((10 : ℤ) ^ k) * 10 ≤ 10 ^ 9 := by exact_mod_cast hbound
      exact ⟨by positivity, by omega⟩
  · rw [hnext, hi, Nat.log_pow (by omega), Nat.log_pow (by omega)]
    omega

/-- **The power is found** in ten turns, and no product leaves thirty-two bits. -/
theorem growLoop_spec (hu : u.toNat < 10 ^ 9) (buffer : ℕ → Byte) :
    ∃ s, (∀ n, 9 < n → whileDo (fun s : U2s => s.u ≥ s.i) U2s.grow n ⟨u, 1, 0, buffer, [], [], []⟩ = some s) ∧
      Growing u buffer s ∧ ¬s.u ≥ s.i := by
  have hstart : Growing u buffer ⟨u, 1, 0, buffer, [], [], []⟩ :=
    ⟨rfl, ⟨0, by omega, rfl, rfl⟩, fun x hx => nomatch hx⟩
  exact whileDo_total (fun s : U2s => 9 - Nat.log 10 s.i.toNat) (fun s h hc => h.grow hu hc) hstart

/-- A write at an index leaves the bytes before it. -/
theorem map_range_update (buffer : ℕ → Byte) (n : ℕ) (v : Byte) :
    (List.range n).map (Function.update buffer n v) = (List.range n).map buffer := by
  refine List.map_congr_left fun l hl => ?_
  rw [Function.update_of_ne (List.mem_range.mp hl).ne]

/-- The second loop has written the first digits, and the rest of the number gives the others. -/
structure Printing (u : Word) (s : U2s) : Prop where
  clean : s.Clean
  writes : s.writes = List.range s.j.toNat
  rest : ∃ k, s.j.toNat + k ≤ 10 ∧ s.i.toNat = 10 ^ k / 10 ∧ s.u.toNat < 10 ^ k
  digits : (List.range s.j.toNat).map s.buffer ++ u2sDigits (10 - s.j.toNat) s.u.toNat s.i.toNat = u2s u

/-- The variables after a turn, for the digit at a power of ten. -/
theorem digit_spec {k : ℕ} (hj : s.j.toNat < 10) (hi : s.i.toNat = 10 ^ k) (hu : s.u.toNat < 10 ^ (k + 1)) :
    s.digit.j.toNat = s.j.toNat + 1 ∧ s.digit.i.toNat = 10 ^ k / 10 ∧ s.digit.u.toNat = s.u.toNat % 10 ^ k ∧
      s.digit.buffer = Function.update s.buffer s.j.toNat (BitVec.ofNat 8 (48 + s.u.toNat / 10 ^ k)) := by
  have hd : (s.u / s.i).toNat = s.u.toNat / 10 ^ k := by rw [BitVec.toNat_udiv, hi]
  have hd10 := div_pow_lt_ten hu
  have hproduct : s.u.toNat / 10 ^ k * 10 ^ k ≤ s.u.toNat := Nat.div_mul_le_self _ _
  have hlt := s.u.isLt
  refine ⟨?_, ?_, ?_, ?_⟩
  · have hnext : s.digit.j = s.j + 1 := rfl
    rw [hnext]
    exact BitVec.toNat_add_of_lt (show s.j.toNat + 1 < 2 ^ 32 by omega)
  · have hnext : s.digit.i = s.i / 10 := rfl
    rw [hnext, BitVec.toNat_udiv, hi]
    rfl
  · have hnext : s.digit.u = s.u - s.u / s.i * s.i := rfl
    have hmul : (s.u / s.i * s.i).toNat = s.u.toNat / 10 ^ k * 10 ^ k := by
      rw [BitVec.toNat_mul, hd, hi, Nat.mod_eq_of_lt (by omega)]
    rw [hnext, BitVec.toNat_sub_of_le (by rw [BitVec.le_def, hmul]; exact hproduct), hmul, Nat.mul_comm,
      ← Nat.mod_eq_sub]
  · have hnext : s.digit.buffer = Function.update s.buffer s.j.toNat ((48 + s.u / s.i).setWidth 8) := rfl
    have hbyte : (48 + s.u / s.i).setWidth 8 = BitVec.ofNat 8 (48 + s.u.toNat / 10 ^ k) := by
      apply BitVec.eq_of_toNat_eq
      rw [BitVec.toNat_setWidth, BitVec.toNat_add, hd, BitVec.toNat_ofNat]
      change (48 + s.u.toNat / 10 ^ k) % 2 ^ 32 % 2 ^ 8 = _
      omega
    rw [hnext, hbyte]

/-- Nothing goes wrong in a turn. -/
theorem clean_digit {k : ℕ} (h : s.Clean) (hj : s.j.toNat < 10) (hi : s.i.toNat = 10 ^ k)
    (hu : s.u.toNat < 10 ^ (k + 1)) : s.digit.Clean := by
  have hd : (s.u / s.i).toNat = s.u.toNat / 10 ^ k := by rw [BitVec.toNat_udiv, hi]
  have hd10 := div_pow_lt_ten hu
  have hproduct : s.u.toNat / 10 ^ k * 10 ^ k ≤ s.u.toNat := Nat.div_mul_le_self _ _
  have hlt := s.u.isLt
  have hnext : s.digit.results =
      ((s.results ++ [48 + ((s.u / s.i).toNat : ℤ)]) ++ [(s.j.toNat : ℤ) + 1]) ++
        [((s.u / s.i).toNat : ℤ) * s.i.toNat, (s.u.toNat : ℤ) - ((s.u / s.i).toNat : ℤ) * s.i.toNat] := rfl
  refine ⟨?_, ?_, ?_⟩
  · have hcast : ((s.u.toNat / 10 ^ k : ℕ) : ℤ) * ((10 ^ k : ℕ) : ℤ) =
        ((s.u.toNat / 10 ^ k * 10 ^ k : ℕ) : ℤ) := (Nat.cast_mul _ _).symm
    rw [hnext, hd, hi, hcast]
    simp only [List.forall_mem_append, List.forall_mem_cons]
    refine ⟨⟨⟨h.results, ?_, nofun⟩, ?_, nofun⟩, ?_, ?_, nofun⟩
    · omega
    · omega
    · omega
    · omega
  · have hpos : s.i ≠ 0 := by
      intro hzero
      rw [hzero] at hi
      exact absurd hi.symm (Nat.pow_pos (by omega)).ne'
    have hdivisors : s.digit.divisors = (s.divisors ++ [s.i]) ++ [10] := rfl
    rw [hdivisors]
    simp only [List.forall_mem_append, List.forall_mem_singleton]
    exact ⟨⟨h.divisors, hpos⟩, by decide⟩
  · have hwrites : s.digit.writes = s.writes ++ [s.j.toNat] := rfl
    rw [hwrites]
    simp only [List.forall_mem_append, List.forall_mem_singleton]
    exact ⟨h.writes, by omega⟩

theorem Printing.digit (h : Printing u s) (hc : s.i > 0) :
    Printing u s.digit ∧ 10 - s.digit.j.toNat < 10 - s.j.toNat := by
  obtain ⟨hclean, hwrites, ⟨k, hk, hi, hu⟩, hdigits⟩ := h
  have hpos : 0 < s.i.toNat := hc
  obtain ⟨k, rfl⟩ : ∃ m, k = m + 1 := by
    refine Nat.exists_eq_add_one.mpr (Nat.pos_of_ne_zero ?_)
    rintro rfl
    rw [hi] at hpos
    exact absurd hpos (by decide)
  rw [pow_succ_div_ten] at hi
  obtain ⟨hj', hi', hu', hbuffer⟩ := digit_spec (by omega) hi hu
  refine ⟨⟨clean_digit hclean (by omega) hi hu, ?_, ⟨k, by omega, hi', ?_⟩, ?_⟩, by omega⟩
  · have hwrites' : s.digit.writes = s.writes ++ [s.j.toNat] := rfl
    rw [hwrites', hwrites, hj', List.range_succ]
  · rw [hu']
    exact Nat.mod_lt _ (Nat.pow_pos (by omega))
  · obtain ⟨m, hm⟩ : ∃ m, 10 - s.j.toNat = m + 1 := ⟨9 - s.j.toNat, by omega⟩
    rw [hm, hi, u2sDigits_pow] at hdigits
    rw [hj', hu', hi', hbuffer, List.range_succ, List.map_append, map_range_update, List.map_singleton,
      Function.update_self, ← hdigits, show 10 - (s.j.toNat + 1) = m by omega, List.append_assoc]
    rfl

/-- **The digits are written** in ten turns at most. -/
theorem digitLoop_spec (h : Printing u s) (hj : s.j = 0) :
    ∃ t, (∀ n, 10 < n → whileDo (fun s : U2s => s.i > 0) U2s.digit n s = some t) ∧ Printing u t ∧
      ¬t.i > 0 := by
  have hmeasure : 10 - s.j.toNat = 10 := by rw [hj]; rfl
  rw [← hmeasure]
  exact whileDo_total (fun s : U2s => 10 - s.j.toNat) (fun s h hc => h.digit hc) h

/-- The loop over the digits starts behind either branch. -/
theorem Growing.printing (h : Growing u buffer s) (hu : u.toNat < 10 ^ 9) (hc : ¬s.u ≥ s.i) :
    Printing u s.shrink := by
  obtain ⟨hstate, ⟨k, hk, hi, hgrow⟩, hresults⟩ := h
  have hsu : s.u = u := by rw [hstate]
  have hlt : u.toNat < 10 ^ k := by
    rw [← hi, ← hsu]
    exact Nat.lt_of_not_le hc
  have hstop : u2sGrow u.toNat (10 - k) (10 ^ k) = 10 ^ k := by
    obtain ⟨m, hm⟩ : ∃ m, 10 - k = m + 1 := ⟨9 - k, by omega⟩
    rw [hm, u2sGrow, if_neg (Nat.not_le.mpr hlt)]
  have hi' : s.shrink.i.toNat = 10 ^ k / 10 := by
    have hnext : s.shrink.i = s.i / 10 := rfl
    rw [hnext, BitVec.toNat_udiv, hi]
    rfl
  have hj : s.shrink.j = 0 := by rw [hstate]; rfl
  refine ⟨⟨hresults, ?_, ?_⟩, ?_, ⟨k, ?_, hi', ?_⟩, ?_⟩
  · rw [hstate]
    intro d hd
    rw [List.mem_singleton.mp hd]
    decide
  · rw [hstate]
    exact fun x hx => nomatch hx
  · rw [hstate]
    rfl
  · rw [hj]
    exact (Nat.zero_add k).trans_le (by omega)
  · exact hsu ▸ hlt
  · have hlist : u2s u = u2sDigits 10 u.toNat (10 ^ k / 10) := by
      unfold u2s
      rw [if_neg (show ¬u.toNat ≥ 1000000000 by omega), ← hgrow, hstop]
    have hrest : s.shrink.u = u := hsu
    rw [hj, hi', hlist, hrest]
    rfl

/-- The string ends at the zero behind the digits. -/
theorem string_write (hj : s.j.toNat < 20) (hpos : ∀ x ∈ (List.range s.j.toNat).map s.buffer, x ≠ 0) :
    (s.write 0).string = (List.range s.j.toNat).map s.buffer := by
  obtain ⟨m, hm⟩ : ∃ m, 20 = s.j.toNat + (m + 1) := ⟨19 - s.j.toNat, by omega⟩
  have hbuffer : (s.write 0).buffer = Function.update s.buffer s.j.toNat 0 := rfl
  rw [U2s.string, hm, hbuffer, List.range_add, List.map_append, map_range_update, cString,
    List.takeWhile_append_of_pos, List.range_succ_eq_map, List.map_cons, List.map_cons, Nat.add_zero,
    Function.update_self]
  · simp
  · exact fun x hx => decide_eq_true (hpos x hx)

/-- The second loop and the zero behind the digits. -/
theorem Printing.finish (h : Printing u s) (hj : s.j = 0) :
    ∃ t, (∀ n, 10 < n → (whileDo (fun s : U2s => s.i > 0) U2s.digit n s).map (U2s.write 0) = some t) ∧
      t.Clean ∧ (∃ k ≤ 10, t.writes = List.range (k + 1)) ∧ t.string = u2s u := by
  obtain ⟨t, hloop, ⟨hclean, hwrites, ⟨k, hk, -, -⟩, hdigits⟩, hzero⟩ := digitLoop_spec h hj
  have hi : t.i.toNat = 0 := Nat.eq_zero_of_not_pos hzero
  rw [hi, u2sDigits_zero, List.append_nil] at hdigits
  have hwrites' : (t.write 0).writes = t.writes ++ [t.j.toNat] := rfl
  refine ⟨t.write 0, fun n hn => by rw [hloop n hn]; rfl, ⟨hclean.results, hclean.divisors, ?_⟩,
    ⟨t.j.toNat, by omega, by rw [hwrites', hwrites, List.range_succ]⟩, ?_⟩
  · rw [hwrites']
    simp only [List.forall_mem_append, List.forall_mem_singleton]
    exact ⟨hclean.writes, by omega⟩
  · rw [string_write (by omega) ?_, hdigits]
    rw [hdigits]
    exact fun x hx => (isDigit_ne (u2s_isDigit u x hx)).1

/-- **The function returns**, and computes what the list of digits says. -/
theorem u2sRun_spec (u : Word) (buffer : ℕ → Byte) :
    ∃ s, (∀ n, 10 < n → u2sRun n u buffer = some s) ∧ s.Clean ∧
      (∃ k ≤ 10, s.writes = List.range (k + 1)) ∧ s.string = u2s u := by
  have hlt := u.isLt
  by_cases hbig : u ≥ 1000000000
  · have hle : 1000000000 ≤ u.toNat := hbig
    have hprinting : Printing u ⟨u, 1000000000, 0, buffer, [], [], []⟩ := by
      have hlist : u2s u = u2sDigits 10 u.toNat 1000000000 := by rw [u2s, if_pos hle]
      have hi : (1000000000 : Word).toNat = 1000000000 := rfl
      have hpow : (1000000000 : Word).toNat = 10 ^ 10 / 10 := rfl
      refine ⟨⟨nofun, nofun, nofun⟩, rfl, ⟨10, le_rfl, hpow, ?_⟩, ?_⟩
      · exact hlt.trans (by decide)
      · dsimp only
        rw [hlist, hi]
        exact List.nil_append _
    obtain ⟨s, hrun, hs⟩ := hprinting.finish rfl
    refine ⟨s, fun n hn => ?_, hs⟩
    rw [← hrun n hn, u2sRun]
    dsimp only
    rw [if_pos hbig]
    rfl
  · have hsmall : u.toNat < 10 ^ 9 := Nat.lt_of_not_le hbig
    obtain ⟨s, hloop, hgrowing, hexit⟩ := growLoop_spec hsmall buffer
    have hj : s.shrink.j = 0 := by rw [hgrowing.state]; rfl
    obtain ⟨t, hrun, ht⟩ := (hgrowing.printing hsmall hexit).finish hj
    refine ⟨t, fun n hn => ?_, ht⟩
    rw [← hrun n hn, u2sRun]
    dsimp only
    rw [if_neg hbig, hloop n (by omega)]
    rfl

end Loops

/-- **Numbers are written as usual**, but for 0.  For every number the loops end, nothing goes
wrong on the way, and ten digits and a zero at most are written. -/
theorem u2s_canonical_iff (u : Word) (buffer : ℕ → Byte) :
    (∃ s, (∀ n, 10 < n → u2sRun n u buffer = some s) ∧ s.Clean ∧
      (∃ k ≤ 10, s.writes = List.range (k + 1)) ∧ Canonical s.string u.toNat) ↔ u ≠ 0 := by
  obtain ⟨s, hrun, hclean, hwrites, hstring⟩ := u2sRun_spec u buffer
  constructor
  · rintro ⟨t, hrun', -, -, hcanonical⟩
    have heq : t = s := Option.some.inj ((hrun' 11 (by omega)).symm.trans (hrun 11 (by omega)))
    rw [heq, hstring] at hcanonical
    exact (canonical_u2s_iff u).mp hcanonical
  · intro hu
    exact ⟨s, hrun, hclean, hwrites, by rw [hstring]; exact (canonical_u2s_iff u).mpr hu⟩

/-- Zero has no digit. -/
theorem u2s_zero_not_canonical :
    ¬∃ s, (∀ n, 10 < n → u2sRun n 0 (fun _ => 0) = some s) ∧ s.Clean ∧
      (∃ k ≤ 10, s.writes = List.range (k + 1)) ∧ Canonical s.string (0 : Word).toNat := by
  rintro ⟨s, hrun, -, -, hcanonical⟩
  have hempty : (u2sRun 11 0 fun _ => 0).map U2s.string = some [] := by decide
  rw [hrun 11 (by omega)] at hempty
  exact hcanonical.ne_nil (Option.some.inj hempty)

end Pigfx
