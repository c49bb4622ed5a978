import Pigfx.Baud
import Mathlib.Data.List.Chain
import Mathlib.Data.List.GetD

/-!
# The table of baud rates

At the start the rate of the registers is added to the table of rates, unless the table has
one near it.  A key goes on to the next rate: it reads the present one back from the
registers and looks for the first of the table that is more than one percent above it.

So the keys pass through the whole table exactly if what is read back for a rate lies
between that rate and the next one.  That fails for two initial rates only, whose fraction
has lost its carry and which have a neighbour close above.

## Main definitions

* `addInitialBaudrate` — the rate of the start goes into the table.
* `Rotates` — tables whose rates are told from each other.
* `rotation_visits_iff` — the order in which the rates are programmed.
-/

namespace Pigfx
open Lib

/-! ## The code -/

/-- `for(i=i; i>j; i--) baud[i] = baud[i-1];` -/
def shiftUp (j : ℕ) : ℕ → List ℤ → List ℤ
  | 0, baud => baud
  | i + 1, baud => if i + 1 > j then shiftUp j i (baud.set (i + 1) (baud.getD i 0)) else baud

def addInitialBaudrate (u : Uart) (baud : List ℤ) : List ℤ :=
  let b : ℤ := uart0Getbaud u
  let i := baud.findIdx fun x => ¬x > 0
  if (baud.take i).any fun x => x > b - b / 100 ∧ x < b + b / 100 then baud
  else
    let j := baud.findIdx fun x => ¬(x > 0 ∧ x < b + b / 100)
    (shiftUp j i baud).set (min i j) b

/-! ## Telling rates from each other -/

/-- The rates of `baud` as the source initialises it. -/
def standardRates : List ℤ := [300, 600, 1200, 2400, 4800, 9600, 19200, 38400, 57600, 115200, 150000]

/-- The rate that is read back after a rate was set. -/
def reportedRate (r : ℤ) : ℤ := uart0Getbaud (uart0Setbaud (u32 r))

/-- The position of a rate that was set is found: behind the rate, or at it if one percent of
it is nothing. -/
def Recognised (r : ℤ) : Prop :=
  0 < reportedRate r ∧ (r < reportedRate r + reportedRate r / 100 ∨ r = reportedRate r)

/-- One percent above what is read back for a rate, the second rate is not passed. -/
def KeptApart (r r' : ℤ) : Prop := reportedRate r < r' ∧ reportedRate r + reportedRate r / 100 ≤ r'

instance (r : ℤ) : Decidable (Recognised r) := inferInstanceAs (Decidable (_ ∧ (_ ∨ _)))
instance (r r' : ℤ) : Decidable (KeptApart r r') := inferInstanceAs (Decidable (_ ∧ _))

/-- Rates in order, each told from the next by what is read back. -/
structure Rotates (rates : List ℤ) : Prop where
  ascending : rates.Pairwise (· < ·)
  pos : ∀ r ∈ rates, 0 < r
  recognised : ∀ r ∈ rates, Recognised r
  apart : rates.IsChain KeptApart

section Rotation
variable {rates rest : List ℤ} {k : ℕ}

/-- An entry of the table, up to its end. -/
theorem getD_table (hk : k ≤ rates.length) :
    (rates ++ -1 :: rest).getD k (-1) = rates.getD k (-1) := by
  rcases Nat.lt_or_eq_of_le hk with hlt | rfl
  · simp only [List.getD_eq_getElem?_getD, List.getElem?_append_left hlt]
  · simp

/-- The first index that is not below a bound. -/
theorem findIdx_table (rest : List ℤ) (hpos : ∀ r ∈ rates, 0 < r) {c : ℤ} (hk : k ≤ rates.length)
    (hlow : ∀ j (hj : j < rates.length), j < k → rates[j] < c)
    (hhigh : ∀ hk' : k < rates.length, c ≤ rates[k]) :
    ((rates ++ -1 :: rest).findIdx fun x => ¬(x > 0 ∧ x < c)) = k := by
  rw [List.findIdx_eq (by simp; omega)]
  constructor
  · rcases Nat.lt_or_eq_of_le hk with hlt | rfl
    · have hge := hhigh hlt
      rw [List.getElem_append_left hlt]
      simp [hge]
    · simp
  · intro j hj
    have hj' : j < rates.length := by omega
    have hlt := hlow j hj' hj
    rw [List.getElem_append_left hj']
    simpa using ⟨hpos _ (List.getElem_mem hj'), hlt⟩

/-- The entry behind a rate is the end of the table behind the last one only. -/
theorem Rotates.next_index (h : Rotates rates) (hk : k < rates.length) :
    (if rates.getD (k + 1) (-1) < 0 then 0 else k + 1) = (k + 1) % rates.length := by
  rcases Nat.lt_or_eq_of_le hk with hlt | hlast
  · have hpos := h.pos _ (List.getElem_mem hlt)
    rw [List.getD_eq_getElem _ _ hlt, if_neg (by omega), Nat.mod_eq_of_lt hlt]
  · rw [List.getD_eq_default _ _ (by omega), if_pos (by decide), ← hlast, Nat.mod_self]

/-- The index behind a rate is the index of the next one, or of the first. -/
theorem Rotates.nextBaudIndex_eq (h : Rotates rates) (hk : k < rates.length) :
    nextBaudIndex (rates ++ -1 :: rest) (reportedRate rates[k]) = (k + 1) % rates.length := by
  obtain ⟨hreport, hrec⟩ := h.recognised rates[k] (List.getElem_mem hk)
  have hasc : ∀ j (hj : j < rates.length), j < k → rates[j] < rates[k] := fun j hj hjk =>
    List.pairwise_iff_getElem.mp h.ascending j k hj hk hjk
  have hnext : ∀ hk' : k + 1 < rates.length, KeptApart rates[k] rates[k + 1] :=
    List.isChain_iff_getElem.mp h.apart k
  unfold KeptApart at hnext
  generalize reportedRate rates[k] = b at *
  by_cases hlt : rates[k] < b + b / 100
  · -- the search stops behind the rate
    have hidx := findIdx_table rest h.pos (c := b + b / 100) (k := k + 1) hk
      (fun j hj hjk => by
        rcases Nat.eq_or_lt_of_le (Nat.le_of_lt_succ hjk) with rfl | hjk
        · exact hlt
        · exact (hasc j hj hjk).trans hlt)
      (fun hk' => (hnext hk').2)
    rw [nextBaudIndex, hidx, getD_table hk, ← h.next_index hk]
    split
    · rfl
    · next hpos =>
        refine if_neg fun heq => ?_
        by_cases hk' : k + 1 < rates.length
        · rw [List.getD_eq_getElem _ _ hk'] at heq
          exact absurd heq (hnext hk').1.ne'
        · rw [List.getD_eq_default _ _ (by omega)] at hpos
          exact hpos (by decide)
  · -- it stops at the rate, which is what is read back
    have heq : rates[k] = b := hrec.resolve_left hlt
    have hidx := findIdx_table rest h.pos (c := b + b / 100) (k := k) hk.le
      (fun j hj hjk => by have := hasc j hj hjk; omega) (fun _ => by omega)
    rw [nextBaudIndex, hidx, getD_table hk.le, List.getD_eq_getElem _ _ hk, if_neg (by omega), if_pos heq,
      getD_table hk]
    exact h.next_index hk

/-! ## Turning the table -/

theorem rotateBaudrate_uart (b : Build) (con : Console) : (rotateBaudrate b con).uart =
    uart0Setbaud (u32 (con.baud.getD (nextBaudIndex con.baud (uart0Getbaud con.uart)) (-1))) := by
  rw [rotateBaudrate]

theorem rotateBaudrate_baud (b : Build) (con : Console) : (rotateBaudrate b con).baud = con.baud := by
  simp only [rotateBaudrate, Console.putstring]

/-- One call programs the next rate. -/
theorem Rotates.rotate (h : Rotates rates) (hk : k < rates.length) (b : Build) {con : Console}
    (hbaud : con.baud = rates ++ -1 :: rest) (huart : con.uart = uart0Setbaud (u32 rates[k])) :
    (rotateBaudrate b con).uart = uart0Setbaud (u32 (rates.getD ((k + 1) % rates.length) (-1))) := by
  have hnext : nextBaudIndex con.baud (uart0Getbaud con.uart) = (k + 1) % rates.length := by
    rw [hbaud, huart]
    exact h.nextBaudIndex_eq hk
  rw [rotateBaudrate_uart, hnext, hbaud, getD_table (Nat.mod_lt _ (by omega)).le]

/-- Any number of calls programs the rates in order, over and over. -/
theorem Rotates.rotate_iterate (h : Rotates rates) (hk : k < rates.length) (b : Build) (n : ℕ) {con : Console}
    (hbaud : con.baud = rates ++ -1 :: rest) (huart : con.uart = uart0Setbaud (u32 rates[k])) :
    ((rotateBaudrate b)^[n] con).uart = uart0Setbaud (u32 (rates.getD ((k + n) % rates.length) (-1))) := by
  induction n generalizing k con with
  | zero => rw [Nat.add_zero, Nat.mod_eq_of_lt hk, List.getD_eq_getElem _ _ hk]; exact huart
  | succ n ih =>
    have hlt : (k + 1) % rates.length < rates.length := Nat.mod_lt _ (by omega)
    have hone := h.rotate hk b hbaud huart
    rw [List.getD_eq_getElem _ _ hlt] at hone
    rw [Function.iterate_succ_apply, ih hlt ((rotateBaudrate_baud b con).trans hbaud) hone, Nat.mod_add_mod,
      Nat.add_assoc, Nat.add_comm 1 n]

end Rotation

/-! ## The initial rate -/

/-- What the initialised table is told from. -/
theorem baudTable_eq : baudTable = standardRates ++ [-1, -1] := rfl

theorem standardRates_pos : ∀ r ∈ standardRates, 0 < r := by decide

/-- A rate moves the larger ones up. -/
theorem insert_baudTable (b : ℤ) {j : ℕ} (hj : j ≤ standardRates.length) :
    (shiftUp j standardRates.length baudTable).set (min standardRates.length j) b =
      standardRates.take j ++ b :: standardRates.drop j ++ [-1] := by
  change j ≤ 11 at hj
  interval_cases j <;> rfl

/-- Where the initial rate goes. -/
structure Inserted (b : ℤ) (P S : List ℤ) : Prop where
  standard : P ++ S = standardRates
  below : ∀ r ∈ P, r ≤ b - b / 100
  above : ∀ r ∈ S, b + b / 100 ≤ r

/-- The table holds a rate near the initial one, or gets the initial one. -/
theorem addInitialBaudrate_cases (u : Uart) :
    let b : ℤ := uart0Getbaud u
    ((∃ r ∈ standardRates, r > b - b / 100 ∧ r < b + b / 100) ∧ addInitialBaudrate u baudTable = baudTable) ∨
      ∃ P S, Inserted b P S ∧ addInitialBaudrate u baudTable = P ++ b :: S ++ [-1] := by
  intro b
  have hend : (baudTable.findIdx fun x => ¬x > 0) = standardRates.length := rfl
  have htake : baudTable.take standardRates.length = standardRates := rfl
  rw [addInitialBaudrate]
  simp only [hend, htake]
  split
  · next hnear => exact Or.inl ⟨by simpa using hnear, rfl⟩
  · next hfar =>
      right
      simp only [List.any_eq_true, decide_eq_true_eq, not_exists, not_and] at hfar
      have hle : (standardRates.findIdx fun x => ¬x < b + b / 100) ≤ standardRates.length :=
        List.findIdx_le_length
      have hlow : ∀ i (hi : i < standardRates.length), i < (standardRates.findIdx fun x => ¬x < b + b / 100) →
          standardRates[i] < b + b / 100 := fun i hi hik => by simpa using List.not_of_lt_findIdx hik
      have hhigh : ∀ hk : (standardRates.findIdx fun x => ¬x < b + b / 100) < standardRates.length,
          b + b / 100 ≤ standardRates[standardRates.findIdx fun x => ¬x < b + b / 100] := fun hk => by
        simpa using List.findIdx_getElem (w := hk)
      generalize (standardRates.findIdx fun x => ¬x < b + b / 100) = k at *
      have hidx : (baudTable.findIdx fun x => ¬(x > 0 ∧ x < b + b / 100)) = k :=
        findIdx_table _ standardRates_pos hle hlow hhigh
      refine ⟨standardRates.take k, standardRates.drop k, ⟨List.take_append_drop _ _, ?_, ?_⟩, ?_⟩
      · intro r hr
        obtain ⟨i, hi, rfl⟩ := List.mem_iff_getElem.mp hr
        have hi' : i < k ∧ i < standardRates.length := by simpa using hi
        have hlt := hlow i hi'.2 hi'.1
        have hout := hfar standardRates[i] (List.getElem_mem hi'.2)
        rw [List.getElem_take]
        omega
      · intro r hr
        obtain ⟨i, hi, rfl⟩ := List.mem_iff_getElem.mp hr
        have hi' : i < standardRates.length - k := by simpa using hi
        have hge := hhigh (by omega)
        rw [List.getElem_drop]
        rcases Nat.eq_zero_or_pos i with rfl | hpos
        · exact hge
        · have hasc : standardRates.Pairwise (· < ·) := by decide
          exact hge.trans (List.pairwise_iff_getElem.mp hasc k (k + i) (by omega) (by omega) (by omega)).le
      · rw [hidx]
        exact insert_baudTable b hle

/-! ## Rates told apart -/

theorem rotates_standardRates : Rotates standardRates where
  ascending := by decide
  pos := standardRates_pos
  recognised := by decide
  apart := by decide

/-- What is read back for the rates of the table. -/
theorem reportedRate_standard : ∀ r ∈ standardRates, 300 ≤ r ∧ r % 100 = 0 ∧
    (reportedRate r ≤ r ∨ r = 57600 ∧ reportedRate r = 57606) := by decide

section
variable {b : ℤ} {P S : List ℤ} (h : Inserted b P S) (hb : 0 < b)
include h

theorem Inserted.mem {r : ℤ} (hr : r ∈ P ++ S) : r ∈ standardRates := h.standard ▸ hr

include hb

/-- The table with one more rate is in order. -/
theorem Inserted.ascending : (P ++ b :: S).Pairwise (· < ·) := by
  have hstd := rotates_standardRates.ascending
  rw [← h.standard] at hstd
  obtain ⟨hascP, hascS, hPS⟩ := List.pairwise_append.mp hstd
  refine List.pairwise_append.mpr ⟨hascP, List.pairwise_cons.mpr ⟨?_, hascS⟩, ?_⟩
  · intro r hr
    have hlarge := (reportedRate_standard r (h.mem (List.mem_append_right P hr))).1
    have hle := h.above r hr
    omega
  · intro r hr r' hr'
    rcases List.mem_cons.mp hr' with rfl | hr'
    · have hlarge := (reportedRate_standard r (h.mem (List.mem_append_left S hr))).1
      have hle := h.below r hr
      omega
    · exact hPS r hr r' hr'

omit hb in
/-- What holds of the rates of the source and of the new one holds of all. -/
theorem Inserted.forall_mem {p : ℤ → Prop} (hstd : ∀ r ∈ standardRates, p r) (hnew : p b) :
    ∀ r ∈ P ++ b :: S, p r := by
  intro r hr
  rcases List.mem_append.mp hr with hr | hr
  · exact hstd r (h.mem (List.mem_append_left S hr))
  · rcases List.mem_cons.mp hr with rfl | hr
    · exact hnew
    · exact hstd r (h.mem (List.mem_append_right P hr))

/-- It turns if the new rate is told from its neighbours. -/
theorem Inserted.rotates (hrec : Recognised b) (hP : ∀ r ∈ P, KeptApart r b) (hS : ∀ r ∈ S, KeptApart b r) :
    Rotates (P ++ b :: S) := by
  have hstd := rotates_standardRates.apart
  rw [← h.standard] at hstd
  obtain ⟨hchainP, hchainS, -⟩ := List.isChain_append.mp hstd
  refine ⟨h.ascending hb, h.forall_mem standardRates_pos hb,
    h.forall_mem rotates_standardRates.recognised hrec, ?_⟩
  refine List.isChain_append.mpr ⟨hchainP, List.isChain_cons.mpr ⟨?_, hchainS⟩, ?_⟩
  · exact fun r hr => hS r (List.mem_of_mem_head? hr)
  · intro r hr r' hr'
    obtain rfl : b = r' := by simpa using hr'
    exact hP r (List.mem_of_mem_getLast? hr)

end

/-- A rate of the table is told from the initial one behind it, unless that is 58181. -/
theorem Inserted.keptApart_below {b : ℤ} {P S : List ℤ} (h : Inserted b P S) (hb : b ≠ 58181) :
    ∀ r ∈ P, KeptApart r b := by
  intro r hr
  have hle := h.below r hr
  obtain ⟨hlarge, hmod, hreport⟩ := reportedRate_standard r (h.standard ▸ List.mem_append_left S hr)
  unfold KeptApart
  omega

section
variable {u : Uart} (hi : 1 ≤ u.ibrd.toNat)
include hi

/-- No register content is read as 58181 Bd. -/
theorem getbaud_ne : uart0Getbaud u ≠ 58181 := by
  have hclock : clock64 = 192000000 := rfl
  obtain ⟨hle, hlt⟩ := isRounded_getbaud hi
  intro heq
  rw [heq] at hle hlt
  omega

omit hi in
theorem reportedRate_natCast {n : ℕ} (h : n < 2 ^ 32) :
    reportedRate n = uart0Getbaud (uart0Setbaud n) := by
  rw [reportedRate, u32_natCast h]

/-- The initial rate is read back as it is, or too high. -/
theorem reportedRate_initial : let b := uart0Getbaud u
    reportedRate b = b ∨ CarryLost b ∧ (b : ℤ) ≤ reportedRate b := by
  intro b
  obtain ⟨hlo, hhi⟩ := getbaud_bounds hi
  rw [reportedRate_natCast (show b < 2 ^ 32 by omega)]
  by_cases hlost : CarryLost b
  · exact Or.inr ⟨hlost, by exact_mod_cast (getbaud_carryLost hlo hhi hlost).1⟩
  · exact Or.inl (by exact_mod_cast getbaud_setbaud hi hlost)

theorem recognised_initial : Recognised (uart0Getbaud u) := by
  have hlo := (getbaud_bounds hi).1
  have hreport := reportedRate_initial hi
  unfold Recognised
  dsimp only at hreport
  omega

end

/-- Whole divisors that lose their carry, one by one. -/
theorem reportedRate_whole : ∀ i < 216, 1 ≤ i ∧ i ≠ 53 ∧ i ≠ 79 →
    CarryLost (uart0Getbaud ⟨BitVec.ofNat 16 i, 0⟩) → ∀ r ∈ standardRates,
      let b : ℤ := uart0Getbaud ⟨BitVec.ofNat 16 i, 0⟩
      b + b / 100 ≤ r → reportedRate b + reportedRate b / 100 ≤ r := by
  decide +kernel

/-- Rates close below one of the table, one by one: `s` is a rate with its percent. -/
theorem reportedRate_close : ∀ r ∈ standardRates, r ≤ 9600 → ∀ k < 31,
    let s : ℤ := r - (k : ℕ)
    let b : ℤ := s - s / 101
    b + b / 100 ≤ r → reportedRate b + reportedRate b / 100 ≤ r := by
  decide

section
variable {u : Uart} (hi : 1 ≤ u.ibrd.toNat) (hlost : CarryLost (uart0Getbaud u))
include hi hlost

/-- With a large divisor the lost carry is a small part of the rate. -/
theorem reportedRate_of_large (hlarge : 13824 ≤ u.divisor) : let b := uart0Getbaud u
    b ≤ 13889 ∧ reportedRate b ≤ b + 65 ∧ (b ≤ 9505 → reportedRate b ≤ b + 30) := by
  intro b
  have hclock : clock64 = 192000000 := rfl
  obtain ⟨hlo, hhi⟩ := getbaud_bounds hi
  have hset := divisor_of_large hi hlarge
  have hround := (isRounded_divisor hi).lt
  obtain ⟨-, hdivisor⟩ := divisor_of_carryLost hlo hhi hlost
  obtain ⟨-, hread⟩ := getbaud_carryLost hlo hhi hlost
  have hrate : b ≤ 13889 := rate_of_large hi hlarge
  rw [reportedRate_natCast (show b < 2 ^ 32 by omega)]
  change _ ∧ ((uart0Getbaud (uart0Setbaud b) : ℕ) : ℤ) ≤ _ ∧ (_ → ((uart0Getbaud (uart0Setbaud b) : ℕ) : ℤ) ≤ _)
  change 2 * (_ * b) + b > _ at hround
  change 2 * (uart0Getbaud (uart0Setbaud b) * _) + 1 ≤ 2 * (b * _) + 128 * b + _ at hread
  change (uart0Setbaud b).divisor + 64 = _ at hdivisor
  generalize uart0Getbaud (uart0Setbaud b) = r at *
  generalize (uart0Setbaud b).divisor = g at *
  rw [← hdivisor] at hround hset
  refine ⟨hrate, ?_, ?_⟩
  · by_contra hfar
    have hmul : (b + 66) * g ≤ r * g := Nat.mul_le_mul_right _ (by omega)
    rw [Nat.add_mul] at hmul
    omega
  · intro hsmall
    by_contra hfar
    have hmul : (b + 31) * g ≤ r * g := Nat.mul_le_mul_right _ (by omega)
    have hprod : (g + 64) * b ≤ (g + 64) * 9505 := Nat.mul_le_mul_left _ hsmall
    rw [Nat.add_mul] at hmul
    omega

/-- A lost carry hides no rate of the table, apart from two divisors. -/
theorem reportedRate_lost (h53 : u ≠ ⟨53, 0⟩) (h79 : u ≠ ⟨79, 0⟩) {r : ℤ} (hr : r ∈ standardRates) :
    let b : ℤ := uart0Getbaud u
    b + b / 100 ≤ r → reportedRate b + reportedRate b / 100 ≤ r := by
  intro b hb
  by_cases hsmall : u.divisor < 13824
  · have hzero := whole_of_carryLost hi hsmall hlost
    have hu : u = ⟨BitVec.ofNat 16 u.ibrd.toNat, 0⟩ := by
      rw [BitVec.ofNat_toNat, BitVec.setWidth_eq, ← hzero]
    have hlt : u.ibrd.toNat < 216 := by
      rw [Uart.divisor] at hsmall
      omega
    have hne : ∀ i : ℕ, u ≠ ⟨BitVec.ofNat 16 i, 0⟩ → u.ibrd.toNat ≠ i := by
      rintro i hui rfl
      exact hui hu
    have htable := reportedRate_whole u.ibrd.toNat hlt ⟨hi, hne 53 h53, hne 79 h79⟩ (hu ▸ hlost) r hr
    rw [← hu] at htable
    exact htable hb
  · obtain ⟨hrate, hnear, hclose⟩ := reportedRate_of_large hi hlost (by omega)
    change reportedRate b ≤ b + 65 at hnear
    change _ → reportedRate b ≤ b + 30 at hclose
    have hstd := (show ∀ r ∈ standardRates, r ≤ 9600 ∨ 19200 ≤ r by decide) r hr
    by_cases hlow : r ≤ 9600
    · have hreport := hclose (by omega)
      by_cases hfar : b + b / 100 + 31 ≤ r
      · omega
      · have hk : r - ((r - (b + b / 100)).toNat : ℕ) = b + b / 100 := by omega
        have hback : b + b / 100 - (b + b / 100) / 101 = b := by omega
        have htable := reportedRate_close r hr hlow (r - (b + b / 100)).toNat (by omega)
        simp only [hk, hback] at htable
        exact htable hb
    · omega

end

/-! ## The console -/

/-- The rates of the table are what stands in front of its end. -/
theorem takeWhile_table {rates rest : List ℤ} (hpos : ∀ r ∈ rates, 0 < r) :
    (rates ++ -1 :: rest).takeWhile (0 < ·) = rates := by
  rw [List.takeWhile_append_of_pos (by simpa using hpos)]
  simp

/-- The table with its initial rate. -/
theorem addInitialBaudrate_spec {u : Uart} (hi : 1 ≤ u.ibrd.toNat) :
    let initial : ℤ := uart0Getbaud u
    ∃ rates rest, addInitialBaudrate u baudTable = rates ++ -1 :: rest ∧ rates.Pairwise (· < ·) ∧
      (∀ r ∈ rates, 0 < r) ∧ (∃ r ∈ rates, 100 * |r - initial| ≤ initial) ∧
        (u ≠ ⟨53, 0⟩ → u ≠ ⟨79, 0⟩ → Rotates rates) := by
  intro initial
  have hinitial : 0 < initial := by have := getbaud_bounds hi; omega
  rcases addInitialBaudrate_cases u with ⟨⟨r, hr, hnear⟩, htable⟩ | ⟨P, S, hins, htable⟩
  · change r > initial - initial / 100 ∧ r < initial + initial / 100 at hnear
    refine ⟨standardRates, [-1], htable.trans baudTable_eq, rotates_standardRates.ascending, standardRates_pos,
      ⟨r, hr, ?_⟩, fun _ _ => rotates_standardRates⟩
    have habs : |r - initial| ≤ initial / 100 := abs_le.mpr ⟨by omega, by omega⟩
    omega
  · have hne : initial ≠ 58181 := by have := getbaud_ne hi; omega
    refine ⟨P ++ initial :: S, [], htable, hins.ascending hinitial, hins.forall_mem standardRates_pos hinitial,
      ⟨initial, by simp, by simpa using hinitial.le⟩, fun h53 h79 => ?_⟩
    refine hins.rotates hinitial (recognised_initial hi) (hins.keptApart_below hne) ?_
    intro r hr
    have hmem := hins.mem (List.mem_append_right P hr)
    have hlarge := (reportedRate_standard r hmem).1
    have habove := hins.above r hr
    change reportedRate initial < r ∧ reportedRate initial + reportedRate initial / 100 ≤ r
    rcases reportedRate_initial hi with hsame | ⟨hlost, -⟩
    · change reportedRate initial = initial at hsame
      omega
    · have hle : reportedRate initial + reportedRate initial / 100 ≤ r :=
        reportedRate_lost hi hlost h53 h79 hmem habove
      omega

/-- Two initial rates hide their successors. -/
theorem hidden_rates (b : Build) (con : Console) :
    (con.baud = addInitialBaudrate ⟨53, 0⟩ baudTable → con.uart = uart0Setbaud 56604 →
      (rotateBaudrate b con).uart = uart0Setbaud 115200) ∧
    (con.baud = addInitialBaudrate ⟨79, 0⟩ baudTable → con.uart = uart0Setbaud 37975 →
      (rotateBaudrate b con).uart = uart0Setbaud 57600) := by
  constructor
  · intro hbaud huart
    rw [rotateBaudrate_uart, hbaud, huart]
    decide
  · intro hbaud huart
    rw [rotateBaudrate_uart, hbaud, huart]
    decide

/-- **Turning the table visits every rate** in order, over and over, unless the registers
start with the whole divisor 53 or 79. -/
theorem rotation_visits_iff (b : Build) (u : Uart) (hi : 1 ≤ u.ibrd.toNat) :
    let initial : ℤ := uart0Getbaud u
    let table := addInitialBaudrate u baudTable
    let rates := table.takeWhile (0 < ·)
    (rates.Pairwise (· < ·) ∧ (∃ x rest, table = rates ++ x :: rest ∧ x < 0) ∧
        (∃ r ∈ rates, 100 * |r - initial| ≤ initial) ∧
        ∀ con : Console, con.baud = table → ∀ k, (hk : k < rates.length) →
          con.uart = uart0Setbaud (u32 rates[k]) → ∀ n,
            ((rotateBaudrate b)^[n] con).uart = uart0Setbaud (u32 (rates.getD ((k + n) % rates.length) (-1)))) ↔
      u ≠ ⟨53, 0⟩ ∧ u ≠ ⟨79, 0⟩ := by
  intro initial table rates
  obtain ⟨rates', rest, htable, hasc, hpos, hnear, hrot⟩ := addInitialBaudrate_spec hi
  change table = _ at htable
  have hrates : rates = rates' := by
    change table.takeWhile _ = _
    rw [htable, takeWhile_table hpos]
  rw [← hrates] at htable hasc hnear hrot
  constructor
  · rintro ⟨-, -, -, hturn⟩
    constructor
    · rintro rfl
      have hskip := (hidden_rates b ⟨.static fun _ => 0, uart0Setbaud 56604, table⟩).1 rfl rfl
      have hone := hturn ⟨.static fun _ => 0, uart0Setbaud 56604, table⟩ rfl 8 (by decide)
        (by decide) 1
      rw [Function.iterate_one, hskip] at hone
      exact absurd hone (by decide)
    · rintro rfl
      have hskip := (hidden_rates b ⟨.static fun _ => 0, uart0Setbaud 37975, table⟩).2 rfl rfl
      have hone := hturn ⟨.static fun _ => 0, uart0Setbaud 37975, table⟩ rfl 7 (by decide)
        (by decide) 1
      rw [Function.iterate_one, hskip] at hone
      exact absurd hone (by decide)
  · rintro ⟨h53, h79⟩
    refine ⟨hasc, ⟨-1, rest, htable, by decide⟩, hnear, ?_⟩
    intro con hbaud k hk huart n
    exact (hrot h53 h79).rotate_iterate hk b n (hbaud.trans htable) huart

/-- Three keys from 57600 Bd, with registers that start near 115200 Bd. -/
theorem rotation_visits_iff_115200 :
    let con := Console.mk (.static fun _ => 0) (uart0Setbaud 57600) (addInitialBaudrate ⟨26, 3⟩ baudTable)
    ((rotateBaudrate .shipped)^[3] con).uart = uart0Setbaud 300 := by
  intro con
  obtain ⟨-, -, -, hturn⟩ := (rotation_visits_iff .shipped ⟨26, 3⟩ (by decide)).mpr (by decide)
  have hthree := hturn con rfl 8 (by decide) (by decide) 3
  rw [hthree]
  decide

/-- With the divisor 53 the key behind 56604 Bd leaves 57600 Bd out. -/
theorem rotation_skips :
    let con := Console.mk (.static fun _ => 0) (uart0Setbaud 56604) (addInitialBaudrate ⟨53, 0⟩ baudTable)
    con.baud = [300, 600, 1200, 2400, 4800, 9600, 19200, 38400, 56604, 57600, 115200, 150000, -1] ∧
      (rotateBaudrate .shipped con).uart = uart0Setbaud 115200 ∧ uart0Setbaud 57600 ≠ uart0Setbaud 115200 := by
  intro con
  refine ⟨by decide, ?_, by decide⟩
  rw [rotateBaudrate_uart]
  decide

end Pigfx
