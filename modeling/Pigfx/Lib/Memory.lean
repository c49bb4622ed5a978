import Pigfx.Lib.Loop
import Mathlib.Data.Int.Notation
import Mathlib.Data.Set.Insert
import Mathlib.Tactic.IntervalCases
import Mathlib.Tactic.Linarith
import Mathlib.Tactic.Ring

/-!
# A traced byte memory

A flat byte memory that records what is done to it.  Words are four bytes, least
significant first.  Every access of the processor and of a transfer engine leaves
an event, so that one execution answers both questions a proof asks: what the
memory holds afterwards, and which addresses were touched on the way.

## Main definitions

* `byteOf`, `wordOf` — a word and its bytes.
* `Event`, `Bus` — memory contents with the trace of accesses.
* `Bus.put8`, `Bus.put32`, `Bus.note` — single accesses.
* `Bus.putAll` — one value at a list of addresses.
* `Stores` — an operation leaves given values in a set of addresses and nothing else behind.
-/

namespace Pigfx.Lib

abbrev Byte := BitVec 8
abbrev Word := BitVec 32

/-! ## Words and bytes -/

/-- Byte `k` of a word, counted from the least significant. -/
def byteOf (k : ℕ) (w : Word) : Byte := w.extractLsb' (8 * k) 8

/-- The word with the given bytes, least significant first. -/
def wordOf (b : ℕ → Byte) : Word := b 3 ++ b 2 ++ b 1 ++ b 0

theorem toNat_wordOf (b : ℕ → Byte) :
    (wordOf b).toNat =
      (b 0).toNat + 2 ^ 8 * (b 1).toNat + 2 ^ 16 * (b 2).toNat + 2 ^ 24 * (b 3).toNat := by
  have h0 := (b 0).isLt; have h1 := (b 1).isLt; have h2 := (b 2).isLt
  simp only [wordOf, BitVec.toNat_append]
  rw [← Nat.shiftLeft_add_eq_or_of_lt h2, ← Nat.shiftLeft_add_eq_or_of_lt h1,
    ← Nat.shiftLeft_add_eq_or_of_lt h0]
  simp only [Nat.shiftLeft_eq]
  ring

theorem toNat_byteOf (k : ℕ) (w : Word) : (byteOf k w).toNat = w.toNat / 2 ^ (8 * k) % 2 ^ 8 := by
  simp [byteOf, Nat.shiftRight_eq_div_pow]

@[simp] theorem byteOf_wordOf (b : ℕ → Byte) (k : ℕ) (hk : k < 4) : byteOf k (wordOf b) = b k := by
  apply BitVec.eq_of_toNat_eq
  rw [toNat_byteOf, toNat_wordOf]
  have h0 := (b 0).isLt; have h1 := (b 1).isLt
  have h2 := (b 2).isLt; have h3 := (b 3).isLt
  interval_cases k <;> simp only [Nat.reduceMul, Nat.reducePow] <;> omega

@[simp] theorem wordOf_byteOf (w : Word) : wordOf (fun k => byteOf k w) = w := by
  apply BitVec.eq_of_toNat_eq
  have hw := w.isLt
  simp only [toNat_wordOf, toNat_byteOf, Nat.reduceMul, Nat.reducePow]
  omega

theorem wordOf_congr {b c : ℕ → Byte} (h : ∀ k < 4, b k = c k) : wordOf b = wordOf c := by
  simp only [wordOf, h 0 (by omega), h 1 (by omega), h 2 (by omega), h 3 (by omega)]

theorem byteOf_and (k : ℕ) (v w : Word) : byteOf k (v &&& w) = byteOf k v &&& byteOf k w := by
  simp [byteOf, BitVec.extractLsb'_and]

theorem byteOf_or (k : ℕ) (v w : Word) : byteOf k (v ||| w) = byteOf k v ||| byteOf k w := by
  simp [byteOf, BitVec.extractLsb'_or]

theorem byteOf_not (k : ℕ) (hk : k < 4) (w : Word) : byteOf k (~~~w) = ~~~byteOf k w := by
  ext i hi
  have h : 8 * k + i < 32 := by omega
  simp [byteOf, h]

/-! ## The bus -/

/-- What can be observed on the bus: accesses of the processor and of the transfer
engine to `n` bytes from `a` on, and the three moments of a transfer — a
descriptor or source word is prepared, the engine is started, the engine is seen
to be idle. -/
inductive Event
  | cpuRead (a : ℤ) (n : ℕ)
  | cpuWrite (a : ℤ) (n : ℕ)
  | dmaRead (a : ℤ) (n : ℕ)
  | dmaWrite (a : ℤ) (n : ℕ)
  | dmaSetup
  | dmaStart
  | dmaIdle
  deriving DecidableEq, Repr

/-- Memory contents and the events so far, oldest first. -/
structure Bus where
  data : ℤ → Byte
  trace : List Event

namespace Bus

/-- Record an event. -/
def note (e : Event) (m : Bus) : Bus := { m with trace := m.trace ++ [e] }

/-- The word at an address. -/
def word (m : Bus) (a : ℤ) : Word := wordOf fun k => m.data (a + k)

/-- Write one byte. -/
def put8 (a : ℤ) (v : Byte) (m : Bus) : Bus :=
  { data := fun x => if x = a then v else m.data x, trace := m.trace ++ [.cpuWrite a 1] }

/-- Write one word. -/
def put32 (a : ℤ) (w : Word) (m : Bus) : Bus :=
  { data := fun x => if a ≤ x ∧ x < a + 4 then byteOf (x - a).toNat w else m.data x
    trace := m.trace ++ [.cpuWrite a 4] }

@[simp] theorem data_note (e : Event) (m : Bus) : (m.note e).data = m.data := rfl
@[simp] theorem trace_note (e : Event) (m : Bus) : (m.note e).trace = m.trace ++ [e] := rfl
@[simp] theorem trace_put8 (a : ℤ) (v : Byte) (m : Bus) :
    (m.put8 a v).trace = m.trace ++ [.cpuWrite a 1] := rfl

theorem data_put8 (a : ℤ) (v : Byte) (m : Bus) (x : ℤ) :
    (m.put8 a v).data x = if x = a then v else m.data x := rfl

theorem data_put32_in (a : ℤ) (w : Word) (m : Bus) (k : ℕ) (hk : k < 4) :
    (m.put32 a w).data (a + k) = byteOf k w := by
  have h : a ≤ a + (k : ℤ) ∧ a + (k : ℤ) < a + 4 := by omega
  simp only [put32, if_pos h]
  congr 1
  omega

theorem data_put32_out (a : ℤ) (w : Word) (m : Bus) (x : ℤ) (hx : x < a ∨ a + 4 ≤ x) :
    (m.put32 a w).data x = m.data x := by
  have h : ¬(a ≤ x ∧ x < a + 4) := by omega
  simp only [put32, if_neg h]

@[simp] theorem word_put32 (a : ℤ) (w : Word) (m : Bus) : (m.put32 a w).word a = w := by
  rw [word, wordOf_congr fun k hk => data_put32_in a w m k hk, wordOf_byteOf]

theorem word_put32_ne (a b : ℤ) (w : Word) (m : Bus) (h : b + 4 ≤ a ∨ a + 4 ≤ b) :
    (m.put32 a w).word b = m.word b :=
  wordOf_congr fun k hk => data_put32_out a w m _ (by omega)

/-- The word at an address depends on four bytes. -/
theorem word_congr {m n : Bus} {a : ℤ} (h : ∀ k < 4, m.data (a + (k : ℕ)) = n.data (a + (k : ℕ))) :
    m.word a = n.word a := wordOf_congr h

@[simp] theorem byteOf_word (m : Bus) (a : ℤ) (k : ℕ) (hk : k < 4) :
    byteOf k (m.word a) = m.data (a + k) := byteOf_wordOf _ k hk

/-! ### One value at many addresses -/

/-- Write one byte value at each address of a list, in order. -/
def putAll (as : List ℤ) (v : Byte) (m : Bus) : Bus := as.foldl (fun m a => m.put8 a v) m

@[simp] theorem putAll_nil (v : Byte) (m : Bus) : m.putAll [] v = m := rfl

@[simp] theorem putAll_cons (a : ℤ) (as : List ℤ) (v : Byte) (m : Bus) :
    m.putAll (a :: as) v = (m.put8 a v).putAll as v := rfl

theorem trace_putAll (as : List ℤ) (v : Byte) (m : Bus) :
    (m.putAll as v).trace = m.trace ++ as.map fun a => .cpuWrite a 1 := by
  induction as generalizing m with
  | nil => simp
  | cons a as ih => simp [ih]

theorem data_putAll (as : List ℤ) (v : Byte) (m : Bus) (x : ℤ) :
    (m.putAll as v).data x = if x ∈ as then v else m.data x := by
  induction as generalizing m with
  | nil => simp
  | cons a as ih =>
    rw [putAll_cons, ih, data_put8]
    simp only [List.mem_cons]
    by_cases hx : x = a <;> by_cases hmem : x ∈ as <;> simp [hx, hmem]

end Bus

/-! ## Storing operations -/

/-- The operation leaves the values `d` at the addresses of the set and changes nothing
else. -/
def Stores (f : Bus → Bus) (A : Set ℤ) (d : ℤ → Byte) : Prop :=
  ∀ (m : Bus) (a : ℤ), (a ∈ A → (f m).data a = d a) ∧ (a ∉ A → (f m).data a = m.data a)

theorem stores_put8 {a : ℤ} {v : Byte} {d : ℤ → Byte} (h : d a = v) : Stores (Bus.put8 a v) {a} d := by
  intro m x
  rw [Bus.data_put8]
  constructor
  · intro hx
    rw [Set.mem_singleton_iff] at hx
    rw [if_pos hx, hx, h]
  · intro hx
    exact if_neg hx

namespace Stores

variable {f g : Bus → Bus} {A B : Set ℤ} {d : ℤ → Byte}

theorem congr (h : Stores f A d) (hAB : A = B) : Stores f B d := hAB ▸ h

/-- One after the other stores in both sets. -/
theorem comp (hf : Stores f A d) (hg : Stores g B d) : Stores (fun m => g (f m)) (A ∪ B) d := by
  intro m a
  have hfm := hf m a
  have hgm := hg (f m) a
  constructor
  · rintro (hA | hB)
    · by_cases hB : a ∈ B
      · exact hgm.1 hB
      · rw [hgm.2 hB, hfm.1 hA]
    · exact hgm.1 hB
  · intro h
    rw [Set.mem_union, not_or] at h
    rw [hgm.2 h.2, hfm.2 h.1]

/-- A loop of stores. -/
theorem iterate {n : ℕ} {f : ℕ → Bus → Bus} {A : ℕ → Set ℤ} (h : ∀ i < n, Stores (f i) (A i) d) :
    Stores (iterate n f) {a | ∃ i < n, a ∈ A i} d := by
  induction n with
  | zero =>
    intro m a
    constructor
    · rintro ⟨i, hi, -⟩
      omega
    · intro _
      rfl
  | succ n ih =>
    have hboth := (ih fun i hi => h i (by omega)).comp (h n (by omega))
    refine hboth.congr ?_
    ext a
    constructor
    · rintro (⟨i, hi, ha⟩ | ha)
      · exact ⟨i, by omega, ha⟩
      · exact ⟨n, by omega, ha⟩
    · rintro ⟨i, hi, ha⟩
      rcases Nat.lt_succ_iff_lt_or_eq.mp hi with hlt | rfl
      · exact Or.inl ⟨i, hlt, ha⟩
      · exact Or.inr ha

/-- What is stored determines the contents. -/
theorem unique (hf : Stores f A d) (hg : Stores g A d) (m : Bus) : (f m).data = (g m).data := by
  ext1 a
  by_cases h : a ∈ A
  · rw [(hf m a).1 h, (hg m a).1 h]
  · rw [(hf m a).2 h, (hg m a).2 h]

/-- An operation stores one value in one set only. -/
theorem eq {v : Byte} (hf : Stores f A fun _ => v) (hf' : Stores f B fun _ => v) : A = B := by
  have hne : v + 1 ≠ v := by
    intro h
    simp at h
  -- contents that differ from the value everywhere show the set
  have hmem : ∀ {C : Set ℤ}, Stores f C (fun _ => v) →
      ∀ a, a ∈ C ↔ (f ⟨fun _ => v + 1, []⟩).data a = v := by
    intro C hC a
    constructor
    · exact (hC _ a).1
    · intro ha
      by_contra hout
      rw [(hC _ a).2 hout] at ha
      exact hne ha
  ext a
  rw [hmem hf, hmem hf']

end Stores
end Pigfx.Lib
