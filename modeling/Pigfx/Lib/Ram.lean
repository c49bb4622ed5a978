import Mathlib.Data.List.GetD
import Pigfx.Lib.Memory

/-!
# A memory under addresses of thirty-two bits

The memory that a processor of thirty-two bits sees.  Addresses wrap around, so a piece of memory is
an address and a length, and a byte is in it if its distance from the address is below the
length.

A stack grows downwards: what a routine may overwrite on its own is the piece of a given depth
below its stack pointer.

## Main definitions

* `Ram.put`, `Ram.word`, `Ram.putWords`, `Ram.words` — bytes and words from an address on.
* `Inside` — the byte is in the piece, `Below` — it is on the stack.
* `CString` — a string and its zero.
-/

namespace Pigfx.Lib

abbrev Ram := Word → Byte

/-! ## Pieces -/

/-- The byte at `x` is one of the `n` bytes from `a` on. -/
def Inside (a : Word) (n : ℕ) (x : Word) : Prop := (x - a).toNat < n

instance (a : Word) (n : ℕ) (x : Word) : Decidable (Inside a n x) := inferInstanceAs (Decidable (_ < _))

/-- The byte at `x` is one of the `d` bytes below `sp`. -/
def Below (d : ℕ) (sp x : Word) : Prop := (sp - 1 - x).toNat < d

theorem toNat_offset {a : Word} {k : ℕ} (hk : k < 2 ^ 32) : (a + BitVec.ofNat 32 k - a).toNat = k := by
  rw [BitVec.add_comm, BitVec.add_sub_cancel, BitVec.toNat_ofNat, Nat.mod_eq_of_lt hk]

/-- The bytes inside are the address and those after it. -/
theorem inside_iff {a x : Word} {n : ℕ} : Inside a n x ↔ ∃ k < n, x = a + BitVec.ofNat 32 k := by
  constructor
  · intro h
    refine ⟨(x - a).toNat, h, ?_⟩
    rw [BitVec.ofNat_toNat, BitVec.setWidth_eq, BitVec.add_comm, BitVec.sub_add_cancel]
  · rintro ⟨k, hk, rfl⟩
    rw [Inside, BitVec.add_comm, BitVec.add_sub_cancel, BitVec.toNat_ofNat]
    omega

/-- What lies below after a push lay below before it. -/
theorem Below.of_sub {d k : ℕ} {sp x : Word} (h : Below d (sp - BitVec.ofNat 32 k) x) (hk : k < 2 ^ 32) :
    Below (k + d) sp x := by
  unfold Below at *
  bv_omega

/-- What is pushed lies below. -/
theorem Below.of_inside {k : ℕ} {sp x : Word} (h : Inside (sp - BitVec.ofNat 32 k) k x) : Below k sp x := by
  unfold Below Inside at *
  bv_omega

/-- What is pushed does not lie below the new stack pointer. -/
theorem Below.not_inside {d k : ℕ} {sp x : Word} (h : Below d (sp - BitVec.ofNat 32 k) x) (hk : k + d < 2 ^ 32) :
    ¬Inside (sp - BitVec.ofNat 32 k) k x := by
  unfold Below Inside at *
  bv_omega

theorem Below.mono {d d' : ℕ} {sp x : Word} (h : Below d sp x) (hd : d ≤ d') : Below d' sp x := h.trans_le hd

/-! ## Contents -/

/-- The bytes of a word, least significant first. -/
def bytesOf (w : Word) : List Byte := [byteOf 0 w, byteOf 1 w, byteOf 2 w, byteOf 3 w]

namespace Ram

/-- The bytes are stored from `a` on. -/
def put (a : Word) (bs : List Byte) (m : Ram) : Ram := fun x => bs.getD (x - a).toNat (m x)

/-- The word at an address. -/
def word (a : Word) (m : Ram) : Word := wordOf fun k => m (a + BitVec.ofNat 32 k)

/-- The words are stored from `a` on. -/
def putWords : Word → List Word → Ram → Ram
  | _, [], m => m
  | a, w :: ws, m => (putWords (a + 4) ws m).put a (bytesOf w)

/-- The `n` words from `a` on. -/
def words : Word → ℕ → Ram → List Word
  | _, 0, _ => []
  | a, n + 1, m => m.word a :: words (a + 4) n m

variable {a x : Word} {bs : List Byte} {ws : List Word} {m m' : Ram}

theorem put_outside (h : ¬Inside a bs.length x) : m.put a bs x = m x := by
  rw [put, List.getD_eq_default _ _ (Nat.le_of_not_lt h)]

theorem put_at {k : ℕ} (hk : k < bs.length) (hlen : bs.length ≤ 2 ^ 32) :
    m.put a bs (a + BitVec.ofNat 32 k) = bs[k] := by
  rw [put, toNat_offset (hk.trans_le hlen), List.getD_eq_getElem]

theorem put_self (a : Word) (b : Byte) (m : Ram) : m.put a [b] a = b := by
  rw [put, BitVec.sub_self]
  rfl

theorem put_ne {b : Byte} (h : x ≠ a) : m.put a [b] x = m x := by
  refine put_outside fun hin => h ?_
  rw [Inside, List.length_singleton] at hin
  bv_omega

/-- The bytes one after another. -/
theorem put_cons (a : Word) (b : Byte) (bs : List Byte) (m : Ram) (hlen : bs.length + 1 < 2 ^ 32) :
    m.put a (b :: bs) = (m.put a [b]).put (a + 1) bs := by
  funext x
  by_cases hx : x = a
  · have hfar : bs.length ≤ (x - (a + 1)).toNat := by bv_omega
    subst hx
    simp only [put, BitVec.sub_self]
    rw [List.getD_eq_default _ _ hfar]
    rfl
  · obtain ⟨k, hk⟩ : ∃ k, (x - a).toNat = k + 1 := ⟨(x - a).toNat - 1, by bv_omega⟩
    have hrest : (x - (a + 1)).toNat = k := by bv_omega
    simp only [put, hk, hrest]
    rfl

theorem put_append (a : Word) (bs bs' : List Byte) (m : Ram) (hlen : (bs ++ bs').length < 2 ^ 32) :
    m.put a (bs ++ bs') = (m.put a bs).put (a + BitVec.ofNat 32 bs.length) bs' := by
  induction bs generalizing a m with
  | nil =>
      have hnil : m.put a [] = m := by
        funext x
        rfl
      simp [hnil]
  | cons b bs ih =>
      rw [List.cons_append, List.length_cons, List.length_append] at hlen
      have hnext : a + 1 + BitVec.ofNat 32 bs.length = a + BitVec.ofNat 32 (b :: bs).length := by
        rw [List.length_cons]
        bv_omega
      rw [List.cons_append, put_cons _ _ _ _ (by rw [List.length_append]; omega), put_cons _ _ bs _ (by omega),
        ih _ _ (by rw [List.length_append]; omega), hnext]

theorem put_congr (h : m x = m' x) : m.put a bs x = m'.put a bs x := by rw [put, put, h]

theorem word_congr (h : ∀ k < 4, m (a + BitVec.ofNat 32 k) = m' (a + BitVec.ofNat 32 k)) : m.word a = m'.word a :=
  wordOf_congr h

theorem word_put_bytesOf (a w : Word) (m : Ram) : (m.put a (bytesOf w)).word a = w := by
  refine Eq.trans (wordOf_congr fun k hk => ?_) (wordOf_byteOf w)
  have hlen : (bytesOf w).length = 4 := rfl
  rw [put_at (by omega) (by omega)]
  interval_cases k <;> rfl

/-- The words after the first. -/
theorem inside_tail {n : ℕ} (h : Inside (a + 4) (4 * n) x) (hn : 4 * (n + 1) ≤ 2 ^ 32) :
    Inside a (4 * (n + 1)) x ∧ ¬Inside a 4 x := by
  unfold Inside at *
  bv_omega

theorem putWords_outside (h : ¬Inside a (4 * ws.length) x) (hlen : 4 * ws.length ≤ 2 ^ 32) :
    m.putWords a ws x = m x := by
  induction ws generalizing a with
  | nil => rfl
  | cons w ws ih =>
      have hfirst : ¬Inside a (bytesOf w).length x := by
        intro hin
        exact h (lt_of_lt_of_le hin (by simp [bytesOf]))
      have hrest : ¬Inside (a + 4) (4 * ws.length) x := fun hin => h (inside_tail hin hlen).1
      rw [putWords, put_outside hfirst, ih hrest (by rw [List.length_cons] at hlen; omega)]

theorem words_congr {n : ℕ} (hn : 4 * n ≤ 2 ^ 32) (h : ∀ x, Inside a (4 * n) x → m x = m' x) :
    m.words a n = m'.words a n := by
  induction n generalizing a with
  | zero => rfl
  | succ n ih =>
      have hfirst : m.word a = m'.word a := word_congr fun k hk => h _ (inside_iff.mpr ⟨k, by omega, rfl⟩)
      have hrest := ih (a := a + 4) (by omega) fun x hx => h x (inside_tail hx hn).1
      rw [words, words, hfirst, hrest]

/-- **What is stored is read back.** -/
theorem words_putWords (a : Word) (ws : List Word) (m : Ram) (hlen : 4 * ws.length ≤ 2 ^ 32) :
    (m.putWords a ws).words a ws.length = ws := by
  induction ws generalizing a m with
  | nil => rfl
  | cons w ws ih =>
      have hsmall : 4 * ws.length ≤ 2 ^ 32 := by
        rw [List.length_cons] at hlen
        omega
      have hrest : (m.putWords a (w :: ws)).words (a + 4) ws.length = (m.putWords (a + 4) ws).words (a + 4) ws.length :=
        words_congr hsmall fun x hx => put_outside (inside_tail hx hlen).2
      rw [List.length_cons, words, hrest, ih _ _ hsmall, putWords, word_put_bytesOf]

end Ram

/-! ## Strings -/

/-- The string at `a`, with the zero behind it. -/
def CString (m : Ram) : Word → List Byte → Prop
  | a, [] => m a = 0
  | a, ch :: str => m a = ch ∧ ch ≠ 0 ∧ CString m (a + 1) str

theorem CString.head {m : Ram} {a : Word} {str : List Byte} (h : CString m a str) : m a = str.headD 0 := by
  cases str with
  | nil => exact h
  | cons ch str => exact h.1

theorem CString.nonzero {m : Ram} {a : Word} {str : List Byte} (h : CString m a str) : ∀ ch ∈ str, ch ≠ 0 := by
  induction str generalizing a with
  | nil => simp
  | cons ch str ih => exact List.forall_mem_cons.mpr ⟨h.2.1, ih h.2.2⟩

theorem CString.bytes {m : Ram} {a : Word} {str : List Byte} (h : CString m a str) :
    ∀ k ch, str[k]? = some ch → m (a + BitVec.ofNat 32 k) = ch := by
  induction str generalizing a with
  | nil => simp
  | cons ch str ih =>
      intro k ch' hk
      cases k with
      | zero => simpa [h.1] using hk
      | succ k =>
          have hnext : a + BitVec.ofNat 32 (k + 1) = a + 1 + BitVec.ofNat 32 k := by bv_omega
          rw [hnext]
          exact ih h.2.2 k ch' hk

theorem CString.congr {m m' : Ram} {a : Word} {str : List Byte} (h : CString m a str)
    (hmem : ∀ x, Inside a (str.length + 1) x → m' x = m x) (hlen : str.length < 2 ^ 32) : CString m' a str := by
  induction str generalizing a with
  | nil => exact (hmem a (inside_iff.mpr ⟨0, by simp, by simp⟩)).trans h
  | cons ch str ih =>
      have hfirst : Inside a ((ch :: str).length + 1) a := inside_iff.mpr ⟨0, by simp, by simp⟩
      refine ⟨(hmem a hfirst).trans h.1, h.2.1, ih h.2.2 (fun x hx => hmem x ?_) ?_⟩
      · rw [List.length_cons] at hlen ⊢
        unfold Inside at *
        bv_omega
      · rw [List.length_cons] at hlen
        omega

end Pigfx.Lib
