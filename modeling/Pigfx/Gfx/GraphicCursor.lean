import Pigfx.Gfx.Line

/-!
# The graphic cursor

`gfx_place_graphic_cursor` saves the rectangle around a pixel in `gc_rect` and draws a cross
through the pixel; `gfx_remove_graphic_cursor` writes the rectangle back.  Both are clipped at
the left and the upper edge of the screen and at the largest device coordinate, but not at
the right and the lower edge.

## Main definitions

* `gcStart`, `gcEnd` — the first and the last column, or row, of the rectangle.
* `rowArm`, `columnArm`, `gcPixels` — the pixels of the cross and of the rectangle.
* `CursorReversible` — the cross stays on the screen and can be taken back.
* `gfxPlaceGraphicCursor_iff` — the positions at which it does.
-/

namespace Pigfx
open Lib

/-! ## The extent of the rectangle -/

def gcStart (x : ℤ) : ℤ := max (x - GSX_GC_ARMLNG) 0

def gcEnd (x : ℤ) : ℤ := min (x + GSX_GC_ARMLNG) GSX_MAX_NDC

/-- `gc_w` and `gc_h`, which are not positive where nothing is left of the rectangle. -/
def gcSize (x : ℤ) : ℤ := gcEnd x + 1 - gcStart x

/-- The number of rows and of columns of the rectangle. -/
def gcExtent (x : ℤ) : ℕ := (gcSize x).toNat

section
variable (x : ℤ)

theorem gcStart_eq : gcStart x = max (x - 10) 0 := rfl

theorem gcEnd_eq : gcEnd x = min (x + 10) 32767 := rfl

theorem gcExtent_le : gcExtent x ≤ 21 := by
  simp only [gcExtent, gcSize, gcStart_eq, gcEnd_eq]
  omega

end

theorem graphicCursorSpan_eq {x : ℤ} (hx : 0 ≤ x) :
    graphicCursorSpan x = (gcStart x, gcSize x) := by
  simp only [graphicCursorSpan, gcSize, gcStart_eq, gcEnd_eq, GSX_GC_W, GSX_GC_ARMLNG, GSX_MAX_NDC]
  by_cases hneg : x - 10 < 0
  · have hfit : ¬(0 + (2 * 10 + 1 + (x - 10)) > (32767 : ℤ)) := by omega
    rw [if_pos hneg]
    simp only [if_neg hfit]
    ext
    · simp only
      omega
    · simp only
      omega
  · rw [if_neg hneg]
    ext
    · simp only
      omega
    · simp only
      split <;> omega

/-! ## Reading and writing the rectangle -/

section
variable (c : Ctx) (ulx uly w h : ℤ)

/-- The address of a byte of a rectangle. -/
def rectAddr (j i : ℕ) : ℤ := c.PFB ulx (uly + j) + i

/-- The addresses of a rectangle. -/
def rectArea : Set ℤ := {a | ∃ j < h.toNat, ∃ i < w.toNat, a = rectAddr c ulx uly j i}

/-- One turn of the inner loop of `gfx_read_rect`. -/
def readCell (j i : ℕ) (p : Pix) : Pix :=
  { p with
    bus := p.bus.note (.cpuRead (rectAddr c ulx uly j i) 1)
    gcRect := fun k =>
      if k = j * w.toNat + i then p.bus.data (rectAddr c ulx uly j i) else p.gcRect k }

theorem gfxReadRect_eq (p : Pix) :
    gfxReadRect c ulx uly w h p =
      iterate h.toNat (fun j => iterate w.toNat (readCell c ulx uly w j)) p := rfl

/-- A row of the rectangle is copied to its place in the array. -/
theorem readRow (j n : ℕ) (p : Pix) :
    (iterate n (readCell c ulx uly w j) p).bus.data = p.bus.data ∧
      (∀ i < n, (iterate n (readCell c ulx uly w j) p).gcRect (j * w.toNat + i) =
        p.bus.data (rectAddr c ulx uly j i)) ∧
      ∀ k, k < j * w.toNat ∨ j * w.toNat + n ≤ k →
        (iterate n (readCell c ulx uly w j) p).gcRect k = p.gcRect k := by
  induction n with
  | zero => simp
  | succ n ih =>
    obtain ⟨hdata, hrow, hrest⟩ := ih
    simp only [iterate_succ, readCell, Bus.data_note]
    refine ⟨hdata, ?_, ?_⟩
    · intro i hi
      rcases Nat.lt_succ_iff_lt_or_eq.mp hi with hlt | rfl
      · have hne : j * w.toNat + i ≠ j * w.toNat + n := by omega
        rw [if_neg hne, hrow i hlt]
      · rw [if_pos rfl, hdata]
    · intro k hk
      have hne : k ≠ j * w.toNat + n := by omega
      rw [if_neg hne, hrest k (by omega)]

/-- **`gfx_read_rect` copies the rectangle to the front of the array.** -/
theorem gfxReadRect_spec (p : Pix) :
    (gfxReadRect c ulx uly w h p).bus.data = p.bus.data ∧
      (∀ j < h.toNat, ∀ i < w.toNat, (gfxReadRect c ulx uly w h p).gcRect (j * w.toNat + i) =
        p.bus.data (rectAddr c ulx uly j i)) ∧
      ∀ k, h.toNat * w.toNat ≤ k → (gfxReadRect c ulx uly w h p).gcRect k = p.gcRect k := by
  rw [gfxReadRect_eq]
  induction h.toNat with
  | zero => simp
  | succ n ih =>
    obtain ⟨hdata, hrows, hrest⟩ := ih
    have hrow := readRow c ulx uly w n w.toNat
      (iterate n (fun j => iterate w.toNat (readCell c ulx uly w j)) p)
    obtain ⟨hdata', hrow, hothers⟩ := hrow
    rw [iterate_succ]
    refine ⟨hdata'.trans hdata, ?_, ?_⟩
    · intro j hj i hi
      rcases Nat.lt_succ_iff_lt_or_eq.mp hj with hlt | rfl
      · have hbefore : j * w.toNat + i < n * w.toNat := by
          have hnext : (j + 1) * w.toNat ≤ n * w.toNat := Nat.mul_le_mul_right _ hlt
          rw [Nat.add_mul, Nat.one_mul] at hnext
          omega
        rw [hothers _ (Or.inl hbefore), hrows j hlt i hi]
      · rw [hrow i hi, hdata]
    · intro k hk
      rw [Nat.add_mul, Nat.one_mul] at hk
      rw [hothers k (Or.inr hk), hrest k (by omega)]

/-- **`gfx_write_rect` stores the array in the rectangle.** -/
theorem stores_gfxWriteRect (p : Pix) {d : ℤ → Byte}
    (hd : ∀ j < h.toNat, ∀ i < w.toNat, d (rectAddr c ulx uly j i) = p.gcRect (j * w.toNat + i)) :
    Stores (fun m => (gfxWriteRect c ulx uly w h { p with bus := m }).bus)
      (rectArea c ulx uly w h) d := by
  have hrows : Stores (iterate h.toNat fun j => iterate w.toNat fun i =>
        Bus.put8 (rectAddr c ulx uly j i) (p.gcRect (j * w.toNat + i)))
      (rectArea c ulx uly w h) d := by
    apply Stores.iterate
    intro j hj
    exact Stores.iterate fun i hi => stores_put8 (hd j hj i hi)
  exact hrows

/-- `gfx_write_rect` reads the front of the array only. -/
theorem gfxWriteRect_congr {p q : Pix} (hbus : p.bus = q.bus)
    (hd : ∀ k < h.toNat * w.toNat, p.gcRect k = q.gcRect k) :
    (gfxWriteRect c ulx uly w h p).bus = (gfxWriteRect c ulx uly w h q).bus := by
  simp only [gfxWriteRect, hbus]
  apply iterate_congr
  intro j m hj
  apply iterate_congr
  intro i m hi
  have hlt : j * w.toNat + i < h.toNat * w.toNat := by
    have hnext : (j + 1) * w.toNat ≤ h.toNat * w.toNat := Nat.mul_le_mul_right _ hj
    rw [Nat.add_mul, Nat.one_mul] at hnext
    omega
  rw [hd _ hlt]

end

/-! ## The cross -/

@[simp] theorem data_xorPixel (a : ℤ) (m : Bus) (x : ℤ) :
    (xorPixel a m).data x = if x = a then getXoredIndex (m.data a) else m.data x := rfl

/-- An arm of the cross changes its own pixels only. -/
theorem data_arm_of_notMem {n : ℕ} {p : ℕ → ℤ} {a : ℤ} (h : ∀ i < n, a ≠ p i) (m : Bus) :
    (iterate n (fun i => xorPixel (p i)) m).data a = m.data a := by
  induction n with
  | zero => rfl
  | succ n ih =>
    rw [iterate_succ, data_xorPixel, if_neg (h n (by omega))]
    exact ih fun i hi => h i (by omega)

/-- An arm changes each of its pixels once. -/
theorem data_arm {n : ℕ} {p : ℕ → ℤ} (hinj : Function.Injective p) {i : ℕ} (hi : i < n) (m : Bus) :
    (iterate n (fun i => xorPixel (p i)) m).data (p i) = getXoredIndex (m.data (p i)) := by
  induction n with
  | zero => omega
  | succ n ih =>
    rw [iterate_succ, data_xorPixel]
    rcases Nat.lt_succ_iff_lt_or_eq.mp hi with hlt | rfl
    · rw [if_neg fun heq => hlt.ne (hinj heq), ih hlt]
    · rw [if_pos rfl, data_arm_of_notMem]
      intro k hk heq
      exact hk.ne' (hinj heq)

/-! ## Placing and removing the cursor -/

/-- The horizontal arm of the cross at a pixel. -/
def rowArm (x y : ℤ) : Set Pixel := {p | (gcStart x ≤ p.1 ∧ p.1 ≤ gcEnd x) ∧ p.2 = y}

/-- The vertical arm of the cross at a pixel. -/
def columnArm (x y : ℤ) : Set Pixel := {p | p.1 = x ∧ gcStart y ≤ p.2 ∧ p.2 ≤ gcEnd y}

/-- The rectangle around a pixel. -/
def gcPixels (x y : ℤ) : Set Pixel :=
  {p | (gcStart x ≤ p.1 ∧ p.1 ≤ gcEnd x) ∧ gcStart y ≤ p.2 ∧ p.2 ≤ gcEnd y}

theorem mem_rowArm {x y : ℤ} {p : Pixel} :
    p ∈ rowArm x y ↔ (gcStart x ≤ p.1 ∧ p.1 ≤ gcEnd x) ∧ p.2 = y := Iff.rfl

theorem mem_columnArm {x y : ℤ} {p : Pixel} :
    p ∈ columnArm x y ↔ p.1 = x ∧ gcStart y ≤ p.2 ∧ p.2 ≤ gcEnd y := Iff.rfl

theorem mem_gcPixels {x y : ℤ} {p : Pixel} :
    p ∈ gcPixels x y ↔ (gcStart x ≤ p.1 ∧ p.1 ≤ gcEnd x) ∧ gcStart y ≤ p.2 ∧ p.2 ≤ gcEnd y :=
  Iff.rfl

/-- The cross that `gfx_place_graphic_cursor` draws. -/
def drawCross (c : Ctx) (x y : ℤ) (m : Bus) : Bus :=
  iterate (gcExtent y) (fun i => xorPixel (c.PFB x (gcStart y + i)))
    (iterate (gcExtent x) (fun i => xorPixel (c.PFB (gcStart x + i) y)) m)

section
variable {c : Ctx} {x y : ℤ}

theorem start_add_mem_rowArm {i : ℕ} (hi : i < gcExtent x) :
    (gcStart x + i, y) ∈ rowArm x y := by
  rw [mem_rowArm]
  simp only [gcExtent, gcSize] at hi
  omega

theorem start_add_mem_columnArm {i : ℕ} (hi : i < gcExtent y) :
    (x, gcStart y + i) ∈ columnArm x y := by
  rw [mem_columnArm]
  simp only [gcExtent, gcSize] at hi
  omega

theorem data_drawCross_of_notMem {a : ℤ} (hrow : a ∉ c.addr '' rowArm x y)
    (hcolumn : a ∉ c.addr '' columnArm x y) (m : Bus) : (drawCross c x y m).data a = m.data a := by
  rw [drawCross, data_arm_of_notMem, data_arm_of_notMem]
  · intro i hi heq
    exact hrow ⟨_, start_add_mem_rowArm hi, heq.symm⟩
  · intro i hi heq
    exact hcolumn ⟨_, start_add_mem_columnArm hi, heq.symm⟩

/-- An address of both arms is the address of the centre. -/
theorem addr_rowArm_columnArm (hP : 21 ≤ c.Pitch) {p q : Pixel} (hp : p ∈ rowArm x y)
    (hq : q ∈ columnArm x y) (h : c.addr p = c.addr q) : p = q := by
  apply c.addr_inj _ h
  rw [mem_rowArm, gcStart_eq, gcEnd_eq] at hp
  rw [mem_columnArm] at hq
  rw [abs_lt]
  omega

/-- A pixel of the row that is not in the column is changed once. -/
theorem data_drawCross_row (hP : 21 ≤ c.Pitch) {p : Pixel} (hp : p ∈ rowArm x y)
    (hne : p ∉ columnArm x y) (m : Bus) :
    (drawCross c x y m).data (c.addr p) = getXoredIndex (m.data (c.addr p)) := by
  have hpos : c.addr p = c.PFB (gcStart x + (p.1 - gcStart x).toNat) y := by
    rw [mem_rowArm] at hp
    simp only [Ctx.addr, Ctx.PFB]
    rw [hp.2]
    omega
  have hlt : (p.1 - gcStart x).toNat < gcExtent x := by
    rw [mem_rowArm] at hp
    rw [gcExtent, gcSize]
    omega
  have hinj : Function.Injective fun i : ℕ => c.PFB (gcStart x + i) y := by
    intro i j hij
    simp only [Ctx.PFB] at hij
    omega
  rw [drawCross, data_arm_of_notMem, hpos]
  · exact data_arm hinj hlt m
  · intro i hi heq
    have hq := start_add_mem_columnArm (x := x) hi
    exact hne (addr_rowArm_columnArm hP hp hq heq ▸ hq)

/-- A pixel of the column that is not in the row is changed once. -/
theorem data_drawCross_column (hP : 21 ≤ c.Pitch) {p : Pixel} (hp : p ∈ columnArm x y)
    (hne : p ∉ rowArm x y) (m : Bus) :
    (drawCross c x y m).data (c.addr p) = getXoredIndex (m.data (c.addr p)) := by
  have hpos : c.addr p = c.PFB x (gcStart y + (p.2 - gcStart y).toNat) := by
    rw [mem_columnArm] at hp
    rw [Int.toNat_of_nonneg (by omega), add_sub_cancel, ← hp.1]
    rfl
  have hlt : (p.2 - gcStart y).toNat < gcExtent y := by
    rw [mem_columnArm] at hp
    rw [gcExtent, gcSize]
    omega
  have hinj : Function.Injective fun i : ℕ => c.PFB x (gcStart y + i) := by
    intro i j hij
    have hnear : |x - x| < (c.Pitch : ℤ) := by
      rw [sub_self, abs_zero]
      omega
    have hpix := @Ctx.addr_inj c (x, gcStart y + i) (x, gcStart y + j) hnear hij
    simpa using hpix
  have hrow : (iterate (gcExtent x) (fun i => xorPixel (c.PFB (gcStart x + i) y)) m).data
      (c.addr p) = m.data (c.addr p) := by
    apply data_arm_of_notMem
    intro i hi heq
    have hq := start_add_mem_rowArm (y := y) hi
    exact hne (addr_rowArm_columnArm hP hq hp heq.symm ▸ hq)
  rw [drawCross, ← hrow, hpos]
  exact data_arm hinj hlt _

/-! ### The two operations -/

/-- The rectangle, as `gfx_place_graphic_cursor` passes it on. -/
def savedPix (x y : ℤ) (g : Gfx) : Pix :=
  gfxReadRect g.ctx (gcStart x) (gcStart y) (gcSize x) (gcSize y) g.pix

theorem gfxPlaceGraphicCursor_eq (hx : 0 ≤ x) (hy : 0 ≤ y) (g : Gfx) :
    gfxPlaceGraphicCursor x y g = { g with
      gsx := { g.gsx with
        gcUlx := gcStart x
        gcUly := gcStart y
        gcW := gcSize x
        gcH := gcSize y }
      pix := { savedPix x y g with bus := drawCross g.ctx x y (savedPix x y g).bus } } := by
  rw [gfxPlaceGraphicCursor, graphicCursorSpan_eq hx, graphicCursorSpan_eq hy]
  rfl

theorem gfxRemoveGraphicCursor_bus (hx : 0 ≤ x) (hy : 0 ≤ y) (g : Gfx) (p : Pix) :
    (gfxRemoveGraphicCursor { gfxPlaceGraphicCursor x y g with pix := p }).pix.bus =
      (gfxWriteRect g.ctx (gcStart x) (gcStart y) (gcSize x) (gcSize y) p).bus := by
  rw [gfxPlaceGraphicCursor_eq hx hy]
  rfl

/-- What is written back is the rectangle. -/
theorem rectArea_eq :
    rectArea c (gcStart x) (gcStart y) (gcSize x) (gcSize y) = c.addr '' gcPixels x y := by
  ext a
  constructor
  · rintro ⟨j, hj, i, hi, rfl⟩
    rw [gcSize] at hj hi
    refine ⟨(gcStart x + i, gcStart y + j), ?_, ?_⟩
    · rw [mem_gcPixels]
      omega
    · simp only [Ctx.addr, Ctx.PFB, rectAddr]
      ring
  · rintro ⟨p, hp, rfl⟩
    rw [mem_gcPixels] at hp
    have hj : (p.2 - gcStart y).toNat < (gcSize y).toNat := by
      rw [gcSize]
      omega
    have hi : (p.1 - gcStart x).toNat < (gcSize x).toNat := by
      rw [gcSize]
      omega
    refine ⟨_, hj, _, hi, ?_⟩
    rw [rectAddr, Int.toNat_of_nonneg (by omega), Int.toNat_of_nonneg (by omega)]
    simp only [Ctx.addr, Ctx.PFB]
    ring

end

/-! ## Where the cursor can be taken back -/

/-- Placing the cursor at a pixel changes pixels of the screen only and uses `gc_rect` within
its bounds, and removing it restores the frame buffer. -/
structure CursorReversible (x y : ℤ) (g : Gfx) : Prop where
  onScreen : ∀ a, (gfxPlaceGraphicCursor x y g).pix.bus.data a ≠ g.pix.bus.data a →
    ∃ p, g.ctx.OnScreen p ∧ g.ctx.addr p = a
  writes : ∀ k : ℕ, GSX_GC_W * GSX_GC_W ≤ k →
    (gfxPlaceGraphicCursor x y g).pix.gcRect k = g.pix.gcRect k
  reads : ∀ p : Pix, p.bus = (gfxPlaceGraphicCursor x y g).pix.bus →
    (∀ k : ℕ, k < GSX_GC_W * GSX_GC_W → p.gcRect k = (gfxPlaceGraphicCursor x y g).pix.gcRect k) →
    (gfxRemoveGraphicCursor { gfxPlaceGraphicCursor x y g with pix := p }).pix.bus =
      (gfxRemoveGraphicCursor (gfxPlaceGraphicCursor x y g)).pix.bus
  restores : (gfxRemoveGraphicCursor (gfxPlaceGraphicCursor x y g)).pix.bus.data = g.pix.bus.data

/-- The pixels of the cross without its centre, where the arms meet. -/
def crossRim (x y : ℤ) : Set Pixel :=
  {p | (p ∈ rowArm x y ∧ p ∉ columnArm x y) ∨ (p ∈ columnArm x y ∧ p ∉ rowArm x y)}

section
variable {x y : ℤ} {g : Gfx}

theorem gcRect_length_le (x y : ℤ) :
    (((gcSize y).toNat * (gcSize x).toNat : ℕ) : ℤ) ≤ GSX_GC_W * GSX_GC_W :=
  Int.ofNat_le.mpr (Nat.mul_le_mul (gcExtent_le y) (gcExtent_le x))

theorem data_gfxPlaceGraphicCursor (hx : 0 ≤ x) (hy : 0 ≤ y) (g : Gfx) :
    (gfxPlaceGraphicCursor x y g).pix.bus.data =
      (drawCross g.ctx x y (savedPix x y g).bus).data := by
  rw [gfxPlaceGraphicCursor_eq hx hy]

theorem data_savedPix (x y : ℤ) (g : Gfx) : (savedPix x y g).bus.data = g.pix.bus.data :=
  (gfxReadRect_spec _ _ _ _ _ g.pix).1

/-- **Removing the cursor puts the rectangle back as it was** and changes nothing else. -/
theorem data_gfxRemoveGraphicCursor (hx : 0 ≤ x) (hy : 0 ≤ y) (g : Gfx) (a : ℤ) :
    (a ∈ g.ctx.addr '' gcPixels x y →
        (gfxRemoveGraphicCursor (gfxPlaceGraphicCursor x y g)).pix.bus.data a = g.pix.bus.data a) ∧
      (a ∉ g.ctx.addr '' gcPixels x y →
        (gfxRemoveGraphicCursor (gfxPlaceGraphicCursor x y g)).pix.bus.data a =
          (gfxPlaceGraphicCursor x y g).pix.bus.data a) := by
  have hremoved : (gfxRemoveGraphicCursor (gfxPlaceGraphicCursor x y g)).pix.bus =
      (gfxWriteRect g.ctx (gcStart x) (gcStart y) (gcSize x) (gcSize y)
        (gfxPlaceGraphicCursor x y g).pix).bus := gfxRemoveGraphicCursor_bus hx hy g _
  have hspec := gfxReadRect_spec g.ctx (gcStart x) (gcStart y) (gcSize x) (gcSize y) g.pix
  have hsaved : ∀ j < (gcSize y).toNat, ∀ i < (gcSize x).toNat,
      g.pix.bus.data (rectAddr g.ctx (gcStart x) (gcStart y) j i) =
        (gfxPlaceGraphicCursor x y g).pix.gcRect (j * (gcSize x).toNat + i) := by
    intro j hj i hi
    rw [gfxPlaceGraphicCursor_eq hx hy]
    exact (hspec.2.1 j hj i hi).symm
  have hstores := stores_gfxWriteRect _ _ _ _ _ _ hsaved
  rw [rectArea_eq] at hstores
  rw [hremoved]
  exact hstores (gfxPlaceGraphicCursor x y g).pix.bus a

/-- A cross inside the rectangle and on the screen can be taken back. -/
theorem cursorReversible_of (hx : 0 ≤ x) (hy : 0 ≤ y)
    (hon : ∀ p ∈ rowArm x y ∪ columnArm x y, ∃ q, g.ctx.OnScreen q ∧ g.ctx.addr q = g.ctx.addr p)
    (hsub : rowArm x y ∪ columnArm x y ⊆ gcPixels x y) : CursorReversible x y g := by
  have hspec := gfxReadRect_spec g.ctx (gcStart x) (gcStart y) (gcSize x) (gcSize y) g.pix
  have hlen := gcRect_length_le x y
  have houtside : ∀ a, a ∉ g.ctx.addr '' (rowArm x y ∪ columnArm x y) →
      (gfxPlaceGraphicCursor x y g).pix.bus.data a = g.pix.bus.data a := by
    intro a ha
    rw [Set.image_union, Set.mem_union, not_or] at ha
    rw [data_gfxPlaceGraphicCursor hx hy, data_drawCross_of_notMem ha.1 ha.2, data_savedPix]
  constructor
  · intro a ha
    have hmem : a ∈ g.ctx.addr '' (rowArm x y ∪ columnArm x y) := by
      by_contra hnot
      exact ha (houtside a hnot)
    obtain ⟨p, hp, rfl⟩ := hmem
    exact hon p hp
  · intro k hk
    rw [gfxPlaceGraphicCursor_eq hx hy]
    exact hspec.2.2 k (by omega)
  · intro p hbus hp
    have hplaced := gfxRemoveGraphicCursor_bus hx hy g (gfxPlaceGraphicCursor x y g).pix
    rw [gfxRemoveGraphicCursor_bus hx hy]
    refine Eq.trans ?_ hplaced.symm
    apply gfxWriteRect_congr _ _ _ _ _ hbus
    intro k hk
    exact hp k (by omega)
  · ext1 a
    have hremoved := data_gfxRemoveGraphicCursor hx hy g a
    by_cases ha : a ∈ g.ctx.addr '' gcPixels x y
    · exact hremoved.1 ha
    · rw [hremoved.2 ha]
      exact houtside a fun h => ha (Set.image_mono hsub h)

/-- Contents that every cross shows on. -/
def Gfx.black (c : Ctx) : Gfx := { (Term.static fun _ => 0).g with ctx := c }

/-- What the cursor shows on a black screen. -/
theorem data_black {c : Ctx} (hx : 0 ≤ x) (hy : 0 ≤ y) (hP : 21 ≤ c.Pitch) {p : Pixel}
    (hp : p ∈ crossRim x y) :
    (gfxPlaceGraphicCursor x y (.black c)).pix.bus.data (c.addr p) = 15 := by
  have hzero : (savedPix x y (.black c)).bus.data = fun _ => 0 := data_savedPix x y (.black c)
  rw [data_gfxPlaceGraphicCursor hx hy]
  rcases hp with ⟨hp, hne⟩ | ⟨hp, hne⟩
  · exact (data_drawCross_row hP hp hne _).trans (by rw [hzero]; rfl)
  · exact (data_drawCross_column hP hp hne _).trans (by rw [hzero]; rfl)

/-- On a black screen every pixel of the rim must be visible and in the rectangle. -/
theorem CursorReversible.rim {c : Ctx} (hx : 0 ≤ x) (hy : 0 ≤ y) (hP : 21 ≤ c.Pitch)
    (h : CursorReversible x y (.black c)) {p : Pixel} (hp : p ∈ crossRim x y) :
    (∃ q, c.OnScreen q ∧ c.addr q = c.addr p) ∧ p ∈ gcPixels x y := by
  have hshown := data_black hx hy hP hp
  have hblack : ∀ a, (Gfx.black c).pix.bus.data a = 0 := fun _ => rfl
  constructor
  · apply h.onScreen
    rw [hshown, hblack]
    decide
  · by_contra hnot
    have hout : c.addr p ∉ c.addr '' gcPixels x y := by
      rintro ⟨q, hq, heq⟩
      have hqp : q = p := by
        apply c.addr_inj _ heq
        simp only [mem_gcPixels, gcStart_eq, gcEnd_eq] at hq
        simp only [crossRim, mem_rowArm, mem_columnArm, gcStart_eq, gcEnd_eq,
          Set.mem_ofPred_eq] at hp
        rw [abs_lt]
        omega
      exact hnot (hqp ▸ hq)
    have hback := congrFun h.restores (c.addr p)
    rw [(data_gfxRemoveGraphicCursor hx hy (.black c) _).2 hout, hshown, hblack] at hback
    exact absurd hback (by decide)

end

/-! ## The positions -/

section
variable {c : Ctx} {x y : ℤ}

/-- The pixels of a cross that fits are on the screen; a column behind the last one is the
first one of the next row where the rows lie without a gap. -/
theorem onScreen_cross (hon : c.OnScreen (x, y))
    (hrow : gcEnd y < c.H) (hcolumn : gcEnd x < c.W ∨ (c.W = c.Pitch ∧ y + 1 < c.H))
    (hW : 21 ≤ c.W) {p : Pixel} (hp : p ∈ rowArm x y ∪ columnArm x y) :
    ∃ q, c.OnScreen q ∧ c.addr q = c.addr p := by
  simp only [Ctx.OnScreen] at hon
  rcases hp with hp | hp
  · rw [mem_rowArm, gcStart_eq] at hp
    rcases lt_or_ge p.1 c.W with hlt | hge
    · refine ⟨p, ?_, rfl⟩
      simp only [Ctx.OnScreen]
      omega
    · rcases hcolumn with hfit | ⟨hgap, hnext⟩
      · omega
      · rw [gcEnd_eq] at hp
        refine ⟨(p.1 - c.W, p.2 + 1), ?_, ?_⟩
        · simp only [Ctx.OnScreen]
          omega
        · simp only [Ctx.addr, Ctx.PFB, hgap]
          ring
  · rw [mem_columnArm, gcStart_eq] at hp
    refine ⟨p, ?_, rfl⟩
    simp only [Ctx.OnScreen]
    omega

/-- The rows of a cross with a visible rim end above the lower edge of the screen. -/
theorem gcEnd_lt_H (hP : c.W ≤ c.Pitch) (hon : c.OnScreen (x, y))
    (hrim : ∀ p ∈ crossRim x y, ∃ q, c.OnScreen q ∧ c.addr q = c.addr p) : gcEnd y < c.H := by
  simp only [Ctx.OnScreen] at hon
  rcases lt_or_ge y (gcEnd y) with hlt | hge
  · have hmem : (x, gcEnd y) ∈ crossRim x y := by
      right
      rw [mem_columnArm, mem_rowArm, gcStart_eq]
      omega
    obtain ⟨q, hq, heq⟩ := hrim _ hmem
    simp only [Ctx.OnScreen] at hq
    have hqp : q = (x, gcEnd y) := by
      apply c.addr_inj _ heq
      rw [abs_lt]
      omega
    rw [hqp] at hq
    exact hq.2.2.2
  · omega

/-- Its columns end before the right edge, or the next row follows without a gap. -/
theorem gcEnd_lt_W (hW : 21 ≤ c.W) (hP : c.W ≤ c.Pitch) (hon : c.OnScreen (x, y))
    (hrim : ∀ p ∈ crossRim x y, ∃ q, c.OnScreen q ∧ c.addr q = c.addr p) :
    gcEnd x < c.W ∨ (c.W = c.Pitch ∧ y + 1 < c.H) := by
  simp only [Ctx.OnScreen] at hon
  by_contra hnot
  rw [not_or, not_lt] at hnot
  have hmem : ((c.W : ℤ), y) ∈ crossRim x y := by
    left
    rw [mem_columnArm, mem_rowArm, gcStart_eq]
    omega
  obtain ⟨q, hq, heq⟩ := hrim _ hmem
  simp only [Ctx.OnScreen] at hq
  rcases hP.lt_or_eq with hlt | hgap
  · have hqp : q = ((c.W : ℤ), y) := by
      apply c.addr_inj _ heq
      rw [abs_lt]
      omega
    rw [hqp] at hq
    exact absurd hq.2.1 (lt_irrefl _)
  · -- the column behind the last one has the address of the first one of the next row
    have hnext : c.addr ((c.W : ℤ), y) = c.addr (0, y + 1) := by
      simp only [Ctx.addr, Ctx.PFB, hgap]
      ring
    have hqp : q = (0, y + 1) := by
      apply c.addr_inj _ (heq.trans hnext)
      rw [abs_lt]
      omega
    rw [hqp] at hq
    exact hnot.2 ⟨hgap, hq.2.2.2⟩

/-- A rim inside the rectangle leaves no arm that ends before the centre. -/
theorem centre_le (hx : 0 ≤ x) (hy : 0 ≤ y) (hrim : crossRim x y ⊆ gcPixels x y) :
    (x ≤ 32767 ∧ y ≤ 32767) ∨ (32777 < x ∧ 32777 < y) := by
  have hrow : 32767 < y → 32777 < x := by
    intro hbelow
    by_contra hnot
    have hmem : (gcStart x, y) ∈ crossRim x y := by
      left
      rw [mem_columnArm, mem_rowArm, gcStart_eq x, gcEnd_eq x, gcEnd_eq y]
      omega
    have hin := hrim hmem
    rw [mem_gcPixels, gcEnd_eq y] at hin
    omega
  have hcolumn : 32767 < x → 32777 < y := by
    intro hbeyond
    by_contra hnot
    have hmem : (x, gcStart y) ∈ crossRim x y := by
      right
      rw [mem_columnArm, mem_rowArm, gcStart_eq y, gcEnd_eq x, gcEnd_eq y]
      omega
    have hin := hrim hmem
    rw [mem_gcPixels, gcEnd_eq x] at hin
    omega
  omega

/-- **The graphic cursor can be taken back at the positions where it is not cut off by the right
or the lower edge**: there it reaches up to the edge at most, or runs on into the next row. -/
theorem gfxPlaceGraphicCursor_iff (hW : 21 ≤ c.W) (hH : 21 ≤ c.H) (hP : c.W ≤ c.Pitch)
    (hon : c.OnScreen (x, y)) :
    (∀ g : Gfx, g.ctx = c → CursorReversible x y g) ↔
      (x ≤ GSX_MAX_NDC ∧ y ≤ GSX_MAX_NDC ∧ min (y + GSX_GC_ARMLNG) GSX_MAX_NDC < c.H ∧
          (min (x + GSX_GC_ARMLNG) GSX_MAX_NDC < c.W ∨ (c.W = c.Pitch ∧ y + 1 < c.H))) ∨
        (GSX_MAX_NDC + GSX_GC_ARMLNG < x ∧ GSX_MAX_NDC + GSX_GC_ARMLNG < y) := by
  have hx : 0 ≤ x := hon.1
  have hy : 0 ≤ y := hon.2.2.1
  have hP' : 21 ≤ c.Pitch := hW.trans hP
  constructor
  · intro h
    have hrim : ∀ p ∈ crossRim x y, (∃ q, c.OnScreen q ∧ c.addr q = c.addr p) ∧ p ∈ gcPixels x y :=
      fun p hp => (h (.black c) rfl).rim hx hy hP' hp
    have hcentre := centre_le hx hy fun p hp => (hrim p hp).2
    have hbottom := gcEnd_lt_H hP hon fun p hp => (hrim p hp).1
    have hright := gcEnd_lt_W hW hP hon fun p hp => (hrim p hp).1
    rcases hcentre with ⟨hx', hy'⟩ | hfar
    · exact Or.inl ⟨hx', hy', hbottom, hright⟩
    · exact Or.inr hfar
  · intro hfit g hg
    subst hg
    have hsub : rowArm x y ∪ columnArm x y ⊆ gcPixels x y := by
      intro p hp
      simp only [Set.mem_union, mem_rowArm, mem_columnArm, mem_gcPixels, gcStart_eq,
        gcEnd_eq] at hp ⊢
      simp only [GSX_MAX_NDC, GSX_GC_ARMLNG] at hfit
      omega
    refine cursorReversible_of hx hy ?_ hsub
    intro p hp
    rcases hfit with ⟨-, -, hrow, hcolumn⟩ | ⟨hx', hy'⟩
    · exact onScreen_cross hon hrow hcolumn hW hp
    · -- beyond the largest device coordinate the cross is empty
      have hin := hsub hp
      rw [mem_gcPixels, gcStart_eq, gcEnd_eq] at hin
      simp only [GSX_MAX_NDC, GSX_GC_ARMLNG] at hx'
      omega

/-- The middle of the screen. -/
theorem gfxPlaceGraphicCursor_iff_vga : CursorReversible 320 240 (.black .vga) := by
  have h := @gfxPlaceGraphicCursor_iff .vga 320 240 (by decide) (by decide) (by decide) (by decide)
  exact h.mpr (Or.inl (by decide)) (.black .vga) rfl

/-- On the last row of the screen the cross reaches below it. -/
theorem gfxPlaceGraphicCursor_edge : ¬CursorReversible 320 463 (.black .vga) := by
  intro h
  have hbottom : gcEnd 463 < Ctx.vga.H := by
    apply gcEnd_lt_H (by decide) (by decide : Ctx.vga.OnScreen (320, 463))
    intro p hp
    exact (h.rim (by decide) (by decide) (by decide) hp).1
  exact absurd hbottom (by decide)

end

end Pigfx
