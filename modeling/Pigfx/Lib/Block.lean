import Pigfx.Lib.Memory

/-!
# Block operations on a traced memory

The loops a frame buffer driver is made of: filling and copying runs of bytes or
words with the processor, and the same with a transfer engine.  Each operation
is given once, on the traced memory, and described twice: by what it leaves in
memory, through `Paints` or `Moves`, and by what it touches, through
`Bus.Contained`.

## Main definitions

* `Paints` — a strided rectangle received given values and nothing else changed.
* `Moves` — a run of bytes was copied and nothing else changed.
* `fillBytes`, `fillWords`, `copyUp`, `copyDown` — processor loops.
* `tripsUp`, `tripsDown` — how often a pointer loop over words turns.
* `blockFill`, `blockCopy`, `blockFill2d` — transfers of an engine.
* `Slides` — a run of bytes was copied and another one filled.
* `OnData` — the contents afterwards depend on the contents before, not on the trace.
* `Bus.Contained` — every access so far fell into an interval.
-/

namespace Pigfx.Lib

/-! ## Effects on the contents -/

/-- `d'` is `d` with the rectangle of `h` rows of `w` bytes, `pitch` apart from
`base` on, holding the values `v`. -/
structure Paints (base pitch : ℤ) (h w : ℕ) (v : ℕ → ℕ → Byte) (d d' : ℤ → Byte) : Prop where
  inside : ∀ i < h, ∀ j < w, d' (base + (i : ℕ) * pitch + (j : ℕ)) = v i j
  outside : ∀ x, (∀ i < h, x < base + (i : ℕ) * pitch ∨ base + (i : ℕ) * pitch + w ≤ x) → d' x = d x

/-- `d'` is `d` with `n` bytes from `src` copied to `dst`. -/
structure Moves (src dst : ℤ) (n : ℕ) (d d' : ℤ → Byte) : Prop where
  inside : ∀ k < n, d' (dst + (k : ℕ)) = d (src + (k : ℕ))
  outside : ∀ x, (x < dst ∨ dst + n ≤ x) → d' x = d x

/-- Distinct rows of a rectangle whose pitch is at least its width are apart. -/
theorem row_apart {pitch : ℤ} {w i k : ℕ} (hw : (w : ℤ) ≤ pitch) (h : i < k) :
    (i : ℤ) * pitch + w ≤ k * pitch := by
  have hk : ((i : ℤ) + 1) * pitch ≤ k * pitch :=
    mul_le_mul_of_nonneg_right (by omega) (by omega)
  linarith

theorem Paints.congr {base pitch : ℤ} {h w : ℕ} {v u : ℕ → ℕ → Byte} {d d' : ℤ → Byte}
    (H : Paints base pitch h w v d d') (hv : ∀ i < h, ∀ j < w, v i j = u i j) :
    Paints base pitch h w u d d' :=
  ⟨fun i hi j hj => (H.inside i hi j hj).trans (hv i hi j hj), H.outside⟩

/-- A single row has no pitch. -/
theorem Paints.of_single {base pitch : ℤ} {h w : ℕ} {v : ℕ → ℕ → Byte} {d d' : ℤ → Byte}
    (H : Paints base pitch h w v d d') (hh : h ≤ 1) (pitch' : ℤ) : Paints base pitch' h w v d d' := by
  have hfirst : ∀ i < h, (i : ℤ) * pitch = 0 ∧ (i : ℤ) * pitch' = 0 := by
    intro i hi
    obtain rfl : i = 0 := by omega
    simp
  constructor
  · intro i hi j hj
    rw [(hfirst i hi).2, ← (hfirst i hi).1]
    exact H.inside i hi j hj
  · intro x hx
    refine H.outside x fun i hi => ?_
    rw [(hfirst i hi).1, ← (hfirst i hi).2]
    exact hx i hi

/-- One rectangle below another. -/
theorem Paints.append {base pitch : ℤ} {h k w : ℕ} {v : ℕ → ℕ → Byte} {d d' d'' : ℤ → Byte} (hw : (w : ℤ) ≤ pitch)
    (H : Paints base pitch h w v d d')
    (R : Paints (base + (h : ℕ) * pitch) pitch k w (fun i => v (h + i)) d' d'') :
    Paints base pitch (h + k) w v d d'' := by
  have hbelow : ∀ i : ℕ, base + (h : ℕ) * pitch + (i : ℕ) * pitch = base + ((h + i : ℕ) : ℤ) * pitch := by
    intro i
    push_cast
    ring
  constructor
  · intro i hi j hj
    by_cases hlt : i < h
    · rw [R.outside _ fun z hz => ?_, H.inside i hlt j hj]
      have hap := row_apart hw (show i < h + z by omega)
      left; rw [hbelow]; linarith
    · obtain ⟨z, rfl⟩ := Nat.exists_eq_add_of_le (not_lt.mp hlt)
      rw [← hbelow]
      exact R.inside z (by omega) j hj
  · intro x hx
    rw [R.outside x fun z hz => ?_, H.outside x fun i hi => hx i (by omega)]
    rw [hbelow]
    exact hx (h + z) (by omega)

/-- Painting the rows one after the other paints the rectangle. -/
theorem paints_iterate {base pitch : ℤ} {h w : ℕ} {v : ℕ → ℕ → Byte} {f : ℕ → Bus → Bus}
    (hw : (w : ℤ) ≤ pitch)
    (hrow : ∀ i < h, ∀ m, Paints (base + (i : ℕ) * pitch) pitch 1 w (fun _ => v i) m.data (f i m).data)
    (m : Bus) : Paints base pitch h w v m.data (iterate h f m).data := by
  refine iterate_induction h f m (fun k n => Paints base pitch k w v m.data n.data) ?_ ?_
  · exact ⟨by omega, fun _ _ => rfl⟩
  · intro k n hk H
    exact H.append hw (k := 1) ((hrow k hk n).congr fun i hi j _ => by rw [Nat.lt_one_iff.mp hi]; rfl)

/-- What no row has is as before. -/
theorem Paints.kept {base pitch : ℤ} {h w : ℕ} {v : ℕ → ℕ → Byte} {d d' : ℤ → Byte}
    (H : Paints base pitch h w v d d') {x : ℤ}
    (hx : ∀ i < h, ∀ j < w, x ≠ base + (i : ℕ) * pitch + (j : ℕ)) : d' x = d x := by
  refine H.outside x fun i hi => ?_
  by_contra hin
  push Not at hin
  exact hx i hi (x - (base + (i : ℕ) * pitch)).toNat (by omega) (by omega)

/-- Two paintings with the same values agree where the originals agree outside a set that
the rectangle covers. -/
theorem Paints.unique {base pitch : ℤ} {h w : ℕ} {v : ℕ → ℕ → Byte} {d d' e e' : ℤ → Byte}
    (H : Paints base pitch h w v d d') (H' : Paints base pitch h w v e e') {S : ℤ → Prop}
    (hoff : ∀ x, ¬S x → d x = e x)
    (hcover : ∀ x, S x → ∃ i < h, ∃ j < w, x = base + (i : ℕ) * pitch + (j : ℕ)) : d' = e' := by
  funext x
  by_cases hx : ∃ i < h, ∃ j < w, x = base + (i : ℕ) * pitch + (j : ℕ)
  · obtain ⟨i, hi, j, hj, rfl⟩ := hx
    rw [H.inside i hi j hj, H'.inside i hi j hj]
  · have hout : ∀ i < h, ∀ j < w, x ≠ base + (i : ℕ) * pitch + (j : ℕ) := by
      intro i hi j hj hat
      exact hx ⟨i, hi, j, hj, hat⟩
    rw [H.kept hout, H'.kept hout]
    exact hoff x fun hS => hx (hcover x hS)

/-- `d'` is `d` with `n` bytes from `src` copied to `dst`, and `k` bytes from `gap` on
filled with `v`. -/
structure Slides (src dst : ℤ) (n : ℕ) (gap : ℤ) (k : ℕ) (v : Byte) (d d' : ℤ → Byte) : Prop where
  moved : ∀ i < n, d' (dst + (i : ℕ)) = d (src + (i : ℕ))
  filled : ∀ i < k, d' (gap + (i : ℕ)) = v
  outside : ∀ x, (x < dst ∨ dst + n ≤ x) → (x < gap ∨ gap + k ≤ x) → d' x = d x

/-- There is one way to slide. -/
theorem Slides.unique {src dst gap : ℤ} {n k : ℕ} {v : Byte} {d d' d'' : ℤ → Byte}
    (H : Slides src dst n gap k v d d') (H' : Slides src dst n gap k v d d'') : d' = d'' := by
  funext x
  by_cases hmoved : dst ≤ x ∧ x < dst + n
  · have hx : x = dst + ((x - dst).toNat : ℕ) := by omega
    rw [hx, H.moved _ (by omega), H'.moved _ (by omega)]
  by_cases hfilled : gap ≤ x ∧ x < gap + k
  · have hx : x = gap + ((x - gap).toNat : ℕ) := by omega
    rw [hx, H.filled _ (by omega), H'.filled _ (by omega)]
  · rw [H.outside x (by omega) (by omega), H'.outside x (by omega) (by omega)]

/-- A copy, and then the filling of a run that the copy's target does not meet. -/
theorem Moves.slides {src dst gap pitch : ℤ} {n k : ℕ} {v : Byte} {d d' d'' : ℤ → Byte}
    (H : Moves src dst n d d') (F : Paints gap pitch 1 k (fun _ _ => v) d' d'')
    (hapart : dst + n ≤ gap ∨ gap + k ≤ dst) : Slides src dst n gap k v d d'' := by
  have hout : ∀ x, (x < gap ∨ gap + k ≤ x) → d'' x = d' x := by
    intro x hx
    refine F.outside x fun i hi => ?_
    obtain rfl : i = 0 := by omega
    simpa using hx
  refine ⟨?_, ?_, ?_⟩
  · intro i hi
    rw [hout _ (by omega), H.inside i hi]
  · intro i hi
    simpa using F.inside 0 (by omega) i hi
  · intro x hx hx'
    rw [hout x hx', H.outside x hx]

/-! ## Contents and trace -/

/-- The contents afterwards depend on the contents before only. -/
def OnData (f : Bus → Bus) : Prop := ∀ m n : Bus, m.data = n.data → (f m).data = (f n).data

theorem onData_id : OnData id := fun _ _ h => h

theorem OnData.comp {f g : Bus → Bus} (hf : OnData f) (hg : OnData g) : OnData fun m => f (g m) :=
  fun _ _ h => hf _ _ (hg _ _ h)

theorem onData_ite {p : Prop} [Decidable p] {f g : Bus → Bus} (hf : OnData f) (hg : OnData g) :
    OnData fun m => if p then f m else g m := by
  intro m n h
  dsimp only
  split
  · exact hf m n h
  · exact hg m n h

theorem onData_put8 (a : ℤ) (v : Byte) : OnData (Bus.put8 a v) := by
  intro m n h
  simp only [Bus.put8, h]

theorem onData_put32 (a : ℤ) (w : Word) : OnData (Bus.put32 a w) := by
  intro m n h
  simp only [Bus.put32, h]

theorem onData_iterate (n : ℕ) {f : ℕ → Bus → Bus} (hf : ∀ i, OnData (f i)) : OnData (iterate n f) :=
  fun m m' h => iterate_relation n f f m m' (fun x y => x.data = y.data) h
    fun i x y _ hxy => hf i x y hxy

/-! ## Processor loops -/

/-- Store one byte value at `n` consecutive addresses. -/
def fillBytes (n : ℕ) (a : ℤ) (v : Byte) (m : Bus) : Bus :=
  iterate n (fun i m => m.put8 (a + i) v) m

/-- Store one word value at `n` consecutive words. -/
def fillWords (n : ℕ) (a : ℤ) (w : Word) (m : Bus) : Bus :=
  iterate n (fun i m => m.put32 (a + 4 * i) w) m

/-- Copy `n` words with both pointers ascending. -/
def copyUp (n : ℕ) (src dst : ℤ) (m : Bus) : Bus :=
  iterate n (fun i m =>
    (m.note (.cpuRead (src + 4 * i) 4)).put32 (dst + 4 * i) (m.word (src + 4 * i))) m

/-- Copy `n` words with both pointers descending; `src` and `dst` address the last
words. -/
def copyDown (n : ℕ) (src dst : ℤ) (m : Bus) : Bus :=
  iterate n (fun i m =>
    (m.note (.cpuRead (src - 4 * i) 4)).put32 (dst - 4 * i) (m.word (src - 4 * i))) m

/-- The number of turns of a loop `while (p < e) p++` over words. -/
def tripsUp (p e : ℤ) : ℕ := ((e - p + 3) / 4).toNat

/-- The number of turns of a loop `while (p >= e) p--` over words. -/
def tripsDown (p e : ℤ) : ℕ := ((p - e) / 4 + 1).toNat

/-- The loop turns exactly while the advanced pointer is below the end. -/
theorem lt_tripsUp {p e : ℤ} {k : ℕ} : k < tripsUp p e ↔ p + 4 * k < e := by
  unfold tripsUp; omega

/-- The loop turns exactly while the lowered pointer is not below the end. -/
theorem lt_tripsDown {p e : ℤ} {k : ℕ} : k < tripsDown p e ↔ e ≤ p - 4 * k := by
  unfold tripsDown; omega

/-- Whole words up to the end are all passed. -/
theorem four_mul_tripsUp {p e : ℤ} {n : ℕ} (hn : (e - p).toNat = n) (h4 : n % 4 = 0) :
    4 * tripsUp p e = n := by
  obtain ⟨k, rfl⟩ := Nat.dvd_of_mod_eq_zero h4
  have hk : tripsUp p e = k := eq_of_forall_lt_iff fun j => by rw [lt_tripsUp]; omega
  rw [hk]

/-- Whole words down to the end are all passed. -/
theorem four_mul_tripsDown {p e : ℤ} {n : ℕ} (hn : (p + 4 - e).toNat = n) (h4 : n % 4 = 0) :
    4 * tripsDown p e = n := by
  obtain ⟨k, rfl⟩ := Nat.dvd_of_mod_eq_zero h4
  have hk : tripsDown p e = k := eq_of_forall_lt_iff fun j => by rw [lt_tripsDown]; omega
  rw [hk]

theorem paints_fillBytes (n : ℕ) (a pitch : ℤ) (v : Byte) (m : Bus) :
    Paints a pitch 1 n (fun _ _ => v) m.data (fillBytes n a v m).data := by
  have key := iterate_induction n (fun i (m : Bus) => m.put8 (a + i) v) m
    (fun k x => (∀ j < k, x.data (a + (j : ℕ)) = v) ∧
      ∀ y, (y < a ∨ a + k ≤ y) → x.data y = m.data y) ?init ?step
  · constructor
    · intro i hi j hj
      obtain rfl : i = 0 := by omega
      simpa [fillBytes] using key.1 j hj
    · intro x hx
      exact key.2 x (by simpa using hx 0 (by omega))
  case init => exact ⟨by omega, fun _ _ => rfl⟩
  case step =>
    rintro i x hi ⟨hin, hout⟩
    constructor
    · intro j hj
      rw [Bus.data_put8]
      split
      · rfl
      · exact hin j (by omega)
    · intro y hy
      rw [Bus.data_put8, if_neg (by omega)]
      exact hout y (by omega)

/-- Two adjacent word stores paint eight bytes. -/
theorem paints_put32_pair (a pitch : ℤ) (v w : Word) (m : Bus) :
    Paints a pitch 1 8 (fun _ j => if j < 4 then byteOf j v else byteOf (j - 4) w) m.data
      ((m.put32 a v).put32 (a + 4) w).data := by
  constructor
  · intro i hi j hj
    obtain rfl : i = 0 := by omega
    by_cases h : j < 4
    · rw [Bus.data_put32_out _ _ _ _ (by omega), if_pos h]
      simpa using Bus.data_put32_in a v m j h
    · rw [if_neg h, ← Bus.data_put32_in (a + 4) w (m.put32 a v) (j - 4) (by omega)]
      congr 1
      omega
  · intro x hx
    have hx0 : x < a ∨ a + 8 ≤ x := by simpa using hx 0 (by omega)
    rw [Bus.data_put32_out _ _ _ _ (by omega), Bus.data_put32_out _ _ _ _ (by omega)]

theorem fillWords_spec (n : ℕ) (a : ℤ) (w : Word) (m : Bus) :
    (∀ i < n, ∀ k < 4, (fillWords n a w m).data (a + 4 * (i : ℕ) + (k : ℕ)) = byteOf k w) ∧
      ∀ x, (x < a ∨ a + 4 * n ≤ x) → (fillWords n a w m).data x = m.data x := by
  refine iterate_induction n _ m (fun c y =>
    (∀ i < c, ∀ k < 4, y.data (a + 4 * (i : ℕ) + (k : ℕ)) = byteOf k w) ∧
      ∀ x, (x < a ∨ a + 4 * c ≤ x) → y.data x = m.data x) ⟨by omega, fun _ _ => rfl⟩ ?_
  rintro c y hc ⟨hin, hout⟩
  constructor
  · intro i hi k hk
    by_cases h : i = c
    · subst h; exact Bus.data_put32_in _ w y k hk
    · rw [Bus.data_put32_out _ _ _ _ (by omega)]; exact hin i (by omega) k hk
  · intro x hx
    rw [Bus.data_put32_out _ _ _ _ (by push_cast at hx; omega)]
    exact hout x (by push_cast at hx; omega)

/-- Filling words whose four bytes are equal paints a run of that byte. -/
theorem paints_fillWords (n : ℕ) (a pitch : ℤ) (w : Word) (v : Byte) (m : Bus)
    (hw : ∀ k < 4, byteOf k w = v) :
    Paints a pitch 1 (4 * n) (fun _ _ => v) m.data (fillWords n a w m).data := by
  have H := fillWords_spec n a w m
  constructor
  · intro i hi j hj
    obtain rfl : i = 0 := by omega
    rw [← hw (j % 4) (by omega), ← H.1 (j / 4) (by omega) (j % 4) (by omega)]
    congr 1
    push_cast
    omega
  · intro x hx
    exact H.2 x (by simpa using hx 0 (by omega))

/-- Words that are copied one after the other arrive as they were, if no word is written before
it is read. -/
theorem copyWords_spec (n : ℕ) (src dst : ℕ → ℤ) (m : Bus)
    (hdst : ∀ i j, i < j → dst j + 4 ≤ dst i ∨ dst i + 4 ≤ dst j)
    (hsrc : ∀ i j, i < j → src j + 4 ≤ dst i ∨ dst i + 4 ≤ src j) :
    let copied := iterate n (fun i (m : Bus) =>
      (m.note (.cpuRead (src i) 4)).put32 (dst i) (m.word (src i))) m
    (∀ i < n, ∀ k < 4, copied.data (dst i + (k : ℕ)) = m.data (src i + (k : ℕ))) ∧
      ∀ x, (∀ i < n, x < dst i ∨ dst i + 4 ≤ x) → copied.data x = m.data x := by
  refine iterate_induction n _ m (fun c y =>
    (∀ i < c, ∀ k < 4, y.data (dst i + (k : ℕ)) = m.data (src i + (k : ℕ))) ∧
      ∀ x, (∀ i < c, x < dst i ∨ dst i + 4 ≤ x) → y.data x = m.data x) ⟨by omega, fun _ _ => rfl⟩ ?_
  rintro c y hc ⟨hin, hout⟩
  constructor
  · intro i hi k hk
    rcases Nat.lt_succ_iff_lt_or_eq.mp hi with hlt | rfl
    · have hapart := hdst i c hlt
      rw [Bus.data_put32_out _ _ _ _ (by omega)]
      exact hin i hlt k hk
    · rw [Bus.data_put32_in _ _ _ _ hk, Bus.byteOf_word _ _ _ hk]
      refine hout _ fun j hj => ?_
      have hapart := hsrc j i hj
      omega
  · intro x hx
    have hlast := hx c (by omega)
    rw [Bus.data_put32_out _ _ _ _ (by omega)]
    exact hout x fun i hi => hx i (by omega)

/-- An ascending word copy moves the bytes when it goes downwards in memory. -/
theorem moves_copyUp (n : ℕ) (src dst : ℤ) (m : Bus) (h : dst ≤ src) :
    Moves src dst (4 * n) m.data (copyUp n src dst m).data := by
  obtain ⟨hin, hout⟩ := copyWords_spec n (fun i => src + 4 * i) (fun i => dst + 4 * i) m
    (by intro i j hij; omega) (by intro i j hij; omega)
  refine ⟨fun k hk => ?_, fun x hx => hout x fun i hi => ?_⟩
  · have ha : dst + (k : ℤ) = dst + 4 * ((k / 4 : ℕ) : ℤ) + ((k % 4 : ℕ) : ℤ) := by omega
    have hb : src + (k : ℤ) = src + 4 * ((k / 4 : ℕ) : ℤ) + ((k % 4 : ℕ) : ℤ) := by omega
    rw [ha, hb]
    exact hin (k / 4) (by omega) (k % 4) (by omega)
  · push_cast at hx
    omega

/-- A move up to `e` and a fill of the rest, in whole words. -/
theorem slides_copyUp_fillWords {src dst e : ℤ} {n k : ℕ} {w : Word} {v : Byte}
    (hw : ∀ j < 4, byteOf j w = v) (hle : dst ≤ src) (hn : (e - src).toNat = n) (hn4 : n % 4 = 0)
    (hk : (e - (dst + n)).toNat = k) (hk4 : k % 4 = 0) (m : Bus) :
    let gap := dst + 4 * tripsUp src e
    Slides src dst n (dst + n) k v m.data
      (fillWords (tripsUp gap e) gap w (copyUp (tripsUp src e) src dst m)).data := by
  intro gap
  have hmoved := moves_copyUp (tripsUp src e) src dst m hle
  have hcount := four_mul_tripsUp hn hn4
  have hgap : gap = dst + n := by omega
  have hfilled := paints_fillWords (tripsUp gap e) gap 0 w v (copyUp (tripsUp src e) src dst m) hw
  rw [hgap, four_mul_tripsUp hk hk4] at hfilled
  rw [hcount] at hmoved
  rw [hgap]
  exact hmoved.slides hfilled (Or.inl (by omega))

/-- A descending word copy moves the bytes when it goes upwards in memory.  The
bounds address the lowest word. -/
theorem moves_copyDown (n : ℕ) (src dst : ℤ) (m : Bus) (h : src ≤ dst) :
    Moves (src + 4 - 4 * n) (dst + 4 - 4 * n) (4 * n) m.data (copyDown n src dst m).data := by
  obtain ⟨hin, hout⟩ := copyWords_spec n (fun i => src - 4 * i) (fun i => dst - 4 * i) m
    (by intro i j hij; omega) (by intro i j hij; omega)
  refine ⟨fun k hk => ?_, fun x hx => hout x fun i hi => ?_⟩
  · -- the last word that is copied is the lowest one
    have ha : dst + 4 - 4 * (n : ℤ) + k = dst - 4 * ((n - 1 - k / 4 : ℕ) : ℤ) + ((k % 4 : ℕ) : ℤ) := by omega
    have hb : src + 4 - 4 * (n : ℤ) + k = src - 4 * ((n - 1 - k / 4 : ℕ) : ℤ) + ((k % 4 : ℕ) : ℤ) := by omega
    rw [ha, hb]
    exact hin (n - 1 - k / 4) (by omega) (k % 4) (by omega)
  · push_cast at hx
    omega

/-! ## Transfers of an engine -/

/-- A transfer of `n` bytes whose source is one word, read again and again. -/
def blockFill (n : ℕ) (a : ℤ) (w : Word) (m : Bus) : Bus :=
  { data := fun x => if a ≤ x ∧ x < a + n then byteOf ((x - a) % 4).toNat w else m.data x
    trace := m.trace ++ [.dmaWrite a n] }

/-- A transfer of `n` bytes with both addresses ascending. -/
def blockCopy (n : ℕ) (src dst : ℤ) (m : Bus) : Bus :=
  { data := iterate n (fun i d x => if x = dst + i then d (src + i) else d x) m.data
    trace := m.trace ++ [.dmaRead src n, .dmaWrite dst n] }

/-- A transfer of `rows` rows of `n` bytes from one word, the address advancing by
`stride` after each row. -/
def blockFill2d (rows n : ℕ) (stride a : ℤ) (w : Word) (m : Bus) : Bus :=
  iterate rows (fun i => blockFill n (a + i * (n + stride)) w) m

theorem paints_blockFill (n : ℕ) (a pitch : ℤ) (w : Word) (v : Byte) (m : Bus)
    (hw : ∀ k < 4, byteOf k w = v) :
    Paints a pitch 1 n (fun _ _ => v) m.data (blockFill n a w m).data := by
  constructor
  · intro i hi j hj
    obtain rfl : i = 0 := by omega
    simp only [blockFill]
    rw [if_pos (by push_cast; omega)]
    exact hw _ (by omega)
  · intro x hx
    have hx0 : x < a ∨ a + n ≤ x := by simpa using hx 0 (by omega)
    simp only [blockFill]
    rw [if_neg (by omega)]

/-- A two-dimensional transfer with a stride that is not negative paints a
rectangle. -/
theorem paints_blockFill2d (rows n : ℕ) (stride a : ℤ) (w : Word) (v : Byte) (m : Bus)
    (hs : 0 ≤ stride) (hw : ∀ k < 4, byteOf k w = v) :
    Paints a (n + stride) rows n (fun _ _ => v) m.data (blockFill2d rows n stride a w m).data :=
  paints_iterate (by omega) (fun _ _ m => paints_blockFill n _ _ w v m hw) m

/-- Whatever the stride, nothing outside the rows is written. -/
theorem data_blockFill2d_outside (rows n : ℕ) (stride a : ℤ) (w : Word) (m : Bus) {x : ℤ}
    (hx : ∀ i < rows, x < a + (i : ℕ) * (n + stride) ∨ a + (i : ℕ) * (n + stride) + n ≤ x) :
    (blockFill2d rows n stride a w m).data x = m.data x := by
  refine iterate_induction rows _ m (fun _ y => y.data x = m.data x) rfl fun i y hi hy => ?_
  have hrow := hx i hi
  simp only [blockFill]
  rw [if_neg (by omega)]
  exact hy

theorem moves_blockCopy (n : ℕ) (src dst : ℤ) (m : Bus) (h : dst ≤ src) :
    Moves src dst n m.data (blockCopy n src dst m).data := by
  have key := iterate_induction n
    (fun i (d : ℤ → Byte) x => if x = dst + i then d (src + i) else d x) m.data
    (fun c y => (∀ k < c, y (dst + (k : ℕ)) = m.data (src + (k : ℕ))) ∧
      ∀ x, (x < dst ∨ dst + c ≤ x) → y x = m.data x) ⟨by omega, fun _ _ => rfl⟩ ?step
  · exact ⟨key.1, key.2⟩
  case step =>
    rintro c y hc ⟨hin, hout⟩
    constructor
    · intro k hk
      beta_reduce
      by_cases hlt : k < c
      · rw [if_neg (by omega)]; exact hin k hlt
      · obtain rfl : k = c := by omega
        rw [if_pos rfl]; exact hout _ (by omega)
    · intro x hx
      push_cast at hx
      beta_reduce
      rw [if_neg (by omega)]
      exact hout x (by omega)

/-! ### Contents and trace -/

theorem onData_copyWord (src dst : ℤ) :
    OnData fun m => (m.note (.cpuRead src 4)).put32 dst (m.word src) := by
  intro m n h
  have hw : m.word src = n.word src := Bus.word_congr fun k _ => by rw [h]
  simp only [Bus.put32, Bus.data_note, hw, h]

theorem onData_copyUp (n : ℕ) (src dst : ℤ) : OnData (copyUp n src dst) :=
  onData_iterate n fun _ => onData_copyWord _ _

theorem onData_copyDown (n : ℕ) (src dst : ℤ) : OnData (copyDown n src dst) :=
  onData_iterate n fun _ => onData_copyWord _ _

theorem onData_fillWords (n : ℕ) (a : ℤ) (w : Word) : OnData (fillWords n a w) :=
  onData_iterate n fun _ => onData_put32 _ w

theorem onData_fillBytes (n : ℕ) (a : ℤ) (v : Byte) : OnData (fillBytes n a v) :=
  onData_iterate n fun _ => onData_put8 _ v

theorem onData_blockFill (n : ℕ) (a : ℤ) (w : Word) : OnData (blockFill n a w) := by
  intro m m' h
  simp only [blockFill, h]

theorem onData_blockCopy (n : ℕ) (src dst : ℤ) : OnData (blockCopy n src dst) := by
  intro m m' h
  simp only [blockCopy, h]

theorem onData_blockFill2d (rows n : ℕ) (stride a : ℤ) (w : Word) :
    OnData (blockFill2d rows n stride a w) :=
  onData_iterate rows fun _ => onData_blockFill n _ w

/-! ## Which addresses are touched -/

/-- The bytes an event touches, if any, lie in `[lo, hi)`. -/
def Event.Within (lo hi : ℤ) : Event → Prop
  | .cpuRead a n | .cpuWrite a n | .dmaRead a n | .dmaWrite a n => n = 0 ∨ lo ≤ a ∧ a + n ≤ hi
  | .dmaSetup | .dmaStart | .dmaIdle => True

/-- Every access so far lies in `[lo, hi)`. -/
def Bus.Contained (lo hi : ℤ) (m : Bus) : Prop := ∀ e ∈ m.trace, e.Within lo hi

section Contained
variable {lo hi : ℤ} {m : Bus}

theorem contained_of_trace {n : Bus} {es : List Event} (ht : n.trace = m.trace ++ es)
    (H : m.Contained lo hi) (he : ∀ e ∈ es, e.Within lo hi) : n.Contained lo hi := by
  intro e hmem
  rw [ht, List.mem_append] at hmem
  exact hmem.elim (H e) (he e)

theorem contained_note {e : Event} (H : m.Contained lo hi) (he : e.Within lo hi) :
    (m.note e).Contained lo hi :=
  contained_of_trace rfl H (by simpa using he)

theorem contained_put8 {a : ℤ} {v : Byte} (H : m.Contained lo hi) (ha : lo ≤ a) (hb : a + 1 ≤ hi) :
    (m.put8 a v).Contained lo hi :=
  contained_of_trace rfl H (by simp [Event.Within, ha, hb])

theorem contained_put32 {a : ℤ} {w : Word} (H : m.Contained lo hi) (ha : lo ≤ a) (hb : a + 4 ≤ hi) :
    (m.put32 a w).Contained lo hi :=
  contained_of_trace rfl H (by simp [Event.Within, ha, hb])

theorem contained_iterate {n : ℕ} {f : ℕ → Bus → Bus} (H : m.Contained lo hi)
    (hf : ∀ i < n, ∀ x : Bus, x.Contained lo hi → (f i x).Contained lo hi) :
    (iterate n f m).Contained lo hi :=
  iterate_induction n f m (fun _ x => x.Contained lo hi) H fun i x hi => hf i hi x

theorem contained_fillBytes {n : ℕ} {a : ℤ} {v : Byte} (H : m.Contained lo hi) (ha : lo ≤ a)
    (hb : a + n ≤ hi) : (fillBytes n a v m).Contained lo hi :=
  contained_iterate H fun i hi x hx => contained_put8 hx (by omega) (by omega)

theorem contained_fillWords {n : ℕ} {a : ℤ} {w : Word} (H : m.Contained lo hi) (ha : lo ≤ a)
    (hb : a + 4 * n ≤ hi) : (fillWords n a w m).Contained lo hi :=
  contained_iterate H fun i hi x hx => contained_put32 hx (by omega) (by omega)

theorem contained_copyUp {n : ℕ} {src dst : ℤ} (H : m.Contained lo hi) (hs : lo ≤ src)
    (hs' : src + 4 * n ≤ hi) (hd : lo ≤ dst) (hd' : dst + 4 * n ≤ hi) :
    (copyUp n src dst m).Contained lo hi :=
  contained_iterate H fun i hi x hx =>
    contained_put32 (contained_note hx (Or.inr ⟨by omega, by push_cast; omega⟩)) (by omega) (by omega)

theorem contained_copyDown {n : ℕ} {src dst : ℤ} (H : m.Contained lo hi)
    (hs : lo + 4 * n ≤ src + 4) (hs' : src + 4 ≤ hi) (hd : lo + 4 * n ≤ dst + 4)
    (hd' : dst + 4 ≤ hi) : (copyDown n src dst m).Contained lo hi :=
  contained_iterate H fun i hi x hx =>
    contained_put32 (contained_note hx (Or.inr ⟨by omega, by push_cast; omega⟩)) (by omega) (by omega)

theorem contained_blockFill {n : ℕ} {a : ℤ} {w : Word} (H : m.Contained lo hi)
    (h : n = 0 ∨ lo ≤ a ∧ a + n ≤ hi) : (blockFill n a w m).Contained lo hi :=
  contained_of_trace rfl H (by simpa [Event.Within] using h)

theorem contained_blockCopy {n : ℕ} {src dst : ℤ} (H : m.Contained lo hi)
    (hs : n = 0 ∨ lo ≤ src ∧ src + n ≤ hi) (hd : n = 0 ∨ lo ≤ dst ∧ dst + n ≤ hi) :
    (blockCopy n src dst m).Contained lo hi :=
  contained_of_trace rfl H (by simpa [Event.Within] using ⟨hs, hd⟩)

theorem contained_blockFill2d {rows n : ℕ} {stride a : ℤ} {w : Word} (H : m.Contained lo hi)
    (h : ∀ i < rows, lo ≤ a + (i : ℕ) * (n + stride) ∧ a + (i : ℕ) * (n + stride) + n ≤ hi) :
    (blockFill2d rows n stride a w m).Contained lo hi :=
  contained_iterate H fun i hi _ hx => contained_blockFill hx (Or.inr (h i hi))

end Contained

end Pigfx.Lib
