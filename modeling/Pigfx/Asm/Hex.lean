import Pigfx.Asm.Strings

/-!
# Hexadecimal numbers

`byte2hexstr` and `word2hexstr` write digits, `hex2byte` reads two of them.  Not every character that
is not a digit is found out.

## Main definitions

* `hexDigit`, `hexNibble` — a digit as it is written and as it is read.
* `byte2hexstr_spec`, `word2hexstr_spec`, `hex2byte_spec` — what the routines do to the state.
* `hex_round_trip`, `hex2byte_accepts_iff` — the main results.
-/

namespace Pigfx.Asm
open Lib Lib.Arm Reg

/-- The character for a digit. -/
def hexDigit (n : Word) : Byte := (n + if n.toInt ≤ 9 then 48 else 55).setWidth 8

/-- The two characters for a byte. -/
def hexByte (w : Word) : List Byte := [hexDigit (w >>> 4), hexDigit (w &&& 15)]

@[simp] theorem length_hexByte (w : Word) : (hexByte w).length = 2 := rfl

/-- The eight characters for a word. -/
def hexWord (w : Word) : List Byte :=
  hexByte (w >>> 24 &&& 0xFF) ++ hexByte (w >>> 16 &&& 0xFF) ++ hexByte (w >>> 8 &&& 0xFF) ++ hexByte (w &&& 0xFF)

/-- What a character is read as: what stands between `F` and `a` is taken for a digit. -/
def hexNibble (ch : Byte) : Word :=
  if ch ≤ 47 ∨ 103 ≤ ch then 0xF0
  else if ch ≤ 57 then ch.setWidth 32 - 48
  else if 97 ≤ ch then ch.setWidth 32 - 87
  else if ch ≤ 64 then 0xF0
  else if ch ≤ 70 then ch.setWidth 32 - 55
  else ch.setWidth 32 - 48

theorem and_mask (w : Word) : w &&& 255 = (w.setWidth 8).setWidth 32 := by
  refine BitVec.eq_of_toNat_eq ?_
  have hmask : w.toNat &&& 255 = w.toNat % 256 := Nat.and_two_pow_sub_one_eq_mod _ 8
  have hlt : w.toNat % 256 < 2 ^ 32 := by omega
  rw [BitVec.toNat_and, BitVec.toNat_setWidth, BitVec.toNat_setWidth, Nat.mod_eq_of_lt hlt]
  exact hmask

variable {σ : Type} {M : Machine Label σ} (hp : program.Placed M) {x : Point σ}
include hp

/-! ## `byte2hexstr` -/

theorem byte2hexstr_entry (hpc : x.pc = M.place .byte2hexstr) :
    M.Goes x
      { x with
        mem := x.mem.putWords (x.regs.sp - 20) [x.regs.r0, x.regs.r1, x.regs.r2, x.regs.r3, x.regs.r4]
        regs := { x.regs with r2 := x.regs.r0 >>> 4, r4 := x.regs.r1 + 2, sp := x.regs.sp - 20 }
        pc := M.place .byte2hexstr3 } := by
  rw [hp.next .byte2hexstr _ rfl]
  exact hp.goes hpc fun _ => rfl

theorem byte2hexstr_offset (hpc : x.pc = M.place .byte2hexstr3) :
    M.Goes x
      { x with
        regs := { x.regs with r3 := if x.regs.r2.toInt ≤ 9 then 48 else 55 }
        pc := M.place .byte2hexstr1 } := by
  have hnext := hp.next .byte2hexstr3 _ rfl
  have hlength : (program.text Label.byte2hexstr3).length = 4 := rfl
  rw [hlength] at hnext
  refine hp.goes hpc fun flags => ?_
  by_cases hr : x.regs.r2.toInt ≤ 9
  · simp [hr]
  · simp [hr, ← hnext]

theorem byte2hexstr_store (hpc : x.pc = M.place .byte2hexstr1) :
    M.Goes x
      { x with
        mem := x.mem.put x.regs.r1 [(x.regs.r2 + x.regs.r3).setWidth 8]
        regs := { x.regs with
          r1 := x.regs.r1 + 1
          r2 := if x.regs.r4 = x.regs.r1 + 1 then x.regs.r2 + x.regs.r3 else x.regs.r0 &&& 15 }
        pc := if x.regs.r4 = x.regs.r1 + 1 then M.place .byte2hexstr1' else M.place .byte2hexstr3 } := by
  refine hp.goes hpc fun flags => ?_
  by_cases hr : x.regs.r4 = x.regs.r1 + 1#32
  · simp [hr]
  · simp [hr]

/-- A turn of the loop. -/
theorem byte2hexstr_turn (hpc : x.pc = M.place .byte2hexstr3) :
    ∃ r3, M.Goes x
      { x with
        mem := x.mem.put x.regs.r1 [hexDigit x.regs.r2]
        regs := { x.regs with
          r1 := x.regs.r1 + 1
          r2 := if x.regs.r4 = x.regs.r1 + 1 then x.regs.r2 + r3 else x.regs.r0 &&& 15
          r3 := r3 }
        pc := if x.regs.r4 = x.regs.r1 + 1 then M.place .byte2hexstr1' else M.place .byte2hexstr3 } :=
  ⟨_, (byte2hexstr_offset hp hpc).trans (byte2hexstr_store hp rfl)⟩

theorem byte2hexstr_exit (hpc : x.pc = M.place .byte2hexstr1') {r0 r1 r2 r3 r4 : Word}
    (hstack : x.mem.words x.regs.sp 5 = [r0, r1, r2, r3, r4]) :
    M.Goes x
      { x with
        regs := { x.regs with r0 := r0, r1 := r1, r2 := r2, r3 := r3, r4 := r4, sp := x.regs.sp + 20 }
        pc := x.regs.lr } :=
  hp.goes hpc fun flags => by simp [hstack]

/-- **`byte2hexstr`** writes two characters and leaves all registers as they are. -/
theorem byte2hexstr_spec (hpc : x.pc = M.place .byte2hexstr)
    (hclear : ∀ a, Inside x.regs.r1 2 a → ¬Below 20 x.regs.sp a) :
    M.Returns 20 x x.regs (x.mem.put x.regs.r1 (hexByte x.regs.r0)) x.dev := by
  have hentry := byte2hexstr_entry hp hpc
  generalize hy : Point.mk _ _ _ _ = y at hentry
  obtain ⟨r3, hfirst⟩ := byte2hexstr_turn hp (x := y) (by rw [← hy])
  have hmore : y.regs.r4 ≠ y.regs.r1 + 1 := by
    rw [← hy]
    bv_omega
  rw [if_neg hmore, if_neg hmore] at hfirst
  generalize hz : Point.mk _ _ _ _ = z at hfirst
  obtain ⟨r3', hsecond⟩ := byte2hexstr_turn hp (x := z) (by rw [← hz])
  have hdone : z.regs.r4 = z.regs.r1 + 1 := by
    rw [← hz, ← hy]
    bv_omega
  rw [if_pos hdone, if_pos hdone] at hsecond
  generalize hw : Point.mk _ _ _ _ = w at hsecond
  have hmem : w.mem = (x.mem.putWords (x.regs.sp - 20)
      [x.regs.r0, x.regs.r1, x.regs.r2, x.regs.r3, x.regs.r4]).put x.regs.r1 (hexByte x.regs.r0) := by
    rw [hexByte, Ram.put_cons _ _ _ _ (by simp), ← hw, ← hz, ← hy]
  have hkept : ∀ a, Inside (x.regs.sp - 20) 20 a → w.mem a = x.mem.putWords (x.regs.sp - 20)
      [x.regs.r0, x.regs.r1, x.regs.r2, x.regs.r3, x.regs.r4] a := by
    intro a ha
    rw [hmem]
    exact Ram.put_outside fun hin => hclear a hin (.of_inside ha)
  have hstack : w.mem.words w.regs.sp 5 = [x.regs.r0, x.regs.r1, x.regs.r2, x.regs.r3, x.regs.r4] := by
    have hsp : w.regs.sp = x.regs.sp - 20 := by rw [← hw, ← hz, ← hy]
    rw [hsp]
    exact words_pushed 20 rfl rfl (by decide) hkept
  have hexit := byte2hexstr_exit hp (x := w) (by rw [← hw]) hstack
  refine ⟨w.mem, ?_, fun a ha => ?_⟩
  · have hrun := ((hentry.trans hfirst).trans hsecond).trans hexit
    simpa [← hw, ← hz, ← hy, BitVec.sub_add_cancel] using hrun
  · rw [hmem]
    exact Ram.put_congr (pushed_outside 20 rfl rfl (by decide) ha)

/-! ## `word2hexstr` -/

/-- The registers at a call of `byte2hexstr`: the byte, where its characters go, and the whole word. -/
def wordCall (s : Regs) (byte a lr : Word) : Regs :=
  { s with r0 := byte, r1 := a, r2 := s.r0, sp := s.sp - 16, lr := lr }

/-- To the first call. -/
theorem word2hexstr_entry (hpc : x.pc = M.place .word2hexstr) :
    M.Goes x
      { x with
        mem := x.mem.putWords (x.regs.sp - 16) [x.regs.r0, x.regs.r1, x.regs.r2, x.regs.lr]
        regs := wordCall x.regs (x.regs.r0 >>> 24 &&& 0xFF) x.regs.r1 (M.behind .word2hexstr 5)
        pc := M.place .byte2hexstr } :=
  hp.goes hpc fun _ => rfl

section Calls
variable {s : Regs} {byte a lr : Word} {mem : Ram} {dev : σ}

/-- Each call, -/
theorem word2hexstr_call (byte lr : Word) (mem : Ram) (dev : σ)
    (hclear : ∀ a', Inside a 2 a' → ¬Below 20 (s.sp - 16) a') :
    ∃ mem', M.Goes ⟨M.place .byte2hexstr, wordCall s byte a lr, mem, dev⟩ ⟨lr, wordCall s byte a lr, mem', dev⟩ ∧
      ∀ a', ¬Below 20 (s.sp - 16) a' → mem' a' = mem.put a (hexByte byte) a' :=
  byte2hexstr_spec hp rfl hclear

/-- and from each to the next. -/
theorem word2hexstr_second :
    M.Goes ⟨M.behind .word2hexstr 5, wordCall s byte a lr, mem, dev⟩
      ⟨M.place .byte2hexstr, wordCall s (s.r0 >>> 16 &&& 0xFF) (a + 2) (M.behind .word2hexstr 10), mem, dev⟩ :=
  hp.goes_behind 5 rfl fun _ => rfl

theorem word2hexstr_third :
    M.Goes ⟨M.behind .word2hexstr 10, wordCall s byte a lr, mem, dev⟩
      ⟨M.place .byte2hexstr, wordCall s (s.r0 >>> 8 &&& 0xFF) (a + 2) (M.behind .word2hexstr 15), mem, dev⟩ :=
  hp.goes_behind 10 rfl fun _ => rfl

theorem word2hexstr_fourth :
    M.Goes ⟨M.behind .word2hexstr 15, wordCall s byte a lr, mem, dev⟩
      ⟨M.place .byte2hexstr, wordCall s (s.r0 &&& 0xFF) (a + 2) (M.behind .word2hexstr 19), mem, dev⟩ :=
  hp.goes_behind 15 rfl fun _ => rfl

theorem word2hexstr_exit (hstack : mem.words (s.sp - 16) 4 = [s.r0, s.r1, s.r2, s.lr]) :
    M.Goes ⟨M.behind .word2hexstr 19, wordCall s byte a lr, mem, dev⟩ ⟨s.lr, s, mem, dev⟩ := by
  have hpushed : mem.words (s.sp - 16#32) 4 = [s.r0, s.r1, s.r2, s.lr] := hstack
  exact hp.goes_behind 19 rfl fun flags => by simp [wordCall, hpushed, BitVec.sub_add_cancel]

end Calls

/-- **`word2hexstr`** writes eight characters and leaves all registers as they are. -/
theorem word2hexstr_spec (hpc : x.pc = M.place .word2hexstr)
    (hclear : ∀ a, Inside x.regs.r1 8 a → ¬Below 36 x.regs.sp a) :
    M.Returns 36 x x.regs (x.mem.put x.regs.r1 (hexWord x.regs.r0)) x.dev := by
  have hapart : ∀ k ≤ 6, ∀ a, Inside (x.regs.r1 + BitVec.ofNat 32 k) 2 a → ¬Below 20 (x.regs.sp - 16) a := by
    intro k hk a ha h
    refine hclear a ?_ (h.of_sub (by decide))
    unfold Inside at *
    bv_omega
  have hentry := word2hexstr_entry hp hpc
  obtain ⟨mem1, hfirst, hmem1⟩ := word2hexstr_call hp (x.regs.r0 >>> 24 &&& 0xFF) (M.behind .word2hexstr 5)
    (x.mem.putWords (x.regs.sp - 16) [x.regs.r0, x.regs.r1, x.regs.r2, x.regs.lr]) x.dev
    (by simpa using hapart 0 (by decide))
  obtain ⟨mem2, hsecond, hmem2⟩ := word2hexstr_call hp (x.regs.r0 >>> 16 &&& 0xFF) (M.behind .word2hexstr 10) mem1
    x.dev (hapart 2 (by decide))
  obtain ⟨mem3, hthird, hmem3⟩ := word2hexstr_call hp (x.regs.r0 >>> 8 &&& 0xFF) (M.behind .word2hexstr 15) mem2
    x.dev (a := x.regs.r1 + 2 + 2) (by simpa [BitVec.add_assoc] using hapart 4 (by decide))
  obtain ⟨mem4, hfourth, hmem4⟩ := word2hexstr_call hp (x.regs.r0 &&& 0xFF) (M.behind .word2hexstr 19) mem3
    x.dev (a := x.regs.r1 + 2 + 2 + 2) (by simpa [BitVec.add_assoc] using hapart 6 (by decide))
  -- what the calls leave of what they find
  have hmem : ∀ a, ¬Below 20 (x.regs.sp - 16) a → mem4 a =
      (x.mem.putWords (x.regs.sp - 16) [x.regs.r0, x.regs.r1, x.regs.r2, x.regs.lr]).put x.regs.r1
        (hexWord x.regs.r0) a := by
    intro a ha
    have hall := (hmem4 a ha).trans
      (Ram.put_congr ((hmem3 a ha).trans (Ram.put_congr ((hmem2 a ha).trans (Ram.put_congr (hmem1 a ha))))))
    rw [hexWord, Ram.put_append _ _ _ _ (by simp), Ram.put_append _ _ _ _ (by simp), Ram.put_append _ _ _ _ (by simp)]
    simpa [BitVec.add_assoc] using hall
  have hstack : mem4.words (x.regs.sp - 16) 4 = [x.regs.r0, x.regs.r1, x.regs.r2, x.regs.lr] := by
    refine Ram.words_congr (n := 4) (by decide) (fun a ha => (hmem a ?_).trans (Ram.put_outside ?_)) |>.trans
      (Ram.words_putWords _ [x.regs.r0, x.regs.r1, x.regs.r2, x.regs.lr] x.mem (by simp))
    · exact fun h => h.not_inside (by decide) ha
    · exact fun hin => hclear a hin ((Below.of_inside ha).mono (by decide))
  refine ⟨mem4, ?_, fun a ha => ?_⟩
  · have htwo := ((hentry.trans hfirst).trans (word2hexstr_second hp)).trans hsecond
    have hthree := (htwo.trans (word2hexstr_third hp)).trans hthird
    have hfour := (hthree.trans (word2hexstr_fourth hp)).trans hfourth
    exact hfour.trans (word2hexstr_exit hp hstack)
  · rw [hmem a fun h => ha (h.of_sub (by decide))]
    exact Ram.put_congr (pushed_outside 16 rfl rfl (by decide) fun h => ha (h.mono (by decide)))

/-! ## `hex2nibble` -/

theorem hex2nibble_sort (hpc : x.pc = M.place .hex2nibble) :
    M.Goes x
      { x with
        mem := x.mem.putWords (x.regs.sp - 4) [x.regs.r2]
        regs := { x.regs with r0 := 0xF0, r2 := x.regs.r0 &&& 255, sp := x.regs.sp - 4 }
        pc :=
          if (x.regs.r0 &&& 255).toInt ≤ 47 then M.place .hex2nibble1
          else if 103 ≤ (x.regs.r0 &&& 255).toInt then M.place .hex2nibble1
          else if (x.regs.r0 &&& 255).toInt ≤ 57 then M.place .isnum
          else if 97 ≤ (x.regs.r0 &&& 255).toInt then M.place .isaf
          else if (x.regs.r0 &&& 255).toInt ≤ 64 then M.place .hex2nibble1
          else if (x.regs.r0 &&& 255).toInt ≤ 70 then M.place .isAF
          else M.place .isnum } := by
  have hnext := hp.next .hex2nibble _ rfl
  have hlength : (program.text Label.hex2nibble).length = 15 := rfl
  rw [hlength] at hnext
  refine hp.goes hpc fun flags => ?_
  generalize hr : x.regs.r0 &&& 255#32 = w
  by_cases h1 : w.toInt ≤ 47
  · simp [hr, h1]
  by_cases h2 : 103 ≤ w.toInt
  · simp [hr, h1, h2]
  by_cases h3 : w.toInt ≤ 57
  · simp [hr, h1, h2, h3]
  by_cases h4 : 97 ≤ w.toInt
  · simp [hr, h1, h2, h3, h4]
  by_cases h5 : w.toInt ≤ 64
  · simp [hr, h1, h2, h3, h4, h5]
  by_cases h6 : w.toInt ≤ 70
  · simp [hr, h1, h2, h3, h4, h5, h6]
  · simp [hr, h1, h2, h3, h4, h5, h6, ← hnext]

/-- The three kinds of digits. -/
theorem hex2nibble_digit :
    (x.pc = M.place .isnum → M.Goes x { x with regs := { x.regs with r0 := x.regs.r2 - 48 }, pc := M.place .hex2nibble1 }) ∧
    (x.pc = M.place .isAF → M.Goes x { x with regs := { x.regs with r0 := x.regs.r2 - 55 }, pc := M.place .hex2nibble1 }) ∧
    (x.pc = M.place .isaf → M.Goes x { x with regs := { x.regs with r0 := x.regs.r2 - 87 }, pc := M.place .hex2nibble1 }) :=
  ⟨fun hpc => hp.goes hpc fun _ => rfl, fun hpc => hp.goes hpc fun _ => rfl, fun hpc => hp.goes hpc fun _ => rfl⟩

theorem hex2nibble_exit (hpc : x.pc = M.place .hex2nibble1) {r2 : Word} (hstack : x.mem.words x.regs.sp 1 = [r2]) :
    M.Goes x { x with regs := { x.regs with r2 := r2, sp := x.regs.sp + 4 }, pc := x.regs.lr } :=
  hp.goes hpc fun flags => by simp [hstack]

/-- To the end of `hex2nibble`. -/
theorem hex2nibble_body (hpc : x.pc = M.place .hex2nibble) :
    M.Goes x
      { x with
        mem := x.mem.putWords (x.regs.sp - 4) [x.regs.r2]
        regs := { x.regs with
          r0 := hexNibble (x.regs.r0.setWidth 8), r2 := x.regs.r0 &&& 255, sp := x.regs.sp - 4 }
        pc := M.place .hex2nibble1 } := by
  have hsort := hex2nibble_sort hp hpc
  rw [and_mask] at hsort ⊢
  generalize x.regs.r0.setWidth 8 = ch at hsort ⊢
  have hint : (ch.setWidth 32).toInt = ch.toNat := by
    have hlt := ch.isLt
    rw [BitVec.toInt_eq_toNat_of_lt] <;> rw [BitVec.toNat_setWidth] <;> omega
  rw [hint] at hsort
  by_cases h1 : ch ≤ 47 ∨ 103 ≤ ch
  · have hout : ¬(ch.toNat : ℤ) ≤ 47 → 103 ≤ (ch.toNat : ℤ) := by bv_omega
    rw [hexNibble, if_pos h1]
    split at hsort
    · exact hsort
    · rename_i hlow
      rwa [if_pos (hout hlow)] at hsort
  rw [hexNibble, if_neg h1]
  rw [if_neg (by bv_omega), if_neg (by bv_omega)] at hsort
  by_cases h2 : ch ≤ 57
  · rw [if_pos (by bv_omega)] at hsort
    rw [if_pos h2]
    exact hsort.trans ((hex2nibble_digit hp).1 rfl)
  rw [if_neg h2]
  rw [if_neg (by bv_omega)] at hsort
  by_cases h3 : 97 ≤ ch
  · rw [if_pos (by bv_omega)] at hsort
    rw [if_pos h3]
    exact hsort.trans ((hex2nibble_digit hp).2.2 rfl)
  rw [if_neg h3]
  rw [if_neg (by bv_omega)] at hsort
  by_cases h4 : ch ≤ 64
  · rw [if_pos (by bv_omega)] at hsort
    rwa [if_pos h4]
  rw [if_neg h4]
  rw [if_neg (by bv_omega)] at hsort
  by_cases h5 : ch ≤ 70
  · rw [if_pos (by bv_omega)] at hsort
    rw [if_pos h5]
    exact hsort.trans ((hex2nibble_digit hp).2.1 rfl)
  · rw [if_neg (by bv_omega)] at hsort
    rw [if_neg h5]
    exact hsort.trans ((hex2nibble_digit hp).1 rfl)

/-- **`hex2nibble`** looks at the last byte of its argument only. -/
theorem hex2nibble_spec (hpc : x.pc = M.place .hex2nibble) :
    M.Returns 4 x { x.regs with r0 := hexNibble (x.regs.r0.setWidth 8) } x.mem x.dev := by
  have hbody := hex2nibble_body hp hpc
  generalize hy : Point.mk _ _ _ _ = y at hbody
  have hstack : y.mem.words y.regs.sp 1 = [x.regs.r2] := by
    rw [← hy]
    exact Ram.words_putWords _ [x.regs.r2] x.mem (by simp)
  have hexit := hex2nibble_exit hp (x := y) (by rw [← hy]) hstack
  refine ⟨y.mem, ?_, fun a ha => ?_⟩
  · simpa [← hy, BitVec.sub_add_cancel] using hbody.trans hexit
  · rw [← hy]
    exact pushed_outside 4 rfl rfl (by decide) ha

/-! ## `hex2byte` -/

/-- To the first call. -/
theorem hex2byte_entry (hpc : x.pc = M.place .hex2byte) (hclear : ¬Below 12 x.regs.sp x.regs.r0) :
    M.Goes x
      { x with
        mem := x.mem.putWords (x.regs.sp - 12) [x.regs.r1, x.regs.r2, x.regs.lr]
        regs := { x.regs with
          r0 := (x.mem x.regs.r0).setWidth 32, r1 := 0, r2 := x.regs.r0, sp := x.regs.sp - 12
          lr := M.behind .hex2byte 5 }
        pc := M.place .hex2nibble } := by
  have hsame : x.mem.putWords (x.regs.sp - 12#32) [x.regs.r1, x.regs.r2, x.regs.lr] x.regs.r0 = x.mem x.regs.r0 :=
    pushed_outside 12 rfl rfl (by decide) hclear
  exact hp.goes hpc fun flags => by simp [hsame]

/-- From the first call to the second. -/
theorem hex2byte_second (hpc : x.pc = M.behind .hex2byte 5) :
    M.Goes x
      { x with
        regs := { x.regs with
          r0 := (x.mem (x.regs.r2 + 1)).setWidth 32, r1 := (x.regs.r1 + x.regs.r0) <<< 4
          lr := M.behind .hex2byte 9 }
        pc := M.place .hex2nibble } :=
  hp.goes_behind 5 hpc fun flags => by simp

theorem hex2byte_exit (hpc : x.pc = M.behind .hex2byte 9) {r1 r2 lr : Word}
    (hstack : x.mem.words x.regs.sp 3 = [r1, r2, lr]) :
    M.Goes x
      { x with
        regs := { x.regs with r0 := x.regs.r1 + x.regs.r0, r1 := r1, r2 := r2, lr := lr, sp := x.regs.sp + 12 }
        pc := lr } :=
  hp.goes_behind 9 hpc fun flags => by simp [hstack]

/-- **`hex2byte`** reads both characters. -/
theorem hex2byte_spec (hpc : x.pc = M.place .hex2byte) (hclear : ∀ a, Inside x.regs.r0 2 a → ¬Below 16 x.regs.sp a) :
    M.Returns 16 x
      { x.regs with r0 := hexNibble (x.mem x.regs.r0) <<< 4 + hexNibble (x.mem (x.regs.r0 + 1)) } x.mem x.dev := by
  have hclear0 : ¬Below 16 x.regs.sp x.regs.r0 := hclear _ (by simp [Inside])
  have hclear1 : ¬Below 16 x.regs.sp (x.regs.r0 + 1) := hclear _ (by unfold Inside; bv_omega)
  have hentry := hex2byte_entry hp hpc fun h => hclear0 (h.mono (by decide))
  generalize hy : Point.mk _ _ _ _ = y at hentry
  obtain ⟨mem1, hfirst, hkept1⟩ := hex2nibble_spec hp (x := y) (by rw [← hy])
  generalize hz : Point.mk _ _ mem1 _ = z at hfirst
  have hsecond := hex2byte_second hp (x := z) (by rw [← hz, ← hy])
  generalize hv : Point.mk _ _ _ _ = v at hsecond
  obtain ⟨mem2, hthird, hkept2⟩ := hex2nibble_spec hp (x := v) (by rw [← hv])
  generalize hw : Point.mk _ _ mem2 _ = w at hthird
  have hkept : ∀ a, ¬Below 4 (x.regs.sp - 12) a →
      mem2 a = x.mem.putWords (x.regs.sp - 12) [x.regs.r1, x.regs.r2, x.regs.lr] a := by
    intro a ha
    rw [← hv, ← hz, ← hy] at hkept2
    rw [← hy] at hkept1
    exact (hkept2 a ha).trans (hkept1 a ha)
  have hother : mem1 (x.regs.r0 + 1#32) = x.mem (x.regs.r0 + 1#32) := by
    rw [← hy] at hkept1
    exact (hkept1 _ fun h => hclear1 (h.of_sub (by decide))).trans
      (pushed_outside 12 rfl rfl (by decide) fun h => hclear1 (h.mono (by decide)))
  have hstack : w.mem.words w.regs.sp 3 = [x.regs.r1, x.regs.r2, x.regs.lr] := by
    rw [← hw, ← hv, ← hz, ← hy]
    exact words_pushed 12 rfl rfl (by decide) fun a ha => hkept a fun h => h.not_inside (by decide) ha
  have hexit := hex2byte_exit hp (x := w) (by rw [← hw, ← hv]) hstack
  refine ⟨w.mem, ?_, fun a ha => ?_⟩
  · have hrun := (((hentry.trans hfirst).trans hsecond).trans hthird).trans hexit
    simpa [← hw, ← hv, ← hz, ← hy, BitVec.sub_add_cancel, hother] using hrun
  · have hmem : w.mem = mem2 := by rw [← hw]
    rw [hmem, hkept a fun h => ha (h.of_sub (by decide))]
    exact pushed_outside 12 rfl rfl (by decide) fun h => ha (h.mono (by decide))

/-! ## Digits and numbers -/

omit hp

theorem hexNibble_hexDigit {n : Word} (h : n < 16) : hexNibble (hexDigit n) = n := by
  obtain ⟨k, hk, rfl⟩ : ∃ k < 16, n = BitVec.ofNat 32 k := ⟨n.toNat, h, by simp⟩
  interval_cases k <;> rfl

/-- The number that two characters are read as. -/
def hexValue (ch ch' : Byte) : Word := hexNibble ch <<< 4 + hexNibble ch'

/-- A byte is read as it was written. -/
theorem hexValue_hexByte {b : Word} (h : b < 256) : hexValue (hexDigit (b >>> 4)) (hexDigit (b &&& 15)) = b := by
  have hlow : (b &&& 15).toNat = b.toNat % 16 := Nat.and_two_pow_sub_one_eq_mod _ 4
  have hhigh : (b >>> 4).toNat = b.toNat / 16 := by
    rw [BitVec.toNat_ushiftRight, Nat.shiftRight_eq_div_pow]
  have hlt : b.toNat < 256 := h
  rw [hexValue, hexNibble_hexDigit (by bv_omega), hexNibble_hexDigit (by bv_omega)]
  refine BitVec.eq_of_toNat_eq ?_
  rw [BitVec.toNat_add, BitVec.toNat_shiftLeft, hhigh, hlow, Nat.shiftLeft_eq]
  omega

theorem masked_byte (w : Word) (k : ℕ) : w >>> (8 * k) &&& 255 = (byteOf k w).setWidth 32 := by
  rw [and_mask]
  refine congrArg (BitVec.setWidth 32) (BitVec.eq_of_toNat_eq ?_)
  rw [byteOf, BitVec.extractLsb'_toNat, BitVec.toNat_setWidth, BitVec.toNat_ushiftRight]

/-- The characters of a word, most significant byte first. -/
theorem hexWord_eq (w : Word) :
    hexWord w = hexByte ((byteOf 3 w).setWidth 32) ++ hexByte ((byteOf 2 w).setWidth 32) ++
      hexByte ((byteOf 1 w).setWidth 32) ++ hexByte ((byteOf 0 w).setWidth 32) := by
  simp only [← masked_byte]
  rfl

theorem length_hexWord (w : Word) : (hexWord w).length = 8 := rfl

/-- The two characters of a byte at their place. -/
theorem hexWord_at (w : Word) {i : ℕ} (hi : i < 4) {b : Word} (hb : b = (byteOf (3 - i) w).setWidth 32) :
    (hexWord w)[2 * i]? = some (hexDigit (b >>> 4)) ∧ (hexWord w)[2 * i + 1]? = some (hexDigit (b &&& 15)) := by
  subst hb
  rw [hexWord_eq]
  interval_cases i <;> exact ⟨rfl, rfl⟩

/-- **Hexadecimal round trip**: of the eight characters that `word2hexstr` writes for a word, `hex2byte`
reads each pair as the byte it stands for. -/
theorem hex_round_trip (hp : program.Placed M) (hpc : x.pc = M.place .word2hexstr)
    (hclear : ∀ a, Inside x.regs.r1 8 a → ¬Below 36 x.regs.sp a) :
    ∃ mem, M.Returns 36 x x.regs mem x.dev ∧
      ∀ (i : ℕ) (z : Point σ), i < 4 → z.pc = M.place .hex2byte → z.regs.r0 = x.regs.r1 + BitVec.ofNat 32 (2 * i) →
        (∀ a, Inside x.regs.r1 8 a → z.mem a = mem a ∧ ¬Below 16 z.regs.sp a) →
        M.Returns 16 z { z.regs with r0 := (byteOf (3 - i) x.regs.r0).setWidth 32 } z.mem z.dev := by
  refine ⟨_, word2hexstr_spec hp hpc hclear, fun i z hi hz hr0 hmem => ?_⟩
  have hinside : ∀ k < 8, Inside x.regs.r1 8 (x.regs.r1 + BitVec.ofNat 32 k) := fun k hk => inside_iff.mpr ⟨k, hk, rfl⟩
  have hread : ∀ k < 8, ∀ ch, (hexWord x.regs.r0)[k]? = some ch → z.mem (x.regs.r1 + BitVec.ofNat 32 k) = ch := by
    intro k hk ch hch
    rw [(hmem _ (hinside k hk)).1, Ram.put_at (by rwa [length_hexWord]) (by rw [length_hexWord]; decide)]
    exact (List.getElem?_eq_some_iff.mp hch).2
  have hsecond : z.regs.r0 + 1 = x.regs.r1 + BitVec.ofNat 32 (2 * i + 1) := by
    rw [hr0]
    bv_omega
  have hspec := hex2byte_spec hp hz (by
    intro a ha
    refine (hmem a ?_).2
    rw [hr0] at ha
    unfold Inside at *
    bv_omega)
  obtain ⟨hhigh, hlow⟩ := hexWord_at x.regs.r0 hi rfl
  rw [hsecond, hr0, hread _ (by omega) _ hhigh, hread _ (by omega) _ hlow] at hspec
  have hbyte : ((byteOf (3 - i) x.regs.r0).setWidth 32) < 256 := by
    bv_omega
  exact hexValue_hexByte hbyte ▸ hspec

/-- The word `0x1234ABCD`, and its first byte. -/
theorem hex_round_trip_word :
    let regs : Regs := { (default : Regs) with r0 := 0x1234ABCD, r1 := 0x1000, sp := 0x8000000 }
    ∃ mem, bare.Returns 36 ⟨bare.place .word2hexstr, regs, fun _ => 0, ()⟩ regs mem () ∧
      bare.Returns 16 ⟨bare.place .hex2byte, { regs with r0 := 0x1000 }, mem, ()⟩ { regs with r0 := 0x12 } mem () := by
  intro regs
  have hclear : ∀ d ≤ 36, ∀ a, Inside 0x1000 8 a → ¬Below d 0x8000000 a := by
    intro d hd a ha
    unfold Inside Below at *
    bv_omega
  obtain ⟨mem, hreturns, hread⟩ :=
    hex_round_trip placed_bare (x := ⟨bare.place .word2hexstr, regs, fun _ => 0, ()⟩) rfl (hclear 36 (by decide))
  have hbyte : (byteOf (3 - 0) 0x1234ABCD).setWidth 32 = (0x12 : Word) := rfl
  have hfirst := hread 0 ⟨bare.place .hex2byte, { regs with r0 := 0x1000 }, mem, ()⟩ (by decide) rfl rfl
    fun a ha => ⟨rfl, hclear 16 (by decide) a ha⟩
  rw [hbyte] at hfirst
  exact ⟨mem, hreturns, hfirst⟩

/-! ## What is accepted -/

/-- The character is a digit. -/
def IsHex (ch : Byte) : Prop := (48 ≤ ch ∧ ch ≤ 57) ∨ (65 ≤ ch ∧ ch ≤ 70) ∨ (97 ≤ ch ∧ ch ≤ 102)

instance : DecidablePred IsHex := fun _ => inferInstanceAs (Decidable (_ ∨ _ ∨ _))

/-- The character stands between `F` and `a`. -/
def Between (ch : Byte) : Prop := 71 ≤ ch ∧ ch ≤ 96

theorem hexNibble_cases (ch : Byte) :
    (IsHex ch ∧ (hexNibble ch).toNat < 16 ∧ ((hexNibble ch).toNat = 0 ↔ ch = 48)) ∨
    (Between ch ∧ ¬IsHex ch ∧ (hexNibble ch).toNat = ch.toNat - 48) ∨
    (¬IsHex ch ∧ ¬Between ch ∧ (hexNibble ch).toNat = 0xF0) := by
  have hinvalid : (0xF0 : Word).toNat = 0xF0 := rfl
  unfold hexNibble IsHex Between
  split_ifs <;> first | bv_omega | exact .inr (.inr ⟨by bv_omega, by bv_omega, hinvalid⟩)

theorem hexValue_le_iff (ch ch' : Byte) :
    (hexValue ch ch').toNat ≤ 255 ↔
      IsHex ch ∧ (IsHex ch' ∨ ch = 48 ∨ Between ch' ∧ 16 * (hexNibble ch).toNat + (ch'.toNat - 48) ≤ 255) := by
  have hsmall : ∀ ch : Byte, (hexNibble ch).toNat ≤ 255 := by
    intro ch
    have hlt := ch.isLt
    rcases hexNibble_cases ch with h | h | h <;> omega
  have hvalue : (hexValue ch ch').toNat = 16 * (hexNibble ch).toNat + (hexNibble ch').toNat := by
    have hch := hsmall ch; have hch' := hsmall ch'
    rw [hexValue, BitVec.toNat_add, BitVec.toNat_shiftLeft, Nat.shiftLeft_eq]
    omega
  have hbound : Between ch → 71 ≤ ch.toNat := fun h => h.1
  rw [hvalue]
  rcases hexNibble_cases ch with ⟨hhex, hlt, hzero⟩ | ⟨hbetween, hhex, hnibble⟩ | ⟨hhex, -, hnibble⟩
  · simp only [hhex, true_and]
    rcases hexNibble_cases ch' with ⟨hhex', hlt', -⟩ | ⟨hbetween', hhex', hnibble'⟩ | ⟨hhex', hbetween', hnibble'⟩
    · simp only [hhex', true_or, iff_true]
      omega
    · have hle : ch'.toNat ≤ 96 := hbetween'.2
      simp only [hhex', hbetween', hnibble', ← hzero, false_or, true_and]
      omega
    · simp only [hhex', hbetween', hnibble', ← hzero, false_or, false_and, or_false]
      omega
  · have hch := hbound hbetween
    exact ⟨fun h => absurd h (by omega), fun h => absurd h.1 hhex⟩
  · exact ⟨fun h => absurd h (by omega), fun h => absurd h.1 hhex⟩

/-- **What `hex2byte` accepts**: it returns always, and it reports two characters as invalid, with a
number above 255, unless the first is a digit and so is the second; or the first is `0`, with any
second one; or the second stands between `F` and `a` and the number is small enough. -/
theorem hex2byte_accepts_iff (hp : program.Placed M) (hpc : x.pc = M.place .hex2byte)
    (hclear : ∀ a, Inside x.regs.r0 2 a → ¬Below 16 x.regs.sp a) :
    ∃ w, M.Returns 16 x { x.regs with r0 := w } x.mem x.dev ∧
      (w.toNat ≤ 255 ↔
        IsHex (x.mem x.regs.r0) ∧
          (IsHex (x.mem (x.regs.r0 + 1)) ∨ x.mem x.regs.r0 = 48 ∨
            Between (x.mem (x.regs.r0 + 1)) ∧
              16 * (hexNibble (x.mem x.regs.r0)).toNat + ((x.mem (x.regs.r0 + 1)).toNat - 48) ≤ 255)) :=
  ⟨_, hex2byte_spec hp hpc hclear, hexValue_le_iff _ _⟩

/-- `0x` is taken for a number. -/
theorem hex2byte_accepts_0x :
    let regs : Regs := { (default : Regs) with r0 := 0x1000, sp := 0x8000000 }
    let mem : Ram := fun a => if a = 0x1000 then 0x30 else 0x78
    ∃ w, bare.Returns 16 ⟨bare.place .hex2byte, regs, mem, ()⟩ { regs with r0 := w } mem () ∧ w.toNat ≤ 255 := by
  intro regs mem
  have hclear : ∀ a, Inside 0x1000 2 a → ¬Below 16 0x8000000 a := by
    intro a ha
    unfold Inside Below at *
    bv_omega
  obtain ⟨w, hreturns, hiff⟩ :=
    hex2byte_accepts_iff placed_bare (x := ⟨bare.place .hex2byte, regs, mem, ()⟩) rfl hclear
  have hzero : IsHex 48 := by decide
  exact ⟨w, hreturns, hiff.mpr ⟨hzero, .inr (.inl rfl)⟩⟩

end Pigfx.Asm
