import Pigfx.Asm.Text

/-!
# Strings

`strlen` counts the bytes before the first zero, and `strcmp` compares byte by byte.

## Main definitions

* `strlen_spec`, `strcmp_spec` — what they do to the state.
* `strcmp_orders` — the main result.
-/

namespace Pigfx.Asm
open Lib Lib.Arm Reg

variable {σ : Type} {M : Machine Label σ} (hp : program.Placed M) {x : Point σ}

theorem setWidth_eq_zero {ch : Byte} : ch.setWidth 32 = 0#32 ↔ ch = 0#8 := by
  constructor
  · intro h
    bv_omega
  · rintro rfl
    rfl

include hp

/-! ## `strlen` -/

theorem strlen_entry (hpc : x.pc = M.place .strlen) :
    M.Goes x
      { x with
        mem := x.mem.putWords (x.regs.sp - 8) [x.regs.r1, x.regs.r2]
        regs := { x.regs with r0 := 0, r1 := x.regs.r0, sp := x.regs.sp - 8 }
        pc := M.place .strlen1 } := by
  rw [hp.next .strlen _ rfl]
  exact hp.goes hpc fun flags => rfl

theorem strlen_turn (hpc : x.pc = M.place .strlen1) (hch : x.mem x.regs.r1 ≠ 0#8) :
    M.Goes x
      { x with
        regs := { x.regs with r0 := x.regs.r0 + 1, r1 := x.regs.r1 + 1, r2 := (x.mem x.regs.r1).setWidth 32 }
        pc := M.place .strlen1 } :=
  hp.goes hpc fun flags => by simp [setWidth_eq_zero, hch]

theorem strlen_stop (hpc : x.pc = M.place .strlen1) (hch : x.mem x.regs.r1 = 0#8) :
    M.Goes x { x with regs := { x.regs with r2 := 0 }, pc := M.place .strlen2 } :=
  hp.goes hpc fun flags => by simp [hch]

theorem strlen_exit (hpc : x.pc = M.place .strlen2) {r1 r2 : Word} (hstack : x.mem.words x.regs.sp 2 = [r1, r2]) :
    M.Goes x { x with regs := { x.regs with r1 := r1, r2 := r2, sp := x.regs.sp + 8 }, pc := x.regs.lr } :=
  hp.goes hpc fun flags => by simp [hstack]

/-- The loop goes through the string. -/
theorem strlen_loop {str : List Byte} (hpc : x.pc = M.place .strlen1) (hstr : CString x.mem x.regs.r1 str) :
    ∃ r1, M.Goes x
      { x with
        regs := { x.regs with r0 := x.regs.r0 + BitVec.ofNat 32 str.length, r1 := r1, r2 := 0 }
        pc := M.place .strlen2 } := by
  induction str generalizing x with
  | nil => exact ⟨x.regs.r1, by simpa using strlen_stop hp hpc hstr⟩
  | cons ch str ih =>
      obtain ⟨hfirst, hne, hrest⟩ := hstr
      have hturn := strlen_turn hp hpc (hfirst ▸ hne)
      generalize hy : Point.mk _ _ _ _ = y at hturn
      obtain ⟨r1, hloop⟩ := ih (x := y) (by rw [← hy]) (by rw [← hy]; exact hrest)
      have hcount : x.regs.r0 + 1 + BitVec.ofNat 32 str.length = x.regs.r0 + BitVec.ofNat 32 (ch :: str).length := by
        rw [List.length_cons, BitVec.add_assoc, Nat.add_comm, BitVec.ofNat_add]
        rfl
      rw [← hcount]
      subst hy
      exact ⟨r1, hturn.trans hloop⟩

/-- **`strlen`** returns the length. -/
theorem strlen_spec {str : List Byte} (hpc : x.pc = M.place .strlen) (hstr : CString x.mem x.regs.r0 str)
    (hclear : ∀ a, Inside x.regs.r0 (str.length + 1) a → ¬Below 8 x.regs.sp a) (hlen : str.length < 2 ^ 32) :
    M.Returns 8 x { x.regs with r0 := BitVec.ofNat 32 str.length } x.mem x.dev := by
  have hentry := strlen_entry hp hpc
  have hstr' : CString (x.mem.putWords (x.regs.sp - 8) [x.regs.r1, x.regs.r2]) x.regs.r0 str :=
    hstr.congr (fun a ha => pushed_outside 8 rfl rfl (by decide) (hclear a ha)) hlen
  generalize hy : Point.mk _ _ _ _ = y at hentry
  obtain ⟨r1, hloop⟩ := strlen_loop hp (x := y) (by rw [← hy]) (by rw [← hy]; exact hstr')
  generalize hz : Point.mk _ _ _ _ = z at hloop
  have hstack : z.mem.words z.regs.sp 2 = [x.regs.r1, x.regs.r2] := by
    rw [← hz, ← hy]
    exact Ram.words_putWords _ [x.regs.r1, x.regs.r2] x.mem (by simp)
  have hexit := strlen_exit hp (x := z) (by rw [← hz]) hstack
  refine ⟨z.mem, ?_, fun a ha => ?_⟩
  · have hrun := (hentry.trans hloop).trans hexit
    simpa [← hz, ← hy, BitVec.sub_add_cancel] using hrun
  · rw [← hz, ← hy]
    exact pushed_outside 8 rfl rfl (by decide) ha

/-! ## `strcmp` -/

/-- The bytes at which the comparison ends. -/
def lastPair : List Byte → List Byte → Byte × Byte
  | ch :: str, ch' :: str' => if ch = ch' then lastPair str str' else (ch, ch')
  | str, str' => (str.headD 0, str'.headD 0)

theorem strcmp_entry (hpc : x.pc = M.place .strcmp) :
    M.Goes x
      { x with
        mem := x.mem.putWords (x.regs.sp - 8) [x.regs.r2, x.regs.r3]
        regs := { x.regs with sp := x.regs.sp - 8 }
        pc := M.place .strcmp1 } := by
  rw [hp.next .strcmp _ rfl]
  exact hp.goes hpc fun flags => rfl

/-- The state after the bytes are read. -/
theorem strcmp_turn (hpc : x.pc = M.place .strcmp1) :
    M.Goes x
      { x with
        regs := { x.regs with
          r0 := x.regs.r0 + 1, r1 := x.regs.r1 + 1
          r2 := (x.mem x.regs.r0).setWidth 32, r3 := (x.mem x.regs.r1).setWidth 32 }
        pc := if x.mem x.regs.r0 = x.mem x.regs.r1 ∧ x.mem x.regs.r0 ≠ 0#8 then M.place .strcmp1
          else M.place .strcmp1' } := by
  have hnext := hp.next .strcmp1 _ rfl
  have hlength : (program.text Label.strcmp1).length = 10 := rfl
  have hsame : ∀ ch ch' : Byte, ch.setWidth 32 = ch'.setWidth 32 ↔ ch = ch' := by
    intro ch ch'
    constructor
    · intro h
      bv_omega
    · rintro rfl
      rfl
  rw [hlength] at hnext
  refine hp.goes hpc fun flags => ?_
  by_cases hr : x.mem x.regs.r0 = 0#8
  · simp [hr]
  · by_cases hr' : x.mem x.regs.r1 = 0#8
    · simp [setWidth_eq_zero, hr, hr']
    · by_cases heq : x.mem x.regs.r0 = x.mem x.regs.r1
      · simp [setWidth_eq_zero, hr', heq]
      · simp [setWidth_eq_zero, hr, hr', heq, hsame, ← hnext]

theorem strcmp_exit (hpc : x.pc = M.place .strcmp1') {r2 r3 : Word} (hstack : x.mem.words x.regs.sp 2 = [r2, r3]) :
    M.Goes x
      { x with
        regs := { x.regs with r0 := x.regs.r2 - x.regs.r3, r2 := r2, r3 := r3, sp := x.regs.sp + 8 }
        pc := x.regs.lr } :=
  hp.goes hpc fun flags => by simp [hstack]

/-- The loop goes through the strings as long as they are the same. -/
theorem strcmp_loop {str str' : List Byte} (hpc : x.pc = M.place .strcmp1) (hstr : CString x.mem x.regs.r0 str)
    (hstr' : CString x.mem x.regs.r1 str') :
    ∃ r0 r1, M.Goes x
      { x with
        regs := { x.regs with
          r0 := r0, r1 := r1
          r2 := (lastPair str str').1.setWidth 32, r3 := (lastPair str str').2.setWidth 32 }
        pc := M.place .strcmp1' } := by
  have hhead := hstr.head
  have hhead' := hstr'.head
  induction str generalizing str' x with
  | nil =>
      have hturn := strcmp_turn hp hpc
      rw [if_neg (fun h => h.2 hhead), hhead, hhead'] at hturn
      exact ⟨_, _, by cases str' <;> exact hturn⟩
  | cons ch str ih =>
      have hturn := strcmp_turn hp hpc
      obtain ⟨hfirst, hne, hrest⟩ := hstr
      cases str' with
      | nil =>
          rw [if_neg (fun h => hne (by rw [← hfirst, h.1]; exact hhead')), hhead, hhead'] at hturn
          exact ⟨_, _, hturn⟩
      | cons ch' str' =>
          obtain ⟨hfirst', hne', hrest'⟩ := hstr'
          by_cases heq : ch = ch'
          · subst heq
            rw [if_pos ⟨by rw [hfirst, hfirst'], by rw [hfirst]; exact hne⟩] at hturn
            generalize hy : Point.mk _ _ _ _ = y at hturn
            have hrest : CString y.mem y.regs.r0 str := by rw [← hy]; exact hrest
            have hrest' : CString y.mem y.regs.r1 str' := by rw [← hy]; exact hrest'
            obtain ⟨r0, r1, hloop⟩ := ih (by rw [← hy]) hrest hrest' hrest.head hrest'.head
            refine ⟨r0, r1, hturn.trans ?_⟩
            rw [lastPair, if_pos rfl]
            subst hy
            exact hloop
          · rw [if_neg (fun h => heq (by rw [← hfirst, h.1, hfirst'])), hfirst, hfirst'] at hturn
            rw [lastPair, if_neg heq]
            exact ⟨_, _, hturn⟩

/-- **`strcmp`** returns the difference of the bytes at which the comparison ends. -/
theorem strcmp_spec {str str' : List Byte} (hpc : x.pc = M.place .strcmp) (hstr : CString x.mem x.regs.r0 str)
    (hstr' : CString x.mem x.regs.r1 str') (hlen : str.length < 2 ^ 32) (hlen' : str'.length < 2 ^ 32)
    (hclear : ∀ a, Inside x.regs.r0 (str.length + 1) a → ¬Below 8 x.regs.sp a)
    (hclear' : ∀ a, Inside x.regs.r1 (str'.length + 1) a → ¬Below 8 x.regs.sp a) :
    ∃ r1, M.Returns 8 x
      { x.regs with
        r0 := (lastPair str str').1.setWidth 32 - (lastPair str str').2.setWidth 32
        r1 := r1 } x.mem x.dev := by
  have hentry := strcmp_entry hp hpc
  have hpushed : CString (x.mem.putWords (x.regs.sp - 8) [x.regs.r2, x.regs.r3]) x.regs.r0 str :=
    hstr.congr (fun a ha => pushed_outside 8 rfl rfl (by decide) (hclear a ha)) hlen
  have hpushed' : CString (x.mem.putWords (x.regs.sp - 8) [x.regs.r2, x.regs.r3]) x.regs.r1 str' :=
    hstr'.congr (fun a ha => pushed_outside 8 rfl rfl (by decide) (hclear' a ha)) hlen'
  generalize hy : Point.mk _ _ _ _ = y at hentry
  obtain ⟨r0, r1, hloop⟩ :=
    strcmp_loop hp (x := y) (by rw [← hy]) (by rw [← hy]; exact hpushed) (by rw [← hy]; exact hpushed')
  generalize hz : Point.mk _ _ _ _ = z at hloop
  have hstack : z.mem.words z.regs.sp 2 = [x.regs.r2, x.regs.r3] := by
    rw [← hz, ← hy]
    exact Ram.words_putWords _ [x.regs.r2, x.regs.r3] x.mem (by simp)
  have hexit := strcmp_exit hp (x := z) (by rw [← hz]) hstack
  refine ⟨r1, z.mem, ?_, fun a ha => ?_⟩
  · have hrun := (hentry.trans hloop).trans hexit
    simpa [← hz, ← hy, BitVec.sub_add_cancel] using hrun
  · rw [← hz, ← hy]
    exact pushed_outside 8 rfl rfl (by decide) ha

omit hp

/-- The last pair is in the order of the strings. -/
theorem lastPair_order {str str' : List Byte} (h : ∀ ch ∈ str, ch ≠ 0) (h' : ∀ ch ∈ str', ch ≠ 0) :
    ((lastPair str str').1 = (lastPair str str').2 ↔ str = str') ∧
      ((lastPair str str').1 < (lastPair str str').2 ↔ str < str') := by
  induction str generalizing str' with
  | nil =>
      cases str' with
      | nil => simp [lastPair]
      | cons ch' str' =>
          have hne' : ch' ≠ 0#8 := h' ch' List.mem_cons_self
          have hpos : 0#8 < ch' := by bv_omega
          simp [lastPair, hne'.symm, hpos]
  | cons ch str ih =>
      cases str' with
      | nil =>
          have hne : ch ≠ 0#8 := h ch List.mem_cons_self
          simp [lastPair, hne]
      | cons ch' str' =>
          have hrest := ih (fun c hc => h c (List.mem_cons_of_mem _ hc)) (fun c hc => h' c (List.mem_cons_of_mem _ hc))
          by_cases heq : ch = ch'
          · simp [lastPair, heq, hrest]
          · simp [lastPair, heq, List.cons_lt_cons_iff]

/-- A difference of bytes has their order. -/
theorem sub_order (ch ch' : Byte) :
    (ch.setWidth 32 - ch'.setWidth 32 = 0#32 ↔ ch = ch') ∧
      ((ch.setWidth 32 - ch'.setWidth 32).toInt < 0 ↔ ch < ch') := by
  have hch := ch.isLt; have hch' := ch'.isLt
  constructor
  · constructor
    · intro h
      bv_omega
    · rintro rfl
      exact BitVec.sub_self _
  · have hword : ch.toNat % 2 ^ 32 = ch.toNat := Nat.mod_eq_of_lt (by omega)
    have hword' : ch'.toNat % 2 ^ 32 = ch'.toNat := Nat.mod_eq_of_lt (by omega)
    rw [BitVec.toInt_eq_toNat_cond, BitVec.toNat_sub, BitVec.toNat_setWidth, BitVec.toNat_setWidth, BitVec.lt_def,
      hword, hword']
    split <;> omega

/-- **`strcmp` orders strings**: what it returns is zero for equal strings only, and negative exactly
if the first string comes first.  It returns for all strings, and leaves memory as it is, except
for eight bytes of the stack. -/
theorem strcmp_orders (hp : program.Placed M) {str str' : List Byte} (hpc : x.pc = M.place .strcmp)
    (hstr : CString x.mem x.regs.r0 str) (hstr' : CString x.mem x.regs.r1 str') (hlen : str.length < 2 ^ 32)
    (hlen' : str'.length < 2 ^ 32) (hclear : ∀ a, Inside x.regs.r0 (str.length + 1) a → ¬Below 8 x.regs.sp a)
    (hclear' : ∀ a, Inside x.regs.r1 (str'.length + 1) a → ¬Below 8 x.regs.sp a) :
    ∃ r0 r1, M.Returns 8 x { x.regs with r0 := r0, r1 := r1 } x.mem x.dev ∧ (r0 = 0 ↔ str = str') ∧
      (r0.toInt < 0 ↔ str < str') := by
  obtain ⟨r1, hreturns⟩ := strcmp_spec hp hpc hstr hstr' hlen hlen' hclear hclear'
  obtain ⟨heq, hlt⟩ := lastPair_order hstr.nonzero hstr'.nonzero
  obtain ⟨hzero, hneg⟩ := sub_order (lastPair str str').1 (lastPair str str').2
  exact ⟨_, r1, hreturns, hzero.trans heq, hneg.trans hlt⟩

/-- `a` comes before `b`. -/
theorem strcmp_orders_letters :
    let regs : Regs := { (default : Regs) with r0 := 0x1000, r1 := 0x2000, sp := 0x8000000 }
    let mem : Ram := fun a => if a = 0x1000 then 0x61 else if a = 0x2000 then 0x62 else 0
    ∃ r0 r1, bare.Returns 8 ⟨bare.place .strcmp, regs, mem, ()⟩ { regs with r0 := r0, r1 := r1 } mem () ∧
      r0.toInt < 0 := by
  intro regs mem
  have hstr : CString mem 0x1000 [0x61] := ⟨rfl, by decide, rfl⟩
  have hstr' : CString mem 0x2000 [0x62] := ⟨rfl, by decide, rfl⟩
  have hclear : ∀ base : Word, base ≤ 0x2000 → ∀ a, Inside base 2 a → ¬Below 8 0x8000000 a := by
    intro base hbase a ha
    unfold Inside Below at *
    bv_omega
  obtain ⟨r0, r1, hreturns, -, hneg⟩ :=
    strcmp_orders placed_bare (x := ⟨bare.place .strcmp, regs, mem, ()⟩) rfl hstr hstr' (by decide) (by decide)
      (hclear _ (by decide)) (hclear _ (by decide))
  exact ⟨r0, r1, hreturns, hneg.mpr (by decide)⟩

end Pigfx.Asm
