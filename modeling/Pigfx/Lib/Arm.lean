import Pigfx.Lib.Ram
import Mathlib.Logic.Relation

/-!
# A processor

The part of the ARM instruction set that small routines use: arithmetic, conditional branches,
calls, words and bytes of memory, the stack.  An address can belong to a device, which has a
state of its own and sees every word that is read or written there.

A program is a list of instructions for each of its labels.  Where the linker places them
is left open.  Instructions are taken one at a time; a proof takes a whole list up to the next
jump, and calls whole routines.

The stack pointer is a multiple of four, as always.  Barriers do nothing that can be seen here.

## Main definitions

* `Instr`, `Machine.exec` — one instruction, `Machine` — what is outside of the processor.
* `Program.Placed` — a program in memory, `Machine.Reaches` — its runs.
* `Machine.run`, `Placed.reaches` — the instructions up to the next jump.
* `Machine.Goes`, `Machine.Returns` — what a piece of a routine does, and a routine.
-/

namespace Pigfx.Lib.Arm

universe u v

/-! ## Registers and flags -/

inductive Reg
  | r0 | r1 | r2 | r3 | r4 | r5 | r6 | r7 | r8 | r9 | r10 | r11 | r12 | sp | lr
  deriving DecidableEq, Repr

structure Regs where
  r0 : Word
  r1 : Word
  r2 : Word
  r3 : Word
  r4 : Word
  r5 : Word
  r6 : Word
  r7 : Word
  r8 : Word
  r9 : Word
  r10 : Word
  r11 : Word
  r12 : Word
  sp : Word
  lr : Word
  deriving DecidableEq, Repr, Inhabited

def Regs.get (s : Regs) : Reg → Word
  | .r0 => s.r0 | .r1 => s.r1 | .r2 => s.r2 | .r3 => s.r3 | .r4 => s.r4
  | .r5 => s.r5 | .r6 => s.r6 | .r7 => s.r7 | .r8 => s.r8 | .r9 => s.r9
  | .r10 => s.r10 | .r11 => s.r11 | .r12 => s.r12 | .sp => s.sp | .lr => s.lr

def Regs.set (s : Regs) (w : Word) : Reg → Regs
  | .r0 => { s with r0 := w } | .r1 => { s with r1 := w } | .r2 => { s with r2 := w }
  | .r3 => { s with r3 := w } | .r4 => { s with r4 := w } | .r5 => { s with r5 := w }
  | .r6 => { s with r6 := w } | .r7 => { s with r7 := w } | .r8 => { s with r8 := w }
  | .r9 => { s with r9 := w } | .r10 => { s with r10 := w } | .r11 => { s with r11 := w }
  | .r12 => { s with r12 := w } | .sp => { s with sp := w } | .lr => { s with lr := w }

structure Flags where
  n : Bool
  z : Bool
  c : Bool
  v : Bool
  deriving DecidableEq, Repr

/-- The flags after the difference of two words. -/
def Flags.diff (x y : Word) : Flags :=
  { n := (x - y).msb
    z := x - y = 0
    c := y ≤ x
    v := x.msb ≠ y.msb ∧ (x - y).msb ≠ x.msb }

/-- The conditions of conditional instructions. -/
inductive Cond
  | eq | ne | hs | lt | ge | gt | le
  deriving DecidableEq, Repr

def Cond.holds (f : Flags) : Cond → Bool
  | eq => f.z
  | ne => !f.z
  | hs => f.c
  | lt => f.n != f.v
  | ge => f.n == f.v
  | gt => !f.z && f.n == f.v
  | le => f.z || f.n != f.v

/-- What a comparison says about two words. -/
def Cond.compares (x y : Word) : Cond → Prop
  | eq => x = y
  | ne => x ≠ y
  | hs => y ≤ x
  | lt => x.toInt < y.toInt
  | ge => y.toInt ≤ x.toInt
  | gt => y.toInt < x.toInt
  | le => x.toInt ≤ y.toInt

/-- The sign of a difference is wrong if it overflows. -/
theorem Flags.sign_diff (x y : Word) : ((Flags.diff x y).n != (Flags.diff x y).v) = decide (x.toInt < y.toInt) := by
  have hx := x.isLt; have hy := y.isLt
  simp only [Flags.diff, BitVec.msb_eq_decide, BitVec.toInt_eq_toNat_cond, BitVec.toNat_sub]
  by_cases h1 : 2 ^ 31 ≤ x.toNat <;> by_cases h2 : 2 ^ 31 ≤ y.toNat <;>
    by_cases h3 : 2 ^ 31 ≤ (2 ^ 32 - y.toNat + x.toNat) % 2 ^ 32 <;>
    simp only [h1, h2, h3, decide_true, decide_false, Nat.reduceSub] <;> simp <;> omega

/-- **The flags of a difference decide comparisons.** -/
theorem Cond.holds_diff (x y : Word) (k : Cond) : k.holds (.diff x y) ↔ k.compares x y := by
  have hsign := Flags.sign_diff x y
  have hge : ((Flags.diff x y).n == (Flags.diff x y).v) = decide (y.toInt ≤ x.toInt) := by
    have hnot : ∀ a b : Bool, (a == b) = !(a != b) := by decide
    rw [hnot, hsign, ← decide_not, decide_eq_decide, not_lt]
  have hzero : (Flags.diff x y).z = decide (x = y) := by
    rw [Flags.diff, decide_eq_decide]
    bv_omega
  have hsame : x = y ↔ x.toInt = y.toInt := BitVec.toInt_inj.symm
  cases k with
  | eq => simp [holds, compares, hzero]
  | ne => simp [holds, compares, hzero]
  | hs => simp [holds, compares, Flags.diff]
  | lt => simp [holds, compares, hsign]
  | ge => rw [holds, hge, decide_eq_true_iff, compares]
  | gt =>
      rw [holds, hge, hzero, compares, Bool.and_eq_true, Bool.not_eq_true', decide_eq_false_iff_not,
        decide_eq_true_iff, hsame]
      omega
  | le =>
      rw [holds, hsign, hzero, compares, Bool.or_eq_true, decide_eq_true_iff, decide_eq_true_iff, hsame]
      omega

@[simp] theorem Cond.holds_ne (n z c v : Bool) : Cond.ne.holds ⟨n, z, c, v⟩ = !z := rfl

/-! ## Instructions -/

/-- The last operand of an instruction. -/
inductive Operand
  | imm (w : Word)
  | reg (r : Reg)
  | lsl (r : Reg) (n : ℕ)
  | lsr (r : Reg) (n : ℕ)
  | asr (r : Reg) (n : ℕ)
  deriving DecidableEq, Repr

instance : Coe Reg Operand := ⟨.reg⟩
instance (n : ℕ) : OfNat Operand n := ⟨.imm (BitVec.ofNat 32 n)⟩

def Operand.eval (s : Regs) : Operand → Word
  | imm w => w
  | reg r => s.get r
  | lsl r n => s.get r <<< n
  | lsr r n => s.get r >>> n
  | asr r n => (s.get r).sshiftRight n

/-- The instructions; `L` are the labels. -/
inductive Instr (L : Type u)
  | mov (d : Reg) (x : Operand)
  | add (d n : Reg) (x : Operand)
  | sub (d n : Reg) (x : Operand)
  | and (d n : Reg) (x : Operand)
  | orr (d n : Reg) (x : Operand)
  | bic (d n : Reg) (x : Operand)
  /-- a shift by a register -/
  | lslr (d n m : Reg)
  | cmp (n : Reg) (x : Operand)
  | tst (n : Reg) (x : Operand)
  | subs (d n : Reg) (x : Operand)
  | ldr (d n : Reg) (off : Word)
  | str (d n : Reg) (off : Word)
  | ldrb (d n : Reg) (off : Word)
  | strb (d n : Reg) (off : Word)
  | push (rs : List Reg)
  | pop (rs : List Reg)
  | b (l : L)
  | bl (l : L)
  | bx (r : Reg)
  /-- a barrier -/
  | mcr
  | when (k : Cond) (i : Instr L)

variable {L : Type u}

/-- `lsl d, n, #k` -/
abbrev Instr.lsl (d n : Reg) (k : ℕ) : Instr L := .mov d (.lsl n k)
/-- `lsr d, n, #k` -/
abbrev Instr.lsr (d n : Reg) (k : ℕ) : Instr L := .mov d (.lsr n k)
abbrev Instr.beq (l : L) : Instr L := .when .eq (.b l)
abbrev Instr.bne (l : L) : Instr L := .when .ne (.b l)
abbrev Instr.bhs (l : L) : Instr L := .when .hs (.b l)
abbrev Instr.blt (l : L) : Instr L := .when .lt (.b l)
abbrev Instr.bge (l : L) : Instr L := .when .ge (.b l)
abbrev Instr.bgt (l : L) : Instr L := .when .gt (.b l)
abbrev Instr.ble (l : L) : Instr L := .when .le (.b l)

/-! ## Steps -/

/-- What the processor works with: the words that belong to a device, the word that is read from an
address that is not a multiple of four, and the code, with the places of its labels. -/
structure Machine (L : Type u) (σ : Type v) where
  device : Word → Bool
  read : Word → σ → Word × σ
  write : Word → Word → σ → σ
  unaligned : Word → Ram → Word
  place : L → Word
  fetch : Word → Option (Instr L)

structure State (σ : Type v) where
  regs : Regs
  flags : Flags
  pc : Word
  mem : Ram
  dev : σ

variable {σ : Type v}

/-- A state without its flags, which mean nothing from one piece of a routine to the next. -/
structure Point (σ : Type v) where
  pc : Word
  regs : Regs
  mem : Ram
  dev : σ

def Point.state (x : Point σ) (flags : Flags) : State σ := ⟨x.regs, flags, x.pc, x.mem, x.dev⟩

namespace State

def point (s : State σ) : Point σ := ⟨s.pc, s.regs, s.mem, s.dev⟩

def set (r : Reg) (w : Word) (s : State σ) : State σ := { s with regs := s.regs.set w r }

def setAll (s : State σ) : List Reg → List Word → State σ
  | r :: rs, w :: ws => setAll (s.set r w) rs ws
  | _, _ => s

/-- The word at an address, from a device or from memory. -/
def load (M : Machine L σ) (d : Reg) (a : Word) (s : State σ) : State σ :=
  if M.device a then { s with dev := (M.read a s.dev).2 }.set d (M.read a s.dev).1
  else if a &&& 3 = 0 then s.set d (s.mem.word a)
  else s.set d (M.unaligned a s.mem)

/-- An address that is not a multiple of four is rounded down. -/
def store (M : Machine L σ) (a w : Word) (s : State σ) : State σ :=
  if M.device a then { s with dev := M.write a w s.dev }
  else { s with mem := s.mem.put (a &&& ~~~3) (bytesOf w) }

def push (rs : List Reg) (s : State σ) : State σ :=
  let sp := s.regs.sp - BitVec.ofNat 32 (4 * rs.length)
  { s with mem := s.mem.putWords sp (rs.map s.regs.get), regs := { s.regs with sp := sp } }

def pop (rs : List Reg) (s : State σ) : State σ :=
  (s.setAll rs (s.mem.words s.regs.sp rs.length)).set .sp (s.regs.sp + BitVec.ofNat 32 (4 * rs.length))

end State

namespace Machine
variable (M : Machine L σ)

/-- What an instruction does, apart from the program counter, if it is no jump. -/
def effect : Instr L → State σ → State σ
  | .mov d x, s => s.set d (x.eval s.regs)
  | .add d n x, s => s.set d (s.regs.get n + x.eval s.regs)
  | .sub d n x, s => s.set d (s.regs.get n - x.eval s.regs)
  | .and d n x, s => s.set d (s.regs.get n &&& x.eval s.regs)
  | .orr d n x, s => s.set d (s.regs.get n ||| x.eval s.regs)
  | .bic d n x, s => s.set d (s.regs.get n &&& ~~~x.eval s.regs)
  | .lslr d n m, s => s.set d (s.regs.get n <<< ((s.regs.get m).toNat % 256))
  | .cmp n x, s => { s with flags := .diff (s.regs.get n) (x.eval s.regs) }
  | .tst n x, s =>
      let w := s.regs.get n &&& x.eval s.regs
      { s with flags := { s.flags with n := w.msb, z := w = 0 } }
  | .subs d n x, s => { s with flags := .diff (s.regs.get n) (x.eval s.regs) }.set d (s.regs.get n - x.eval s.regs)
  | .ldr d n off, s => s.load M d (s.regs.get n + off)
  | .str d n off, s => s.store M (s.regs.get n + off) (s.regs.get d)
  | .ldrb d n off, s => s.set d ((s.mem (s.regs.get n + off)).setWidth 32)
  | .strb d n off, s => { s with mem := s.mem.put (s.regs.get n + off) [(s.regs.get d).setWidth 8] }
  | .push rs, s => s.push rs
  | .pop rs, s => s.pop rs
  | .when k i, s => if k.holds s.flags then effect i s else s
  | .b _, s | .bl _, s | .bx _, s | .mcr, s => s

/-- Where a jump goes, if it is taken. -/
def target : Instr L → State σ → Option Word
  | .b l, _ | .bl l, _ => some (M.place l)
  | .bx r, s => some (s.regs.get r)
  | .when k i, s => if k.holds s.flags then target i s else none
  | _, _ => none

end Machine

/-- A call leaves the address behind it in `lr`. -/
def isCall : Instr L → State σ → Bool
  | .bl _, _ => true
  | .when k i, s => k.holds s.flags && isCall i s
  | _, _ => false

/-- A program: the instructions behind each label, and the label that follows them. -/
structure Program (L : Type u) where
  text : L → List (Instr L)
  next : L → Option L

namespace Machine
variable (M : Machine L σ)

/-- One instruction. -/
def exec (i : Instr L) (s : State σ) : State σ :=
  let t := if isCall i s then s.set .lr (s.pc + 4) else M.effect i s
  { t with pc := (M.target i s).getD (s.pc + 4) }

def Step (s t : State σ) : Prop := ∃ i, M.fetch s.pc = some i ∧ t = M.exec i s

/-- The processor gets from one state to another. -/
def Reaches : State σ → State σ → Prop := Relation.ReflTransGen M.Step

/-- The instruction `k` behind the label. -/
def behind (l : L) (k : ℕ) : Word := M.place l + BitVec.ofNat 32 (4 * k)

/-- Instructions from the `k`-th behind a label on, up to the first jump that is taken. -/
def run (l : L) : ℕ → List (Instr L) → State σ → State σ
  | k, [], s => { s with pc := M.behind l k }
  | k, i :: is, s =>
      match M.target i s with
      | some a => { (if isCall i s then s.set .lr (M.behind l (k + 1)) else s) with pc := a }
      | none => run l (k + 1) is (M.effect i s)

/-- The processor goes from one point to another, whatever its flags are. -/
def Goes (x y : Point σ) : Prop := ∀ s : State σ, s.point = x → ∃ t, M.Reaches s t ∧ t.point = y

/-- A routine returns, with these registers, this memory and this device.  It uses `d` bytes of the
stack, where it leaves anything. -/
def Returns (d : ℕ) (x : Point σ) (regs : Regs) (mem : Ram) (dev : σ) : Prop :=
  ∃ mem', M.Goes x ⟨x.regs.lr, regs, mem', dev⟩ ∧ ∀ a, ¬Below d x.regs.sp a → mem' a = mem a

end Machine

/-- The program is in memory. -/
structure Program.Placed (p : Program L) (M : Machine L σ) : Prop where
  fetch : ∀ l k (h : k < (p.text l).length), M.fetch (M.behind l k) = some (p.text l)[k]
  next : ∀ l, ∀ l' ∈ p.next l, M.place l' = M.behind l (p.text l).length

-- what symbolic execution unfolds
attribute [simp] Point.state State.point Machine.run Machine.target Machine.effect isCall State.set Regs.get Regs.set
  Operand.eval Cond.holds_diff Cond.compares State.push State.pop State.setAll

/-! ## Rules -/

section Rules
variable {M : Machine L σ} {p : Program L}

theorem setAll_pc (s : State σ) (a : Word) (rs : List Reg) (ws : List Word) :
    ({ s with pc := a } : State σ).setAll rs ws = { s.setAll rs ws with pc := a } := by
  induction rs generalizing s ws with
  | nil => rfl
  | cons r rs ih =>
      cases ws with
      | nil => rfl
      | cons w ws => exact ih (s.set r w) ws

/-- No instruction but a jump depends on the program counter. -/
theorem effect_pc (i : Instr L) (s : State σ) (a : Word) : M.effect i { s with pc := a } = { M.effect i s with pc := a } := by
  induction i with
  | when k i ih =>
      rw [Machine.effect, Machine.effect]
      split
      · exact ih
      · rfl
  | ldr d n off =>
      rw [Machine.effect, Machine.effect, State.load, State.load]
      split_ifs <;> rfl
  | str d n off =>
      rw [Machine.effect, Machine.effect, State.store, State.store]
      split_ifs <;> rfl
  | pop rs => exact congrArg (State.set .sp _) (setAll_pc s a rs _)
  | _ => rfl

theorem target_pc (i : Instr L) (s : State σ) (a : Word) : M.target i { s with pc := a } = M.target i s := by
  induction i with
  | when k i ih =>
      rw [Machine.target, Machine.target, ih]
  | _ => rfl

theorem isCall_pc (i : Instr L) (s : State σ) (a : Word) : isCall i { s with pc := a } = isCall i s := by
  induction i with
  | when k i ih => rw [isCall, isCall, ih]
  | _ => rfl

/-- A jump does nothing else, -/
theorem effect_of_target {i : Instr L} {s : State σ} {a : Word} (h : M.target i s = some a) : M.effect i s = s := by
  induction i with
  | when k i ih =>
      rw [Machine.target] at h
      rw [Machine.effect]
      split
      · rename_i hk
        rw [if_pos hk] at h
        exact ih h
      · rfl
  | b l => rfl
  | bl l => rfl
  | bx r => rfl
  | _ => cases h

/-- and what does not jump does not call. -/
theorem not_isCall_of_target {i : Instr L} {s : State σ} (h : M.target i s = none) : isCall i s = false := by
  induction i with
  | when k i ih =>
      rw [Machine.target] at h
      rw [isCall]
      cases hk : k.holds s.flags with
      | true => exact ih (by rwa [if_pos hk] at h)
      | false => rfl
  | bl l => cases h
  | _ => rfl

theorem behind_succ (l : L) (k : ℕ) : M.behind l k + 4 = M.behind l (k + 1) := by
  rw [Machine.behind, Machine.behind]
  bv_omega

theorem behind_zero (l : L) : M.behind l 0 = M.place l := by simp [Machine.behind]

namespace Program.Placed
variable (hp : p.Placed M)
include hp

/-- **Instructions up to the next jump**, or up to some place before it. -/
theorem reaches (l : L) (k : ℕ) {is : List (Instr L)} (his : is <+: (p.text l).drop k) {s : State σ}
    (hpc : s.pc = M.behind l k) : M.Reaches s (M.run l k is s) := by
  have hlist : ∀ is k (s : State σ), is <+: (p.text l).drop k → M.Reaches { s with pc := M.behind l k } (M.run l k is s) := by
    intro is
    induction is with
    | nil => exact fun k s _ => .refl
    | cons i is ih =>
        intro k s hprefix
        obtain ⟨rest, hdrop⟩ := hprefix
        have hk : k < (p.text l).length := by
          by_contra hout
          rw [List.drop_eq_nil_of_le (by omega)] at hdrop
          cases hdrop
        rw [List.drop_eq_getElem_cons hk, List.cons_append] at hdrop
        obtain ⟨hi, his⟩ := List.cons.inj hdrop
        have hfetch : M.fetch (M.behind l k) = some i := by rw [hp.fetch l k hk, hi]
        have hstep : M.Step { s with pc := M.behind l k } (M.exec i { s with pc := M.behind l k }) := ⟨i, hfetch, rfl⟩
        refine .head hstep ?_
        rw [Machine.run, Machine.exec, target_pc, isCall_pc, behind_succ, effect_pc]
        cases htarget : M.target i s with
        | some a =>
            rw [effect_of_target htarget]
            cases isCall i s <;> exact .refl
        | none =>
            rw [not_isCall_of_target htarget]
            exact ih (k + 1) (M.effect i s) ⟨rest, his⟩
  have hrun := hlist _ k s his
  rw [← hpc] at hrun
  exact hrun

end Program.Placed

/-- A piece up to the next jump. -/
theorem Program.Placed.goes (hp : p.Placed M) {l : L} {x y : Point σ} (hpc : x.pc = M.place l)
    (h : ∀ flags, (M.run l 0 (p.text l) (x.state flags)).point = y) : M.Goes x y := by
  rintro s rfl
  exact ⟨_, hp.reaches l 0 (List.prefix_refl _) (hpc.trans (behind_zero l).symm), h s.flags⟩

/-- The piece behind a call. -/
theorem Program.Placed.goes_behind (hp : p.Placed M) {l : L} (k : ℕ) {x y : Point σ} (hpc : x.pc = M.behind l k)
    (h : ∀ flags, (M.run l k ((p.text l).drop k) (x.state flags)).point = y) : M.Goes x y := by
  rintro s rfl
  exact ⟨_, hp.reaches l k (List.prefix_refl _) hpc, h s.flags⟩

/-- A piece that ends before a jump. -/
theorem Program.Placed.goes_part (hp : p.Placed M) {l : L} (n : ℕ) {x y : Point σ} (hpc : x.pc = M.place l)
    (h : ∀ flags, (M.run l 0 ((p.text l).take n) (x.state flags)).point = y) : M.Goes x y := by
  rintro s rfl
  exact ⟨_, hp.reaches l 0 (List.take_prefix _ _) (hpc.trans (behind_zero l).symm), h s.flags⟩

namespace Machine
variable {x y z : Point σ}

theorem Goes.refl : M.Goes x x := fun s hs => ⟨s, .refl, hs⟩

theorem Goes.trans (h : M.Goes x y) (h' : M.Goes y z) : M.Goes x z := by
  intro s hs
  obtain ⟨t, hst, ht⟩ := h s hs
  obtain ⟨u, htu, hu⟩ := h' t ht
  exact ⟨u, hst.trans htu, hu⟩

end Machine

end Rules

/-! ## The stack -/

section Stack
variable {mem mem' : Ram} {sp x : Word} {ws : List Word} {k : ℕ} (n : ℕ) (hk : ws.length = k) (hn : 4 * k = n)
include hk hn

/-- What was pushed is still there if nothing was stored over it. -/
theorem words_pushed {a : Word} (hlt : n ≤ 2 ^ 32) (hmem : ∀ x, Inside a n x → mem' x = mem.putWords a ws x) :
    mem'.words a k = ws := by
  subst hk hn
  exact (Ram.words_congr hlt hmem).trans (Ram.words_putWords a ws mem hlt)

/-- A push changes the stack only. -/
theorem pushed_outside (hlt : n < 2 ^ 32) (hx : ¬Below n sp x) :
    mem.putWords (sp - BitVec.ofNat 32 n) ws x = mem x := by
  subst hk hn
  exact Ram.putWords_outside (fun hin => hx (.of_inside hin)) (by omega)

end Stack

/-! ## A program alone in memory -/

section Link
variable [DecidableEq L] (p : Program L)

/-- How many instructions stand before a label. -/
def Program.offset (l : L) : List L → ℕ
  | [] => 0
  | a :: as => if a = l then 0 else (p.text a).length + offset l as

/-- The labels in their order, from address zero on. -/
def Program.link (labels : List L) (device : Word → Bool) (read : Word → σ → Word × σ) (write : Word → Word → σ → σ)
    (unaligned : Word → Ram → Word) : Machine L σ where
  device := device
  read := read
  write := write
  unaligned := unaligned
  place l := BitVec.ofNat 32 (4 * p.offset l labels)
  fetch a := (labels.flatMap p.text)[a.toNat / 4]?

theorem Program.getElem?_offset {l : L} {labels : List L} (hl : l ∈ labels) {k : ℕ} (hk : k < (p.text l).length) :
    (labels.flatMap p.text)[p.offset l labels + k]? = some (p.text l)[k] := by
  induction labels with
  | nil => simp at hl
  | cons a as ih =>
      rw [List.flatMap_cons, offset]
      by_cases ha : a = l
      · subst ha
        rw [if_pos rfl, Nat.zero_add, List.getElem?_append_left hk, List.getElem?_eq_getElem hk]
      · rw [if_neg ha, Nat.add_assoc, List.getElem?_append_right (by omega), Nat.add_sub_cancel_left]
        exact ih ((List.mem_cons.mp hl).resolve_left (Ne.symm ha))

/-- **A program that fits is placed.** -/
theorem Program.placed_link {labels : List L} (device : Word → Bool) (read : Word → σ → Word × σ)
    (write : Word → Word → σ → σ) (unaligned : Word → Ram → Word) (hall : ∀ l, l ∈ labels)
    (hnext : ∀ l, ∀ l' ∈ p.next l, p.offset l' labels = p.offset l labels + (p.text l).length)
    (hsize : (labels.flatMap p.text).length < 2 ^ 30) :
    p.Placed (p.link labels device read write unaligned) := by
  have hbehind : ∀ l k, (p.link labels device read write unaligned).behind l k =
      BitVec.ofNat 32 (4 * (p.offset l labels + k)) := by
    intro l k
    rw [Nat.mul_add, BitVec.ofNat_add]
    rfl
  constructor
  · intro l k hk
    have hget := p.getElem?_offset (hall l) hk
    have hlt : p.offset l labels + k < (labels.flatMap p.text).length := by
      by_contra hout
      rw [List.getElem?_eq_none (by omega)] at hget
      cases hget
    rw [hbehind]
    change (labels.flatMap p.text)[(BitVec.ofNat 32 (4 * (p.offset l labels + k))).toNat / 4]? = _
    rw [BitVec.toNat_ofNat, Nat.mod_eq_of_lt (by omega), Nat.mul_div_cancel_left _ (by decide), hget]
  · intro l l' hl'
    rw [hbehind, ← hnext l l' hl']
    rfl

end Link

end Pigfx.Lib.Arm
