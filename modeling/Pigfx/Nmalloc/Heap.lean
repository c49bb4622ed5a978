import Pigfx.Lib.Linked
import Pigfx.Lib.Memory

/-!
# The naive memory allocator

The allocator of `nmalloc.c` with four-byte pointers and `size_T`.  Its free blocks
form a doubly linked list whose headers lie in the memory that is handed out: a
taken block keeps only its length, in front of the caller's bytes, and the header
is made anew when the block comes back.

Pointers and sizes are numbers below 2^32.  Arithmetic on them wraps, written
`u32`; a store keeps the low thirty-two bits.  The loops follow links that the
memory holds, so they carry a bound on their steps, larger than any list that fits
in the address space, and yield nothing when it is used up.

## Main definitions

* `deref`, `assign`, `load`, `store` — words of the memory and members of a header.
* `Heap` — the memory with `_nmalloc_data`.
* `mergeAdjacentFreeBlocks`, `nmallocSetMemoryArea`, `nmallocMalloc`, `nmallocFree`
  — the functions of the file.
* `freeList` — the free blocks as a caller of `nmalloc_print_blocks` sees them.
-/

namespace Pigfx.Nmalloc

open Lib

/-! ## Words and headers -/

/-- Thirty-two bit arithmetic. -/
def u32 (n : ℕ) : ℕ := n % 2 ^ 32

/-- `sizeof(size_T)`. -/
def sizeofSizeT : ℕ := 4

/-- `BLOCK_HEADER_SIZE`: two pointers and a size. -/
def blockHeaderSize : ℕ := 12

/-- The word a pointer points to. -/
def deref (m : Bus) (p : ℕ) : ℕ := (m.word p).toNat

/-- Assign to the word a pointer points to. -/
def assign (p v : ℕ) (m : Bus) : Bus := m.put32 p (BitVec.ofNat 32 v)

/-- The members of a `block`. -/
inductive Member
  | prev
  | next
  | size
  deriving DecidableEq, Repr

/-- Where a member lies in the header. -/
def Member.offset : Member → ℕ
  | prev => 0
  | next => 4
  | size => 8

/-- `b->f`. -/
def load (f : Member) (m : Bus) (b : ℕ) : ℕ := deref m (b + f.offset)

/-- `b->f = v`. -/
def store (f : Member) (b v : ℕ) (m : Bus) : Bus := assign (b + f.offset) v m

/-- `struct _block`. -/
structure Block where
  prev : ℕ
  next : ℕ
  size : ℕ
  deriving DecidableEq, Repr

/-- A member of a block. -/
def Block.get (b : Block) : Member → ℕ
  | .prev => b.prev
  | .next => b.next
  | .size => b.size

/-- `*p = b`. -/
def storeBlock (p : ℕ) (b : Block) (m : Bus) : Bus :=
  store .size p b.size (store .next p b.next (store .prev p b.prev m))

/-- The memory and `_nmalloc_data`. -/
structure Heap where
  mem : Bus
  data : ℕ
  firstFree : ℕ

/-- A bound on the steps of a loop along the free list. -/
def maxBlocks : ℕ := 2 ^ 32

/-! ## The functions of the allocator -/

/-- Merge a block with the next. -/
def mergeNext (cb : ℕ) (m : Bus) : Bus :=
  let m := store .size cb (load .size m cb + load .size m (load .next m cb)) m
  let m := store .next cb (load .next m (load .next m cb)) m
  if load .next m cb ≠ 0 then store .prev (load .next m cb) cb m else m

/-- The loop of `merge_adjacent_free_blocks`. -/
def mergeLoop : ℕ → Bus → ℕ → Option Bus
  | 0, _, _ => none
  | n + 1, m, cb =>
      if load .next m cb = 0 then some m
      else if u32 (cb + load .size m cb) = load .next m cb then mergeLoop n (mergeNext cb m) cb
      else mergeLoop n m (load .next m cb)

def mergeAdjacentFreeBlocks (h : Heap) : Option Heap :=
  (mergeLoop maxBlocks h.mem h.firstFree).map fun m => { h with mem := m }

def nmallocSetMemoryArea (pBuff maxSize : ℕ) (m : Bus) : Heap :=
  { mem := store .next pBuff 0 (store .prev pBuff 0 (store .size pBuff maxSize m))
    data := pBuff
    firstFree := pBuff }

/-- Point the neighbours of a block at it. -/
def updateNeighbours (b : ℕ) (m : Bus) : Bus :=
  let m := if load .prev m b ≠ 0 then store .next (load .prev m b) b m else m
  if load .next m b ≠ 0 then store .prev (load .next m b) b m else m

/-- `data_size` of `nmalloc_malloc`: the length word and the caller's bytes, rounded
to headers.  A multiple of a header is rounded too, to the next one. -/
def dataSize (size : ℕ) : ℕ :=
  let d := u32 (sizeofSizeT + size)
  let d := if d < blockHeaderSize then blockHeaderSize else d
  u32 (d + (blockHeaderSize - d % blockHeaderSize))

/-- Take `dataSize` bytes off the front of a free block. -/
def subdivide (cfree dataSize : ℕ) (h : Heap) : Heap × ℕ :=
  let newfblock : Block :=
    { next := load .next h.mem cfree
      prev := load .prev h.mem cfree
      size := u32 (load .size h.mem cfree + 2 ^ 32 - dataSize) }
  let pnewfblock := u32 (cfree + blockHeaderSize * (dataSize / blockHeaderSize))
  let m := storeBlock pnewfblock newfblock h.mem
  let firstFree := if load .prev m pnewfblock = 0 then pnewfblock else h.firstFree
  let m := updateNeighbours pnewfblock m
  ({ h with mem := assign cfree dataSize m, firstFree := firstFree }, u32 (cfree + sizeofSizeT))

/-- The heap afterwards and the pointer returned. -/
def nmallocMalloc (size : ℕ) (h : Heap) : Option (Heap × ℕ) :=
  if size = 0 then some (h, 0)
  else
    let sizeNeeded := u32 (dataSize size + blockHeaderSize)
    let next := load .next h.mem
    let small c := c ≠ 0 && next c ≠ 0 && load .size h.mem c < sizeNeeded
    (follow next small maxBlocks h.firstFree).map fun cfree =>
      if cfree = 0 ∨ load .size h.mem cfree < sizeNeeded then (h, 0)
      else subdivide cfree (dataSize size) h

/-- The loop of `nmalloc_free` that looks for the neighbours of the new block. -/
def findPlace (m : Bus) (newfblock : ℕ) : ℕ → ℕ → ℕ → Option (ℕ × ℕ)
  | 0, _, _ => none
  | n + 1, prevB, nextB =>
      if nextB = 0 then some (prevB, nextB)
      else if prevB < newfblock ∧ newfblock < nextB then some (prevB, nextB)
      else findPlace m newfblock n nextB (load .next m nextB)

/-- The heap afterwards and what becomes of the caller's pointer. -/
def nmallocFree (ptr : ℕ) (h : Heap) : Option (Heap × ℕ) :=
  let newfblock := u32 (ptr + 2 ^ 32 - sizeofSizeT)
  let blockSize := deref h.mem newfblock
  let m := store .size newfblock blockSize h.mem
  let place :=
    if newfblock < h.firstFree then some (0, h.firstFree)
    else findPlace m newfblock maxBlocks h.firstFree (load .next m h.firstFree)
  place.bind fun (prevB, nextB) =>
    let m := store .next newfblock nextB (store .prev newfblock prevB m)
    let firstFree := if newfblock < h.firstFree then newfblock else h.firstFree
    (mergeAdjacentFreeBlocks { h with mem := updateNeighbours newfblock m, firstFree := firstFree }).map
      fun h => (h, 0)

/-- A free block with its address. -/
structure FreeBlock extends Block where
  addr : ℕ
  deriving DecidableEq, Repr

/-- The header at an address. -/
def loadBlock (m : Bus) (p : ℕ) : FreeBlock :=
  { addr := p, prev := load .prev m p, next := load .next m p, size := load .size m p }

/-- The free blocks in list order. -/
def freeList (h : Heap) : Option (List FreeBlock) :=
  (walk (load .next h.mem) 0 maxBlocks h.firstFree).map fun ps => ps.map (loadBlock h.mem)

/-! ## Headers that do not overlap -/

/-- Two headers are one or have no byte in common. -/
def Apart (a b : ℕ) : Prop := a = b ∨ a + blockHeaderSize ≤ b ∨ b + blockHeaderSize ≤ a

theorem u32_of_lt {n : ℕ} (h : n < 2 ^ 32) : u32 n = n := Nat.mod_eq_of_lt h

theorem u32_add_sub {n d : ℕ} (hn : n < 2 ^ 32) (hd : d ≤ n) : u32 (n + 2 ^ 32 - d) = n - d := by
  simp only [u32]
  omega

theorem deref_lt (m : Bus) (p : ℕ) : deref m p < 2 ^ 32 := (m.word p).isLt

theorem load_lt (f : Member) (m : Bus) (b : ℕ) : load f m b < 2 ^ 32 := deref_lt _ _

@[simp] theorem deref_assign (p v : ℕ) (m : Bus) : deref (assign p v m) p = u32 v := by
  simp [deref, assign, u32]

theorem deref_assign_ne {p q v : ℕ} {m : Bus} (h : p + 4 ≤ q ∨ q + 4 ≤ p) :
    deref (assign p v m) q = deref m q := by
  rw [deref, assign, Bus.word_put32_ne _ _ _ _ (by omega), deref]

/-- What a header holds after a member was stored. -/
theorem load_store {f g : Member} {a b v : ℕ} {m : Bus} (h : Apart a b) :
    load f (store g b v m) a = if a = b ∧ f = g then u32 v else load f m a := by
  simp only [Apart, blockHeaderSize] at h
  by_cases hab : a = b ∧ f = g
  · rw [if_pos hab, hab.1, hab.2]
    exact deref_assign _ _ _
  · rw [if_neg hab]
    refine deref_assign_ne ?_
    rcases f <;> rcases g <;> simp only [Member.offset] at * <;> simp at hab <;> omega

theorem data_assign {p v x : ℕ} {m : Bus} (h : x < p ∨ p + 4 ≤ x) :
    (assign p v m).data x = m.data x := Bus.data_put32_out _ _ _ _ (by omega)

theorem data_store {f : Member} {b v x : ℕ} {m : Bus} (h : x < b ∨ b + blockHeaderSize ≤ x) :
    (store f b v m).data x = m.data x := by
  refine data_assign ?_
  simp only [blockHeaderSize] at h
  cases f <;> simp only [Member.offset] <;> omega

theorem deref_congr {m n : Bus} {p : ℕ} (h : ∀ x : ℕ, p ≤ x → x < p + 4 → m.data x = n.data x) :
    deref m p = deref n p := by
  rw [deref, deref, Bus.word_congr]
  intro k hk
  exact_mod_cast h (p + k) (by omega) (by omega)

theorem load_congr {f : Member} {m n : Bus} {b : ℕ}
    (h : ∀ x : ℕ, b ≤ x → x < b + blockHeaderSize → m.data x = n.data x) :
    load f m b = load f n b := by
  refine deref_congr fun x hx hx' => h x (by omega) ?_
  simp only [blockHeaderSize]
  cases f <;> simp only [Member.offset] at hx' <;> omega

/-- What a header holds after a block was stored. -/
theorem load_storeBlock {f : Member} {a p : ℕ} {b : Block} {m : Bus} (h : Apart a p) :
    load f (storeBlock p b m) a = if a = p then u32 (b.get f) else load f m a := by
  simp only [storeBlock, load_store h]
  by_cases hap : a = p
  · cases f <;> simp [hap, Block.get]
  · simp [hap]

theorem data_storeBlock {p x : ℕ} {b : Block} {m : Bus} (h : x < p ∨ p + blockHeaderSize ≤ x) :
    (storeBlock p b m).data x = m.data x := by
  simp only [storeBlock, data_store h]

/-! ## Neighbours -/

section Neighbours

variable {f : Member} {a b : ℕ} {m : Bus}

private theorem load_next_linked
    (hp : load .prev m b ≠ 0 → Apart b (load .prev m b) ∧ b ≠ load .prev m b) :
    load .next (if load .prev m b ≠ 0 then store .next (load .prev m b) b m else m) b
      = load .next m b := by
  split
  · next h => rw [load_store (hp h).1, if_neg fun heq => (hp h).2 heq.1]
  · rfl

/-- Updating the neighbours stores the block in the next link of the one before it
and in the prev link of the one behind it. -/
theorem load_updateNeighbours (hb : b < 2 ^ 32)
    (hp : load .prev m b ≠ 0 → Apart b (load .prev m b) ∧ b ≠ load .prev m b)
    (hap : load .prev m b ≠ 0 → Apart a (load .prev m b))
    (haq : load .next m b ≠ 0 → Apart a (load .next m b)) :
    load f (updateNeighbours b m) a =
      if f = .next ∧ load .prev m b ≠ 0 ∧ a = load .prev m b then b
      else if f = .prev ∧ load .next m b ≠ 0 ∧ a = load .next m b then b
      else load f m a := by
  have ha : load f (if load .prev m b ≠ 0 then store .next (load .prev m b) b m else m) a
      = if f = .next ∧ load .prev m b ≠ 0 ∧ a = load .prev m b then b else load f m a := by
    split
    · next h =>
        rw [load_store (hap h), u32_of_lt hb]
        simp [h, and_comm]
    · next h => simp [not_not.mp h]
  simp only [updateNeighbours, load_next_linked hp]
  split
  · next h =>
      rw [load_store (haq h), ha, u32_of_lt hb]
      by_cases hf : f = .next
      · simp [hf]
      · by_cases hf' : f = .prev <;> simp [hf, hf', h]
  · next h =>
      rw [ha]
      simp [not_not.mp h]

theorem data_updateNeighbours {x : ℕ}
    (hp : load .prev m b ≠ 0 → Apart b (load .prev m b) ∧ b ≠ load .prev m b)
    (hxp : load .prev m b ≠ 0 → x < load .prev m b ∨ load .prev m b + blockHeaderSize ≤ x)
    (hxq : load .next m b ≠ 0 → x < load .next m b ∨ load .next m b + blockHeaderSize ≤ x) :
    (updateNeighbours b m).data x = m.data x := by
  have h1 : (if load .prev m b ≠ 0 then store .next (load .prev m b) b m else m).data x
      = m.data x := by
    split
    · next h => exact data_store (hxp h)
    · rfl
  simp only [updateNeighbours, load_next_linked hp]
  split
  · next h => rw [data_store (hxq h), h1]
  · exact h1

end Neighbours

end Pigfx.Nmalloc
