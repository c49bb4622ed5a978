import Pigfx.Nmalloc.Functions
import Mathlib.Data.List.Nodup

/-!
# Sessions of callers with the allocator

Callers allocate and release blocks in any order and write into the bytes they
asked for.  A session is the heap together with the blocks in the callers' hands;
the headers of the free blocks lie in the same memory, and so do the length words,
which no caller promises more about than not to write there.

The invariant has one clause on bytes: free blocks and live blocks tile the area.
It is what keeps a header from being overwritten, and each function's effect on the
cover keeps it.

## Main definitions

* `Session`, `Call`, `Session.step` — callers and heap.
* `Session.Allows` — the calls a correct program makes.
* `Reachable A mem s` — some sequence of such calls leads to `s`.
* `Session.Inv` — the invariant; `Reachable.inv` proves it of every reachable session.
* `WellTiled`, `heap_tiling` — what it means for the memory.
-/

namespace Pigfx.Nmalloc

open Lib

/-! ## Sessions -/

/-- A block in a caller's hands: the pointer it got and the bytes it asked for. -/
structure Live where
  ptr : ℕ
  size : ℕ
  deriving DecidableEq, Repr

structure Session where
  heap : Heap
  live : List Live

/-- What a caller does. -/
inductive Call
  /-- Ask for `size` bytes. -/
  | malloc (size : ℕ)
  /-- Give a block back. -/
  | free (ptr : ℕ)
  /-- Write a byte. -/
  | write (a : ℕ) (v : Byte)

/-- The block a pointer belongs to: it starts with its length word. -/
def blockAt (m : Bus) (ptr : ℕ) : Interval := ⟨ptr - sizeofSizeT, deref m (ptr - sizeofSizeT)⟩

namespace Session

/-- The block of a live pointer. -/
def block (s : Session) (l : Live) : Interval := blockAt s.heap.mem l.ptr

/-- The allocator is given an area, whatever the memory holds. -/
def start (A : Area) (mem : Bus) : Session := ⟨nmallocSetMemoryArea A.base A.size mem, []⟩

def step (s : Session) : Call → Option Session
  | .malloc size => (nmallocMalloc size s.heap).map fun (h, p) =>
      { heap := h, live := if p = 0 then s.live else ⟨p, size⟩ :: s.live }
  | .free ptr => (nmallocFree ptr s.heap).map fun (h, _) =>
      { heap := h, live := s.live.eraseP fun l => l.ptr = ptr }
  | .write a v => some { s with heap := { s.heap with mem := s.heap.mem.put8 a v } }

def run : Session → List Call → Option Session
  | s, [] => some s
  | s, c :: cs => (s.step c).bind fun s => s.run cs

/-- Sizes that do not wrap, live pointers, writes to bytes that were asked for. -/
def Allows (s : Session) : Call → Prop
  | .malloc size => Fits size
  | .free ptr => ∃ l ∈ s.live, l.ptr = ptr
  | .write a _ => ∃ l ∈ s.live, l.ptr ≤ a ∧ a < l.ptr + l.size

end Session

/-- A sequence of allowed calls leads to the session. -/
inductive Reachable (A : Area) (mem : Bus) : Session → Prop
  | start : Reachable A mem (Session.start A mem)
  | step {s s' : Session} {c : Call} (hs : Reachable A mem s) (hc : s.Allows c)
      (h : s.step c = some s') : Reachable A mem s'

/-! ## The invariant -/

variable {A : Area} {mem : Bus} {s : Session} {L : List Interval}

/-- The heap's free list is `L`, the live blocks are blocks with room for what was
asked for, and together they tile the area. -/
structure Session.Inv (A : Area) (s : Session) (L : List Interval) : Prop where
  free : FreeList s.heap L
  list : A.IsFreeList L
  blocks : ∀ l ∈ s.live, A.IsBlock (s.block l)
  room : ∀ l ∈ s.live, sizeofSizeT ≤ l.ptr ∧ l.size + sizeofSizeT ≤ (s.block l).size
  tiles : Tiles A.base A.size (L ++ s.live.map s.block)

namespace Session.Inv

/-- A byte of a live block is a byte of no free block. -/
theorem cover_free (h : s.Inv A L) {l : Live} (hl : l ∈ s.live) {x : ℕ}
    (hx : (s.block l).Has x) : cover x L = 0 := by
  have hone := h.tiles.cover_le_one x
  have hpos := cover_pos (List.mem_map_of_mem hl) hx
  rw [cover_append] at hone
  omega

/-- Live blocks that have a byte in common are one. -/
theorem block_eq (h : s.Inv A L) {l l' : Live} (hl : l ∈ s.live) (hl' : l' ∈ s.live) {x : ℕ}
    (hx : (s.block l).Has x) (hx' : (s.block l').Has x) : s.block l = s.block l' := by
  have hone := h.tiles.cover_le_one x
  rw [cover_append] at hone
  exact eq_of_cover_le_one (by omega) (List.mem_map_of_mem hl) (List.mem_map_of_mem hl') hx hx'

/-- Live pointers are distinct. -/
theorem nodup (h : s.Inv A L) : (s.live.map Live.ptr).Nodup := by
  have hd := nodup_starts_of_cover (L := s.live.map s.block)
    (fun x => Nat.le_trans (by rw [cover_append]; omega) (h.tiles.cover_le_one x))
    (fun i hi => by
      obtain ⟨l, hl, rfl⟩ := List.mem_map.mp hi
      exact (h.blocks l hl).pos)
  rw [List.map_map] at hd
  refine List.Nodup.of_map (fun p => p - sizeofSizeT) ?_
  rw [List.map_map]
  exact hd

/-- A caller's bytes lie behind the length word and inside the block. -/
theorem has_of_write (h : s.Inv A L) {l : Live} (hl : l ∈ s.live) {a : ℕ} (ha : l.ptr ≤ a)
    (ha' : a < l.ptr + l.size) :
    (s.block l).Has a ∧ (s.block l).start + sizeofSizeT ≤ a := by
  obtain ⟨hp, hroom⟩ := h.room l hl
  simp only [Interval.Has]
  change (l.ptr - sizeofSizeT ≤ a ∧ a < l.ptr - sizeofSizeT + _) ∧ l.ptr - sizeofSizeT + _ ≤ a
  omega

end Session.Inv

/-- The length word of a live block is inside it. -/
theorem blockAt_congr {m m' : Bus} {p : ℕ} (hb : A.IsBlock (blockAt m p))
    (h : ∀ x : ℕ, (blockAt m p).Has x → x < (blockAt m p).start + sizeofSizeT →
      m'.data x = m.data x) : blockAt m' p = blockAt m p := by
  have hs := hb.sized
  simp only [blockAt, Interval.mk.injEq, true_and]
  refine deref_congr fun x hx hx' => h x ⟨hx, ?_⟩ hx'
  change x < p - sizeofSizeT + _
  simp only [blockHeaderSize] at hs
  omega

/-! ## Each call keeps the invariant -/

theorem inv_start (A : Area) (mem : Bus) : (Session.start A mem).Inv A [⟨A.base, A.size⟩] := by
  have hfits := A.fits
  have hpos := A.base_pos
  have hge := A.size_ge
  have hb : A.IsBlock ⟨A.base, A.size⟩ :=
    ⟨Nat.le_refl _, Nat.le_refl _, rfl, by simp only [blockHeaderSize]; omega⟩
  have hap := hb.node.apart hb.node
  refine ⟨⟨rfl, ⟨?_, ?_, trivial⟩, ?_⟩, ⟨by simp, by simpa using hb, by simp [Separated]⟩,
    by simp [Session.start], by simp [Session.start], ?_⟩
  · change load .prev _ _ = 0
    simp [Session.start, nmallocSetMemoryArea, load_store hap, u32]
  · change load .next _ _ = 0
    simp [Session.start, nmallocSetMemoryArea, load_store hap, u32]
  · intro i hi
    rcases List.mem_singleton.mp hi with rfl
    simp only [Session.start, nmallocSetMemoryArea, load_store hap, reduceCtorEq, and_false,
      and_true, if_true, if_false]
    exact u32_of_lt (by omega)
  · intro x
    simp [Session.start, cover_cons, Interval.Has]

theorem inv_write (h : s.Inv A L) {a : ℕ} {v : Byte} (hc : s.Allows (.write a v)) :
    ∃ s', s.step (.write a v) = some s' ∧ s'.Inv A L := by
  obtain ⟨l, hl, ha, ha'⟩ := hc
  obtain ⟨hin, hbehind⟩ := h.has_of_write hl ha ha'
  have hdata : ∀ x : ℕ, x ≠ a → (s.heap.mem.put8 a v).data x = s.heap.mem.data x := by
    intro x hx
    rw [Bus.data_put8, if_neg (by exact_mod_cast hx)]
  have hblock : ∀ k ∈ s.live, blockAt (s.heap.mem.put8 a v) k.ptr = s.block k := by
    intro k hk
    refine blockAt_congr (h.blocks k hk) fun x hx hx' => hdata x ?_
    rintro rfl
    have hkl := h.block_eq hk hl hx hin
    change x < (s.block k).start + _ at hx'
    rw [hkl] at hx'
    omega
  have hmap : s.live.map (fun k => blockAt (s.heap.mem.put8 a v) k.ptr) = s.live.map s.block :=
    List.map_congr_left hblock
  refine ⟨_, rfl, h.free.congr rfl fun i hi x hx hx' => hdata x ?_, h.list, ?_, ?_, ?_⟩
  · rintro rfl
    have hs := (h.list.blocks i hi).sized
    have hzero := h.cover_free hl hin
    exact cover_eq_zero.mp hzero i hi ⟨hx, by omega⟩
  · intro k hk
    change A.IsBlock (blockAt _ _)
    rw [hblock k hk]
    exact h.blocks k hk
  · intro k hk
    change _ ∧ _ ≤ (blockAt _ _).size
    rw [hblock k hk]
    exact h.room k hk
  · change Tiles _ _ (L ++ s.live.map fun k => blockAt _ k.ptr)
    rw [hmap]
    exact h.tiles

/-- A call that changes only bytes of `L` and of the blocks that leave keeps the
length words of the others. -/
theorem Session.Inv.blockAt_eq (h : s.Inv A L) {m' : Bus} {l : Live} (hl : l ∈ s.live)
    (hm : ∀ x : ℕ, (s.block l).Has x → m'.data x = s.heap.mem.data x) :
    blockAt m' l.ptr = s.block l :=
  blockAt_congr (h.blocks l hl) fun x hx _ => hm x hx

theorem inv_malloc (h : s.Inv A L) {size : ℕ} (hc : s.Allows (.malloc size)) :
    ∃ s' L', s.step (.malloc size) = some s' ∧ s'.Inv A L' := by
  by_cases hsmall : size = 0 ∨ ∀ i ∈ L, i.size < roundedSize size + blockHeaderSize
  · have hnone := nmallocMalloc_none h.free h.list (hsmall.imp_right fun hs => ⟨hc, hs⟩)
    refine ⟨s, L, ?_, h⟩
    simp [Session.step, hnone]
  · rw [not_or] at hsmall
    obtain ⟨h0, hbig⟩ := hsmall
    have hbig' : ∃ i ∈ L, roundedSize size + blockHeaderSize ≤ i.size := by
      by_contra hall
      exact hbig fun i hi => Nat.lt_of_not_le fun hle => hall ⟨i, hi, hle⟩
    obtain ⟨P, b, Q, h', rfl, hfit, hrun, hf', hlen, hframe⟩ :=
      nmallocMalloc_some h.free h.list h0 hc hbig'
    obtain ⟨hmod, hroom, hmin⟩ := roundedSize_spec size
    have hb : A.IsBlock b := h.list.blocks b (by simp)
    have hle := hb.le
    have hnew : blockAt h'.mem (b.start + sizeofSizeT) = ⟨b.start, roundedSize size⟩ := by
      simp only [blockAt, Nat.add_sub_cancel, hlen]
    have hkeep : ∀ l ∈ s.live, blockAt h'.mem l.ptr = s.block l := fun l hl =>
      h.blockAt_eq hl fun x hx => hframe x (h.cover_free hl hx)
    have hmap : s.live.map (fun l => blockAt h'.mem l.ptr) = s.live.map s.block :=
      List.map_congr_left hkeep
    refine ⟨⟨h', ⟨b.start + sizeofSizeT, size⟩ :: s.live⟩, _, ?_, hf', h.list.rest hmod hfit,
      ?_, ?_, ?_⟩
    · have hne : b.start + sizeofSizeT ≠ 0 := by simp [sizeofSizeT]
      simp only [Session.step, hrun, Option.map_some, if_neg hne]
    · intro l hl
      change A.IsBlock (blockAt h'.mem l.ptr)
      rcases List.mem_cons.mp hl with rfl | hl
      · rw [hnew]
        refine ⟨hb.ge, ?_, hb.aligned, by simp only [blockHeaderSize] at *; omega⟩
        simp only [Interval.stop] at hle ⊢
        omega
      · rw [hkeep l hl]
        exact h.blocks l hl
    · intro l hl
      change _ ∧ _ ≤ (blockAt h'.mem l.ptr).size
      rcases List.mem_cons.mp hl with rfl | hl
      · rw [hnew]
        exact ⟨Nat.le_add_left _ _, hroom⟩
      · rw [hkeep l hl]
        exact h.room l hl
    · intro x
      have hx := h.tiles x
      have hcut := cover_cut x P Q (i := b) (d := roundedSize size) (by omega)
      change cover x (_ ++ blockAt h'.mem (b.start + sizeofSizeT) :: s.live.map fun l =>
        blockAt h'.mem l.ptr) = _
      rw [hnew, hmap, ← hx, cover_append x (P ++ b :: Q), ← hcut,
        cover_append x (P ++ ⟨b.start + roundedSize size, _⟩ :: Q), cover_cons x ⟨b.start, _⟩,
        cover_cons x ⟨b.start, _⟩, cover_nil]
      omega

/-- Releasing a live block adds it to what the free list covers, and leaves the other
blocks where they are. -/
theorem inv_free (h : s.Inv A L) {ptr : ℕ} (hc : s.Allows (.free ptr)) :
    ∃ s' L', s.step (.free ptr) = some s' ∧ s'.Inv A L' ∧
      (∀ x, cover x L' = cover x (blockAt s.heap.mem ptr :: L)) ∧
      (∀ l ∈ s.live, l.ptr ≠ ptr → l ∈ s'.live ∧ blockAt s'.heap.mem l.ptr = s.block l) := by
  obtain ⟨l, hl, rfl⟩ := hc
  obtain ⟨k, S, T, -, hk, hlive, hleft⟩ := List.exists_of_eraseP
    (p := fun k : Live => decide (k.ptr = l.ptr)) hl (by simp)
  have hkl : k.ptr = l.ptr := by simpa using hk
  have hblock : s.block k = blockAt s.heap.mem l.ptr := by rw [Session.block, hkl]
  have hkmem : k ∈ s.live := by simp [hlive]
  have hperm : (L ++ s.live.map s.block).Perm
      (s.block k :: L ++ (S ++ T).map s.block) := by
    rw [hlive]
    simp only [List.map_append, List.map_cons, List.cons_append]
    exact ((List.perm_middle).append_left L).trans (List.perm_middle)
  have htiles := h.tiles.perm hperm
  have hptr : (s.block k).start + sizeofSizeT = l.ptr := by
    rw [← hkl]
    exact Nat.sub_add_cancel (h.room k hkmem).1
  obtain ⟨h', M, hrun, hf', hM, hcover, hframe⟩ :=
    nmallocFree_spec h.free h.list (h.blocks k hkmem) rfl fun x hx => h.cover_free hkmem hx
  rw [hptr] at hrun
  have hsub : ∀ j ∈ S ++ T, j ∈ s.live := by
    intro j hj
    rw [hlive]
    rcases List.mem_append.mp hj with hj | hj <;> simp [hj]
  have hkeep : ∀ j ∈ S ++ T, blockAt h'.mem j.ptr = s.block j := by
    intro j hj
    refine h.blockAt_eq (hsub j hj) fun x hx => hframe x ?_
    have hone := htiles.cover_le_one x
    have hpos := cover_pos (List.mem_map_of_mem (f := s.block) hj) hx
    rw [cover_append] at hone
    omega
  have hmap : (S ++ T).map (fun j => blockAt h'.mem j.ptr) = (S ++ T).map s.block :=
    List.map_congr_left hkeep
  refine ⟨⟨h', S ++ T⟩, M, ?_, ⟨hf', hM, ?_, ?_, ?_⟩, ?_, ?_⟩
  · simp only [Session.step, hrun, Option.map_some, hleft]
  · intro j hj
    change A.IsBlock (blockAt h'.mem j.ptr)
    rw [hkeep j hj]
    exact h.blocks j (hsub j hj)
  · intro j hj
    change _ ∧ _ ≤ (blockAt h'.mem j.ptr).size
    rw [hkeep j hj]
    exact h.room j (hsub j hj)
  · intro x
    change cover x (M ++ (S ++ T).map fun j => blockAt h'.mem j.ptr) = _
    rw [hmap, cover_append, hcover, ← cover_append]
    exact htiles x
  · intro x
    rw [hcover, hblock]
  · intro j hj hne
    have hjST : j ∈ S ++ T := by
      rw [hlive] at hj
      simp only [List.mem_append, List.mem_cons] at hj ⊢
      rcases hj with hj | rfl | hj
      · exact .inl hj
      · exact absurd hkl hne
      · exact .inr hj
    exact ⟨hjST, hkeep j hjST⟩

/-- **The invariant holds in every reachable session.** -/
theorem Reachable.inv (hs : Reachable A mem s) : ∃ L, s.Inv A L := by
  induction hs with
  | start => exact ⟨_, inv_start A mem⟩
  | @step s s' c hs hc h ih =>
      obtain ⟨L, hL⟩ := ih
      cases c with
      | malloc size =>
          obtain ⟨t, L', hstep, hL'⟩ := inv_malloc hL hc
          rw [hstep, Option.some.injEq] at h
          exact ⟨L', h ▸ hL'⟩
      | free ptr =>
          obtain ⟨t, L', hstep, hL', -⟩ := inv_free hL hc
          rw [hstep, Option.some.injEq] at h
          exact ⟨L', h ▸ hL'⟩
      | write a v =>
          obtain ⟨t, hstep, hL'⟩ := inv_write hL hc
          rw [hstep, Option.some.injEq] at h
          exact ⟨L, h ▸ hL'⟩

/-- Every allowed call comes to an end. -/
theorem Session.Inv.progress (h : s.Inv A L) {c : Call} (hc : s.Allows c) :
    ∃ s', s.step c = some s' := by
  cases c with
  | malloc size =>
      obtain ⟨t, -, hstep, -⟩ := inv_malloc h hc
      exact ⟨t, hstep⟩
  | free ptr =>
      obtain ⟨t, -, hstep, -⟩ := inv_free h hc
      exact ⟨t, hstep⟩
  | write a v =>
      obtain ⟨t, hstep, -⟩ := inv_write h hc
      exact ⟨t, hstep⟩

/-! ## The tiling -/

/-- The addresses of a free block. -/
def FreeBlock.interval (b : FreeBlock) : Interval := ⟨b.addr, b.size⟩

/-- What the free list and the live blocks look like in the memory. -/
structure WellTiled (A : Area) (s : Session) (bs : List FreeBlock) : Prop where
  /-- The list found along the next links. -/
  walk : freeList s.heap = some bs
  nonempty : bs ≠ []
  ascending : bs.Pairwise fun b c => b.addr < c.addr
  /-- Each next link names the following block, each prev link the preceding one. -/
  mirrored : s.heap.firstFree = (bs.map FreeBlock.addr).headD 0 ∧
    Linked (links s.heap.mem) 0 (bs.map FreeBlock.addr) 0
  apart : ∀ b ∈ bs, ∀ c ∈ bs, b.addr + b.size ≠ c.addr
  sized : ∀ b ∈ bs, blockHeaderSize ≤ b.size
  /-- Free and live blocks start a number of headers from the start of the area. -/
  aligned : ∀ i ∈ bs.map FreeBlock.interval ++ s.live.map s.block,
    A.base ≤ i.start ∧ (i.start - A.base) % blockHeaderSize = 0
  tiles : Tiles A.base A.size (bs.map FreeBlock.interval ++ s.live.map s.block)
  /-- A live pointer is aligned, behind its block's length word, and what was asked for
  lies inside the block. -/
  live : ∀ l ∈ s.live, l.ptr % 4 = 0 ∧ l.ptr = (s.block l).start + sizeofSizeT ∧
    l.ptr + l.size ≤ (s.block l).stop

theorem Session.Inv.wellTiled (h : s.Inv A L) : WellTiled A s (headers 0 L) := by
  have hint : (headers 0 L).map FreeBlock.interval = L := map_headers
  have haddr : (headers 0 L).map FreeBlock.addr = starts L := by
    rw [starts, ← hint, List.map_map, hint]
    rfl
  have hmem : ∀ b ∈ headers 0 L, b.interval ∈ L := fun b hb => hint ▸ List.mem_map_of_mem hb
  have hblock : ∀ i ∈ L ++ s.live.map s.block, A.IsBlock i := by
    intro i hi
    rcases List.mem_append.mp hi with hi | hi
    · exact h.list.blocks i hi
    · obtain ⟨l, hl, rfl⟩ := List.mem_map.mp hi
      exact h.blocks l hl
  refine ⟨h.free.freeList_eq h.list.blocks h.list.separated.ascending, ?_, ?_, ?_, ?_, ?_, ?_, ?_, ?_⟩
  · intro hnil
    rw [hnil] at hint
    exact h.list.nonempty hint.symm
  · have hlt := h.list.separated.ascending.starts_lt fun i hi => (h.list.blocks i hi).pos
    rw [← starts, ← haddr, List.pairwise_map] at hlt
    exact hlt
  · rw [haddr]
    exact ⟨h.free.first, h.free.linked⟩
  · intro b hb c hc heq
    have hne := h.list.separated.stop_ne (fun i hi => (h.list.blocks i hi).pos) (hmem b hb) (hmem c hc)
    exact hne heq
  · exact fun b hb => (h.list.blocks _ (hmem b hb)).sized
  · rw [hint]
    intro i hi
    obtain ⟨hge, -, hal, -⟩ := hblock i hi
    refine ⟨hge, ?_⟩
    simp only [blockHeaderSize] at hal ⊢
    omega
  · rw [hint]
    exact h.tiles
  · intro l hl
    obtain ⟨hge, hroom⟩ := h.room l hl
    obtain ⟨hbase, -, hal, -⟩ := h.blocks l hl
    have hstart : (s.block l).start = l.ptr - sizeofSizeT := rfl
    have hA := A.aligned
    simp only [Interval.stop, hstart, sizeofSizeT, blockHeaderSize] at *
    omega

/-- **The heap is tiled.**  After any sequence of allowed calls the free blocks are
linked in order, no two of them touch, and together with the live blocks they
partition the area; every further allowed call comes to an end, and an allocation
fails, leaving the heap as it was, exactly when nothing was asked for or no free block
holds the rounded size and a header. -/
theorem heap_tiling (A : Area) (mem : Bus) (s : Session) (hs : Reachable A mem s) :
    ∃ bs, WellTiled A s bs ∧ (∀ c, s.Allows c → ∃ s', s.step c = some s') ∧
      ∀ size, Fits size → ∃ h p, nmallocMalloc size s.heap = some (h, p) ∧
        (p = 0 ↔ size = 0 ∨ ∀ b ∈ bs, b.size < roundedSize size + blockHeaderSize) ∧
        (p = 0 → h = s.heap) := by
  obtain ⟨L, hL⟩ := hs.inv
  have hint : (headers 0 L).map FreeBlock.interval = L := map_headers
  refine ⟨headers 0 L, hL.wellTiled, fun c hc => hL.progress hc, fun size hfits => ?_⟩
  have hiff : (∀ b ∈ headers 0 L, b.size < roundedSize size + blockHeaderSize) ↔
      ∀ i ∈ L, i.size < roundedSize size + blockHeaderSize := by
    rw [← hint, List.forall_mem_map, hint]
    rfl
  rw [hiff]
  by_cases hsmall : size = 0 ∨ ∀ i ∈ L, i.size < roundedSize size + blockHeaderSize
  · refine ⟨s.heap, 0, ?_, by simp [hsmall], fun _ => rfl⟩
    exact nmallocMalloc_none hL.free hL.list (hsmall.imp_right fun h => ⟨hfits, h⟩)
  · have hsmall' := hsmall
    rw [not_or] at hsmall
    have hbig : ∃ i ∈ L, roundedSize size + blockHeaderSize ≤ i.size := by
      by_contra hall
      exact hsmall.2 fun i hi => Nat.lt_of_not_le fun hle => hall ⟨i, hi, hle⟩
    obtain ⟨P, b, Q, h', -, -, hrun, -⟩ :=
      nmallocMalloc_some hL.free hL.list hsmall.1 hfits hbig
    have hne : b.start + sizeofSizeT ≠ 0 := by simp [sizeofSizeT]
    exact ⟨h', _, hrun, ⟨fun h0 => absurd h0 hne, fun h0 => absurd h0 hsmall'⟩, fun h0 => absurd h0 hne⟩

/-- A kilobyte at address 4096. -/
def Area.kilobyte : Area := ⟨4096, 1024, by decide, by decide, by decide, by decide⟩

/-- Five bytes taken from a kilobyte: the area is tiled by a free and a live block. -/
theorem heap_tiling_five : ∃ s, s.live = [⟨4100, 5⟩] ∧
    (Session.start .kilobyte ⟨fun _ => 0, []⟩).step (.malloc 5) = some s ∧
    ∃ bs, WellTiled .kilobyte s bs := by
  have hlive : ((Session.start .kilobyte ⟨fun _ => 0, []⟩).step (.malloc 5)).map Session.live
      = some [⟨4100, 5⟩] := by decide
  obtain ⟨s, hs, hl⟩ := Option.map_eq_some_iff.mp hlive
  have hc : (Session.start .kilobyte ⟨fun _ => 0, []⟩).Allows (.malloc 5) := by
    change Fits 5
    simp [Fits, roundedSize, sizeofSizeT, blockHeaderSize]
  obtain ⟨bs, hbs, -⟩ := heap_tiling .kilobyte ⟨fun _ => 0, []⟩ s (.step .start hc hs)
  exact ⟨s, hl, hs, bs, hbs⟩

end Pigfx.Nmalloc
