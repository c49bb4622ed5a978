import Pigfx.Nmalloc.Session

/-!
# Requests that wrap

`nmalloc_malloc` adds three times before it compares: the length word, the rounding, and one more
header.  From 2³² - 20 on one of the sums wraps, and what is compared with the free blocks is 8,
20 or 36 bytes.  A block that is large enough for that is handed out for a request of four
gigabytes.

## Main definitions

* `SafeMalloc` — what an allocation owes its caller, and the other callers.
* `malloc_safe_iff` — when it is safe.
-/

namespace Pigfx.Nmalloc

open Lib

variable {A : Area} {h : Heap} {L live : List Interval} {size : ℕ}

/-- The block of the pointer lies in the area, has room for what was asked for, and shares no byte
with a free or a live block. -/
structure Granted (A : Area) (live L : List Interval) (size : ℕ) (h : Heap) (p : ℕ) : Prop where
  free : FreeList h L
  list : A.IsFreeList L
  ge : A.base ≤ (blockAt h.mem p).start
  le : (blockAt h.mem p).stop ≤ A.base + A.size
  room : sizeofSizeT ≤ p ∧ size + sizeofSizeT ≤ (blockAt h.mem p).size
  apart : ∀ x, (blockAt h.mem p).Has x → cover x (L ++ live) = 0

/-- The request is refused and the heap is as it was, or it is granted. -/
def SafeMalloc (A : Area) (live : List Interval) (size : ℕ) (h : Heap) : Prop :=
  ∃ h' p, nmallocMalloc size h = some (h', p) ∧
    (p = 0 ∧ h' = h ∨ p ≠ 0 ∧ ∃ L, Granted A live L size h' p)

/-! ## What the sums wrap to -/

theorem fits_iff (size : ℕ) : Fits size ↔ size < 2 ^ 32 - 20 := by
  simp only [Fits, roundedSize, sizeofSizeT, blockHeaderSize]
  omega

/-- The bytes that are compared with a free block once a sum has wrapped. -/
def wrappedNeed (size : ℕ) : ℕ :=
  if size < 2 ^ 32 - 8 then 8 else if size < 2 ^ 32 - 4 then 20 else 36

/-- The bytes that are taken. -/
def wrappedSize (size : ℕ) : ℕ :=
  if size < 2 ^ 32 - 8 then 2 ^ 32 - 4 else if size < 2 ^ 32 - 4 then 8 else 24

theorem dataSize_wrapped (hlo : 2 ^ 32 - 20 ≤ size) (hhi : size < 2 ^ 32) :
    dataSize size = wrappedSize size ∧ u32 (dataSize size + blockHeaderSize) = wrappedNeed size := by
  have hsize : dataSize size = wrappedSize size := by
    rw [wrappedSize]
    by_cases hlength : size < 2 ^ 32 - 4
    · -- the length word does not wrap; rounding may
      have hword : u32 (sizeofSizeT + size) = 4 + size := u32_of_lt (by simp only [sizeofSizeT]; omega)
      simp only [dataSize, hword]
      rw [if_neg (by simp only [blockHeaderSize]; omega), if_pos hlength]
      simp only [u32, blockHeaderSize]
      split <;> omega
    · have hword : u32 (sizeofSizeT + size) = 4 + size - 2 ^ 32 := by
        simp only [u32, sizeofSizeT]
        omega
      simp only [dataSize, hword]
      rw [if_pos (by simp only [blockHeaderSize]; omega), if_neg (by omega), if_neg hlength]
      rfl
  refine ⟨hsize, ?_⟩
  rw [hsize, wrappedSize, wrappedNeed]
  split
  · rfl
  · split <;> rfl

/-! ## Requests that are granted -/

/-- What the caller gets is the block at which the search ended, and its length word. -/
theorem subdivide_result (h : Heap) {c d : ℕ} (hc : c + sizeofSizeT < 2 ^ 32) (hd : d < 2 ^ 32) :
    (subdivide c d h).2 = c + sizeofSizeT ∧ blockAt (subdivide c d h).1.mem (c + sizeofSizeT) = ⟨c, d⟩ := by
  refine ⟨u32_of_lt hc, ?_⟩
  have hlength : deref (subdivide c d h).1.mem c = d := by
    simp only [subdivide]
    rw [deref_assign, u32_of_lt hd]
  simp only [blockAt, Nat.add_sub_cancel, hlength]

namespace Granted

variable {p : ℕ} (hg : Granted A live L size h p)
include hg

/-- A block does not hold all the area. -/
theorem not_whole (hstart : (blockAt h.mem p).start ≤ A.base) :
    (blockAt h.mem p).stop < A.base + A.size := by
  by_contra hstop
  obtain ⟨i, hi⟩ := List.exists_mem_of_ne_nil L hg.list.nonempty
  have hblock := hg.list.blocks i hi
  have hge := hblock.ge; have hle := hblock.le; have hpos := hblock.pos
  simp only [Interval.stop] at hle hstop
  have hzero := hg.apart i.start ⟨by omega, by omega⟩
  have hone := cover_pos hi ⟨le_rfl, by omega⟩
  rw [cover_append] at hzero
  omega

/-- What is taken when a sum wraps is not what was asked for. -/
theorem ne_wrappedSize : (blockAt h.mem p).size ≠ wrappedSize size := by
  intro hblock
  have hroom := hg.room.2
  have hge := hg.ge; have hle := hg.le
  have hwhole := hg.not_whole
  have hbase := A.base_pos; have haligned := A.aligned; have hend := A.fits
  simp only [Interval.stop, sizeofSizeT, hblock, wrappedSize] at hroom hle hwhole
  split at hroom
  · -- all but the first word of the memory
    rename_i hsmall
    simp only [if_pos hsmall] at hle hwhole
    have hlt := hwhole (by omega)
    omega
  · split at hroom <;> omega

end Granted

/-! ## When an allocation is safe -/

/-- No sum wraps; or one does, and no free block is large enough for what it wraps to. -/
def Refusable (L : List Interval) (size : ℕ) : Prop :=
  size < 2 ^ 32 - 20 ∨ 2 ^ 32 - 8 ≤ size ∧ size < 2 ^ 32 - 4 ∧ (∀ i ∈ L, i.size < 20) ∨
    2 ^ 32 - 4 ≤ size ∧ ∀ i ∈ L, i.size < 36

section Safe
variable (hf : FreeList h L) (hL : A.IsFreeList L)
include hf hL

/-- A request that does not wrap is safe. -/
theorem safe_of_fits (hlive : ∀ x, cover x L = 0 ∨ cover x live = 0) (hfits : Fits size) :
    SafeMalloc A live size h := by
  by_cases hsmall : size = 0 ∨ ∀ i ∈ L, i.size < roundedSize size + blockHeaderSize
  · have hnone := nmallocMalloc_none hf hL (hsmall.imp_right fun hs => ⟨hfits, hs⟩)
    exact ⟨h, 0, hnone, Or.inl ⟨rfl, rfl⟩⟩
  · rw [not_or] at hsmall
    obtain ⟨h0, hbig⟩ := hsmall
    push Not at hbig
    obtain ⟨P, b, Q, h', rfl, hfit, hrun, hf', hlen, -⟩ := nmallocMalloc_some hf hL h0 hfits hbig
    obtain ⟨hmod, hroom, -⟩ := roundedSize_spec size
    have hb : A.IsBlock b := hL.blocks b (by simp)
    have hle := hb.le
    have hblock : blockAt h'.mem (b.start + sizeofSizeT) = ⟨b.start, roundedSize size⟩ := by
      simp only [blockAt, Nat.add_sub_cancel, hlen]
    refine ⟨h', _, hrun, Or.inr ⟨by simp [sizeofSizeT], _, hf', hL.rest hmod hfit, ?_, ?_, ?_, ?_⟩⟩
    · rw [hblock]
      exact hb.ge
    · rw [hblock]
      simp only [Interval.stop] at hle ⊢
      omega
    · rw [hblock]
      exact ⟨Nat.le_add_left _ _, hroom⟩
    · -- what has been cut off was covered once, by the free list
      intro x hx
      rw [hblock] at hx
      have hcut := cover_cut x P Q (i := b) (d := roundedSize size) (by omega)
      have hone := hL.separated.ascending.cover_le_one x
      have hpos := cover_pos (List.mem_singleton_self _) hx
      have hapart := hlive x
      rw [cover_append]
      omega

/-- One that wraps is refused, or is not safe. -/
theorem safe_wrapped_iff (hlo : 2 ^ 32 - 20 ≤ size) (hhi : size < 2 ^ 32) :
    SafeMalloc A live size h ↔ ∀ i ∈ L, i.size < wrappedNeed size := by
  obtain ⟨hsize, hneed⟩ := dataSize_wrapped hlo hhi
  obtain ⟨P, b, Q, rfl, hP, hb⟩ := exists_stop hL.nonempty (wrappedNeed size)
  have hrun := nmallocMalloc_search hf hL (by omega) hneed hP hb
  by_cases hfit : b.size < wrappedNeed size
  · rw [if_pos hfit] at hrun
    refine iff_of_true ⟨h, 0, hrun, Or.inl ⟨rfl, rfl⟩⟩ fun i hi => ?_
    rw [hb.resolve_right (by omega)] at hi
    rcases List.mem_append.mp hi with hi | hi
    · exact hP i hi
    · rwa [List.mem_singleton.mp hi]
  · rw [if_neg hfit, hsize] at hrun
    have hblock := hL.blocks b (by simp)
    have hstop := hblock.stop_le; have hsized := hblock.sized
    simp only [Interval.stop, blockHeaderSize] at hstop hsized
    have hlt : wrappedSize size < 2 ^ 32 := by
      rw [wrappedSize]
      split_ifs <;> decide
    obtain ⟨hptr, hgranted⟩ := subdivide_result h (c := b.start) (by simp only [sizeofSizeT]; omega) hlt
    refine iff_of_false ?_ fun hall => hfit (hall b (by simp))
    rintro ⟨h', p, hresult, hsafe⟩
    rw [hrun, Option.some.injEq] at hresult
    obtain rfl : (subdivide b.start (wrappedSize size) h).1 = h' := congrArg Prod.fst hresult
    obtain rfl : (subdivide b.start (wrappedSize size) h).2 = p := congrArg Prod.snd hresult
    rcases hsafe with ⟨hnull, -⟩ | ⟨-, L', hg⟩
    · rw [hptr] at hnull
      simp [sizeofSizeT] at hnull
    · refine hg.ne_wrappedSize ?_
      rw [hptr, hgranted]

end Safe

/-- **An allocation is safe** exactly if no sum wraps, or nothing is large enough for what it
wraps to. -/
theorem malloc_safe_iff (A : Area) (h : Heap) (L live : List Interval) (hf : FreeList h L) (hL : A.IsFreeList L)
    (hlive : ∀ x, cover x L = 0 ∨ cover x live = 0) (size : ℕ) (hsize : size < 2 ^ 32) :
    SafeMalloc A live size h ↔ Refusable L size := by
  by_cases hfits : size < 2 ^ 32 - 20
  · exact iff_of_true (safe_of_fits hf hL hlive ((fits_iff size).mpr hfits)) (Or.inl hfits)
  · rw [safe_wrapped_iff hf hL (by omega) hsize, Refusable, wrappedNeed]
    obtain ⟨i, hi⟩ := List.exists_mem_of_ne_nil L hL.nonempty
    have hsized := (hL.blocks i hi).sized
    simp only [blockHeaderSize] at hsized
    split
    · -- every free block is large enough for eight bytes
      refine iff_of_false (fun hall => ?_) (by omega)
      have hnone := hall i hi
      omega
    · split
      · constructor
        · exact fun hall => Or.inr (Or.inl ⟨by omega, by omega, hall⟩)
        · rintro (hlt | ⟨-, -, hall⟩ | ⟨hge, -⟩)
          · omega
          · exact hall
          · omega
      · constructor
        · exact fun hall => Or.inr (Or.inr ⟨by omega, hall⟩)
        · rintro (hlt | ⟨-, hlt, -⟩ | ⟨-, hall⟩)
          · omega
          · omega
          · exact hall

/-- The heap of a kilobyte before the first call. -/
def Heap.kilobyte : Heap := (Session.start .kilobyte ⟨fun _ => 0, []⟩).heap

/-- It serves a request of a hundred bytes. -/
theorem malloc_safe_iff_hundred : SafeMalloc .kilobyte [] 100 .kilobyte := by
  have hinv := inv_start .kilobyte ⟨fun _ => 0, []⟩
  exact (malloc_safe_iff .kilobyte .kilobyte _ [] hinv.free hinv.list (fun _ => Or.inr rfl) 100 (by decide)).mpr
    (Or.inl (by decide))

/-- It also serves one of four gigabytes, with 24 bytes. -/
theorem malloc_wraps :
    ((nmallocMalloc (2 ^ 32 - 1) .kilobyte).map fun (h, p) => (p, deref h.mem 4096)) = some (4100, 24) ∧
      ¬SafeMalloc .kilobyte [] (2 ^ 32 - 1) .kilobyte := by
  have hgranted : ((nmallocMalloc (2 ^ 32 - 1) .kilobyte).map fun (h, p) => (p, deref h.mem 4096)) =
      some (4100, 24) := by
    decide
  refine ⟨hgranted, ?_⟩
  rintro ⟨h, p, hrun, hsafe⟩
  rw [hrun, Option.map_some, Option.some.injEq, Prod.mk.injEq] at hgranted
  obtain ⟨rfl, hlength⟩ := hgranted
  rcases hsafe with ⟨hnull, -⟩ | ⟨-, L, hg⟩
  · cases hnull
  · have hroom := hg.room.2
    change 2 ^ 32 - 1 + 4 ≤ deref h.mem 4096 at hroom
    rw [hlength] at hroom
    revert hroom
    decide

end Pigfx.Nmalloc
