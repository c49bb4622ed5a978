import Pigfx.Nmalloc.FreeList

/-!
# What the functions of the allocator do

Over a heap whose free list is a separated list of blocks, `nmalloc_malloc` fails
exactly when no member is large enough, and else shortens one member from the
front; `nmalloc_free` adds the block it is given to what the list covers.  Both end,
and neither touches a byte outside the blocks it names.

## Main definitions

* `Area.IsFreeList A L` — the canonical lists of free blocks of an area.
* `nmallocMalloc_none`, `nmallocMalloc_some` — the two outcomes of an allocation.
* `nmallocFree_spec` — the outcome of a release.
-/

namespace Pigfx.Nmalloc

open Lib

variable {A : Area} {h : Heap} {L P Q : List Interval} {b : Interval}

/-- What a free list of the area looks like between calls: some blocks, in order,
no two of which touch. -/
structure Area.IsFreeList (A : Area) (L : List Interval) : Prop where
  nonempty : L ≠ []
  blocks : ∀ i ∈ L, A.IsBlock i
  separated : Separated L

/-! ## Subdividing a block -/

/-- The length word and `size` bytes, at least a header, rounded up to the next
number of headers, as it is before the arithmetic wraps. -/
def roundedSize (size : ℕ) : ℕ :=
  let d := max blockHeaderSize (sizeofSizeT + size)
  d + (blockHeaderSize - d % blockHeaderSize)

/-- The rounded size plus one header does not wrap. -/
def Fits (size : ℕ) : Prop := roundedSize size + blockHeaderSize < 2 ^ 32

theorem roundedSize_spec (size : ℕ) : roundedSize size % blockHeaderSize = 0 ∧
    size + sizeofSizeT ≤ roundedSize size ∧ 2 * blockHeaderSize ≤ roundedSize size := by
  simp only [roundedSize, sizeofSizeT, blockHeaderSize]
  omega

theorem dataSize_eq {size : ℕ} (h : Fits size) : dataSize size = roundedSize size := by
  simp only [Fits, roundedSize] at h
  have hu : u32 (sizeofSizeT + size) = sizeofSizeT + size := u32_of_lt (by omega)
  have hmax : (if sizeofSizeT + size < blockHeaderSize then blockHeaderSize
      else sizeofSizeT + size) = max blockHeaderSize (sizeofSizeT + size) := by
    split <;> omega
  simp only [dataSize, hu, hmax]
  exact u32_of_lt (by omega)

/-- No other block of the list starts where a given one does. -/
theorem start_ne (hb : ∀ i ∈ P ++ b :: Q, A.IsBlock i) (ha : Ascending (P ++ b :: Q))
    {i : Interval} (hi : i ∈ P ++ Q) : i.start ≠ b.start := by
  have hd := nodup_starts hb ha
  simp only [starts, List.map_append, List.map_cons] at hd
  obtain ⟨-, hdQ, hdP⟩ := List.nodup_append.mp hd
  rcases List.mem_append.mp hi with hi | hi
  · exact hdP _ (List.mem_map_of_mem hi) _ List.mem_cons_self
  · intro heq
    exact (List.nodup_cons.mp hdQ).1 (heq ▸ List.mem_map_of_mem hi)

/-- Taking a number of headers off the front of a member leaves a free list. -/
theorem Area.IsFreeList.rest {d : ℕ} (hL : A.IsFreeList (P ++ b :: Q))
    (hd : d % blockHeaderSize = 0) (hfit : d + blockHeaderSize ≤ b.size) :
    A.IsFreeList (P ++ ⟨b.start + d, b.size - d⟩ :: Q) := by
  refine ⟨by simp, fun i hi => ?_, hL.separated.shrink (Nat.le_add_right _ _) ?_⟩
  · rcases List.mem_append.mp hi with hi | hi
    · exact hL.blocks i (by simp [hi])
    · rcases List.mem_cons.mp hi with rfl | hi
      · exact (hL.blocks b (by simp)).rest hd hfit
      · exact hL.blocks i (by simp [hi])
  · simp only [Interval.stop]
    omega

/-- The first block is the new one exactly when the new one has no predecessor. -/
theorem headD_starts (hP : ∀ i ∈ P, A.IsBlock i) {L : List Interval} (c : Interval) :
    (if (starts P).getLastD 0 = 0 then c.start else (starts (P ++ L)).headD 0)
      = (starts (P ++ c :: Q)).headD 0 := by
  cases P with
  | nil => rfl
  | cons i P =>
      have hmem : (starts (i :: P)).getLastD 0 ∈ starts (i :: P) := by
        simp only [starts, List.map_cons, List.getLastD_cons]
        exact List.getLastD_mem_cons
      rw [if_neg (nodes_of_blocks hP _ hmem).pos.ne']
      rfl

/-- Subdividing a block leaves its rest in its place in the list. -/
theorem subdivide_spec {d : ℕ} (hf : FreeList h (P ++ b :: Q)) (hL : A.IsFreeList (P ++ b :: Q))
    (hd0 : 0 < d) (hd : d % blockHeaderSize = 0) (hfit : d + blockHeaderSize ≤ b.size) :
    ∃ h', subdivide b.start d h = (h', b.start + sizeofSizeT) ∧
      FreeList h' (P ++ ⟨b.start + d, b.size - d⟩ :: Q) ∧ deref h'.mem b.start = d ∧
      ∀ x : ℕ, cover x (P ++ b :: Q) = 0 → h'.mem.data x = h.mem.data x := by
  have hb : A.IsBlock b := hL.blocks b (by simp)
  have hR := hL.rest hd hfit
  have hc : A.IsBlock ⟨b.start + d, b.size - d⟩ := hR.blocks _ (by simp)
  obtain ⟨hP, hQ, hprev, hnext⟩ := linked_parts hf.linked
  have hstop : b.start + b.size ≤ 2 ^ 32 := hb.stop_le
  have hpos := hb.node.pos
  have hp : u32 (b.start + blockHeaderSize * (d / blockHeaderSize)) = b.start + d := by
    rw [Nat.mul_div_cancel' (Nat.dvd_of_mod_eq_zero hd)]
    exact u32_of_lt hc.node.lt
  have hsize : u32 (load .size h.mem b.start + 2 ^ 32 - d) = b.size - d := by
    rw [hf.sized b (by simp)]
    exact u32_add_sub (by omega) (by omega)
  have hptr : u32 (b.start + sizeofSizeT) = b.start + sizeofSizeT := by
    refine u32_of_lt ?_
    simp only [sizeofSizeT, blockHeaderSize] at hfit ⊢
    omega
  have hmem : ∀ i ∈ P ++ Q, i ∈ P ++ b :: Q := by
    intro i hi
    rcases List.mem_append.mp hi with hi | hi <;> simp [hi]
  -- the header of the rest, before its neighbours are told
  let m := storeBlock (b.start + d) ⟨load .prev h.mem b.start, load .next h.mem b.start, b.size - d⟩
    h.mem
  have hkeep : ∀ f, ∀ i ∈ P ++ Q, load f m i.start = load f h.mem i.start := fun f i hi => by
    rw [load_storeBlock ((hL.blocks i (hmem i hi)).node.apart hc.node),
      if_neg (start_ne hR.blocks hR.separated.ascending hi)]
  have hprev' : load .prev m (b.start + d) = (starts P).getLastD 0 := by
    rw [load_storeBlock (.inl rfl), if_pos rfl, ← hprev]
    exact u32_of_lt (load_lt _ _ _)
  have hnext' : load .next m (b.start + d) = (starts Q).headD 0 := by
    rw [load_storeBlock (.inl rfl), if_pos rfl, ← hnext]
    exact u32_of_lt (load_lt _ _ _)
  have hsize' : load .size m (b.start + d) = b.size - d := by
    rw [load_storeBlock (.inl rfl), if_pos rfl]
    exact u32_of_lt (by simp only [Block.get]; omega)
  have hlink := freeList_updateNeighbours hP hQ (fun i hi => hf.sized i (hmem i hi)) hR.blocks
    hR.separated.ascending hkeep hprev' hnext' hsize'
  refine ⟨{ h with mem := assign b.start d (updateNeighbours (b.start + d) m)
                   firstFree := (starts (P ++ ⟨b.start + d, b.size - d⟩ :: Q)).headD 0 },
    ?_, ?_, ?_, ?_⟩
  · rw [← headD_starts (L := b :: Q) (fun i hi => hL.blocks i (by simp [hi]))
      ⟨b.start + d, b.size - d⟩, ← hprev', ← hf.first]
    simp only [subdivide, hp, hsize, hptr, m]
  · refine hlink.congr rfl fun i hi x hx hx' => data_assign ?_
    have hne : i.start ≠ b.start := by
      rcases List.mem_append.mp hi with hi | hi
      · exact start_ne hL.blocks hL.separated.ascending (by simp [hi])
      · rcases List.mem_cons.mp hi with rfl | hi
        · simp only [ne_eq]
          omega
        · exact start_ne hL.blocks hL.separated.ascending (by simp [hi])
    have hap := (hR.blocks i hi).node.apart hb.node
    simp only [Apart, blockHeaderSize] at hap hx'
    omega
  · rw [deref_assign, u32_of_lt (by omega)]
  · intro x hx
    have hcut := cover_cut x P Q (i := b) (d := d) (by omega)
    have hxb := outside_header hL.blocks hx (i := b) (by simp)
    have hxc := outside_header hR.blocks (x := x) (by omega)
      (i := ⟨b.start + d, b.size - d⟩) (by simp)
    change (assign b.start d (updateNeighbours (b.start + d) m)).data x = _
    rw [data_assign (by simp only [blockHeaderSize] at hxb; omega),
      data_relinked hR.blocks hR.separated.ascending hprev' hnext' (by omega),
      data_storeBlock hxc]

/-! ## Allocation -/

/-- The member at which a search for `need` bytes ends: the first that is large
enough, or the last. -/
theorem exists_stop (hne : L ≠ []) (need : ℕ) :
    ∃ P b Q, L = P ++ b :: Q ∧ (∀ i ∈ P, i.size < need) ∧ (Q = [] ∨ need ≤ b.size) := by
  induction L with
  | nil => exact absurd rfl hne
  | cons i L ih =>
      by_cases hi : L = [] ∨ need ≤ i.size
      · exact ⟨[], i, L, rfl, by simp, hi⟩
      · rw [not_or] at hi
        obtain ⟨P, b, Q, rfl, hP, hb⟩ := ih hi.1
        refine ⟨i :: P, b, Q, rfl, ?_, hb⟩
        simpa using ⟨by omega, hP⟩

/-- The loop of `nmalloc_malloc` ends there. -/
theorem search_spec (hf : FreeList h (P ++ b :: Q)) (hL : A.IsFreeList (P ++ b :: Q)) {need : ℕ}
    (hP : ∀ i ∈ P, i.size < need) (hb : Q = [] ∨ need ≤ b.size) :
    follow (load .next h.mem)
        (fun c => c ≠ 0 && load .next h.mem c ≠ 0 && load .size h.mem c < need)
        maxBlocks h.firstFree = some b.start := by
  have hlen := length_lt_maxBlocks hL.blocks hL.separated.ascending
  have hlink := hf.linked
  have hfirst := hf.first
  simp only [starts, List.map_append, List.map_cons] at hlink hfirst
  rw [hfirst, headD_append]
  refine follow_eq hlink ?_ ?_ (by simp only [List.length_append, List.length_map] at hlen ⊢; omega)
  · intro a ha
    obtain ⟨i, hi, rfl⟩ := List.mem_map.mp ha
    have hiL : i ∈ P ++ b :: Q := List.mem_append_left _ hi
    have hsize : load .size h.mem i.start < need := by
      rw [hf.sized i hiL]
      exact hP i hi
    have hnext : load .next h.mem i.start ≠ 0 := by
      obtain ⟨P₁, P₂, rfl⟩ := List.append_of_mem hi
      have hlink' := hf.linked
      rw [List.append_assoc, List.cons_append] at hlink'
      rw [(linked_parts hlink').2.2.2]
      cases P₂ with
      | nil => exact (hL.blocks b (by simp)).node.pos.ne'
      | cons j P₂ => exact (hL.blocks j (by simp)).node.pos.ne'
    simp [(hL.blocks i hiL).node.pos.ne', hnext, hsize]
  · rcases hb with rfl | hb
    · have hnext : load .next h.mem b.start = 0 := (linked_parts hf.linked).2.2.2
      simp [hnext]
    · have hsize := hf.sized b (by simp)
      simp [hsize, hb]

/-- The outcome depends on the block at which the search ends, for the size that the code
computes. -/
theorem nmallocMalloc_search {size need : ℕ} (hf : FreeList h (P ++ b :: Q))
    (hL : A.IsFreeList (P ++ b :: Q)) (h0 : size ≠ 0) (hneed : u32 (dataSize size + blockHeaderSize) = need)
    (hP : ∀ i ∈ P, i.size < need) (hb : Q = [] ∨ need ≤ b.size) :
    nmallocMalloc size h =
      some (if b.size < need then (h, 0) else subdivide b.start (dataSize size) h) := by
  have hb0 : b.start ≠ 0 := (hL.blocks b (by simp)).node.pos.ne'
  simp only [nmallocMalloc, if_neg h0, hneed, search_spec hf hL hP hb, Option.map_some, hb0, false_or,
    hf.sized b (by simp)]

/-- The same for a size that does not wrap. -/
theorem nmallocMalloc_eq {size : ℕ} (hf : FreeList h (P ++ b :: Q))
    (hL : A.IsFreeList (P ++ b :: Q)) (h0 : size ≠ 0) (hfits : Fits size)
    (hP : ∀ i ∈ P, i.size < roundedSize size + blockHeaderSize)
    (hb : Q = [] ∨ roundedSize size + blockHeaderSize ≤ b.size) :
    nmallocMalloc size h =
      some (if b.size < roundedSize size + blockHeaderSize then (h, 0)
        else subdivide b.start (roundedSize size) h) := by
  have hneed : u32 (dataSize size + blockHeaderSize) = roundedSize size + blockHeaderSize := by
    rw [dataSize_eq hfits]
    exact u32_of_lt hfits
  rw [nmallocMalloc_search hf hL h0 hneed hP hb, dataSize_eq hfits]

/-- Nothing is allocated, and nothing changes, when nothing is asked for or no block
is large enough. -/
theorem nmallocMalloc_none {size : ℕ} (hf : FreeList h L) (hL : A.IsFreeList L)
    (hsize : size = 0 ∨ Fits size ∧ ∀ i ∈ L, i.size < roundedSize size + blockHeaderSize) :
    nmallocMalloc size h = some (h, 0) := by
  by_cases h0 : size = 0
  · rw [nmallocMalloc, if_pos h0]
  · obtain ⟨hfits, hsmall⟩ := hsize.resolve_left h0
    obtain ⟨P, b, Q, rfl, hP, hb⟩ := exists_stop hL.nonempty (roundedSize size + blockHeaderSize)
    rw [nmallocMalloc_eq hf hL h0 hfits hP hb, if_pos (hsmall b (by simp))]

/-- Else the first block that is large enough is subdivided. -/
theorem nmallocMalloc_some {size : ℕ} (hf : FreeList h L) (hL : A.IsFreeList L) (h0 : size ≠ 0)
    (hfits : Fits size) (hbig : ∃ i ∈ L, roundedSize size + blockHeaderSize ≤ i.size) :
    ∃ P b Q h', L = P ++ b :: Q ∧ roundedSize size + blockHeaderSize ≤ b.size ∧
      nmallocMalloc size h = some (h', b.start + sizeofSizeT) ∧
      FreeList h' (P ++ ⟨b.start + roundedSize size, b.size - roundedSize size⟩ :: Q) ∧
      deref h'.mem b.start = roundedSize size ∧
      ∀ x : ℕ, cover x L = 0 → h'.mem.data x = h.mem.data x := by
  obtain ⟨P, b, Q, rfl, hP, hb⟩ := exists_stop hL.nonempty (roundedSize size + blockHeaderSize)
  have hfit : roundedSize size + blockHeaderSize ≤ b.size := by
    rcases hb with rfl | hb
    · obtain ⟨i, hi, hge⟩ := hbig
      rcases List.mem_append.mp hi with hi | hi
      · exact absurd (hP i hi) (by omega)
      · rcases List.mem_singleton.mp hi with rfl
        exact hge
    · exact hb
  obtain ⟨hmod, -, hmin⟩ := roundedSize_spec size
  obtain ⟨h', hsub, hf', hlen, hframe⟩ := subdivide_spec hf hL
    (Nat.lt_of_lt_of_le (by decide) hmin) hmod hfit
  refine ⟨P, b, Q, h', rfl, hfit, ?_, hf', hlen, hframe⟩
  rw [nmallocMalloc_eq hf hL h0 hfits hP hb, if_neg (by omega), hsub]

/-! ## Release -/

/-- The loop of `nmalloc_free` finds the neighbours of a new block. -/
theorem findPlace_eq {m : Bus} {p a new n : ℕ} {P Q : List ℕ}
    (hlink : Linked (links m) p (a :: P ++ Q) 0) (hpos : ∀ c ∈ a :: P ++ Q, 0 < c)
    (hP : ∀ c ∈ a :: P, c < new) (hQ : ∀ c ∈ Q, new < c) (hn : P.length < n) :
    findPlace m new n a (load .next m a) = some (P.getLastD a, Q.headD 0) := by
  obtain ⟨n, rfl⟩ : ∃ k, n = k + 1 := ⟨n - 1, by omega⟩
  induction P generalizing p a n with
  | nil =>
      have hnext : load .next m a = Q.headD 0 := hlink.2.1
      rw [findPlace, hnext]
      cases Q with
      | nil => rfl
      | cons q Q =>
          have hq : 0 < q := hpos q (by simp)
          rw [List.headD_cons, if_neg hq.ne', if_pos ⟨hP a (by simp), hQ q (by simp)⟩]
          rfl
  | cons c P ih =>
      obtain ⟨n, rfl⟩ : ∃ k, n = k + 1 := ⟨n - 1, by simp only [List.length_cons] at hn; omega⟩
      have hnext : load .next m a = c := hlink.2.1
      have hc : 0 < c := hpos c (by simp)
      have hcn : c < new := hP c (by simp)
      rw [findPlace, hnext, if_neg hc.ne', if_neg (by omega), List.getLastD_cons]
      exact ih hlink.2.2 (fun d hd => hpos d (List.mem_cons_of_mem _ hd))
        (fun d hd => hP d (List.mem_cons_of_mem _ hd)) n
        (by simp only [List.length_cons] at hn; omega)

section Release

variable {n : Interval} {m : Bus}

/-- The header of a released block names the neighbours found for it. -/
theorem place_eq (hf : FreeList h (P ++ Q)) (hL : A.IsFreeList (P ++ Q))
    (hP : ∀ i ∈ P, i.start < n.start) (hQ : ∀ i ∈ Q, n.start < i.start)
    (hkeep : ∀ f, ∀ i ∈ P ++ Q, load f m i.start = load f h.mem i.start) :
    (if n.start < h.firstFree then some (0, h.firstFree)
      else findPlace m n.start maxBlocks h.firstFree (load .next m h.firstFree))
      = some ((starts P).getLastD 0, (starts Q).headD 0) := by
  have hfirst := hf.first
  cases P with
  | nil =>
      cases Q with
      | nil => exact absurd rfl hL.nonempty
      | cons q Q =>
          have hq : h.firstFree = q.start := hfirst
          rw [hq, if_pos (hQ q List.mem_cons_self)]
          rfl
  | cons i P =>
      have hi : h.firstFree = i.start := hfirst
      have hlen := length_lt_maxBlocks hL.blocks hL.separated.ascending
      have hlt := hP i List.mem_cons_self
      have hlink : Linked (links m) 0 (starts (i :: P ++ Q)) 0 := by
        refine hf.linked.congr fun a ha => ?_
        obtain ⟨k, hk, rfl⟩ := List.mem_map.mp ha
        exact ⟨hkeep .prev k hk, hkeep .next k hk⟩
      have hpos : ∀ a ∈ starts (i :: P ++ Q), 0 < a := fun a ha =>
        (nodes_of_blocks hL.blocks a ha).pos
      simp only [starts, List.cons_append, List.map_append, List.map_cons] at hlink hpos
      rw [hi, if_neg (by omega)]
      simp only [starts, List.map_cons, List.getLastD_cons]
      refine findPlace_eq hlink hpos ?_ ?_ ?_
      · intro a ha
        rcases List.mem_cons.mp ha with rfl | ha
        · exact hlt
        · obtain ⟨k, hk, rfl⟩ := List.mem_map.mp ha
          exact hP k (List.mem_cons_of_mem _ hk)
      · intro a ha
        obtain ⟨k, hk, rfl⟩ := List.mem_map.mp ha
        exact hQ k hk
      · simp only [List.cons_append, List.length_cons, List.length_append] at hlen
        simp only [List.length_map]
        omega

/-- The first block is the released one exactly when it lies before all others. -/
theorem first_eq (hf : FreeList h (P ++ Q)) (hL : A.IsFreeList (P ++ Q))
    (hP : ∀ i ∈ P, i.start < n.start) (hQ : ∀ i ∈ Q, n.start < i.start) :
    (if n.start < h.firstFree then n.start else h.firstFree)
      = (starts (P ++ n :: Q)).headD 0 := by
  have hfirst := hf.first
  cases P with
  | nil =>
      cases Q with
      | nil => exact absurd rfl hL.nonempty
      | cons q Q =>
          have hq : h.firstFree = q.start := hfirst
          rw [hq, if_pos (hQ q List.mem_cons_self)]
          rfl
  | cons i P =>
      have hi : h.firstFree = i.start := hfirst
      have hlt := hP i List.mem_cons_self
      rw [hi, if_neg (by omega)]
      rfl

/-- Coalescing makes a free list of any blocks in order. -/
theorem Area.isFreeList_coalesce {i : Interval} (hb : ∀ k ∈ i :: L, A.IsBlock k)
    (ha : Ascending (i :: L)) : A.IsFreeList (coalesce i L) := by
  refine ⟨?_, ?_, separated_coalesce ha⟩
  · obtain ⟨d, M, hM⟩ := coalesce_eq_cons i L
    rw [hM]
    exact List.cons_ne_nil _ _
  · exact forall_coalesce (fun _ _ hi hj h => hi.join hj h) (hb i List.mem_cons_self)
      fun k hk => hb k (List.mem_cons_of_mem _ hk)

/-- What `nmalloc_free` does before it merges: the block is a member of the list. -/
theorem insert_spec (hf : FreeList h (P ++ Q)) (hb : ∀ i ∈ P ++ n :: Q, A.IsBlock i)
    (ha : Ascending (P ++ n :: Q)) :
    FreeList
        { h with
          mem := updateNeighbours n.start (store .next n.start ((starts Q).headD 0)
            (store .prev n.start ((starts P).getLastD 0) (store .size n.start n.size h.mem)))
          firstFree := (starts (P ++ n :: Q)).headD 0 } (P ++ n :: Q) ∧
      ∀ x : ℕ, cover x (P ++ n :: Q) = 0 →
        (updateNeighbours n.start (store .next n.start ((starts Q).headD 0)
          (store .prev n.start ((starts P).getLastD 0)
            (store .size n.start n.size h.mem)))).data x = h.mem.data x := by
  have hn : A.IsBlock n := hb n (by simp)
  have hstop := hn.stop_le
  have hpos := hn.node.pos
  have hsize : n.size < 2 ^ 32 := by
    simp only [Interval.stop] at hstop
    omega
  have hnn := hn.node.apart hn.node
  have hnode := nodes_of_blocks hb
  have hplt : (starts P).getLastD 0 < 2 ^ 32 := by
    by_cases h0 : (starts P).getLastD 0 = 0
    · rw [h0]
      decide
    · obtain ⟨i, hi, hip⟩ := List.mem_map.mp (getLastD_mem h0)
      exact hip ▸ (hb i (by simp [hi])).node.lt
  have hqlt : (starts Q).headD 0 < 2 ^ 32 := by
    by_cases h0 : (starts Q).headD 0 = 0
    · rw [h0]
      decide
    · obtain ⟨i, hi, hip⟩ := List.mem_map.mp (headD_mem h0)
      exact hip ▸ (hb i (by simp [hi])).node.lt
  have hmem : ∀ i ∈ P ++ Q, i ∈ P ++ n :: Q := by
    intro i hi
    rcases List.mem_append.mp hi with hi | hi <;> simp [hi]
  have hlink := hf.linked
  simp only [starts, List.map_append] at hlink
  obtain ⟨hP, hQ⟩ := (linked_append _ _).mp hlink
  have hprev : load .prev (store .next n.start ((starts Q).headD 0)
      (store .prev n.start ((starts P).getLastD 0) (store .size n.start n.size h.mem))) n.start
      = (starts P).getLastD 0 := by
    simp only [load_store hnn, reduceCtorEq, and_false, and_true, if_true, if_false,
      u32_of_lt hplt]
  have hnext : load .next (store .next n.start ((starts Q).headD 0)
      (store .prev n.start ((starts P).getLastD 0) (store .size n.start n.size h.mem))) n.start
      = (starts Q).headD 0 := by
    simp only [load_store hnn, and_true, if_true, u32_of_lt hqlt]
  refine ⟨freeList_updateNeighbours hP hQ (fun i hi => hf.sized i hi) hb ha ?_ hprev hnext ?_, ?_⟩
  · intro f i hi
    have hap := (hb i (hmem i hi)).node.apart hn.node
    simp only [load_store hap, start_ne hb ha hi, false_and, if_false]
  · simp only [load_store hnn, reduceCtorEq, and_false, and_true, if_true, if_false,
      u32_of_lt hsize]
  · intro x hx
    have hout := outside_header hb hx (i := n) (by simp)
    rw [data_relinked hb ha hprev hnext hx, data_store hout, data_store hout, data_store hout]

/-- **Release.**  The block whose length word lies at its start is free afterwards,
and the list is a free list again. -/
theorem nmallocFree_spec (hf : FreeList h L) (hL : A.IsFreeList L)
    (hn : A.IsBlock n) (hlen : deref h.mem n.start = n.size)
    (hfree : ∀ x, n.Has x → cover x L = 0) :
    ∃ h' M, nmallocFree (n.start + sizeofSizeT) h = some (h', 0) ∧ FreeList h' M ∧
      A.IsFreeList M ∧ (∀ x, cover x M = cover x (n :: L)) ∧
      ∀ x : ℕ, cover x (n :: L) = 0 → h'.mem.data x = h.mem.data x := by
  obtain ⟨P, Q, rfl, hP, hQ⟩ := hL.separated.ascending.split n.start
  have hQ' : ∀ i ∈ Q, n.start < i.start := by
    intro i hi
    have hiL : i ∈ P ++ Q := List.mem_append_right _ hi
    have hout := cover_eq_zero.mp (hfree n.start ⟨Nat.le_refl _, by have := hn.pos; omega⟩) i hiL
    have hpos := (hL.blocks i hiL).pos
    have hge := hQ i hi
    simp only [Interval.Has] at hout
    omega
  have hasc : Ascending (P ++ n :: Q) :=
    ascending_insert hL.separated.ascending hn.pos
      (fun i hi => (hL.blocks i (List.mem_append_right _ hi)).pos) hP hQ' hfree
  have hblocks : ∀ i ∈ P ++ n :: Q, A.IsBlock i := by
    intro i hi
    rcases List.mem_append.mp hi with hi | hi
    · exact hL.blocks i (List.mem_append_left _ hi)
    · rcases List.mem_cons.mp hi with rfl | hi
      · exact hn
      · exact hL.blocks i (List.mem_append_right _ hi)
  have hcover : ∀ x, cover x (P ++ n :: Q) = cover x (n :: (P ++ Q)) := fun x =>
    cover_perm List.perm_middle x
  have hkeep : ∀ f, ∀ i ∈ P ++ Q,
      load f (store .size n.start n.size h.mem) i.start = load f h.mem i.start := by
    intro f i hi
    rw [load_store ((hL.blocks i hi).node.apart hn.node),
      if_neg fun hc => start_ne hblocks hasc hi hc.1]
  have hptr : u32 (n.start + sizeofSizeT + 2 ^ 32 - sizeofSizeT) = n.start := by
    have hlt := hn.node.lt
    simp only [u32, sizeofSizeT]
    omega
  obtain ⟨hins, hframe⟩ := insert_spec hf hblocks hasc
  obtain ⟨i, L, hiL⟩ : ∃ i L, P ++ n :: Q = i :: L := by
    cases P <;> simp
  rw [hiL] at hins hblocks hasc hframe hcover
  obtain ⟨h', hmerge, hf', hframe'⟩ := mergeAdjacentFreeBlocks_spec hins hblocks hasc
  refine ⟨h', coalesce i L, ?_, hf', Area.isFreeList_coalesce hblocks hasc,
    fun x => (cover_coalesce x i L).trans (hcover x), fun x hx => ?_⟩
  · simp only [nmallocFree, hptr, hlen, place_eq hf hL hP hQ' hkeep, Option.bind_some,
      first_eq hf hL hP hQ', hiL, hmerge, Option.map_some]
  · rw [← hcover] at hx
    rw [hframe' x hx]
    exact hframe x hx

end Release

end Pigfx.Nmalloc
