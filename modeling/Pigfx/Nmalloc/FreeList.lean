import Pigfx.Lib.Interval
import Pigfx.Nmalloc.Heap

/-!
# The free list and what the functions do to it

The memory holds a free list when its headers, read along the links, are a given
list of intervals.  Under that view each function of the allocator has one
description: the loops find a place in the list, `nmalloc_malloc` shortens one
member from the front, `nmalloc_free` puts a member in and coalesces the list, and
every byte outside the intervals named is left alone.

## Main definitions

* `Area` — a memory area the allocator may be given.
* `Area.IsBlock` — an interval of the area that can hold a header where one may lie.
* `FreeList h L` — the heap's free list is `L`.
* `subdivide_spec`, `mergeAdjacentFreeBlocks_spec`, `nmallocFree_spec` — the effects.
-/

namespace Pigfx.Nmalloc

open Lib

/-! ## Areas and blocks -/

/-- A memory area for the allocator: four-byte aligned, not the null pointer, large
enough to be used at all, inside the address space. -/
structure Area where
  base : ℕ
  size : ℕ
  base_pos : 0 < base
  aligned : base % 4 = 0
  size_ge : 24 ≤ size
  fits : base + size ≤ 2 ^ 32

namespace Area

/-- A header may lie here: inside the area, a number of headers from its start. -/
structure IsNode (A : Area) (a : ℕ) : Prop where
  ge : A.base ≤ a
  le : a + blockHeaderSize ≤ A.base + A.size
  aligned : a % blockHeaderSize = A.base % blockHeaderSize

/-- An interval of the area that starts where a header may lie and has room for one. -/
structure IsBlock (A : Area) (i : Interval) : Prop where
  ge : A.base ≤ i.start
  le : i.stop ≤ A.base + A.size
  aligned : i.start % blockHeaderSize = A.base % blockHeaderSize
  sized : blockHeaderSize ≤ i.size

variable {A : Area} {a b : ℕ} {i j : Interval}

theorem IsNode.pos (h : A.IsNode a) : 0 < a := Nat.lt_of_lt_of_le A.base_pos h.ge

theorem IsNode.lt (h : A.IsNode a) : a < 2 ^ 32 := by
  have hle := h.le
  have hA := A.fits
  simp only [blockHeaderSize] at hle
  omega

theorem IsNode.apart (ha : A.IsNode a) (hb : A.IsNode b) : Apart a b := by
  have ha' := ha.aligned
  have hb' := hb.aligned
  simp only [Apart, blockHeaderSize] at *
  omega

theorem IsBlock.node (h : A.IsBlock i) : A.IsNode i.start := by
  refine ⟨h.ge, ?_, h.aligned⟩
  have hle := h.le
  have hs := h.sized
  simp only [Interval.stop] at hle
  omega

theorem IsBlock.pos (h : A.IsBlock i) : 0 < i.size :=
  Nat.lt_of_lt_of_le (by decide) h.sized

theorem IsBlock.stop_le (h : A.IsBlock i) : i.stop ≤ 2 ^ 32 := Nat.le_trans h.le A.fits

theorem IsBlock.join (hi : A.IsBlock i) (hj : A.IsBlock j) (h : i.stop = j.start) :
    A.IsBlock (i.join j) := by
  refine ⟨hi.ge, ?_, hi.aligned, Nat.le_trans hi.sized (Nat.le_add_right _ _)⟩
  have hle := hj.le
  simp only [Interval.stop, Interval.join] at *
  omega

/-- What is left of a block when a number of headers is taken off its front. -/
theorem IsBlock.rest {d : ℕ} (h : A.IsBlock i) (hd : d % blockHeaderSize = 0)
    (hfit : d + blockHeaderSize ≤ i.size) : A.IsBlock ⟨i.start + d, i.size - d⟩ := by
  have hge := h.ge
  have hle := h.le
  have hal := h.aligned
  simp only [Interval.stop, blockHeaderSize] at *
  refine ⟨?_, ?_, ?_, ?_⟩ <;> simp only [Interval.stop, blockHeaderSize] <;> omega

end Area

/-! ## Linking a block between two parts of the list -/

/-- The links in the memory. -/
def links (m : Bus) : Links ℕ := ⟨load .prev m, load .next m⟩

section Relink

variable {A : Area} {m : Bus} {b : ℕ} {P Q : List ℕ}

/-- What stands in the headers once the neighbours of a block are updated. -/
theorem load_relinked (hnode : ∀ a ∈ P ++ b :: Q, A.IsNode a) (hd : (P ++ b :: Q).Nodup)
    (hprev : load .prev m b = P.getLastD 0) (hnext : load .next m b = Q.headD 0)
    {f : Member} {a : ℕ} (ha : A.IsNode a) :
    load f (updateNeighbours b m) a =
      if f = .next ∧ P.getLastD 0 ≠ 0 ∧ a = P.getLastD 0 then b
      else if f = .prev ∧ Q.headD 0 ≠ 0 ∧ a = Q.headD 0 then b
      else load f m a := by
  have hb : A.IsNode b := hnode b (by simp)
  have hnp : P.getLastD 0 ≠ 0 → A.IsNode (P.getLastD 0) := fun h =>
    hnode _ (List.mem_append_left _ (getLastD_mem h))
  have hnq : Q.headD 0 ≠ 0 → A.IsNode (Q.headD 0) := fun h =>
    hnode _ (List.mem_append_right _ (List.mem_cons_of_mem _ (headD_mem h)))
  have hbP : P.getLastD 0 ≠ 0 → b ≠ P.getLastD 0 := by
    intro h heq
    have hmem : b ∈ P := heq ▸ getLastD_mem h
    exact (List.nodup_append.mp hd).2.2 b hmem b List.mem_cons_self rfl
  rw [← hprev] at hnp hbP ⊢
  rw [← hnext] at hnq ⊢
  exact load_updateNeighbours hb.lt (fun h => ⟨hb.apart (hnp h), hbP h⟩)
    (fun h => ha.apart (hnp h)) (fun h => ha.apart (hnq h))

/-- Updating the neighbours of a block whose own links are right links the list. -/
theorem linked_updateNeighbours {e p : ℕ} (hP : Linked (links m) 0 P e)
    (hQ : Linked (links m) p Q 0) (hnode : ∀ a ∈ P ++ b :: Q, A.IsNode a)
    (hd : (P ++ b :: Q).Nodup) (hprev : load .prev m b = P.getLastD 0)
    (hnext : load .next m b = Q.headD 0) :
    Linked (links (updateNeighbours b m)) 0 (P ++ b :: Q) 0 := by
  have hload : ∀ (f : Member) (a : ℕ), a ∈ P ++ b :: Q → load f (updateNeighbours b m) a =
      if f = .next ∧ P.getLastD 0 ≠ 0 ∧ a = P.getLastD 0 then b
      else if f = .prev ∧ Q.headD 0 ≠ 0 ∧ a = Q.headD 0 then b
      else load f m a := fun f a ha => load_relinked hnode hd hprev hnext (hnode a ha)
  obtain ⟨hdP, hdbQ, hdPQ⟩ := List.nodup_append.mp hd
  obtain ⟨hbQ, hdQ⟩ := List.nodup_cons.mp hdbQ
  have hpos : ∀ a ∈ P ++ b :: Q, a ≠ 0 := fun a ha => (hnode a ha).pos.ne'
  refine hP.splice hQ hdP hdQ ⟨?_, ?_⟩ ?_ ?_ ?_ ?_
  · change load .prev _ _ = _
    rw [hload _ _ (by simp), if_neg (by simp), if_neg, hprev]
    rintro ⟨-, hne, rfl⟩
    exact hbQ (headD_mem hne)
  · change load .next _ _ = _
    rw [hload _ _ (by simp), if_neg, if_neg (by simp), hnext]
    rintro ⟨-, hne, rfl⟩
    exact hdPQ _ (getLastD_mem hne) _ List.mem_cons_self rfl
  · intro a ha
    change load .prev _ _ = _
    rw [hload _ _ (by simp [ha]), if_neg (by simp), if_neg]
    · rfl
    · rintro ⟨-, hne, rfl⟩
      exact hdPQ _ ha _ (List.mem_cons_of_mem _ (headD_mem hne)) rfl
  · intro a ha
    change load .next _ _ = _
    rw [hload _ _ (by simp [ha])]
    by_cases hal : a = P.getLastD 0
    · rw [if_pos ⟨rfl, hal ▸ hpos a (by simp [ha]), hal⟩, if_pos hal]
    · rw [if_neg fun h => hal h.2.2, if_neg (by simp), if_neg hal]
      rfl
  · intro a ha
    change load .next _ _ = _
    rw [hload _ _ (by simp [ha]), if_neg, if_neg (by simp)]
    · rfl
    · rintro ⟨-, hne, rfl⟩
      exact hdPQ _ (getLastD_mem hne) _ (List.mem_cons_of_mem _ ha) rfl
  · intro a ha
    change load .prev _ _ = _
    rw [hload _ _ (by simp [ha]), if_neg (by simp)]
    by_cases hah : a = Q.headD 0
    · rw [if_pos ⟨rfl, hah ▸ hpos a (by simp [ha]), hah⟩, if_pos hah]
    · rw [if_neg fun h => hah h.2.2, if_neg hah]
      rfl

end Relink

/-! ## The free list -/

/-- Where the members start. -/
abbrev starts (L : List Interval) : List ℕ := L.map Interval.start

/-- The headers from `first_free` on, read along the links, are the list. -/
structure FreeList (h : Heap) (L : List Interval) : Prop where
  first : h.firstFree = (starts L).headD 0
  linked : Linked (links h.mem) 0 (starts L) 0
  sized : ∀ i ∈ L, load .size h.mem i.start = i.size

variable {A : Area}

theorem nodes_of_blocks {L : List Interval} (h : ∀ i ∈ L, A.IsBlock i) :
    ∀ a ∈ starts L, A.IsNode a := by
  intro a ha
  obtain ⟨i, hi, rfl⟩ := List.mem_map.mp ha
  exact (h i hi).node

theorem nodup_starts {L : List Interval} (h : ∀ i ∈ L, A.IsBlock i) (ha : Ascending L) :
    (starts L).Nodup :=
  (ha.starts_lt fun i hi => (h i hi).pos).imp fun hij => Nat.ne_of_lt hij

/-- An address that no block holds is in no header. -/
theorem outside_header {L : List Interval} (h : ∀ i ∈ L, A.IsBlock i) {x : ℕ}
    (hx : cover x L = 0) {i : Interval} (hi : i ∈ L) :
    x < i.start ∨ i.start + blockHeaderSize ≤ x := by
  have hx' := cover_eq_zero.mp hx i hi
  have hs := (h i hi).sized
  simp only [Interval.Has] at hx'
  omega

/-- The headers of a list of blocks, each with the links its place in the list demands. -/
def headers : ℕ → List Interval → List FreeBlock
  | _, [] => []
  | p, i :: L =>
      { addr := i.start, prev := p, next := (starts L).headD 0, size := i.size } ::
        headers i.start L

theorem map_loadBlock {m : Bus} {p : ℕ} {L : List Interval} (h : Linked (links m) p (starts L) 0)
    (hs : ∀ i ∈ L, load .size m i.start = i.size) : (starts L).map (loadBlock m) = headers p L := by
  induction L generalizing p with
  | nil => rfl
  | cons i L ih =>
      have hprev : load .prev m i.start = p := h.1
      have hnext : load .next m i.start = (starts L).headD 0 := h.2.1
      rw [starts, List.map_cons, List.map_cons, ih h.2.2 fun j hj => hs j (List.mem_cons_of_mem _ hj)]
      simp only [loadBlock, hprev, hnext, hs i List.mem_cons_self, headers]

/-- The addresses and sizes of the headers are the list. -/
theorem map_headers {p : ℕ} {L : List Interval} :
    (headers p L).map (fun b => (⟨b.addr, b.size⟩ : Interval)) = L := by
  induction L generalizing p with
  | nil => rfl
  | cons i L ih => simp only [headers, List.map_cons, ih]

/-! ## Merging -/

section Merge

variable {m : Bus} {p : ℕ} {i j : Interval} {L : List Interval}

/-- What merging a block with the next stores. -/
theorem load_mergeNext (hi : A.IsNode i.start) (hj : A.IsNode j.start) (hij : i.start ≠ j.start)
    (hnext : load .next m i.start = j.start) (hq : load .next m j.start ≠ 0 →
      A.IsNode (load .next m j.start)) {f : Member} {a : ℕ} (ha : A.IsNode a) :
    load f (mergeNext i.start m) a =
      if f = .prev ∧ load .next m j.start ≠ 0 ∧ a = load .next m j.start then i.start
      else if f = .next ∧ a = i.start then load .next m j.start
      else if f = .size ∧ a = i.start then u32 (load .size m i.start + load .size m j.start)
      else load f m a := by
  have hii := hi.apart hi
  have hji := hj.apart hi
  have hai := ha.apart hi
  have hlt := load_lt .next m j.start
  simp only [mergeNext, hnext, load_store hii, load_store hji, hij.symm, reduceCtorEq, and_true,
    and_false, if_true, if_false, u32_of_lt hlt]
  split
  · next h =>
      rw [load_store (ha.apart (hq h)), load_store hai, load_store hai]
      cases f <;> simp [h, u32_of_lt hi.lt, u32_of_lt hlt]
  · next h =>
      rw [load_store hai, load_store hai]
      have h0 : load .next m j.start = 0 := not_not.mp h
      cases f <;> simp [h0, u32]

theorem data_mergeNext {x : ℕ} (hi : A.IsNode i.start) (hj : A.IsNode j.start)
    (hij : i.start ≠ j.start) (hnext : load .next m i.start = j.start)
    (hxi : x < i.start ∨ i.start + blockHeaderSize ≤ x)
    (hxq : load .next m j.start ≠ 0 →
      x < load .next m j.start ∨ load .next m j.start + blockHeaderSize ≤ x) :
    (mergeNext i.start m).data x = m.data x := by
  have hlt := load_lt .next m j.start
  simp only [mergeNext, hnext, load_store (hi.apart hi), load_store (hj.apart hi), hij.symm,
    reduceCtorEq, and_true, and_false, if_true, if_false, u32_of_lt hlt]
  split
  · next h => rw [data_store (hxq h), data_store hxi, data_store hxi]
  · rw [data_store hxi, data_store hxi]

/-- One merge joins the first two members. -/
theorem mergeNext_spec (h : Linked (links m) p (starts (i :: j :: L)) 0)
    (hs : ∀ k ∈ i :: j :: L, load .size m k.start = k.size)
    (hb : ∀ k ∈ i :: j :: L, A.IsBlock k) (ha : Ascending (i :: j :: L))
    (htouch : i.stop = j.start) :
    Linked (links (mergeNext i.start m)) p (starts (i.join j :: L)) 0 ∧
      (∀ k ∈ i.join j :: L, load .size (mergeNext i.start m) k.start = k.size) ∧
      ∀ x : ℕ, cover x (i :: j :: L) = 0 → (mergeNext i.start m).data x = m.data x := by
  have hnode := nodes_of_blocks hb
  have hd := nodup_starts hb ha
  simp only [starts, List.map_cons, List.nodup_cons, List.mem_cons, not_or] at hd hnode h
  obtain ⟨⟨hij, hiL⟩, hjL, hdL⟩ := hd
  have hi : A.IsNode i.start := hnode _ (by simp)
  have hj : A.IsNode j.start := hnode _ (by simp)
  have hnext : load .next m i.start = j.start := h.2.1
  have hnextj : load .next m j.start = (starts L).headD 0 := h.2.2.2.1
  have hq : load .next m j.start ≠ 0 → load .next m j.start ∈ starts L := by
    rw [hnextj]
    exact headD_mem
  have hload : ∀ (f : Member) (a : ℕ), A.IsNode a → load f (mergeNext i.start m) a = _ :=
    fun f a ha => load_mergeNext hi hj hij hnext (fun h0 => hnode _ (by simp [hq h0])) ha
  refine ⟨⟨?_, ?_, ?_⟩, ?_, ?_⟩
  · change load .prev _ i.start = _
    rw [hload _ _ hi, if_neg, if_neg (by simp), if_neg (by simp)]
    · exact h.1
    · rintro ⟨-, h0, heq⟩
      exact hiL (heq ▸ hq h0)
  · change load .next _ i.start = _
    rw [hload _ _ hi, if_neg (by simp), if_pos ⟨rfl, rfl⟩]
    exact hnextj
  · refine Linked.comeFrom h.2.2.2.2 hdL ?_ ?_
    · intro a haL
      change load .next _ a = _
      have hne : a ≠ i.start := fun heq => hiL (heq ▸ haL)
      rw [hload _ _ (hnode _ (by simp [haL])), if_neg (by simp), if_neg (by simp [hne]),
        if_neg (by simp)]
      rfl
    · intro a haL
      have hna : A.IsNode a := hnode _ (by simp [haL])
      change load .prev _ a = _
      rw [hload _ _ hna, hnextj]
      by_cases haq : a = (starts L).headD 0
      · rw [if_pos ⟨rfl, haq ▸ hna.pos.ne', haq⟩, if_pos haq]
        rfl
      · rw [if_neg fun hc => haq hc.2.2, if_neg (by simp), if_neg (by simp), if_neg haq]
        rfl
  · intro k hk
    rcases List.mem_cons.mp hk with rfl | hk
    · have hjoin := (hb i (by simp)).join (hb j (by simp)) htouch
      have hlt : i.size + j.size < 2 ^ 32 := by
        have hstop := hjoin.stop_le
        have hpos := hi.pos
        simp only [Interval.stop, Interval.join] at hstop
        omega
      change load .size _ i.start = i.size + j.size
      rw [hload _ _ hi, if_neg (by simp), if_neg (by simp), if_pos ⟨rfl, rfl⟩, hs i (by simp),
        hs j (by simp), u32_of_lt hlt]
    · have hkL : k.start ∈ starts L := List.mem_map_of_mem hk
      have hne : k.start ≠ i.start := fun heq => hiL (heq ▸ hkL)
      rw [hload _ _ (hnode _ (by simp [hkL])), if_neg (by simp), if_neg (by simp),
        if_neg (by simp [hne])]
      exact hs k (by simp [hk])
  · intro x hx
    refine data_mergeNext hi hj hij hnext (outside_header hb hx (by simp)) fun h0 => ?_
    obtain ⟨k, hk, hkq⟩ := List.mem_map.mp (hq h0)
    rw [← hkq]
    exact outside_header hb hx (by simp [hk])

/-- **Merging coalesces.**  The loop leaves the list with every two members that
touch joined. -/
theorem mergeLoop_spec {n : ℕ} (h : Linked (links m) p (starts (i :: L)) 0)
    (hs : ∀ k ∈ i :: L, load .size m k.start = k.size)
    (hb : ∀ k ∈ i :: L, A.IsBlock k) (ha : Ascending (i :: L)) (hn : L.length < n) :
    ∃ m', mergeLoop n m i.start = some m' ∧ Linked (links m') p (starts (coalesce i L)) 0 ∧
      (∀ k ∈ coalesce i L, load .size m' k.start = k.size) ∧
      ∀ x : ℕ, cover x (i :: L) = 0 → m'.data x = m.data x := by
  obtain ⟨n, rfl⟩ : ∃ k, n = k + 1 := ⟨n - 1, by omega⟩
  induction L generalizing m p i n with
  | nil =>
      have hnext : load .next m i.start = 0 := h.2.1
      exact ⟨m, by rw [mergeLoop, if_pos hnext], h, hs, fun _ _ => rfl⟩
  | cons j L ih =>
      obtain ⟨n, rfl⟩ : ∃ k, n = k + 1 := ⟨n - 1, by simp only [List.length_cons] at hn; omega⟩
      have hnext : load .next m i.start = j.start := h.2.1
      have hj := (hb j (by simp)).node
      have hij : i.stop ≤ j.start := (List.pairwise_cons.mp ha).1 j List.mem_cons_self
      have hend : u32 (i.start + load .size m i.start) = i.stop := by
        rw [hs i List.mem_cons_self]
        exact u32_of_lt (Nat.lt_of_le_of_lt hij hj.lt)
      rw [mergeLoop, hnext, if_neg hj.pos.ne', hend]
      by_cases htouch : i.stop = j.start
      · obtain ⟨hlink, hsize, hframe⟩ := mergeNext_spec h hs hb ha htouch
        have hjoin : Ascending (i.join j :: L) := by
          rw [Ascending, List.pairwise_cons, List.pairwise_cons] at ha
          refine List.pairwise_cons.mpr ⟨fun k hk => ?_, ha.2.2⟩
          have hjk := ha.2.1 k hk
          simp only [Interval.join, Interval.stop] at htouch hjk ⊢
          omega
        have hblocks : ∀ k ∈ i.join j :: L, A.IsBlock k := by
          intro k hk
          rcases List.mem_cons.mp hk with rfl | hk
          · exact (hb i (by simp)).join (hb j (by simp)) htouch
          · exact hb k (by simp [hk])
        obtain ⟨m', hrun, hL, hS, hF⟩ := ih hlink hsize hblocks hjoin n
          (by simp only [List.length_cons] at hn; omega)
        rw [if_pos htouch, coalesce, if_pos htouch]
        refine ⟨m', hrun, hL, hS, fun x hx => ?_⟩
        rw [hF x, hframe x hx]
        have hcov := cover_coalesce x i [j]
        simp only [coalesce, if_pos htouch, cover_cons, cover_nil] at hcov hx ⊢
        omega
      · have htail : Ascending (j :: L) := (List.pairwise_cons.mp ha).2
        obtain ⟨m', hrun, hL, hS, hF⟩ := ih h.2.2 (fun k hk => hs k (by simp [hk]))
          (fun k hk => hb k (by simp [hk])) htail n (by simp only [List.length_cons] at hn; omega)
        have hout : ∀ f, load f m' i.start = load f m i.start := by
          intro f
          refine load_congr fun x hx hx' => hF x (cover_eq_zero.mpr fun k hk hkx => ?_)
          have hik : i.stop ≤ k.start := (List.pairwise_cons.mp ha).1 k hk
          have hsz := (hb i List.mem_cons_self).sized
          simp only [Interval.stop] at hik
          omega
        obtain ⟨d, M, hM⟩ := coalesce_eq_cons j L
        rw [if_neg htouch, coalesce, if_neg htouch]
        refine ⟨m', hrun, ⟨(hout .prev).trans h.1, ?_, hL⟩, ?_, ?_⟩
        · rw [hM]
          exact (hout .next).trans h.2.1
        · intro k hk
          rcases List.mem_cons.mp hk with rfl | hk
          · rw [hout .size]
            exact hs _ List.mem_cons_self
          · exact hS k hk
        · intro x hx
          rw [cover_cons] at hx
          exact hF x (by omega)

end Merge

/-- A list of blocks is shorter than any loop's bound. -/
theorem length_lt_maxBlocks {L : List Interval} (h : ∀ i ∈ L, A.IsBlock i) (ha : Ascending L) :
    L.length < maxBlocks := by
  have hle := ha.length_le (fun i hi => (h i hi).pos) (Nat.le_add_right A.base A.size)
    fun i hi => ⟨(h i hi).ge, (h i hi).le⟩
  have hfits := A.fits
  have hpos := A.base_pos
  simp only [maxBlocks]
  omega

/-- Walking along the links shows the headers, which the list alone determines. -/
theorem FreeList.freeList_eq {h : Heap} {L : List Interval} (hf : FreeList h L)
    (hb : ∀ i ∈ L, A.IsBlock i) (ha : Ascending L) : freeList h = some (headers 0 L) := by
  have hzero : (0 : ℕ) ∉ starts L := fun h0 => Nat.lt_irrefl 0 (nodes_of_blocks hb 0 h0).pos
  have hlen : (starts L).length < maxBlocks := by
    rw [List.length_map]
    exact length_lt_maxBlocks hb ha
  have hwalk : walk (load .next h.mem) 0 maxBlocks ((starts L).headD 0) = some (starts L) :=
    walk_eq hf.linked hzero hlen
  rw [freeList, hf.first, hwalk, Option.map_some, map_loadBlock hf.linked hf.sized]

theorem mergeAdjacentFreeBlocks_spec {h : Heap} {i : Interval} {L : List Interval}
    (hf : FreeList h (i :: L)) (hb : ∀ k ∈ i :: L, A.IsBlock k) (ha : Ascending (i :: L)) :
    ∃ h', mergeAdjacentFreeBlocks h = some h' ∧ FreeList h' (coalesce i L) ∧
      ∀ x : ℕ, cover x (i :: L) = 0 → h'.mem.data x = h.mem.data x := by
  have hn : L.length < maxBlocks := Nat.lt_of_succ_lt (length_lt_maxBlocks hb ha)
  obtain ⟨m', hrun, hlink, hsize, hframe⟩ := mergeLoop_spec hf.linked hf.sized hb ha hn
  have hfirst : h.firstFree = i.start := hf.first
  refine ⟨{ h with mem := m' }, ?_, ⟨?_, hlink, hsize⟩, hframe⟩
  · rw [mergeAdjacentFreeBlocks, hfirst, hrun]
    rfl
  · obtain ⟨d, M, hM⟩ := coalesce_eq_cons i L
    rw [hM]
    exact hfirst

/-- The free list is what it was when no byte of its headers changed. -/
theorem FreeList.congr {h h' : Heap} {L : List Interval} (hf : FreeList h L)
    (hfirst : h'.firstFree = h.firstFree)
    (hmem : ∀ i ∈ L, ∀ x : ℕ, i.start ≤ x → x < i.start + blockHeaderSize →
      h'.mem.data x = h.mem.data x) : FreeList h' L := by
  refine ⟨hfirst.trans hf.first, hf.linked.congr fun a ha => ?_, fun i hi => ?_⟩
  · obtain ⟨i, hi, rfl⟩ := List.mem_map.mp ha
    exact ⟨load_congr (hmem i hi), load_congr (hmem i hi)⟩
  · rw [load_congr (hmem i hi), hf.sized i hi]

/-! ## Linking a new block -/

/-- A block whose header names the ends of two parts of the free list is linked
between them by updating its neighbours. -/
theorem freeList_updateNeighbours {h : Heap} {m : Bus} {c : Interval} {P Q : List Interval}
    {e p : ℕ} (hP : Linked (links h.mem) 0 (starts P) e) (hQ : Linked (links h.mem) p (starts Q) 0)
    (hs : ∀ i ∈ P ++ Q, load .size h.mem i.start = i.size)
    (hb : ∀ i ∈ P ++ c :: Q, A.IsBlock i) (ha : Ascending (P ++ c :: Q))
    (hkeep : ∀ f, ∀ i ∈ P ++ Q, load f m i.start = load f h.mem i.start)
    (hprev : load .prev m c.start = (starts P).getLastD 0)
    (hnext : load .next m c.start = (starts Q).headD 0) (hsize : load .size m c.start = c.size) :
    FreeList { h with mem := updateNeighbours c.start m
                      firstFree := (starts (P ++ c :: Q)).headD 0 } (P ++ c :: Q) := by
  have hnode := nodes_of_blocks hb
  have hd := nodup_starts hb ha
  simp only [starts, List.map_append, List.map_cons] at hnode hd
  have hkeepL : ∀ {L : List Interval}, (∀ i ∈ L, i ∈ P ++ Q) → ∀ a ∈ starts L,
      load .prev m a = load .prev h.mem a ∧ load .next m a = load .next h.mem a := by
    intro L hL a ha
    obtain ⟨i, hi, rfl⟩ := List.mem_map.mp ha
    exact ⟨hkeep .prev i (hL i hi), hkeep .next i (hL i hi)⟩
  have hP' : Linked (links m) 0 (starts P) e :=
    hP.congr (hkeepL fun i hi => List.mem_append_left _ hi)
  have hQ' : Linked (links m) p (starts Q) 0 :=
    hQ.congr (hkeepL fun i hi => List.mem_append_right _ hi)
  refine ⟨rfl, ?_, fun i hi => ?_⟩
  · simp only [starts, List.map_append, List.map_cons]
    exact linked_updateNeighbours hP' hQ' hnode hd hprev hnext
  · change load .size (updateNeighbours c.start m) i.start = i.size
    rw [load_relinked hnode hd hprev hnext (hb i hi).node, if_neg (by simp), if_neg (by simp)]
    rcases List.mem_append.mp hi with hi | hi
    · rw [hkeep .size i (by simp [hi]), hs i (by simp [hi])]
    · rcases List.mem_cons.mp hi with rfl | hi
      · exact hsize
      · rw [hkeep .size i (by simp [hi]), hs i (by simp [hi])]

/-- Updating the neighbours changes no byte outside the blocks. -/
theorem data_relinked {m : Bus} {c : Interval} {P Q : List Interval}
    (hb : ∀ i ∈ P ++ c :: Q, A.IsBlock i) (ha : Ascending (P ++ c :: Q))
    (hprev : load .prev m c.start = (starts P).getLastD 0)
    (hnext : load .next m c.start = (starts Q).headD 0) {x : ℕ}
    (hx : cover x (P ++ c :: Q) = 0) : (updateNeighbours c.start m).data x = m.data x := by
  have hc := (hb c (by simp)).node
  have hd := nodup_starts hb ha
  simp only [starts, List.map_append, List.map_cons] at hd
  refine data_updateNeighbours (fun h => ?_) (fun h => ?_) fun h => ?_
  · rw [hprev] at h ⊢
    obtain ⟨i, hi, hip⟩ := List.mem_map.mp (getLastD_mem h)
    rw [← hip]
    refine ⟨hc.apart (hb i (by simp [hi])).node, fun heq => ?_⟩
    exact (List.nodup_append.mp hd).2.2 _ (List.mem_map_of_mem hi) _ List.mem_cons_self heq.symm
  · rw [hprev] at h ⊢
    obtain ⟨i, hi, hip⟩ := List.mem_map.mp (getLastD_mem h)
    rw [← hip]
    exact outside_header hb hx (by simp [hi])
  · rw [hnext] at h ⊢
    obtain ⟨i, hi, hip⟩ := List.mem_map.mp (headD_mem h)
    rw [← hip]
    exact outside_header hb hx (by simp [hi])

/-- The links of two parts of a list with a member between them. -/
theorem linked_parts {m : Bus} {P Q : List Interval} {b : Interval}
    (h : Linked (links m) 0 (starts (P ++ b :: Q)) 0) :
    Linked (links m) 0 (starts P) b.start ∧ Linked (links m) b.start (starts Q) 0 ∧
      load .prev m b.start = (starts P).getLastD 0 ∧ load .next m b.start = (starts Q).headD 0 := by
  simp only [starts, List.map_append, List.map_cons] at h
  obtain ⟨hP, hprev, hnext, hQ⟩ := (linked_append _ _).mp h
  exact ⟨hP, hQ, hprev, hnext⟩

end Pigfx.Nmalloc
