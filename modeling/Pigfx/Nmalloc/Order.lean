import Pigfx.Nmalloc.Session

/-!
# The order of releases

Blocks given back in different orders meet different neighbours, and are merged at
different times.  The lists in between differ; the list at the end does not, since a
separated list is determined by what it covers, and what the releases add to the cover
is a sum over the blocks.

## Main definitions

* `run_free` — a sequence of releases adds the blocks to the cover of the free list.
* `free_order_independent` — the free list after two orders of the same releases.
-/

namespace Pigfx.Nmalloc

open Lib

variable {A : Area} {mem : Bus} {s : Session} {L : List Interval}

/-- Releasing live blocks adds what they cover to the free list. -/
theorem run_free (h : s.Inv A L) {ps : List ℕ} (hd : ps.Nodup)
    (hps : ∀ p ∈ ps, ∃ l ∈ s.live, l.ptr = p) :
    ∃ s' L', s.run (ps.map .free) = some s' ∧ s'.Inv A L' ∧
      ∀ x, cover x L' = cover x (ps.map (blockAt s.heap.mem) ++ L) := by
  induction ps generalizing s L with
  | nil => exact ⟨s, L, rfl, h, fun _ => rfl⟩
  | cons p ps ih =>
      obtain ⟨hp, hd'⟩ := List.nodup_cons.mp hd
      obtain ⟨t, M, hstep, hM, hcover, hrest⟩ := inv_free h (hps p List.mem_cons_self)
      have hlive : ∀ q ∈ ps, ∃ l ∈ t.live, l.ptr = q := by
        intro q hq
        obtain ⟨l, hl, rfl⟩ := hps q (List.mem_cons_of_mem _ hq)
        exact ⟨l, (hrest l hl fun heq => hp (heq ▸ hq)).1, rfl⟩
      have hblocks : ps.map (blockAt t.heap.mem) = ps.map (blockAt s.heap.mem) := by
        refine List.map_congr_left fun q hq => ?_
        obtain ⟨l, hl, rfl⟩ := hps q (List.mem_cons_of_mem _ hq)
        exact (hrest l hl fun heq => hp (heq ▸ hq)).2
      obtain ⟨s', L', hrun, hL', hcover'⟩ := ih hM hd' hlive
      refine ⟨s', L', ?_, hL', fun x => ?_⟩
      · rw [List.map_cons, Session.run, hstep]
        exact hrun
      · have hx := hcover x
        have hx' := hcover' x
        simp only [hblocks, List.map_cons, List.cons_append, cover_cons, cover_append] at hx hx' ⊢
        omega

/-- Free lists with one cover are found as the same headers. -/
theorem freeList_unique {s s' : Session} {L L' : List Interval} (h : s.Inv A L)
    (h' : s'.Inv A L') (hcover : ∀ x, cover x L = cover x L') :
    freeList s.heap = freeList s'.heap ∧ s.heap.firstFree = s'.heap.firstFree := by
  have heq : L = L' := h.list.separated.unique h'.list.separated
    (fun i hi => (h.list.blocks i hi).pos) (fun i hi => (h'.list.blocks i hi).pos) hcover
  subst heq
  exact ⟨h.wellTiled.walk.trans h'.wellTiled.walk.symm, h.free.first.trans h'.free.first.symm⟩

/-- **The order of releases does not matter.**  Releasing some live blocks in any two
orders leads to the same free list, with the same links; once all are released, it is
the one block the area began as. -/
theorem free_order_independent (A : Area) (mem : Bus) (s : Session) (hs : Reachable A mem s)
    (ps qs : List ℕ) (hd : ps.Nodup) (hps : ∀ p ∈ ps, ∃ l ∈ s.live, l.ptr = p)
    (hqs : qs.Perm ps) :
    ∃ s₁ s₂ bs, s.run (ps.map .free) = some s₁ ∧ s.run (qs.map .free) = some s₂ ∧
      freeList s₁.heap = some bs ∧ freeList s₂.heap = some bs ∧
      s₁.heap.firstFree = s₂.heap.firstFree ∧
      ((∀ l ∈ s.live, l.ptr ∈ ps) → s₁.heap.firstFree = A.base ∧
        bs = [{ addr := A.base, prev := 0, next := 0, size := A.size }]) := by
  obtain ⟨L, hL⟩ := hs.inv
  obtain ⟨s₁, L₁, hrun₁, hL₁, hcover₁⟩ := run_free hL hd hps
  obtain ⟨s₂, L₂, hrun₂, hL₂, hcover₂⟩ :=
    run_free hL (hqs.nodup_iff.mpr hd) fun p hp => hps p (hqs.mem_iff.mp hp)
  have hcover : ∀ x, cover x L₁ = cover x L₂ := fun x => by
    rw [hcover₁, hcover₂]
    exact (cover_perm ((hqs.map _).append_right L) x).symm
  obtain ⟨hfree, hfirst⟩ := freeList_unique hL₁ hL₂ hcover
  refine ⟨s₁, s₂, headers 0 L₁, hrun₁, hrun₂, hL₁.wellTiled.walk, ?_, hfirst, fun hall => ?_⟩
  · rw [← hfree]
    exact hL₁.wellTiled.walk
  · have hperm : ps.Perm (s.live.map Live.ptr) := by
      refine (List.perm_ext_iff_of_nodup hd hL.nodup).mpr fun p => ⟨fun hp => ?_, fun hp => ?_⟩
      · obtain ⟨l, hl, rfl⟩ := hps p hp
        exact List.mem_map_of_mem hl
      · obtain ⟨l, hl, rfl⟩ := List.mem_map.mp hp
        exact hall l hl
    have htiles : Tiles A.base A.size L₁ := by
      intro x
      have hx := cover_perm ((hperm.map (blockAt s.heap.mem)).append_right L) x
      rw [List.map_map] at hx
      rw [hcover₁, hx, ← hL.tiles x]
      exact cover_perm List.perm_append_comm x
    have hone : L₁ = [⟨A.base, A.size⟩] :=
      htiles.eq_singleton (Nat.lt_of_lt_of_le (by decide) A.size_ge) hL₁.list.separated
        fun i hi => (hL₁.list.blocks i hi).pos
    subst hone
    exact ⟨hL₁.free.first, rfl⟩

/-- Two blocks taken from a kilobyte and given back in either order. -/
theorem free_order_independent_two : ∃ s : Session, s.live = [⟨4124, 30⟩, ⟨4100, 5⟩] ∧
    ∃ s₁ s₂, s.run [.free 4100, .free 4124] = some s₁ ∧
      s.run [.free 4124, .free 4100] = some s₂ ∧ freeList s₁.heap = freeList s₂.heap := by
  have hlive : ((Session.start .kilobyte ⟨fun _ => 0, []⟩).step (.malloc 5)).map Session.live
      = some [⟨4100, 5⟩] := by decide
  have hlive₂ : (((Session.start .kilobyte ⟨fun _ => 0, []⟩).step (.malloc 5)).bind
      (·.step (.malloc 30))).map Session.live = some [⟨4124, 30⟩, ⟨4100, 5⟩] := by decide
  obtain ⟨t, ht, hl⟩ := Option.map_eq_some_iff.mp hlive
  rw [ht, Option.bind_some] at hlive₂
  obtain ⟨s, hs, hl₂⟩ := Option.map_eq_some_iff.mp hlive₂
  have hfits : ∀ n, n ≤ 30 → Fits n := by
    intro n hn
    simp only [Fits, roundedSize, sizeofSizeT, blockHeaderSize]
    omega
  have hreach : Reachable .kilobyte ⟨fun _ => 0, []⟩ s :=
    .step (c := .malloc 30) (.step (c := .malloc 5) .start (hfits 5 (by decide)) ht)
      (hfits 30 (by decide)) hs
  obtain ⟨s₁, s₂, bs, h₁, h₂, hf₁, hf₂, -⟩ := free_order_independent .kilobyte _ s hreach
    [4100, 4124] [4124, 4100] (by decide) (by simp [hl₂]) (by decide)
  exact ⟨s, hl₂, s₁, s₂, h₁, h₂, hf₁.trans hf₂.symm⟩

end Pigfx.Nmalloc
