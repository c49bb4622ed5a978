import Pigfx.Lib.While
import Pigfx.Lib.Memory

/-!
# The framebuffer is requested

`fb_init` sends three requests to the graphics processor and reads the answers from the
buffer it has sent.  The second answer is a list of tags, each with the length of its
values.  The loop that looks for the tag of the framebuffer leaves in three ways: at that
tag, at the end of the tags, or behind the last word of the request.

The first two ways go on into the same code, which does not look at the tag again.

## Main definitions

* `Postman` — what the graphics processor does with the buffer.
* `Fb`, `fbInit` — the code.
* `tagAt`, `StopsAt` — the tags of an answer, and where the loop stops.
* `Answers.FallsThrough` — the end of the tags is taken for a framebuffer.
-/

namespace Pigfx
open Lib

/-! ## The code -/

/-- `FB_RETURN_TYPE` -/
inductive FbReturn
  | success
  | error
  | postmanFail
  | getDisplaySizeFail
  | framebufferSetupFail
  | invalidTagData
  | invalidPitch
  deriving DecidableEq, Repr

/-- What the calls of `postman_send` and `postman_recv` do: each has a number and finds the
mail buffer as it is, succeeds or fails, and leaves the mail buffer behind. -/
def Postman := ℕ → (ℕ → Word) → Bool × (ℕ → Word)

/-- The local state of `fb_init`, with the indices of the mail buffer it has read, and what its
pointers point to. -/
structure Fb where
  mailbuffer : ℕ → Word
  calls : ℕ
  reads : List ℕ
  fb : Word
  fbsize : Word
  pitch : Word

/-- `mem_p2v` -/
def memP2v (x : Word) : Word := x

namespace Fb

/-- The first words of the mail buffer are written. -/
def request (words : List Word) (s : Fb) : Fb :=
  { s with mailbuffer := fun i => words.getD i (s.mailbuffer i) }

/-- `postman_send` or `postman_recv` -/
def call (post : Postman) (s : Fb) : Bool × Fb :=
  let r := post s.calls s.mailbuffer
  (r.1, { s with mailbuffer := r.2, calls := s.calls + 1 })

/-- A request and its answer; `next` is the rest of the function. -/
def exchange (post : Postman) (words : List Word) (s : Fb) (next : Fb → Option (FbReturn × Fb)) :
    Option (FbReturn × Fb) :=
  let (sent, s) := (s.request words).call post
  if ¬sent then some (.postmanFail, s) else
  let (received, s) := s.call post
  if ¬received then some (.postmanFail, s) else next s

/-- The word with index `i` is read. -/
def read (i : ℕ) (s : Fb) : Fb := { s with reads := s.reads ++ [i] }

end Fb

/-- Get the display size. -/
def displaySizeRequest : List Word := [8 * 4, 0, 0x40003, 8, 0, 0, 0, 0]

/-- Set up the screen: the words that `c` counts. -/
def screenRequest (ph_w ph_h vrt_w vrt_h bpp : Word) : List Word :=
  let tags : List Word :=
    [0,
      0x00048003, 8, 8, ph_w, ph_h,
      0x00048004, 8, 8, vrt_w, vrt_h,
      0x00048005, 4, 4, bpp,
      0x00040001, 8, 4, 16, 0,
      0]
  BitVec.ofNat 32 ((1 + tags.length) * 4) :: tags

/-- Get the framebuffer pitch. -/
def pitchRequest : List Word := [7 * 4, 0, 0x40008, 4, 0, 0, 0]

/-- A turn of the loop over the tags: with the index of the tag at which the loop stops, or with
no index where the function returns. -/
def tagTurn (c : Word) : Word × Fb → (Word × Fb) ⊕ (Option Word × Fb)
  | (count, s) =>
      let s := s.read count.toNat
      let var := s.mailbuffer count.toNat
      if var = 0 then .inr (some count, s)
      else if var = 0x40001 then .inr (some count, s)
      else
        let s := s.read (count + 1).toNat
        let count := count + (3 + (s.mailbuffer (count + 1).toNat >>> 2))
        if count > c then .inr (none, s) else .inl (count, s)

/-- Behind the loop: the pitch of the framebuffer. -/
def Fb.getPitch (post : Postman) (s : Fb) : Option (FbReturn × Fb) :=
  s.exchange post pitchRequest fun s =>
  let s := s.read 4
  if s.mailbuffer 4 ≠ 0x80000004 then some (.invalidPitch, s) else
  let s : Fb := { s.read 5 with pitch := s.mailbuffer 5 }
  if s.pitch = 0 then some (.invalidPitch, s) else some (.success, s)

/-- Behind the loop: the answer at the index `count`. -/
def Fb.getScreen (post : Postman) (count : Word) (s : Fb) : Option (FbReturn × Fb) :=
  let s := s.read (count + 2).toNat
  if s.mailbuffer (count + 2).toNat ≠ 0x80000008 then some (.framebufferSetupFail, s) else
  let s := s.read (count + 3).toNat
  let physicalScreenbase := s.mailbuffer (count + 3).toNat
  let s : Fb := { s.read (count + 4).toNat with fbsize := s.mailbuffer (count + 4).toNat }
  if physicalScreenbase = 0 ∨ s.fbsize = 0 then some (.invalidTagData, s) else
  let s : Fb := { s with fb := memP2v physicalScreenbase }
  s.getPitch post

/-- `fb_init`, with at most `n` turns of its loop. -/
def fbInit (post : Postman) (n : ℕ) (ph_w ph_h vrt_w vrt_h bpp : Word) (s : Fb) : Option (FbReturn × Fb) :=
  s.exchange post displaySizeRequest fun s =>
  let s := s.read 1
  if s.mailbuffer 1 ≠ 0x80000000 then some (.getDisplaySizeFail, s) else
  let words := screenRequest ph_w ph_h vrt_w vrt_h bpp
  s.exchange post words fun s =>
  let s := s.read 1
  if s.mailbuffer 1 ≠ 0x80000000 then some (.framebufferSetupFail, s) else
  match runLoop (tagTurn (BitVec.ofNat 32 words.length)) n (2, s) with
  | none => none
  | some (none, s) => some (.framebufferSetupFail, s)
  | some (some count, s) => s.getScreen post count

/-- `fb_init` is called: the mail buffer is a local variable. -/
def Fb.start (mailbuffer : ℕ → Word) (fb fbsize pitch : Word) : Fb := ⟨mailbuffer, 0, [], fb, fbsize, pitch⟩

/-! ## Tags -/

section Tags
variable (mail : ℕ → Word)

/-- The index of the tag behind the one at the index `k`. -/
def nextTag (k : ℕ) : ℕ := k + 3 + (mail (k + 1)).toNat / 4

/-- The index of the `n`-th tag. -/
def tagAt (n : ℕ) : ℕ := (nextTag mail)^[n] 2

theorem tagAt_succ (n : ℕ) : tagAt mail (n + 1) = nextTag mail (tagAt mail n) :=
  Function.iterate_succ_apply' _ n 2

theorem tagAt_mono {m n : ℕ} (h : m ≤ n) : tagAt mail m ≤ tagAt mail n := by
  induction n, h using Nat.le_induction with
  | base => exact le_rfl
  | succ n _ ih =>
    rw [tagAt_succ, nextTag]
    omega

/-- The tag is not the last one, and not that of the framebuffer. -/
def Skipped (n : ℕ) : Prop := mail (tagAt mail n) ≠ 0 ∧ mail (tagAt mail n) ≠ 0x40001

/-- The loop stops at the `n`-th tag. -/
structure StopsAt (n : ℕ) : Prop where
  skipped : ∀ m < n, Skipped mail m
  stops : ¬Skipped mail n
  inside : tagAt mail n ≤ 22

/-- There is one such tag at most. -/
theorem StopsAt.unique {mail : ℕ → Word} {m n : ℕ} (h : StopsAt mail m) (h' : StopsAt mail n) : m = n := by
  rcases Nat.lt_trichotomy m n with hlt | heq | hgt
  · exact absurd (h'.skipped m hlt) h.stops
  · exact heq
  · exact absurd (h.skipped n hgt) h'.stops

end Tags

/-! ## The loop -/

/-- The words that were read are words of the buffer. -/
def Fb.ReadsInside (s : Fb) : Prop := ∀ i ∈ s.reads, i < 256

theorem Fb.ReadsInside.read {s : Fb} (h : s.ReadsInside) {i : ℕ} (hi : i < 256) :
    (s.read i).ReadsInside := by
  intro j hj
  rcases List.mem_append.mp hj with hj | hj
  · exact h j hj
  · rw [List.mem_singleton.mp hj]
    exact hi

/-- Between two turns, the loop stands at a tag of the request's length. -/
structure AtTag (s : Fb) (x : Word × Fb) : Prop where
  skipped : ∃ n, x.1.toNat = tagAt s.mailbuffer n ∧ ∀ m < n, Skipped s.mailbuffer m
  inside : x.1.toNat ≤ 22
  state : x.2 = { s with reads := x.2.reads }
  reads : x.2.ReadsInside

/-- What the index with which the loop has ended says. -/
def StopsWith (mail : ℕ → Word) : Option Word → Prop
  | none => ∀ n, ¬StopsAt mail n
  | some count => ∃ n, StopsAt mail n ∧ count.toNat = tagAt mail n

/-- The loop has ended. -/
structure TagsDone (s : Fb) (x : Option Word × Fb) : Prop where
  stops : StopsWith s.mailbuffer x.1
  state : x.2 = { s with reads := x.2.reads }
  reads : x.2.ReadsInside

/-- The indices behind a tag. -/
theorem toNat_add_ofNat {count : Word} (h : count.toNat ≤ 22) {k : ℕ} (hk : k < 5) :
    (count + BitVec.ofNat 32 k).toNat = count.toNat + k := by
  rw [BitVec.toNat_add, BitVec.toNat_ofNat]
  omega

/-- The index of the next tag, as the code computes it. -/
theorem toNat_nextTag {mail : ℕ → Word} {count : Word} (h : count.toNat ≤ 22) :
    (count + (3 + (mail (count + 1).toNat >>> 2))).toNat = nextTag mail count.toNat := by
  have hone : (count + 1).toNat = count.toNat + 1 := toNat_add_ofNat h (k := 1) (by omega)
  have hlen := (mail (count.toNat + 1)).isLt
  have hshift : (mail (count.toNat + 1) >>> 2).toNat = (mail (count.toNat + 1)).toNat / 4 := by
    rw [BitVec.toNat_ushiftRight, Nat.shiftRight_eq_div_pow]
  rw [hone, BitVec.toNat_add, BitVec.toNat_add, hshift, nextTag]
  simp
  omega

section Turn
variable (c count : Word) (s : Fb)

theorem tagTurn_stop (h : s.mailbuffer count.toNat = 0 ∨ s.mailbuffer count.toNat = 0x40001) :
    tagTurn c (count, s) = .inr (some count, s.read count.toNat) := by
  by_cases hzero : s.mailbuffer count.toNat = 0
  · exact if_pos hzero
  · exact (if_neg hzero).trans (if_pos (h.resolve_left hzero))

theorem tagTurn_skip (hzero : s.mailbuffer count.toNat ≠ 0) (hfound : s.mailbuffer count.toNat ≠ 0x40001) :
    tagTurn c (count, s) =
      if count + (3 + (s.mailbuffer (count + 1).toNat >>> 2)) > c
        then .inr (none, (s.read count.toNat).read (count + 1).toNat)
        else .inl (count + (3 + (s.mailbuffer (count + 1).toNat >>> 2)),
          (s.read count.toNat).read (count + 1).toNat) :=
  (if_neg hzero).trans (if_neg hfound)

end Turn

/-- **A turn** goes on to the next tag, or ends as it should. -/
theorem AtTag.turn {s : Fb} {x : Word × Fb} (h : AtTag s x) :
    (∃ x', tagTurn 22 x = .inl x' ∧ AtTag s x' ∧ (25 - x'.1.toNat) / 3 < (25 - x.1.toNat) / 3) ∨
      ∃ r, tagTurn 22 x = .inr r ∧ TagsDone s r := by
  obtain ⟨⟨n, hn, hskipped⟩, hinside, hstate, hreads⟩ := h
  obtain ⟨count, s₁⟩ := x
  dsimp only at hn hinside hstate hreads ⊢
  have hmail : s₁.mailbuffer = s.mailbuffer := by rw [hstate]
  have hread := hreads.read (i := count.toNat) (by omega)
  by_cases hskip : Skipped s.mailbuffer n
  · have hsucc : ∀ m < n + 1, Skipped s.mailbuffer m := by
      intro m hm
      rcases Nat.lt_succ_iff_lt_or_eq.mp hm with hlt | rfl
      · exact hskipped m hlt
      · exact hskip
    have hzero : s₁.mailbuffer count.toNat ≠ 0 := by
      rw [hmail, hn]
      exact hskip.1
    have hfound : s₁.mailbuffer count.toNat ≠ 0x40001 := by
      rw [hmail, hn]
      exact hskip.2
    have hturn := tagTurn_skip 22 count s₁ hzero hfound
    have hnext :
        (count + (3 + (s₁.mailbuffer (count + 1).toNat >>> 2))).toNat = tagAt s.mailbuffer (n + 1) := by
      rw [hmail, toNat_nextTag hinside, hn, tagAt_succ]
    have hone : (count + 1).toNat < 256 := by
      have heq : (count + 1).toNat = count.toNat + 1 := toNat_add_ofNat hinside (k := 1) (by omega)
      omega
    generalize count + (3 + (s₁.mailbuffer (count + 1).toNat >>> 2)) = count' at *
    have hless : count.toNat + 3 ≤ count'.toNat := by
      rw [hnext, hn, tagAt_succ, nextTag]
      omega
    by_cases hc : count' > 22
    · rw [if_pos hc] at hturn
      refine Or.inr ⟨_, hturn, ?_, ?_, hread.read hone⟩
      · intro k hk
        -- a tag at which the loop could stop lies behind the end
        have hlt : n < k := by
          by_contra hle
          exact hk.stops (hsucc k (by omega))
        have hmono := tagAt_mono s.mailbuffer (show n + 1 ≤ k from hlt)
        have hinside := hk.inside
        have hgt : 22 < count'.toNat := hc
        omega
      · rw [hstate]
        rfl
    · rw [if_neg hc] at hturn
      have hle : count'.toNat ≤ 22 := Nat.le_of_not_lt hc
      refine Or.inl ⟨_, hturn, ⟨⟨n + 1, hnext, hsucc⟩, hle, ?_, hread.read hone⟩, ?_⟩
      · rw [hstate]
        rfl
      · dsimp only
        omega
  · have hvar : s₁.mailbuffer count.toNat = 0 ∨ s₁.mailbuffer count.toNat = 0x40001 := by
      rw [hmail, hn]
      by_contra hne
      exact hskip (not_or.mp hne)
    refine Or.inr ⟨_, tagTurn_stop 22 count s₁ hvar, ⟨n, ⟨hskipped, hskip, hn ▸ hinside⟩, hn⟩, ?_, hread⟩
    rw [hstate]
    rfl

/-- **The loop ends**, after eight turns at most. -/
theorem tagLoop_spec (s : Fb) (hreads : s.ReadsInside) :
    ∃ r, (∀ n, 7 < n → runLoop (tagTurn 22) n (2, s) = some r) ∧ TagsDone s r := by
  have hstart : AtTag s (2, s) :=
    ⟨⟨0, rfl, fun m hm => absurd hm (Nat.not_lt_zero m)⟩, by change 2 ≤ 22; omega, rfl, hreads⟩
  have hmeasure : (25 - (2 : Word).toNat) / 3 = 7 := rfl
  rw [← hmeasure]
  refine runLoop_total (I := AtTag s) (fun x => (25 - x.1.toNat) / 3) ?_ ?_ hstart
  · intro x x' hx hturn
    rcases hx.turn with ⟨y, hy, hnext⟩ | ⟨r, hr, -⟩
    · rw [hturn] at hy
      cases hy
      exact hnext
    · rw [hturn] at hr
      cases hr
  · intro x r hx hturn
    rcases hx.turn with ⟨y, hy, -⟩ | ⟨r', hr, hdone⟩
    · rw [hturn] at hy
      cases hy
    · rw [hturn] at hr
      cases hr
      exact hdone

/-! ## The answers -/

/-- All calls succeed. -/
def Postman.Succeeds (post : Postman) : Prop := ∀ k mail, (post k mail).1 = true

/-- The mail buffer when the answer to a request is there; the request is sent by the call `k`. -/
def Postman.answer (post : Postman) (k : ℕ) (words : List Word) (mail : ℕ → Word) : ℕ → Word :=
  (post (k + 1) (post k fun i => words.getD i (mail i)).2).2

/-- What `fb_init` finds in the mail buffer. -/
structure Answers where
  display : ℕ → Word
  screen : ℕ → Word
  pitch : ℕ → Word

/-- The answers to the three requests, one after the other. -/
def Postman.answers (post : Postman) (ph_w ph_h vrt_w vrt_h bpp : Word) (mail : ℕ → Word) : Answers :=
  let display := post.answer 0 displaySizeRequest mail
  let screen := post.answer 2 (screenRequest ph_w ph_h vrt_w vrt_h bpp) display
  ⟨display, screen, post.answer 4 pitchRequest screen⟩

/-- The words behind the index `k` look like the answer of a framebuffer's tag. -/
def LooksAllocated (mail : ℕ → Word) (k : ℕ) : Prop :=
  mail (k + 2) = 0x80000008 ∧ mail (k + 3) ≠ 0 ∧ mail (k + 4) ≠ 0

/-- The answer to the last request is a pitch. -/
def LooksPitch (mail : ℕ → Word) : Prop := mail 4 = 0x80000004 ∧ mail 5 ≠ 0

namespace Answers

/-- The answers pass the checks that are not about the tags. -/
def Accepted (a : Answers) : Prop := a.display 1 = 0x80000000 ∧ a.screen 1 = 0x80000000 ∧ LooksPitch a.pitch

/-- **The end of the tags is taken for a framebuffer.** -/
def FallsThrough (a : Answers) : Prop :=
  a.Accepted ∧ ∃ n, StopsAt a.screen n ∧ a.screen (tagAt a.screen n) = 0 ∧
    LooksAllocated a.screen (tagAt a.screen n)

/-- The screen base and the size are the values of a framebuffer's tag, which is reached from
word 2 over the lengths of tags. -/
def FromTag (a : Answers) (s : Fb) : Prop :=
  ∃ n, (∀ m < n, a.screen (tagAt a.screen m) ≠ 0) ∧ a.screen (tagAt a.screen n) = 0x40001 ∧
    s.fb = memP2v (a.screen (tagAt a.screen n + 3)) ∧ s.fbsize = a.screen (tagAt a.screen n + 4)

end Answers

/-! ## The function -/

section Function
variable {post : Postman} (hpost : post.Succeeds)
include hpost

/-- A request that succeeds. -/
theorem exchange_eq (words : List Word) (s : Fb) (next : Fb → Option (FbReturn × Fb)) :
    s.exchange post words next =
      next { s with mailbuffer := post.answer s.calls words s.mailbuffer, calls := s.calls + 2 } := by
  have hsent := hpost s.calls fun i => words.getD i (s.mailbuffer i)
  have hreceived := hpost (s.calls + 1) (post s.calls fun i => words.getD i (s.mailbuffer i)).2
  simp only [Fb.exchange, Fb.call, Fb.request, hsent, hreceived, not_true_eq_false, if_false]
  rfl

theorem getPitch_spec {s : Fb} (hreads : s.ReadsInside) :
    ∃ r, s.getPitch post = some r ∧ r.2.ReadsInside ∧ r.2.fb = s.fb ∧ r.2.fbsize = s.fbsize ∧
      (r.1 = .success ↔ LooksPitch (post.answer s.calls pitchRequest s.mailbuffer)) := by
  rw [Fb.getPitch, exchange_eq hpost]
  generalize post.answer s.calls pitchRequest s.mailbuffer = mail
  have hread := hreads.read (i := 4) (by omega)
  have hread' := hread.read (i := 5) (by omega)
  unfold LooksPitch
  dsimp only [Fb.read]
  split
  · next hne => exact ⟨_, rfl, hread, rfl, rfl, iff_of_false nofun fun h => hne h.1⟩
  · next heq =>
    split
    · next hzero => exact ⟨_, rfl, hread', rfl, rfl, iff_of_false nofun fun h => h.2 hzero⟩
    · next hpos => exact ⟨_, rfl, hread', rfl, rfl, iff_of_true rfl ⟨not_not.mp heq, hpos⟩⟩

/-- The answer at an index within the request is checked, and its values are handed out. -/
theorem getScreen_spec {s : Fb} (hreads : s.ReadsInside) {count : Word} (hcount : count.toNat ≤ 22) :
    ∃ r, s.getScreen post count = some r ∧ r.2.ReadsInside ∧
      (r.1 = .success ↔ LooksAllocated s.mailbuffer count.toNat ∧
        LooksPitch (post.answer s.calls pitchRequest s.mailbuffer)) ∧
      (r.1 = .success → r.2.fb = memP2v (s.mailbuffer (count.toNat + 3)) ∧
        r.2.fbsize = s.mailbuffer (count.toNat + 4)) := by
  have h2 : (count + 2).toNat = count.toNat + 2 := toNat_add_ofNat hcount (k := 2) (by omega)
  have h3 : (count + 3).toNat = count.toNat + 3 := toNat_add_ofNat hcount (k := 3) (by omega)
  have h4 : (count + 4).toNat = count.toNat + 4 := toNat_add_ofNat hcount (k := 4) (by omega)
  have hread := hreads.read (i := count.toNat + 2) (by omega)
  have hread' := (hread.read (i := count.toNat + 3) (by omega)).read (i := count.toNat + 4) (by omega)
  unfold Fb.getScreen LooksAllocated
  dsimp only [Fb.read]
  rw [h2, h3, h4]
  split
  · next hne => exact ⟨_, rfl, hread, iff_of_false nofun fun h => hne h.1.1, nofun⟩
  · next heq =>
    split
    · next hzero =>
      refine ⟨_, rfl, hread', iff_of_false nofun ?_, nofun⟩
      rintro ⟨⟨-, hbase, hsize⟩, -⟩
      exact hzero.elim hbase hsize
    · next hpos =>
      obtain ⟨hbase, hsize⟩ := not_or.mp hpos
      obtain ⟨r, hr, hreads', hfb, hfbsize, hsuccess⟩ := getPitch_spec hpost (s := ⟨s.mailbuffer, s.calls,
        ((s.reads ++ [count.toNat + 2]) ++ [count.toNat + 3]) ++ [count.toNat + 4],
        memP2v (s.mailbuffer (count.toNat + 3)), s.mailbuffer (count.toNat + 4), s.pitch⟩) hread'
      refine ⟨r, hr, hreads', ?_, fun _ => ⟨hfb, hfbsize⟩⟩
      rw [hsuccess]
      exact (and_iff_right ⟨not_not.mp heq, hbase, hsize⟩).symm

variable (ph_w ph_h vrt_w vrt_h bpp : Word) (mail : ℕ → Word) (fb fbsize pitch : Word)

/-- **The function returns** and reads inside the buffer.  What it returns depends on where the
loop stops, but not on the tag there. -/
theorem fbInit_spec {a : Answers} (ha : post.answers ph_w ph_h vrt_w vrt_h bpp mail = a) :
    ∃ r, (∀ n, 7 < n → fbInit post n ph_w ph_h vrt_w vrt_h bpp (.start mail fb fbsize pitch) = some r) ∧
      r.2.ReadsInside ∧
      (r.1 = .success ↔ a.Accepted ∧ ∃ n, StopsAt a.screen n ∧ LooksAllocated a.screen (tagAt a.screen n)) ∧
      (r.1 = .success → ∀ n, StopsAt a.screen n →
        r.2.fb = memP2v (a.screen (tagAt a.screen n + 3)) ∧
          r.2.fbsize = a.screen (tagAt a.screen n + 4)) := by
  obtain ⟨display, screen, answer⟩ := a
  rw [Postman.answers, Answers.mk.injEq] at ha
  obtain ⟨hdisplay, hscreen, hanswer⟩ := ha
  rw [hdisplay] at hscreen hanswer
  rw [hscreen] at hanswer
  have hread : (Fb.mk display 2 [1] fb fbsize pitch).ReadsInside := fun i hi => by
    rw [List.mem_singleton.mp hi]
    omega
  have hread' : (Fb.mk screen 4 [1, 1] fb fbsize pitch).ReadsInside := hread.read (by omega)
  simp only [fbInit, exchange_eq hpost, Fb.start, Fb.read, hdisplay, List.nil_append, Nat.zero_add]
  by_cases hone : display 1 = 0x80000000
  swap
  · exact ⟨_, fun n _ => if_pos hone, hread, iff_of_false nofun fun h => hone h.1.1, nofun⟩
  simp only [hone, ne_eq, not_true_eq_false, if_false, hscreen, List.cons_append, List.nil_append]
  by_cases htwo : screen 1 = 0x80000000
  swap
  · exact ⟨_, fun n _ => if_pos htwo, hread', iff_of_false nofun fun h => htwo h.1.2.1, nofun⟩
  simp only [htwo, not_true_eq_false, if_false]
  obtain ⟨⟨found, s⟩, hloop, hstops, hstate, hreads⟩ := tagLoop_spec _ hread'
  have hlength : BitVec.ofNat 32 (screenRequest ph_w ph_h vrt_w vrt_h bpp).length = 22 := rfl
  dsimp only at hstops hstate hreads
  rw [hlength]
  cases found with
  | none =>
    refine ⟨(.framebufferSetupFail, s), fun n hn => by rw [hloop n hn], hreads, iff_of_false nofun ?_, nofun⟩
    rintro ⟨-, n, hn, -⟩
    exact hstops n hn
  | some count =>
    obtain ⟨k, hk, hcount⟩ := hstops
    obtain ⟨r, hr, hinside, hsuccess, hvalues⟩ := getScreen_spec hpost hreads (hcount ▸ hk.inside)
    have hmail : s.mailbuffer = screen := by rw [hstate]
    have hcalls : s.calls = 4 := by rw [hstate]
    rw [hmail, hcalls, hcount, hanswer] at hsuccess
    rw [hmail, hcount] at hvalues
    refine ⟨r, fun n hn => by rw [hloop n hn]; exact hr, hinside, ?_, ?_⟩
    · rw [hsuccess]
      constructor
      · rintro ⟨hallocated, hpitch⟩
        exact ⟨⟨hone, htwo, hpitch⟩, k, hk, hallocated⟩
      · rintro ⟨⟨-, -, hpitch⟩, n, hn, hallocated⟩
        exact ⟨hk.unique hn ▸ hallocated, hpitch⟩
    · intro hdone n hn
      exact hk.unique hn ▸ hvalues hdone

end Function

/-- Where the loop stops at the end of the tags, no tag is that of a framebuffer. -/
theorem StopsAt.not_fromTag {a : Answers} {s : Fb} {n : ℕ} (h : StopsAt a.screen n)
    (hend : a.screen (tagAt a.screen n) = 0) : ¬a.FromTag s := by
  rintro ⟨k, hbefore, htag, -⟩
  rcases Nat.lt_trichotomy k n with hlt | rfl | hgt
  · exact (h.skipped k hlt).2 htag
  · rw [hend] at htag
    exact absurd htag (by decide)
  · exact hbefore n hgt hend

/-- **The framebuffer comes from its tag**, unless the end of the tags is taken for one.  In
every case the loop ends, and only words of the mail buffer are read. -/
theorem fbInit_iff {post : Postman} (hpost : post.Succeeds) (ph_w ph_h vrt_w vrt_h bpp : Word)
    (mail : ℕ → Word) (fb fbsize pitch : Word) :
    (∃ r, (∀ n, 7 < n → fbInit post n ph_w ph_h vrt_w vrt_h bpp (.start mail fb fbsize pitch) = some r) ∧
        r.2.ReadsInside ∧
        (r.1 = .success → (post.answers ph_w ph_h vrt_w vrt_h bpp mail).FromTag r.2)) ↔
      ¬(post.answers ph_w ph_h vrt_w vrt_h bpp mail).FallsThrough := by
  obtain ⟨r, hrun, hinside, hsuccess, hvalues⟩ :=
    fbInit_spec hpost ph_w ph_h vrt_w vrt_h bpp mail fb fbsize pitch rfl
  generalize post.answers ph_w ph_h vrt_w vrt_h bpp mail = a at *
  constructor
  · rintro ⟨r', hrun', -, hfrom⟩ ⟨haccepted, n, hn, hend, hallocated⟩
    have heq : r' = r := Option.some.inj ((hrun' 8 (by omega)).symm.trans (hrun 8 (by omega)))
    subst heq
    exact hn.not_fromTag hend (hfrom (hsuccess.mpr ⟨haccepted, n, hn, hallocated⟩))
  · intro hno
    refine ⟨r, hrun, hinside, fun hdone => ?_⟩
    obtain ⟨haccepted, n, hn, hallocated⟩ := hsuccess.mp hdone
    have hpos : a.screen (tagAt a.screen n) ≠ 0 := fun hend => hno ⟨haccepted, n, hn, hend, hallocated⟩
    have htag : a.screen (tagAt a.screen n) = 0x40001 := by
      by_contra hne
      exact hn.stops ⟨hpos, hne⟩
    exact ⟨n, fun m hm => (hn.skipped m hm).1, htag, hvalues hdone n hn⟩

/-- A graphics processor whose answers have the words that are given, and zeros. -/
def Postman.answering (words : ℕ → List (ℕ × Word)) : Postman :=
  fun k _ => (true, fun i => ((words k).lookup i).getD 0)

/-- The second answer has no tag; behind its end stands what looks like a framebuffer. -/
def untaggedAnswer : Postman :=
  .answering fun
    | 1 => [(1, 0x80000000)]
    | 3 => [(1, 0x80000000), (4, 0x80000008), (5, 7), (6, 9)]
    | 5 => [(4, 0x80000004), (5, 11)]
    | _ => []

/-- The same with the tag of the framebuffer. -/
def taggedAnswer : Postman :=
  .answering fun
    | 1 => [(1, 0x80000000)]
    | 3 => [(1, 0x80000000), (2, 0x40001), (3, 8), (4, 0x80000008), (5, 7), (6, 9)]
    | 5 => [(4, 0x80000004), (5, 11)]
    | _ => []

theorem fbInit_iff_tagged :
    ∃ r, (∀ n, 7 < n → fbInit taggedAnswer n 640 480 640 480 8 (.start (fun _ => 0) 0 0 0) = some r) ∧
      r.2.ReadsInside ∧
      (r.1 = .success → (taggedAnswer.answers 640 480 640 480 8 fun _ => 0).FromTag r.2) := by
  refine (fbInit_iff (fun _ _ => rfl) 640 480 640 480 8 (fun _ => 0) 0 0 0).mpr ?_
  rintro ⟨-, n, hn, hend, -⟩
  have hfirst : StopsAt (taggedAnswer.answers 640 480 640 480 8 fun _ => 0).screen 0 :=
    ⟨fun m hm => absurd hm (Nat.not_lt_zero m), fun h => h.2 rfl, by decide⟩
  rw [hn.unique hfirst] at hend
  exact absurd hend (by decide)

theorem fbInit_untagged :
    ¬∃ r, (∀ n, 7 < n → fbInit untaggedAnswer n 640 480 640 480 8 (.start (fun _ => 0) 0 0 0) = some r) ∧
      r.2.ReadsInside ∧
      (r.1 = .success → (untaggedAnswer.answers 640 480 640 480 8 fun _ => 0).FromTag r.2) := by
  rintro ⟨r, hrun, -, hfrom⟩
  have hfirst : StopsAt (untaggedAnswer.answers 640 480 640 480 8 fun _ => 0).screen 0 :=
    ⟨fun m hm => absurd hm (Nat.not_lt_zero m), fun h => h.1 rfl, by decide⟩
  have hdone :
      (fbInit untaggedAnswer 8 640 480 640 480 8 (.start (fun _ => 0) 0 0 0)).map Prod.fst = some .success :=
    rfl
  rw [hrun 8 (by omega)] at hdone
  exact hfirst.not_fromTag rfl (hfrom (Option.some.inj hdone))

end Pigfx
