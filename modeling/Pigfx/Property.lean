import Mathlib.Data.List.GetD
import Pigfx.Framebuffer

/-!
# Property messages

A request to the graphics processor is a list of tags, each with the size of its values, and
ends with a zero.  The answer stands in the same buffer: the values of each tag are replaced.

The functions of `framebuffer.c` and `raspihwconfig.c` send one tag each and read its values by
their index.  Some of them do not look at what `postman_send` and `postman_recv` return.

## Main definitions

* `propertyCall` — a request and its answer, with what the functions differ in.
* `Tag`, `message`, `readMessage` — the format.
* `Postman.serving` — a graphics processor that reads the tags and answers them.
-/

namespace Pigfx
open Lib

/-! ## The code -/

/-- The return values of a family of functions. -/
structure Codes (ρ : Type) where
  success : ρ
  error : ρ
  postmanFail : ρ

/-- `pBuffData[0]=off*4` -/
def sized (words : List Word) : List Word := BitVec.ofNat 32 ((1 + words.length) * 4) :: words

/-- A request is sent and its answer is read: the words at `outputs` if the answer is good.  A
function that is not `checked` does not look at what the postman returns. -/
def propertyCall {ρ : Type} (codes : Codes ρ) (checked : Bool) (words : List Word) (outputs : List ℕ)
    (post : Postman) (s : Fb) : ρ × List Word × Fb :=
  let (sent, s) := (s.request words).call post
  if checked ∧ ¬sent then (codes.postmanFail, [], s) else
  let (received, s) := s.call post
  if checked ∧ ¬received then (codes.postmanFail, [], s) else
  let s := s.read 1
  if s.mailbuffer 1 ≠ 0x80000000 then (codes.error, [], s) else
  (codes.success, outputs.map s.mailbuffer, outputs.foldl (fun s i => s.read i) s)

section Fb
variable (post : Postman) (s : Fb)

end Fb

/-- `RHW_RETURN_TYPE` -/
inductive RhwReturn
  | success
  | error
  | postmanFail
  deriving DecidableEq, Repr

def rhwCodes : Codes RhwReturn := ⟨.success, .error, .postmanFail⟩

section Rhw
variable (post : Postman) (s : Fb)

def rhwGetMacAddressRequest : List Word := sized [0, 0x00010003, 6, 0, 0, 0, 0]

/-- The bytes of the address, out of two words. -/
def rhwGetMacAddress : RhwReturn × List Byte × Fb :=
  let (r, words, s) := propertyCall rhwCodes true rhwGetMacAddressRequest [5, 6] post s
  (r, (words.flatMap fun w => (List.range 4).map fun k => byteOf k w).take 6, s)

def statebit (on : Bool) : Word := (if on then (1 : Word) <<< 0 else (0 : Word) <<< 0) ||| ((1 : Word) <<< 1)

def rhwSetDevicePowerRequest (dev : Word) (on : Bool) : List Word :=
  sized [0, 0x00028001, 8, 8, dev, statebit on, 0]

/-- The answer is waited for once more, `n` times at most. -/
def recvRetries : ℕ → Fb → Bool × Fb
  | 0, s => (false, s)
  | n + 1, s =>
      let (received, s) := s.call post
      if received then (true, s) else recvRetries n s

def rhwSetDevicePower (dev : Word) (on : Bool) : RhwReturn × Fb :=
  let (sent, s) := (s.request (rhwSetDevicePowerRequest dev on)).call post
  if ¬sent then (.postmanFail, s) else
  let (success, s) := recvRetries post 10 s
  if ¬success then (.postmanFail, s) else
  let s := s.read 1
  if s.mailbuffer 1 ≠ 0x80000000 then (.error, s) else (.success, s)

end Rhw

/-! ## The format -/

/-- A tag with the size of its values in bytes. -/
structure Tag where
  id : Word
  size : Word
  request : Word
  values : List Word
  deriving DecidableEq, Repr

namespace Tag

def words (t : Tag) : List Word := t.id :: t.size :: t.request :: t.values

/-- The values are padded to words. -/
def wordCount (size : Word) : ℕ := (size.toNat + 3) / 4

structure Valid (t : Tag) : Prop where
  id : t.id ≠ 0
  size : t.values.length = wordCount t.size

end Tag

/-- The words of a buffer with these tags; `code` says whether it is a request. -/
def message (code : Word) (tags : List Tag) : List Word := sized (code :: tags.flatMap Tag.words ++ [0])

/-- The tags from here on, `n` at most. -/
def readTags : ℕ → List Word → Option (List Tag)
  | n + 1, id :: size :: request :: rest =>
      if id = 0 then some []
      else if rest.length < Tag.wordCount size then none
      else
        (readTags n (rest.drop (Tag.wordCount size))).map
          (⟨id, size, request, rest.take (Tag.wordCount size)⟩ :: ·)
  | _, id :: _ => if id = 0 then some [] else none
  | _, [] => none

def readMessage (words : List Word) : Option (List Tag) := readTags words.length (words.drop 2)

theorem readTags_append {tags : List Tag} (h : ∀ t ∈ tags, t.Valid) (rest : List Word) {n : ℕ}
    (hn : tags.length < n) : readTags n (tags.flatMap Tag.words ++ 0 :: rest) = some tags := by
  induction tags generalizing n with
  | nil =>
    obtain ⟨n, rfl⟩ : ∃ m, n = m + 1 := ⟨n - 1, by omega⟩
    rcases rest with _ | ⟨w, _ | ⟨w', rest⟩⟩ <;> simp [readTags]
  | cons t tags ih =>
    obtain ⟨n, rfl⟩ : ∃ m, n = m + 1 := ⟨n - 1, by rw [List.length_cons] at hn; omega⟩
    have ht := h t List.mem_cons_self
    have hrest := ih (fun t' ht' => h t' (List.mem_cons_of_mem t ht')) (n := n) (by simpa using hn)
    simp only [List.flatMap_cons, Tag.words, List.cons_append, List.append_assoc, readTags, if_neg ht.id]
    rw [← ht.size, if_neg (by simp), List.drop_left, List.take_left, hrest]
    rfl

theorem length_le_words (tags : List Tag) : tags.length ≤ (tags.flatMap Tag.words).length := by
  induction tags with
  | nil => exact le_rfl
  | cons t tags ih =>
    rw [List.flatMap_cons, List.length_append, Tag.words]
    simp only [List.length_cons]
    omega

/-- **The round trip**: the tags are read as they were written. -/
theorem readMessage_message (code : Word) {tags : List Tag} (h : ∀ t ∈ tags, t.Valid) :
    readMessage (message code tags) = some tags := by
  have hlength := length_le_words tags
  have hdrop : (message code tags).drop 2 = tags.flatMap Tag.words ++ [0] := by simp [message, sized]
  rw [readMessage, hdrop]
  refine readTags_append h [] ?_
  simp only [message, sized, List.length_cons, List.length_append]
  omega

/-! ## A graphics processor that answers -/

/-- The values with which a tag is answered. -/
abbrev Handler := Tag → ℕ → Word

/-- A tag that has been answered. -/
def Tag.answered (h : Handler) (t : Tag) : Tag :=
  { t with request := 0x80000000 ||| t.size, values := (List.range t.values.length).map (h t) }

/-- The words of a buffer. -/
def Fb.words (mail : ℕ → Word) : List Word := (List.range ((mail 0).toNat / 4)).map mail

/-- The buffer is read, and the answers are written into it. -/
def serve (h : Handler) (mail : ℕ → Word) : ℕ → Word :=
  match readMessage (Fb.words mail) with
  | none => Function.update mail 1 0x80000001
  | some tags => fun i => (message 0x80000000 (tags.map (Tag.answered h))).getD i (mail i)

/-- A graphics processor that answers every request. -/
def Postman.serving (h : ℕ → Handler) : Postman :=
  fun k mail => (true, if k % 2 = 1 then serve (h k) mail else mail)

theorem Postman.succeeds_serving (h : ℕ → Handler) : (Postman.serving h).Succeeds := fun _ _ => rfl

theorem words_sized (words : List Word) (mail : ℕ → Word) (hlen : (1 + words.length) * 4 < 2 ^ 32) :
    Fb.words (fun i => (sized words).getD i (mail i)) = sized words := by
  have hsize : ((sized words).getD 0 (mail 0)).toNat / 4 = (sized words).length := by
    rw [sized, List.getD_cons_zero, BitVec.toNat_ofNat, Nat.mod_eq_of_lt hlen, List.length_cons]
    omega
  rw [Fb.words, hsize]
  refine List.ext_getElem (by simp) fun i hi hi' => ?_
  rw [List.getElem_map, List.getElem_range, List.getD_eq_getElem _ _ hi']

/-- **A request is answered tag by tag.** -/
theorem serve_request (h : Handler) {tags : List Tag} (hvalid : ∀ t ∈ tags, t.Valid) (mail : ℕ → Word)
    (hlen : (message 0 tags).length * 4 < 2 ^ 32) :
    serve h (fun i => (message 0 tags).getD i (mail i)) =
      fun i => (message 0x80000000 (tags.map (Tag.answered h))).getD i (mail i) := by
  have hwords : Fb.words (fun i => (message 0 tags).getD i (mail i)) = message 0 tags := by
    refine words_sized _ mail ?_
    rw [message, sized, List.length_cons] at hlen
    omega
  have hsame : ∀ ts : List Tag, ((ts.map (Tag.answered h)).flatMap Tag.words).length =
      (ts.flatMap Tag.words).length := by
    intro ts
    induction ts with
    | nil => rfl
    | cons t ts ih => simp [Tag.words, Tag.answered, ih]
  rw [serve, hwords, readMessage_message 0 hvalid]
  funext i
  by_cases hi : i < (message 0 tags).length
  · have hi' : i < (message 0x80000000 (tags.map (Tag.answered h))).length := by
      simpa [message, sized, hsame] using hi
    simp only [List.getD_eq_getElem _ _ hi']
  · have hi' : ¬i < (message 0x80000000 (tags.map (Tag.answered h))).length := by
      simpa [message, sized, hsame] using hi
    simp only [List.getD_eq_default _ _ (Nat.le_of_not_lt hi'), List.getD_eq_default _ _ (Nat.le_of_not_lt hi)]

/-- The answer of a graphics processor that answers. -/
theorem answer_serving (h : ℕ → Handler) {k : ℕ} (hk : k % 2 = 0) (words : List Word) (mail : ℕ → Word) :
    (Postman.serving h).answer k words mail = serve (h (k + 1)) fun i => words.getD i (mail i) := by
  have hodd : (k + 1) % 2 = 1 := by omega
  simp [Postman.answer, Postman.serving, hk, hodd]

/-- The answer to a request for these tags. -/
theorem answer_message (h : ℕ → Handler) {k : ℕ} (hk : k % 2 = 0) {words : List Word} {tags : List Tag}
    (hwords : words = message 0 tags) (hvalid : ∀ t ∈ tags, t.Valid) (hlen : words.length < 1000)
    (mail : ℕ → Word) :
    (Postman.serving h).answer k words mail =
      fun i => (message 0x80000000 (tags.map (Tag.answered (h (k + 1))))).getD i (mail i) := by
  rw [answer_serving h hk, hwords]
  refine serve_request (h (k + 1)) hvalid mail ?_
  rw [← hwords]
  omega

/-! ## The calls -/

/-- The value words of a tag, by their index in the buffer. -/
theorem propertyCall_serving {ρ : Type} (codes : Codes ρ) (checked : Bool) {words : List Word} {t : Tag}
    (ht : t.Valid) (hwords : words = message 0 [t]) (hlen : t.values.length < 1000) (outputs : List ℕ)
    (houtputs : ∀ i ∈ outputs, 5 ≤ i ∧ i < 5 + t.values.length) (h : ℕ → Handler) {s : Fb}
    (hcalls : s.calls % 2 = 0) :
    let r := propertyCall codes checked words outputs (.serving h) s
    r.1 = codes.success ∧ r.2.1 = outputs.map fun i => h (s.calls + 1) t (i - 5) := by
  intro r
  have hodd : (s.calls + 1) % 2 = 1 := by omega
  have hvalid : ∀ u ∈ [t], u.Valid := List.forall_mem_singleton.mpr ht
  have hserve := serve_request (h (s.calls + 1)) hvalid s.mailbuffer (by simp [message, sized, Tag.words]; omega)
  subst hwords
  have hr : r = propertyCall codes checked (message 0 [t]) outputs (.serving h) s := rfl
  simp only [propertyCall, Fb.request, Fb.call, Postman.serving, hcalls, hodd, not_true_eq_false, and_false,
    if_false, if_true, Fb.read, hserve, zero_ne_one] at hr
  rw [if_neg (by simp [message, sized])] at hr
  rw [hr]
  refine ⟨rfl, List.map_congr_left fun i hi => ?_⟩
  obtain ⟨hlow, hhigh⟩ := houtputs i hi
  obtain ⟨j, rfl⟩ : ∃ j, i = j + 5 := ⟨i - 5, by omega⟩
  have hj : j < t.values.length := by omega
  simp [message, sized, Tag.words, Tag.answered, hj, List.getElem?_append_left]

section Calls
variable (h : ℕ → Handler) (mail : ℕ → Word) (fb fbsize pitch : Word)

/-- The six bytes of the address. -/
theorem rhwGetMacAddress_serving :
    let r := rhwGetMacAddress (.serving h) (.start mail fb fbsize pitch)
    let answer := h 1 ⟨0x10003, 6, 0, [0, 0]⟩
    r.1 = .success ∧ r.2.1 =
      (List.range 4).map (fun k => byteOf k (answer 0)) ++ (List.range 2).map (fun k => byteOf k (answer 1)) := by
  intro r answer
  have htag : (⟨0x10003, 6, 0, [0, 0]⟩ : Tag).Valid := ⟨by decide, rfl⟩
  obtain ⟨hcode, hvalues⟩ := propertyCall_serving rhwCodes true htag rfl (by simp) [5, 6] (by simp) h
    (s := .start mail fb fbsize pitch) rfl
  refine ⟨hcode, ?_⟩
  have hr : r.2.1 = ((propertyCall rhwCodes true rhwGetMacAddressRequest [5, 6] (.serving h)
      (.start mail fb fbsize pitch)).2.1.flatMap fun w => (List.range 4).map fun k => byteOf k w).take 6 := rfl
  rw [hr]
  exact (congrArg (fun ws : List Word => (ws.flatMap fun w => (List.range 4).map fun k => byteOf k w).take 6)
    hvalues).trans rfl

end Calls

/-! ### The framebuffer -/

section Pitch
variable {post : Postman} (hpost : post.Succeeds)
include hpost

theorem getPitch_pitch {s : Fb} {r : FbReturn × Fb} (h : s.getPitch post = some r) (hr : r.1 = .success) :
    r.2.pitch = post.answer s.calls pitchRequest s.mailbuffer 5 := by
  rw [Fb.getPitch, exchange_eq hpost] at h
  dsimp only [Fb.read] at h
  split at h
  · cases h
    cases hr
  · split at h
    · cases h
      cases hr
    · cases h
      rfl

theorem getScreen_pitch {count : Word} {s : Fb} {r : FbReturn × Fb} (h : s.getScreen post count = some r)
    (hr : r.1 = .success) : r.2.pitch = post.answer s.calls pitchRequest s.mailbuffer 5 := by
  by_cases hlength : s.mailbuffer (count + 2).toNat = 0x80000008
  · simp only [Fb.getScreen, Fb.read, hlength, ne_eq, not_true_eq_false, if_false] at h
    by_cases hdata : s.mailbuffer (count + 3).toNat = 0 ∨ s.mailbuffer (count + 4).toNat = 0
    · simp only [hdata, if_true] at h
      cases h
      cases hr
    · simp only [hdata, if_false] at h
      have hpitch := getPitch_pitch hpost h hr
      exact hpitch
  · simp only [Fb.getScreen, Fb.read, hlength, ne_eq, not_false_eq_true, if_true] at h
    cases h
    cases hr

/-- The pitch is a word of the last answer. -/
theorem fbInit_pitch {ph_w ph_h vrt_w vrt_h bpp : Word} {mail : ℕ → Word} {fb fbsize pitch : Word} {n : ℕ}
    {r : FbReturn × Fb} (hn : 7 < n)
    (h : fbInit post n ph_w ph_h vrt_w vrt_h bpp (.start mail fb fbsize pitch) = some r) (hr : r.1 = .success) :
    r.2.pitch = (post.answers ph_w ph_h vrt_w vrt_h bpp mail).pitch 5 := by
  have hlength : BitVec.ofNat 32 (screenRequest ph_w ph_h vrt_w vrt_h bpp).length = 22 := rfl
  simp only [fbInit, exchange_eq hpost, Fb.start, Fb.read, List.nil_append, Nat.zero_add, Nat.reduceAdd] at h
  rw [Postman.answers]
  generalize post.answer 0 displaySizeRequest mail = display at *
  by_cases hone : display 1 ≠ 0x80000000
  · rw [if_pos hone] at h
    cases h
    cases hr
  rw [if_neg hone] at h
  generalize post.answer 2 (screenRequest ph_w ph_h vrt_w vrt_h bpp) display = screen at *
  by_cases htwo : screen 1 ≠ 0x80000000
  · rw [if_pos htwo] at h
    cases h
    cases hr
  rw [if_neg htwo, hlength] at h
  have hread : (Fb.mk screen 4 [1, 1] fb fbsize pitch).ReadsInside := by
    intro i hi
    have hi : i = 1 := by simpa using hi
    omega
  obtain ⟨⟨found, s⟩, hloop, -, hstate, -⟩ := tagLoop_spec _ hread
  dsimp only at hstate
  have hturns := hloop n hn
  rw [List.singleton_append, hturns] at h
  cases found with
  | none =>
    cases h
    cases hr
  | some count =>
    have hpitch := getScreen_pitch hpost h hr
    rw [hstate] at hpitch
    exact hpitch

end Pitch

/-- The tags that set up the screen. -/
def screenTags (ph_w ph_h vrt_w vrt_h bpp : Word) : List Tag :=
  [⟨0x48003, 8, 8, [ph_w, ph_h]⟩, ⟨0x48004, 8, 8, [vrt_w, vrt_h]⟩, ⟨0x48005, 4, 4, [bpp]⟩, ⟨0x40001, 8, 4, [16, 0]⟩]

section Screen
variable (ph_w ph_h vrt_w vrt_h bpp : Word)

theorem screenRequest_eq :
    screenRequest ph_w ph_h vrt_w vrt_h bpp = message 0 (screenTags ph_w ph_h vrt_w vrt_h bpp) := by
  have hwords : ([0,
      0x00048003, 8, 8, ph_w, ph_h,
      0x00048004, 8, 8, vrt_w, vrt_h,
      0x00048005, 4, 4, bpp,
      0x00040001, 8, 4, 16, 0,
      0] : List Word) = 0 :: (screenTags ph_w ph_h vrt_w vrt_h bpp).flatMap Tag.words ++ [0] := rfl
  exact congrArg sized hwords

theorem valid_screenTags : ∀ t ∈ screenTags ph_w ph_h vrt_w vrt_h bpp, t.Valid := by
  intro t ht
  simp only [screenTags, List.mem_cons, List.not_mem_nil, or_false] at ht
  rcases ht with rfl | rfl | rfl | rfl <;> exact ⟨by simp, by simp [Tag.wordCount]⟩

theorem words_answered_two (answer : Handler) (t : Tag) {a b : Word} (h : t.values = [a, b]) :
    (t.answered answer).words = [t.id, t.size, 0x80000000 ||| t.size, answer t 0, answer t 1] := by
  simp [Tag.words, Tag.answered, h, List.range_succ]

theorem words_answered_one (answer : Handler) (t : Tag) {a : Word} (h : t.values = [a]) :
    (t.answered answer).words = [t.id, t.size, 0x80000000 ||| t.size, answer t 0] := by
  simp [Tag.words, Tag.answered, h]

/-- The words of the answer. -/
theorem message_screenTags (answer : Handler) :
    message 0x80000000 ((screenTags ph_w ph_h vrt_w vrt_h bpp).map (Tag.answered answer)) =
      sized [0x80000000,
        0x48003, 8, 0x80000008, answer ⟨0x48003, 8, 8, [ph_w, ph_h]⟩ 0, answer ⟨0x48003, 8, 8, [ph_w, ph_h]⟩ 1,
        0x48004, 8, 0x80000008, answer ⟨0x48004, 8, 8, [vrt_w, vrt_h]⟩ 0, answer ⟨0x48004, 8, 8, [vrt_w, vrt_h]⟩ 1,
        0x48005, 4, 0x80000004, answer ⟨0x48005, 4, 4, [bpp]⟩ 0,
        0x40001, 8, 0x80000008, answer ⟨0x40001, 8, 4, [16, 0]⟩ 0, answer ⟨0x40001, 8, 4, [16, 0]⟩ 1,
        0] := by
  have height : (0x80000000 : Word) ||| 8 = 0x80000008 := by decide
  have hfour : (0x80000000 : Word) ||| 4 = 0x80000004 := by decide
  simp only [message, screenTags, List.map_cons, List.map_nil, List.flatMap_cons, List.flatMap_nil]
  rw [words_answered_two answer _ rfl, words_answered_two answer _ rfl, words_answered_one answer _ rfl,
    words_answered_two answer _ rfl]
  dsimp only [List.cons_append, List.nil_append]
  rw [height, hfour]

end Screen

/-- The loop finds the fourth tag of an answer with these words. -/
theorem stopsAt_screen {mail : ℕ → Word} (hids : mail 2 = 0x48003 ∧ mail 7 = 0x48004 ∧ mail 12 = 0x48005)
    (hsizes : mail 3 = 8 ∧ mail 8 = 8 ∧ mail 13 = 4) (hfound : mail 16 = 0x40001) :
    StopsAt mail 3 ∧ tagAt mail 3 = 16 := by
  have hnext (n k : ℕ) {size : Word} (hn : tagAt mail n = k) (hsize : mail (k + 1) = size) :
      tagAt mail (n + 1) = k + 3 + size.toNat / 4 := by
    rw [tagAt_succ, nextTag, hn, hsize]
  have hzero : tagAt mail 0 = 2 := rfl
  have hone : tagAt mail 1 = 7 := hnext 0 2 hzero hsizes.1
  have htwo : tagAt mail 2 = 12 := hnext 1 7 hone hsizes.2.1
  have hthree : tagAt mail 3 = 16 := hnext 2 12 htwo hsizes.2.2
  refine ⟨⟨?_, ?_, by omega⟩, hthree⟩
  · intro m hm
    rw [Skipped]
    interval_cases m
    · rw [hzero, hids.1]
      exact ⟨by decide, by decide⟩
    · rw [hone, hids.2.1]
      exact ⟨by decide, by decide⟩
    · rw [htwo, hids.2.2]
      exact ⟨by decide, by decide⟩
  · rw [Skipped, hthree]
    exact fun hskipped => hskipped.2 hfound

/-- **The framebuffer is what the graphics processor says**, for every way in which it may
answer: `fb_init` succeeds if the base, the size and the pitch are not zero. -/
theorem fbInit_serving (h : ℕ → Handler) (ph_w ph_h vrt_w vrt_h bpp : Word) (mail : ℕ → Word)
    (fb fbsize pitch : Word) :
    let screen := h 3 ⟨0x40001, 8, 4, [16, 0]⟩
    let line := h 5 ⟨0x40008, 4, 0, [0]⟩ 0
    ∃ r, (∀ n, 7 < n → fbInit (.serving h) n ph_w ph_h vrt_w vrt_h bpp (.start mail fb fbsize pitch) = some r) ∧
      (r.1 = .success ↔ screen 0 ≠ 0 ∧ screen 1 ≠ 0 ∧ line ≠ 0) ∧
      (r.1 = .success → r.2.fb = memP2v (screen 0) ∧ r.2.fbsize = screen 1 ∧ r.2.pitch = line) := by
  intro screen line
  have hpost := Postman.succeeds_serving h
  obtain ⟨r, hrun, -, hsuccess, hvalues⟩ := fbInit_spec hpost ph_w ph_h vrt_w vrt_h bpp mail fb fbsize pitch rfl
  have hpitch := fbInit_pitch hpost (n := 8) (by omega) (hrun 8 (by omega))
  -- the three answers
  have hdisplay : (Postman.serving h).answer 0 displaySizeRequest mail 1 = 0x80000000 := by
    have htags : ∀ t ∈ [(⟨0x40003, 8, 0, [0, 0]⟩ : Tag)], t.Valid := List.forall_mem_singleton.mpr ⟨by decide, rfl⟩
    rw [answer_message h rfl (rfl : displaySizeRequest = message 0 _) htags (by decide) mail]
    rfl
  rw [Postman.answers] at hsuccess hvalues hpitch
  dsimp only at hsuccess hvalues hpitch
  generalize (Postman.serving h).answer 0 displaySizeRequest mail = display at *
  have hscreen : (Postman.serving h).answer 2 (screenRequest ph_w ph_h vrt_w vrt_h bpp) display = fun i => _ :=
    answer_message h rfl (screenRequest_eq ph_w ph_h vrt_w vrt_h bpp) (valid_screenTags ph_w ph_h vrt_w vrt_h bpp)
      (by simp [screenRequest]) display
  rw [message_screenTags] at hscreen
  generalize (Postman.serving h).answer 2 (screenRequest ph_w ph_h vrt_w vrt_h bpp) display = screen' at *
  have hword (i : ℕ) := congrFun hscreen i
  have hline : (Postman.serving h).answer 4 pitchRequest screen' =
      fun i => (message 0x80000000 [Tag.answered (h 5) ⟨0x40008, 4, 0, [0]⟩]).getD i (screen' i) := by
    have htags : ∀ t ∈ [(⟨0x40008, 4, 0, [0]⟩ : Tag)], t.Valid := List.forall_mem_singleton.mpr ⟨by decide, rfl⟩
    exact answer_message h rfl (rfl : pitchRequest = message 0 _) htags (by decide) screen'
  have hfour : (Postman.serving h).answer 4 pitchRequest screen' 4 = 0x80000004 := congrFun hline 4
  have hfive : (Postman.serving h).answer 4 pitchRequest screen' 5 = line := congrFun hline 5
  obtain ⟨hstops, hthree⟩ :=
    stopsAt_screen ⟨hword 2, hword 7, hword 12⟩ ⟨hword 3, hword 8, hword 13⟩ (hword 16)
  have hbase : screen' 19 = screen 0 := hword 19
  have hsize : screen' 20 = screen 1 := hword 20
  have hlooks : LooksAllocated screen' 16 ↔ screen 0 ≠ 0 ∧ screen 1 ≠ 0 := by
    rw [LooksAllocated, hbase, hsize]
    exact and_iff_right (hword 18)
  refine ⟨r, hrun, ?_, ?_⟩
  · rw [hsuccess, Answers.Accepted, LooksPitch]
    dsimp only
    rw [hfour, hfive]
    constructor
    · rintro ⟨⟨-, -, -, hnonzero⟩, n, hn, hallocated⟩
      rw [← hn.unique hstops] at hthree
      rw [hthree] at hallocated
      obtain ⟨hbase', hsize'⟩ := hlooks.mp hallocated
      exact ⟨hbase', hsize', hnonzero⟩
    · rintro ⟨hbase', hsize', hnonzero⟩
      exact ⟨⟨hdisplay, hword 1, rfl, hnonzero⟩, 3, hstops, hthree ▸ hlooks.mpr ⟨hbase', hsize'⟩⟩
  · intro hdone
    obtain ⟨hfb, hfbsize⟩ := hvalues hdone 3 hstops
    rw [hthree] at hfb hfbsize
    exact ⟨hfb.trans (congrArg memP2v hbase), hfbsize.trans hsize, (hpitch hdone).trans hfive⟩

/-! ### A late answer -/

/-- A graphics processor whose answer is there after `d` looks. -/
def Postman.late (d : ℕ) (h : Handler) : Postman :=
  fun k mail => if k = 0 then (true, mail) else if k ≤ d then (false, mail) else (true, serve h mail)

theorem recvRetries_late (d : ℕ) (h : Handler) (n : ℕ) {s : Fb} (hpos : 0 < s.calls) (hle : s.calls ≤ d + 1) :
    recvRetries (.late d h) n s =
      if d + 1 < s.calls + n then (true, { s with mailbuffer := serve h s.mailbuffer, calls := d + 2 })
      else (false, { s with calls := s.calls + n }) := by
  induction n generalizing s with
  | zero => rw [if_neg (by omega)]; rfl
  | succ n ih =>
    rw [recvRetries, Fb.call, Postman.late]
    simp only [if_neg (Nat.ne_of_gt hpos)]
    by_cases hlook : s.calls ≤ d
    · simp only [if_pos hlook, Bool.false_eq_true, if_false]
      rw [ih (s := { s with calls := s.calls + 1 }) (Nat.succ_pos _) (by dsimp only; omega)]
      simp only [Nat.add_right_comm, Nat.add_assoc]
    · have hcalls : s.calls = d + 1 := by omega
      simp only [if_neg hlook, if_true]
      rw [if_pos (by omega), hcalls]

/-- **The power of a device is waited for ten times**: the function succeeds if the answer is
there by then. -/
theorem rhwSetDevicePower_late_iff (d : ℕ) (h : Handler) (dev : Word) (on : Bool) (mail : ℕ → Word)
    (fb fbsize pitch : Word) :
    (rhwSetDevicePower (.late d h) (.start mail fb fbsize pitch) dev on).1 = .success ↔ d < 10 := by
  have htag : (⟨0x28001, 8, 8, [dev, statebit on]⟩ : Tag).Valid :=
    ⟨by simp, by simp [Tag.wordCount]⟩
  have hserve := serve_request h (List.forall_mem_singleton.mpr htag) mail (by simp [message, sized, Tag.words])
  have hrequest : rhwSetDevicePowerRequest dev on =
      message 0 [⟨0x28001, 8, 8, [dev, statebit on]⟩] := rfl
  have hretries := recvRetries_late d h 10
    (s := ⟨fun i => (rhwSetDevicePowerRequest dev on).getD i (mail i), 1, [], fb, fbsize, pitch⟩)
    Nat.one_pos (Nat.succ_le_succ (Nat.zero_le d))
  have hrun : rhwSetDevicePower (.late d h) (.start mail fb fbsize pitch) dev on =
      let (success, s) := recvRetries (.late d h) 10
        ⟨fun i => (rhwSetDevicePowerRequest dev on).getD i (mail i), 1, [], fb, fbsize, pitch⟩
      if ¬success then (.postmanFail, s) else
      let s := s.read 1
      if s.mailbuffer 1 ≠ 0x80000000 then (.error, s) else (.success, s) := rfl
  rw [hrun]
  by_cases hd : d < 10
  · rw [if_pos (show d + 1 < 1 + 10 by omega)] at hretries
    rw [hretries]
    refine iff_of_true ?_ hd
    dsimp only [Fb.read]
    rw [hrequest, hserve]
    simp [message, sized]
  · rw [if_neg (show ¬d + 1 < 1 + 10 by omega)] at hretries
    rw [hretries]
    exact iff_of_false nofun hd

end Pigfx
