import Pigfx.Mailbox.Link

/-!
# The time of a call

A call looks at the clock whenever it finds the mailbox full or empty, and after each message
that it drops.  Between two looks it makes three accesses at most.

## Main definitions

* `Link.Timed` — the clock says how long the call has taken.
* `Link.Late` — the time of the call is over.
* `Link.Coming` — the answer waits behind other messages.
-/

namespace Pigfx.Mailbox
open Lib

/-! ## The time -/

/-- The time at which the call began. -/
def Arm.startTime : Arm → Option Word
  | .sendPoll _ _ startTime | .sendWait _ _ startTime => some startTime
  | .recvPoll _ startTime _ | .recvWait _ startTime _ | .recvRead _ startTime _ | .recvSkip _ startTime _ =>
      some startTime
  | .idle | .sendWrite .. => none

/-- The clock has gone on since the call began, and a call that gave up has waited. -/
structure Link.Timed (s : Link) : Prop where
  clock : ∀ startTime ∈ s.arm.startTime, s.clock - startTime = BitVec.ofNat 32 s.elapsed
  waited : ∀ r ∈ s.returned, r.1 = .sendTimeout ∨ r.1 = .recvTimeout → MAILBOX_WAIT_TIMEOUT.toNat < r.2

namespace Link.Timed
variable {g : Gpu} {s t : Link}

/-- A call gives up when it has waited for too long. -/
theorem giveUp (h : s.Timed) {startTime : Word} (hstart : startTime ∈ s.arm.startTime)
    (hlate : s.clock - startTime > MAILBOX_WAIT_TIMEOUT) (r : PostmanReturn) : (s.ret r).Timed := by
  refine ⟨nofun, ?_⟩
  intro x hx htimeout
  rcases List.mem_cons.mp hx with rfl | hx
  · have hmod : (s.clock - startTime).toNat ≤ s.elapsed := by
      rw [h.clock startTime hstart, BitVec.toNat_ofNat]
      exact Nat.mod_le _ _
    exact Nat.lt_of_lt_of_le hlate hmod
  · exact h.waited x hx htimeout

/-- A call returns something else. -/
theorem ret (h : s.Timed) (ht : t.returned = s.returned) {r : PostmanReturn} (hr : r ≠ .sendTimeout)
    (hr' : r ≠ .recvTimeout) : (t.ret r).Timed := by
  refine ⟨nofun, ?_⟩
  intro x hx htimeout
  rw [Link.ret, ht] at hx
  rcases List.mem_cons.mp hx with rfl | hx
  · rcases htimeout with h | h
    · exact absurd h hr
    · exact absurd h hr'
  · exact h.waited x hx htimeout

/-- What has nothing to do with the time. -/
theorem frame (h : s.Timed) (hclock : t.clock = s.clock) (helapsed : t.elapsed = s.elapsed)
    (hreturned : t.returned = s.returned) (harm : ∀ startTime ∈ t.arm.startTime, startTime ∈ s.arm.startTime) :
    t.Timed := by
  refine ⟨?_, hreturned ▸ h.waited⟩
  intro startTime hstart
  rw [hclock, helapsed]
  exact h.clock startTime (harm startTime hstart)

theorem armStep (h : s.Timed) : (s.armStep g).Timed := by
  cases harm : s.arm with
  | idle =>
    simp only [Link.armStep, harm]
    exact h
  | sendPoll channel data startTime =>
    simp only [Link.armStep, harm]
    split
    · exact h.frame rfl rfl rfl (by rw [harm]; exact fun _ => id)
    · exact h.frame rfl rfl rfl fun _ hx => absurd hx (Option.not_mem_none _)
  | sendWait channel data startTime =>
    simp only [Link.armStep, harm]
    split
    · next hlate => exact h.giveUp (by rw [harm]; rfl) hlate _
    · exact h.frame rfl rfl rfl (by rw [harm]; exact fun _ => id)
  | sendWrite channel data =>
    simp only [Link.armStep, harm, Link.write]
    split
    · exact h.ret (by rfl) (by decide) (by decide)
    · exact h.ret (by rfl) (by decide) (by decide)
  | recvPoll channel startTime nSkipped =>
    simp only [Link.armStep, harm]
    split
    · exact h.frame rfl rfl rfl (by rw [harm]; exact fun _ => id)
    · exact h.frame rfl rfl rfl (by rw [harm]; exact fun _ => id)
  | recvWait channel startTime nSkipped =>
    simp only [Link.armStep, harm]
    split
    · next hlate => exact h.giveUp (by rw [harm]; rfl) hlate _
    · exact h.frame rfl rfl rfl (by rw [harm]; exact fun _ => id)
  | recvRead channel startTime nSkipped =>
    cases hincoming : s.incoming with
    | nil =>
      simp only [Link.armStep, harm, hincoming]
      exact h.frame rfl rfl rfl (by rw [harm]; exact fun _ => id)
    | cons msg incoming =>
      simp only [Link.armStep, harm, hincoming]
      split
      · exact h.ret (by rfl) (by decide) (by decide)
      · exact h.frame rfl rfl rfl (by rw [harm]; exact fun _ => id)
  | recvSkip channel startTime nSkipped =>
    simp only [Link.armStep, harm]
    split
    · next hlate => exact h.giveUp (by rw [harm]; rfl) hlate _
    · split
      · exact h.frame rfl rfl rfl (by rw [harm]; exact fun _ => id)
      · exact h.ret (by rfl) (by decide) (by decide)

theorem tick (h : s.Timed) (d : Word) :
    { s with clock := s.clock + d, elapsed := s.elapsed + d.toNat }.Timed := by
  refine ⟨?_, h.waited⟩
  intro startTime hstart
  have hbefore := h.clock startTime hstart
  calc s.clock + d - startTime = s.clock - startTime + d := by
        rw [BitVec.sub_eq_add_neg, BitVec.sub_eq_add_neg, BitVec.add_assoc, BitVec.add_comm d, ← BitVec.add_assoc]
    _ = BitVec.ofNat 32 (s.elapsed + d.toNat) := by rw [hbefore, BitVec.ofNat_add, BitVec.ofNat_toNat]; rfl

theorem step (h : s.Timed) (e : Event) : (s.step g e).Timed := by
  cases e with
  | store mem =>
    simp only [Link.step]
    split
    · exact ⟨h.clock, h.waited⟩
    · exact h
  | send channel data =>
    simp only [Link.step, Link.postmanSend]
    split
    · split
      · exact h.ret (by rfl) (by decide) (by decide)
      · refine ⟨?_, h.waited⟩
        intro startTime hstart
        cases hstart
        exact BitVec.sub_self s.clock
    · exact h
  | recv channel =>
    simp only [Link.step, Link.postmanRecv]
    split
    · split
      · exact h.ret (by rfl) (by decide) (by decide)
      · refine ⟨?_, h.waited⟩
        intro startTime hstart
        cases hstart
        exact BitVec.sub_self s.clock
    · exact h
  | arm => exact h.armStep
  | take =>
    simp only [Link.step]
    cases s.outgoing with
    | nil => exact h
    | cons msg outgoing =>
      dsimp only
      split
      · exact ⟨h.clock, h.waited⟩
      · exact ⟨h.clock, h.waited⟩
  | answer =>
    simp only [Link.step]
    cases s.accepted with
    | nil => exact h
    | cons msg accepted =>
      dsimp only
      split
      · exact ⟨h.clock, h.waited⟩
      · exact h
  | other msg =>
    simp only [Link.step]
    split
    · exact ⟨h.clock, h.waited⟩
    · exact h
  | tick d => exact h.tick d

theorem boot (mem : Mem) (clock : Word) : (Link.boot mem clock).Timed := ⟨nofun, nofun⟩

end Link.Timed

/-! ### A late call -/

/-- The accesses that a call makes at most when its time is over. -/
def Arm.left : Arm → ℕ
  | .idle => 0
  | .sendWait .. | .sendWrite .. | .recvWait .. | .recvSkip .. => 1
  | .sendPoll .. | .recvRead .. => 2
  | .recvPoll .. => 3

/-- The accesses of a run. -/
def accesses (es : List Event) : ℕ := es.countP fun
  | .arm => true
  | _ => false

/-- The time that passes in a run. -/
def duration : List Event → ℕ
  | [] => 0
  | .tick d :: es => d.toNat + duration es
  | _ :: es => duration es

/-- What is no access leaves the call in progress as it is. -/
structure Link.Quiet (s t : Link) (passed : ℕ) : Prop where
  arm : t.arm = s.arm
  log : t.log = s.log
  elapsed : t.elapsed = s.elapsed + passed
  incoming : s.incoming <+: t.incoming

theorem Link.quiet_step {g : Gpu} {s : Link} {e : Event} (he : accesses [e] = 0) (hbusy : ¬s.Idle) :
    s.Quiet (s.step g e) (duration [e]) := by
  have hsame : s.Quiet s 0 := ⟨rfl, rfl, rfl, List.prefix_rfl⟩
  cases e with
  | store mem =>
    rw [Link.step, if_neg hbusy]
    exact hsame
  | send channel data =>
    rw [Link.step, if_neg hbusy]
    exact hsame
  | recv channel =>
    rw [Link.step, if_neg hbusy]
    exact hsame
  | arm => cases he
  | take =>
    simp only [Link.step]
    cases s.outgoing with
    | nil => exact hsame
    | cons msg outgoing =>
      dsimp only
      split <;> exact ⟨rfl, rfl, rfl, List.prefix_rfl⟩
  | answer =>
    simp only [Link.step]
    cases s.accepted with
    | nil => exact hsame
    | cons msg accepted =>
      dsimp only
      split
      · exact ⟨rfl, rfl, rfl, List.prefix_append s.incoming [msg]⟩
      · exact hsame
  | other msg =>
    simp only [Link.step]
    split
    · exact ⟨rfl, rfl, rfl, List.prefix_append s.incoming [msg]⟩
    · exact hsame
  | tick d => exact ⟨rfl, rfl, rfl, List.prefix_rfl⟩

theorem duration_cons (e : Event) (es : List Event) : duration (e :: es) = duration [e] + duration es := by
  cases e <;> simp [duration]

theorem accesses_cons (e : Event) (es : List Event) : accesses (e :: es) = accesses [e] + accesses es := by
  simp [accesses, List.countP_cons, Nat.add_comm]

theorem eq_arm_of_accesses {e : Event} (he : accesses [e] ≠ 0) : e = .arm := by
  cases e <;> simp [accesses] at he
  rfl

/-- The time of the call is over. -/
structure Link.Late (s : Link) : Prop where
  timed : s.Timed
  late : MAILBOX_WAIT_TIMEOUT.toNat < s.elapsed

namespace Link.Late
variable {g : Gpu} {s : Link}

theorem lt_sub (h : s.Late) (hwrap : s.elapsed < 2 ^ 32) {startTime : Word}
    (hstart : startTime ∈ s.arm.startTime) : s.clock - startTime > MAILBOX_WAIT_TIMEOUT := by
  have hnat : (s.clock - startTime).toNat = s.elapsed := by
    rw [h.timed.clock startTime hstart, BitVec.toNat_ofNat, Nat.mod_eq_of_lt hwrap]
  change MAILBOX_WAIT_TIMEOUT.toNat < (s.clock - startTime).toNat
  rw [hnat]
  exact h.late

/-- An access brings the return nearer. -/
theorem armStep (h : s.Late) (hwrap : s.elapsed < 2 ^ 32) (hreads : s.Reads) (hbusy : s.arm ≠ .idle) :
    (s.armStep g).arm.left < s.arm.left ∧ (s.armStep g).elapsed = s.elapsed := by
  cases harm : s.arm with
  | idle => exact absurd harm hbusy
  | sendPoll channel data startTime =>
    simp only [Link.armStep, harm]
    split <;> exact ⟨by simp [Arm.left], rfl⟩
  | sendWait channel data startTime =>
    simp only [Link.armStep, harm, if_pos (h.lt_sub hwrap (by rw [harm]; rfl))]
    exact ⟨by simp [Arm.left, Link.ret], rfl⟩
  | sendWrite channel data =>
    simp only [Link.armStep, harm, Link.write]
    split <;> exact ⟨by simp [Arm.left, Link.ret], rfl⟩
  | recvPoll channel startTime nSkipped =>
    simp only [Link.armStep, harm]
    split <;> exact ⟨by simp [Arm.left], rfl⟩
  | recvWait channel startTime nSkipped =>
    simp only [Link.armStep, harm, if_pos (h.lt_sub hwrap (by rw [harm]; rfl))]
    exact ⟨by simp [Arm.left, Link.ret], rfl⟩
  | recvRead channel startTime nSkipped =>
    cases hincoming : s.incoming with
    | nil =>
      rw [Link.Reads, harm] at hreads
      exact absurd hincoming hreads
    | cons msg incoming =>
      simp only [Link.armStep, harm, hincoming]
      split <;> exact ⟨by simp [Arm.left, Link.ret], rfl⟩
  | recvSkip channel startTime nSkipped =>
    simp only [Link.armStep, harm, if_pos (h.lt_sub hwrap (by rw [harm]; rfl))]
    exact ⟨by simp [Arm.left, Link.ret], rfl⟩

theorem returns (h : s.Late) (ho : s.Orderly) {es : List Event} (hes : ∀ e ∈ es, e.OnProperty)
    (hwrap : s.elapsed + duration es < 2 ^ 32) (hcount : s.arm.left ≤ accesses es) :
    ∃ n, ((es.take n).foldl (Link.step g) s).arm = .idle := by
  induction es generalizing s with
  | nil =>
    refine ⟨0, ?_⟩
    cases harm : s.arm <;> simp [harm, Arm.left, accesses] at hcount
    exact harm
  | cons e es ih =>
    by_cases hbusy : s.arm = .idle
    · exact ⟨0, hbusy⟩
    have htail : ∀ e' ∈ es, e'.OnProperty := fun e' he' => hes e' (List.mem_cons_of_mem e he')
    have ho' : (s.step g e).Orderly := ho.step (hes e List.mem_cons_self)
    rw [duration_cons] at hwrap
    rw [accesses_cons] at hcount
    have hnext : (s.step g e).arm.left ≤ accesses es ∧ (s.step g e).elapsed = s.elapsed + duration [e] := by
      by_cases he : accesses [e] = 0
      · have hquiet := Link.quiet_step (g := g) he hbusy
        exact ⟨by rw [hquiet.arm]; omega, hquiet.elapsed⟩
      · obtain rfl := eq_arm_of_accesses he
        obtain ⟨hless, htime⟩ := h.armStep (g := g) (by omega) ho.reads hbusy
        have hsingle : accesses [.arm] = 1 := rfl
        exact ⟨by rw [Link.step]; omega, htime⟩
    obtain ⟨n, hn⟩ := ih ⟨h.timed.step e, by rw [hnext.2]; have := h.late; omega⟩ ho' htail
      (by rw [hnext.2]; omega) hnext.1
    exact ⟨n + 1, hn⟩

end Link.Late

/-- **A call returns in time.**  In every run, a call that gives up has waited for more than half
a second; and a call that has waited for so long returns at its third access at the latest,
whatever the graphics processor sends, unless the clock wraps around meanwhile. -/
theorem call_returns (g : Gpu) (mem : Mem) (clock : Word) (es : List Event) (hes : ∀ e ∈ es, e.OnProperty) :
    let s := es.foldl (Link.step g) (.boot mem clock)
    (∀ r ∈ s.returned, r.1 = .sendTimeout ∨ r.1 = .recvTimeout → 500000 < r.2) ∧
      (500000 < s.elapsed → ∀ more : List Event, (∀ e ∈ more, e.OnProperty) → 3 ≤ accesses more →
        s.elapsed + duration more < 2 ^ 32 → ∃ n, ((more.take n).foldl (Link.step g) s).arm = .idle) := by
  intro s
  have htimed : s.Timed := foldl_invariant (fun s e hs => hs.step e) _ es (.boot mem clock)
  have ho : s.Orderly := Link.Orderly.run g mem clock es hes
  refine ⟨htimed.waited, ?_⟩
  intro hlate more hmore hcount hwrap
  have hleft : s.arm.left ≤ 3 := by cases s.arm <;> simp [Arm.left]
  exact Link.Late.returns ⟨htimed, hlate⟩ ho hmore hwrap (hleft.trans hcount)

theorem call_returns_unanswered :
    let s := [.recv 8, .arm, .tick 500001].foldl (Link.step echo) (.boot (fun _ => 0) 0)
    ∃ n, ((([.arm, .arm, .arm] : List Event).take n).foldl (Link.step echo) s).arm = .idle :=
  (call_returns echo (fun _ => 0) 0 [.recv 8, .arm, .tick 500001] (by simp [Event.OnProperty])).2 (by decide)
    [.arm, .arm, .arm] (by simp [Event.OnProperty]) (by decide) (by decide)

/-! ### A call whose answer is there -/

/-- `postman_recv` has not dropped too much to find an answer behind `j` other messages. -/
def Arm.Seeks (j : ℕ) : Arm → Prop
  | .recvPoll channel _ nSkipped | .recvWait channel _ nSkipped | .recvRead channel _ nSkipped =>
      channel = propertyChannel ∧ nSkipped.toNat + j < 20
  | .recvSkip channel _ nSkipped => channel = propertyChannel ∧ nSkipped.toNat + 1 + j < 20
  | _ => False

/-- The accesses until then. -/
def Arm.toGo (j : ℕ) : Arm → ℕ
  | .recvRead .. => 3 * j + 1
  | .recvPoll .. => 3 * j + 2
  | .recvWait .. | .recvSkip .. => 3 * j + 3
  | _ => 0

/-- The answer waits behind `j` messages of other channels. -/
structure Link.Coming (msg : Word) (j : ℕ) (s : Link) : Prop where
  timed : s.Timed
  seeks : s.arm.Seeks j
  incoming : ∃ others rest, s.incoming = others ++ msg :: rest ∧ others.length = j ∧ ∀ m ∈ others, ¬isProperty m

/-- `postman_recv` has handed the answer out. -/
def Link.Found (msg : Word) (log : List Transfer) (s : Link) : Prop :=
  s.arm = .idle ∧ (∃ mem, s.log = .got (dataOf msg) mem :: log) ∧ ∃ r ∈ s.returned.head?, r.1 = .success

namespace Link.Coming
variable {g : Gpu} {s : Link} {msg : Word} {j : ℕ}

theorem not_late (h : s.Coming msg j) (htime : s.elapsed ≤ MAILBOX_WAIT_TIMEOUT.toNat) {startTime : Word}
    (hstart : startTime ∈ s.arm.startTime) : ¬s.clock - startTime > MAILBOX_WAIT_TIMEOUT := by
  rw [h.timed.clock startTime hstart]
  intro hlate
  have hnat : MAILBOX_WAIT_TIMEOUT.toNat < (BitVec.ofNat 32 s.elapsed).toNat := hlate
  rw [BitVec.toNat_ofNat] at hnat
  exact absurd (hnat.trans_le (Nat.mod_le _ _)) (Nat.not_lt.mpr htime)

theorem incoming_ne_nil (h : s.Coming msg j) : s.incoming ≠ [] := by
  obtain ⟨others, rest, hincoming, -, -⟩ := h.incoming
  rw [hincoming]
  exact List.append_ne_nil_of_right_ne_nil others (List.cons_ne_nil msg rest)

/-- The call goes on. -/
theorem goOn (h : s.Coming msg j) (ht : (s.armStep g).Timed) {arm : Arm} (hstep : s.armStep g = { s with arm })
    (harm : arm.Seeks j) : (s.armStep g).Coming msg j := by
  rw [hstep] at ht ⊢
  exact ⟨ht, harm, h.incoming⟩

/-- An access drops a message, or brings the answer nearer. -/
theorem armStep (h : s.Coming msg j) (hmsg : isProperty msg) (htime : s.elapsed ≤ MAILBOX_WAIT_TIMEOUT.toNat) :
    (s.armStep g).elapsed = s.elapsed ∧ ((s.armStep g).Found msg s.log ∨
      (s.armStep g).log = s.log ∧
        ∃ i, (s.armStep g).Coming msg i ∧ (s.armStep g).arm.toGo i + 1 = s.arm.toGo j) := by
  have hseeks := h.seeks
  have ht : (s.armStep g).Timed := h.timed.armStep
  cases harm : s.arm with
  | idle => rw [harm] at hseeks; exact hseeks.elim
  | sendPoll channel data startTime => rw [harm] at hseeks; exact hseeks.elim
  | sendWait channel data startTime => rw [harm] at hseeks; exact hseeks.elim
  | sendWrite channel data => rw [harm] at hseeks; exact hseeks.elim
  | recvPoll channel startTime nSkipped =>
    rw [harm] at hseeks
    have hstep : s.armStep g = { s with arm := .recvRead channel startTime nSkipped } := by
      simp only [Link.armStep, harm]
      exact if_neg (mt (empty_flag g s).mp h.incoming_ne_nil)
    have hnext := h.goOn ht hstep hseeks
    rw [hstep] at hnext ⊢
    exact ⟨rfl, .inr ⟨rfl, j, hnext, rfl⟩⟩
  | recvWait channel startTime nSkipped =>
    rw [harm] at hseeks
    have hstep : s.armStep g = { s with arm := .recvPoll channel startTime nSkipped } := by
      simp only [Link.armStep, harm]
      exact if_neg (h.not_late htime (by rw [harm]; rfl))
    have hnext := h.goOn ht hstep hseeks
    rw [hstep] at hnext ⊢
    exact ⟨rfl, .inr ⟨rfl, j, hnext, rfl⟩⟩
  | recvRead channel startTime nSkipped =>
    rw [harm] at hseeks
    obtain ⟨rfl, hfew⟩ := hseeks
    obtain ⟨others, rest, hincoming, rfl, hothers⟩ := h.incoming
    cases others with
    | nil =>
      have hstep : s.armStep g = { s with incoming := rest, log := .got (msg >>> 4) s.mem :: s.log }.ret .success := by
        simp only [Link.armStep, harm, hincoming, List.nil_append]
        exact if_pos (by simpa [isProperty] using hmsg)
      rw [hstep]
      exact ⟨rfl, .inl ⟨rfl, ⟨s.mem, rfl⟩, _, rfl, rfl⟩⟩
    | cons m others =>
      have hstep : s.armStep g =
          { s with incoming := others ++ msg :: rest, arm := .recvSkip propertyChannel startTime nSkipped } := by
        simp only [Link.armStep, harm, hincoming, List.cons_append]
        have hm := hothers m List.mem_cons_self
        exact if_neg (by simpa [isProperty] using hm)
      rw [hstep] at ht ⊢
      refine ⟨rfl, .inr ⟨rfl, others.length, ⟨ht, ⟨rfl, ?_⟩, others, rest, rfl, rfl, ?_⟩, rfl⟩⟩
      · rw [List.length_cons] at hfew
        omega
      · exact fun m' hm' => hothers m' (List.mem_cons_of_mem m hm')
  | recvSkip channel startTime nSkipped =>
    rw [harm] at hseeks
    obtain ⟨hchannel, hfew⟩ := hseeks
    have hsucc : (nSkipped + 1).toNat = nSkipped.toNat + 1 := by
      rw [BitVec.toNat_add]
      exact Nat.mod_eq_of_lt (by change nSkipped.toNat + 1 < 2 ^ 32; omega)
    have hstep : s.armStep g = { s with arm := .recvPoll channel startTime (nSkipped + 1) } := by
      simp only [Link.armStep, harm]
      rw [if_neg (h.not_late htime (by rw [harm]; rfl))]
      refine if_pos ?_
      change (nSkipped + 1).toNat < 20
      omega
    have hnext := h.goOn ht hstep ⟨hchannel, by omega⟩
    rw [hstep] at hnext ⊢
    exact ⟨rfl, .inr ⟨rfl, j, hnext, rfl⟩⟩

theorem toGo_pos (h : s.Coming msg j) : 0 < s.arm.toGo j := by
  have hseeks := h.seeks
  cases harm : s.arm <;> simp [harm, Arm.Seeks] at hseeks <;> simp [Arm.toGo]

theorem not_idle (h : s.Coming msg j) : ¬s.Idle := by
  intro hidle
  have hpos := h.toGo_pos
  rw [hidle] at hpos
  exact Nat.lt_irrefl 0 hpos

/-- What is no access leaves the answer where it is. -/
theorem quiet {t : Link} {n : ℕ} (h : s.Coming msg j) (ht : t.Timed) (hquiet : s.Quiet t n) :
    t.Coming msg j := by
  obtain ⟨others, rest, hincoming, hlength, hothers⟩ := h.incoming
  obtain ⟨more, hmore⟩ := hquiet.incoming
  refine ⟨ht, hquiet.arm ▸ h.seeks, others, rest ++ more, ?_, hlength, hothers⟩
  rw [← hmore, hincoming, List.append_assoc, List.cons_append]

theorem found (h : s.Coming msg j) (hmsg : isProperty msg) {es : List Event}
    (htime : s.elapsed + duration es ≤ MAILBOX_WAIT_TIMEOUT.toNat) (hcount : s.arm.toGo j ≤ accesses es) :
    ∃ n, ((es.take n).foldl (Link.step g) s).Found msg s.log := by
  induction es generalizing s j with
  | nil => exact absurd (h.toGo_pos.trans_le hcount) (Nat.lt_irrefl 0)
  | cons e es ih =>
    rw [duration_cons] at htime
    rw [accesses_cons] at hcount
    by_cases he : accesses [e] = 0
    · have hquiet := Link.quiet_step (g := g) he h.not_idle
      obtain ⟨n, hn⟩ := ih (h.quiet (h.timed.step e) hquiet) (by rw [hquiet.elapsed]; omega)
        (by rw [hquiet.arm]; omega)
      exact ⟨n + 1, hquiet.log ▸ hn⟩
    · obtain rfl := eq_arm_of_accesses he
      obtain ⟨helapsed, hfound | ⟨hlog, i, hnext, hless⟩⟩ := h.armStep (g := g) hmsg (by omega)
      · exact ⟨1, hfound⟩
      · have hone : accesses [.arm] = 1 := rfl
        obtain ⟨n, hn⟩ := ih hnext (by rw [helapsed]; omega) (by omega)
        exact ⟨n + 1, hlog ▸ hn⟩

end Link.Coming

/-- **An answer that is there is found**: behind fewer than twenty messages of other channels,
whatever else comes in meanwhile, if the call gets the accesses for it within half a second. -/
theorem recv_finds_answer (g : Gpu) (mem : Mem) (clock : Word) (es : List Event)
    (msg : Word) (hmsg : isProperty msg) (others rest : List Word) (hothers : ∀ m ∈ others, ¬isProperty m) :
    let s := es.foldl (Link.step g) (.boot mem clock)
    s.Idle → s.incoming = others ++ msg :: rest → others.length < 20 →
      ∀ more : List Event, duration more ≤ 500000 → 3 * others.length + 2 ≤ accesses more →
        ∃ n, (((.recv propertyChannel :: more).take n).foldl (Link.step g) s).Found msg s.log := by
  intro s hidle hincoming hfew more hduration hcount
  have htimed : s.Timed := foldl_invariant (fun s e hs => hs.step e) _ es (.boot mem clock)
  have hbegin : s.step g (.recv propertyChannel) =
      { s with elapsed := 0, arm := .recvPoll propertyChannel s.clock 0 } := if_pos hidle
  have hcoming : (s.step g (.recv propertyChannel)).Coming msg others.length := by
    refine ⟨htimed.step _, ?_, others, rest, ?_, rfl, hothers⟩
    · rw [hbegin]
      exact ⟨rfl, by simpa using hfew⟩
    · rw [hbegin]
      exact hincoming
  obtain ⟨n, hn⟩ := @hcoming.found g _ _ _ hmsg more (by rw [hbegin]; simpa using hduration)
    (by rw [hbegin]; exact hcount)
  refine ⟨n + 1, ?_⟩
  rw [hbegin] at hn
  rw [List.take_succ_cons, List.foldl_cons, hbegin]
  exact hn

theorem recv_finds_answer_echo :
    let s := [.send 8 0x10, .arm, .arm, .other 1, .take, .answer].foldl (Link.step echo) (.boot (fun _ => 0) 0)
    ∃ n, (((.recv propertyChannel :: [.arm, .arm, .arm, .arm, .arm]).take n).foldl (Link.step echo) s).Found
      0x18 s.log :=
  recv_finds_answer echo (fun _ => 0) 0 [.send 8 0x10, .arm, .arm, .other 1, .take, .answer] 0x18 (by decide) [1] []
    (by simp [isProperty]) rfl rfl (by decide) [.arm, .arm, .arm, .arm, .arm] (by simp [duration]) (by decide)

end Pigfx.Mailbox
