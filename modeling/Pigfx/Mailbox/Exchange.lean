import Pigfx.Mailbox.Link

/-!
# Requests and their answers

A caller sends a request and waits for the answer, which it reads from the buffer of the
request.  What `postman_recv` hands out is not looked at, so a late answer is taken for that of
a later request.

## Main definitions

* `Patient` — a caller that waits for its answers.
* `Answered` — every answer belongs to the request before it.
* `Exchange` — where the request of a patient caller is.
-/

namespace Pigfx.Mailbox
open Lib

/-! ## A caller that waits -/

/-- The number of requests that have not been handed back. -/
def Link.opened (s : Link) : ℕ := (sentData s.log).length - (gotData s.log).length

theorem Link.Orderly.opened_eq {s : Link} (h : s.Orderly) : s.opened = s.inflight.length := by
  rw [Link.opened, h.order, List.length_append, List.length_map, Nat.add_sub_cancel_left]

/-- The caller writes and sends while at most `k` requests are open. -/
def Patient (k : ℕ) (s : Link) : Event → Prop
  | .store _ => s.Idle → s.opened ≤ k
  | .send channel _ => channel = propertyChannel ∧ (s.Idle → s.opened ≤ k)
  | .recv channel => channel = propertyChannel
  | _ => True

theorem Patient.onProperty {k : ℕ} {s : Link} {e : Event} (h : Patient k s e) : e.OnProperty := by
  cases e with
  | send channel data => exact h.1
  | recv channel => exact h
  | store mem => trivial
  | arm => trivial
  | take => trivial
  | answer => trivial
  | other msg => trivial
  | tick d => trivial

/-- What is handed out is the answer of the request directly before, and the memory is as the
graphics processor has left it. -/
def Answered (g : Gpu) : List Transfer → Prop
  | [] => True
  | .sent .. :: log => Answered g log
  | .got data mem :: log =>
      (∃ msg m rest, log = .sent msg m :: rest ∧ data = dataOf msg ∧ mem = g.serve msg m) ∧ Answered g log

/-- Where the request of the exchange is. -/
inductive Exchange (g : Gpu) (s : Link) : Prop
  | closed (hinflight : s.inflight = []) (hlog : Answered g s.log)
  | waiting (msg : Word) (log : List Transfer) (hlog : s.log = .sent msg s.mem :: log)
      (hanswered : Answered g log) (hincoming : s.incoming.filter isProperty = [])
      (hrequests : s.accepted ++ s.outgoing = [msg]) (harm : ¬s.arm.Sending)
  | done (msg : Word) (m : Mem) (log : List Transfer) (hlog : s.log = .sent msg m :: log)
      (hanswered : Answered g log) (hmem : s.mem = g.serve msg m)
      (hincoming : s.incoming.filter isProperty = [msg]) (hrequests : s.accepted ++ s.outgoing = [])
      (harm : ¬s.arm.Sending)

namespace Exchange
variable {g : Gpu} {s t : Link}

theorem answered (h : Exchange g s) : Answered g s.log := by
  cases h with
  | closed hinflight hlog => exact hlog
  | waiting msg log hlog hanswered => rw [hlog]; exact hanswered
  | done msg m log hlog hanswered => rw [hlog]; exact hanswered

/-- Nothing is sent while a request is open. -/
theorem inflight_of_sending (h : Exchange g s) (harm : s.arm.Sending) : s.inflight = [] := by
  cases h with
  | closed hinflight hlog => exact hinflight
  | waiting msg log hlog hanswered hincoming hrequests hno => exact absurd harm hno
  | done msg m log hlog hanswered hmem hincoming hrequests hno => exact absurd harm hno

/-- What has nothing to do with the request. -/
theorem frame (h : Exchange g s) (hlog : t.log = s.log) (hmem : t.mem = s.mem)
    (hincoming : t.incoming.filter isProperty = s.incoming.filter isProperty)
    (hrequests : t.accepted ++ t.outgoing = s.accepted ++ s.outgoing)
    (harm : t.arm.Sending → s.arm.Sending ∨ s.inflight = []) : Exchange g t := by
  have hinflight : t.inflight = s.inflight := by
    simp only [Link.inflight, List.append_assoc, hincoming, hrequests]
  by_cases hopen : s.inflight = []
  · exact .closed (hinflight.trans hopen) (hlog ▸ h.answered)
  have hsending : ¬t.arm.Sending := by
    intro hsend
    rcases harm hsend with hsend | hnone
    · exact hopen (h.inflight_of_sending hsend)
    · exact hopen hnone
  cases h with
  | closed hnone _ => exact absurd hnone hopen
  | waiting msg log hlog' hanswered hincoming' hrequests' _ =>
    exact .waiting msg log (by rw [hlog, hlog', hmem]) hanswered (hincoming.trans hincoming')
      (hrequests.trans hrequests') hsending
  | done msg m log hlog' hanswered hmem' hincoming' hrequests' _ =>
    exact .done msg m log (hlog.trans hlog') hanswered (hmem.trans hmem') (hincoming.trans hincoming')
      (hrequests.trans hrequests') hsending

/-- The request is written: there is room for it. -/
theorem write (h : Exchange g s) {channel data : Word} (harm : s.arm = .sendWrite channel data) :
    Exchange g ((s.write g (data ||| channel)).ret .success) ∧
      ((s.write g (data ||| channel)).ret .success).lost = s.lost := by
  have hinflight := h.inflight_of_sending (by rw [harm]; trivial)
  obtain ⟨hrest, houtgoing⟩ := List.append_eq_nil_iff.mp hinflight
  obtain ⟨hincoming, haccepted⟩ := List.append_eq_nil_iff.mp hrest
  have hroom : s.outgoing.length < g.depth := by
    rw [houtgoing]
    exact g.depth_pos
  rw [Link.write, if_pos hroom]
  refine ⟨.waiting (data ||| channel) s.log rfl h.answered hincoming ?_ id, rfl⟩
  simp only [Link.ret, haccepted, houtgoing, List.nil_append]

/-- A message of the property channel is the answer. -/
theorem got (h : Exchange g s) {msg : Word} {incoming : List Word} (hincoming : s.incoming = msg :: incoming)
    (hmsg : isProperty msg) :
    Exchange g ({ s with incoming, log := .got (msg >>> 4) s.mem :: s.log }.ret .success) := by
  have hfilter : s.incoming.filter isProperty = msg :: incoming.filter isProperty := by
    rw [hincoming, List.filter_cons_of_pos hmsg]
  cases h with
  | closed hinflight _ =>
    rw [Link.inflight, hfilter] at hinflight
    cases hinflight
  | waiting msg' log hlog hanswered hnone _ _ =>
    rw [hfilter] at hnone
    cases hnone
  | done msg' m log hlog hanswered hmem hone hrequests _ =>
    rw [hfilter] at hone
    obtain ⟨rfl, hrest⟩ := List.cons.inj hone
    refine .closed ?_ ⟨⟨msg, m, log, hlog, rfl, hmem⟩, ?_⟩
    · simp only [Link.ret, Link.inflight, hrest, List.append_assoc, hrequests, List.append_nil]
    · rw [hlog]
      exact hanswered

theorem armStep (h : Exchange g s) (ho : s.Orderly) :
    Exchange g (s.armStep g) ∧ (s.armStep g).lost = s.lost := by
  have hproperty := ho.property
  have hmove := Link.armStep_cases g ho.reads
  generalize s.armStep g = t at *
  cases hmove with
  | look arm returned _ hsending _ => exact ⟨h.frame rfl rfl rfl rfl fun hsend => .inl (hsending hsend), rfl⟩
  | write channel data harm => exact h.write harm
  | got channel startTime nSkipped msg incoming harm hincoming hmsg =>
    rw [harm] at hproperty
    exact ⟨h.got hincoming (isProperty_of_eq hproperty hmsg), rfl⟩
  | skip channel startTime nSkipped msg incoming harm hincoming hmsg =>
    rw [harm] at hproperty
    refine ⟨h.frame rfl rfl ?_ rfl False.elim, rfl⟩
    rw [hincoming, List.filter_cons_of_neg (not_isProperty_of_ne hproperty hmsg)]

/-- The graphics processor answers: the request was waiting. -/
theorem answer (h : Exchange g s) (ho : s.Orderly) {msg : Word} {accepted : List Word}
    (haccepted : s.accepted = msg :: accepted) :
    Exchange g { s with accepted, mem := g.serve msg s.mem, incoming := s.incoming ++ [msg] } := by
  have hmsg : isProperty msg := ho.requests msg (by simp [haccepted])
  cases h with
  | closed hinflight _ =>
    rw [Link.inflight, haccepted] at hinflight
    simp at hinflight
  | waiting msg' log hlog hanswered hincoming hrequests harm =>
    rw [haccepted, List.cons_append] at hrequests
    obtain ⟨rfl, hnone⟩ := List.cons.inj hrequests
    refine .done msg s.mem log hlog hanswered rfl ?_ hnone harm
    simp only [List.filter_append, hincoming, List.filter_cons_of_pos hmsg, List.filter_nil, List.nil_append]
  | done msg' m log hlog hanswered hmem hincoming hrequests _ =>
    rw [haccepted] at hrequests
    cases hrequests

theorem step (h : Exchange g s) (ho : s.Orderly) {e : Event} (he : Patient 0 s e) :
    Exchange g (s.step g e) ∧ (s.step g e).lost = s.lost := by
  have hclosed : s.opened ≤ 0 → s.inflight = [] := by
    intro hopen
    rw [ho.opened_eq] at hopen
    exact List.eq_nil_of_length_eq_zero (Nat.le_zero.mp hopen)
  cases e with
  | store mem =>
    simp only [Link.step]
    split
    · next hidle => exact ⟨.closed (hclosed (he hidle)) h.answered, rfl⟩
    · exact ⟨h, rfl⟩
  | send channel data =>
    simp only [Link.step, Link.postmanSend]
    split
    · next hidle =>
      have hnone := hclosed (he.2 hidle)
      split
      · exact ⟨h.frame rfl rfl rfl rfl False.elim, rfl⟩
      · exact ⟨h.frame rfl rfl rfl rfl fun _ => .inr hnone, rfl⟩
    · exact ⟨h, rfl⟩
  | recv channel =>
    simp only [Link.step, Link.postmanRecv]
    split
    · split
      · exact ⟨h.frame rfl rfl rfl rfl False.elim, rfl⟩
      · exact ⟨h.frame rfl rfl rfl rfl False.elim, rfl⟩
    · exact ⟨h, rfl⟩
  | arm => exact h.armStep ho
  | take =>
    simp only [Link.step]
    cases houtgoing : s.outgoing with
    | nil => exact ⟨h, rfl⟩
    | cons msg outgoing =>
      simp only [(ho.take houtgoing).1, if_true]
      refine ⟨h.frame rfl rfl rfl ?_ .inl, trivial⟩
      rw [houtgoing]
      exact (List.append_cons ..).symm
  | answer =>
    simp only [Link.step]
    cases haccepted : s.accepted with
    | nil => exact ⟨h, rfl⟩
    | cons msg accepted =>
      dsimp only
      split
      · exact ⟨h.answer ho haccepted, rfl⟩
      · exact ⟨h, rfl⟩
  | other msg =>
    simp only [Link.step]
    split
    · next hother =>
      refine ⟨h.frame rfl rfl ?_ rfl .inl, rfl⟩
      simp only [List.filter_append, List.filter_cons_of_neg hother.1, List.filter_nil, List.append_nil]
    · exact ⟨h, rfl⟩
  | tick d => exact ⟨h.frame rfl rfl rfl rfl .inl, rfl⟩

end Exchange

/-- **Every answer belongs to the request before it**, and no request is lost, in every run in
which the caller sends only when nothing is open, as it is when every `postman_recv` so far has
succeeded.  One open request is too many: its late answer is taken for that of the next. -/
theorem exchange_answered_iff (k : ℕ) :
    (∀ (g : Gpu) (mem : Mem) (clock : Word) (es : List Event),
      Along (Link.step g) (Patient k) (.boot mem clock) es →
        let s := es.foldl (Link.step g) (.boot mem clock)
        Answered g s.log ∧ s.lost = []) ↔ k = 0 := by
  constructor
  · intro h
    by_contra hk
    -- the second request is sent after the first has timed out
    let es : List Event :=
      [.send 8 0x10, .arm, .arm, .recv 8, .arm, .tick 500001, .arm,
        .send 8 0x20, .arm, .arm, .take, .answer, .recv 8, .arm, .arm]
    have hpatient : Along (Link.step echo) (Patient k) (.boot (fun _ => 0) 0) es := by
      have hone : 1 ≤ k := Nat.one_le_iff_ne_zero.mpr hk
      exact ⟨⟨rfl, fun _ => Nat.zero_le k⟩, trivial, trivial, rfl, trivial, trivial, trivial,
        ⟨rfl, fun _ => hone⟩, trivial, trivial, trivial, trivial, rfl, trivial, trivial, trivial⟩
    obtain ⟨⟨⟨msg, m, rest, hlog, hdata, -⟩, -⟩, -⟩ := h _ _ _ es hpatient
    cases hlog
    exact absurd hdata (by decide)
  · rintro rfl g mem clock es hes
    have hrun := hes.invariant (I := fun s => s.Orderly ∧ Exchange g s ∧ s.lost = [])
      (fun s e hs he => ⟨hs.1.step he.onProperty, (hs.2.1.step hs.1 he).1,
        ((hs.2.1.step hs.1 he).2).trans hs.2.2⟩)
      ⟨.boot mem clock, .closed rfl trivial, rfl⟩
    exact ⟨hrun.2.1.answered, hrun.2.2⟩

/-! ## The wrong flag -/

/-- While `postman_send` is in progress, few requests are open. -/
structure Link.Roomy (k : ℕ) (s : Link) : Prop where
  orderly : s.Orderly
  sending : s.arm.Sending → s.inflight.length ≤ k
  lost : s.lost = []

namespace Link.Roomy
variable {g : Gpu} {k : ℕ} {s t : Link}

/-- The number of open requests does not grow while `postman_send` waits. -/
theorem frame (h : s.Roomy k) (ho : t.Orderly) (harm : t.arm.Sending → s.arm.Sending)
    (hinflight : t.inflight.length ≤ s.inflight.length) (hlost : t.lost = s.lost) : t.Roomy k :=
  ⟨ho, fun hsend => hinflight.trans (h.sending (harm hsend)), hlost.trans h.lost⟩

theorem armStep (h : s.Roomy k) (hk : k < g.depth) : (s.armStep g).Roomy k := by
  have ho : (s.armStep g).Orderly := h.orderly.armStep
  have hmove := Link.armStep_cases g h.orderly.reads
  generalize s.armStep g = t at *
  cases hmove with
  | look arm returned _ hsending _ => exact h.frame ho hsending le_rfl rfl
  | write channel data harm =>
    have hfew := h.sending (by rw [harm]; trivial)
    have hroom : s.outgoing.length < g.depth := by
      rw [Link.inflight, List.length_append] at hfew
      omega
    refine ⟨ho, False.elim, ?_⟩
    rw [Link.write, if_pos hroom]
    exact h.lost
  | got channel startTime nSkipped msg incoming harm hincoming hmsg => exact ⟨ho, False.elim, h.lost⟩
  | skip channel startTime nSkipped msg incoming harm hincoming hmsg => exact ⟨ho, False.elim, h.lost⟩

theorem step (h : s.Roomy k) (hk : k < g.depth) {e : Event} (he : Patient k s e) : (s.step g e).Roomy k := by
  have ho : (s.step g e).Orderly := h.orderly.step he.onProperty
  cases e with
  | store mem =>
    simp only [Link.step] at ho ⊢
    split
    · next hidle =>
      rw [if_pos hidle] at ho
      exact h.frame ho id le_rfl rfl
    · exact h
  | send channel data =>
    simp only [Link.step] at ho ⊢
    split
    · next hidle =>
      have hfew := he.2 hidle
      rw [h.orderly.opened_eq] at hfew
      rw [if_pos hidle] at ho
      refine ⟨ho, fun _ => ?_, ?_⟩ <;> rw [Link.postmanSend] <;> split
      · exact hfew
      · exact hfew
      · exact h.lost
      · exact h.lost
    · exact h
  | recv channel =>
    simp only [Link.step] at ho ⊢
    split
    · next hidle =>
      rw [if_pos hidle] at ho
      refine ⟨ho, ?_, ?_⟩ <;> rw [Link.postmanRecv] <;> split
      · exact False.elim
      · exact False.elim
      · exact h.lost
      · exact h.lost
    · exact h
  | arm => exact h.armStep hk
  | take =>
    simp only [Link.step] at ho ⊢
    cases houtgoing : s.outgoing with
    | nil => exact h
    | cons msg outgoing =>
      rw [houtgoing] at ho
      simp only [(h.orderly.take houtgoing).1, if_true] at ho ⊢
      refine h.frame ho id ?_ rfl
      simp only [Link.inflight, houtgoing, List.length_append, List.length_cons, List.length_nil]
      omega
  | answer =>
    simp only [Link.step] at ho ⊢
    cases haccepted : s.accepted with
    | nil => exact h
    | cons msg accepted =>
      have hmsg : isProperty msg := h.orderly.requests msg (by simp [haccepted])
      rw [haccepted] at ho
      dsimp only at ho ⊢
      split
      · next hroom =>
        rw [if_pos hroom] at ho
        refine h.frame ho id ?_ rfl
        simp only [Link.inflight, haccepted, List.filter_append, List.filter_cons_of_pos hmsg, List.filter_nil,
          List.length_append, List.length_cons, List.length_nil]
        omega
      · exact h
  | other msg =>
    simp only [Link.step] at ho ⊢
    split
    · next hother =>
      rw [if_pos hother] at ho
      refine h.frame ho id ?_ rfl
      simp only [Link.inflight, List.filter_append, List.filter_cons_of_neg hother.1, List.filter_nil,
        List.append_nil]
      exact le_rfl
    · exact h
  | tick d => exact h.frame ho id le_rfl rfl

end Link.Roomy

section Burst
variable (g : Gpu) (mem : Mem) (clock : Word)

/-- A caller that only sends. -/
def burst (n : ℕ) : List Event := (List.replicate n [.send propertyChannel 0, .arm, .arm]).flatten

/-- The state after a burst that the graphics processor has not looked at. -/
def burstState (n : ℕ) : Link :=
  { Link.boot mem clock with
    outgoing := List.replicate n propertyChannel
    log := List.replicate n (.sent propertyChannel mem)
    returned := List.replicate n (.success, 0) }

theorem burst_succ (n : ℕ) : burst (n + 1) = burst n ++ ([.send propertyChannel 0, .arm, .arm] : List Event) := by
  rw [burst, List.replicate_succ', List.flatten_append]
  rfl

theorem opened_burstState (n : ℕ) : (burstState mem clock n).opened = n := by
  induction n with
  | zero => rfl
  | succ n ih =>
    have hgot : ∀ n, gotData (burstState mem clock n).log = [] := by
      intro n
      induction n with
      | zero => rfl
      | succ n ih => exact ih
    rw [Link.opened, hgot] at ih ⊢
    have hsent : sentData (burstState mem clock (n + 1)).log =
        sentData (burstState mem clock n).log ++ [dataOf propertyChannel] := rfl
    rw [hsent, List.length_append]
    exact congrArg (· + 1) ih

theorem burst_write (n : ℕ) :
    [.send propertyChannel 0, .arm, .arm].foldl (Link.step g) (burstState mem clock n) =
      ((burstState mem clock n).write g propertyChannel).ret .success := by
  have hroom : ¬g.depth ≤ ([] : List Word).length := Nat.not_le.mpr g.depth_pos
  have hbegin : (burstState mem clock n).step g (.send propertyChannel 0) =
      { burstState mem clock n with arm := .sendPoll propertyChannel 0 clock } := rfl
  have hpoll : { burstState mem clock n with arm := .sendPoll propertyChannel 0 clock }.step g .arm =
      { burstState mem clock n with arm := .sendWrite propertyChannel 0 } :=
    if_neg (mt (full_flag g _).mp hroom)
  rw [List.foldl_cons, List.foldl_cons, List.foldl_cons, List.foldl_nil, hbegin, hpoll]
  simp only [Link.step, Link.armStep, Link.write]
  split
  · rfl
  · rfl

theorem foldl_burst (n : ℕ) (hn : n ≤ g.depth) :
    (burst n).foldl (Link.step g) (.boot mem clock) = burstState mem clock n := by
  induction n with
  | zero => rfl
  | succ n ih =>
    rw [burst_succ, List.foldl_append, ih (by omega), burst_write, Link.write,
      if_pos (by simpa [burstState] using Nat.lt_of_succ_le hn)]
    simp only [Link.ret, burstState, ← List.replicate_succ']
    rfl

theorem patient_burst {k : ℕ} (n : ℕ) (hn : n ≤ g.depth + 1) (hk : n ≤ k + 1) :
    Along (Link.step g) (Patient k) (.boot mem clock) (burst n) := by
  induction n with
  | zero => trivial
  | succ n ih =>
    rw [burst_succ, along_append, foldl_burst g mem clock n (by omega)]
    refine ⟨ih (by omega) (by omega), ⟨rfl, fun _ => ?_⟩, trivial, trivial, trivial⟩
    rw [opened_burstState]
    omega

end Burst

/-- **The full flag of mailbox 0 says nothing about mailbox 1**: what keeps a request from being
lost is that fewer than the mailbox can hold are open when the next is sent. -/
theorem nothing_lost_iff (g : Gpu) (k : ℕ) :
    (∀ (mem : Mem) (clock : Word) (es : List Event),
      Along (Link.step g) (Patient k) (.boot mem clock) es →
        (es.foldl (Link.step g) (.boot mem clock)).lost = []) ↔ k < g.depth := by
  constructor
  · intro h
    by_contra hk
    have hlost := h (fun _ => 0) 0 (burst (g.depth + 1)) (patient_burst g _ 0 _ le_rfl (by omega))
    rw [burst_succ, List.foldl_append, foldl_burst g _ 0 _ le_rfl, burst_write, Link.write,
      if_neg (by simp [burstState])] at hlost
    cases hlost
  · intro hk mem clock es hes
    exact (hes.invariant (I := Link.Roomy k) (fun s e hs he => hs.step hk he)
      ⟨.boot mem clock, False.elim, rfl⟩).lost

end Pigfx.Mailbox
