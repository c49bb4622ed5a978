import Mathlib.Data.List.Induction
import Pigfx.Lib.Loop
import Pigfx.Lib.Memory

/-!
# The mailboxes

The processor sends the addresses of its requests over one mailbox, and the graphics processor
sends them back over another when it has answered.  `postman_send` and `postman_recv` poll a
status register; the graphics processor goes on in between, and the clock as well.

Both functions look at the status of mailbox 0, which the graphics processor fills.  Messages
are written to mailbox 1.

## Main definitions

* `Arm`, `Link.armStep` — the code, one access at a time.
* `Link`, `Link.step` — the two parties with the messages in flight.
* `ArmMove` — what an access can do.
* `Link.Orderly` — the requests that are open are on their way.
-/

namespace Pigfx.Mailbox
open Lib

/-! ## The code -/

/-- `POSTMAN_RETURN_TYPE` -/
inductive PostmanReturn
  | success
  | sendTimeout
  | recvTimeout
  | badData
  | tooManyMsg
  deriving DecidableEq, Repr

abbrev MAILBOX_WAIT_TIMEOUT : Word := 500000
abbrev MAILBOX_MAX_MSG_TO_SKIP : Word := 20

abbrev Mem := Word → Word

/-- What the processor does next. -/
inductive Arm
  /-- no call is in progress -/
  | idle
  /-- `while( *MAILBOX0STATUS & 0x80000000 )` -/
  | sendPoll (channel data startTime : Word)
  /-- the mailbox is full: a look at the clock -/
  | sendWait (channel data startTime : Word)
  /-- `*MAILBOX0WRITE = data|channel` -/
  | sendWrite (channel data : Word)
  /-- `while( *MAILBOX0STATUS & 0x40000000 )` -/
  | recvPoll (channel startTime nSkipped : Word)
  /-- the mailbox is empty: a look at the clock -/
  | recvWait (channel startTime nSkipped : Word)
  /-- `msg = *MAILBOX0READ` -/
  | recvRead (channel startTime nSkipped : Word)
  /-- the message was for another channel: a look at the clock -/
  | recvSkip (channel startTime nSkipped : Word)

/-- What has been done over the mailboxes, with the memory at that time. -/
inductive Transfer
  | sent (msg : Word) (mem : Mem)
  | got (data : Word) (mem : Mem)

/-- The graphics processor: the size of the mailboxes, and how it answers the request that a
message stands for. -/
structure Gpu where
  depth : ℕ
  depth_pos : 0 < depth
  serve : Word → Mem → Mem

/-- The two parties with the messages in flight, and what has happened, the newest first. -/
structure Link where
  /-- mailbox 0 -/
  incoming : List Word
  /-- mailbox 1 -/
  outgoing : List Word
  /-- the requests that the graphics processor has taken -/
  accepted : List Word
  mem : Mem
  clock : Word
  arm : Arm
  log : List Transfer
  /-- the messages that found mailbox 1 full -/
  lost : List Word
  /-- readings of an empty mailbox -/
  underruns : ℕ
  /-- what the calls have returned, and how long they took -/
  returned : List (PostmanReturn × ℕ)
  /-- the time since the call began -/
  elapsed : ℕ

/-- What can happen, in any order. -/
inductive Event
  /-- the caller writes to memory -/
  | store (mem : Mem)
  /-- `postman_send` is called -/
  | send (channel data : Word)
  /-- `postman_recv` is called -/
  | recv (channel : Word)
  /-- the next access of the call in progress -/
  | arm
  /-- the graphics processor takes a message -/
  | take
  /-- the graphics processor answers the oldest request -/
  | answer
  /-- the graphics processor sends a message of another channel -/
  | other (msg : Word)
  /-- time passes -/
  | tick (d : Word)

/-- The property channel. -/
abbrev propertyChannel : Word := 8

def isProperty (msg : Word) : Bool := msg &&& 0xF = propertyChannel

section Code
variable (g : Gpu)

namespace Link

/-- `*MAILBOX0STATUS` -/
def mailbox0Status (s : Link) : Word :=
  (if s.incoming = [] then 0x40000000 else 0) ||| (if g.depth ≤ s.incoming.length then 0x80000000 else 0)

/-- The call returns. -/
def ret (r : PostmanReturn) (s : Link) : Link :=
  { s with arm := .idle, returned := (r, s.elapsed) :: s.returned }

/-- `*MAILBOX0WRITE = msg` -/
def write (msg : Word) (s : Link) : Link :=
  if s.outgoing.length < g.depth then
    { s with outgoing := s.outgoing ++ [msg], log := .sent msg s.mem :: s.log }
  else { s with lost := msg :: s.lost }

/-- The next access of the call in progress. -/
def armStep (s : Link) : Link :=
  match s.arm with
  | .idle => s
  | .sendPoll channel data startTime =>
      if s.mailbox0Status g &&& 0x80000000 ≠ 0 then { s with arm := .sendWait channel data startTime }
      else { s with arm := .sendWrite channel data }
  | .sendWait channel data startTime =>
      if s.clock - startTime > MAILBOX_WAIT_TIMEOUT then s.ret .sendTimeout
      else { s with arm := .sendPoll channel data startTime }
  | .sendWrite channel data => (s.write g (data ||| channel)).ret .success
  | .recvPoll channel startTime nSkipped =>
      if s.mailbox0Status g &&& 0x40000000 ≠ 0 then { s with arm := .recvWait channel startTime nSkipped }
      else { s with arm := .recvRead channel startTime nSkipped }
  | .recvWait channel startTime nSkipped =>
      if s.clock - startTime > MAILBOX_WAIT_TIMEOUT then s.ret .recvTimeout
      else { s with arm := .recvPoll channel startTime nSkipped }
  | .recvRead channel startTime nSkipped =>
      match s.incoming with
      | [] => { s with underruns := s.underruns + 1 }
      | msg :: incoming =>
          if msg &&& 0xF = channel &&& 0xF then
            { s with incoming, log := .got (msg >>> 4) s.mem :: s.log }.ret .success
          else { s with incoming, arm := .recvSkip channel startTime nSkipped }
  | .recvSkip channel startTime nSkipped =>
      if s.clock - startTime > MAILBOX_WAIT_TIMEOUT then s.ret .recvTimeout
      else if nSkipped + 1 < MAILBOX_MAX_MSG_TO_SKIP then
        { s with arm := .recvPoll channel startTime (nSkipped + 1) }
      else s.ret .tooManyMsg

/-- `postman_send` begins. -/
def postmanSend (channel data : Word) (s : Link) : Link :=
  let s := { s with elapsed := 0 }
  if data &&& 0xF ≠ 0 then s.ret .badData else { s with arm := .sendPoll channel data s.clock }

/-- `postman_recv` begins. -/
def postmanRecv (channel : Word) (s : Link) : Link :=
  let s := { s with elapsed := 0 }
  if channel > 0xF then s.ret .badData else { s with arm := .recvPoll channel s.clock 0 }

/-- No call is in progress. -/
def Idle (s : Link) : Prop := s.arm = .idle

instance (s : Link) : Decidable s.Idle :=
  match h : s.arm with
  | .idle => isTrue h
  | .sendPoll .. | .sendWait .. | .sendWrite .. | .recvPoll .. | .recvWait .. | .recvRead .. | .recvSkip .. =>
      isFalse fun hidle => by rw [Idle, h] at hidle; cases hidle

def step (s : Link) : Event → Link
  | .store mem => if s.Idle then { s with mem } else s
  | .send channel data => if s.Idle then s.postmanSend channel data else s
  | .recv channel => if s.Idle then s.postmanRecv channel else s
  | .arm => s.armStep g
  | .take =>
      match s.outgoing with
      | [] => s
      | msg :: outgoing =>
          if isProperty msg then { s with outgoing, accepted := s.accepted ++ [msg] } else { s with outgoing }
  | .answer =>
      match s.accepted with
      | [] => s
      | msg :: accepted =>
          if s.incoming.length < g.depth then
            { s with accepted, mem := g.serve msg s.mem, incoming := s.incoming ++ [msg] }
          else s
  | .other msg =>
      if ¬isProperty msg ∧ s.incoming.length < g.depth then { s with incoming := s.incoming ++ [msg] } else s
  | .tick d => { s with clock := s.clock + d, elapsed := s.elapsed + d.toNat }

/-- Nothing has been sent. -/
def boot (mem : Mem) (clock : Word) : Link := ⟨[], [], [], mem, clock, .idle, [], [], 0, [], 0⟩

end Link
end Code

/-! ## The order of the answers -/

/-- A message without its channel. -/
def dataOf (msg : Word) : Word := msg >>> 4

/-- What was sent, without the channel, the oldest first. -/
def sentData : List Transfer → List Word
  | [] => []
  | .sent msg _ :: log => sentData log ++ [dataOf msg]
  | .got .. :: log => sentData log

/-- What was handed out, the oldest first. -/
def gotData : List Transfer → List Word
  | [] => []
  | .sent .. :: log => gotData log
  | .got data _ :: log => gotData log ++ [data]

/-- The requests that have not been handed back, the oldest first. -/
def Link.inflight (s : Link) : List Word := s.incoming.filter isProperty ++ s.accepted ++ s.outgoing

/-- The calls are on the property channel, as all calls of the program are. -/
def Event.OnProperty : Event → Prop
  | .send channel _ | .recv channel => channel = propertyChannel
  | _ => True

/-- The call in progress is on the property channel. -/
def Arm.OnProperty : Arm → Prop
  | .idle => True
  | .sendPoll channel data _ | .sendWait channel data _ | .sendWrite channel data =>
      channel = propertyChannel ∧ data &&& 0xF = 0
  | .recvPoll channel .. | .recvWait channel .. | .recvRead channel .. | .recvSkip channel .. =>
      channel = propertyChannel

/-- `postman_send` is in progress. -/
def Arm.Sending : Arm → Prop
  | .sendPoll .. | .sendWait .. | .sendWrite .. => True
  | _ => False

/-- A message is read where there is one only. -/
def Link.Reads (s : Link) : Prop :=
  match s.arm with
  | .recvRead .. => s.incoming ≠ []
  | _ => True

structure Link.Orderly (s : Link) : Prop where
  property : s.arm.OnProperty
  requests : ∀ msg ∈ s.accepted ++ s.outgoing, isProperty msg
  order : sentData s.log = gotData s.log ++ s.inflight.map dataOf
  reads : s.Reads
  underruns : s.underruns = 0

section Messages

theorem isProperty_or {data : Word} (h : data &&& 0xF = 0) : isProperty (data ||| propertyChannel) := by
  have hor : (data ||| propertyChannel) &&& 0xF = (data &&& 0xF) ||| (propertyChannel &&& 0xF) :=
    BitVec.and_or_distrib_right
  rw [isProperty, hor, h]
  rfl

theorem isProperty_of_eq {msg channel : Word} (hchannel : channel = propertyChannel)
    (h : msg &&& 0xF = channel &&& 0xF) : isProperty msg := by
  rw [isProperty, h, hchannel]
  rfl

theorem not_isProperty_of_ne {msg channel : Word} (hchannel : channel = propertyChannel)
    (h : ¬msg &&& 0xF = channel &&& 0xF) : ¬isProperty msg := by
  rw [hchannel] at h
  simpa [isProperty] using h

/-- The bits of a status do not disturb each other. -/
theorem status_bits (p q : Prop) [Decidable p] [Decidable q] :
    let status : Word := (if p then 0x40000000 else 0) ||| (if q then 0x80000000 else 0)
    (status &&& 0x40000000 ≠ 0 ↔ p) ∧ (status &&& 0x80000000 ≠ 0 ↔ q) := by
  by_cases hp : p <;> by_cases hq : q <;> simp [hp, hq]

theorem empty_flag (g : Gpu) (s : Link) : s.mailbox0Status g &&& 0x40000000 ≠ 0 ↔ s.incoming = [] :=
  (status_bits _ _).1

theorem full_flag (g : Gpu) (s : Link) :
    s.mailbox0Status g &&& 0x80000000 ≠ 0 ↔ g.depth ≤ s.incoming.length :=
  (status_bits _ _).2

end Messages

/-- What an access can do: it looks at the status or at the clock, it writes, or it reads. -/
inductive ArmMove (g : Gpu) (s : Link) : Link → Prop
  | look (arm : Arm) (returned : List (PostmanReturn × ℕ)) (hproperty : s.arm.OnProperty → arm.OnProperty)
      (hsending : arm.Sending → s.arm.Sending) (hreads : { s with arm, returned }.Reads) :
      ArmMove g s { s with arm, returned }
  | write (channel data : Word) (harm : s.arm = .sendWrite channel data) :
      ArmMove g s ((s.write g (data ||| channel)).ret .success)
  | got (channel startTime nSkipped msg : Word) (incoming : List Word)
      (harm : s.arm = .recvRead channel startTime nSkipped) (hincoming : s.incoming = msg :: incoming)
      (hmsg : msg &&& 0xF = channel &&& 0xF) :
      ArmMove g s ({ s with incoming, log := .got (msg >>> 4) s.mem :: s.log }.ret .success)
  | skip (channel startTime nSkipped msg : Word) (incoming : List Word)
      (harm : s.arm = .recvRead channel startTime nSkipped) (hincoming : s.incoming = msg :: incoming)
      (hmsg : ¬msg &&& 0xF = channel &&& 0xF) :
      ArmMove g s { s with incoming, arm := .recvSkip channel startTime nSkipped }

theorem Link.armStep_cases (g : Gpu) {s : Link} (h : s.Reads) : ArmMove g s (s.armStep g) := by
  cases harm : s.arm with
  | idle =>
    simp only [Link.armStep, harm]
    exact .look s.arm s.returned id id h
  | sendPoll channel data startTime =>
    simp only [Link.armStep, harm]
    split
    · exact .look _ _ (by rw [harm]; exact id) (by rw [harm]; exact id) trivial
    · exact .look _ _ (by rw [harm]; exact id) (by rw [harm]; exact id) trivial
  | sendWait channel data startTime =>
    simp only [Link.armStep, harm]
    split
    · exact .look _ _ (fun _ => trivial) False.elim trivial
    · exact .look _ _ (by rw [harm]; exact id) (by rw [harm]; exact id) trivial
  | sendWrite channel data =>
    simp only [Link.armStep, harm]
    exact .write channel data harm
  | recvPoll channel startTime nSkipped =>
    simp only [Link.armStep, harm]
    split
    · exact .look _ _ (by rw [harm]; exact id) False.elim trivial
    · next hstatus =>
      exact .look _ _ (by rw [harm]; exact id) False.elim fun hempty => hstatus ((empty_flag g s).mpr hempty)
  | recvWait channel startTime nSkipped =>
    simp only [Link.armStep, harm]
    split
    · exact .look _ _ (fun _ => trivial) False.elim trivial
    · exact .look _ _ (by rw [harm]; exact id) False.elim trivial
  | recvRead channel startTime nSkipped =>
    cases hincoming : s.incoming with
    | nil =>
      rw [Link.Reads, harm] at h
      exact absurd hincoming h
    | cons msg incoming =>
      simp only [Link.armStep, harm, hincoming]
      split
      · next hmsg => exact .got channel startTime nSkipped msg incoming harm hincoming hmsg
      · next hmsg => exact .skip channel startTime nSkipped msg incoming harm hincoming hmsg
  | recvSkip channel startTime nSkipped =>
    simp only [Link.armStep, harm]
    split
    · exact .look _ _ (fun _ => trivial) False.elim trivial
    · split
      · exact .look _ _ (by rw [harm]; exact id) False.elim trivial
      · exact .look _ _ (fun _ => trivial) False.elim trivial

namespace Link.Orderly
variable {g : Gpu} {s : Link}

/-- The call goes on, or returns. -/
theorem goOn (h : s.Orderly) {arm : Arm} (harm : arm.OnProperty) (hreads : { s with arm }.Reads) :
    { s with arm }.Orderly :=
  ⟨harm, h.requests, h.order, hreads, h.underruns⟩

theorem ret (h : s.Orderly) (r : PostmanReturn) : (s.ret r).Orderly :=
  ⟨trivial, h.requests, h.order, trivial, h.underruns⟩

theorem write (h : s.Orderly) {data : Word} (hdata : data &&& 0xF = 0) :
    (s.write g (data ||| propertyChannel)).Orderly := by
  rw [Link.write]
  split
  · refine ⟨h.property, ?_, ?_, h.reads, h.underruns⟩
    · intro msg hmsg
      rw [← List.append_assoc] at hmsg
      rcases List.mem_append.mp hmsg with hmsg | hmsg
      · exact h.requests msg hmsg
      · rw [List.mem_singleton.mp hmsg]
        exact isProperty_or hdata
    · simp only [sentData, gotData, h.order, Link.inflight, List.map_append, List.map_cons, List.map_nil,
        List.append_assoc]
  · exact ⟨h.property, h.requests, h.order, h.reads, h.underruns⟩

theorem armStep (h : s.Orderly) : (s.armStep g).Orderly := by
  have hproperty := h.property
  have horder := h.order
  have hmove := Link.armStep_cases g h.reads
  generalize s.armStep g = t at *
  cases hmove with
  | look arm returned hproperty' hsending hreads =>
    exact ⟨hproperty' hproperty, h.requests, horder, hreads, h.underruns⟩
  | write channel data harm =>
    rw [harm] at hproperty
    obtain ⟨rfl, hdata⟩ := hproperty
    exact (h.write hdata).ret _
  | got channel startTime nSkipped msg incoming harm hincoming hmsg =>
    rw [harm] at hproperty
    rw [Link.inflight, hincoming, List.filter_cons_of_pos (isProperty_of_eq hproperty hmsg)] at horder
    refine ⟨trivial, h.requests, ?_, trivial, h.underruns⟩
    simp only [Link.ret, Link.inflight, sentData, gotData, horder, dataOf, List.map_cons, List.cons_append,
      List.append_assoc, List.nil_append]
  | skip channel startTime nSkipped msg incoming harm hincoming hmsg =>
    rw [harm] at hproperty
    rw [Link.inflight, hincoming, List.filter_cons_of_neg (not_isProperty_of_ne hproperty hmsg)] at horder
    exact ⟨hproperty, h.requests, horder, trivial, h.underruns⟩

/-- A message is put into mailbox 0. -/
theorem reads_append (s : Link) (msg : Word) (accepted : List Word) (mem : Mem) :
    { s with accepted, mem, incoming := s.incoming ++ [msg] }.Reads := by
  simp only [Link.Reads]
  cases s.arm <;> simp

theorem answer (h : s.Orderly) {msg : Word} {accepted : List Word} (haccepted : s.accepted = msg :: accepted)
    (mem : Mem) : { s with accepted, mem, incoming := s.incoming ++ [msg] }.Orderly := by
  have hrequests := h.requests
  have horder := h.order
  rw [haccepted] at hrequests
  rw [Link.inflight, haccepted] at horder
  refine ⟨h.property, fun m hm => hrequests m (List.mem_cons_of_mem _ hm), ?_,
    reads_append s msg accepted mem, h.underruns⟩
  simp only [Link.inflight, List.filter_append, List.filter_cons_of_pos (hrequests msg List.mem_cons_self),
    List.filter_nil, horder, List.append_assoc, List.cons_append, List.nil_append]

theorem other (h : s.Orderly) {msg : Word} (hmsg : ¬isProperty msg) :
    { s with incoming := s.incoming ++ [msg] }.Orderly := by
  refine ⟨h.property, h.requests, ?_, reads_append s msg s.accepted s.mem, h.underruns⟩
  have horder := h.order
  simp only [Link.inflight, List.filter_append, List.filter_cons_of_neg hmsg, List.filter_nil,
    List.append_nil] at horder ⊢
  exact horder

theorem take (h : s.Orderly) {msg : Word} {outgoing : List Word} (houtgoing : s.outgoing = msg :: outgoing) :
    isProperty msg ∧ { s with outgoing, accepted := s.accepted ++ [msg] }.Orderly := by
  have hrequests := h.requests
  have horder := h.order
  rw [houtgoing] at hrequests
  rw [Link.inflight, houtgoing] at horder
  have happend : s.accepted ++ [msg] ++ outgoing = s.accepted ++ msg :: outgoing := (List.append_cons ..).symm
  refine ⟨hrequests msg (by simp), h.property, ?_, ?_, h.reads, h.underruns⟩
  · rwa [happend]
  · rw [List.append_assoc] at horder
    rw [Link.inflight, List.append_assoc, happend]
    exact horder

theorem postmanSend (h : s.Orderly) (data : Word) : (s.postmanSend propertyChannel data).Orderly := by
  have hbegin : { s with elapsed := 0 }.Orderly := ⟨h.property, h.requests, h.order, h.reads, h.underruns⟩
  rw [Link.postmanSend]
  split
  · exact hbegin.ret _
  · next hdata => exact hbegin.goOn ⟨rfl, not_not.mp hdata⟩ trivial

theorem postmanRecv (h : s.Orderly) : (s.postmanRecv propertyChannel).Orderly := by
  have hbegin : { s with elapsed := 0 }.Orderly := ⟨h.property, h.requests, h.order, h.reads, h.underruns⟩
  rw [Link.postmanRecv]
  split
  · exact hbegin.ret _
  · exact hbegin.goOn rfl trivial

theorem step (h : s.Orderly) {e : Event} (he : e.OnProperty) : (s.step g e).Orderly := by
  cases e with
  | store mem =>
    simp only [Link.step]
    split
    · exact ⟨h.property, h.requests, h.order, h.reads, h.underruns⟩
    · exact h
  | send channel data =>
    cases he
    simp only [Link.step]
    split
    · exact h.postmanSend data
    · exact h
  | recv channel =>
    cases he
    simp only [Link.step]
    split
    · exact h.postmanRecv
    · exact h
  | arm => exact h.armStep
  | take =>
    simp only [Link.step]
    cases houtgoing : s.outgoing with
    | nil => exact h
    | cons msg outgoing =>
      obtain ⟨hmsg, htaken⟩ := h.take houtgoing
      simp only [hmsg, if_true]
      exact htaken
  | answer =>
    simp only [Link.step]
    cases haccepted : s.accepted with
    | nil => exact h
    | cons msg accepted =>
      dsimp only
      split
      · exact h.answer haccepted _
      · exact h
  | other msg =>
    simp only [Link.step]
    split
    · next hother => exact h.other hother.1
    · exact h
  | tick d => exact ⟨h.property, h.requests, h.order, h.reads, h.underruns⟩

theorem boot (mem : Mem) (clock : Word) : (Link.boot mem clock).Orderly := ⟨trivial, nofun, rfl, trivial, rfl⟩

theorem run (g : Gpu) (mem : Mem) (clock : Word) (es : List Event) (hes : ∀ e ∈ es, e.OnProperty) :
    (es.foldl (Link.step g) (.boot mem clock)).Orderly := by
  induction es using List.reverseRecOn with
  | nil => exact .boot mem clock
  | append_singleton es e ih =>
    rw [List.foldl_append]
    exact (ih fun e' he' => hes e' (List.mem_append_left _ he')).step (hes e (by simp))

end Link.Orderly

/-- A graphics processor that sends every request back as it is. -/
def echo : Gpu := ⟨8, by decide, fun _ mem => mem⟩

end Pigfx.Mailbox
