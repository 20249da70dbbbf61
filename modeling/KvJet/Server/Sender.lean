import KvJet.Bytes
import KvJet.Lib.Framing
import KvJet.Lib.Run

/-!
# What goes out on a connection

The workers queue their replies, the migration its requests and Raft its messages, each with the
descriptor it is for. `epoll_step` takes them from the queue one by one and calls `send`, which
calls `::send` until the whole message is written.

But the sockets do not block: `::send` writes what there is room for and then answers `EAGAIN`.
`send` breaks out of its loop at that, its caller does not look at how much was sent, and the
message is off the queue already. So its rest is lost, and the next message is written behind its
first part (`rest_of_reply_lost`). Nothing else can come between: the bytes of a connection are
in order for as long as the system takes none behind a message it has refused the rest of, and no
longer (`outgoing_intact`).
-/

namespace KvJet
namespace Server

open Run Framing

/-- `errno`, as far as `send` tells it apart. -/
inductive Errno where
  | EINTR
  | EBADF
  | EAGAIN
  | EWOULDBLOCK
  | other
deriving DecidableEq, Repr

/-- What `::send` returns. The system writes no more bytes than it is given. -/
inductive SendResult where
  | wrote (n : Nat)
  | failed (errno : Errno)
deriving DecidableEq, Repr

/-- How a call of `send` ends. -/
inductive SendEnd where
  | returns
  /-- `::send` has returned 0, and the connection is erased. -/
  | closes
  | throws
  /-- There are no more results: `::send` has not come back. -/
  | waits
deriving DecidableEq, Repr

/-- The loop of `send`. The number is that of the bytes sent. -/
def sendLoop : List SendResult → Nat → Nat → SendEnd × Nat
  | [], remaining, sent => (if remaining = 0 then .returns else .waits, sent)
  | result :: results, remaining, sent =>
    if remaining = 0 then (.returns, sent)
    else
      match result with
      | .wrote 0 => (.closes, sent)
      | .wrote (n + 1) =>
        let n := min (n + 1) remaining
        sendLoop results (remaining - n) (sent + n)
      | .failed .EINTR => sendLoop results remaining sent
      | .failed .EBADF | .failed .EAGAIN | .failed .EWOULDBLOCK => (.returns, sent)
      | .failed .other => (.throws, sent)

/-- `SSIZE_MAX`. -/
def ssizeMax : Nat := 2 ^ 63 - 1

def send (str : Bytes) (results : List SendResult) : SendEnd × Nat :=
  if str.length > ssizeMax then (.throws, 0) else sendLoop results str.length 0

/-- A call of `send` for a connection, and what `::send` returned in it. -/
structure SendCall where
  fd : Int
  str : Bytes
  results : List SendResult
deriving DecidableEq, Repr

/-- The message and what the socket took of it. -/
def SendCall.cut (c : SendCall) : Cut UInt8 := ⟨c.str, (send c.str c.results).2⟩

/-! ## What the system answers

Any number of bytes, or one of the errors; the code tells these apart by `errno` alone. -/

/-- With `remaining` bytes to go, it comes to refuse the rest. -/
def refuses : List SendResult → Nat → Bool
  | [], _ => false
  | result :: results, remaining =>
    remaining != 0 &&
      match result with
      | .wrote n => n != 0 && refuses results (remaining - min n remaining)
      | .failed .EINTR => refuses results remaining
      | .failed .EBADF | .failed .EAGAIN | .failed .EWOULDBLOCK => true
      | .failed .other => false

/-- It takes a byte. -/
def accepts : List SendResult → Bool
  | .failed .EINTR :: results => accepts results
  | .wrote n :: _ => n != 0
  | _ => false

/-- The system refuses the rest of the message. -/
def SendCall.Refused (c : SendCall) : Prop :=
  c.str.length ≤ ssizeMax ∧ refuses c.results c.str.length = true

/-- The system takes a byte of the message. -/
def SendCall.Accepted (c : SendCall) : Prop :=
  c.str ≠ [] ∧ c.str.length ≤ ssizeMax ∧ accepts c.results = true

instance : DecidablePred SendCall.Refused := fun _ => inferInstanceAs (Decidable (_ ∧ _))

instance : DecidablePred SendCall.Accepted := fun _ => inferInstanceAs (Decidable (_ ∧ _ ∧ _))

section Loop

variable {results : List SendResult} {remaining : Nat}

theorem sendLoop_zero (results : List SendResult) (sent : Nat) :
    sendLoop results 0 sent = (.returns, sent) := by
  cases results <;> rfl

theorem sendLoop_wrote (h : remaining ≠ 0) (n sent : Nat) :
    sendLoop (.wrote (n + 1) :: results) remaining sent
      = sendLoop results (remaining - min (n + 1) remaining) (sent + min (n + 1) remaining) := by
  rw [sendLoop, if_neg h]

theorem sendLoop_interrupted (h : remaining ≠ 0) (sent : Nat) :
    sendLoop (.failed .EINTR :: results) remaining sent = sendLoop results remaining sent := by
  rw [sendLoop, if_neg h]

theorem refuses_wrote (h : remaining ≠ 0) (n : Nat) :
    refuses (.wrote (n + 1) :: results) remaining
      = refuses results (remaining - min (n + 1) remaining) := by
  simp [refuses, h]

theorem refuses_interrupted (h : remaining ≠ 0) :
    refuses (.failed .EINTR :: results) remaining = refuses results remaining := by
  simp [refuses, h]

end Loop

theorem sendLoop_sent : ∀ (results : List SendResult) (remaining sent : Nat),
    (sendLoop results remaining sent).1 = .returns → refuses results remaining = false →
      (sendLoop results remaining sent).2 = sent + remaining := by
  intro results
  induction results with
  | nil =>
    intro remaining sent hends _
    by_cases h : remaining = 0
    · rw [h]
      rfl
    · simp [sendLoop, h] at hends
  | cons result results ih =>
    intro remaining sent hends hrefuses
    by_cases h : remaining = 0
    · rw [h, sendLoop_zero]
      rfl
    · cases result with
      | wrote n =>
        cases n with
        | zero => simp [sendLoop, h] at hends
        | succ n =>
          rw [sendLoop_wrote h] at hends ⊢
          rw [refuses_wrote h] at hrefuses
          rw [ih _ _ hends hrefuses]
          omega
      | failed errno =>
        cases errno with
        | EINTR =>
          rw [sendLoop_interrupted h] at hends ⊢
          rw [refuses_interrupted h] at hrefuses
          exact ih _ _ hends hrefuses
        | EBADF | EAGAIN | EWOULDBLOCK => simp [refuses, h] at hrefuses
        | other => simp [sendLoop, h] at hends

/-- Where the rest is refused there is one. -/
theorem sendLoop_refused : ∀ {results : List SendResult} {remaining : Nat},
    refuses results remaining = true → ∀ sent,
      (sendLoop results remaining sent).2 < sent + remaining := by
  intro results
  induction results with
  | nil => intro remaining hrefuses; exact absurd hrefuses (by simp [refuses])
  | cons result results ih =>
    intro remaining hrefuses sent
    have h : remaining ≠ 0 := fun h => absurd hrefuses (by simp [refuses, h])
    cases result with
    | wrote n =>
      cases n with
      | zero => exact absurd hrefuses (by simp [refuses])
      | succ n =>
        rw [refuses_wrote h] at hrefuses
        have hrest := ih hrefuses (sent + min (n + 1) remaining)
        rw [sendLoop_wrote h]
        omega
    | failed errno =>
      cases errno with
      | EINTR =>
        rw [refuses_interrupted h] at hrefuses
        rw [sendLoop_interrupted h]
        exact ih hrefuses sent
      | EBADF | EAGAIN | EWOULDBLOCK =>
        rw [sendLoop, if_neg h]
        exact Nat.lt_add_of_pos_right (Nat.pos_of_ne_zero h)
      | other => exact absurd hrefuses (by simp [refuses])

theorem le_sendLoop : ∀ (results : List SendResult) (remaining sent : Nat),
    sent ≤ (sendLoop results remaining sent).2 := by
  intro results
  induction results with
  | nil => intro remaining sent; exact Nat.le_refl sent
  | cons result results ih =>
    intro remaining sent
    by_cases h : remaining = 0
    · rw [h, sendLoop_zero]
    · cases result with
      | wrote n =>
        cases n with
        | zero => rw [sendLoop, if_neg h]
        | succ n =>
          rw [sendLoop_wrote h]
          exact (Nat.le_add_right _ _).trans (ih _ _)
      | failed errno =>
        cases errno with
        | EINTR =>
          rw [sendLoop_interrupted h]
          exact ih _ _
        | EBADF | EAGAIN | EWOULDBLOCK | other => rw [sendLoop, if_neg h]

/-- A byte is sent exactly if the system takes one. -/
theorem lt_sendLoop_iff {remaining : Nat} (h : remaining ≠ 0) (sent : Nat) :
    ∀ results : List SendResult,
      sent < (sendLoop results remaining sent).2 ↔ accepts results = true := by
  intro results
  induction results with
  | nil => simp [sendLoop, accepts]
  | cons result results ih =>
    cases result with
    | wrote n =>
      cases n with
      | zero => simp [sendLoop, h, accepts]
      | succ n =>
        rw [sendLoop_wrote h]
        have hle := le_sendLoop results (remaining - min (n + 1) remaining)
          (sent + min (n + 1) remaining)
        have hlt : sent < sent + min (n + 1) remaining := by omega
        exact iff_of_true (hlt.trans_le hle) rfl
    | failed errno =>
      cases errno with
      | EINTR =>
        rw [sendLoop_interrupted h]
        exact ih
      | EBADF | EAGAIN | EWOULDBLOCK | other => simp [sendLoop, h, accepts]

theorem send_of_le {str : Bytes} (h : str.length ≤ ssizeMax) (results : List SendResult) :
    send str results = sendLoop results str.length 0 := by
  rw [send, if_neg (Nat.not_lt.mpr h)]

theorem send_of_lt {str : Bytes} (h : ssizeMax < str.length) (results : List SendResult) :
    send str results = (.throws, 0) := by
  rw [send, if_pos h]

namespace SendCall

variable {c : SendCall}

/-- A call that returns has sent its message, or the system has refused the rest. -/
theorem whole_of_returns (h : (send c.str c.results).1 = .returns) (hrefused : ¬ c.Refused) :
    c.cut.Whole := by
  by_cases hlength : c.str.length ≤ ssizeMax
  · rw [send_of_le hlength] at h
    have hrefuses : refuses c.results c.str.length = false := by
      simpa using fun hr => hrefused ⟨hlength, hr⟩
    have hsent := sendLoop_sent _ _ _ h hrefuses
    show c.str.length ≤ (send c.str c.results).2
    rw [send_of_le hlength, hsent]
    exact Nat.le_add_left _ _
  · rw [send_of_lt (Nat.lt_of_not_le hlength)] at h
    exact absurd h (by simp)

theorem Refused.not_whole (h : c.Refused) : ¬ c.cut.Whole := by
  obtain ⟨hlength, hrefuses⟩ := h
  have hlt := sendLoop_refused hrefuses 0
  show ¬ c.str.length ≤ (send c.str c.results).2
  rw [send_of_le hlength]
  omega

/-- Bytes of a message are on the stream exactly if the system takes one. -/
theorem sent_eq_nil_iff : c.cut.sent = [] ↔ ¬ c.Accepted := by
  show c.str.take (send c.str c.results).2 = [] ↔ ¬ (_ ∧ _ ∧ _)
  rw [List.take_eq_nil_iff, not_and_or, not_and_or, not_not, or_comm]
  by_cases hlength : c.str.length ≤ ssizeMax
  · by_cases hempty : c.str = []
    · exact iff_of_true (Or.inl hempty) (Or.inl hempty)
    · have hlt := lt_sendLoop_iff (mt List.length_eq_zero_iff.mp hempty) 0 c.results
      rw [send_of_le hlength, ← hlt]
      simp [hempty, hlength]
  · rw [send_of_lt (Nat.lt_of_not_le hlength)]
    exact iff_of_true (Or.inr rfl) (Or.inr (Or.inl hlength))

end SendCall

/-! ## The queue -/

inductive LoopStatus where
  | running
  /-- In `::send`. -/
  | sending
  /-- Something was thrown, or the server shuts down. -/
  | left
deriving DecidableEq, Repr

structure Sender where
  /-- `message_queue`. -/
  messageQueue : List (Bytes × Int)
  /-- The keys of `connections`. -/
  connections : List Int
  status : LoopStatus := .running
  /-- All that was ever in the queue. Nothing reads it. -/
  queued : List (Bytes × Int)
  /-- Nothing reads it. -/
  calls : List SendCall := []
deriving DecidableEq, Repr

/-- What the system makes of a turn of the loop that empties the queue. -/
structure SystemAnswers where
  /-- Where the turn calls `send`. -/
  results : List SendResult := []
  /-- The descriptor that `connect` gets, where the turn calls it and it does not throw. -/
  opened : Option Int := none
  /-- `initRaftGroups` does not throw. -/
  rebuilt : Bool := true
deriving DecidableEq, Repr

inductive SenderEvent where
  /-- `message_queue.emplace`. -/
  | push (text : Bytes) (fd : Int)
  | next (answers : SystemAnswers)
  /-- `accept` has a new descriptor. -/
  | opens (fd : Int)
  /-- `recv` comes to the end of the stream, or to an error. -/
  | erases (fd : Int)
  /-- A task of the main thread throws, or the server is told to shut down. -/
  | leaves
deriving DecidableEq, Repr

namespace Sender

/-- `connections[fd] = std::move(sock)`. -/
def insert (s : Sender) (fd : Int) : Sender :=
  { s with connections := if s.connections.contains fd then s.connections else fd :: s.connections }

def erase (s : Sender) (fd : Int) : Sender :=
  { s with connections := s.connections.filter (· ≠ fd) }

def leave (s : Sender) : Sender := { s with status := .left }

/-- How the loop goes on behind `send`. -/
def settleSend (s : Sender) (fd : Int) : SendEnd → Sender
  | .returns => s
  | .closes => s.erase fd
  | .throws => s.leave
  | .waits => { s with status := .sending }

/-- A message that was taken from the queue. Its descriptor is no descriptor where it is a task of
the main thread. -/
def deliver (s : Sender) (text : Bytes) (fd : Int) (answers : SystemAnswers) : Sender :=
  if fd = -1 then
    match answers.opened with
    | some opened => s.insert opened
    | none => s.leave
  else if fd = -2 then
    if answers.rebuilt then s else s.leave
  else if s.connections.contains fd then
    let call : SendCall := { fd, str := text, results := answers.results }
    { s with calls := s.calls ++ [call] }.settleSend fd (send text answers.results).1
  else s

def step (s : Sender) : SenderEvent → Sender
  | .push text fd =>
    { s with messageQueue := s.messageQueue ++ [(text, fd)], queued := s.queued ++ [(text, fd)] }
  | .next answers =>
    if s.status = .running then
      match s.messageQueue with
      | [] => s
      | (text, fd) :: rest => { s with messageQueue := rest }.deliver text fd answers
    else s
  | .opens fd => if s.status = .running then s.insert fd else s
  | .erases fd => if s.status = .running then s.erase fd else s
  | .leaves => if s.status = .running then s.leave else s

/-- A server that runs, with what is in its queue. -/
def start (messageQueue : List (Bytes × Int)) (connections : List Int) : Sender :=
  { messageQueue, connections, queued := messageQueue }

/-- The messages for a descriptor. -/
def messagesFor (fd : Int) (l : List (Bytes × Int)) : List Bytes :=
  (l.filter (·.2 = fd)).map Prod.fst

def callsFor (s : Sender) (fd : Int) : List SendCall := s.calls.filter (·.fd = fd)

/-- The bytes that the socket has accepted. -/
def accepted (s : Sender) (fd : Int) : Bytes := sent ((s.callsFor fd).map SendCall.cut)

/-- **The stream is intact**: what was accepted is a prefix of what was queued. -/
def Intact (fd : Int) (s : Sender) : Prop :=
  s.accepted fd <+: (messagesFor fd s.queued).flatten

instance (fd : Int) : DecidablePred (Intact fd) := fun _ => inferInstanceAs (Decidable (_ <+: _))

/-- No byte was accepted behind a message that was cut off. -/
def InFrame (fd : Int) (s : Sender) : Prop := Clean ((s.callsFor fd).map SendCall.cut)

/-! ## Message by message

A connection is looked at alone, since the messages of others go to other sockets. -/

/-- The system has refused the rest of a message. -/
def CutOff (s : Sender) (fd : Int) : Prop := ∃ c ∈ s.callsFor fd, c.Refused

instance (s : Sender) (fd : Int) : Decidable (s.CutOff fd) :=
  inferInstanceAs (Decidable (∃ c ∈ s.callsFor fd, c.Refused))

/-- Once the system has refused the rest of a message for `fd`, it takes no byte of a later one. -/
def StaysCut (fd : Int) (s : Sender) : SenderEvent → Prop
  | .next answers =>
    s.status = .running → s.CutOff fd → ∀ m ∈ s.messageQueue.head?, m.2 = fd →
      ¬ SendCall.Accepted { fd, str := m.1, results := answers.results }
  | .push .. | .opens _ | .erases _ | .leaves => True

instance (fd : Int) (s : Sender) : DecidablePred (StaysCut fd s)
  | .next _ => inferInstanceAs (Decidable (_ → _ → ∀ m ∈ s.messageQueue.head?, _ → ¬ _))
  | .push .. | .opens _ | .erases _ | .leaves => inferInstanceAs (Decidable True)

/-- What was queued for `fd` has been sent or is in the queue, nothing was accepted behind a
message cut short, and none has been cut short unless the system has refused its rest. -/
structure Framed (fd : Int) (s : Sender) : Prop where
  queued : (s.callsFor fd).map SendCall.str ++ messagesFor fd s.messageQueue
    = messagesFor fd s.queued
  inFrame : InFrame fd s
  whole : s.status = .running → fd ∈ s.connections → ¬ s.CutOff fd →
    ∀ c ∈ s.callsFor fd, c.cut.Whole

variable {fd : Int} {s s' : Sender}

theorem framed_start (messageQueue : List (Bytes × Int)) (connections : List Int) :
    Framed fd (start messageQueue connections) :=
  ⟨rfl, clean_nil, fun _ _ _ _ hc => absurd hc List.not_mem_nil⟩

theorem Framed.intact (h : Framed fd s) : Intact fd s := by
  have hmessages : ((s.callsFor fd).map SendCall.cut).flatMap Cut.message
      = ((s.callsFor fd).map SendCall.str).flatten := by
    rw [List.flatMap_map, List.flatMap_def]
    rfl
  unfold Intact
  rw [← h.queued, List.flatten_append]
  exact (hmessages ▸ h.inFrame.sent_prefix).trans (List.prefix_append _ _)

/-- What is done for other descriptors makes no difference. -/
theorem Framed.congr (h : Framed fd s) (hopen : fd ∈ s.connections)
    (hcalls : s'.callsFor fd = s.callsFor fd)
    (hqueue : messagesFor fd s'.messageQueue = messagesFor fd s.messageQueue)
    (hqueued : s'.queued = s.queued) (hstatus : s'.status = .running → s.status = .running) :
    Framed fd s' where
  queued := by rw [hcalls, hqueue, hqueued, h.queued]
  inFrame := by
    unfold InFrame
    rw [hcalls]
    exact h.inFrame
  whole := by
    unfold CutOff
    rw [hcalls]
    exact fun hrunning _ hcut => h.whole (hstatus hrunning) hopen hcut

/-- The parts of the state that only `deliver` and `push` change. -/
structure SameMessages (s s' : Sender) : Prop where
  calls : s'.calls = s.calls
  messageQueue : s'.messageQueue = s.messageQueue
  queued : s'.queued = s.queued
  status : s'.status = .running → s.status = .running

theorem SameMessages.framed (h : SameMessages s s') (hs : Framed fd s)
    (hopen : fd ∈ s.connections) : Framed fd s' :=
  hs.congr hopen (by unfold callsFor; rw [h.calls]) (by rw [h.messageQueue]) h.queued h.status

theorem sameMessages_insert (s : Sender) (opened : Int) : SameMessages s (s.insert opened) :=
  ⟨rfl, rfl, rfl, id⟩

theorem sameMessages_erase (s : Sender) (erased : Int) : SameMessages s (s.erase erased) :=
  ⟨rfl, rfl, rfl, id⟩

theorem sameMessages_leave (s : Sender) : SameMessages s s.leave :=
  ⟨rfl, rfl, rfl, fun h => absurd h (by simp [leave])⟩

theorem sameMessages_settleSend (s : Sender) (fd' : Int) (ends : SendEnd) :
    SameMessages s (s.settleSend fd' ends) := by
  cases ends with
  | returns => exact ⟨rfl, rfl, rfl, id⟩
  | closes => exact s.sameMessages_erase fd'
  | throws => exact s.sameMessages_leave
  | waits => exact ⟨rfl, rfl, rfl, fun h => absurd h (by simp [settleSend])⟩

/-- The loop runs on, and the connection is there: so `send` has returned. -/
theorem returns_of_settleSend {ends : SendEnd} (hruns : (s.settleSend fd ends).status = .running)
    (hthere : fd ∈ (s.settleSend fd ends).connections) : ends = .returns := by
  cases ends with
  | returns => rfl
  | closes => exact absurd rfl (of_decide_eq_true (List.mem_filter.mp hthere).2)
  | throws => exact absurd hruns (by simp [settleSend, leave])
  | waits => exact absurd hruns (by simp [settleSend])

/-! ## One step -/

section Step

variable {text : Bytes} {rest : List (Bytes × Int)}

/-- A message for another descriptor, or a task. -/
theorem Framed.deliver_other (h : Framed fd s) (hopen : fd ∈ s.connections) {fd' : Int}
    (hne : fd' ≠ fd) (hqueue : s.messageQueue = (text, fd') :: rest) (answers : SystemAnswers) :
    Framed fd ({ s with messageQueue := rest }.deliver text fd' answers) := by
  have htaken : Framed fd { s with messageQueue := rest } := by
    refine h.congr hopen rfl ?_ rfl id
    rw [hqueue]
    simp [messagesFor, hne]
  unfold deliver
  split
  · cases answers.opened with
    | none => exact (sameMessages_leave _).framed htaken hopen
    | some opened => exact (sameMessages_insert _ opened).framed htaken hopen
  split
  · split
    · exact htaken
    · exact (sameMessages_leave _).framed htaken hopen
  split
  · refine (sameMessages_settleSend _ fd' _).framed (htaken.congr hopen ?_ rfl rfl id) hopen
    simp [callsFor, hne]
  · exact htaken

/-- `send` is called for the message. -/
theorem deliver_self (hopen : fd ∈ s.connections) (hfd : 0 ≤ fd) (text : Bytes)
    (rest : List (Bytes × Int)) (answers : SystemAnswers) :
    let s' := { s with messageQueue := rest }.deliver text fd answers
    s'.callsFor fd = s.callsFor fd ++ [{ fd, str := text, results := answers.results }] ∧
      s'.messageQueue = rest ∧ s'.queued = s.queued ∧
      (s'.status = .running → fd ∈ s'.connections → (send text answers.results).1 = .returns) := by
  let call : SendCall := { fd, str := text, results := answers.results }
  let sent : Sender := { s with messageQueue := rest, calls := s.calls ++ [call] }
  have hdeliver : { s with messageQueue := rest }.deliver text fd answers
      = sent.settleSend fd (send text answers.results).1 := by
    unfold deliver
    rw [if_neg (by omega), if_neg (by omega), if_pos (List.contains_iff_mem.mpr hopen)]
  have hsame := sameMessages_settleSend sent fd (send text answers.results).1
  dsimp only
  rw [hdeliver]
  refine ⟨?_, hsame.messageQueue, hsame.queued, returns_of_settleSend⟩
  unfold callsFor
  rw [hsame.calls]
  simp [sent, call]

/-- A message for `fd`, and what the system answers. -/
theorem Framed.deliver (h : Framed fd s) (hrunning : s.status = .running)
    (hopen : fd ∈ s.connections) (hfd : 0 ≤ fd) (hqueue : s.messageQueue = (text, fd) :: rest)
    {answers : SystemAnswers}
    (hstays : s.CutOff fd → ¬ SendCall.Accepted { fd, str := text, results := answers.results }) :
    Framed fd ({ s with messageQueue := rest }.deliver text fd answers) := by
  obtain ⟨hcalls, hrest, hqueued, hreturns⟩ := deliver_self hopen hfd text rest answers
  constructor
  case queued =>
    have hhead : messagesFor fd s.messageQueue = text :: messagesFor fd rest := by
      rw [hqueue]
      simp [messagesFor]
    have hbefore := h.queued
    rw [hhead] at hbefore
    rw [hcalls, hrest, hqueued, List.map_append, List.append_assoc]
    exact hbefore
  case inFrame =>
    unfold InFrame
    rw [hcalls, List.map_append]
    refine clean_concat_iff.mpr ⟨h.inFrame, ?_⟩
    by_cases hcut : s.CutOff fd
    · exact Or.inr (SendCall.sent_eq_nil_iff.mpr (hstays hcut))
    · refine Or.inl fun c hc => ?_
      obtain ⟨call, hcall, rfl⟩ := List.mem_map.mp hc
      exact h.whole hrunning hopen hcut call hcall
  case whole =>
    intro hruns hthere hcut c hc
    unfold CutOff at hcut
    rw [hcalls] at hcut hc
    rcases List.mem_append.mp hc with hold | hnew
    · refine h.whole hrunning hopen (fun ⟨c', hc', hrefused⟩ => ?_) c hold
      exact hcut ⟨c', List.mem_append_left _ hc', hrefused⟩
    · refine SendCall.whole_of_returns ?_ fun hrefused => hcut ⟨c, hc, hrefused⟩
      rw [List.mem_singleton.mp hnew]
      exact hreturns hruns hthere

/-- Behind a message cut off, a byte of the next one would be out of frame. -/
theorem staysCut_of_inFrame {e : SenderEvent} (hopen : fd ∈ s.connections) (hfd : 0 ≤ fd)
    (h : InFrame fd (s.step e)) : StaysCut fd s e := by
  cases e with
  | next answers =>
    rintro hrunning ⟨c, hc, hrefused⟩ ⟨text, fd'⟩ hm rfl haccepted
    obtain ⟨rest, hqueue⟩ := List.head?_eq_some_iff.mp hm
    have hstep : s.step (.next answers)
        = { s with messageQueue := rest }.deliver text fd' answers := by
      simp only [Sender.step, hrunning, hqueue, if_true]
    unfold InFrame at h
    rw [hstep, (deliver_self hopen hfd text rest answers).1, List.map_append] at h
    rcases (clean_concat_iff.mp h).2 with hwhole | hnone
    · exact hrefused.not_whole (hwhole c.cut (List.mem_map_of_mem hc))
    · exact SendCall.sent_eq_nil_iff.mp hnone haccepted
  | push text fd' => trivial
  | opens opened => trivial
  | erases erased => trivial
  | leaves => trivial

theorem Framed.step {e : SenderEvent} (h : Framed fd s) (hfd : 0 ≤ fd)
    (hopen : fd ∈ s.connections) (hstays : StaysCut fd s e) : Framed fd (s.step e) := by
  cases e with
  | push text fd' =>
    refine ⟨?_, h.inFrame, h.whole⟩
    show (s.callsFor fd).map SendCall.str ++ messagesFor fd (s.messageQueue ++ [(text, fd')])
      = messagesFor fd (s.queued ++ [(text, fd')])
    have happend : ∀ l, messagesFor fd (l ++ [(text, fd')])
        = messagesFor fd l ++ messagesFor fd [(text, fd')] := fun l => by
      unfold messagesFor
      rw [List.filter_append, List.map_append]
    rw [happend, happend, ← List.append_assoc, h.queued]
  | next answers =>
    unfold Sender.step
    dsimp only
    split
    · rename_i hrunning
      split
      · exact h
      · rename_i text fd' rest hqueue
        by_cases hfd' : fd' = fd
        · subst hfd'
          refine h.deliver hrunning hopen hfd hqueue fun hcut => ?_
          exact hstays hrunning hcut (text, fd') (by rw [hqueue]; rfl) rfl
        · exact h.deliver_other hopen hfd' hqueue answers
    · exact h
  | opens opened =>
    unfold Sender.step
    dsimp only
    split
    · exact (s.sameMessages_insert opened).framed h hopen
    · exact h
  | erases erased =>
    unfold Sender.step
    dsimp only
    split
    · exact (s.sameMessages_erase erased).framed h hopen
    · exact h
  | leaves =>
    unfold Sender.step
    dsimp only
    split
    · exact s.sameMessages_leave.framed h hopen
    · exact h

end Step

/-! ## Every run -/

/-- **The bytes of a connection are in order.** From any queue on, in every run in which the
connection is not closed: if the system takes no byte behind a message it has refused the rest of,
what the socket has accepted is at any time a prefix of what was queued for it; and exactly then
no message is ever cut off and followed by another one.

A message leaves the queue before it is sent, and what `::send` has not taken of it at the end is
not put back. So the bytes of a connection are whole messages, in the order of the queue, up to the
first one whose rest was refused; and they are a prefix of what was queued as long as nothing is
taken after that. -/
theorem outgoing_intact {fd : Int} (hfd : 0 ≤ fd) {messageQueue : List (Bytes × Int)}
    {connections : List Int} {es : List SenderEvent}
    (hopen : Along step (fun s _ => fd ∈ s.connections) (start messageQueue connections) es) :
    (Along step (StaysCut fd) (start messageQueue connections) es →
      ∀ pre, pre <+: es → Intact fd (exec step (start messageQueue connections) pre)) ∧
    ((∀ pre, pre <+: es → InFrame fd (exec step (start messageQueue connections) pre)) ↔
      Along step (StaysCut fd) (start messageQueue connections) es) := by
  constructor
  · rintro hstays pre ⟨rest, rfl⟩
    have hframed := (hopen.append.1.and hstays.append.1).invariant (I := Framed fd)
      (fun _ _ ⟨hthere, hstay⟩ h => h.step hfd hthere hstay)
      (framed_start messageQueue connections)
    exact hframed.intact
  · exact forall_prefix_iff_along (fun _ h => h.inFrame)
      (fun _ _ hthere h => ⟨staysCut_of_inFrame hthere hfd, h.step hfd hthere⟩) hopen
      (framed_start messageQueue connections)

/-- A message in three writes; one that is refused behind its first byte; a message of another
connection; and one that is refused as a whole. -/
theorem refused_twice_intact :
    Intact 5 (exec step (start [(ascii "+OK\r\n", 5), (ascii "-MOVED\r\n", 5), (ascii ":1\r\n", 6)]
      [5, 6])
      [.next { results := [.wrote 2, .failed .EINTR, .wrote 1, .wrote 2] },
        .push (ascii "+PONG\r\n") 5, .next { results := [.wrote 1, .failed .EAGAIN] },
        .next { results := [.wrote 4] }, .next { results := [.failed .EWOULDBLOCK] }]) :=
  (outgoing_intact (by decide) (by decide +kernel)).1 (by decide +kernel) _ (List.prefix_refl _)

/-- Two replies. The socket has room for two bytes of the first, and then for the second. -/
theorem rest_of_reply_lost :
    let run : List SenderEvent := [.next { results := [.wrote 2, .failed .EAGAIN] },
      .next { results := [.wrote 5] }]
    let s₀ := start [(ascii "+OK\r\n", 5), (ascii "+OK\r\n", 5)] [5]
    Along step (fun s _ => 5 ∈ s.connections) s₀ run ∧
      (5 : Int) ∈ (exec step s₀ run).connections ∧
      (exec step s₀ run).accepted 5 = ascii "+O+OK\r\n" ∧
      ¬ Intact 5 (exec step s₀ run) := by
  decide +kernel

end Sender
end Server
end KvJet
