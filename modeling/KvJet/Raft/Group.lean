import KvJet.Lib.Run
import KvJet.Raft.Node
import Mathlib.Logic.Function.Basic

/-!
# A group of Raft nodes

The members of one group and the messages between them. A run is a list of events: a tick of a
member, the delivery of a message, a proposal to a member, and a member's `takePendingApply`.
Every message ever sent stays in `sent`, and `deliver` may pick any of them at any time and any
number of times, or never: that is delay, reordering, duplication and loss.

A world also remembers what has happened. Nothing here reads these fields back: the log a
sender had when it sent a message (`Envelope.senderLog`), who has led which term (`led`), with
which log it began (`opening`) and how far that log has grown (`ledger`), and which granted
votes were counted (`counted`).
-/

namespace KvJet
namespace Raft

structure Group where
  groupId : Nat
  members : List Uuid
  nodup : members.Nodup

namespace Group

def size (g : Group) : Nat := g.members.length

/-- `peers`: the group without the node itself. -/
def peersOf (g : Group) (x : Uuid) : List Uuid := g.members.filter (· ≠ x)

theorem mem_peersOf {g : Group} {x y : Uuid} : y ∈ g.peersOf x ↔ y ∈ g.members ∧ y ≠ x := by
  simp [peersOf]

theorem peersOf_symm {g : Group} {x y : Uuid} (hx : x ∈ g.members) (h : y ∈ g.peersOf x) :
    x ∈ g.peersOf y :=
  mem_peersOf.mpr ⟨hx, (mem_peersOf.mp h).2.symm⟩

end Group

structure Envelope where
  src : Uuid
  dst : Uuid
  payload : Payload
  senderLog : List LogEntry
deriving DecidableEq

structure World where
  node : Uuid → RaftNode
  sent : List Envelope := []
  /-- The commands handed out by `takePendingApply` so far. -/
  applied : Uuid → List Bytes := fun _ => []
  led : List (Uuid × Nat) := []
  opening : Nat → List LogEntry := fun _ => [sentinel]
  ledger : Nat → List LogEntry := fun _ => [sentinel]
  /-- Candidate, its term then, voter. -/
  counted : List (Uuid × Nat × Uuid) := []

namespace World

/-- Write down the log of a leader. -/
def observe (w : World) (x : Uuid) : World :=
  let n := w.node x
  if n.state = .leader then
    { w with
      led := if (x, n.currentTerm) ∈ w.led then w.led else w.led ++ [(x, n.currentTerm)]
      opening := if (x, n.currentTerm) ∈ w.led then w.opening
        else Function.update w.opening n.currentTerm n.log
      ledger := Function.update w.ledger n.currentTerm n.log }
  else w

/-- Member `x` has become `r.1` and sent `r.2`. -/
def act (w : World) (x : Uuid) (r : RaftNode × List RaftMessage) : World :=
  observe { w with
    node := Function.update w.node x r.1
    sent := w.sent ++ r.2.map fun m => ⟨x, m.target, m.payload, r.1.log⟩ } x

/-- Write down a granted vote that a candidate counts. -/
def tally (w : World) (e : Envelope) : World :=
  match e.payload with
  | .requestVoteReply term true =>
    if (w.node e.dst).state = .candidate ∧ term ≤ (w.node e.dst).currentTerm then
      { w with counted := w.counted ++ [(e.dst, (w.node e.dst).currentTerm, e.src)] }
    else w
  | _ => w

end World

inductive Event where
  | tick (x : Uuid) (rand : Nat)
  /-- The message number `k` of those sent so far reaches its target. -/
  | deliver (k rand stray : Nat)
  | propose (x : Uuid) (cmd : Bytes)
  | apply (x : Uuid)
deriving DecidableEq

namespace Group

variable (g : Group)

/-- The group as it is constructed, with no log files. -/
def start (rand : Uuid → Nat) : World :=
  let node := fun x => RaftNode.construct g.groupId x (g.peersOf x) (rand x)
  { node, led := (g.members.filter fun x => (node x).state = .leader).map fun x => (x, 0) }

def step (w : World) : Event → World
  | .tick x rand => if x ∈ g.members then w.act x ((w.node x).tick rand) else w
  | .deliver k rand stray =>
    match w.sent[k]? with
    | none => w
    | some e => (w.tally e).act e.dst ((w.node e.dst).step e.src e.payload rand stray)
  | .propose x cmd => if x ∈ g.members then w.act x ((w.node x).propose cmd) else w
  | .apply x =>
    if x ∈ g.members then
      let r := (w.node x).takePendingApply
      { w.act x (r.1, []) with
        applied := Function.update w.applied x (w.applied x ++ r.2.map LogEntry.command) }
    else w

abbrev exec (w : World) (evs : List Event) : World := Run.exec g.step w evs

end Group

/-- No term has had two leaders. -/
def World.SingleLeader (w : World) : Prop :=
  ∀ a b t, (a, t) ∈ w.led → (b, t) ∈ w.led → a = b

/-! ## What goes wrong

The four things a delivery can do that the results about agreement have to exclude, each as a
condition on the world before the delivery. -/

/-- `handleAppendEntries` gets past its two checks. -/
def RaftNode.Accepts (n : RaftNode) (term prevIdx prevTerm : Nat) : Prop :=
  n.currentTerm ≤ term ∧ (prevIdx = 0 ∨ n.log[prevIdx]?.map LogEntry.term = some prevTerm)

instance (n : RaftNode) (term prevIdx prevTerm : Nat) :
    Decidable (n.Accepts term prevIdx prevTerm) := inferInstanceAs (Decidable (_ ∧ _))

namespace World

/-- A granted vote that a candidate counts was cast in its current term, and is the first from
that voter that it counts in this term. -/
def GenuineVote (w : World) (e : Envelope) : Prop :=
  match e.payload with
  | .requestVoteReply term true =>
    (w.node e.dst).state = .candidate → term ≤ (w.node e.dst).currentTerm →
      term = (w.node e.dst).currentTerm ∧ (e.dst, (w.node e.dst).currentTerm, e.src) ∉ w.counted
  | _ => True

/-- A success reply that a leader takes in is a reply in its current term. -/
def CurrentReply (w : World) (e : Envelope) : Prop :=
  match e.payload with
  | .appendEntriesReply term true _ =>
    (w.node e.dst).state = .leader → term ≤ (w.node e.dst).currentTerm →
      term = (w.node e.dst).currentTerm
  | _ => True

/-- A heartbeat without entries is accepted only by a log that ends where the heartbeat looked,
or whose last entry is of the heartbeat's term: no older tail is acknowledged with it. -/
def NoStaleTail (w : World) (e : Envelope) : Prop :=
  match e.payload with
  | .appendEntries term prevIdx prevTerm _ [] =>
    (w.node e.dst).Accepts term prevIdx prevTerm →
      (w.node e.dst).lastLogIndex ≤ prevIdx ∨ (w.node e.dst).lastLogTerm = term
  | _ => True

/-- An `AppendEntries` that ends before the log does, where that log ends in the message's own
term, finds its own term in every entry it covers, and so cuts nothing off. -/
def NoRestamp (w : World) (e : Envelope) : Prop :=
  match e.payload with
  | .appendEntries term prevIdx prevTerm _ cmds =>
    (w.node e.dst).Accepts term prevIdx prevTerm → (w.node e.dst).lastLogTerm = term →
      prevIdx + cmds.length < (w.node e.dst).lastLogIndex →
      ∀ entry ∈ ((w.node e.dst).log.drop (prevIdx + 1)).take cmds.length, entry.term = term
  | _ => True

instance (w : World) : DecidablePred w.GenuineVote
  | ⟨_, _, .requestVoteReply _ true, _⟩ => inferInstanceAs (Decidable (_ → _ → _ ∧ _))
  | ⟨_, _, .requestVoteReply _ false, _⟩ | ⟨_, _, .requestVote .., _⟩
  | ⟨_, _, .appendEntriesReply .., _⟩ | ⟨_, _, .appendEntries .., _⟩ =>
    inferInstanceAs (Decidable True)

instance (w : World) : DecidablePred w.CurrentReply
  | ⟨_, _, .appendEntriesReply _ true _, _⟩ => inferInstanceAs (Decidable (_ → _ → _ = _))
  | ⟨_, _, .appendEntriesReply _ false _, _⟩ | ⟨_, _, .requestVote .., _⟩
  | ⟨_, _, .requestVoteReply .., _⟩ | ⟨_, _, .appendEntries .., _⟩ =>
    inferInstanceAs (Decidable True)

instance (w : World) : DecidablePred w.NoStaleTail
  | ⟨_, _, .appendEntries _ _ _ _ [], _⟩ => inferInstanceAs (Decidable (_ → _ ∨ _))
  | ⟨_, _, .appendEntries _ _ _ _ (_ :: _), _⟩ | ⟨_, _, .requestVote .., _⟩
  | ⟨_, _, .requestVoteReply .., _⟩ | ⟨_, _, .appendEntriesReply .., _⟩ =>
    inferInstanceAs (Decidable True)

instance (w : World) : DecidablePred w.NoRestamp
  | ⟨_, _, .appendEntries .., _⟩ => inferInstanceAs (Decidable (_ → _ → _ → ∀ entry ∈ _, _ = _))
  | ⟨_, _, .requestVote .., _⟩ | ⟨_, _, .requestVoteReply .., _⟩
  | ⟨_, _, .appendEntriesReply .., _⟩ => inferInstanceAs (Decidable True)

/-- The message an event delivers. -/
def delivered (w : World) : Event → Option Envelope
  | .deliver k _ _ => w.sent[k]?
  | .tick _ _ | .propose _ _ | .apply _ => none

end World

/-- A condition on deliveries, as a condition on events. -/
def AtDelivery (P : World → Envelope → Prop) (w : World) (ev : Event) : Prop :=
  ∀ e ∈ w.delivered ev, P w e

instance (P : World → Envelope → Prop) [∀ w, DecidablePred (P w)] (w : World) (ev : Event) :
    Decidable (AtDelivery P w ev) := inferInstanceAs (Decidable (∀ e ∈ w.delivered ev, P w e))

end Raft
end KvJet
