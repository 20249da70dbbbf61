import KvJet.Bytes
import Mathlib.Data.List.Sort

/-!
# One Raft node

`RaftNode` (`RaftNode.h`, `RaftNode.cpp`) with its messages as typed values; their text is the
business of `Raft/Codec.lean`. Each method returns the new node and what it handed to `sendCb`.

* Terms, indexes and counts are natural numbers.
* `std::rand()` is an argument. A method that draws twice overwrites the first draw, so one
  argument is enough.
* `advanceCommitIndex` reads `log[newCommit]` with no check of the bound, and a follower may
  have reported an index past the leader's log. The value such a read gives is the argument
  `stray`.
* Calls on the log file are recorded in `disk`, in order. Nothing reads them back before a
  restart.
-/

namespace KvJet
namespace Raft

abbrev Uuid := UInt64

structure LogEntry where
  term : Nat
  command : Bytes
deriving DecidableEq, Repr

/-- `RaftNode::State`. -/
inductive State where
  | follower
  | candidate
  | leader
deriving DecidableEq, Repr

/-- The four messages, with the fields their texts carry. -/
inductive Payload where
  | appendEntries (term prevIdx prevTerm leaderCommit : Nat) (commands : List Bytes)
  | appendEntriesReply (term : Nat) (success : Bool) (matchIdx : Nat)
  | requestVote (term lastIdx lastTerm : Nat)
  | requestVoteReply (term : Nat) (granted : Bool)
deriving DecidableEq, Repr

structure RaftMessage where
  target : Uuid
  payload : Payload
deriving DecidableEq, Repr

/-- `appendToDisk`, `flushDisk` and `rewriteDisk`, the last with the log it writes. -/
inductive DiskOp where
  | append (entry : LogEntry)
  | flush
  | rewrite (log : List LogEntry)
deriving DecidableEq, Repr

def sentinel : LogEntry := ⟨0, []⟩

structure RaftNode where
  groupId : Nat
  selfId : Uuid
  peers : List Uuid
  currentTerm : Nat := 0
  votedFor : Option Uuid := none
  /-- `log[0]` is the sentinel. -/
  log : List LogEntry := [sentinel]
  commitIndex : Nat := 0
  lastApplied : Nat := 0
  state : State := .follower
  nextIndex : List Nat := []
  matchIndex : List Nat := []
  voteCount : Nat := 0
  electionTimer : Int := 0
  heartbeatTimer : Int := 0
  disk : List DiskOp := []
deriving DecidableEq, Repr

namespace RaftNode

def electionTimeoutMin : Nat := 150
def electionTimeoutMax : Nat := 300
def heartbeatInterval : Nat := 50

/-! ## Helpers -/

def lastLogIndex (n : RaftNode) : Nat := n.log.length - 1

def lastLogTerm (n : RaftNode) : Nat :=
  if n.log.length ≤ 1 then 0 else (n.log.getLast?.map LogEntry.term).getD 0

/-- The position of a peer, or the number of peers. -/
def peerIndex (n : RaftNode) (uuid : Uuid) : Nat := n.peers.idxOf uuid

def resetElectionTimer (n : RaftNode) (rand : Nat) : RaftNode :=
  { n with electionTimer :=
      electionTimeoutMin + (rand % (electionTimeoutMax - electionTimeoutMin + 1) : Nat) }

def becomeFollower (n : RaftNode) (term rand : Nat) : RaftNode :=
  ({ n with state := .follower, currentTerm := term, votedFor := none, voteCount := 0 }
    : RaftNode).resetElectionTimer rand

def becomeCandidate (n : RaftNode) (rand : Nat) : RaftNode :=
  ({ n with state := .candidate, currentTerm := n.currentTerm + 1, votedFor := some n.selfId,
            voteCount := 1 } : RaftNode).resetElectionTimer rand

def becomeLeader (n : RaftNode) : RaftNode :=
  { n with state := .leader, nextIndex := List.replicate n.peers.length (n.lastLogIndex + 1),
           matchIndex := List.replicate n.peers.length 0, voteCount := 0, heartbeatTimer := 0 }

/-- The constructor, where there is no log file. -/
def construct (groupId : Nat) (selfId : Uuid) (peers : List Uuid) (rand : Nat) : RaftNode :=
  let n : RaftNode := { groupId, selfId, peers }
  if peers.isEmpty then n.becomeLeader else n.resetElectionTimer rand

def record (n : RaftNode) (op : DiskOp) : RaftNode := { n with disk := n.disk ++ [op] }

/-! ## Sending -/

/-- `nextIndex` has one cell for each peer of a node that leads or has led, and no other node
sends `AppendEntries`. -/
def sendAppendEntries (n : RaftNode) (peer : Uuid) : List RaftMessage :=
  let pi := n.peerIndex peer
  if pi ≥ n.peers.length then []
  else
    let next := n.nextIndex.getD pi 1
    let prevIdx := next - 1
    let prevTerm := (n.log[prevIdx]?.map LogEntry.term).getD 0
    [⟨peer, .appendEntries n.currentTerm prevIdx prevTerm n.commitIndex
      ((n.log.drop next).map LogEntry.command)⟩]

def sendRequestVote (n : RaftNode) : List RaftMessage :=
  n.peers.map fun peer => ⟨peer, .requestVote n.currentTerm n.lastLogIndex n.lastLogTerm⟩

/-! ## The clock -/

def tick (n : RaftNode) (rand : Nat) : RaftNode × List RaftMessage :=
  let n := n.record .flush
  if n.state = .leader then
    let n := { n with heartbeatTimer := n.heartbeatTimer - 1 }
    if n.heartbeatTimer ≤ 0 then
      let n := { n with heartbeatTimer := heartbeatInterval }
      (n, n.peers.flatMap n.sendAppendEntries)
    else (n, [])
  else
    let n := { n with electionTimer := n.electionTimer - 1 }
    if n.electionTimer ≤ 0 then
      let n := n.becomeCandidate rand
      (n, n.sendRequestVote)
    else (n, [])

/-! ## `AppendEntries` -/

/-- The loop over the received commands, from log index `idx` on; the flag is `truncated`. -/
def appendLoop (term : Nat) : Nat → List Bytes → RaftNode × Bool → RaftNode × Bool
  | _, [], s => s
  | idx, cmd :: cmds, (n, truncated) =>
    let stale := (n.log[idx]?.map fun e => decide (e.term ≠ term)).getD false
    let n := if stale then { n with log := n.log.take idx } else n
    let n := if idx ≥ n.log.length then
        ({ n with log := n.log ++ [⟨term, cmd⟩] } : RaftNode).record (.append ⟨term, cmd⟩)
      else n
    appendLoop term (idx + 1) cmds (n, truncated || stale)

def appendEntries (n : RaftNode) (term prevIdx : Nat) (cmds : List Bytes) : RaftNode :=
  let (n, truncated) := appendLoop term (prevIdx + 1) cmds (n, false)
  if truncated then n.record (.rewrite n.log) else n

/-- `handleAppendEntries` from the consistency check on. -/
def receiveEntries (n : RaftNode) (fromPeer : Uuid)
    (term prevIdx prevTerm leaderCommit : Nat) (cmds : List Bytes) : RaftNode × List RaftMessage :=
  if prevIdx > 0 ∧ n.log[prevIdx]?.map LogEntry.term ≠ some prevTerm then
    (n, [⟨fromPeer, .appendEntriesReply n.currentTerm false 0⟩])
  else
    let n := n.appendEntries term prevIdx cmds
    let n := if leaderCommit > n.commitIndex then
        { n with commitIndex := min leaderCommit n.lastLogIndex }
      else n
    (n, [⟨fromPeer, .appendEntriesReply n.currentTerm true n.lastLogIndex⟩])

def handleAppendEntries (n : RaftNode) (fromPeer : Uuid)
    (term prevIdx prevTerm leaderCommit : Nat) (cmds : List Bytes) (rand : Nat) :
    RaftNode × List RaftMessage :=
  if term < n.currentTerm then (n, [⟨fromPeer, .appendEntriesReply n.currentTerm false 0⟩])
  else
    let n := if term > n.currentTerm ∨ n.state = .candidate then n.becomeFollower term rand else n
    (n.resetElectionTimer rand).receiveEntries fromPeer term prevIdx prevTerm leaderCommit cmds

/-! ## `AppendEntriesReply` -/

def quorum (n : RaftNode) : Nat := n.peers.length / 2 + 1

/-- `matchIndex` and the own last index, sorted from high to low. -/
def sortedMatch (n : RaftNode) : List Nat :=
  (n.matchIndex ++ [n.lastLogIndex]).insertionSort (· ≥ ·)

def advanceCommitIndex (n : RaftNode) (stray : Nat) : RaftNode :=
  let newCommit := n.sortedMatch.getD (n.quorum - 1) 0
  if newCommit > n.commitIndex ∧
      (n.log[newCommit]?.map LogEntry.term).getD stray = n.currentTerm then
    { n with commitIndex := newCommit }
  else n

/-- What a success reply from peer number `pi` changes. -/
def acknowledge (n : RaftNode) (pi matchIdx : Nat) : RaftNode :=
  { n with nextIndex := n.nextIndex.set pi (matchIdx + 1),
           matchIndex := n.matchIndex.set pi matchIdx }

def handleAppendEntriesReply (n : RaftNode) (fromPeer : Uuid) (term : Nat) (success : Bool)
    (matchIdx rand stray : Nat) : RaftNode × List RaftMessage :=
  if n.state ≠ .leader then (n, [])
  else if term > n.currentTerm then (n.becomeFollower term rand, [])
  else
    let pi := n.peerIndex fromPeer
    if pi ≥ n.peers.length then (n, [])
    else if success then ((n.acknowledge pi matchIdx).advanceCommitIndex stray, [])
    else
      let next := n.nextIndex.getD pi 1
      let n := if next > 1 then { n with nextIndex := n.nextIndex.set pi (next - 1) } else n
      (n, n.sendAppendEntries fromPeer)

/-! ## Votes -/

/-- The candidate's log is at least as new as this node's. -/
def logOk (n : RaftNode) (candLastIdx candLastTerm : Nat) : Prop :=
  candLastTerm > n.lastLogTerm ∨ (candLastTerm = n.lastLogTerm ∧ candLastIdx ≥ n.lastLogIndex)

instance (n : RaftNode) (i t : Nat) : Decidable (n.logOk i t) :=
  inferInstanceAs (Decidable (_ ∨ _))

def canVote (n : RaftNode) (fromPeer : Uuid) : Prop :=
  n.votedFor = none ∨ n.votedFor = some fromPeer

instance (n : RaftNode) (p : Uuid) : Decidable (n.canVote p) :=
  inferInstanceAs (Decidable (_ ∨ _))

/-- `handleRequestVote` once the term is settled. -/
def considerVote (n : RaftNode) (fromPeer : Uuid) (candLastIdx candLastTerm rand : Nat) :
    RaftNode × List RaftMessage :=
  if n.canVote fromPeer ∧ n.logOk candLastIdx candLastTerm then
    let n := ({ n with votedFor := some fromPeer } : RaftNode).resetElectionTimer rand
    (n, [⟨fromPeer, .requestVoteReply n.currentTerm true⟩])
  else (n, [⟨fromPeer, .requestVoteReply n.currentTerm false⟩])

def handleRequestVote (n : RaftNode) (fromPeer : Uuid) (term candLastIdx candLastTerm rand : Nat) :
    RaftNode × List RaftMessage :=
  if term < n.currentTerm then (n, [⟨fromPeer, .requestVoteReply n.currentTerm false⟩])
  else
    let n := if term > n.currentTerm then n.becomeFollower term rand else n
    n.considerVote fromPeer candLastIdx candLastTerm rand

/-- The sender of the reply is not looked at. -/
def handleRequestVoteReply (n : RaftNode) (term : Nat) (granted : Bool) (rand : Nat) : RaftNode :=
  if n.state ≠ .candidate then n
  else if term > n.currentTerm then n.becomeFollower term rand
  else if granted then
    let n := { n with voteCount := n.voteCount + 1 }
    if n.voteCount ≥ n.quorum then n.becomeLeader else n
  else n

/-! ## The interface -/

/-- `step`, past the parsing. -/
def step (n : RaftNode) (fromPeer : Uuid) (payload : Payload) (rand stray : Nat) :
    RaftNode × List RaftMessage :=
  match payload with
  | .appendEntries term prevIdx prevTerm leaderCommit cmds =>
    n.handleAppendEntries fromPeer term prevIdx prevTerm leaderCommit cmds rand
  | .appendEntriesReply term success matchIdx =>
    n.handleAppendEntriesReply fromPeer term success matchIdx rand stray
  | .requestVote term lastIdx lastTerm =>
    n.handleRequestVote fromPeer term lastIdx lastTerm rand
  | .requestVoteReply term granted => (n.handleRequestVoteReply term granted rand, [])

/-- `propose` with its two critical sections taken together; what it returns is always
`std::nullopt`. -/
def propose (n : RaftNode) (cmd : Bytes) : RaftNode × List RaftMessage :=
  if n.state ≠ .leader then (n, [])
  else
    let entry : LogEntry := ⟨n.currentTerm, cmd⟩
    let n := { n with log := n.log ++ [entry] }
    let n := if n.peers.isEmpty then { n with commitIndex := n.lastLogIndex } else n
    let n := n.record (.append entry)
    (n, n.peers.flatMap n.sendAppendEntries)

def hasPendingApply (n : RaftNode) : Bool := n.commitIndex > n.lastApplied

/-- The indexes `lastApplied + 1, …, commitIndex`, those past the log left out. -/
def takePendingApply (n : RaftNode) : RaftNode × List LogEntry :=
  ({ n with lastApplied := max n.lastApplied n.commitIndex },
    (List.range' (n.lastApplied + 1) (n.commitIndex - n.lastApplied)).filterMap (n.log[·]?))

end RaftNode
end Raft
end KvJet
