import KvJet.Lib.Run
import KvJet.Raft.Disk
import KvJet.Raft.Text

/-!
# Several threads on one node

`tick`, `step` and `takePendingApply` hold the lock of the node from beginning to end, but
`propose` lets go of it in the middle: it pushes the entry, appends it to the disk buffer without
the lock, and takes the lock again to send. The threads of the pool call `propose` and `step`, and
the main loop calls `tick`, so anything may happen between the parts of a `propose`.

The first part checks that the node leads. The last part does not: it sends `AppendEntries` in
whatever term the node is in by then, as whatever it is by then.
-/

namespace KvJet
namespace Raft

namespace RaftNode

/-- `tick` with terms of 64 bits: `currentTerm++` is the only place where a term is computed. -/
def tick64 (n : RaftNode) (rand : Nat) : RaftNode × List RaftMessage :=
  if (n.tick rand).1.currentTerm < 2 ^ 64 then n.tick rand
  else
    let n : RaftNode := { (n.tick rand).1 with currentTerm := 0 }
    (n, n.sendRequestVote)

theorem tick_keeps (n : RaftNode) (rand : Nat) :
    (n.tick rand).1.log = n.log ∧ (n.tick rand).1.commitIndex = n.commitIndex ∧
      (n.tick rand).1.lastApplied = n.lastApplied := by
  unfold tick
  dsimp only
  split <;> split <;> exact ⟨rfl, rfl, rfl⟩

theorem tick64_keeps (n : RaftNode) (rand : Nat) :
    (n.tick64 rand).1.log = n.log ∧ (n.tick64 rand).1.commitIndex = n.commitIndex ∧
      (n.tick64 rand).1.lastApplied = n.lastApplied := by
  have hkept := n.tick_keeps rand
  unfold tick64
  split
  · exact hkept
  · exact hkept

/-- The first critical section of `propose`. -/
def push (n : RaftNode) (cmd : Bytes) : Option (RaftNode × LogEntry) :=
  if n.state ≠ .leader then none
  else
    let entry : LogEntry := ⟨n.currentTerm, cmd⟩
    let n := { n with log := n.log ++ [entry] }
    let n := if n.peers.isEmpty then { n with commitIndex := n.lastLogIndex } else n
    some (n, entry)

/-- The second one. -/
def broadcast (n : RaftNode) : List RaftMessage := n.peers.flatMap n.sendAppendEntries

/-- `propose` with nothing in between. -/
theorem propose_eq (n : RaftNode) (cmd : Bytes) :
    n.propose cmd = match n.push cmd with
      | none => (n, [])
      | some (n, entry) => (n.record (.append entry), (n.record (.append entry)).broadcast) := by
  by_cases h : n.state = .leader <;> simp [propose, push, broadcast, h]

theorem push_eq_some {n n' : RaftNode} {cmd : Bytes} {entry : LogEntry}
    (h : n.push cmd = some (n', entry)) :
    n.state = .leader ∧ entry = ⟨n.currentTerm, cmd⟩ ∧ n'.log = n.log ++ [entry] ∧
      n'.disk = n.disk ∧ n'.currentTerm = n.currentTerm := by
  unfold push at h
  split at h
  · exact absurd h (by simp)
  · rename_i hlead
    simp only [Option.some.injEq, Prod.mk.injEq] at h
    obtain ⟨rfl, rfl⟩ := h
    split <;> exact ⟨not_not.mp hlead, rfl, rfl, rfl, rfl⟩

end RaftNode

/-- A `propose` past its first critical section. -/
structure Call where
  entry : LogEntry
  /-- `appendToDisk` is done. -/
  written : Bool
deriving DecidableEq, Repr

structure Threads where
  node : RaftNode
  /-- In the order of their first critical sections. -/
  calls : List Call := []
  /-- The terms in which the node has been the leader. Nothing reads them. -/
  led : List Nat := []
deriving DecidableEq, Repr

inductive Act where
  | tick (rand : Nat)
  | step (fromPeer : Uuid) (raw : Bytes) (rand stray : Nat)
  | take
  | push (cmd : Bytes)
  /-- The open call number `i` appends its entry to the disk buffer. -/
  | write (i : Nat)
  /-- It sends, and returns. -/
  | send (i : Nat)
deriving DecidableEq, Repr

namespace Threads

def become (s : Threads) (n : RaftNode) : Threads :=
  { s with node := n, led := if n.state = .leader then n.currentTerm :: s.led else s.led }

def start (n : RaftNode) : Threads := become { node := n } n

/-- What one thread does next, and what the node sends meanwhile. -/
def act (s : Threads) : Act → Threads × List RaftMessage
  | .tick rand => (s.become (s.node.tick64 rand).1, (s.node.tick64 rand).2)
  | .step fromPeer raw rand stray =>
    let (outcome, n) := (RaftNode.stepText fromPeer raw rand stray).call s.node
    (s.become n, outcome.toOption.getD [])
  | .take => (s.become s.node.takePendingApply.1, [])
  | .push cmd =>
    match s.node.push cmd with
    | none => (s, [])
    | some (n, entry) => ({ s.become n with calls := s.calls ++ [⟨entry, false⟩] }, [])
  | .write i =>
    match s.calls[i]? with
    | some ⟨entry, false⟩ =>
      ({ s.become (s.node.record (.append entry)) with calls := s.calls.set i ⟨entry, true⟩ }, [])
    | _ => (s, [])
  | .send i =>
    match s.calls[i]? with
    | some ⟨_, true⟩ => ({ s with calls := s.calls.eraseIdx i }, s.node.broadcast)
    | _ => (s, [])

abbrev step (s : Threads) (a : Act) : Threads := (s.act a).1

end Threads

/-! ## Who sends `AppendEntries`

Each method, by what it sends and by the role it leaves the node in. -/

/-- The term of an `AppendEntries`. -/
def Payload.replicates : Payload → Option Nat
  | .appendEntries term _ _ _ _ => some term
  | .appendEntriesReply .. | .requestVote .. | .requestVoteReply .. => none

/-- What is sent as `AppendEntries` is sent by a leader, in its term. -/
def SentByLeader (n : RaftNode) (msgs : List RaftMessage) : Prop :=
  ∀ m ∈ msgs, ∀ term ∈ m.payload.replicates, n.state = .leader ∧ n.currentTerm = term

variable {n : RaftNode} {fromPeer : Uuid} {rand stray : Nat}

namespace RaftNode

theorem replicates_sendAppendEntries {peer : Uuid} {m : RaftMessage}
    (hm : m ∈ n.sendAppendEntries peer) : m.payload.replicates = some n.currentTerm := by
  unfold sendAppendEntries at hm
  dsimp only at hm
  split at hm
  · exact absurd hm (by simp)
  · rw [List.mem_singleton.mp hm]
    rfl

theorem replicates_broadcast {m : RaftMessage} (hm : m ∈ n.broadcast) :
    m.payload.replicates = some n.currentTerm := by
  obtain ⟨peer, -, hm⟩ := List.mem_flatMap.mp hm
  exact replicates_sendAppendEntries hm

theorem replicates_sendRequestVote {m : RaftMessage} (hm : m ∈ n.sendRequestVote) :
    m.payload.replicates = none := by
  obtain ⟨peer, -, rfl⟩ := List.mem_map.mp hm
  rfl

end RaftNode

namespace SentByLeader

theorem nil (n : RaftNode) : SentByLeader n [] := fun _ h => absurd h (by simp)

theorem of_none {msgs : List RaftMessage} (h : ∀ m ∈ msgs, m.payload.replicates = none) :
    SentByLeader n msgs := by
  intro m hm term hterm
  rw [h m hm] at hterm
  exact absurd hterm (by simp)

theorem of_term {msgs : List RaftMessage} (hlead : n.state = .leader)
    (h : ∀ m ∈ msgs, m.payload.replicates = some n.currentTerm) : SentByLeader n msgs := by
  intro m hm term hterm
  rw [h m hm] at hterm
  exact ⟨hlead, Option.some.inj hterm⟩

theorem reply {m : RaftMessage} (h : m.payload.replicates = none) : SentByLeader n [m] :=
  of_none fun _ hm' => by rw [List.mem_singleton.mp hm', h]

theorem requestVote (n' : RaftNode) : SentByLeader n' n.sendRequestVote :=
  of_none fun _ => RaftNode.replicates_sendRequestVote

end SentByLeader

namespace RaftNode

theorem tick_sentByLeader : SentByLeader (n.tick rand).1 (n.tick rand).2 := by
  unfold tick
  dsimp only
  split
  · rename_i hlead
    split
    · exact .of_term hlead fun m hm => replicates_broadcast hm
    · exact .nil _
  · split
    · exact .requestVote _
    · exact .nil _

theorem tick64_sentByLeader : SentByLeader (n.tick64 rand).1 (n.tick64 rand).2 := by
  unfold tick64
  split
  · exact tick_sentByLeader
  · exact .requestVote _

theorem receiveEntries_sentByLeader (term prevIdx prevTerm leaderCommit : Nat)
    (cmds : List Bytes) (n' : RaftNode) :
    SentByLeader n' (n.receiveEntries fromPeer term prevIdx prevTerm leaderCommit cmds).2 := by
  unfold receiveEntries
  split <;> exact .reply rfl

theorem handleAppendEntries_sentByLeader (term prevIdx prevTerm leaderCommit : Nat)
    (cmds : List Bytes) (n' : RaftNode) :
    SentByLeader n'
      (n.handleAppendEntries fromPeer term prevIdx prevTerm leaderCommit cmds rand).2 := by
  rw [handleAppendEntries_eq]
  split
  · exact .reply rfl
  · exact receiveEntries_sentByLeader _ _ _ _ _ _

theorem handleAppendEntriesReply_sentByLeader (term : Nat) (success : Bool) (matchIdx : Nat) :
    SentByLeader
      (n.handleAppendEntriesReply fromPeer term success matchIdx rand stray).1
      (n.handleAppendEntriesReply fromPeer term success matchIdx rand stray).2 := by
  unfold handleAppendEntriesReply
  split
  · exact .nil _
  rename_i hstate
  have hlead : n.state = .leader := not_not.mp hstate
  split
  · exact .nil _
  dsimp only
  split
  · exact .nil _
  split
  · exact .nil _
  -- the rejected peer is sent the log again, from one entry earlier
  refine .of_term ?_ fun m hm => replicates_sendAppendEntries hm
  split <;> exact hlead

theorem considerVote_sentByLeader (lastIdx lastTerm : Nat) (n' : RaftNode) :
    SentByLeader n' (n.considerVote fromPeer lastIdx lastTerm rand).2 := by
  unfold considerVote
  split <;> exact .reply rfl

theorem handleRequestVote_sentByLeader (term lastIdx lastTerm : Nat) (n' : RaftNode) :
    SentByLeader n' (n.handleRequestVote fromPeer term lastIdx lastTerm rand).2 := by
  unfold handleRequestVote
  split
  · exact .reply rfl
  · exact considerVote_sentByLeader _ _ _

theorem step_sentByLeader (payload : Payload) :
    SentByLeader (n.step fromPeer payload rand stray).1
      (n.step fromPeer payload rand stray).2 := by
  cases payload with
  | appendEntries term prevIdx prevTerm leaderCommit cmds =>
    exact handleAppendEntries_sentByLeader _ _ _ _ _ _
  | appendEntriesReply term success matchIdx => exact handleAppendEntriesReply_sentByLeader _ _ _
  | requestVote term lastIdx lastTerm => exact handleRequestVote_sentByLeader _ _ _ _
  | requestVoteReply term granted => exact .nil _

end RaftNode

theorem Heard.sentByLeader {parts : List Bytes} {outcome : Except Fault (List RaftMessage)}
    {n' : RaftNode} (h : Heard n fromPeer parts rand stray (outcome, n')) :
    SentByLeader n' (outcome.toOption.getD []) := by
  cases h with
  | ignored => exact .nil _
  | unreadable fault => exact .nil _
  | message payload hfits hcmds => exact RaftNode.step_sentByLeader payload
  | broken term hfits hterm fault => exact .nil _

/-! ## The result

`tick` and `step` are one act each. A proposal is three, and other acts may come between them. -/

namespace Threads

/-- Whatever is sent as `AppendEntries` in this act is in a term that the node leads or has
led. -/
def Honest (s : Threads) (a : Act) : Prop :=
  ∀ m ∈ (s.act a).2, ∀ term ∈ m.payload.replicates, term ∈ (s.act a).1.led

/-- A call that sends finds the node still, or again, the leader, if there is anyone to send
to. -/
def SendsAsLeader (s : Threads) : Act → Prop
  | .send _ => s.node.peers = [] ∨ s.node.state = .leader
  | _ => True

instance (s : Threads) : DecidablePred s.Honest := fun a =>
  inferInstanceAs (Decidable (∀ m ∈ (s.act a).2, ∀ term ∈ m.payload.replicates, _))

instance (s : Threads) : DecidablePred s.SendsAsLeader
  | .send _ => inferInstanceAs (Decidable (_ ∨ _))
  | .tick .. | .step .. | .take | .push .. | .write .. => inferInstanceAs (Decidable True)

/-- The term of a leader has been written down. -/
def Noted (s : Threads) : Prop := s.node.state = .leader → s.node.currentTerm ∈ s.led

theorem become_led (s : Threads) {n : RaftNode} (h : n.state = .leader) :
    n.currentTerm ∈ (s.become n).led := by
  simp [become, h]

theorem become_noted (s : Threads) (n : RaftNode) : (s.become n).Noted := fun h => s.become_led h

theorem step_noted (s : Threads) (a : Act) (h : s.Noted) : (s.step a).Noted := by
  cases a with
  | tick rand => exact become_noted _ _
  | step fromPeer raw rand stray => exact become_noted _ _
  | take => exact become_noted _ _
  | push cmd =>
    unfold step act
    dsimp only
    split
    · exact h
    · exact become_noted s _
  | write i =>
    unfold step act
    dsimp only
    split
    · exact become_noted s _
    · exact h
  | send i =>
    unfold step act
    dsimp only
    split
    · exact h
    · exact h

/-- What a leader sends, in an act that makes it what it is. -/
theorem honest_of_sentByLeader (s : Threads) {n : RaftNode} {msgs : List RaftMessage}
    (h : SentByLeader n msgs) :
    ∀ m ∈ msgs, ∀ term ∈ m.payload.replicates, term ∈ (s.become n).led := by
  intro m hm term hterm
  obtain ⟨hlead, rfl⟩ := h m hm term hterm
  exact s.become_led hlead

theorem act_honest (s : Threads) (a : Act) (h : s.Noted) (hsend : s.SendsAsLeader a) :
    s.Honest a := by
  cases a with
  | tick rand => exact s.honest_of_sentByLeader RaftNode.tick64_sentByLeader
  | step fromPeer raw rand stray =>
    exact s.honest_of_sentByLeader (RaftNode.stepText_heard raw).sentByLeader
  | take => exact fun m hm => absurd hm (by simp [act])
  | push cmd =>
    intro m hm
    unfold act at hm
    dsimp only at hm
    split at hm <;> exact absurd hm (by simp)
  | write i =>
    intro m hm
    unfold act at hm
    dsimp only at hm
    split at hm <;> exact absurd hm (by simp)
  | send i =>
    intro m hm term hterm
    unfold act at hm ⊢
    dsimp only at hm ⊢
    split at hm
    · rw [RaftNode.replicates_broadcast hm] at hterm
      rcases hsend with hnone | hlead
      · rw [RaftNode.broadcast, hnone] at hm
        exact absurd hm (by simp)
      · rw [← Option.some.inj hterm]
        exact h hlead
    · exact absurd hm (by simp)

/-- **Only leaders replicate**, in every run in which a call that sends finds the node the
leader.

`tick` and `step` send within the critical section in which they looked at the state, and `propose`
does not: its last section sends without looking again. A node that is the leader then leads the
term it sends in, and this term is noted since it was elected (`Noted`). -/
theorem leaders_replicate (n : RaftNode) (acts : List Act)
    (hrun : Run.Along step SendsAsLeader (start n) acts) :
    Run.Along step Honest (start n) acts := by
  have hnoted := hrun.keeping (I := Noted) (fun s a _ hs => step_noted s a hs) (become_noted _ n)
  exact hnoted.imp fun s a ⟨hsend, hs⟩ => act_honest s a hs hsend

/-- Node 1, whose only peer is 2, is elected in term 1. -/
def elected : List Act :=
  List.replicate 150 (.tick 0) ++ [.step 2 (ascii "*4\r\n+RAFT_RVR\r\n+0\r\n+1\r\n+1\r\n") 0 0]

/-- Another candidate reaches it in term 5. -/
def overtaken : Act := .step 2 (ascii "*5\r\n+RAFT_RV\r\n+0\r\n+5\r\n+0\r\n+0\r\n") 0 0

theorem leaders_replicate_proposal :
    Run.Along step SendsAsLeader (start (.construct 0 1 [2] 0))
      (elected ++ [.push (ascii "SET a 1"), .write 0, .send 0]) ∧
    Run.Along step Honest (start (.construct 0 1 [2] 0))
      (elected ++ [.push (ascii "SET a 1"), .write 0, .send 0]) := by
  have hrun : Run.Along step SendsAsLeader (start (.construct 0 1 [2] 0))
      (elected ++ [.push (ascii "SET a 1"), .write 0, .send 0]) := by decide +kernel
  exact ⟨hrun, leaders_replicate _ _ hrun⟩

/-- Overtaken between its critical sections, the proposal is sent in term 5, which the node has
never led. -/
theorem overtaken_replicates : ¬ Run.Along step Honest (start (.construct 0 1 [2] 0))
    (elected ++ [.push (ascii "SET a 1"), overtaken, .write 0, .send 0]) := by
  decide +kernel

end Threads
end Raft
end KvJet
