import KvJet.Lib.Method
import KvJet.Raft.Codec
import KvJet.Raft.Node

/-!
# Messages as they arrive

`RaftNode::step` takes a text. It cuts the text into its fields, and the handler of the kind of
message reads the numbers in them; `RaftNode.step` of `Raft/Node.lean` is what follows. Any text
may arrive, so the reading may stop at too few fields, throw at a field that is no number, or
read past the fields.

An `AppendEntries` is the one message whose fields are not all read first: the count of its
commands is looked at behind the consistency check, and a throw there leaves the node with the
message's term. `stepText_heard` lists all that a text can do.
-/

namespace KvJet
namespace Raft

/-- `std::stoull(parts[i])`. -/
def numberAt (parts : List Bytes) (i : Nat) : Except Fault Nat := do
  return (← stoull (← partAt parts i)).toNat

/-- The commands behind the count, at most as many as it says. -/
def commandsOf (parts : List Bytes) : Except Fault (List Bytes) :=
  if parts.length > 6 then do return (parts.drop 7).take (← numberAt parts 6) else .ok []

namespace RaftNode

/-- Term and timer of a node that goes on with an `AppendEntries`. -/
def follow (n : RaftNode) (term rand : Nat) : RaftNode :=
  (if term > n.currentTerm ∨ n.state = .candidate then n.becomeFollower term rand else n
    ).resetElectionTimer rand

/-- The consistency check fails. -/
def Mismatch (n : RaftNode) (prevIdx prevTerm : Nat) : Prop :=
  prevIdx > 0 ∧ n.log[prevIdx]?.map LogEntry.term ≠ some prevTerm

instance (n : RaftNode) (prevIdx prevTerm : Nat) : Decidable (n.Mismatch prevIdx prevTerm) :=
  inferInstanceAs (Decidable (_ ∧ _))

def handleAppendEntriesText (fromPeer : Uuid) (parts : List Bytes) (rand : Nat) :
    Method Fault RaftNode (List RaftMessage) := do
  if parts.length < 6 then return []
  let term ← Method.lift (numberAt parts 2)
  let prevIdx ← Method.lift (numberAt parts 3)
  let prevTerm ← Method.lift (numberAt parts 4)
  let leaderCommit ← Method.lift (numberAt parts 5)
  let n ← get
  if term < n.currentTerm then return [⟨fromPeer, .appendEntriesReply n.currentTerm false 0⟩]
  let n := n.follow term rand
  set n
  if n.Mismatch prevIdx prevTerm then
    return [⟨fromPeer, .appendEntriesReply n.currentTerm false 0⟩]
  let cmds ← Method.lift (commandsOf parts)
  let (n, msgs) := n.receiveEntries fromPeer term prevIdx prevTerm leaderCommit cmds
  set n
  return msgs

/-- What the other three handlers read. The flag is compared with `"1"`. -/
def readReply (parts : List Bytes) : Except Fault Payload := do
  return .appendEntriesReply (← numberAt parts 2) ((← partAt parts 3) == ascii "1")
    (← numberAt parts 4)

def readVote (parts : List Bytes) : Except Fault Payload := do
  return .requestVote (← numberAt parts 2) (← numberAt parts 3) (← numberAt parts 4)

def readVoteReply (parts : List Bytes) : Except Fault Payload := do
  return .requestVoteReply (← numberAt parts 2) ((← partAt parts 3) == ascii "1")

/-- A handler that reads all its fields first; it returns at once if there are fewer than `least`
of them, or if the node is not in the state the message is for. -/
def handleText (least : Nat) (ready : RaftNode → Prop) [DecidablePred ready]
    (read : List Bytes → Except Fault Payload) (fromPeer : Uuid) (parts : List Bytes)
    (rand stray : Nat) : Method Fault RaftNode (List RaftMessage) := do
  let n ← get
  if ¬ ready n ∨ parts.length < least then return []
  let payload ← Method.lift (read parts)
  let (n, msgs) := n.step fromPeer payload rand stray
  set n
  return msgs

/-- `step`, from the text on. -/
def stepText (fromPeer : Uuid) (raw : Bytes) (rand stray : Nat) :
    Method Fault RaftNode (List RaftMessage) :=
  let parts := parseParts raw
  match parts with
  | [] => return []
  | name :: _ =>
    if name = ascii "RAFT_AE" then handleAppendEntriesText fromPeer parts rand
    else if name = ascii "RAFT_AER" then
      handleText 4 (·.state = .leader) readReply fromPeer parts rand stray
    else if name = ascii "RAFT_RV" then
      handleText 5 (fun _ => True) readVote fromPeer parts rand stray
    else if name = ascii "RAFT_RVR" then
      handleText 4 (·.state = .candidate) readVoteReply fromPeer parts rand stray
    else return []

end RaftNode

/-! ## What a text can do -/

/-- The numbers of a message fit their type. -/
def Payload.Fits : Payload → Prop
  | .appendEntries term prevIdx prevTerm leaderCommit _ =>
    term < 2 ^ 64 ∧ prevIdx < 2 ^ 64 ∧ prevTerm < 2 ^ 64 ∧ leaderCommit < 2 ^ 64
  | .appendEntriesReply term _ matchIdx => term < 2 ^ 64 ∧ matchIdx < 2 ^ 64
  | .requestVote term lastIdx lastTerm => term < 2 ^ 64 ∧ lastIdx < 2 ^ 64 ∧ lastTerm < 2 ^ 64
  | .requestVoteReply term _ => term < 2 ^ 64

/-- The commands a message brings. -/
def Payload.commands : Payload → List Bytes
  | .appendEntries _ _ _ _ cmds => cmds
  | .appendEntriesReply .. | .requestVote .. | .requestVoteReply .. => []

inductive Heard (n : RaftNode) (fromPeer : Uuid) (parts : List Bytes) (rand stray : Nat) :
    Except Fault (List RaftMessage) × RaftNode → Prop
  | ignored : Heard n fromPeer parts rand stray (.ok [], n)
  | unreadable (fault : Fault) : Heard n fromPeer parts rand stray (.error fault, n)
  | message (payload : Payload) (hfits : payload.Fits) (hcmds : payload.commands ⊆ parts.drop 7) :
      Heard n fromPeer parts rand stray
        (.ok (n.step fromPeer payload rand stray).2, (n.step fromPeer payload rand stray).1)
  /-- An `AppendEntries` whose count is no number. -/
  | broken (term : Nat) (hfits : term < 2 ^ 64) (hterm : n.currentTerm ≤ term) (fault : Fault) :
      Heard n fromPeer parts rand stray (.error fault, n.follow term rand)

theorem numberAt_lt {parts : List Bytes} {i k : Nat} (h : numberAt parts i = .ok k) :
    k < 2 ^ 64 := by
  obtain ⟨p, -, h⟩ := Except.of_bind_eq_ok h
  obtain ⟨x, -, h⟩ := Except.of_bind_eq_ok h
  cases h
  exact x.toNat_lt

theorem commandsOf_subset {parts cmds : List Bytes} (h : commandsOf parts = .ok cmds) :
    cmds ⊆ parts.drop 7 := by
  unfold commandsOf at h
  split at h
  · obtain ⟨count, -, h⟩ := Except.of_bind_eq_ok h
    cases h
    exact List.take_subset _ _
  · cases h
    exact List.nil_subset _

variable {n : RaftNode} {fromPeer : Uuid} {parts : List Bytes} {rand stray : Nat}

theorem Heard.of_step {payload : Payload} {n' : RaftNode} {msgs : List RaftMessage}
    (hfits : payload.Fits) (hcmds : payload.commands ⊆ parts.drop 7)
    (h : n.step fromPeer payload rand stray = (n', msgs)) :
    Heard n fromPeer parts rand stray (.ok msgs, n') := by
  have hmsgs : msgs = (n.step fromPeer payload rand stray).2 := by rw [h]
  have hnode : n' = (n.step fromPeer payload rand stray).1 := by rw [h]
  rw [hmsgs, hnode]
  exact .message payload hfits hcmds

namespace RaftNode

theorem handleAppendEntries_eq (term prevIdx prevTerm leaderCommit : Nat) (cmds : List Bytes) :
    n.handleAppendEntries fromPeer term prevIdx prevTerm leaderCommit cmds rand
      = if term < n.currentTerm then
          (n, [⟨fromPeer, .appendEntriesReply n.currentTerm false 0⟩])
        else (n.follow term rand).receiveEntries fromPeer term prevIdx prevTerm leaderCommit
          cmds := rfl

theorem receiveEntries_mismatch {prevIdx prevTerm : Nat} (h : n.Mismatch prevIdx prevTerm)
    (term leaderCommit : Nat) (cmds : List Bytes) :
    n.receiveEntries fromPeer term prevIdx prevTerm leaderCommit cmds
      = (n, [⟨fromPeer, .appendEntriesReply n.currentTerm false 0⟩]) := if_pos h

theorem handleAppendEntriesText_heard :
    Heard n fromPeer parts rand stray ((handleAppendEntriesText fromPeer parts rand).call n) := by
  unfold handleAppendEntriesText
  by_cases hlen : parts.length < 6
  · rw [if_pos hlen]
    exact .ignored
  rw [if_neg hlen]
  refine Method.call_bind_lift (fun e _ => .unreadable e) fun term hterm => ?_
  refine Method.call_bind_lift (fun e _ => .unreadable e) fun prevIdx hprevIdx => ?_
  refine Method.call_bind_lift (fun e _ => .unreadable e) fun prevTerm hprevTerm => ?_
  refine Method.call_bind_lift (fun e _ => .unreadable e) fun leaderCommit hcommit => ?_
  have hfits : ∀ cmds, (Payload.appendEntries term prevIdx prevTerm leaderCommit cmds).Fits :=
    fun _ => ⟨numberAt_lt hterm, numberAt_lt hprevIdx, numberAt_lt hprevTerm, numberAt_lt hcommit⟩
  rw [Method.call_bind_ok (Method.call_get n)]
  by_cases hold : term < n.currentTerm
  · rw [if_pos hold]
    exact Heard.of_step (hfits []) (List.nil_subset _) (if_pos hold)
  rw [if_neg hold, Method.call_bind_ok (Method.call_set _ n)]
  have hstep : ∀ cmds, n.step fromPeer (.appendEntries term prevIdx prevTerm leaderCommit cmds)
      rand stray
        = (n.follow term rand).receiveEntries fromPeer term prevIdx prevTerm leaderCommit cmds :=
    fun _ => if_neg hold
  by_cases hmis : (n.follow term rand).Mismatch prevIdx prevTerm
  · rw [if_pos hmis]
    exact Heard.of_step (hfits []) (List.nil_subset _)
      ((hstep []).trans (receiveEntries_mismatch hmis _ _ _))
  rw [if_neg hmis]
  refine Method.call_bind_lift (fun e _ => ?_) fun cmds hcmds => ?_
  · exact .broken term (numberAt_lt hterm) (Nat.le_of_not_lt hold) e
  · rw [Method.call_bind_ok (Method.call_set _ _)]
    exact Heard.of_step (hfits cmds) (commandsOf_subset hcmds) (hstep cmds)

theorem handleText_heard {least : Nat} {ready : RaftNode → Prop} [DecidablePred ready]
    {read : List Bytes → Except Fault Payload}
    (hread : ∀ payload, read parts = .ok payload → payload.Fits ∧ payload.commands = []) :
    Heard n fromPeer parts rand stray
      ((handleText least ready read fromPeer parts rand stray).call n) := by
  unfold handleText
  rw [Method.call_bind_ok (Method.call_get n)]
  by_cases hskip : ¬ ready n ∨ parts.length < least
  · rw [if_pos hskip]
    exact .ignored
  rw [if_neg hskip]
  refine Method.call_bind_lift (fun e _ => .unreadable e) fun payload hp => ?_
  rw [Method.call_bind_ok (Method.call_set _ n)]
  obtain ⟨hfits, hcmds⟩ := hread payload hp
  exact Heard.of_step hfits (by rw [hcmds]; exact List.nil_subset _) rfl

theorem readReply_fits {payload : Payload} (h : readReply parts = .ok payload) :
    payload.Fits ∧ payload.commands = [] := by
  obtain ⟨term, hterm, h⟩ := Except.of_bind_eq_ok h
  obtain ⟨flag, -, h⟩ := Except.of_bind_eq_ok h
  obtain ⟨matchIdx, hidx, h⟩ := Except.of_bind_eq_ok h
  cases h
  exact ⟨⟨numberAt_lt hterm, numberAt_lt hidx⟩, rfl⟩

theorem readVote_fits {payload : Payload} (h : readVote parts = .ok payload) :
    payload.Fits ∧ payload.commands = [] := by
  obtain ⟨term, hterm, h⟩ := Except.of_bind_eq_ok h
  obtain ⟨lastIdx, hidx, h⟩ := Except.of_bind_eq_ok h
  obtain ⟨lastTerm, hlast, h⟩ := Except.of_bind_eq_ok h
  cases h
  exact ⟨⟨numberAt_lt hterm, numberAt_lt hidx, numberAt_lt hlast⟩, rfl⟩

theorem readVoteReply_fits {payload : Payload} (h : readVoteReply parts = .ok payload) :
    payload.Fits ∧ payload.commands = [] := by
  obtain ⟨term, hterm, h⟩ := Except.of_bind_eq_ok h
  obtain ⟨flag, -, h⟩ := Except.of_bind_eq_ok h
  cases h
  exact ⟨numberAt_lt hterm, rfl⟩

/-- **What a text can do to a node.** -/
theorem stepText_heard (raw : Bytes) :
    Heard n fromPeer (parseParts raw) rand stray ((stepText fromPeer raw rand stray).call n) := by
  unfold stepText
  cases hparts : parseParts raw with
  | nil => exact .ignored
  | cons name fields =>
    dsimp only
    split
    · exact handleAppendEntriesText_heard
    · split
      · exact handleText_heard fun _ => readReply_fits
      · split
        · exact handleText_heard fun _ => readVote_fits
        · split
          · exact handleText_heard fun _ => readVoteReply_fits
          · exact .ignored

end RaftNode
end Raft
end KvJet
