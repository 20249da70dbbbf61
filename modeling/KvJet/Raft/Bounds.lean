import KvJet.Lib.Quorum
import KvJet.Raft.Solo

/-!
# Subscripts

`RaftNode::step` once more, with every subscript of the source checked: in the fields of the
message, in the log, in the arrays of a leader and in the sorted match indexes; and with the sums of
`uint64_t` as the machine has them. Where no subscript goes out of range and no sum wraps this is
`stepText` of `Raft/Text.lean` (`Checked.stepText_eq`).

Of the log and the arrays one subscript can: `advanceCommitIndex` looks up in its own log the index
that a quorum of the peers has reported, and a follower may report any index at all
(`RaftNode.Overreached`). A sum wraps where a follower has reported `2 ^ 64 - 1`: the next index
is then zero, and the index in front of it `2 ^ 64 - 1` again, which every lookup guards against.
-/

namespace KvJet
namespace Raft

/-- `xs[i]`. -/
def elementAt {α : Type} (xs : List α) (i : Nat) : Except Fault α :=
  match xs[i]? with
  | some x => .ok x
  | none => .error (.undefined "subscript out of range")

/-- `xs[i] = x`. -/
def assignAt {α : Type} (xs : List α) (i : Nat) (x : α) : Except Fault (List α) :=
  if i < xs.length then .ok (xs.set i x) else .error (.undefined "subscript out of range")

/-- `log[i].term`. -/
def termAt (log : List LogEntry) (i : Nat) : Except Fault Nat :=
  (elementAt log i).map LogEntry.term

/-- `x + 1` of a `uint64_t`. -/
def up64 (x : Nat) : Nat := (x + 1) % 2 ^ 64

/-- `x - 1` of a `uint64_t`. -/
def down64 (x : Nat) : Nat := if x = 0 then 2 ^ 64 - 1 else x - 1

theorem up64_eq {x : Nat} (h : x + 1 < 2 ^ 64) : up64 x = x + 1 := Nat.mod_eq_of_lt h

theorem down64_eq {x : Nat} (hpos : 1 ≤ x) : down64 x = x - 1 := if_neg (Nat.ne_of_gt hpos)

namespace RaftNode

/-! ## The handlers, with checked subscripts -/

namespace Checked

def sendAppendEntries (n : RaftNode) (peer : Uuid) : Except Fault (List RaftMessage) :=
  let pi := n.peerIndex peer
  if pi ≥ n.peers.length then .ok []
  else do
    let next ← elementAt n.nextIndex pi
    let prevIdx := down64 next
    let prevTerm ← (if prevIdx < n.log.length then termAt n.log prevIdx else .ok 0)
    let entries ← (List.range' next (n.log.length - next)).mapM (elementAt n.log)
    return [⟨peer, .appendEntries n.currentTerm prevIdx prevTerm n.commitIndex
      (entries.map LogEntry.command)⟩]

/-- `prevIdx >= log.size() || log[prevIdx].term != prevTerm`, where `prevIdx > 0`. -/
def mismatch (n : RaftNode) (prevIdx prevTerm : Nat) : Except Fault Bool :=
  if prevIdx > 0 then
    if prevIdx ≥ n.log.length then .ok true
    else (termAt n.log prevIdx).map fun t => decide (t ≠ prevTerm)
  else .ok false

/-- `count` more turns of the loop over the commands, from field `i` and log index `idx` on. -/
def appendLoop (term : Nat) (parts : List Bytes) :
    Nat → Nat → Nat → RaftNode × Bool → Except Fault (RaftNode × Bool)
  | 0, _, _, s => .ok s
  | count + 1, i, idx, (n, truncated) => do
    let stale ← (if idx < n.log.length then (termAt n.log idx).map fun t => decide (t ≠ term)
      else .ok false)
    let n := if stale then { n with log := n.log.take idx } else n
    let n ← (if idx ≥ n.log.length then (elementAt parts i).map fun cmd =>
        ({ n with log := n.log ++ [⟨term, cmd⟩] } : RaftNode).record (.append ⟨term, cmd⟩)
      else .ok n)
    appendLoop term parts count (i + 1) (idx + 1) (n, truncated || stale)

def handleAppendEntriesText (fromPeer : Uuid) (parts : List Bytes) (rand : Nat) :
    Method Fault RaftNode (List RaftMessage) := do
  if parts.length < 6 then return []
  let term ← Method.lift (numberAt parts 2)
  let prevIdx ← Method.lift (numberAt parts 3)
  let prevTerm ← Method.lift (numberAt parts 4)
  let leaderCommit ← Method.lift (numberAt parts 5)
  let n ← get
  if term < n.currentTerm then return [⟨fromPeer, .appendEntriesReply n.currentTerm false 0⟩]
  let n := n.follow term rand
  set n
  let bad ← Method.lift (mismatch n prevIdx prevTerm)
  if bad then return [⟨fromPeer, .appendEntriesReply n.currentTerm false 0⟩]
  let cnt ← Method.lift (if parts.length > 6 then numberAt parts 6 else .ok 0)
  let (n, truncated) ← Method.lift
    (appendLoop term parts (min cnt (parts.length - 7)) 7 (prevIdx + 1) (n, false))
  let n := if truncated then n.record (.rewrite n.log) else n
  let n := if leaderCommit > n.commitIndex then
      { n with commitIndex := min leaderCommit n.lastLogIndex }
    else n
  set n
  return [⟨fromPeer, .appendEntriesReply n.currentTerm true n.lastLogIndex⟩]

/-- `log[newCommit].term` past the log is undefined, or it gives whatever is there: `stray` says
which of the two this is about. -/
def advanceCommitIndex (stray : Option Nat) (n : RaftNode) : Except Fault RaftNode := do
  let newCommit ← elementAt n.sortedMatch (n.quorum - 1)
  if newCommit > n.commitIndex then
    let term ← (match stray with
      | none => termAt n.log newCommit
      | some stray => .ok ((n.log[newCommit]?.map LogEntry.term).getD stray))
    return if term = n.currentTerm then { n with commitIndex := newCommit } else n
  else return n

def handleAppendEntriesReply (stray : Option Nat) (n : RaftNode) (fromPeer : Uuid) (term : Nat)
    (success : Bool) (matchIdx rand : Nat) : Except Fault (RaftNode × List RaftMessage) :=
  if n.state ≠ .leader then .ok (n, [])
  else if term > n.currentTerm then .ok (n.becomeFollower term rand, [])
  else
    let pi := n.peerIndex fromPeer
    if pi ≥ n.peers.length then .ok (n, [])
    else if success then do
      let nextIndex ← assignAt n.nextIndex pi (up64 matchIdx)
      let matchIndex ← assignAt n.matchIndex pi matchIdx
      return (← advanceCommitIndex stray { n with nextIndex, matchIndex }, [])
    else do
      let next ← elementAt n.nextIndex pi
      let nextIndex ← (if next > 1 then assignAt n.nextIndex pi (next - 1) else .ok n.nextIndex)
      let n := { n with nextIndex }
      return (n, ← sendAppendEntries n fromPeer)

def handleAppendEntriesReplyText (stray : Option Nat) (fromPeer : Uuid) (parts : List Bytes)
    (rand : Nat) : Method Fault RaftNode (List RaftMessage) := do
  let n ← get
  if ¬ n.state = .leader ∨ parts.length < 4 then return []
  let term ← Method.lift (numberAt parts 2)
  let flag ← Method.lift (partAt parts 3)
  let matchIdx ← Method.lift (numberAt parts 4)
  let (n, msgs) ← Method.lift
    (handleAppendEntriesReply stray n fromPeer term (flag == ascii "1") matchIdx rand)
  set n
  return msgs

/-- `step`. The handlers of the vote messages have no subscript but those of the fields, and no
sum. -/
def stepText (stray : Option Nat) (fromPeer : Uuid) (raw : Bytes) (rand : Nat) :
    Method Fault RaftNode (List RaftMessage) :=
  let parts := parseParts raw
  match parts with
  | [] => return []
  | name :: _ =>
    if name = ascii "RAFT_AE" then handleAppendEntriesText fromPeer parts rand
    else if name = ascii "RAFT_AER" then
      handleAppendEntriesReplyText stray fromPeer parts rand
    else if name = ascii "RAFT_RV" then
      handleText 5 (fun _ => True) readVote fromPeer parts rand 0
    else if name = ascii "RAFT_RVR" then
      handleText 4 (·.state = .candidate) readVoteReply fromPeer parts rand 0
    else return []

end Checked

/-! ## Subscripts in range -/

theorem elementAt_of_lt {α : Type} {xs : List α} {i : Nat} (h : i < xs.length) :
    elementAt xs i = .ok xs[i] := by
  unfold elementAt
  rw [List.getElem?_eq_getElem h]

theorem elementAt_of_le {α : Type} {xs : List α} {i : Nat} (h : xs.length ≤ i) :
    elementAt xs i = .error (.undefined "subscript out of range") := by
  unfold elementAt
  rw [List.getElem?_eq_none h]

theorem termAt_of_lt {log : List LogEntry} {i : Nat} (h : i < log.length) :
    termAt log i = .ok log[i].term := by
  unfold termAt
  rw [elementAt_of_lt h]
  rfl

namespace Checked

variable {n : RaftNode} {fromPeer : Uuid} {parts : List Bytes} {rand stray : Nat}

theorem mismatch_eq (n : RaftNode) (prevIdx prevTerm : Nat) :
    mismatch n prevIdx prevTerm = .ok (decide (n.Mismatch prevIdx prevTerm)) := by
  unfold mismatch
  by_cases hpos : prevIdx > 0
  · rw [if_pos hpos]
    by_cases hlen : prevIdx ≥ n.log.length
    · have hbad : n.Mismatch prevIdx prevTerm := ⟨hpos, by simp [List.getElem?_eq_none hlen]⟩
      rw [if_pos hlen, decide_eq_true hbad]
    · have hlt := Nat.not_le.mp hlen
      have hiff : n.Mismatch prevIdx prevTerm ↔ n.log[prevIdx].term ≠ prevTerm := by
        unfold Mismatch
        simp [hpos, List.getElem?_eq_getElem hlt]
      rw [if_neg hlen, termAt_of_lt hlt, decide_eq_decide.mpr hiff]
      rfl
  · rw [if_neg hpos, decide_eq_false fun h => hpos h.1]

theorem appendLoop_eq (term : Nat) (parts : List Bytes) : ∀ (count i idx : Nat)
    (s : RaftNode × Bool), count ≤ parts.length - i →
    appendLoop term parts count i idx s
      = .ok (RaftNode.appendLoop term idx ((parts.drop i).take count) s) := by
  intro count
  induction count with
  | zero =>
    intro i idx s _
    rw [List.take_zero]
    rfl
  | succ count ih =>
    intro i idx s hlen
    obtain ⟨n, truncated⟩ := s
    have hi : i < parts.length := by omega
    have hstale : (if idx < n.log.length then (termAt n.log idx).map fun t => decide (t ≠ term)
        else .ok false)
        = .ok ((n.log[idx]?.map fun e => decide (e.term ≠ term)).getD false) := by
      by_cases hidx : idx < n.log.length
      · rw [if_pos hidx, termAt_of_lt hidx, List.getElem?_eq_getElem hidx]
        rfl
      · rw [if_neg hidx, List.getElem?_eq_none (Nat.not_lt.mp hidx)]
        rfl
    rw [List.drop_eq_getElem_cons hi, List.take_succ_cons]
    unfold appendLoop RaftNode.appendLoop
    rw [hstale, elementAt_of_lt hi]
    generalize (n.log[idx]?.map fun e => decide (e.term ≠ term)).getD false = stale
    dsimp only [bind, Except.bind]
    generalize (if stale then { n with log := n.log.take idx } else n) = m
    by_cases hend : idx ≥ m.log.length
    · simp only [if_pos hend]
      exact ih (i + 1) (idx + 1) _ (by omega)
    · simp only [if_neg hend]
      exact ih (i + 1) (idx + 1) _ (by omega)

/-- The commands that the loop runs over are those of `commandsOf`. -/
theorem commandsOf_eq (parts : List Bytes) :
    commandsOf parts = (if parts.length > 6 then numberAt parts 6 else .ok 0).map
      fun cnt => (parts.drop 7).take (min cnt (parts.length - 7)) := by
  have htake : ∀ cnt, (parts.drop 7).take cnt = (parts.drop 7).take (min cnt (parts.length - 7)) := by
    intro cnt
    rw [List.take_eq_take_min, List.length_drop]
  unfold commandsOf
  split
  · cases numberAt parts 6 with
    | error e => rfl
    | ok cnt => exact congrArg Except.ok (htake cnt)
  · simp [Except.map]

theorem receiveEntries_eq {prevIdx prevTerm : Nat} (h : ¬ n.Mismatch prevIdx prevTerm)
    (term leaderCommit : Nat) (cmds : List Bytes) :
    n.receiveEntries fromPeer term prevIdx prevTerm leaderCommit cmds
      = let (m, truncated) := RaftNode.appendLoop term (prevIdx + 1) cmds (n, false)
        let m := if truncated then m.record (.rewrite m.log) else m
        let m := if leaderCommit > m.commitIndex then
            { m with commitIndex := min leaderCommit m.lastLogIndex }
          else m
        (m, [⟨fromPeer, .appendEntriesReply m.currentTerm true m.lastLogIndex⟩]) :=
  if_neg h

/-- No subscript of `handleAppendEntries` goes out of range. -/
theorem handleAppendEntriesText_eq (fromPeer : Uuid) (parts : List Bytes) (rand : Nat) :
    handleAppendEntriesText fromPeer parts rand
      = RaftNode.handleAppendEntriesText fromPeer parts rand := by
  unfold handleAppendEntriesText RaftNode.handleAppendEntriesText
  by_cases hlen : parts.length < 6
  · rw [if_pos hlen, if_pos hlen]
  rw [if_neg hlen, if_neg hlen]
  refine bind_congr fun term => bind_congr fun prevIdx => bind_congr fun prevTerm =>
    bind_congr fun leaderCommit => bind_congr fun n => ?_
  by_cases hold : term < n.currentTerm
  · rw [if_pos hold, if_pos hold]
  rw [if_neg hold, if_neg hold]
  refine bind_congr fun _ => ?_
  generalize n.follow term rand = n
  rw [mismatch_eq]
  by_cases hmis : n.Mismatch prevIdx prevTerm
  · rw [if_pos hmis, decide_eq_true hmis]
    rfl
  rw [if_neg hmis, decide_eq_false hmis, commandsOf_eq]
  cases hcnt : (if parts.length > 6 then numberAt parts 6 else .ok 0) with
  | error e => rfl
  | ok cnt =>
    have hloop := appendLoop_eq term parts (min cnt (parts.length - 7)) 7 (prevIdx + 1) (n, false)
      (Nat.min_le_right _ _)
    rw [Method.lift_ok_bind, if_neg Bool.false_ne_true, Method.lift_ok_bind, hloop,
      Method.lift_ok_bind]
    show _ = (match n.receiveEntries fromPeer term prevIdx prevTerm leaderCommit
        ((parts.drop 7).take (min cnt (parts.length - 7))) with
      | (n, msgs) => (do
        set n
        return msgs : Method Fault RaftNode (List RaftMessage)))
    rw [receiveEntries_eq hmis]

theorem mapM_elementAt (log : List LogEntry) : ∀ (k i : Nat), k ≤ log.length - i →
    (List.range' i k).mapM (elementAt log) = .ok ((log.drop i).take k) := by
  intro k
  induction k with
  | zero => exact fun _ _ => rfl
  | succ k ih =>
    intro i hk
    have hi : i < log.length := by omega
    rw [List.range'_succ, List.mapM_cons, elementAt_of_lt hi, List.drop_eq_getElem_cons hi,
      List.take_succ_cons, ih (i + 1) (by omega)]
    rfl

/-- What is sent never fails: both lookups are guarded by the length of the log. -/
theorem sendAppendEntries_ok (h : n.Slotted) (peer : Uuid) :
    ∃ msgs, sendAppendEntries n peer = .ok msgs := by
  unfold sendAppendEntries
  dsimp only
  by_cases hpeer : n.peerIndex peer ≥ n.peers.length
  · rw [if_pos hpeer]
    exact ⟨_, rfl⟩
  have hpi : n.peerIndex peer < n.nextIndex.length := by
    rw [h.nextIndex]
    exact Nat.not_le.mp hpeer
  rw [if_neg hpeer, elementAt_of_lt hpi]
  generalize n.nextIndex[n.peerIndex peer] = next
  dsimp only [bind, Except.bind]
  generalize down64 next = prevIdx
  rw [mapM_elementAt n.log (n.log.length - next) next (Nat.le_refl _)]
  by_cases hlt : prevIdx < n.log.length
  · rw [if_pos hlt, termAt_of_lt hlt]
    exact ⟨_, rfl⟩
  · rw [if_neg hlt]
    exact ⟨_, rfl⟩

theorem sendAppendEntries_eq (h : n.Slotted) (hnext : ∀ i ∈ n.nextIndex, 1 ≤ i) (peer : Uuid) :
    sendAppendEntries n peer = .ok (n.sendAppendEntries peer) := by
  unfold sendAppendEntries RaftNode.sendAppendEntries
  dsimp only
  by_cases hpeer : n.peerIndex peer ≥ n.peers.length
  · rw [if_pos hpeer, if_pos hpeer]
  have hpi : n.peerIndex peer < n.nextIndex.length := by
    rw [h.nextIndex]
    exact Nat.not_le.mp hpeer
  have hget : n.nextIndex.getD (n.peerIndex peer) 1 = n.nextIndex[n.peerIndex peer] := by
    rw [List.getD_eq_getElem?_getD, List.getElem?_eq_getElem hpi, Option.getD_some]
  have hpos := hnext _ (List.getElem_mem hpi)
  rw [if_neg hpeer, if_neg hpeer, elementAt_of_lt hpi, hget]
  generalize n.nextIndex[n.peerIndex peer] = next at hpos
  have hprev : (if next - 1 < n.log.length then termAt n.log (next - 1) else .ok 0)
      = .ok ((n.log[next - 1]?.map LogEntry.term).getD 0) := by
    by_cases hlt : next - 1 < n.log.length
    · rw [if_pos hlt, termAt_of_lt hlt, List.getElem?_eq_getElem hlt]
      rfl
    · rw [if_neg hlt, List.getElem?_eq_none (Nat.not_lt.mp hlt)]
      rfl
  have hentries := mapM_elementAt n.log (n.log.length - next) next (Nat.le_refl _)
  rw [← List.length_drop, List.take_length, List.length_drop] at hentries
  dsimp only [bind, Except.bind]
  rw [down64_eq hpos, hprev]
  dsimp only
  rw [hentries]
  rfl

/-- The index that a majority has reached, or more. -/
theorem lt_newCommit_iff (hlen : n.matchIndex.length = n.peers.length) {b : Nat}
    (hown : n.lastLogIndex ≤ b) :
    b < n.sortedMatch.getD (n.quorum - 1) 0 ↔ n.quorum ≤ n.matchIndex.countP (b < ·) := by
  have hquorum : n.quorum - 1 < (n.matchIndex ++ [n.lastLogIndex]).length := by
    rw [List.length_append, List.length_singleton, hlen]
    unfold quorum
    omega
  unfold sortedMatch
  rw [Quorum.lt_insertionSort_iff _ hquorum, List.countP_append, List.countP_singleton,
    if_neg (by simpa using hown)]
  unfold quorum
  omega

theorem lt_length_sortedMatch (hlen : n.matchIndex.length = n.peers.length) :
    n.quorum - 1 < n.sortedMatch.length := by
  unfold sortedMatch
  rw [List.length_insertionSort, List.length_append, List.length_singleton, hlen]
  unfold quorum
  omega

/-- Where a stray read gives a value, the node goes on with it. -/
theorem advanceCommitIndex_stray (hlen : n.matchIndex.length = n.peers.length) (stray : Nat) :
    advanceCommitIndex (some stray) n = .ok (n.advanceCommitIndex stray) := by
  have hquorum := lt_length_sortedMatch hlen
  have hget : n.sortedMatch.getD (n.quorum - 1) 0 = n.sortedMatch[n.quorum - 1] := by
    rw [List.getD_eq_getElem?_getD, List.getElem?_eq_getElem hquorum, Option.getD_some]
  unfold advanceCommitIndex RaftNode.advanceCommitIndex
  rw [elementAt_of_lt hquorum, hget]
  generalize n.sortedMatch[n.quorum - 1] = newCommit
  dsimp only [bind, Except.bind]
  by_cases hcommit : newCommit > n.commitIndex
  · rw [if_pos hcommit]
    simp only [hcommit, true_and]
    rfl
  · rw [if_neg hcommit, if_neg fun h => hcommit h.1]
    rfl

theorem advanceCommitIndex_eq (hlen : n.matchIndex.length = n.peers.length) (stray : Nat) :
    advanceCommitIndex none n
      = if n.quorum ≤ n.matchIndex.countP (max n.commitIndex n.lastLogIndex < ·) then
          .error (.undefined "subscript out of range")
        else .ok (n.advanceCommitIndex stray) := by
  have hquorum := lt_length_sortedMatch hlen
  have hget : n.sortedMatch.getD (n.quorum - 1) 0 = n.sortedMatch[n.quorum - 1] := by
    rw [List.getD_eq_getElem?_getD, List.getElem?_eq_getElem hquorum, Option.getD_some]
  have hover := lt_newCommit_iff hlen (Nat.le_max_right n.commitIndex n.lastLogIndex)
  unfold advanceCommitIndex RaftNode.advanceCommitIndex
  rw [elementAt_of_lt hquorum]
  rw [hget] at hover ⊢
  generalize n.sortedMatch[n.quorum - 1] = newCommit at hover
  dsimp only [bind, Except.bind]
  by_cases hcommit : newCommit > n.commitIndex
  · rw [if_pos hcommit]
    by_cases hlt : newCommit < n.log.length
    · rw [if_neg (fun hq => ?_), termAt_of_lt hlt, List.getElem?_eq_getElem hlt]
      · by_cases hterm : n.log[newCommit].term = n.currentTerm
        · simp [hterm, hcommit, pure, Except.pure]
        · simp [hterm, pure, Except.pure]
      · have hmax := hover.mpr hq
        unfold lastLogIndex at hmax
        omega
    · have hq : n.quorum ≤ n.matchIndex.countP (max n.commitIndex n.lastLogIndex < ·) := by
        refine hover.mp ?_
        unfold lastLogIndex
        omega
      rw [if_pos hq, termAt, elementAt_of_le (Nat.not_lt.mp hlt)]
      rfl
  · have hq : ¬ n.quorum ≤ n.matchIndex.countP (max n.commitIndex n.lastLogIndex < ·) := by
      intro hq
      have hmax := hover.mpr hq
      omega
    rw [if_neg hcommit, if_neg hq, if_neg fun h => hcommit h.1]
    rfl

end Checked

theorem advanceCommitIndex_same (n : RaftNode) (stray : Nat) :
    n.advanceCommitIndex stray
      = { n with commitIndex := (n.advanceCommitIndex stray).commitIndex } := by
  unfold RaftNode.advanceCommitIndex
  dsimp only
  split <;> rfl

theorem Checked.advanceCommitIndex_same {stray : Option Nat} {n m : RaftNode}
    (hlen : n.matchIndex.length = n.peers.length) (h : advanceCommitIndex stray n = .ok m) :
    m = { n with commitIndex := m.commitIndex } := by
  cases stray with
  | none =>
    rw [advanceCommitIndex_eq hlen 0] at h
    split at h
    · exact nomatch h
    · cases h
      exact n.advanceCommitIndex_same 0
  | some stray =>
    rw [advanceCommitIndex_stray hlen] at h
    cases h
    exact n.advanceCommitIndex_same stray

/-- A success reply after which a quorum of the peers has reported an index past the log of the
leader, and past what is committed. -/
def Overreached (n : RaftNode) (fromPeer : Uuid) (term : Nat) (success : Bool) (matchIdx : Nat) :
    Prop :=
  n.state = .leader ∧ term ≤ n.currentTerm ∧ fromPeer ∈ n.peers ∧ success = true ∧
    n.quorum ≤ (n.matchIndex.set (n.peerIndex fromPeer) matchIdx).countP
      (max n.commitIndex n.lastLogIndex < ·)

/-- `acknowledge`, with the sum of a `uint64_t`. -/
def acknowledge64 (n : RaftNode) (pi matchIdx : Nat) : RaftNode :=
  { n with nextIndex := n.nextIndex.set pi (up64 matchIdx),
           matchIndex := n.matchIndex.set pi matchIdx }

/-- What a refusal from peer number `pi` changes. -/
def backOff (n : RaftNode) (pi : Nat) : RaftNode :=
  let next := n.nextIndex.getD pi 1
  if next > 1 then { n with nextIndex := n.nextIndex.set pi (next - 1) } else n

/-- What a reply comes to at a leader. -/
inductive Replied (stray : Option Nat) (n : RaftNode) (fromPeer : Uuid) (term : Nat)
    (success : Bool) (matchIdx rand : Nat) : Except Fault (RaftNode × List RaftMessage) → Prop
  | newer (hterm : n.currentTerm < term) :
      Replied stray n fromPeer term success matchIdx rand (.ok (n.becomeFollower term rand, []))
  | unknown (hterm : term ≤ n.currentTerm) (hpeer : fromPeer ∉ n.peers) :
      Replied stray n fromPeer term success matchIdx rand (.ok (n, []))
  | acknowledged (hterm : term ≤ n.currentTerm) (hpeer : fromPeer ∈ n.peers)
      (hsuccess : success = true) {m : RaftNode}
      (hadvance : Checked.advanceCommitIndex stray
        (n.acknowledge64 (n.peerIndex fromPeer) matchIdx) = .ok m) :
      Replied stray n fromPeer term success matchIdx rand (.ok (m, []))
  | strayed (hterm : term ≤ n.currentTerm) (hpeer : fromPeer ∈ n.peers)
      (hsuccess : success = true) {fault : Fault}
      (hadvance : Checked.advanceCommitIndex stray
        (n.acknowledge64 (n.peerIndex fromPeer) matchIdx) = .error fault) :
      Replied stray n fromPeer term success matchIdx rand (.error fault)
  | refused (hterm : term ≤ n.currentTerm) (hpeer : fromPeer ∈ n.peers)
      (hsuccess : success = false) (msgs : List RaftMessage)
      (hsend : Checked.sendAppendEntries (n.backOff (n.peerIndex fromPeer)) fromPeer = .ok msgs) :
      Replied stray n fromPeer term success matchIdx rand
        (.ok (n.backOff (n.peerIndex fromPeer), msgs))

theorem Slotted.acknowledge64 {n : RaftNode} (h : n.Slotted) (pi matchIdx : Nat) :
    (n.acknowledge64 pi matchIdx).Slotted :=
  ⟨List.length_set.trans h.nextIndex, List.length_set.trans h.matchIndex⟩

theorem backOff_same (n : RaftNode) (pi : Nat) :
    (n.backOff pi).nextIndex.length = n.nextIndex.length ∧
      n.backOff pi = { n with nextIndex := (n.backOff pi).nextIndex } := by
  unfold backOff
  dsimp only
  split
  · exact ⟨List.length_set, rfl⟩
  · exact ⟨rfl, rfl⟩

theorem Slotted.backOff {n : RaftNode} (h : n.Slotted) (pi : Nat) : (n.backOff pi).Slotted := by
  obtain ⟨hlen, hsame⟩ := n.backOff_same pi
  rw [hsame]
  exact ⟨hlen.trans h.nextIndex, h.matchIndex⟩

namespace Checked

variable {n : RaftNode} {fromPeer : Uuid}

/-- `if (nextIndex[pi] > 1) nextIndex[pi]--;`, in range. -/
theorem lowered_eq {pi : Nat} (hpi : pi < n.nextIndex.length) :
    ((if n.nextIndex[pi] > 1 then assignAt n.nextIndex pi (n.nextIndex[pi] - 1)
      else .ok n.nextIndex) : Except Fault (List Nat)) = .ok (n.backOff pi).nextIndex := by
  have hget : n.nextIndex.getD pi 1 = n.nextIndex[pi] := by
    rw [List.getD_eq_getElem?_getD, List.getElem?_eq_getElem hpi, Option.getD_some]
  unfold backOff
  rw [hget]
  dsimp only
  by_cases hone : n.nextIndex[pi] > 1
  · rw [if_pos hone, if_pos hone, assignAt, if_pos hpi]
  · rw [if_neg hone, if_neg hone]

/-- No subscript but that of `advanceCommitIndex` goes out of range. -/
theorem handleAppendEntriesReply_replied (stray : Option Nat) (hlead : n.state = .leader)
    (h : n.Slotted) (term : Nat) (success : Bool) (matchIdx rand : Nat) :
    Replied stray n fromPeer term success matchIdx rand
      (handleAppendEntriesReply stray n fromPeer term success matchIdx rand) := by
  unfold handleAppendEntriesReply
  rw [if_neg (not_not.mpr hlead)]
  by_cases hnewer : term > n.currentTerm
  · rw [if_pos hnewer]
    exact .newer hnewer
  have hterm := Nat.le_of_not_lt hnewer
  rw [if_neg hnewer]
  dsimp only
  by_cases hunknown : n.peerIndex fromPeer ≥ n.peers.length
  · rw [if_pos hunknown]
    exact .unknown hterm fun hmem =>
      Nat.not_lt.mpr hunknown (List.idxOf_lt_length_iff.mpr hmem)
  have hpi := Nat.not_le.mp hunknown
  have hpeer : fromPeer ∈ n.peers := List.idxOf_lt_length_iff.mp hpi
  have hnext : n.peerIndex fromPeer < n.nextIndex.length := h.nextIndex ▸ hpi
  have hmatch : n.peerIndex fromPeer < n.matchIndex.length := h.matchIndex ▸ hpi
  rw [if_neg hunknown]
  cases success with
  | true =>
    rw [if_pos rfl, assignAt, if_pos hnext, assignAt, if_pos hmatch]
    show Replied _ _ _ _ _ _ _
      (advanceCommitIndex stray (n.acknowledge64 (n.peerIndex fromPeer) matchIdx) >>= _)
    cases hadvance : advanceCommitIndex stray (n.acknowledge64 (n.peerIndex fromPeer) matchIdx) with
    | error e => exact .strayed hterm hpeer rfl hadvance
    | ok m => exact .acknowledged hterm hpeer rfl hadvance
  | false =>
    rw [if_neg Bool.false_ne_true, elementAt_of_lt hnext]
    dsimp only [bind, Except.bind]
    rw [lowered_eq hnext]
    dsimp only
    rw [← (n.backOff_same (n.peerIndex fromPeer)).2]
    obtain ⟨msgs, hsend⟩ := sendAppendEntries_ok (h.backOff (n.peerIndex fromPeer)) fromPeer
    rw [hsend]
    exact .refused hterm hpeer rfl msgs hsend

theorem advance_acknowledge_eq (h : n.Slotted) (pi matchIdx stray : Nat) :
    advanceCommitIndex none (n.acknowledge64 pi matchIdx)
      = if n.quorum ≤ (n.matchIndex.set pi matchIdx).countP
            (max n.commitIndex n.lastLogIndex < ·) then
          .error (.undefined "subscript out of range")
        else .ok ((n.acknowledge64 pi matchIdx).advanceCommitIndex stray) :=
  advanceCommitIndex_eq (List.length_set.trans h.matchIndex) stray

theorem fault_eq (h : n.Slotted) {term matchIdx rand : Nat} {success : Bool} {fault : Fault}
    (hreplied : Replied none n fromPeer term success matchIdx rand (.error fault)) :
    fault = .undefined "subscript out of range" := by
  cases hreplied with
  | strayed _ _ _ hadvance =>
    rw [advance_acknowledge_eq h _ _ 0] at hadvance
    split at hadvance
    · cases hadvance
      rfl
    · exact nomatch hadvance

/-- The look past the log is the one thing that fails. -/
theorem overreached_iff (hlead : n.state = .leader) (h : n.Slotted) {term matchIdx rand : Nat}
    {success : Bool} {out : Except Fault (RaftNode × List RaftMessage)}
    (hreplied : Replied none n fromPeer term success matchIdx rand out) :
    n.Overreached fromPeer term success matchIdx ↔
      out = .error (.undefined "subscript out of range") := by
  cases hreplied with
  | newer hnewer => exact iff_of_false (fun hreach => Nat.not_le.mpr hnewer hreach.2.1) nofun
  | unknown _ hpeer => exact iff_of_false (fun hreach => hpeer hreach.2.2.1) nofun
  | refused _ _ hsuccess =>
    exact iff_of_false (fun hreach => nomatch hsuccess.symm.trans hreach.2.2.2.1) nofun
  | acknowledged _ _ _ hadvance =>
    refine iff_of_false (fun hreach => ?_) nofun
    rw [advance_acknowledge_eq h _ _ 0, if_pos hreach.2.2.2.2] at hadvance
    exact nomatch hadvance
  | strayed hterm hpeer hsuccess hadvance =>
    rw [advance_acknowledge_eq h _ _ 0] at hadvance
    split at hadvance
    · rename_i hquorum
      cases hadvance
      exact iff_of_true ⟨hlead, hterm, hpeer, hsuccess, hquorum⟩ rfl
    · exact nomatch hadvance

/-- The checked handler of typed replies is the other one, where nothing wraps. -/
theorem handleAppendEntriesReply_eq (h : n.state = .leader → n.Slotted) {term : Nat}
    {success : Bool} {matchIdx : Nat} (hreach : ¬ n.Overreached fromPeer term success matchIdx)
    (hnext : ∀ i ∈ n.nextIndex, 1 ≤ i) (hidx : matchIdx + 1 < 2 ^ 64) (rand stray : Nat) :
    handleAppendEntriesReply none n fromPeer term success matchIdx rand
      = .ok (n.handleAppendEntriesReply fromPeer term success matchIdx rand stray) := by
  by_cases hlead : n.state = .leader
  swap
  · unfold handleAppendEntriesReply RaftNode.handleAppendEntriesReply
    rw [if_pos hlead, if_pos hlead]
  have hslots := h hlead
  have hreplied : Replied none n fromPeer term success matchIdx rand _ :=
    handleAppendEntriesReply_replied none hlead hslots term success matchIdx rand
  have hcount : term ≤ n.currentTerm → fromPeer ∈ n.peers → success = true →
      ¬ n.quorum ≤ (n.matchIndex.set (n.peerIndex fromPeer) matchIdx).countP
        (max n.commitIndex n.lastLogIndex < ·) :=
    fun hterm hpeer hsuccess hq => hreach ⟨hlead, hterm, hpeer, hsuccess, hq⟩
  unfold RaftNode.handleAppendEntriesReply
  rw [if_neg (not_not.mpr hlead)]
  generalize handleAppendEntriesReply none n fromPeer term success matchIdx rand = out at hreplied
  cases hreplied with
  | newer hnewer => rw [if_pos hnewer]
  | unknown hterm hpeer =>
    have hpi := Nat.le_of_not_lt (mt List.idxOf_lt_length_iff.mp hpeer)
    rw [if_neg (Nat.not_lt.mpr hterm)]
    exact congrArg Except.ok (if_pos hpi).symm
  | strayed hterm hpeer hsuccess hadvance =>
    rw [advance_acknowledge_eq hslots _ _ stray, if_neg (hcount hterm hpeer hsuccess)] at hadvance
    exact nomatch hadvance
  | acknowledged hterm hpeer hsuccess hadvance =>
    have hpi : n.peerIndex fromPeer < n.peers.length := List.idxOf_lt_length_iff.mpr hpeer
    have hack : n.acknowledge64 (n.peerIndex fromPeer) matchIdx
        = n.acknowledge (n.peerIndex fromPeer) matchIdx := by
      unfold acknowledge64
      rw [up64_eq hidx]
      rfl
    rw [advance_acknowledge_eq hslots _ _ stray, hack, if_neg (hcount hterm hpeer hsuccess)]
      at hadvance
    cases hadvance
    rw [if_neg (Nat.not_lt.mpr hterm)]
    dsimp only
    rw [if_neg (Nat.not_le.mpr hpi), if_pos hsuccess]
  | refused hterm hpeer hsuccess msgs hsend =>
    have hpi : n.peerIndex fromPeer < n.peers.length := List.idxOf_lt_length_iff.mpr hpeer
    have hlowered : ∀ i ∈ (n.backOff (n.peerIndex fromPeer)).nextIndex, 1 ≤ i := by
      unfold backOff
      dsimp only
      split
      · intro i hi
        rcases List.mem_or_eq_of_mem_set hi with hi | rfl
        · exact hnext i hi
        · omega
      · exact hnext
    rw [sendAppendEntries_eq (hslots.backOff _) hlowered] at hsend
    cases hsend
    rw [if_neg (Nat.not_lt.mpr hterm), hsuccess]
    dsimp only
    rw [if_neg (Nat.not_le.mpr hpi), if_neg Bool.false_ne_true]
    rfl

end Checked

/-! ## From the text on -/

/-- A text that is such a reply. -/
def Overreaching (n : RaftNode) (fromPeer : Uuid) (parts : List Bytes) : Prop :=
  parts.head? = some (ascii "RAFT_AER") ∧ 4 ≤ parts.length ∧
    ∃ term flag matchIdx, numberAt parts 2 = .ok term ∧ partAt parts 3 = .ok flag ∧
      numberAt parts 4 = .ok matchIdx ∧
      n.Overreached fromPeer term (flag == ascii "1") matchIdx

variable {n : RaftNode} {fromPeer : Uuid} {parts : List Bytes} {rand : Nat}

theorem readReply_eq_ok_iff {payload : Payload} :
    readReply parts = .ok payload ↔
      ∃ term flag matchIdx, numberAt parts 2 = .ok term ∧ partAt parts 3 = .ok flag ∧
        numberAt parts 4 = .ok matchIdx ∧
        payload = .appendEntriesReply term (flag == ascii "1") matchIdx := by
  constructor
  · intro h
    obtain ⟨term, hterm, h⟩ := Except.of_bind_eq_ok h
    obtain ⟨flag, hflag, h⟩ := Except.of_bind_eq_ok h
    obtain ⟨matchIdx, hidx, h⟩ := Except.of_bind_eq_ok h
    cases h
    exact ⟨term, flag, matchIdx, hterm, hflag, hidx, rfl⟩
  · rintro ⟨term, flag, matchIdx, hterm, hflag, hidx, rfl⟩
    unfold readReply
    rw [hterm, hflag, hidx]
    rfl

/-- What the text of a reply comes to. -/
inductive RepliedText (stray : Option Nat) (n : RaftNode) (fromPeer : Uuid) (parts : List Bytes)
    (rand : Nat) : Except Fault (List RaftMessage) × RaftNode → Prop
  | ignored (hskip : n.state ≠ .leader ∨ parts.length < 4) :
      RepliedText stray n fromPeer parts rand (.ok [], n)
  | unreadable (hlead : n.state = .leader) (hlen : 4 ≤ parts.length) (fault : Fault)
      (hread : readReply parts = .error fault) :
      RepliedText stray n fromPeer parts rand (.error fault, n)
  | strayed (hlead : n.state = .leader) (hlen : 4 ≤ parts.length) {term matchIdx : Nat}
      {success : Bool} (hread : readReply parts = .ok (.appendEntriesReply term success matchIdx))
      (fault : Fault)
      (hreplied : Replied stray n fromPeer term success matchIdx rand (.error fault)) :
      RepliedText stray n fromPeer parts rand (.error fault, n)
  | replied (hlead : n.state = .leader) (hlen : 4 ≤ parts.length) {term matchIdx : Nat}
      {success : Bool} (hread : readReply parts = .ok (.appendEntriesReply term success matchIdx))
      {m : RaftNode} {msgs : List RaftMessage}
      (hreplied : Replied stray n fromPeer term success matchIdx rand (.ok (m, msgs))) :
      RepliedText stray n fromPeer parts rand (.ok msgs, m)

namespace Checked

theorem handleAppendEntriesReplyText_replied (stray : Option Nat)
    (h : n.state = .leader → n.Slotted) :
    RepliedText stray n fromPeer parts rand
      ((handleAppendEntriesReplyText stray fromPeer parts rand).call n) := by
  unfold handleAppendEntriesReplyText
  rw [Method.call_bind_ok (Method.call_get n)]
  by_cases hskip : ¬ n.state = .leader ∨ parts.length < 4
  · rw [if_pos hskip]
    exact .ignored hskip
  rw [if_neg hskip]
  have hlead : n.state = .leader := not_not.mp fun hnot => hskip (Or.inl hnot)
  have hlen : 4 ≤ parts.length := Nat.le_of_not_lt fun hlt => hskip (Or.inr hlt)
  have hunreadable : ∀ e, readReply parts = .error e →
      RepliedText stray n fromPeer parts rand (.error e, n) := fun e => .unreadable hlead hlen e
  unfold readReply at hunreadable
  refine Method.call_bind_lift (fun e he => hunreadable e (by rw [he]; rfl)) fun term hterm => ?_
  rw [hterm] at hunreadable
  refine Method.call_bind_lift (fun e he => hunreadable e (by rw [he]; rfl)) fun flag hflag => ?_
  rw [hflag] at hunreadable
  refine Method.call_bind_lift (fun e he => hunreadable e (by rw [he]; rfl)) fun matchIdx hidx => ?_
  have hread := readReply_eq_ok_iff.mpr ⟨term, flag, matchIdx, hterm, hflag, hidx, rfl⟩
  have hreplied : Replied stray n fromPeer term (flag == ascii "1") matchIdx rand _ :=
    handleAppendEntriesReply_replied stray hlead (h hlead) term _ matchIdx rand
  refine Method.call_bind_lift (fun e he => ?_) fun out hout => ?_
  · rw [he] at hreplied
    exact .strayed hlead hlen hread e hreplied
  · obtain ⟨m, msgs⟩ := out
    rw [hout] at hreplied
    exact .replied hlead hlen hread hreplied

/-- Only the reply to an `AppendEntries` can make `stray` count. -/
theorem handleText_stray {least : Nat} {ready : RaftNode → Prop} [DecidablePred ready]
    {read : List Bytes → Except Fault Payload}
    (hread : ∀ payload, read parts = .ok payload → ∀ rand stray,
      n.step fromPeer payload rand stray = n.step fromPeer payload rand 0) (rand stray : Nat) :
    (handleText least ready read fromPeer parts rand 0).call n
      = (handleText least ready read fromPeer parts rand stray).call n := by
  unfold handleText
  rw [Method.call_bind_ok (Method.call_get n), Method.call_bind_ok (Method.call_get n)]
  by_cases hskip : ¬ ready n ∨ parts.length < least
  · rw [if_pos hskip, if_pos hskip]
  rw [if_neg hskip, if_neg hskip]
  cases hp : read parts with
  | error e => rfl
  | ok payload =>
    rw [Method.lift_ok_bind, Method.lift_ok_bind, hread payload hp rand stray]

theorem readVote_stray {payload : Payload} (h : readVote parts = .ok payload) (rand stray : Nat) :
    n.step fromPeer payload rand stray = n.step fromPeer payload rand 0 := by
  obtain ⟨term, -, h⟩ := Except.of_bind_eq_ok h
  obtain ⟨lastIdx, -, h⟩ := Except.of_bind_eq_ok h
  obtain ⟨lastTerm, -, h⟩ := Except.of_bind_eq_ok h
  cases h
  rfl

theorem readVoteReply_stray {payload : Payload} (h : readVoteReply parts = .ok payload)
    (rand stray : Nat) : n.step fromPeer payload rand stray = n.step fromPeer payload rand 0 := by
  obtain ⟨term, -, h⟩ := Except.of_bind_eq_ok h
  obtain ⟨flag, -, h⟩ := Except.of_bind_eq_ok h
  cases h
  rfl

theorem handleAppendEntriesReplyText_eq (h : n.state = .leader → n.Slotted)
    (hhead : parts.head? = some (ascii "RAFT_AER")) (hreach : ¬ n.Overreaching fromPeer parts)
    (hnext : ∀ i ∈ n.nextIndex, 1 ≤ i) (hidx : ∀ k, numberAt parts 4 = .ok k → k + 1 < 2 ^ 64)
    (rand stray : Nat) :
    (handleAppendEntriesReplyText none fromPeer parts rand).call n
      = (handleText 4 (·.state = .leader) readReply fromPeer parts rand stray).call n := by
  unfold handleAppendEntriesReplyText handleText
  rw [Method.call_bind_ok (Method.call_get n), Method.call_bind_ok (Method.call_get n)]
  by_cases hskip : ¬ n.state = .leader ∨ parts.length < 4
  · rw [if_pos hskip, if_pos hskip]
  rw [if_neg hskip, if_neg hskip]
  unfold readReply
  cases hterm : numberAt parts 2 with
  | error e => rfl
  | ok term =>
    cases hflag : partAt parts 3 with
    | error e => rfl
    | ok flag =>
      cases hmatch : numberAt parts 4 with
      | error e => rfl
      | ok matchIdx =>
        have hin : ¬ n.Overreached fromPeer term (flag == ascii "1") matchIdx := fun hover =>
          hreach ⟨hhead, Nat.le_of_not_lt fun hlt => hskip (Or.inr hlt), term, flag, matchIdx,
            hterm, hflag, hmatch, hover⟩
        simp only [Method.lift_ok_bind]
        rw [handleAppendEntriesReply_eq h hin hnext (hidx matchIdx hmatch) rand stray]
        rfl

/-- **The checks change nothing**, but where a reply reaches past the log or a sum wraps. -/
theorem stepText_eq (h : n.state = .leader → n.Slotted) {raw : Bytes}
    (hreach : ¬ n.Overreaching fromPeer (parseParts raw)) (hnext : ∀ i ∈ n.nextIndex, 1 ≤ i)
    (hidx : ∀ k, numberAt (parseParts raw) 4 = .ok k → k + 1 < 2 ^ 64) (rand stray : Nat) :
    (stepText none fromPeer raw rand).call n
      = (RaftNode.stepText fromPeer raw rand stray).call n := by
  unfold stepText RaftNode.stepText
  generalize parseParts raw = parts at hreach hidx
  cases parts with
  | nil => rfl
  | cons name fields =>
    dsimp only
    by_cases hentries : name = ascii "RAFT_AE"
    · rw [if_pos hentries, if_pos hentries, handleAppendEntriesText_eq]
    rw [if_neg hentries, if_neg hentries]
    by_cases hreply : name = ascii "RAFT_AER"
    · have hhead : (name :: fields).head? = some (ascii "RAFT_AER") := congrArg some hreply
      rw [if_pos hreply, if_pos hreply]
      exact handleAppendEntriesReplyText_eq h hhead hreach hnext hidx rand stray
    rw [if_neg hreply, if_neg hreply]
    by_cases hvote : name = ascii "RAFT_RV"
    · rw [if_pos hvote, if_pos hvote]
      exact handleText_stray (fun _ hp => readVote_stray hp) rand stray
    rw [if_neg hvote, if_neg hvote]
    by_cases hgrant : name = ascii "RAFT_RVR"
    · rw [if_pos hgrant, if_pos hgrant]
      exact handleText_stray (fun _ hp => readVoteReply_stray hp) rand stray
    · rw [if_neg hgrant, if_neg hgrant]

end Checked
end RaftNode
end Raft
end KvJet
