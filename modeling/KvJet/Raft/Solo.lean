import KvJet.Lib.Run
import KvJet.Raft.Moves
import KvJet.Raft.Text

/-!
# One node, whatever it is sent

What a `RaftNode` can count on by itself, with nothing known of the senders of its messages. Its
term only grows, and along its log the terms only grow up to it; an `AppendEntries` is written
without a gap; the arrays of a leader have one cell for each peer. An `AppendEntries` that is
handled twice in a row does nothing the second time (`appendEntries_idempotent`).

What an input can do to the term and the log is one of three moves (`Advance`).
-/

namespace KvJet
namespace Raft

/-- What may come to a node: any message, from anyone. -/
inductive Input where
  | tick (rand : Nat)
  | propose (cmd : Bytes)
  | step (fromPeer : Uuid) (payload : Payload) (rand stray : Nat)
deriving DecidableEq

def RaftNode.receive (n : RaftNode) : Input → RaftNode
  | .tick rand => (n.tick rand).1
  | .propose cmd => (n.propose cmd).1
  | .step fromPeer payload rand stray => (n.step fromPeer payload rand stray).1

/-- What one input makes of the term and the log. -/
inductive Advance (n n' : RaftNode) : Prop
  | keep (hlog : n'.log = n.log) (hterm : n.currentTerm ≤ n'.currentTerm)
  | push (cmd : Bytes) (hlog : n'.log = n.log ++ [⟨n.currentTerm, cmd⟩])
      (hterm : n'.currentTerm = n.currentTerm)
  | splice (prevIdx prevTerm : Nat) (cmds : List Bytes) (hterm : n.currentTerm ≤ n'.currentTerm)
      (hprev : prevIdx = 0 ∨ stampAt n.log prevIdx = some prevTerm)
      (hlog : n'.log = splice n'.currentTerm (prevIdx + 1) cmds n.log)

/-- The arrays of a leader have one cell for each peer. -/
structure RaftNode.Slotted (n : RaftNode) : Prop where
  nextIndex : n.nextIndex.length = n.peers.length
  matchIndex : n.matchIndex.length = n.peers.length

/-- What one input makes of the arrays. -/
structure Refits (n n' : RaftNode) : Prop where
  peers : n'.peers = n.peers
  stays : n.Slotted → n'.Slotted
  leads : n'.state = .leader → n.state = .leader ∨ n'.Slotted

variable {n n' : RaftNode}

namespace RaftNode

/-! ## The methods, one by one

Each method by what it does to the term and the log (`Advance`), and to the arrays of a leader
(`Refits`). -/

theorem Refits.of_same (hpeers : n'.peers = n.peers) (hnext : n'.nextIndex = n.nextIndex)
    (hmatch : n'.matchIndex = n.matchIndex) (hleads : n'.state = .leader → n.state = .leader) :
    Refits n n' where
  peers := hpeers
  stays h := ⟨by rw [hnext, hpeers]; exact h.nextIndex, by rw [hmatch, hpeers]; exact h.matchIndex⟩
  leads h := Or.inl (hleads h)

theorem slotted_becomeLeader (n : RaftNode) : n.becomeLeader.Slotted where
  nextIndex := List.length_replicate
  matchIndex := List.length_replicate

theorem advance_tick (n : RaftNode) (rand : Nat) :
    Advance n (n.tick rand).1 ∧ Refits n (n.tick rand).1 := by
  unfold tick
  dsimp only
  split
  · rename_i hlead
    split <;> exact ⟨.keep rfl (Nat.le_refl _), Refits.of_same rfl rfl rfl fun _ => hlead⟩
  · split
    · exact ⟨.keep rfl (Nat.le_succ _), Refits.of_same rfl rfl rfl fun h => absurd h (by
        simp [becomeCandidate, resetElectionTimer])⟩
    · exact ⟨.keep rfl (Nat.le_refl _), Refits.of_same rfl rfl rfl fun h => h⟩

theorem advance_propose (n : RaftNode) (cmd : Bytes) :
    Advance n (n.propose cmd).1 ∧ Refits n (n.propose cmd).1 := by
  unfold propose
  dsimp only
  split
  · exact ⟨.keep rfl (Nat.le_refl _), Refits.of_same rfl rfl rfl fun h => h⟩
  · split <;> exact ⟨.push cmd rfl rfl, Refits.of_same rfl rfl rfl fun h => h⟩

theorem follow_same (n : RaftNode) (term rand : Nat) :
    (n.follow term rand).log = n.log ∧ Refits n (n.follow term rand) := by
  unfold follow
  split
  · exact ⟨rfl, Refits.of_same rfl rfl rfl fun h => absurd h (by
      simp [becomeFollower, resetElectionTimer])⟩
  · exact ⟨rfl, Refits.of_same rfl rfl rfl fun h => h⟩

/-- The message's term is the node's from then on. -/
theorem follow_currentTerm {term : Nat} (h : n.currentTerm ≤ term) (rand : Nat) :
    (n.follow term rand).currentTerm = term := by
  unfold follow
  split
  · rfl
  · rename_i hnot
    exact Nat.le_antisymm h (Nat.le_of_not_lt fun hlt => hnot (Or.inl hlt))

theorem not_mismatch_iff {prevIdx prevTerm : Nat} :
    ¬ n.Mismatch prevIdx prevTerm ↔ prevIdx = 0 ∨ stampAt n.log prevIdx = some prevTerm := by
  unfold Mismatch stampAt
  rw [not_and_or, not_lt, Nat.le_zero, not_not]

theorem receiveEntries_accepted {prevIdx prevTerm : Nat} (h : ¬ n.Mismatch prevIdx prevTerm)
    (fromPeer : Uuid) (term leaderCommit : Nat) (cmds : List Bytes) :
    ∃ m, n.receiveEntries fromPeer term prevIdx prevTerm leaderCommit cmds
        = (m, [⟨fromPeer, .appendEntriesReply n.currentTerm true m.lastLogIndex⟩]) ∧
      m.nextIndex = n.nextIndex ∧
      Same m { n with
        log := Raft.splice term (prevIdx + 1) cmds n.log
        commitIndex := if leaderCommit > n.commitIndex then
            min leaderCommit ((Raft.splice term (prevIdx + 1) cmds n.log).length - 1)
          else n.commitIndex } := by
  have hsame := appendEntries_same n term prevIdx cmds
  have hnext := appendEntries_nextIndex n term prevIdx cmds
  unfold receiveEntries
  rw [if_neg (show ¬ (prevIdx > 0 ∧ n.log[prevIdx]?.map LogEntry.term ≠ some prevTerm) from h)]
  generalize n.appendEntries term prevIdx cmds = m at hsame hnext
  dsimp only
  have hterm : m.currentTerm = n.currentTerm := hsame.currentTerm
  rw [hsame.commitIndex]
  by_cases hlc : leaderCommit > n.commitIndex
  · rw [if_pos hlc, if_pos hlc]
    refine ⟨{ m with commitIndex := min leaderCommit m.lastLogIndex }, by rw [← hterm], hnext,
      hsame.selfId, hsame.peers, hsame.currentTerm, hsame.votedFor, hsame.log, ?_, hsame.lastApplied, hsame.state,
      hsame.matchIndex, hsame.voteCount⟩
    simp only [lastLogIndex, hsame.log]
  · rw [if_neg hlc, if_neg hlc]
    exact ⟨m, by rw [hterm], hnext, hsame.selfId, hsame.peers, hsame.currentTerm, hsame.votedFor,
      hsame.log, hsame.commitIndex, hsame.lastApplied, hsame.state, hsame.matchIndex,
      hsame.voteCount⟩

theorem advance_appendEntries (n : RaftNode) (fromPeer : Uuid)
    (term prevIdx prevTerm leaderCommit : Nat) (cmds : List Bytes) (rand : Nat) :
    Advance n (n.handleAppendEntries fromPeer term prevIdx prevTerm leaderCommit cmds rand).1 ∧
      Refits n (n.handleAppendEntries fromPeer term prevIdx prevTerm leaderCommit cmds rand).1 := by
  rw [handleAppendEntries_eq]
  split
  · exact ⟨.keep rfl (Nat.le_refl _), Refits.of_same rfl rfl rfl fun h => h⟩
  · rename_i hold
    have hterm := Nat.le_of_not_lt hold
    obtain ⟨hlog, hrefits⟩ := n.follow_same term rand
    have hcurrent := follow_currentTerm hterm rand
    by_cases hmis : (n.follow term rand).Mismatch prevIdx prevTerm
    · rw [receiveEntries_mismatch hmis]
      exact ⟨.keep hlog (le_of_le_of_eq hterm hcurrent.symm), hrefits⟩
    · obtain ⟨m, heq, hnext, hsame⟩ :=
        receiveEntries_accepted hmis fromPeer term leaderCommit cmds
      have hprev := not_mismatch_iff.mp hmis
      rw [hlog] at hprev hsame
      rw [heq]
      have hm : m.currentTerm = term := hsame.currentTerm.trans hcurrent
      refine ⟨.splice prevIdx prevTerm cmds (le_of_le_of_eq hterm hm.symm) hprev
        (by rw [hm]; exact hsame.log), ?_⟩
      refine ⟨hsame.peers.trans hrefits.peers, fun h => ?_, fun h => ?_⟩
      · have hfits := hrefits.stays h
        exact ⟨by rw [hnext, hsame.peers]; exact hfits.nextIndex,
          by rw [hsame.matchIndex, hsame.peers]; exact hfits.matchIndex⟩
      · rw [hsame.state] at h
        rcases hrefits.leads h with hlead | hfits
        · exact Or.inl hlead
        · exact Or.inr ⟨by rw [hnext, hsame.peers]; exact hfits.nextIndex,
            by rw [hsame.matchIndex, hsame.peers]; exact hfits.matchIndex⟩

theorem advance_appendEntriesReply (n : RaftNode) (fromPeer : Uuid) (term : Nat) (success : Bool)
    (matchIdx rand stray : Nat) :
    Advance n (n.handleAppendEntriesReply fromPeer term success matchIdx rand stray).1 ∧
      Refits n (n.handleAppendEntriesReply fromPeer term success matchIdx rand stray).1 := by
  have hsame : Advance n n ∧ Refits n n :=
    ⟨.keep rfl (Nat.le_refl _), Refits.of_same rfl rfl rfl fun h => h⟩
  unfold handleAppendEntriesReply
  split
  · exact hsame
  · rename_i hst
    have hlead : n.state = .leader := not_not.mp hst
    split
    · rename_i hterm
      exact ⟨.keep rfl (Nat.le_of_lt hterm), Refits.of_same rfl rfl rfl fun h => absurd h (by
        simp [becomeFollower, resetElectionTimer])⟩
    · dsimp only
      split
      · exact hsame
      · split
        · refine ⟨.keep ?_ ?_, ?_, fun h => ?_, fun _ => Or.inl hlead⟩
          · unfold advanceCommitIndex
            dsimp only
            split <;> rfl
          · unfold advanceCommitIndex
            dsimp only
            split <;> exact Nat.le_refl _
          · unfold advanceCommitIndex
            dsimp only
            split <;> rfl
          · unfold advanceCommitIndex
            dsimp only
            split <;> exact ⟨List.length_set.trans h.nextIndex, List.length_set.trans h.matchIndex⟩
        · refine ⟨.keep ?_ ?_, ?_, fun h => ?_, fun _ => Or.inl hlead⟩
          · split <;> rfl
          · split <;> exact Nat.le_refl _
          · split <;> rfl
          · split
            · exact ⟨List.length_set.trans h.nextIndex, h.matchIndex⟩
            · exact h

theorem advance_requestVote (n : RaftNode) (fromPeer : Uuid) (term lastIdx lastTerm rand : Nat) :
    Advance n (n.handleRequestVote fromPeer term lastIdx lastTerm rand).1 ∧
      Refits n (n.handleRequestVote fromPeer term lastIdx lastTerm rand).1 := by
  unfold handleRequestVote considerVote
  split
  · exact ⟨.keep rfl (Nat.le_refl _), Refits.of_same rfl rfl rfl fun h => h⟩
  · dsimp only
    split
    · rename_i hterm
      split <;> exact ⟨.keep rfl (Nat.le_of_lt hterm), Refits.of_same rfl rfl rfl fun h =>
        absurd h (by simp [becomeFollower, resetElectionTimer])⟩
    · split <;> exact ⟨.keep rfl (Nat.le_refl _), Refits.of_same rfl rfl rfl fun h => h⟩

theorem advance_requestVoteReply (n : RaftNode) (term : Nat) (granted : Bool) (rand : Nat) :
    Advance n (n.handleRequestVoteReply term granted rand) ∧
      Refits n (n.handleRequestVoteReply term granted rand) := by
  unfold handleRequestVoteReply
  split
  · exact ⟨.keep rfl (Nat.le_refl _), Refits.of_same rfl rfl rfl fun h => h⟩
  · split
    · rename_i hterm
      exact ⟨.keep rfl (Nat.le_of_lt hterm), Refits.of_same rfl rfl rfl fun h => absurd h (by
        simp [becomeFollower, resetElectionTimer])⟩
    · split
      · dsimp only
        split
        · exact ⟨.keep rfl (Nat.le_refl _), rfl, fun _ => slotted_becomeLeader _,
            fun _ => Or.inr (slotted_becomeLeader _)⟩
        · exact ⟨.keep rfl (Nat.le_refl _), Refits.of_same rfl rfl rfl fun h => h⟩
      · exact ⟨.keep rfl (Nat.le_refl _), Refits.of_same rfl rfl rfl fun h => h⟩

/-- **What an input can do.** -/
theorem advance_receive (n : RaftNode) (i : Input) :
    Advance n (n.receive i) ∧ Refits n (n.receive i) := by
  cases i with
  | tick rand => exact advance_tick n rand
  | propose cmd => exact advance_propose n cmd
  | step fromPeer payload rand stray =>
    cases payload with
    | appendEntries term prevIdx prevTerm leaderCommit cmds =>
      exact advance_appendEntries n fromPeer term prevIdx prevTerm leaderCommit cmds rand
    | appendEntriesReply term success matchIdx =>
      exact advance_appendEntriesReply n fromPeer term success matchIdx rand stray
    | requestVote term lastIdx lastTerm =>
      exact advance_requestVote n fromPeer term lastIdx lastTerm rand
    | requestVoteReply term granted => exact advance_requestVoteReply n term granted rand

/-! ## A second time

What the first time leaves is a node to which the message is no news (`Settled`), and such a node is
left alone. -/

theorem appendLoop_covered {term : Nat} (truncated : Bool) : ∀ (cmds : List Bytes) (idx : Nat),
    (∀ i, idx ≤ i → i < idx + cmds.length → stampAt n.log i = some term) →
    appendLoop term idx cmds (n, truncated) = (n, truncated) := by
  intro cmds
  induction cmds with
  | nil => intro idx _; rfl
  | cons cmd cmds ih =>
    intro idx hcovered
    have hfirst := hcovered idx (Nat.le_refl _) (by simp)
    obtain ⟨e, he, hs⟩ := stampAt_eq_some.mp hfirst
    have hlt := lt_length_of_stampAt hfirst
    unfold appendLoop
    simp only [he, hs, Option.map_some, Option.getD_some, ne_eq, not_true_eq_false, decide_false,
      Bool.false_eq_true, if_false, Bool.or_false, ge_iff_le, Nat.not_le.mpr hlt]
    exact ih (idx + 1) fun i hi hi' =>
      hcovered i (Nat.le_of_succ_le hi) (by rw [List.length_cons]; omega)

/-- After the splice every covered entry carries the message's term, and the entry in front of
them is the one that was there. -/
theorem splice_covered (term : Nat) (cmds : List Bytes) {prevIdx : Nat} {l : List LogEntry}
    (hprev : prevIdx < l.length) :
    (∀ i, prevIdx < i → i ≤ prevIdx + cmds.length →
      stampAt (Raft.splice term (prevIdx + 1) cmds l) i = some term) ∧
    stampAt (Raft.splice term (prevIdx + 1) cmds l) prevIdx = stampAt l prevIdx := by
  rcases splice_cases term cmds hprev with ⟨heq, hstamps⟩ |
    ⟨c, hpc, -, -, hbefore, -, -, hsame, hnew⟩
  · rw [heq]
    exact ⟨hstamps, rfl⟩
  · refine ⟨fun i hi hi' => ?_, by unfold stampAt; rw [hsame _ hpc]⟩
    unfold stampAt
    by_cases hic : i < c
    · rw [hsame i hic]
      exact hbefore i hi hic
    · rw [hnew i (Nat.le_of_not_lt hic) hi', List.getElem?_eq_getElem (by omega)]
      rfl

/-- The node has already taken in what the message carries. -/
structure Settled (n : RaftNode) (term prevIdx prevTerm leaderCommit : Nat) (cmds : List Bytes) :
    Prop where
  prev : ¬ n.Mismatch prevIdx prevTerm
  covered : ∀ i, prevIdx < i → i ≤ prevIdx + cmds.length → stampAt n.log i = some term
  committed : leaderCommit > n.commitIndex → min leaderCommit n.lastLogIndex = n.commitIndex

theorem receiveEntries_settled {term prevIdx prevTerm leaderCommit : Nat} {cmds : List Bytes}
    (h : n.Settled term prevIdx prevTerm leaderCommit cmds) (fromPeer : Uuid) :
    n.receiveEntries fromPeer term prevIdx prevTerm leaderCommit cmds
      = (n, [⟨fromPeer, .appendEntriesReply n.currentTerm true n.lastLogIndex⟩]) := by
  have hentries : n.appendEntries term prevIdx cmds = n := by
    unfold appendEntries
    rw [appendLoop_covered false cmds (prevIdx + 1) fun i hi hi' =>
      h.covered i hi (by omega)]
    rfl
  unfold receiveEntries
  rw [if_neg (show ¬ (prevIdx > 0 ∧ n.log[prevIdx]?.map LogEntry.term ≠ some prevTerm) from
    h.prev), hentries]
  dsimp only
  split
  · rename_i hlc
    rw [h.committed hlc]
  · rfl

theorem settled_receiveEntries {prevIdx prevTerm : Nat} (hlog : n.log[0]? = some sentinel)
    (h : ¬ n.Mismatch prevIdx prevTerm) (fromPeer : Uuid) (term leaderCommit : Nat)
    (cmds : List Bytes) :
    (n.receiveEntries fromPeer term prevIdx prevTerm leaderCommit cmds).1.Settled
      term prevIdx prevTerm leaderCommit cmds := by
  obtain ⟨m, heq, -, hsame⟩ := receiveEntries_accepted h fromPeer term leaderCommit cmds
  have hprev : prevIdx < n.log.length := by
    rcases not_mismatch_iff.mp h with rfl | hstamp
    · exact (List.getElem?_eq_some_iff.mp hlog).1
    · exact lt_length_of_stampAt hstamp
  obtain ⟨hcovered, hbefore⟩ := splice_covered term cmds hprev
  have hmlog : m.log = Raft.splice term (prevIdx + 1) cmds n.log := hsame.log
  rw [heq]
  refine ⟨not_mismatch_iff.mpr ?_, by rw [hmlog]; exact hcovered, fun hlc => ?_⟩
  · rw [hmlog, hbefore]
    exact not_mismatch_iff.mp h
  · have hcommit := hsame.commitIndex
    dsimp only at hcommit hlc ⊢
    unfold lastLogIndex
    rw [hmlog]
    split at hcommit
    · exact hcommit.symm
    · rename_i hle
      exact absurd (hcommit ▸ hlc) hle

theorem follow_again {term rand : Nat} (hterm : n.currentTerm = term) (hst : n.state ≠ .candidate) :
    n.follow term rand = n.resetElectionTimer rand := by
  unfold follow
  rw [if_neg]
  rintro (hlt | hcand)
  · exact absurd hlt (by omega)
  · exact hst hcand

theorem follow_state (n : RaftNode) (term rand : Nat) :
    (n.follow term rand).state ≠ .candidate := by
  unfold follow
  split
  · exact nofun
  · rename_i h
    exact fun hcand => h (Or.inr hcand)

/-- **A message handled twice in a row.**

After the first time the node is `Settled`: the entry in front is as the message says, its commands
stand where they belong with its term, and `commitIndex` has gone as far as it lets it. Then the
second time finds nothing to write, and comes to the same reply. Only the election timer is drawn
anew. -/
theorem appendEntries_idempotent (hlog : n.log[0]? = some sentinel) (fromPeer : Uuid)
    (term prevIdx prevTerm leaderCommit : Nat) (cmds : List Bytes) (rand rand' stray : Nat) :
    let message := Payload.appendEntries term prevIdx prevTerm leaderCommit cmds
    let once := n.step fromPeer message rand stray
    let twice := once.1.step fromPeer message rand' stray
    twice.1 = { once.1 with electionTimer := twice.1.electionTimer } ∧ twice.2 = once.2 := by
  dsimp only [step]
  rw [handleAppendEntries_eq (n := n)]
  by_cases hold : term < n.currentTerm
  · rw [if_pos hold, handleAppendEntries_eq, if_pos hold]
    exact ⟨rfl, rfl⟩
  have hcurrent := follow_currentTerm (Nat.le_of_not_lt hold) rand
  have hstate := n.follow_state term rand
  have hflog : (n.follow term rand).log[0]? = some sentinel := by
    rw [(n.follow_same term rand).1]
    exact hlog
  rw [if_neg hold]
  generalize n.follow term rand = f at hcurrent hstate hflog
  by_cases hmis : f.Mismatch prevIdx prevTerm
  · rw [receiveEntries_mismatch hmis, handleAppendEntries_eq,
      if_neg (Nat.not_lt.mpr (Nat.le_of_eq hcurrent)), follow_again hcurrent hstate,
      receiveEntries_mismatch (n := f.resetElectionTimer rand') hmis]
    exact ⟨rfl, rfl⟩
  · have hsettled := settled_receiveEntries hflog hmis fromPeer term leaderCommit cmds
    obtain ⟨m, heq, -, hsame⟩ := receiveEntries_accepted hmis fromPeer term leaderCommit cmds
    rw [heq] at hsettled ⊢
    have hmterm : m.currentTerm = term := hsame.currentTerm.trans hcurrent
    have hmstate : m.state ≠ .candidate := by
      rw [hsame.state]
      exact hstate
    have hagain : (m.resetElectionTimer rand').Settled term prevIdx prevTerm leaderCommit cmds :=
      ⟨hsettled.prev, hsettled.covered, hsettled.committed⟩
    rw [handleAppendEntries_eq, if_neg (Nat.not_lt.mpr (Nat.le_of_eq hmterm)),
      follow_again hmterm hmstate, receiveEntries_settled hagain]
    refine ⟨rfl, ?_⟩
    show [_] = [_]
    rw [show (m.resetElectionTimer rand').currentTerm = f.currentTerm from
      hmterm.trans hcurrent.symm]
    rfl

/-- Three commands that overlap a log whose last entry is of an older term. -/
theorem appendEntries_idempotent_overlap :
    let n : RaftNode := { groupId := 0, selfId := 1, peers := [2, 3], currentTerm := 2,
                          log := [sentinel, ⟨1, [97]⟩, ⟨2, [98]⟩, ⟨1, [99]⟩] }
    let message := Payload.appendEntries 2 1 1 9 [[98], [100], [101]]
    let once := n.step 2 message 5 0
    let twice := once.1.step 2 message 6 0
    twice.1 = { once.1 with electionTimer := twice.1.electionTimer } ∧ twice.2 = once.2 :=
  appendEntries_idempotent rfl 2 2 1 1 9 [[98], [100], [101]] 5 6 0

/-! ## Along a run

What a move may make of a log is said in terms of the log alone, so that it can be checked against
the message without going through the loop again. -/

/-- What an accepted message may make of a log: `kept` of its commands stand where they belong
already, with its term, and the rest, if any, go behind what is kept of the log, one after
another. So nothing is ever written past the end: the first index written is at most the length
of the log, and every later one is the next. -/
def Contiguous (term prevIdx : Nat) (cmds : List Bytes) (before after : List LogEntry) : Prop :=
  prevIdx < before.length ∧
  ∃ kept ≤ cmds.length,
    (∀ j < kept, stampAt before (prevIdx + 1 + j) = some term) ∧
    ((kept = cmds.length ∧ after = before) ∨
     (kept < cmds.length ∧ prevIdx + 1 + kept ≤ before.length ∧
      stampAt before (prevIdx + 1 + kept) ≠ some term ∧
      after = before.take (prevIdx + 1 + kept) ++ (cmds.drop kept).map (LogEntry.mk term)))

theorem contiguous_splice (term : Nat) (cmds : List Bytes) {prevIdx : Nat} {l : List LogEntry}
    (h : prevIdx < l.length) :
    Contiguous term prevIdx cmds l (Raft.splice term (prevIdx + 1) cmds l) :=
  ⟨h, splice_spec term cmds (prevIdx + 1) l h⟩

theorem ordered_receive (h : Ordered n.currentTerm n.log) (i : Input) :
    Ordered (n.receive i).currentTerm (n.receive i).log := by
  cases (n.advance_receive i).1 with
  | keep hlog hterm =>
    rw [hlog]
    exact h.mono hterm
  | push cmd hlog hterm =>
    rw [hlog, hterm]
    exact h.push cmd
  | splice prevIdx prevTerm cmds hterm hprev hlog =>
    rw [hlog]
    refine (h.mono hterm).splice cmds ?_
    rcases hprev with rfl | hstamp
    · exact h.pos
    · exact lt_length_of_stampAt hstamp

theorem currentTerm_le_receive (n : RaftNode) (i : Input) :
    n.currentTerm ≤ (n.receive i).currentTerm := by
  cases (n.advance_receive i).1 with
  | keep _ hterm => exact hterm
  | push _ _ hterm => exact Nat.le_of_eq hterm.symm
  | splice _ _ _ hterm => exact hterm

/-- What every node has, whatever it was sent. -/
structure Regular (n : RaftNode) : Prop where
  ordered : Ordered n.currentTerm n.log
  slotted : n.state = .leader → n.Slotted

theorem regular_receive (h : n.Regular) (i : Input) : (n.receive i).Regular := by
  have hrefits := (n.advance_receive i).2
  refine ⟨ordered_receive h.ordered i, fun hlead => ?_⟩
  rcases hrefits.leads hlead with hled | hslots
  · exact hrefits.stays (h.slotted hled)
  · exact hslots

theorem regular_construct (groupId : Nat) (selfId : Uuid) (peers : List Uuid) (rand : Nat) :
    (construct groupId selfId peers rand).Regular := by
  have hordered : Ordered 0 [sentinel] := by
    have hstamp : ∀ i s, stampAt [sentinel] i = some s → s = 0 := by
      intro i s hs
      have hi := lt_length_of_stampAt hs
      rw [List.length_singleton, Nat.lt_one_iff] at hi
      subst hi
      exact (Option.some.inj hs).symm
    refine ⟨rfl, fun i j s s' _ hs hs' => ?_, fun i s hs => Nat.le_of_eq (hstamp i s hs)⟩
    rw [hstamp i s hs]
    exact Nat.zero_le s'
  unfold construct
  dsimp only
  split
  · exact ⟨hordered, fun _ => slotted_becomeLeader _⟩
  · exact ⟨hordered, nofun⟩

open Run (exec)

theorem exec_receive_keeps {I : RaftNode → Prop} (keeps : ∀ n i, I n → I (n.receive i))
    {n : RaftNode} (h : I n) (inputs : List Input) : I (exec receive n inputs) :=
  Run.keeps_exec keeps inputs h

/-- A success reply is in the message's term, from a node that passed the consistency check, and
the node's log is then the old one with the commands spliced in. -/
theorem of_success {fromPeer : Uuid} {term prevIdx prevTerm leaderCommit : Nat}
    {cmds : List Bytes} {rand t k : Nat}
    (h : ⟨fromPeer, .appendEntriesReply t true k⟩ ∈
      (n.handleAppendEntries fromPeer term prevIdx prevTerm leaderCommit cmds rand).2) :
    t = term ∧ (prevIdx = 0 ∨ stampAt n.log prevIdx = some prevTerm) ∧
      (n.handleAppendEntries fromPeer term prevIdx prevTerm leaderCommit cmds rand).1.log
        = Raft.splice term (prevIdx + 1) cmds n.log := by
  rw [handleAppendEntries_eq] at h ⊢
  split at h
  · simp at h
  · rename_i hold
    have hterm := follow_currentTerm (Nat.le_of_not_lt hold) rand
    rw [← (n.follow_same term rand).1]
    by_cases hmis : (n.follow term rand).Mismatch prevIdx prevTerm
    · rw [receiveEntries_mismatch hmis] at h
      simp at h
    · obtain ⟨m, heq, -, hsame⟩ := receiveEntries_accepted hmis fromPeer term leaderCommit cmds
      rw [heq, List.mem_singleton, RaftMessage.mk.injEq, Payload.appendEntriesReply.injEq,
        hterm] at h
      rw [if_neg hold, heq]
      exact ⟨h.2.1, not_mismatch_iff.mp hmis, hsame.log⟩

/-- **Terms only grow and logs are sorted.** Every input does one of three things to the log
(`Advance`): it keeps it, pushes an entry of the node's own term, or splices the entries of a
message in whose term the node then is. None of them puts a smaller term behind a larger one, nor
one above `currentTerm`, which no handler lowers. A splice starts behind an entry that the
consistency check found, so it leaves no gap; the arrays of a leader are made by `becomeLeader`,
one slot a peer, and only ever assigned to afterwards. -/
theorem terms_grow_logs_sorted (groupId : Nat) (selfId : Uuid) (peers : List Uuid) (rand : Nat)
    (inputs : List Input) :
    let run := exec receive (construct groupId selfId peers rand)
    let n := run inputs
    (∀ pre, pre <+: inputs → (run pre).currentTerm ≤ n.currentTerm) ∧
    n.log[0]? = some sentinel ∧
    Sorted n.log ∧
    (∀ i s, stampAt n.log i = some s → s ≤ n.currentTerm) ∧
    (∀ fromPeer term prevIdx prevTerm leaderCommit cmds rand stray t k,
      ⟨fromPeer, .appendEntriesReply t true k⟩ ∈
        (n.step fromPeer (.appendEntries term prevIdx prevTerm leaderCommit cmds) rand stray).2 →
      Contiguous term prevIdx cmds n.log
        (n.step fromPeer (.appendEntries term prevIdx prevTerm leaderCommit cmds) rand
          stray).1.log) ∧
    ∀ pre, pre <+: inputs → (run pre).state = .leader →
      n.nextIndex.length = n.peers.length ∧ n.matchIndex.length = n.peers.length := by
  dsimp only
  have hregular : ∀ inputs, (exec receive (construct groupId selfId peers rand) inputs).Regular :=
    exec_receive_keeps (I := Regular) (fun _ i h => regular_receive h i)
      (regular_construct groupId selfId peers rand)
  obtain ⟨hordered, -⟩ := hregular inputs
  refine ⟨?_, hordered.root, hordered.sorted, hordered.bound, ?_, ?_⟩
  · rintro pre ⟨rest, rfl⟩
    rw [Run.exec_append]
    exact exec_receive_keeps (fun n i h => Nat.le_trans h (n.currentTerm_le_receive i))
      (Nat.le_refl _) rest
  · intro fromPeer term prevIdx prevTerm leaderCommit cmds rand stray t k hsuccess
    obtain ⟨-, hprev, hlog⟩ := of_success hsuccess
    rw [step, hlog]
    refine contiguous_splice term cmds ?_
    rcases hprev with rfl | hstamp
    · exact hordered.pos
    · exact lt_length_of_stampAt hstamp
  · rintro pre ⟨rest, rfl⟩ hlead
    rw [Run.exec_append]
    have hslots := exec_receive_keeps (fun n i => (n.advance_receive i).2.stays)
      ((hregular pre).slotted hlead) rest
    exact ⟨hslots.nextIndex, hslots.matchIndex⟩

/-- A follower whose second entry a new leader replaces: the first is kept, and the log goes on
with the two commands behind it. -/
theorem terms_grow_logs_sorted_followed :
    let first := Input.step 2 (.appendEntries 1 0 0 0 [[97], [98]]) 0 0
    let n := exec receive (construct 0 1 [2, 3] 0) [first]
    let message := Payload.appendEntries 2 1 1 0 [[99], [100]]
    (n.step 3 message 0 0).1.log = [sentinel, ⟨1, [97]⟩, ⟨2, [99]⟩, ⟨2, [100]⟩] ∧
    Contiguous 2 1 [[99], [100]] n.log (n.step 3 message 0 0).1.log := by
  refine ⟨by decide, ?_⟩
  have h := terms_grow_logs_sorted 0 1 [2, 3] 0 [.step 2 (.appendEntries 1 0 0 0 [[97], [98]]) 0 0]
  exact h.2.2.2.2.1 3 2 1 1 0 [[99], [100]] 0 0 2 3 (by decide)

/-! ## A group of one

Such a node leads from its construction, and its own index is the quorum. -/

/-- A node without peers leads and has committed all of its log. -/
structure Lone (n : RaftNode) : Prop where
  peers : n.peers = []
  leads : n.state = .leader
  committed : n.commitIndex = n.lastLogIndex
  applied : n.lastApplied ≤ n.commitIndex
  pos : 0 < n.log.length

theorem Lone.tick (h : n.Lone) (rand : Nat) :
    (n.tick rand).2 = [] ∧ (n.tick rand).1.Lone ∧ (n.tick rand).1.log = n.log := by
  unfold RaftNode.tick
  dsimp only
  rw [if_pos (show (n.record .flush).state = .leader from h.leads)]
  have hpeers : (n.record .flush).peers = [] := h.peers
  split
  · exact ⟨by rw [hpeers]; rfl, ⟨h.peers, h.leads, h.committed, h.applied, h.pos⟩, rfl⟩
  · exact ⟨rfl, ⟨h.peers, h.leads, h.committed, h.applied, h.pos⟩, rfl⟩

theorem Lone.propose (h : n.Lone) (cmd : Bytes) :
    (n.propose cmd).2 = [] ∧ (n.propose cmd).1.Lone ∧ n.log <+: (n.propose cmd).1.log := by
  unfold RaftNode.propose
  dsimp only
  rw [if_neg (not_not.mpr h.leads), if_pos (by rw [h.peers]; rfl)]
  refine ⟨by simp only [record, h.peers, List.flatMap_nil],
    ⟨h.peers, h.leads, rfl, ?_, ?_⟩, List.prefix_append _ _⟩
  · have happlied := h.applied
    rw [h.committed] at happlied
    refine Nat.le_trans happlied ?_
    simp only [record, lastLogIndex, List.length_append]
    omega
  · simp [record]

theorem Lone.take (h : n.Lone) :
    n.takePendingApply.1.Lone ∧ n.takePendingApply.1.log = n.log :=
  ⟨⟨h.peers, h.leads, h.committed, Nat.max_le.mpr ⟨h.applied, Nat.le_refl _⟩, h.pos⟩, rfl⟩

end RaftNode

/-- A group of at most one, whose logs go on from `logs`. -/
structure Alone (g : Group) (logs : Uuid → List LogEntry) (w : World) : Prop where
  sent : w.sent = []
  node : ∀ x ∈ g.members, (w.node x).Lone
  grown : ∀ x ∈ g.members, logs x <+: (w.node x).log

variable {g : Group} {logs : Uuid → List LogEntry} {w : World}

theorem Alone.act (h : Alone g logs w) {x : Uuid} {n' : RaftNode} (hx : x ∈ g.members)
    (hn : n'.Lone) (hgrown : (w.node x).log <+: n'.log) : Alone g logs (w.act x (n', [])) := by
  refine ⟨by rw [World.act_sent, h.sent]; rfl, fun y hy => ?_, fun y hy => ?_⟩
  · rw [World.act_node_apply]
    split
    · exact hn
    · exact h.node y hy
  · rw [World.act_node_apply]
    split
    · rename_i hyx
      rw [hyx]
      exact (h.grown x hx).trans hgrown
    · exact h.grown y hy

theorem Alone.step (h : Alone g logs w) (ev : Event) : Alone g logs (g.step w ev) := by
  cases ev with
  | tick x rand =>
    simp only [Group.step]
    split
    · rename_i hx
      obtain ⟨hms, hn, hlog⟩ := (h.node x hx).tick rand
      have hact := h.act hx hn (hlog ▸ List.prefix_refl _)
      rwa [← hms] at hact
    · exact h
  | propose x cmd =>
    simp only [Group.step]
    split
    · rename_i hx
      obtain ⟨hms, hn, hlog⟩ := (h.node x hx).propose cmd
      have hact := h.act hx hn hlog
      rwa [← hms] at hact
    · exact h
  | apply x =>
    simp only [Group.step]
    split
    · rename_i hx
      obtain ⟨hn, hlog⟩ := (h.node x hx).take
      have hact := h.act hx hn (hlog ▸ List.prefix_refl _)
      exact ⟨hact.sent, hact.node, hact.grown⟩
    · exact h
  | deliver k rand stray =>
    simp only [Group.step]
    rw [h.sent]
    exact h

theorem Alone.exec (h : Alone g logs w) (evs : List Event) : Alone g logs (g.exec w evs) :=
  Run.keeps_exec (fun _ ev h => h.step ev) evs h

theorem alone_start (hsize : ¬ 2 ≤ g.size) (rand : Uuid → Nat) :
    Alone g (fun _ => []) (g.start rand) := by
  have hnode : ∀ x ∈ g.members, (g.start rand).node x
      = ({ groupId := g.groupId, selfId := x, peers := [] } : RaftNode).becomeLeader := by
    intro x hx
    have hpeers : g.peersOf x = [] := by
      have hlen := g.length_peersOf hx
      exact List.eq_nil_of_length_eq_zero (by omega)
    simp only [Group.start, RaftNode.construct, hpeers]
    rfl
  refine ⟨rfl, fun x hx => ?_, fun _ _ => List.nil_prefix⟩
  rw [hnode x hx]
  exact ⟨rfl, rfl, rfl, Nat.le_refl 0, Nat.one_pos⟩

end Raft
end KvJet
