import KvJet.Lib.Ballot
import KvJet.Raft.LogFile

/-!
# One vote in each term

A node that ticks, takes in whatever is sent to it, and is destroyed and constructed again from
its log file, and the votes it casts: its own when it becomes a candidate, and those it grants.

Neither `currentTerm` nor `votedFor` is in the file, and `becomeFollower` clears `votedFor` also
where the term stays the same: when a candidate hears from a leader of its own term. Both make
the node forget a vote. Where neither happens it is a voter of `Lib/Ballot.lean`.
-/

namespace KvJet
namespace Raft

namespace RaftNode

def voter (n : RaftNode) : Ballot.Voter Nat Uuid := ⟨n.currentTerm, n.votedFor⟩

/-- `tick` makes the node a candidate. -/
def Expires (n : RaftNode) : Prop := n.state ≠ .leader ∧ n.electionTimer - 1 ≤ 0

instance (n : RaftNode) : Decidable n.Expires := inferInstanceAs (Decidable (_ ∧ _))

/-- The vote for itself. -/
def castByTick (n : RaftNode) (rand : Nat) : List (Nat × Uuid) :=
  if n.Expires then [((n.tick64 rand).1.currentTerm, n.selfId)] else []

end RaftNode

/-- The votes granted in what is sent. -/
def grants (msgs : List RaftMessage) : List (Nat × Uuid) :=
  msgs.filterMap fun m => match m.payload with
    | .requestVoteReply term true => some (term, m.target)
    | _ => none

/-- The votes granted by a call; one that throws has sent nothing. -/
def grantsOf : Except Fault (List RaftMessage) → List (Nat × Uuid)
  | .ok msgs => grants msgs
  | .error _ => []

/-- The four numbers in front of the entries. -/
def headerOf (parts : List Bytes) : Except Fault (Nat × Nat × Nat × Nat) := do
  return (← numberAt parts 2, ← numberAt parts 3, ← numberAt parts 4, ← numberAt parts 5)

/-- A candidate is sent `AppendEntries` of its own term. -/
def RaftNode.Yields (n : RaftNode) (raw : Bytes) : Prop :=
  let parts := parseParts raw
  n.state = .candidate ∧ parts.head? = some (ascii "RAFT_AE") ∧ 6 ≤ parts.length ∧
    (headerOf parts).map Prod.fst = .ok n.currentTerm

instance (n : RaftNode) (raw : Bytes) : Decidable (n.Yields raw) :=
  inferInstanceAs (Decidable (_ ∧ _))

/-! ## What a call does to the voter -/

namespace RaftNode

variable {n : RaftNode} {fromPeer : Uuid} {rand : Nat}

@[simp] theorem voter_resetElectionTimer : (n.resetElectionTimer rand).voter = n.voter := rfl

theorem voter_follow {term : Nat} (hterm : n.currentTerm ≤ term)
    (h : n.state = .candidate → term ≠ n.currentTerm) :
    Ballot.Move n.voter (n.follow term rand).voter [] := by
  unfold follow
  rw [voter_resetElectionTimer]
  split
  · rename_i hdown
    have hlt : n.currentTerm < term := by
      rcases hdown with hlt | hcand
      · exact hlt
      · exact lt_of_le_of_ne hterm (h hcand).symm
    exact .advance hlt
  · exact .keep _

theorem voter_appendLoop (term : Nat) : ∀ (cmds : List Bytes) (idx : Nat) (s : RaftNode × Bool),
    (appendLoop term idx cmds s).1.voter = s.1.voter := by
  intro cmds
  induction cmds with
  | nil => intro idx s; rfl
  | cons cmd cmds ih =>
    intro idx ⟨n, truncated⟩
    unfold appendLoop
    rw [ih]
    dsimp only
    split <;> split <;> rfl

theorem voter_appendEntries (term prevIdx : Nat) (cmds : List Bytes) :
    (n.appendEntries term prevIdx cmds).voter = n.voter := by
  have h := voter_appendLoop term cmds (prevIdx + 1) (n, false)
  unfold appendEntries
  dsimp only
  split
  · exact h
  · exact h

theorem receiveEntries_keeps (n : RaftNode) (fromPeer : Uuid) (term prevIdx prevTerm leaderCommit : Nat) (cmds : List Bytes) :
    (n.receiveEntries fromPeer term prevIdx prevTerm leaderCommit cmds).1.voter = n.voter ∧
      grants (n.receiveEntries fromPeer term prevIdx prevTerm leaderCommit cmds).2 = [] := by
  unfold receiveEntries
  split
  · exact ⟨rfl, rfl⟩
  · refine ⟨?_, rfl⟩
    dsimp only
    split
    · exact voter_appendEntries term prevIdx cmds
    · exact voter_appendEntries term prevIdx cmds

theorem grants_sendAppendEntries (peer : Uuid) : grants (n.sendAppendEntries peer) = [] := by
  unfold sendAppendEntries
  dsimp only
  split <;> rfl

theorem considerVote_move (lastIdx lastTerm : Nat) :
    Ballot.Move n.voter (n.considerVote fromPeer lastIdx lastTerm rand).1.voter
      (grants (n.considerVote fromPeer lastIdx lastTerm rand).2) := by
  unfold considerVote
  split
  · rename_i h
    exact .cast h.1
  · exact .keep _

theorem handleRequestVote_move (term lastIdx lastTerm : Nat) :
    Ballot.Move n.voter (n.handleRequestVote fromPeer term lastIdx lastTerm rand).1.voter
      (grants (n.handleRequestVote fromPeer term lastIdx lastTerm rand).2) := by
  unfold handleRequestVote
  split
  · exact .keep _
  · dsimp only
    split
    · rename_i hterm
      unfold considerVote
      split
      · exact .advanceCast hterm fromPeer
      · exact .advance hterm
    · exact considerVote_move lastIdx lastTerm

theorem handleAppendEntriesReply_move (term : Nat) (success : Bool) (matchIdx stray : Nat) :
    Ballot.Move n.voter
      (n.handleAppendEntriesReply fromPeer term success matchIdx rand stray).1.voter
      (grants (n.handleAppendEntriesReply fromPeer term success matchIdx rand stray).2) := by
  unfold handleAppendEntriesReply
  split
  · exact .keep _
  · split
    · rename_i hterm
      exact .advance hterm
    · dsimp only
      split
      · exact .keep _
      · split
        · unfold advanceCommitIndex
          dsimp only
          split <;> exact .keep _
        · rw [grants_sendAppendEntries]
          split <;> exact .keep _

theorem handleRequestVoteReply_move (term : Nat) (granted : Bool) :
    Ballot.Move n.voter (n.handleRequestVoteReply term granted rand).voter [] := by
  unfold handleRequestVoteReply
  split
  · exact .keep _
  · split
    · rename_i hterm
      exact .advance hterm
    · split
      · dsimp only
        split <;> exact .keep _
      · exact .keep _

theorem tick_voter (n : RaftNode) (rand : Nat) : (n.tick rand).1.voter
    = if n.Expires then ⟨n.currentTerm + 1, some n.selfId⟩ else n.voter := by
  unfold tick
  dsimp only
  split
  · rename_i hlead
    rw [if_neg fun h : n.Expires => h.1 hlead]
    split <;> rfl
  · rename_i hlead
    split
    · rename_i htimer
      rw [if_pos ⟨hlead, htimer⟩]
      rfl
    · rename_i htimer
      rw [if_neg fun h : n.Expires => htimer h.2]
      rfl

theorem tick64_move (hsmall : n.currentTerm < 2 ^ 64)
    (h : n.Expires → n.currentTerm + 1 < 2 ^ 64) :
    Ballot.Move n.voter (n.tick64 rand).1.voter (n.castByTick rand) := by
  have hvoter := tick_voter n rand
  have hterm : (n.tick rand).1.voter.term < 2 ^ 64 := by
    rw [hvoter]
    split
    · rename_i hexp
      exact h hexp
    · exact hsmall
  have htick : n.tick64 rand = n.tick rand := if_pos hterm
  rw [castByTick, htick]
  by_cases hexp : n.Expires
  · rw [if_pos hexp] at hvoter ⊢
    have hnew : (n.tick rand).1.currentTerm = n.currentTerm + 1 :=
      congrArg Ballot.Voter.term hvoter
    rw [hvoter, hnew]
    exact .advanceCast (Nat.lt_succ_self _) n.selfId
  · rw [if_neg hexp] at hvoter ⊢
    rw [hvoter]
    exact .keep _

/-! ## Texts -/

/-- What a call comes to is a move of the voter. -/
def Votes (n : RaftNode) (r : Except Fault (List RaftMessage) × RaftNode) : Prop :=
  Ballot.Move n.voter r.2.voter (grantsOf r.1)

theorem Votes.returns (n : RaftNode) : n.Votes (.ok [], n) := Ballot.Move.keep _

theorem Votes.throws (n : RaftNode) (fault : Fault) : n.Votes (.error fault, n) :=
  Ballot.Move.keep _

variable {parts : List Bytes} {stray : Nat}

theorem handleAppendEntriesText_votes (h : n.state = .candidate → 6 ≤ parts.length →
      (headerOf parts).map Prod.fst ≠ .ok n.currentTerm) :
    n.Votes ((handleAppendEntriesText fromPeer parts rand).call n) := by
  unfold handleAppendEntriesText
  by_cases hlen : parts.length < 6
  · rw [if_pos hlen]
    exact .returns n
  rw [if_neg hlen]
  refine Method.call_bind_lift (fun e _ => .throws n e) fun term hterm => ?_
  refine Method.call_bind_lift (fun e _ => .throws n e) fun prevIdx hprevIdx => ?_
  refine Method.call_bind_lift (fun e _ => .throws n e) fun prevTerm hprevTerm => ?_
  refine Method.call_bind_lift (fun e _ => .throws n e) fun leaderCommit hcommit => ?_
  rw [Method.call_bind_ok (Method.call_get n)]
  by_cases hold : term < n.currentTerm
  · rw [if_pos hold]
    exact .returns n
  rw [if_neg hold, Method.call_bind_ok (Method.call_set _ n)]
  have hheader : (headerOf parts).map Prod.fst = .ok term := by
    rw [headerOf, hterm, hprevIdx, hprevTerm, hcommit]
    rfl
  have hfollow : Ballot.Move n.voter (n.follow term rand).voter [] := by
    refine voter_follow (Nat.le_of_not_lt hold) fun hcand heq => ?_
    exact h hcand (Nat.le_of_not_lt hlen) (heq ▸ hheader)
  by_cases hmis : (n.follow term rand).Mismatch prevIdx prevTerm
  · rw [if_pos hmis]
    exact hfollow
  rw [if_neg hmis]
  refine Method.call_bind_lift (fun e _ => hfollow) fun cmds _ => ?_
  obtain ⟨hvoter, hgrants⟩ :=
    (n.follow term rand).receiveEntries_keeps fromPeer term prevIdx prevTerm leaderCommit cmds
  rw [Method.call_bind_ok (Method.call_set _ _), Method.call_pure, Votes, hvoter, grantsOf, hgrants]
  exact hfollow

theorem handleText_votes {least : Nat} {ready : RaftNode → Prop} [DecidablePred ready]
    {read : List Bytes → Except Fault Payload}
    (hstep : ∀ payload, read parts = .ok payload →
      Ballot.Move n.voter (n.step fromPeer payload rand stray).1.voter
        (grants (n.step fromPeer payload rand stray).2)) :
    n.Votes ((handleText least ready read fromPeer parts rand stray).call n) := by
  unfold handleText
  rw [Method.call_bind_ok (Method.call_get n)]
  by_cases hskip : ¬ ready n ∨ parts.length < least
  · rw [if_pos hskip]
    exact .returns n
  rw [if_neg hskip]
  refine Method.call_bind_lift (fun e _ => .throws n e) fun payload hp => ?_
  rw [Method.call_bind_ok (Method.call_set _ n)]
  exact hstep payload hp

/-- **A text makes one move**, unless it makes a candidate yield. -/
theorem stepText_votes (raw : Bytes) (h : ¬ n.Yields raw) :
    n.Votes ((stepText fromPeer raw rand stray).call n) := by
  unfold stepText
  unfold Yields at h
  cases hparts : parseParts raw with
  | nil => exact .returns n
  | cons name fields =>
    rw [hparts] at h
    dsimp only at h ⊢
    split
    · rename_i hname
      exact handleAppendEntriesText_votes fun hcand hlen hheader =>
        h ⟨hcand, by rw [hname, List.head?_cons], hlen, hheader⟩
    · split
      · refine handleText_votes fun payload hp => ?_
        obtain ⟨term, -, hp⟩ := Except.of_bind_eq_ok hp
        obtain ⟨flag, -, hp⟩ := Except.of_bind_eq_ok hp
        obtain ⟨matchIdx, -, hp⟩ := Except.of_bind_eq_ok hp
        cases hp
        exact handleAppendEntriesReply_move _ _ _ _
      · split
        · refine handleText_votes fun payload hp => ?_
          obtain ⟨term, -, hp⟩ := Except.of_bind_eq_ok hp
          obtain ⟨lastIdx, -, hp⟩ := Except.of_bind_eq_ok hp
          obtain ⟨lastTerm, -, hp⟩ := Except.of_bind_eq_ok hp
          cases hp
          exact handleRequestVote_move _ _ _
        · split
          · refine handleText_votes fun payload hp => ?_
            obtain ⟨term, -, hp⟩ := Except.of_bind_eq_ok hp
            obtain ⟨flag, -, hp⟩ := Except.of_bind_eq_ok hp
            cases hp
            exact handleRequestVoteReply_move _ _
          · exact .returns n

theorem stepText_small (raw : Bytes) (hsmall : n.currentTerm < 2 ^ 64) :
    ((stepText fromPeer raw rand stray).call n).2.currentTerm < 2 ^ 64 := by
  have hheard : Heard n fromPeer (parseParts raw) rand stray
      ((stepText fromPeer raw rand stray).call n) := stepText_heard raw
  exact hheard.writes.term hsmall

end RaftNode

/-! ## Runs -/

/-- One node over its lives. -/
structure Voting where
  /-- Nothing once the constructor has thrown. -/
  node : Option RaftNode
  /-- The log file that the node came up with. -/
  file : Bytes
  /-- The votes cast so far, each with its term. -/
  votes : List (Nat × Uuid) := []
deriving DecidableEq

namespace Voting

inductive Act where
  | tick (rand : Nat)
  | step (fromPeer : Uuid) (raw : Bytes) (rand stray : Nat)
  /-- The node is destroyed and constructed again. -/
  | restart (rand : Nat)
deriving DecidableEq

/-- The constructor, on whatever the log file holds. -/
def construct (groupId : Nat) (selfId : Uuid) (peers : List Uuid) (file : Bytes) (rand : Nat)
    (votes : List (Nat × Uuid)) : Voting where
  node := (RaftNode.restore groupId selfId peers file rand).toOption
  file
  votes

variable (spill : Nat → Nat)

def step (s : Voting) (a : Act) : Voting :=
  match s.node with
  | none => s
  | some n =>
    match a with
    | .tick rand =>
      { s with node := some (n.tick64 rand).1, votes := s.votes ++ n.castByTick rand }
    | .step fromPeer raw rand stray =>
      let r := (RaftNode.stepText fromPeer raw rand stray).call n
      { s with node := some r.2, votes := s.votes ++ grantsOf r.1 }
    | .restart rand =>
      construct n.groupId n.selfId n.peers (Disk.onto spill s.file n.disk).close rand s.votes

/-- The node forgets no vote: its term does not run over, no leader of its own term makes it give
up a candidacy, and it is not constructed again once it has voted. -/
def Act.Harmless (n : RaftNode) (votes : List (Nat × Uuid)) : Act → Prop
  | .tick _ => n.Expires → n.currentTerm + 1 < 2 ^ 64
  | .step _ raw _ _ => ¬ n.Yields raw
  | .restart _ => votes = []

instance (n : RaftNode) (votes : List (Nat × Uuid)) : DecidablePred (Act.Harmless n votes)
  | .tick _ => inferInstanceAs (Decidable (_ → _))
  | .step .. => inferInstanceAs (Decidable (¬ _))
  | .restart _ => inferInstanceAs (Decidable (_ = _))

def Remembers (s : Voting) (a : Act) : Prop := ∀ n ∈ s.node, a.Harmless n s.votes

instance (s : Voting) (a : Act) : Decidable (s.Remembers a) :=
  inferInstanceAs (Decidable (∀ n ∈ s.node, a.Harmless n s.votes))

/-- What a run keeps. -/
structure Kept (s : Voting) : Prop where
  one : Ballot.OnePerTerm s.votes
  backed : ∀ n ∈ s.node, Ballot.Backed n.voter s.votes
  small : ∀ n ∈ s.node, n.currentTerm < 2 ^ 64

theorem kept_some {n : RaftNode} {file : Bytes} {votes : List (Nat × Uuid)}
    (hbacked : Ballot.Backed n.voter votes) (hsmall : n.currentTerm < 2 ^ 64) :
    Kept ⟨some n, file, votes⟩ where
  one := hbacked.one
  backed _ hn := Option.some.inj hn ▸ hbacked
  small _ hn := Option.some.inj hn ▸ hsmall

/-- A node that has just been constructed is in term 0. -/
theorem kept_construct (groupId : Nat) (selfId : Uuid) (peers : List Uuid) (file : Bytes)
    (rand : Nat) : (construct groupId selfId peers file rand []).Kept := by
  unfold construct
  cases hrestore : RaftNode.restore groupId selfId peers file rand with
  | error fault =>
    exact ⟨fun _ h => absurd h List.not_mem_nil, fun n h => absurd h (Option.not_mem_none n),
      fun n h => absurd h (Option.not_mem_none n)⟩
  | ok n =>
    refine kept_some (Ballot.backed_nil _) ?_
    obtain ⟨entries, -, hn⟩ := Except.of_bind_eq_ok hrestore
    cases hn
    split <;> exact Nat.two_pow_pos 64

theorem Kept.step {s : Voting} (h : s.Kept) (a : Act) (hharmless : s.Remembers a) :
    (s.step spill a).Kept := by
  cases hnode : s.node with
  | none =>
    unfold Voting.step
    rw [hnode]
    exact h
  | some n =>
    have hback := h.backed n hnode
    have hsmall := h.small n hnode
    have ha := hharmless n hnode
    unfold Voting.step
    rw [hnode]
    cases a with
    | tick rand =>
      refine kept_some (hback.move (n.tick64_move hsmall ha)) ?_
      exact (n.tick64_same rand).2.2
    | step fromPeer raw rand stray =>
      exact kept_some (hback.move (RaftNode.stepText_votes raw ha))
        (RaftNode.stepText_small raw hsmall)
    | restart rand =>
      have hnone : s.votes = [] := ha
      show (construct _ _ _ _ _ s.votes).Kept
      rw [hnone]
      exact kept_construct _ _ _ _ _

/-- **One vote per term**, in every run in which the node forgets no vote.

A vote is given when `votedFor` is empty or names the same candidate already, and `votedFor` is
emptied when the term grows. So while the node remembers it, there is one candidate for each term. A
restart, and a candidate that hears from a leader of its own term, empty it within the term, which
is what the condition excludes. -/
theorem one_vote_per_term (groupId : Nat) (selfId : Uuid) (peers : List Uuid) (file : Bytes)
    (rand : Nat) (acts : List Act)
    (hrun : Run.Along (step spill) Remembers (construct groupId selfId peers file rand []) acts) :
    Ballot.OnePerTerm
      (Run.exec (step spill) (construct groupId selfId peers file rand []) acts).votes := by
  have hkept : (Run.exec (step spill) (construct groupId selfId peers file rand []) acts).Kept :=
    Run.Along.invariant (fun s a ha hs => hs.step spill a ha) hrun (kept_construct _ _ _ _ _)
  exact hkept.one

/-- Node 1 votes for node 2 in term 1 and for node 3 in term 2. -/
def twoTerms : List Act :=
  [.step 2 (ascii "*5\r\n+RAFT_RV\r\n+0\r\n+1\r\n+0\r\n+0\r\n") 0 0,
   .step 3 (ascii "*5\r\n+RAFT_RV\r\n+0\r\n+1\r\n+0\r\n+0\r\n") 0 0,
   .step 3 (ascii "*5\r\n+RAFT_RV\r\n+0\r\n+2\r\n+0\r\n+0\r\n") 0 0]

theorem one_vote_twoTerms :
    (Run.exec (step fun _ => 0) (construct 0 1 [2, 3] [] 0 []) twoTerms).votes
        = [(1, 2), (2, 3)] ∧
      Ballot.OnePerTerm
        (Run.exec (step fun _ => 0) (construct 0 1 [2, 3] [] 0 []) twoTerms).votes := by
  refine ⟨by decide +kernel, ?_⟩
  exact one_vote_per_term (fun _ => 0) 0 1 [2, 3] [] 0 twoTerms (by decide +kernel)

/-- Constructed again, it does not know that it has voted in term 1. -/
def votedBefore : List Act :=
  [.step 2 (ascii "*5\r\n+RAFT_RV\r\n+0\r\n+1\r\n+0\r\n+0\r\n") 0 0,
   .restart 0,
   .step 3 (ascii "*5\r\n+RAFT_RV\r\n+0\r\n+1\r\n+0\r\n+0\r\n") 0 0]

theorem votedBefore_votes_again :
    (Run.exec (step fun _ => 0) (construct 0 1 [2, 3] [] 0 []) votedBefore).votes
        = [(1, 2), (1, 3)] ∧
      ¬ Ballot.OnePerTerm
        (Run.exec (step fun _ => 0) (construct 0 1 [2, 3] [] 0 []) votedBefore).votes := by
  have hvotes : (Run.exec (step fun _ => 0) (construct 0 1 [2, 3] [] 0 []) votedBefore).votes
      = [(1, 2), (1, 3)] := by decide +kernel
  refine ⟨hvotes, fun hone => ?_⟩
  rw [hvotes] at hone
  exact absurd (hone (1, 2) (by simp) (1, 3) (by simp) rfl) (by decide)

end Voting
end Raft
end KvJet
