import KvJet.Raft.Group
import KvJet.Raft.Log

/-!
# The moves of a group

Every event of a group is a chain of a few small moves (`step_moves`), each of which changes one
thing: a node adopts a term, grants a vote, accepts an `AppendEntries`, takes in a reply, moves
its `commitIndex`, and so on. The invariants of the later modules are proved move by move.

Only what the protocol depends on is said of a move; timers, `nextIndex` and the log file are
left open (`Same`). In particular an `AppendEntries` may start at any index (`Plain`).

`Care` chooses which of the four conditions of `Raft/Group.lean` the moves are known to meet.
-/

namespace KvJet
namespace Raft

open Relation (ReflTransGen)

/-- Equal but for the timers, `nextIndex` and the log file. -/
structure Same (n' n : RaftNode) : Prop where
  selfId : n'.selfId = n.selfId
  peers : n'.peers = n.peers
  currentTerm : n'.currentTerm = n.currentTerm
  votedFor : n'.votedFor = n.votedFor
  log : n'.log = n.log
  commitIndex : n'.commitIndex = n.commitIndex
  lastApplied : n'.lastApplied = n.lastApplied
  state : n'.state = n.state
  matchIndex : n'.matchIndex = n.matchIndex
  voteCount : n'.voteCount = n.voteCount

theorem Same.refl (n : RaftNode) : Same n n := ⟨rfl, rfl, rfl, rfl, rfl, rfl, rfl, rfl, rfl, rfl⟩

/-- Messages that need no more than the state of the sender: a leader's `AppendEntries`, from
any index on, and the two negative replies. -/
def Plain (n : RaftNode) : Payload → Prop
  | .appendEntries term prevIdx prevTerm leaderCommit cmds =>
    n.state = .leader ∧ term = n.currentTerm ∧ leaderCommit = n.commitIndex ∧
      prevTerm = (stampAt n.log prevIdx).getD 0 ∧
      cmds = (n.log.drop (prevIdx + 1)).map LogEntry.command
  | .appendEntriesReply _ success _ => success = false
  | .requestVote _ _ _ => False
  | .requestVoteReply _ granted => granted = false

structure Care where
  votes : Prop
  replies : Prop
  tails : Prop
  restamps : Prop

/-- Nothing is known of the deliveries. -/
def Care.none : Care := ⟨False, False, False, False⟩

/-- The old log survives an `AppendEntries` of the term it ends in (`World.NoRestamp`). -/
def Survives (n : RaftNode) (term prevIdx : Nat) (cmds : List Bytes) : Prop :=
  n.lastLogTerm = term → prevIdx + cmds.length < n.lastLogIndex →
    ∀ entry ∈ (n.log.drop (prevIdx + 1)).take cmds.length, entry.term = term

inductive Move (g : Group) (c : Care) : World → World → Prop
  | quiet {w : World} {x : Uuid} {n' : RaftNode} {ms : List RaftMessage} (hx : x ∈ g.members)
      (hn : Same n' (w.node x))
      (hms : ∀ m ∈ ms, m.target ∈ g.peersOf x ∧ Plain n' m.payload) :
      Move g c w (w.act x (n', ms))
  | stand {w : World} {x : Uuid} {n' : RaftNode} {ms : List RaftMessage} (hx : x ∈ g.members)
      (hst : (w.node x).state ≠ .leader)
      (hn : Same n' { w.node x with
        state := .candidate, currentTerm := (w.node x).currentTerm + 1,
        votedFor := some x, voteCount := 1 })
      (hms : ∀ m ∈ ms, m.target ∈ g.peersOf x ∧
        m.payload = .requestVote n'.currentTerm n'.lastLogIndex n'.lastLogTerm) :
      Move g c w (w.act x (n', ms))
  | adopt {w : World} {x : Uuid} {n' : RaftNode} {term : Nat} (hx : x ∈ g.members)
      (ht : (w.node x).currentTerm < term ∨
        ((w.node x).state = .candidate ∧ (w.node x).currentTerm = term ∧
          ∃ e ∈ w.sent, ∃ prevIdx prevTerm leaderCommit cmds,
            e.payload = .appendEntries term prevIdx prevTerm leaderCommit cmds))
      (hn : Same n' { w.node x with
        state := .follower, currentTerm := term, votedFor := none, voteCount := 0 }) :
      Move g c w (w.act x (n', []))
  | accept {w : World} {e : Envelope} {n' : RaftNode}
      {term prevIdx prevTerm leaderCommit : Nat} {cmds : List Bytes}
      (hx : e.dst ∈ g.members) (hsrc : e.src ∈ g.peersOf e.dst) (he : e ∈ w.sent)
      (hp : e.payload = .appendEntries term prevIdx prevTerm leaderCommit cmds)
      (ht : (w.node e.dst).currentTerm = term) (hst : (w.node e.dst).state ≠ .candidate)
      (hprev : prevIdx = 0 ∨ stampAt (w.node e.dst).log prevIdx = some prevTerm)
      (htail : c.tails → cmds = [] →
        (w.node e.dst).lastLogIndex ≤ prevIdx ∨ (w.node e.dst).lastLogTerm = term)
      (hkeep : c.restamps → Survives (w.node e.dst) term prevIdx cmds)
      (hn : Same n' { w.node e.dst with
        log := splice term (prevIdx + 1) cmds (w.node e.dst).log,
        commitIndex := if leaderCommit > (w.node e.dst).commitIndex then
            min leaderCommit ((splice term (prevIdx + 1) cmds (w.node e.dst).log).length - 1)
          else (w.node e.dst).commitIndex }) :
      Move g c w (w.act e.dst
        (n', [⟨e.src, .appendEntriesReply n'.currentTerm true n'.lastLogIndex⟩]))
  | grant {w : World} {e : Envelope} {n' : RaftNode} {term lastIdx lastTerm : Nat}
      (hx : e.dst ∈ g.members) (hsrc : e.src ∈ g.peersOf e.dst) (he : e ∈ w.sent)
      (hp : e.payload = .requestVote term lastIdx lastTerm)
      (ht : (w.node e.dst).currentTerm = term) (hcan : (w.node e.dst).canVote e.src)
      (hok : (w.node e.dst).logOk lastIdx lastTerm)
      (hn : Same n' { w.node e.dst with votedFor := some e.src }) :
      Move g c w (w.act e.dst (n', [⟨e.src, .requestVoteReply n'.currentTerm true⟩]))
  | count {w : World} {e : Envelope} {n' : RaftNode} {term : Nat}
      (hx : e.dst ∈ g.members) (he : e ∈ w.sent) (hp : e.payload = .requestVoteReply term true)
      (hst : (w.node e.dst).state = .candidate) (ht : term ≤ (w.node e.dst).currentTerm)
      (hv : c.votes → term = (w.node e.dst).currentTerm ∧
        (e.dst, (w.node e.dst).currentTerm, e.src) ∉ w.counted)
      (hn : Same n' { w.node e.dst with voteCount := (w.node e.dst).voteCount + 1 }) :
      Move g c w (({ w with
        counted := w.counted ++ [(e.dst, (w.node e.dst).currentTerm, e.src)] } : World).act
          e.dst (n', []))
  | lead {w : World} {x : Uuid} {n' : RaftNode} (hx : x ∈ g.members)
      (hst : (w.node x).state = .candidate) (hq : (w.node x).quorum ≤ (w.node x).voteCount)
      (h2 : 2 ≤ (w.node x).voteCount)
      (hn : Same n' { w.node x with
        state := .leader, voteCount := 0,
        matchIndex := List.replicate (w.node x).peers.length 0 }) :
      Move g c w (w.act x (n', []))
  | push {w : World} {x : Uuid} {n' : RaftNode} {ms : List RaftMessage} {cmd : Bytes}
      (hx : x ∈ g.members) (hst : (w.node x).state = .leader)
      (hn : Same n' { w.node x with
        log := (w.node x).log ++ [⟨(w.node x).currentTerm, cmd⟩] })
      (hms : ∀ m ∈ ms, m.target ∈ g.peersOf x ∧ Plain n' m.payload) :
      Move g c w (w.act x (n', ms))
  | ack {w : World} {e : Envelope} {n' : RaftNode} {term matchIdx : Nat}
      (hx : e.dst ∈ g.members) (he : e ∈ w.sent)
      (hp : e.payload = .appendEntriesReply term true matchIdx)
      (hst : (w.node e.dst).state = .leader) (ht : term ≤ (w.node e.dst).currentTerm)
      (hr : c.replies → term = (w.node e.dst).currentTerm)
      (hn : Same n' { w.node e.dst with
        matchIndex := (w.node e.dst).matchIndex.set ((w.node e.dst).peerIndex e.src) matchIdx }) :
      Move g c w (w.act e.dst (n', []))
  | commit {w : World} {x : Uuid} {n' : RaftNode} {stray : Nat} (hx : x ∈ g.members)
      (hst : (w.node x).state = .leader)
      (hi : (w.node x).commitIndex
        < (w.node x).sortedMatch.getD ((w.node x).quorum - 1) 0)
      (ht : (stampAt (w.node x).log
          ((w.node x).sortedMatch.getD ((w.node x).quorum - 1) 0)).getD stray
        = (w.node x).currentTerm)
      (hn : Same n' { w.node x with
        commitIndex := (w.node x).sortedMatch.getD ((w.node x).quorum - 1) 0 }) :
      Move g c w (w.act x (n', []))
  | apply {w : World} {x : Uuid} (hx : x ∈ g.members) :
      Move g c w { w.act x ((w.node x).takePendingApply.1, []) with
        applied := Function.update w.applied x
          (w.applied x ++ (w.node x).takePendingApply.2.map LogEntry.command) }

theorem Group.length_peersOf (g : Group) {x : Uuid} (hx : x ∈ g.members) :
    (g.peersOf x).length + 1 = g.size := by
  have herase : g.peersOf x = g.members.erase x := by
    rw [g.nodup.erase_eq_filter]
    exact List.filter_congr fun y _ => by simp [bne, beq_eq_decide]
  have hpos := List.length_pos_of_mem hx
  rw [herase, List.length_erase_of_mem hx]
  exact Nat.sub_add_cancel hpos

/-! ## Acting

Whatever a member does, the world takes its new node and its messages in the same way, so what
happens to each part of the world is said here once. -/

namespace World

variable {w : World} {x : Uuid} {r : RaftNode × List RaftMessage}

@[simp] theorem act_node : (w.act x r).node = Function.update w.node x r.1 := by
  unfold act observe
  dsimp only
  split <;> rfl

theorem act_node_apply (y : Uuid) : (w.act x r).node y = if y = x then r.1 else w.node y := by
  rw [act_node]
  by_cases hy : y = x
  · rw [hy, Function.update_self, if_pos rfl]
  · rw [Function.update_of_ne hy, if_neg hy]

@[simp] theorem act_sent : (w.act x r).sent
    = w.sent ++ r.2.map fun m => ⟨x, m.target, m.payload, r.1.log⟩ := by
  unfold act observe
  dsimp only
  split <;> rfl

@[simp] theorem act_counted : (w.act x r).counted = w.counted := by
  unfold act observe
  dsimp only
  split <;> rfl

@[simp] theorem act_applied : (w.act x r).applied = w.applied := by
  unfold act observe
  dsimp only
  split <;> rfl

theorem act_led (h : r.1.state = .leader) : (w.act x r).led
    = if (x, r.1.currentTerm) ∈ w.led then w.led else w.led ++ [(x, r.1.currentTerm)] := by
  simp [act, observe, h]

theorem act_opening (h : r.1.state = .leader) : (w.act x r).opening
    = if (x, r.1.currentTerm) ∈ w.led then w.opening
      else Function.update w.opening r.1.currentTerm r.1.log := by
  simp [act, observe, h]

theorem act_ledger (h : r.1.state = .leader) : (w.act x r).ledger
    = Function.update w.ledger r.1.currentTerm r.1.log := by
  simp [act, observe, h]

theorem act_led_of_ne (h : r.1.state ≠ .leader) : (w.act x r).led = w.led := by
  simp [act, observe, h]

theorem act_opening_of_ne (h : r.1.state ≠ .leader) : (w.act x r).opening = w.opening := by
  simp [act, observe, h]

theorem act_ledger_of_ne (h : r.1.state ≠ .leader) : (w.act x r).ledger = w.ledger := by
  simp [act, observe, h]

/-- Two actions of one node in a row are one, if the first sent nothing and left nothing to
write down that the second does not write down too. -/
theorem act_act {a : RaftNode} (h : a.state = .leader →
    r.1.state = .leader ∧ r.1.currentTerm = a.currentTerm ∧ r.1.log = a.log) :
    (w.act x (a, [])).act x r = w.act x r := by
  by_cases ha : a.state = .leader
  · obtain ⟨hs, ht, hl⟩ := h ha
    simp only [act, observe, Function.update_self, ha, hs, ht, hl, if_true, Function.update_idem,
      List.map_nil, List.append_nil]
    by_cases hm : (x, a.currentTerm) ∈ w.led
    · simp [hm]
    · simp [hm]
  · simp [act, observe, ha]

end World

/-! ## The methods of a node, up to `Same`

Most invariants look at term, role, vote and log only. So timers, votes counted and the like are
left open (`Same`), and each method comes to one of a few outcomes. -/

namespace RaftNode

theorem appendLoop_same (term : Nat) : ∀ (cmds : List Bytes) (idx : Nat) (n : RaftNode)
    (truncated : Bool), Same (appendLoop term idx cmds (n, truncated)).1
      { n with log := splice term idx cmds n.log } := by
  intro cmds
  induction cmds with
  | nil => intro idx n truncated; exact Same.refl n
  | cons cmd cmds ih =>
    intro idx n truncated
    unfold appendLoop splice
    dsimp only
    -- what one turn of the loop leaves alone is read off in each of its four cases
    split <;> split <;> rename_i h _ <;> constructor <;>
      first
        | exact (ih _ _ _).selfId | exact (ih _ _ _).peers | exact (ih _ _ _).currentTerm
        | exact (ih _ _ _).votedFor | exact (ih _ _ _).log | exact (ih _ _ _).commitIndex
        | exact (ih _ _ _).lastApplied | exact (ih _ _ _).state | exact (ih _ _ _).matchIndex
        | exact (ih _ _ _).voteCount

theorem appendEntries_same (n : RaftNode) (term prevIdx : Nat) (cmds : List Bytes) :
    Same (n.appendEntries term prevIdx cmds)
      { n with log := splice term (prevIdx + 1) cmds n.log } := by
  have h := appendLoop_same term cmds (prevIdx + 1) n false
  unfold appendEntries
  dsimp only
  split
  · exact ⟨h.selfId, h.peers, h.currentTerm, h.votedFor, h.log, h.commitIndex, h.lastApplied,
      h.state, h.matchIndex, h.voteCount⟩
  · exact h

/-- The next index to send to a peer is never the sentinel's. -/
def NextPos (n : RaftNode) : Prop := ∀ k ∈ n.nextIndex, 1 ≤ k

theorem NextPos.getD {n : RaftNode} (h : n.NextPos) (pi : Nat) : 1 ≤ n.nextIndex.getD pi 1 := by
  rw [List.getD_eq_getElem?_getD]
  cases hi : n.nextIndex[pi]? with
  | none => exact Nat.le_refl 1
  | some k => exact h k (List.mem_of_getElem? hi)

theorem NextPos.set {n : RaftNode} (h : n.NextPos) (pi : Nat) {k : Nat} (hk : 1 ≤ k) :
    ∀ k' ∈ n.nextIndex.set pi k, 1 ≤ k' := by
  intro k' hk'
  rcases List.mem_or_eq_of_mem_set hk' with hold | rfl
  · exact h k' hold
  · exact hk

/-- What a leader sends to its peers is plain. -/
theorem mem_sendAppendEntries {n : RaftNode} {peer : Uuid} {m : RaftMessage} (h : n.NextPos)
    (hst : n.state = .leader) (hm : m ∈ n.sendAppendEntries peer) :
    m.target = peer ∧ peer ∈ n.peers ∧ Plain n m.payload := by
  unfold sendAppendEntries at hm
  dsimp only at hm
  split at hm
  · exact absurd hm (by simp)
  · rename_i hpi
    have hnext := h.getD (n.peerIndex peer)
    rw [List.mem_singleton] at hm
    subst hm
    refine ⟨rfl, ?_, hst, rfl, rfl, rfl, ?_⟩
    · exact List.idxOf_lt_length_iff.mp (Nat.lt_of_not_le hpi)
    · rw [Nat.sub_add_cancel hnext]

theorem mem_broadcast {n : RaftNode} {m : RaftMessage} (h : n.NextPos) (hst : n.state = .leader)
    (hm : m ∈ n.peers.flatMap n.sendAppendEntries) : m.target ∈ n.peers ∧ Plain n m.payload := by
  obtain ⟨peer, -, hm⟩ := List.mem_flatMap.mp hm
  obtain ⟨rfl, hpeer, hplain⟩ := mem_sendAppendEntries h hst hm
  exact ⟨hpeer, hplain⟩

theorem appendLoop_nextIndex (term : Nat) : ∀ (cmds : List Bytes) (idx : Nat) (n : RaftNode)
    (truncated : Bool), (appendLoop term idx cmds (n, truncated)).1.nextIndex = n.nextIndex := by
  intro cmds
  induction cmds with
  | nil => intro idx n truncated; rfl
  | cons cmd cmds ih =>
    intro idx n truncated
    unfold appendLoop
    dsimp only
    rw [ih]
    split <;> split <;> rfl

theorem appendEntries_nextIndex (n : RaftNode) (term prevIdx : Nat) (cmds : List Bytes) :
    (n.appendEntries term prevIdx cmds).nextIndex = n.nextIndex := by
  have h := appendLoop_nextIndex term cmds (prevIdx + 1) n false
  unfold appendEntries
  dsimp only
  split
  · exact h
  · exact h

theorem NextPos.becomeLeader (n : RaftNode) : n.becomeLeader.NextPos := by
  intro k hk
  rw [List.eq_of_mem_replicate hk]
  exact Nat.le_add_left 1 _

theorem NextPos.tick {n : RaftNode} (h : n.NextPos) (rand : Nat) : (n.tick rand).1.NextPos := by
  unfold RaftNode.tick
  dsimp only
  split
  · split <;> exact h
  · split <;> exact h

theorem NextPos.propose {n : RaftNode} (h : n.NextPos) (cmd : Bytes) :
    (n.propose cmd).1.NextPos := by
  unfold RaftNode.propose
  dsimp only
  split
  · exact h
  · split <;> exact h

theorem NextPos.receiveEntries {n : RaftNode} (h : n.NextPos) (fromPeer : Uuid)
    (term prevIdx prevTerm leaderCommit : Nat) (cmds : List Bytes) :
    (n.receiveEntries fromPeer term prevIdx prevTerm leaderCommit cmds).1.NextPos := by
  unfold RaftNode.receiveEntries
  split
  · exact h
  · unfold NextPos
    dsimp only
    split <;> rw [appendEntries_nextIndex] <;> exact h

theorem NextPos.step {n : RaftNode} (h : n.NextPos) (fromPeer : Uuid) (payload : Payload)
    (rand stray : Nat) : (n.step fromPeer payload rand stray).1.NextPos := by
  cases payload with
  | appendEntries term prevIdx prevTerm leaderCommit cmds =>
    simp only [RaftNode.step, handleAppendEntries]
    split
    · exact h
    · apply NextPos.receiveEntries
      split <;> exact h
  | appendEntriesReply term success matchIdx =>
    simp only [RaftNode.step, handleAppendEntriesReply]
    split
    · exact h
    · split
      · exact h
      · split
        · exact h
        · split
          · unfold advanceCommitIndex
            dsimp only
            split <;> exact h.set _ (Nat.le_add_left 1 _)
          · split
            · rename_i hgt
              exact h.set _ (by omega)
            · exact h
  | requestVote term lastIdx lastTerm =>
    simp only [RaftNode.step, handleRequestVote, considerVote]
    split
    · exact h
    · split <;> split <;> exact h
  | requestVoteReply term granted =>
    simp only [RaftNode.step, handleRequestVoteReply]
    split
    · exact h
    · split
      · exact h
      · split
        · split
          · exact NextPos.becomeLeader _
          · exact h
        · exact h

end RaftNode

/-! ## Events are chains of moves

An event can be a long chain of calls: a message may bring a new term, and only then be handled. Cut
into moves, each of which does one thing, it needs no case split later; an invariant is kept by an
event if it is kept by each move (`along_invariant`). -/

/-- What never changes, who talks to whom, and that a candidate has its own vote. -/
structure Wired (g : Group) (w : World) : Prop where
  self : ∀ x, (w.node x).selfId = x
  peers : ∀ x, (w.node x).peers = g.peersOf x
  wire : ∀ e ∈ w.sent, e.dst ∈ g.members ∧ e.src ∈ g.peersOf e.dst
  stood : ∀ x, (w.node x).state = .candidate → 1 ≤ (w.node x).voteCount

structure Static (g : Group) (w : World) : Prop extends Wired g w where
  next : ∀ x, (w.node x).NextPos

section Chains

variable {g : Group} {c : Care} {w : World}

theorem tick_moves (hw : Static g w) {x : Uuid} (hx : x ∈ g.members) (rand : Nat) :
    Move g c w (w.act x ((w.node x).tick rand)) := by
  unfold RaftNode.tick
  dsimp only
  by_cases hst : (w.node x).state = .leader
  · rw [if_pos (show ((w.node x).record .flush).state = .leader from hst)]
    split
    · refine Move.quiet hx (by constructor <;> rfl) ?_
      intro m hm
      have hsent := fun h₁ h₂ => RaftNode.mem_broadcast h₁ h₂ hm
      obtain ⟨htarget, hplain⟩ := hsent (hw.next x) hst
      exact ⟨hw.peers x ▸ htarget, hplain⟩
    · exact Move.quiet hx (by constructor <;> rfl) (by simp)
  · rw [if_neg (show ¬ ((w.node x).record .flush).state = .leader from hst)]
    split
    · refine Move.stand hx hst ?_ ?_
      · constructor <;> first | rfl | exact congrArg some (hw.self x)
      · intro m hm
        obtain ⟨peer, hpeer, rfl⟩ := List.mem_map.mp hm
        exact ⟨hw.peers x ▸ hpeer, rfl⟩
    · exact Move.quiet hx (by constructor <;> rfl) (by simp)

theorem propose_moves (hw : Static g w) (hsize : 2 ≤ g.size) {x : Uuid} (hx : x ∈ g.members)
    (cmd : Bytes) : Move g c w (w.act x ((w.node x).propose cmd)) := by
  unfold RaftNode.propose
  dsimp only
  split
  · exact Move.quiet hx (Same.refl _) (by simp)
  · rename_i hst
    have hst : (w.node x).state = .leader := by simpa using hst
    have hpeers : (w.node x).peers.isEmpty = false := by
      rw [hw.peers x, List.isEmpty_eq_false_iff, ← List.length_pos_iff]
      have := g.length_peersOf hx
      omega
    simp only [hpeers, Bool.false_eq_true, if_false]
    refine Move.push hx hst (?_ : Same _ { w.node x with
      log := (w.node x).log ++ [⟨(w.node x).currentTerm, cmd⟩] }) ?_
    · constructor <;> rfl
    intro m hm
    have hsent := fun h₁ h₂ => RaftNode.mem_broadcast h₁ h₂ hm
    obtain ⟨htarget, hplain⟩ := hsent (hw.next x) hst
    exact ⟨hw.peers x ▸ htarget, hplain⟩

/-- A node that has the message's term, and is no candidate, receives the entries. -/
theorem receive_move {e : Envelope} {term prevIdx prevTerm leaderCommit : Nat} {cmds : List Bytes}
    (rand : Nat) (hx : e.dst ∈ g.members) (hsrc : e.src ∈ g.peersOf e.dst) (he : e ∈ w.sent)
    (hp : e.payload = .appendEntries term prevIdx prevTerm leaderCommit cmds)
    (ht : (w.node e.dst).currentTerm = term) (hst : (w.node e.dst).state ≠ .candidate)
    (htail : c.tails → cmds = [] → (w.node e.dst).Accepts term prevIdx prevTerm →
      (w.node e.dst).lastLogIndex ≤ prevIdx ∨ (w.node e.dst).lastLogTerm = term)
    (hkeep : c.restamps → (w.node e.dst).Accepts term prevIdx prevTerm →
      Survives (w.node e.dst) term prevIdx cmds) :
    Move g c w (w.act e.dst (((w.node e.dst).resetElectionTimer rand).receiveEntries e.src
      term prevIdx prevTerm leaderCommit cmds)) := by
  unfold RaftNode.receiveEntries
  split
  · refine Move.quiet hx (by constructor <;> rfl) ?_
    intro m hm
    rw [List.mem_singleton] at hm
    subst hm
    exact ⟨hsrc, rfl⟩
  · rename_i hcheck
    have hprev : prevIdx = 0 ∨ stampAt (w.node e.dst).log prevIdx = some prevTerm := by
      by_cases h0 : prevIdx = 0
      · exact Or.inl h0
      · refine Or.inr ?_
        by_contra hne
        exact hcheck ⟨Nat.pos_of_ne_zero h0, hne⟩
    have hacc : (w.node e.dst).Accepts term prevIdx prevTerm := ⟨Nat.le_of_eq ht, hprev⟩
    have hsame := RaftNode.appendEntries_same ((w.node e.dst).resetElectionTimer rand) term prevIdx cmds
    generalize ((w.node e.dst).resetElectionTimer rand).appendEntries term prevIdx cmds = m at hsame ⊢
    dsimp only
    refine Move.accept hx hsrc he hp ht hst hprev (fun h h' => htail h h' hacc)
      (fun h => hkeep h hacc) ?_
    have hcommit : m.commitIndex = (w.node e.dst).commitIndex := hsame.commitIndex
    have hlog : m.log = splice term (prevIdx + 1) cmds (w.node e.dst).log := hsame.log
    by_cases hlc : leaderCommit > (w.node e.dst).commitIndex
    · rw [hcommit, if_pos hlc]
      refine ⟨hsame.selfId, hsame.peers, hsame.currentTerm, hsame.votedFor, hsame.log, ?_,
        hsame.lastApplied, hsame.state, hsame.matchIndex, hsame.voteCount⟩
      simp only [if_pos hlc, RaftNode.lastLogIndex, hlog]
    · rw [hcommit, if_neg hlc]
      refine ⟨hsame.selfId, hsame.peers, hsame.currentTerm, hsame.votedFor, hsame.log, ?_,
        hsame.lastApplied, hsame.state, hsame.matchIndex, hsame.voteCount⟩
      simp only [if_neg hlc]
      exact hsame.commitIndex

theorem consider_move {e : Envelope} {term lastIdx lastTerm : Nat} (rand : Nat)
    (hx : e.dst ∈ g.members) (hsrc : e.src ∈ g.peersOf e.dst) (he : e ∈ w.sent)
    (hp : e.payload = .requestVote term lastIdx lastTerm)
    (ht : (w.node e.dst).currentTerm = term) :
    Move g c w (w.act e.dst ((w.node e.dst).considerVote e.src lastIdx lastTerm rand)) := by
  unfold RaftNode.considerVote
  split
  · rename_i h
    exact Move.grant hx hsrc he hp ht h.1 h.2 (by constructor <;> rfl)
  · refine Move.quiet hx (Same.refl _) ?_
    intro m hm
    rw [List.mem_singleton] at hm
    subst hm
    exact ⟨hsrc, rfl⟩

/-- Adopting a term first, and then one more move of the same node. -/
theorem adopt_chain {x : Uuid} {m : RaftNode} {t : Nat} {r : RaftNode × List RaftMessage}
    (hx : x ∈ g.members)
    (ht : (w.node x).currentTerm < t ∨
      ((w.node x).state = .candidate ∧ (w.node x).currentTerm = t ∧
        ∃ e ∈ w.sent, ∃ prevIdx prevTerm leaderCommit cmds,
          e.payload = .appendEntries t prevIdx prevTerm leaderCommit cmds))
    (hn : Same m { w.node x with
      state := .follower, currentTerm := t, votedFor := none, voteCount := 0 })
    (hmove : Move g c (w.act x (m, [])) ((w.act x (m, [])).act x r)) :
    ReflTransGen (Move g c) w (w.act x r) := by
  have hfollower : m.state ≠ .leader := by
    rw [hn.state]
    simp
  have h := ReflTransGen.tail (ReflTransGen.single (Move.adopt hx ht hn)) hmove
  rwa [World.act_act fun hl => absurd hl hfollower] at h

/-- What is known of the event is what the chosen conditions say. -/
structure Care.Meets (c : Care) (w : World) (ev : Event) : Prop where
  votes : c.votes → AtDelivery World.GenuineVote w ev
  replies : c.replies → AtDelivery World.CurrentReply w ev
  tails : c.tails → AtDelivery World.NoStaleTail w ev
  restamps : c.restamps → AtDelivery World.NoRestamp w ev

theorem deliver_appendEntries (hw : Static g w) {k rand stray : Nat} {e : Envelope}
    {term prevIdx prevTerm leaderCommit : Nat} {cmds : List Bytes} (hk : w.sent[k]? = some e)
    (hp : e.payload = .appendEntries term prevIdx prevTerm leaderCommit cmds)
    (hc : c.Meets w (.deliver k rand stray)) :
    ReflTransGen (Move g c) w (w.act e.dst ((w.node e.dst).handleAppendEntries e.src
      term prevIdx prevTerm leaderCommit cmds rand)) := by
  have he : e ∈ w.sent := List.mem_of_getElem? hk
  obtain ⟨hx, hsrc⟩ := hw.wire e he
  have hdel : e ∈ w.delivered (.deliver k rand stray) := hk
  have htail : c.tails → cmds = [] → (w.node e.dst).Accepts term prevIdx prevTerm →
      (w.node e.dst).lastLogIndex ≤ prevIdx ∨ (w.node e.dst).lastLogTerm = term := by
    intro hct hnil
    have := hc.tails hct e hdel
    simp only [World.NoStaleTail, hp, hnil] at this
    exact this
  have hkeep : c.restamps → (w.node e.dst).Accepts term prevIdx prevTerm →
      Survives (w.node e.dst) term prevIdx cmds := by
    intro hcr
    have := hc.restamps hcr e hdel
    simp only [World.NoRestamp, hp] at this
    exact this
  unfold RaftNode.handleAppendEntries
  split
  · refine ReflTransGen.single (Move.quiet hx (Same.refl _) ?_)
    intro m hm
    rw [List.mem_singleton] at hm
    subst hm
    exact ⟨hsrc, rfl⟩
  · rename_i hlt
    dsimp only
    split
    · rename_i hadopt
      refine adopt_chain (t := term) hx (m := (w.node e.dst).becomeFollower term rand) ?_
        (by constructor <;> rfl) ?_
      · rcases hadopt with hgt | hcand
        · exact Or.inl hgt
        · rcases Nat.lt_or_ge (w.node e.dst).currentTerm term with hgt | hge
          · exact Or.inl hgt
          · exact Or.inr ⟨hcand, by omega, e, he, _, _, _, _, hp⟩
      · have h := receive_move (g := g) (c := c)
          (w := w.act e.dst ((w.node e.dst).becomeFollower term rand, [])) rand hx hsrc
          (by simpa using he) hp
        simp only [World.act_node, Function.update_self] at h
        exact h rfl (by simp [RaftNode.becomeFollower, RaftNode.resetElectionTimer])
          (fun hct hnil hacc => htail hct hnil ⟨Nat.le_of_not_lt hlt, hacc.2⟩)
          (fun hcr hacc => hkeep hcr ⟨Nat.le_of_not_lt hlt, hacc.2⟩)
    · rename_i hadopt
      rw [not_or] at hadopt
      exact ReflTransGen.single (receive_move rand hx hsrc he hp (by omega) hadopt.2 htail hkeep)

theorem deliver_requestVote (hw : Static g w) {e : Envelope} {term lastIdx lastTerm : Nat}
    (rand : Nat) (he : e ∈ w.sent) (hp : e.payload = .requestVote term lastIdx lastTerm) :
    ReflTransGen (Move g c) w
      (w.act e.dst ((w.node e.dst).handleRequestVote e.src term lastIdx lastTerm rand)) := by
  obtain ⟨hx, hsrc⟩ := hw.wire e he
  unfold RaftNode.handleRequestVote
  split
  · refine ReflTransGen.single (Move.quiet hx (Same.refl _) ?_)
    intro m hm
    rw [List.mem_singleton] at hm
    subst hm
    exact ⟨hsrc, rfl⟩
  · rename_i hlt
    dsimp only
    split
    · rename_i hgt
      refine adopt_chain hx (m := (w.node e.dst).becomeFollower term rand) (Or.inl hgt)
        (by constructor <;> rfl) ?_
      have h := consider_move (g := g) (c := c)
        (w := w.act e.dst ((w.node e.dst).becomeFollower term rand, [])) rand hx hsrc
        (by simpa using he) hp
      simp only [World.act_node, Function.update_self] at h
      exact h rfl
    · exact ReflTransGen.single (consider_move rand hx hsrc he hp (by omega))

theorem deliver_appendEntriesReply (hw : Static g w) {k rand stray : Nat} {e : Envelope}
    {term matchIdx : Nat} {success : Bool} (hk : w.sent[k]? = some e)
    (hp : e.payload = .appendEntriesReply term success matchIdx)
    (hc : c.Meets w (.deliver k rand stray)) :
    ReflTransGen (Move g c) w (w.act e.dst ((w.node e.dst).handleAppendEntriesReply e.src
      term success matchIdx rand stray)) := by
  have he : e ∈ w.sent := List.mem_of_getElem? hk
  obtain ⟨hx, hsrc⟩ := hw.wire e he
  have hdel : e ∈ w.delivered (.deliver k rand stray) := hk
  unfold RaftNode.handleAppendEntriesReply
  split
  · exact ReflTransGen.single (Move.quiet hx (Same.refl _) (by simp))
  rename_i hst
  have hst : (w.node e.dst).state = .leader := by simpa using hst
  split
  · rename_i hgt
    exact ReflTransGen.single (Move.adopt hx (Or.inl hgt) (by constructor <;> rfl))
  rename_i hle
  dsimp only
  split
  · exact ReflTransGen.single (Move.quiet hx (Same.refl _) (by simp))
  rename_i hpi
  cases success with
  | true =>
    rw [if_pos rfl]
    -- the reply is taken in, and then the commit index may move
    have hack : Move g c w (w.act e.dst
        ((w.node e.dst).acknowledge ((w.node e.dst).peerIndex e.src) matchIdx, [])) := by
      refine Move.ack hx he hp hst (Nat.le_of_not_lt hle) ?_ (by constructor <;> rfl)
      intro hcr
      have := hc.replies hcr e hdel
      simp only [World.CurrentReply, hp] at this
      exact this hst (Nat.le_of_not_lt hle)
    have hst' : ((w.node e.dst).acknowledge ((w.node e.dst).peerIndex e.src) matchIdx).state
        = .leader := hst
    generalize (w.node e.dst).acknowledge ((w.node e.dst).peerIndex e.src) matchIdx = n at hack hst' ⊢
    unfold RaftNode.advanceCommitIndex
    dsimp only
    split
    · rename_i hcommit
      refine ReflTransGen.tail (ReflTransGen.single hack) ?_
      have hnode : (w.act e.dst (n, [])).node e.dst = n := by simp
      have h : Move g c (w.act e.dst (n, [])) ((w.act e.dst (n, [])).act e.dst
          ({ n with commitIndex := n.sortedMatch.getD (n.quorum - 1) 0 }, [])) := by
        have hterm : (stampAt n.log (n.sortedMatch.getD (n.quorum - 1) 0)).getD stray
            = n.currentTerm := hcommit.2
        rw [← hnode] at hst' hterm
        exact Move.commit hx hst' (by rw [hnode]; exact hcommit.1) hterm
          (by rw [hnode]; exact Same.refl _)
      rwa [World.act_act (a := n) fun _ => ⟨hst', rfl, rfl⟩] at h
    · exact ReflTransGen.single hack
  | false =>
    rw [if_neg (by simp)]
    refine ReflTransGen.single (Move.quiet hx ?_ ?_)
    · split <;> constructor <;> rfl
    · intro m hm
      have hsent := fun h₁ h₂ => RaftNode.mem_sendAppendEntries h₁ h₂ hm
      obtain ⟨htarget, -, hplain⟩ := hsent (by
        split
        · exact (hw.next e.dst).set _ (by omega)
        · exact hw.next e.dst) (by split <;> exact hst)
      exact ⟨htarget ▸ hsrc, hplain⟩

theorem deliver_requestVoteReply (hw : Static g w) {k rand stray : Nat} {e : Envelope} {term : Nat}
    {granted : Bool} (hk : w.sent[k]? = some e)
    (hp : e.payload = .requestVoteReply term granted)
    (hc : c.Meets w (.deliver k rand stray)) :
    ReflTransGen (Move g c) w ((w.tally e).act e.dst
      ((w.node e.dst).handleRequestVoteReply term granted rand, [])) := by
  have he : e ∈ w.sent := List.mem_of_getElem? hk
  obtain ⟨hx, hsrc⟩ := hw.wire e he
  have hdel : e ∈ w.delivered (.deliver k rand stray) := hk
  have hvote : c.votes → granted = true → (w.node e.dst).state = .candidate →
      term ≤ (w.node e.dst).currentTerm → term = (w.node e.dst).currentTerm ∧
        (e.dst, (w.node e.dst).currentTerm, e.src) ∉ w.counted := by
    intro hcv hgr
    have := hc.votes hcv e hdel
    simp only [World.GenuineVote, hp, hgr] at this
    exact this
  have htally : ¬ (granted = true ∧ (w.node e.dst).state = .candidate ∧
      term ≤ (w.node e.dst).currentTerm) → w.tally e = w := by
    intro h
    unfold World.tally
    rw [hp]
    cases granted with
    | false => rfl
    | true => exact if_neg fun h' => h ⟨rfl, h'⟩
  unfold RaftNode.handleRequestVoteReply
  split
  · rename_i hst
    rw [htally fun h => hst h.2.1]
    exact ReflTransGen.single (Move.quiet hx (Same.refl _) (by simp))
  rename_i hst
  have hst : (w.node e.dst).state = .candidate := by simpa using hst
  split
  · rename_i hgt
    rw [htally fun h => absurd h.2.2 (by omega)]
    exact ReflTransGen.single (Move.adopt hx (Or.inl hgt) (by constructor <;> rfl))
  rename_i hle
  have hle : term ≤ (w.node e.dst).currentTerm := Nat.le_of_not_lt hle
  cases granted with
  | false =>
    rw [htally fun h => absurd h.1 (by simp), if_neg (by simp)]
    exact ReflTransGen.single (Move.quiet hx (Same.refl _) (by simp))
  | true =>
    have hcounted : w.tally e = { w with
        counted := w.counted ++ [(e.dst, (w.node e.dst).currentTerm, e.src)] } := by
      unfold World.tally
      rw [hp]
      exact if_pos ⟨hst, hle⟩
    rw [if_pos rfl, hcounted]
    -- the vote is counted, and then the candidate may take the lead
    have hcount : Move g c w (({ w with
        counted := w.counted ++ [(e.dst, (w.node e.dst).currentTerm, e.src)] } : World).act e.dst
          ({ w.node e.dst with voteCount := (w.node e.dst).voteCount + 1 }, [])) :=
      Move.count hx he hp hst hle (fun hcv => hvote hcv rfl hst hle) (Same.refl _)
    dsimp only
    split
    · rename_i hq
      refine ReflTransGen.tail (ReflTransGen.single hcount) ?_
      have hstood := hw.stood e.dst hst
      generalize hn : ({ w.node e.dst with voteCount := (w.node e.dst).voteCount + 1 } : RaftNode) = n
        at hcount hq ⊢
      have hst' : n.state = .candidate := by rw [← hn]; exact hst
      have hlead : ∀ w : World, Move g c (w.act e.dst (n, []))
          ((w.act e.dst (n, [])).act e.dst (n.becomeLeader, [])) := by
        intro w
        have hnode : (w.act e.dst (n, [])).node e.dst = n := by simp
        apply Move.lead hx <;> rw [hnode]
        · exact hst'
        · rw [← hn] at hq ⊢
          exact hq
        · rw [← hn]
          exact Nat.succ_le_succ hstood
        · constructor <;> rfl
      have h := hlead { w with
        counted := w.counted ++ [(e.dst, (w.node e.dst).currentTerm, e.src)] }
      rwa [World.act_act (a := n) fun hl => absurd (hst'.symm.trans hl) (by simp)] at h
    · exact ReflTransGen.single hcount

/-- **Every event is a chain of moves.** -/
theorem step_moves (hw : Static g w) (hsize : 2 ≤ g.size) {ev : Event} (hc : c.Meets w ev) :
    ReflTransGen (Move g c) w (g.step w ev) := by
  cases ev with
  | tick x rand =>
    simp only [Group.step]
    split
    · rename_i hx
      exact ReflTransGen.single (tick_moves hw hx rand)
    · exact ReflTransGen.refl
  | propose x cmd =>
    simp only [Group.step]
    split
    · rename_i hx
      exact ReflTransGen.single (propose_moves hw hsize hx cmd)
    · exact ReflTransGen.refl
  | apply x =>
    simp only [Group.step]
    split
    · rename_i hx
      exact ReflTransGen.single (Move.apply hx)
    · exact ReflTransGen.refl
  | deliver k rand stray =>
    simp only [Group.step]
    cases hk : w.sent[k]? with
    | none => exact ReflTransGen.refl
    | some e =>
      dsimp only
      have he : e ∈ w.sent := List.mem_of_getElem? hk
      have htally : (∀ term granted, e.payload ≠ .requestVoteReply term granted) → w.tally e = w := by
        intro h
        unfold World.tally
        split
        · rename_i heq
          exact absurd heq (h _ _)
        · rfl
      cases hp : e.payload with
      | appendEntries term prevIdx prevTerm leaderCommit cmds =>
        rw [htally (by simp [hp])]
        exact deliver_appendEntries hw hk hp hc
      | appendEntriesReply term success matchIdx =>
        rw [htally (by simp [hp])]
        exact deliver_appendEntriesReply hw hk hp hc
      | requestVote term lastIdx lastTerm =>
        rw [htally (by simp [hp])]
        exact deliver_requestVote hw rand he hp
      | requestVoteReply term granted => exact deliver_requestVoteReply hw hk hp hc

/-! ## What the moves keep wired

Of all the invariants this one comes first, as the moves themselves are stated with it. -/

/-- A node whose identity, peers and vote are in order. -/
structure WiredNode (g : Group) (x : Uuid) (n : RaftNode) : Prop where
  self : n.selfId = x
  peers : n.peers = g.peersOf x
  stood : n.state = .candidate → 1 ≤ n.voteCount

theorem Wired.node (hw : Wired g w) (x : Uuid) : WiredNode g x (w.node x) :=
  ⟨hw.self x, hw.peers x, hw.stood x⟩

theorem Wired.act (hw : Wired g w) {x : Uuid} {n' : RaftNode} {ms : List RaftMessage}
    (hx : x ∈ g.members) (hn : WiredNode g x n') (hms : ∀ m ∈ ms, m.target ∈ g.peersOf x) :
    Wired g (w.act x (n', ms)) := by
  have hnode : ∀ y, WiredNode g y ((w.act x (n', ms)).node y) := by
    intro y
    rw [World.act_node]
    by_cases hy : y = x
    · subst hy
      rw [Function.update_self]
      exact hn
    · rw [Function.update_of_ne hy]
      exact hw.node y
  refine ⟨fun y => (hnode y).self, fun y => (hnode y).peers, ?_, fun y => (hnode y).stood⟩
  intro e he
  rw [World.act_sent] at he
  rcases List.mem_append.mp he with hold | hnew
  · exact hw.wire e hold
  · obtain ⟨m, hm, rfl⟩ := List.mem_map.mp hnew
    have ht := hms m hm
    exact ⟨(Group.mem_peersOf.mp ht).1, Group.peersOf_symm hx ht⟩

/-- The votes counted so far are history that no node looks at. -/
theorem Wired.recount (hw : Wired g w) (votes : List (Uuid × Nat × Uuid)) :
    Wired g { w with counted := votes } := ⟨hw.self, hw.peers, hw.wire, hw.stood⟩

theorem wired_move {w' : World} (h : Move g c w w') (hw : Wired g w) : Wired g w' := by
  have same : ∀ {x : Uuid} {n' n : RaftNode}, Same n' n → WiredNode g x n → WiredNode g x n' := by
    intro x n' n hs hn
    refine ⟨hs.selfId.trans hn.self, hs.peers.trans hn.peers, fun hc => ?_⟩
    rw [hs.state] at hc
    rw [hs.voteCount]
    exact hn.stood hc
  cases h with
  | @quiet x n' ms hx hn hms =>
    exact hw.act hx (same hn (hw.node x)) fun m hm => (hms m hm).1
  | @stand x n' ms hx hst hn hms =>
    exact hw.act hx (same hn ⟨hw.self x, hw.peers x, fun _ => Nat.le_refl 1⟩)
      fun m hm => (hms m hm).1
  | @adopt x n' term hx ht hn =>
    exact hw.act hx (same hn ⟨hw.self x, hw.peers x, fun h => absurd h (by simp)⟩) (by simp)
  | @accept e n' term prevIdx prevTerm leaderCommit cmds hx hsrc he hp ht hst hprev htail hkeep hn =>
    exact hw.act hx (same hn ⟨hw.self _, hw.peers _, fun h => absurd h hst⟩) (by simpa using hsrc)
  | @grant e n' term lastIdx lastTerm hx hsrc he hp ht hcan hok hn =>
    exact hw.act hx (same hn ⟨hw.self _, hw.peers _, hw.stood _⟩) (by simpa using hsrc)
  | @count e n' term hx he hp hst ht hv hn =>
    exact (hw.recount _).act hx (same hn ⟨hw.self _, hw.peers _, fun _ => Nat.le_add_left 1 _⟩) (by simp)
  | @lead x n' hx hst hq h2 hn =>
    exact hw.act hx (same hn ⟨hw.self x, hw.peers x, fun h => absurd h (by simp)⟩) (by simp)
  | @push x n' ms cmd hx hst hn hms =>
    exact hw.act hx (same hn ⟨hw.self x, hw.peers x, hw.stood x⟩) fun m hm => (hms m hm).1
  | @ack e n' term matchIdx hx he hp hst ht hr hn =>
    exact hw.act hx (same hn ⟨hw.self _, hw.peers _, hw.stood _⟩) (by simp)
  | @commit x n' stray hx hst hi ht hn =>
    exact hw.act hx (same hn ⟨hw.self x, hw.peers x, hw.stood x⟩) (by simp)
  | @apply x hx =>
    have h : Wired g (w.act x ((w.node x).takePendingApply.1, [])) :=
      hw.act hx ⟨hw.self x, hw.peers x, hw.stood x⟩ (by simp)
    exact ⟨h.self, h.peers, h.wire, h.stood⟩

theorem step_next {ev : Event} (hw : ∀ x, (w.node x).NextPos) :
    ∀ x, ((g.step w ev).node x).NextPos := by
  have act : ∀ (w' : World) (y : Uuid) (r : RaftNode × List RaftMessage),
      w'.node = w.node → r.1.NextPos → ∀ x, ((w'.act y r).node x).NextPos := by
    intro w' y r hnode hr x
    rw [World.act_node, hnode]
    by_cases hx : x = y
    · subst hx
      rw [Function.update_self]
      exact hr
    · rw [Function.update_of_ne hx]
      exact hw x
  cases ev with
  | tick y rand =>
    simp only [Group.step]
    split
    · exact act w y _ rfl ((hw y).tick rand)
    · exact hw
  | propose y cmd =>
    simp only [Group.step]
    split
    · exact act w y _ rfl ((hw y).propose cmd)
    · exact hw
  | apply y =>
    simp only [Group.step]
    split
    · exact act w y _ rfl (hw y)
    · exact hw
  | deliver k rand stray =>
    simp only [Group.step]
    cases w.sent[k]? with
    | none => exact hw
    | some e =>
      refine act (w.tally e) e.dst _ ?_ ((hw e.dst).step _ _ _ _)
      unfold World.tally
      split
      · split <;> rfl
      · rfl

theorem static_step (hw : Static g w) (hsize : 2 ≤ g.size) (ev : Event) :
    Static g (g.step w ev) where
  toWired := by
    have hchain : ReflTransGen (Move g Care.none) w (g.step w ev) :=
      step_moves hw hsize ⟨False.elim, False.elim, False.elim, False.elim⟩
    exact Run.keeps_chain (I := Wired g) (fun _ _ hm hi => wired_move hm hi) hchain hw.toWired
  next := step_next hw.next

/-- In a group of at least two, everyone starts as a follower. -/
theorem start_node (hsize : 2 ≤ g.size) (rand : Uuid → Nat) {x : Uuid} (hx : x ∈ g.members) :
    (g.start rand).node x = ({ groupId := g.groupId, selfId := x, peers := g.peersOf x }
      : RaftNode).resetElectionTimer (rand x) := by
  have hpeers : (g.peersOf x).isEmpty = false := by
    rw [List.isEmpty_eq_false_iff, ← List.length_pos_iff]
    have := g.length_peersOf hx
    omega
  simp only [Group.start, RaftNode.construct, hpeers]
  rfl

theorem static_start (rand : Uuid → Nat) : Static g (g.start rand) := by
  have hnode : ∀ x, (g.start rand).node x
      = RaftNode.construct g.groupId x (g.peersOf x) (rand x) := fun _ => rfl
  refine ⟨⟨?_, ?_, ?_, ?_⟩, ?_⟩
  · intro x
    rw [hnode]
    unfold RaftNode.construct
    dsimp only
    split <;> rfl
  · intro x
    rw [hnode]
    unfold RaftNode.construct
    dsimp only
    split <;> rfl
  · intro e he
    exact absurd he (by simp [Group.start])
  · intro x hc
    rw [hnode] at hc
    unfold RaftNode.construct at hc
    dsimp only at hc
    split at hc <;> exact absurd hc (by simp [RaftNode.becomeLeader, RaftNode.resetElectionTimer])
  · intro x
    rw [hnode]
    unfold RaftNode.construct
    dsimp only
    split
    · exact RaftNode.NextPos.becomeLeader _
    · intro k hk
      exact absurd hk (by simp [RaftNode.resetElectionTimer])

/-- **The rule for invariants**, from any world on. What is kept by every move that meets the
conditions holds throughout every run whose events meet them. -/
theorem along_invariant {I : World → Prop} (hsize : 2 ≤ g.size) {evs : List Event}
    (hstatic : Static g w) (hstart : I w)
    (hmove : ∀ w w', Wired g w → Move g c w w' → I w → I w')
    (hmeets : Run.Along g.step c.Meets w evs) : Static g (g.exec w evs) ∧ I (g.exec w evs) := by
  refine Run.Along.invariant (I := fun w => Static g w ∧ I w) ?_ hmeets ⟨hstatic, hstart⟩
  intro w ev hm ⟨hs, hi⟩
  refine ⟨static_step hs hsize ev, ?_⟩
  have hkeep : ∀ a b, Move g c a b → Wired g a ∧ I a → Wired g b ∧ I b :=
    fun a b hab h => ⟨wired_move hab h.1, hmove a b h.1 hab h.2⟩
  exact (Run.keeps_chain hkeep (step_moves hs hsize hm) ⟨hs.toWired, hi⟩).2

theorem exec_invariant {I : World → Prop} (hsize : 2 ≤ g.size) {rand : Uuid → Nat}
    {evs : List Event} (hstart : I (g.start rand))
    (hmove : ∀ w w', Wired g w → Move g c w w' → I w → I w')
    (hmeets : Run.Along g.step c.Meets (g.start rand) evs) :
    Static g (g.exec (g.start rand) evs) ∧ I (g.exec (g.start rand) evs) :=
  along_invariant hsize (static_start rand) hstart hmove hmeets

end Chains

end Raft
end KvJet
