import KvJet.Raft.Leaders

/-!
# A leader's log spreads

A leader that talks to one peer after the other, each until both have the same log, commits all of
its log and brings every member to hand it out (`Leads.hand_out`), if nobody is beyond its term and
its last entry is its own. This is a way that a group can go from any state that a run has come to.

The events on the way meet the four conditions of `Raft/Group.lean`, so that what is known of the
states that a run comes to (`Sane`) is known of every state on the way. A stage says what it leaves
of the nodes, and which message it leaves to be delivered next.
-/

namespace KvJet
namespace Raft

open Run (CanReach)

variable {g : Group} {w w' w'' w₀ : World} {x y z : Uuid}

/-- Events that meet the four conditions lead from `w` to `w'`. -/
abbrev Group.Goes (g : Group) (w w' : World) : Prop := CanReach g.step Care.all.Meets w w'

/-- The four conditions, of one message. -/
structure World.Harmless (w : World) (e : Envelope) : Prop where
  vote : w.GenuineVote e
  reply : w.CurrentReply e
  tail : w.NoStaleTail e
  restamp : w.NoRestamp e

/-- What is known of a state that a run has come to. -/
structure Sane (g : Group) (w₀ w : World) : Prop where
  static : Static g w
  firm : Firm g w₀ w

theorem Sane.goes (hsize : 2 ≤ g.size) (hodd : Odd g.size ∨ g.size = 2) (h : Sane g w₀ w)
    (hgo : g.Goes w w') : Sane g w₀ w' := by
  obtain ⟨evs, hmeets, rfl⟩ := hgo
  obtain ⟨hstatic, hfirm⟩ := along_invariant hsize h.static h.firm
    (fun _ _ _ hm h => firm_move hodd hm h) hmeets
  exact ⟨hstatic, hfirm⟩

/-! ## Single events

An event that delivers nothing meets all conditions, so only deliveries have to be looked at. -/

theorem meets_of_quiet {ev : Event} (h : w.delivered ev = none) : Care.all.Meets w ev := by
  have hnone : ∀ P : World → Envelope → Prop, AtDelivery P w ev := by
    intro P e he
    rw [h] at he
    exact absurd he (by simp)
  exact ⟨fun _ => hnone _, fun _ => hnone _, fun _ => hnone _, fun _ => hnone _⟩

theorem goes_tick (hx : x ∈ g.members) : g.Goes w (w.act x ((w.node x).tick 0)) := by
  have hstep : g.step w (.tick x 0) = w.act x ((w.node x).tick 0) := by
    simp only [Group.step, if_pos hx]
  rw [← hstep]
  exact .single (meets_of_quiet rfl)

theorem goes_propose (hx : x ∈ g.members) (cmd : Bytes) :
    g.Goes w (w.act x ((w.node x).propose cmd)) := by
  have hstep : g.step w (.propose x cmd) = w.act x ((w.node x).propose cmd) := by
    simp only [Group.step, if_pos hx]
  rw [← hstep]
  exact .single (meets_of_quiet rfl)

/-- A message that has been sent arrives. -/
theorem goes_deliver {e : Envelope} (he : e ∈ w.sent) (h : w.Harmless e) :
    g.Goes w ((w.tally e).act e.dst ((w.node e.dst).step e.src e.payload 0 0)) := by
  obtain ⟨k, hk⟩ := List.mem_iff_getElem?.mp he
  have hstep : g.step w (.deliver k 0 0)
      = (w.tally e).act e.dst ((w.node e.dst).step e.src e.payload 0 0) := by
    simp only [Group.step, hk]
  rw [← hstep]
  have hdelivered : ∀ P : World → Envelope → Prop, P w e → AtDelivery P w (.deliver k 0 0) := by
    intro P hP e' he'
    have hsame : w.sent[k]? = some e' := he'
    rw [hk] at hsame
    exact Option.some.inj hsame ▸ hP
  exact .single ⟨fun _ => hdelivered _ h.vote, fun _ => hdelivered _ h.reply,
    fun _ => hdelivered _ h.tail, fun _ => hdelivered _ h.restamp⟩

@[simp] theorem World.node_tally (e : Envelope) : (w.tally e).node = w.node := by
  unfold World.tally
  split
  · split <;> rfl
  · rfl

@[simp] theorem World.sent_tally (e : Envelope) : (w.tally e).sent = w.sent := by
  unfold World.tally
  split
  · split <;> rfl
  · rfl

@[simp] theorem World.tally_applied (e : Envelope) : (w.tally e).applied = w.applied := by
  unfold World.tally
  split
  · split <;> rfl
  · rfl

theorem World.tally_of_ne {e : Envelope} (h : ∀ term, e.payload ≠ .requestVoteReply term true) :
    w.tally e = w := by
  unfold World.tally
  split
  · rename_i term hp
    exact absurd hp (h term)
  · rfl

/-- A message that is no vote arrives at `y`. -/
theorem goes_arrive {src y : Uuid} {p : Payload} {log : List LogEntry}
    {r : RaftNode × List RaftMessage} (he : (⟨src, y, p, log⟩ : Envelope) ∈ w.sent)
    (h : w.Harmless ⟨src, y, p, log⟩) (hp : ∀ term, p ≠ .requestVoteReply term true)
    (hr : (w.node y).step src p 0 0 = r) : g.Goes w (w.act y r) := by
  have hgo := goes_deliver (g := g) he h
  rw [World.tally_of_ne hp] at hgo
  rw [← hr]
  exact hgo

/-- The same, where it is answered. -/
theorem goes_reply {src y : Uuid} {p p' : Payload} {log : List LogEntry} {n' : RaftNode}
    (he : (⟨src, y, p, log⟩ : Envelope) ∈ w.sent) (h : w.Harmless ⟨src, y, p, log⟩)
    (hp : ∀ term, p ≠ .requestVoteReply term true)
    (hr : (w.node y).step src p 0 0 = (n', [⟨src, p'⟩])) :
    ∃ w', g.Goes w w' ∧ w'.node y = n' ∧ (∀ z, z ≠ y → w'.node z = w.node z) ∧
      w'.sent = w.sent ++ [⟨y, src, p', n'.log⟩] ∧ w'.counted = w.counted := by
  refine ⟨_, goes_arrive he h hp hr, ?_, fun z hz => ?_, ?_, ?_⟩
  · rw [World.act_node_apply, if_pos rfl]
  · rw [World.act_node_apply, if_neg hz]
  · rw [World.act_sent]
    rfl
  · rw [World.act_counted]

/-! ## The heartbeat

A leader sends its log to everybody when its heartbeat timer runs out, and ticks can always be had.
-/

theorem Same.trans {n n' n'' : RaftNode} (h : Same n'' n') (h' : Same n' n) : Same n'' n :=
  ⟨h.selfId.trans h'.selfId, h.peers.trans h'.peers, h.currentTerm.trans h'.currentTerm,
    h.votedFor.trans h'.votedFor, h.log.trans h'.log, h.commitIndex.trans h'.commitIndex,
    h.lastApplied.trans h'.lastApplied, h.state.trans h'.state, h.matchIndex.trans h'.matchIndex,
    h.voteCount.trans h'.voteCount⟩

/-- What a leader offers a peer. -/
def RaftNode.offer (n : RaftNode) (y : Uuid) : Payload :=
  let next := n.nextIndex.getD (n.peerIndex y) 1
  .appendEntries n.currentTerm (next - 1) ((stampAt n.log (next - 1)).getD 0) n.commitIndex
    ((n.log.drop next).map LogEntry.command)

theorem RaftNode.sendAppendEntries_eq {n : RaftNode} (hy : y ∈ n.peers) :
    n.sendAppendEntries y = [⟨y, n.offer y⟩] := by
  unfold RaftNode.sendAppendEntries
  dsimp only
  rw [if_neg (Nat.not_le.mpr (show n.peerIndex y < n.peers.length from
    List.idxOf_lt_length_iff.mpr hy))]
  rfl

/-- A tick of a leader, with a heartbeat or without one. -/
theorem RaftNode.tick_leads {n : RaftNode} (hlead : n.state = .leader) :
    ∃ n', Same n' n ∧ n'.nextIndex = n.nextIndex ∧
      if n.heartbeatTimer ≤ 1 then n.tick 0 = (n', n'.peers.flatMap n'.sendAppendEntries)
      else n.tick 0 = (n', []) ∧ n'.heartbeatTimer = n.heartbeatTimer - 1 := by
  unfold RaftNode.tick
  dsimp only
  rw [if_pos (show (n.record .flush).state = .leader from hlead)]
  have htimer : (n.record .flush).heartbeatTimer = n.heartbeatTimer := rfl
  by_cases hdue : n.heartbeatTimer ≤ 1
  · rw [if_pos (by omega)]
    refine ⟨{ n.record .flush with heartbeatTimer := heartbeatInterval }, ?_, rfl, ?_⟩
    · constructor <;> rfl
    · rw [if_pos hdue]
  · rw [if_neg (by omega)]
    refine ⟨{ n.record .flush with heartbeatTimer := n.heartbeatTimer - 1 }, ?_, rfl, ?_⟩
    · constructor <;> rfl
    · rw [if_neg hdue]
      exact ⟨rfl, rfl⟩

/-- The leader `x` has offered something to each of its peers. -/
structure Beaten (w w' : World) (x : Uuid) : Prop where
  same : Same (w'.node x) (w.node x)
  next : (w'.node x).nextIndex = (w.node x).nextIndex
  others : ∀ z, z ≠ x → w'.node z = w.node z
  sent : w.sent ⊆ w'.sent
  offered : ∀ y ∈ (w.node x).peers,
    (⟨x, y, (w'.node x).offer y, (w'.node x).log⟩ : Envelope) ∈ w'.sent

/-- A leader's clock comes to a heartbeat. -/
theorem beat (hx : x ∈ g.members) (hlead : (w.node x).state = .leader) :
    ∃ w', g.Goes w w' ∧ Beaten w w' x := by
  induction ht : (w.node x).heartbeatTimer.toNat using Nat.strong_induction_on generalizing w with
  | _ t ih =>
    have hgo := goes_tick (w := w) hx
    obtain ⟨n', hsame, hnext, htick⟩ := RaftNode.tick_leads hlead
    by_cases hdue : (w.node x).heartbeatTimer ≤ 1
    · rw [if_pos hdue] at htick
      rw [htick] at hgo
      refine ⟨_, hgo, by simpa using hsame, by simpa using hnext, fun z hz => ?_, ?_,
        fun y hy => ?_⟩
      · rw [World.act_node_apply, if_neg hz]
      · rw [World.act_sent]
        exact List.subset_append_left _ _
      · rw [World.act_sent, World.act_node_apply, if_pos rfl]
        refine List.mem_append_right _ (List.mem_map.mpr ⟨⟨y, n'.offer y⟩, ?_, rfl⟩)
        rw [← hsame.peers] at hy
        refine List.mem_flatMap.mpr ⟨y, hy, ?_⟩
        rw [RaftNode.sendAppendEntries_eq hy]
        exact List.mem_singleton_self _
    · rw [if_neg hdue] at htick
      rw [htick.1] at hgo
      have hself : (w.act x (n', [])).node x = n' := by simp
      obtain ⟨w', hgo', h⟩ := ih _ (by rw [hself, htick.2]; omega)
        (by rw [hself, hsame.state]; exact hlead) rfl
      have hsame' : Same (w'.node x) n' := by simpa using h.same
      refine ⟨w', hgo.trans hgo', hsame'.trans hsame, h.next.trans (by simpa using hnext),
        fun z hz => ?_, fun e he => h.sent ?_, fun y hy => ?_⟩
      · rw [h.others z hz, World.act_node_apply, if_neg hz]
      · rw [World.act_sent]
        exact List.mem_append_left _ he
      · exact h.offered y (by rw [hself, hsame.peers]; exact hy)

/-! ## One offer and its answer

The offer is the newest one of the newest leader, so to take it in is never to take in an old
message, and its answer is never an old reply. -/

/-- Member `x` leads, nobody is beyond its term, and its log ends with an entry of its own. -/
structure Leads (g : Group) (w : World) (x : Uuid) : Prop where
  member : x ∈ g.members
  leads : (w.node x).state = .leader
  own : 1 ≤ (w.node x).lastLogIndex ∧
    stampAt (w.node x).log (w.node x).lastLogIndex = some (w.node x).currentTerm
  newest : ∀ y ∈ g.members, (w.node y).currentTerm ≤ (w.node x).currentTerm

theorem Leads.keep (hl : Leads g w x) (hstate : (w'.node x).state = .leader)
    (hterm : (w'.node x).currentTerm = (w.node x).currentTerm)
    (hlog : (w'.node x).log = (w.node x).log)
    (hy : (w'.node y).currentTerm ≤ (w.node x).currentTerm)
    (hothers : ∀ z, z ≠ x → z ≠ y → w'.node z = w.node z) : Leads g w' x := by
  refine ⟨hl.member, hstate, ?_, fun z hz => ?_⟩
  · unfold RaftNode.lastLogIndex
    rw [hlog, hterm]
    exact hl.own
  · rw [hterm]
    by_cases hzx : z = x
    · rw [hzx, hterm]
    · by_cases hzy : z = y
      · rw [hzy]
        exact hy
      · rw [hothers z hzx hzy]
        exact hl.newest z hz

/-- The commands of the leader of a term lie below the entries of this term. -/
theorem Leads.le_last (h : Sane g w₀ w) (hl : Leads g w x) (hy : y ∈ g.members) {i : Nat}
    (hi : 1 ≤ i) (hs : stampAt (w.node y).log i = some (w.node x).currentTerm) :
    i ≤ (w.node x).lastLogIndex := by
  have hledgers := h.firm.sound.ledgers
  have hagree := ((hledgers.nodes y hy).traced i _ hi hs).2
  rw [show w.books.ledger (w.node x).currentTerm = (w.node x).log from
    hledgers.book x hl.member hl.leads] at hagree
  exact Nat.le_sub_one_of_lt hagree.2.1

/-- A leader's offer does no harm to anyone. -/
theorem Leads.harmless (h : Sane g w₀ w) (hl : Leads g w x) (hy : y ∈ g.members)
    (log : List LogEntry) : w.Harmless ⟨x, y, (w.node x).offer y, log⟩ := by
  have hnode := h.firm.sound.ledgers.nodes y hy
  have hown := hl.own
  have hlast : (w.node x).log.length = (w.node x).lastLogIndex + 1 := by
    have := lt_length_of_stampAt hown.2
    unfold RaftNode.lastLogIndex at hown ⊢
    omega
  unfold RaftNode.offer
  generalize (w.node x).nextIndex.getD ((w.node x).peerIndex y) 1 = next
  refine ⟨trivial, trivial, ?_, ?_⟩
  · -- with no entries the offer looks at the leader's last entry, or behind it
    have hgoal : (w.node x).lastLogIndex ≤ next - 1 →
        (w.node y).Accepts (w.node x).currentTerm (next - 1)
          ((stampAt (w.node x).log (next - 1)).getD 0) →
        (w.node y).lastLogTerm = (w.node x).currentTerm := by
      rintro hle ⟨-, haccept⟩
      have hstamp : stampAt (w.node y).log (next - 1)
          = some ((stampAt (w.node x).log (next - 1)).getD 0) := haccept.resolve_left (by omega)
      have hpos : 1 ≤ next - 1 := by omega
      by_cases heq : next - 1 = (w.node x).lastLogIndex
      · rw [heq, hown.2] at hstamp
        have hle := hnode.sorted.le_lastStamp hown.1 hstamp
        have hlen := lt_length_of_stampAt hstamp
        have hge := hnode.bound _ _ (stampAt_last (l := (w.node y).log) (by omega))
        rw [RaftNode.lastLogTerm_eq]
        exact Nat.le_antisymm (Nat.le_trans hge (hl.newest y hy)) hle
      · have hnone : stampAt (w.node x).log (next - 1) = none := by
          simp only [stampAt, Option.map_eq_none_iff, List.getElem?_eq_none_iff]
          omega
        rw [hnone] at hstamp
        obtain ⟨z, hz⟩ := (hnode.traced _ _ hpos hstamp).1
        exact absurd (h.firm.sound.terms.tenure z 0 hz).2.1 (by simp)
    unfold World.NoStaleTail
    split
    · rename_i hpayload
      simp only [Payload.appendEntries.injEq, List.map_eq_nil_iff, List.drop_eq_nil_iff] at hpayload
      obtain ⟨rfl, rfl, rfl, rfl, hdrop⟩ := hpayload
      exact fun haccept => Or.inr (hgoal (by omega) haccept)
    · trivial
  · rintro - hterm hshort
    dsimp only at hterm hshort
    have hbehind : (w.node y).lastLogIndex ≤ (w.node x).lastLogIndex := by
      by_cases hlen : 1 < (w.node y).log.length
      · have hs := stampAt_last hlen
        rw [← RaftNode.lastLogTerm_eq, hterm] at hs
        exact hl.le_last h hy (by omega) hs
      · unfold RaftNode.lastLogIndex
        omega
    intro entry hentry
    rw [List.length_map, List.length_drop] at hshort hentry
    have hnone : (w.node x).log.length - next = 0 := by omega
    rw [hnone, List.take_zero] at hentry
    exact absurd hentry List.not_mem_nil

/-- What a node makes of an `AppendEntries` that is not older than itself. -/
theorem RaftNode.answers {n : RaftNode} {term : Nat} (hroot : n.log[0]? = some sentinel)
    (hterm : n.currentTerm ≤ term) (fromPeer : Uuid) (prevIdx prevTerm leaderCommit : Nat)
    (cmds : List Bytes) :
    ∃ n', n'.currentTerm = term ∧
      ((0 < prevIdx ∧ n.step fromPeer (.appendEntries term prevIdx prevTerm leaderCommit cmds) 0 0
          = (n', [⟨fromPeer, .appendEntriesReply term false 0⟩])) ∨
        (n.step fromPeer (.appendEntries term prevIdx prevTerm leaderCommit cmds) 0 0
          = (n', [⟨fromPeer, .appendEntriesReply term true n'.lastLogIndex⟩]) ∧
          prevIdx + cmds.length ≤ n'.lastLogIndex ∧
          min leaderCommit n'.lastLogIndex ≤ n'.commitIndex)) := by
  have hcurrent := follow_currentTerm hterm 0
  dsimp only [step]
  rw [handleAppendEntries_eq, if_neg (Nat.not_lt.mpr hterm)]
  by_cases hmis : (n.follow term 0).Mismatch prevIdx prevTerm
  · rw [receiveEntries_mismatch hmis, hcurrent]
    exact ⟨_, hcurrent, Or.inl ⟨hmis.1, rfl⟩⟩
  · have hroot' : (n.follow term 0).log[0]? = some sentinel := by
      rw [(follow_same n term 0).1]
      exact hroot
    have hsettled := settled_receiveEntries hroot' hmis fromPeer term leaderCommit cmds
    obtain ⟨m, heq, -, hsame⟩ := receiveEntries_accepted hmis fromPeer term leaderCommit cmds
    rw [heq] at hsettled ⊢
    refine ⟨m, hsame.currentTerm.trans hcurrent, Or.inr ⟨by rw [hcurrent], ?_, ?_⟩⟩
    · have hlt : prevIdx + cmds.length < m.log.length := by
        cases cmds with
        | nil =>
          rcases not_mismatch_iff.mp hsettled.prev with rfl | hstamp
          · have hlog : m.log = (n.follow term 0).log := hsame.log
            rw [hlog]
            exact (List.getElem?_eq_some_iff.mp hroot').1
          · exact lt_length_of_stampAt hstamp
        | cons cmd cmds =>
          exact lt_length_of_stampAt (hsettled.covered _ (by simp) (Nat.le_refl _))
      exact Nat.le_sub_one_of_lt hlt
    · by_cases hlater : leaderCommit > m.commitIndex
      · exact Nat.le_of_eq (hsettled.committed hlater)
      · exact Nat.le_trans (Nat.min_le_left _ _) (Nat.le_of_not_gt hlater)

/-- What a leader makes of a refusal in its term: it offers one entry more. -/
theorem RaftNode.step_refused {n : RaftNode} (hlead : n.state = .leader) (hy : y ∈ n.peers)
    (hnext : 1 < n.nextIndex.getD (n.peerIndex y) 1) :
    ∃ n', n.step y (.appendEntriesReply n.currentTerm false 0) 0 0 = (n', [⟨y, n'.offer y⟩]) ∧
      Same n' n ∧
      n'.nextIndex.getD (n'.peerIndex y) 1 + 1 = n.nextIndex.getD (n.peerIndex y) 1 := by
  have hpeer : ¬ n.peerIndex y ≥ n.peers.length :=
    Nat.not_le.mpr (List.idxOf_lt_length_iff.mpr hy)
  have hcell : n.peerIndex y < n.nextIndex.length := by
    by_contra hnot
    rw [List.getD_eq_getElem?_getD, List.getElem?_eq_none (Nat.le_of_not_lt hnot)] at hnext
    exact absurd hnext (Nat.lt_irrefl 1)
  dsimp only [step]
  unfold handleAppendEntriesReply
  rw [if_neg (not_not.mpr hlead), if_neg (Nat.lt_irrefl _)]
  dsimp only
  rw [if_neg hpeer, if_neg (by simp), if_pos hnext]
  refine ⟨{ n with
      nextIndex := n.nextIndex.set (n.peerIndex y) (n.nextIndex.getD (n.peerIndex y) 1 - 1) },
    ?_, by constructor <;> rfl, ?_⟩
  · rw [sendAppendEntries_eq (by exact hy)]
  · show (n.nextIndex.set (n.peerIndex y) (n.nextIndex.getD (n.peerIndex y) 1 - 1)).getD
      (n.peerIndex y) 1 + 1 = _
    rw [List.getD_eq_getElem?_getD, List.getElem?_set_self hcell, Option.getD_some]
    exact Nat.sub_add_cancel (Nat.le_of_lt hnext)

/-- What a leader makes of an acceptance in its term. -/
theorem RaftNode.step_accepted {n : RaftNode} (hlead : n.state = .leader) (hy : y ∈ n.peers)
    (matchIdx : Nat) :
    n.step y (.appendEntriesReply n.currentTerm true matchIdx) 0 0
      = ((n.acknowledge (n.peerIndex y) matchIdx).advanceCommitIndex 0, []) := by
  have hpeer : ¬ n.peerIndex y ≥ n.peers.length :=
    Nat.not_le.mpr (List.idxOf_lt_length_iff.mpr hy)
  dsimp only [step]
  unfold handleAppendEntriesReply
  rw [if_neg (not_not.mpr hlead), if_neg (Nat.lt_irrefl _)]
  dsimp only
  rw [if_neg hpeer, if_pos rfl]

/-! ## An exchange

An offer that is refused is followed by one that starts one entry earlier, so there are at most as
many as the log is long. -/

/-- `advanceCommitIndex` moves `commitIndex` only, and up. -/
theorem RaftNode.advance_frame (n : RaftNode) :
    ∃ i, n.advanceCommitIndex 0 = { n with commitIndex := i } ∧ n.commitIndex ≤ i := by
  unfold advanceCommitIndex
  dsimp only
  split
  · rename_i hmore
    exact ⟨_, rfl, Nat.le_of_lt hmore.1⟩
  · exact ⟨n.commitIndex, rfl, Nat.le_refl _⟩

/-- What an acceptance makes of a leader. -/
theorem RaftNode.acknowledge_frame (n : RaftNode) (pi matchIdx : Nat) :
    ∃ n', (n.acknowledge pi matchIdx).advanceCommitIndex 0 = n' ∧ n'.state = n.state ∧
      n'.currentTerm = n.currentTerm ∧ n'.log = n.log ∧ n'.peers = n.peers ∧
      n'.matchIndex = n.matchIndex.set pi matchIdx ∧ n.commitIndex ≤ n'.commitIndex := by
  obtain ⟨i, hadvance, hi⟩ := (n.acknowledge pi matchIdx).advance_frame
  exact ⟨_, hadvance, rfl, rfl, rfl, rfl, rfl, hi⟩

/-- Where all cells stand at the last entry, and that is of the leader's term, it is committed. -/
theorem RaftNode.advance_counts {n : RaftNode} (hcells : n.matchIndex.length = n.peers.length)
    (hall : ∀ m ∈ n.matchIndex, m = n.lastLogIndex)
    (hown : stampAt n.log n.lastLogIndex = some n.currentTerm) :
    n.lastLogIndex ≤ (n.advanceCommitIndex 0).commitIndex := by
  have hmem : ∀ m ∈ n.sortedMatch, m = n.lastLogIndex := by
    intro m hm
    rw [sortedMatch, List.mem_insertionSort, List.mem_append, List.mem_singleton] at hm
    exact hm.elim (hall m) id
  have hlen : n.quorum - 1 < n.sortedMatch.length := by
    rw [sortedMatch, List.length_insertionSort, List.length_append, hcells, List.length_singleton]
    unfold quorum
    omega
  have hcommit : n.sortedMatch.getD (n.quorum - 1) 0 = n.lastLogIndex := by
    rw [List.getD_eq_getElem?_getD, List.getElem?_eq_getElem hlen, Option.getD_some]
    exact hmem _ (List.getElem_mem hlen)
  unfold advanceCommitIndex
  dsimp only
  rw [hcommit]
  split
  · exact Nat.le_refl _
  · rename_i hnot
    by_contra hlt
    refine hnot ⟨Nat.lt_of_not_le hlt, ?_⟩
    rw [show n.log[n.lastLogIndex]?.map LogEntry.term = some n.currentTerm from hown]
    rfl

/-- How far the leader `x` takes its peer `y` to be. -/
def World.cell (w : World) (x y : Uuid) : Nat :=
  (w.node x).matchIndex.getD ((w.node x).peerIndex y) 0

/-- What an exchange between the leader `x` and its peer `y` leaves. -/
structure Exchanged (w w' : World) (x y : Uuid) : Prop where
  others : ∀ z, z ≠ x → z ≠ y → w'.node z = w.node z
  leads : (w'.node x).state = .leader
  term : (w'.node x).currentTerm = (w.node x).currentTerm
  log : (w'.node x).log = (w.node x).log
  commit : (w.node x).commitIndex ≤ (w'.node x).commitIndex
  cells : ∀ z ∈ (w.node x).peers, z ≠ y → w'.cell x z = w.cell x z
  known : w'.cell x y = (w.node x).lastLogIndex
  caught : (w'.node y).currentTerm = (w.node x).currentTerm
  last : (w'.node y).lastLogIndex = (w.node x).lastLogIndex
  agree : Agree (w'.node y).log (w.node x).log (w.node x).lastLogIndex
  follows : min (w.node x).commitIndex (w.node x).lastLogIndex ≤ (w'.node y).commitIndex
  counts : (∀ z ∈ (w.node x).peers, w'.cell x z = (w.node x).lastLogIndex) →
    (w.node x).lastLogIndex ≤ (w'.node x).commitIndex

/-- An exchange after something that changes nothing it looks at. -/
theorem Exchanged.after (h : Exchanged w' w'' x y) (hsame : Same (w'.node x) (w.node x))
    (hothers : ∀ z, z ≠ x → z ≠ y → w'.node z = w.node z) : Exchanged w w'' x y := by
  have hlast : (w'.node x).lastLogIndex = (w.node x).lastLogIndex := by
    unfold RaftNode.lastLogIndex
    rw [hsame.log]
  have hcell : ∀ z, w'.cell x z = w.cell x z := by
    intro z
    unfold World.cell RaftNode.peerIndex
    rw [hsame.matchIndex, hsame.peers]
  refine ⟨fun z hx hy => (h.others z hx hy).trans (hothers z hx hy), h.leads,
    h.term.trans hsame.currentTerm, h.log.trans hsame.log, hsame.commitIndex ▸ h.commit,
    fun z hz hy => (h.cells z (hsame.peers ▸ hz) hy).trans (hcell z), h.known.trans hlast,
    h.caught.trans hsame.currentTerm, h.last.trans hlast, ?_, ?_, ?_⟩
  · rw [← hlast, ← hsame.log]
    exact h.agree
  · rw [← hlast, ← hsame.commitIndex]
    exact h.follows
  · rw [← hlast, ← hsame.peers]
    exact h.counts

/-- The leader has taken in that `y` is where it is itself. -/
theorem Exchanged.of_reply (h : Sane g w₀ w) (hl : Leads g w x) (hy : y ∈ g.peersOf x)
    (hcaught : (w.node y).currentTerm = (w.node x).currentTerm)
    (hlast : (w.node y).lastLogIndex = (w.node x).lastLogIndex)
    (hagree : Agree (w.node y).log (w.node x).log (w.node x).lastLogIndex)
    (hfollows : min (w.node x).commitIndex (w.node x).lastLogIndex ≤ (w.node y).commitIndex) :
    Exchanged w (w.act x ((((w.node x).acknowledge ((w.node x).peerIndex y)
      (w.node x).lastLogIndex).advanceCommitIndex 0), [])) x y := by
  have hxy : y ≠ x := (Group.mem_peersOf.mp hy).2
  have hpeers := h.static.peers x
  have hcells := (h.firm.sound.acks.cells x hl.member hl.leads).length
  have hslot : (w.node x).peerIndex y < (w.node x).matchIndex.length := by
    rw [hcells]
    exact List.idxOf_lt_length_iff.mpr (hpeers ▸ hy)
  have hset : ((w.node x).matchIndex.set ((w.node x).peerIndex y)
      (w.node x).lastLogIndex).length = (w.node x).peers.length := by
    rw [List.length_set, hcells]
  have hcounts := RaftNode.advance_counts (n := (w.node x).acknowledge ((w.node x).peerIndex y)
    (w.node x).lastLogIndex) hset
  obtain ⟨n', hn', hstate, hterm, hlog, hpeers', hmatch, hcommit⟩ := (w.node x).acknowledge_frame
    ((w.node x).peerIndex y) (w.node x).lastLogIndex
  rw [hn'] at hcounts ⊢
  have hself : (w.act x (n', [])).node x = n' := by simp
  have hother : ∀ z, z ≠ x → (w.act x (n', [])).node z = w.node z := fun z hz => by
    rw [World.act_node_apply, if_neg hz]
  have hcell : ∀ z, (w.act x (n', [])).cell x z = ((w.node x).matchIndex.set
      ((w.node x).peerIndex y) (w.node x).lastLogIndex)[(w.node x).peerIndex z]?.getD 0 := by
    intro z
    unfold World.cell RaftNode.peerIndex
    rw [hself, hmatch, hpeers', List.getD_eq_getElem?_getD]
    rfl
  refine ⟨fun z hz _ => hother z hz, ?_, ?_, ?_, ?_, fun z hz hzy => ?_, ?_, ?_, ?_, ?_, ?_,
    fun hall => ?_⟩
  · rw [hself, hstate]
    exact hl.leads
  · rw [hself, hterm]
  · rw [hself, hlog]
  · rw [hself]
    exact hcommit
  · have hne : (w.node x).peerIndex y ≠ (w.node x).peerIndex z := fun heq =>
      hzy ((List.idxOf_inj hz).mp heq.symm)
    rw [hcell, List.getElem?_set_ne hne, World.cell, List.getD_eq_getElem?_getD]
  · rw [hcell, List.getElem?_set_self hslot]
    rfl
  · rw [hother y hxy]
    exact hcaught
  · rw [hother y hxy]
    exact hlast
  · rw [hother y hxy]
    exact hagree
  · rw [hother y hxy]
    exact hfollows
  · rw [hself]
    refine hcounts (fun m hm => ?_) hl.own.2
    -- every cell is the cell of a peer
    obtain ⟨j, hj, rfl⟩ := List.mem_iff_getElem.mp hm
    have hj' : j < (w.node x).peers.length := hset ▸ hj
    have hnodup : (w.node x).peers.Nodup := hpeers ▸ g.nodup.filter _
    have hhere := hall _ (List.getElem_mem hj')
    rw [hcell, show (w.node x).peerIndex (w.node x).peers[j] = j from hnodup.idxOf_getElem j hj',
      List.getElem?_eq_getElem (by exact hj)] at hhere
    exact hhere

/-- A refused offer: the leader comes back with one entry more. -/
theorem Leads.refused (hl : Leads g w x) (hyx : y ≠ x) (hpeer : y ∈ (w.node x).peers)
    {log : List LogEntry} (he : (⟨x, y, (w.node x).offer y, log⟩ : Envelope) ∈ w.sent)
    (hharmless : w.Harmless ⟨x, y, (w.node x).offer y, log⟩) {n' : RaftNode}
    (hterm : n'.currentTerm = (w.node x).currentTerm)
    (hnext : 1 < (w.node x).nextIndex.getD ((w.node x).peerIndex y) 1)
    (hr : (w.node y).step x ((w.node x).offer y) 0 0
      = (n', [⟨x, .appendEntriesReply (w.node x).currentTerm false 0⟩])) :
    ∃ w', g.Goes w w' ∧ Leads g w' x ∧ Same (w'.node x) (w.node x) ∧
      (∀ z, z ≠ x → z ≠ y → w'.node z = w.node z) ∧
      (⟨x, y, (w'.node x).offer y, (w'.node x).log⟩ : Envelope) ∈ w'.sent ∧
      (w'.node x).nextIndex.getD ((w'.node x).peerIndex y) 1 + 1
        = (w.node x).nextIndex.getD ((w.node x).peerIndex y) 1 := by
  obtain ⟨w₁, hgo₁, hy₁, hothers₁, hsent₁, -⟩ := goes_reply (g := g) he hharmless
    (by simp [RaftNode.offer]) hr
  have hx₁ := hothers₁ x hyx.symm
  obtain ⟨l, hback, hsame, hfewer⟩ := RaftNode.step_refused hl.leads hpeer hnext
  have hreply : (⟨y, x, .appendEntriesReply (w.node x).currentTerm false 0, n'.log⟩ : Envelope)
      ∈ w₁.sent := by
    rw [hsent₁]
    exact List.mem_append_right _ (List.mem_singleton_self _)
  obtain ⟨w₂, hgo₂, hx₂, hothers₂, hsent₂, -⟩ := goes_reply (g := g) hreply
    ⟨trivial, trivial, trivial, trivial⟩ (by simp) (by rw [hx₁]; exact hback)
  have hothers : ∀ z, z ≠ x → z ≠ y → w₂.node z = w.node z := fun z hzx hzy =>
    (hothers₂ z hzx).trans (hothers₁ z hzy)
  have hsame₂ : Same (w₂.node x) (w.node x) := hx₂ ▸ hsame
  refine ⟨w₂, hgo₁.trans hgo₂, ?_, hsame₂, hothers, ?_, by rw [hx₂]; exact hfewer⟩
  · refine hl.keep (hsame₂.state.trans hl.leads) hsame₂.currentTerm hsame₂.log ?_ hothers
    rw [hothers₂ y hyx, hy₁, hterm]
  · rw [hx₂, hsent₂]
    exact List.mem_append_right _ (List.mem_singleton_self _)

/-- An offer that is taken: with the reply the leader knows. -/
theorem Leads.taken (hsize : 2 ≤ g.size) (hodd : Odd g.size ∨ g.size = 2) (h : Sane g w₀ w)
    (hl : Leads g w x) (hy : y ∈ g.peersOf x) {log : List LogEntry}
    (he : (⟨x, y, (w.node x).offer y, log⟩ : Envelope) ∈ w.sent)
    (hharmless : w.Harmless ⟨x, y, (w.node x).offer y, log⟩) {n' : RaftNode}
    (hterm : n'.currentTerm = (w.node x).currentTerm)
    (hcovered : (w.node x).lastLogIndex ≤ n'.lastLogIndex)
    (hfollows : min (w.node x).commitIndex n'.lastLogIndex ≤ n'.commitIndex)
    (hr : (w.node y).step x ((w.node x).offer y) 0 0
      = (n', [⟨x, .appendEntriesReply (w.node x).currentTerm true n'.lastLogIndex⟩])) :
    ∃ w', g.Goes w w' ∧ Exchanged w w' x y := by
  have hyx : y ≠ x := (Group.mem_peersOf.mp hy).2
  have hpeer : y ∈ (w.node x).peers := h.static.peers x ▸ hy
  obtain ⟨w₁, hgo₁, hy₁, hothers₁, hsent₁, -⟩ := goes_reply (g := g) he hharmless
    (by simp [RaftNode.offer]) hr
  have hx₁ := hothers₁ x hyx.symm
  have h₁ := h.goes hsize hodd hgo₁
  have hl₁ : Leads g w₁ x := hl.keep (hx₁ ▸ hl.leads) (by rw [hx₁]) (by rw [hx₁])
    (by rw [hy₁, hterm]) fun z _ hzy => hothers₁ z hzy
  have hreply : (⟨y, x, .appendEntriesReply (w.node x).currentTerm true n'.lastLogIndex, n'.log⟩
      : Envelope) ∈ w₁.sent := by
    rw [hsent₁]
    exact List.mem_append_right _ (List.mem_singleton_self _)
  -- what is acknowledged is the leader's
  have hagree : Agree n'.log (w.node x).log n'.lastLogIndex := by
    have hholds := (h₁.firm.sound.acks.sent _ hreply _ _ rfl).2.2.1
    rw [show w₁.books.ledger (w.node x).currentTerm = (w.node x).log by
      rw [← hx₁]
      exact h₁.firm.sound.ledgers.book x hl.member hl₁.leads] at hholds
    exact hholds
  have hlast : n'.lastLogIndex = (w.node x).lastLogIndex :=
    Nat.le_antisymm (Nat.le_sub_one_of_lt hagree.2.1) hcovered
  have hback : (w₁.node x).step y (.appendEntriesReply (w.node x).currentTerm true
      n'.lastLogIndex) 0 0 = ((((w₁.node x).acknowledge ((w₁.node x).peerIndex y)
        (w₁.node x).lastLogIndex).advanceCommitIndex 0), []) := by
    rw [hlast, ← hx₁]
    exact RaftNode.step_accepted hl₁.leads (by rw [hx₁]; exact hpeer) _
  have hcurrent : w₁.CurrentReply ⟨y, x, .appendEntriesReply (w.node x).currentTerm true
      n'.lastLogIndex, n'.log⟩ := fun _ _ => by rw [hx₁]
  have hend := Exchanged.of_reply h₁ hl₁ hy (by rw [hx₁, hy₁, hterm]) (by rw [hx₁, hy₁, hlast])
    (by rw [hx₁, hy₁, ← hlast]; exact hagree) (by rw [hx₁, hy₁, ← hlast]; exact hfollows)
  exact ⟨_, hgo₁.trans (goes_arrive hreply ⟨trivial, hcurrent, trivial, trivial⟩ (by simp) hback),
    hend.after (hx₁ ▸ Same.refl _) fun z _ hzy => hothers₁ z hzy⟩

/-- **An exchange ends.** After finitely many offers the peer takes one, and both know. -/
theorem Leads.exchange (hsize : 2 ≤ g.size) (hodd : Odd g.size ∨ g.size = 2) (h : Sane g w₀ w)
    (hl : Leads g w x) (hy : y ∈ g.peersOf x) (log : List LogEntry)
    (he : (⟨x, y, (w.node x).offer y, log⟩ : Envelope) ∈ w.sent) :
    ∃ w', g.Goes w w' ∧ Exchanged w w' x y := by
  induction hk : (w.node x).nextIndex.getD ((w.node x).peerIndex y) 1
    using Nat.strong_induction_on generalizing w log with
  | _ k ih =>
    obtain ⟨hymem, hyx⟩ := Group.mem_peersOf.mp hy
    have hroot := (h.firm.sound.ledgers.nodes y hymem).root
    have hharmless := hl.harmless h hymem log
    obtain ⟨n', hterm, hanswer⟩ := RaftNode.answers hroot (hl.newest y hymem) x (k - 1)
      ((stampAt (w.node x).log (k - 1)).getD 0) (w.node x).commitIndex
      (((w.node x).log.drop k).map LogEntry.command)
    rw [show Payload.appendEntries _ (k - 1) _ _ _ = (w.node x).offer y by rw [← hk]; rfl]
      at hanswer
    rcases hanswer with ⟨hpos, hr⟩ | ⟨hr, hcovered, hfollows⟩
    · obtain ⟨w₁, hgo₁, hl₁, hsame, hothers, he₁, hfewer⟩ := hl.refused hyx
        (h.static.peers x ▸ hy) he hharmless hterm (by rw [hk]; omega) hr
      obtain ⟨w', hgo', hend⟩ := ih _ (by omega) (h.goes hsize hodd hgo₁) hl₁ _ he₁ rfl
      exact ⟨w', hgo₁.trans hgo', hend.after hsame hothers⟩
    · refine hl.taken hsize hodd h hy he hharmless hterm ?_ hfollows hr
      rw [List.length_map, List.length_drop] at hcovered
      unfold RaftNode.lastLogIndex at hcovered ⊢
      omega

/-! ## All peers, one after the other

What is brought about for one peer has to stay while the next one is served; the leader's log does
not change meanwhile, so it does. -/

/-- The peer `y` of the leader `x` is where the leader is, the leader knows, and `y` has committed
up to `c`. -/
structure Level (w : World) (x y : Uuid) (c : Nat) : Prop where
  term : (w.node y).currentTerm = (w.node x).currentTerm
  last : (w.node y).lastLogIndex = (w.node x).lastLogIndex
  agree : Agree (w.node y).log (w.node x).log (w.node x).lastLogIndex
  known : w.cell x y = (w.node x).lastLogIndex
  commit : c ≤ (w.node y).commitIndex

/-- The leader goes on with the same log, and with its term. -/
structure Steady (g : Group) (w w' : World) (x : Uuid) : Prop where
  leads : Leads g w' x
  term : (w'.node x).currentTerm = (w.node x).currentTerm
  log : (w'.node x).log = (w.node x).log
  commit : (w.node x).commitIndex ≤ (w'.node x).commitIndex

theorem Steady.trans (h : Steady g w w' x) (h' : Steady g w' w'' x) : Steady g w w'' x :=
  ⟨h'.leads, h'.term.trans h.term, h'.log.trans h.log, Nat.le_trans h.commit h'.commit⟩

theorem Steady.last (h : Steady g w w' x) : (w'.node x).lastLogIndex = (w.node x).lastLogIndex := by
  unfold RaftNode.lastLogIndex
  rw [h.log]

theorem Beaten.steady (h : Beaten w w' x) (hl : Leads g w x) : Steady g w w' x :=
  ⟨hl.keep (h.same.state.trans hl.leads) h.same.currentTerm h.same.log
      (Nat.le_of_eq h.same.currentTerm) fun z hz _ => h.others z hz,
    h.same.currentTerm, h.same.log, Nat.le_of_eq h.same.commitIndex.symm⟩

theorem Exchanged.steady (h : Exchanged w w' x y) (hl : Leads g w x) : Steady g w w' x :=
  ⟨hl.keep h.leads h.term h.log (Nat.le_of_eq h.caught) h.others, h.term, h.log, h.commit⟩

theorem Steady.level (h : Steady g w w' x) {c : Nat} (hlevel : Level w x y c)
    (hnode : w'.node y = w.node y) (hcell : w'.cell x y = w.cell x y) : Level w' x y c := by
  refine ⟨?_, ?_, ?_, ?_, ?_⟩
  · rw [hnode, h.term]
    exact hlevel.term
  · rw [hnode, h.last]
    exact hlevel.last
  · rw [hnode, h.log, h.last]
    exact hlevel.agree
  · rw [hcell, h.last]
    exact hlevel.known
  · rw [hnode]
    exact hlevel.commit

theorem Exchanged.level (h : Exchanged w w' x y) (hl : Leads g w x) {c : Nat}
    (hc : c ≤ min (w.node x).commitIndex (w.node x).lastLogIndex) : Level w' x y c := by
  have hsteady := h.steady hl
  refine ⟨h.caught.trans h.term.symm, h.last.trans hsteady.last.symm, ?_,
    h.known.trans hsteady.last.symm, Nat.le_trans hc h.follows⟩
  rw [h.log, hsteady.last]
  exact h.agree

/-- A heartbeat, and the exchange with one peer that follows it. -/
theorem Leads.visit (hsize : 2 ≤ g.size) (hodd : Odd g.size ∨ g.size = 2) (h : Sane g w₀ w)
    (hl : Leads g w x) (hy : y ∈ g.peersOf x) :
    ∃ w', g.Goes w w' ∧ Exchanged w w' x y := by
  obtain ⟨w₁, hgo, hbeat⟩ := beat hl.member hl.leads
  have h₁ := h.goes hsize hodd hgo
  have hl₁ := (hbeat.steady hl).leads
  obtain ⟨w', hgo', hend⟩ := hl₁.exchange hsize hodd h₁ hy _
    (hbeat.offered y (h.static.peers x ▸ hy))
  exact ⟨w', hgo.trans hgo', hend.after hbeat.same fun z hz _ => hbeat.others z hz⟩

/-- What one exchange leaves of the others. -/
theorem Exchanged.keeps (h : Exchanged w w' x y) (hl : Leads g w x) (hz : z ∈ (w.node x).peers)
    (hzx : z ≠ x) {c : Nat} (hc : c ≤ min (w.node x).commitIndex (w.node x).lastLogIndex)
    (hlevel : Level w x z c) : Level w' x z c := by
  by_cases hzy : z = y
  · rw [hzy]
    exact h.level hl hc
  · exact (h.steady hl).level hlevel (h.others z hzx hzy) (h.cells z hz hzy)

theorem Leads.round (hsize : 2 ≤ g.size) (hodd : Odd g.size ∨ g.size = 2) {c : Nat} :
    ∀ {ys : List Uuid} {w : World}, Sane g w₀ w → Leads g w x →
      c ≤ min (w.node x).commitIndex (w.node x).lastLogIndex → (∀ y ∈ ys, y ∈ g.peersOf x) →
      ∃ w', g.Goes w w' ∧ Steady g w w' x ∧ (∀ y ∈ ys, Level w' x y c) ∧
        ∀ z ∈ g.peersOf x, Level w x z c → Level w' x z c := by
  intro ys
  induction ys with
  | nil =>
    intro w _ hl _ _
    exact ⟨w, .refl w, ⟨hl, rfl, rfl, Nat.le_refl _⟩, fun y hy => absurd hy List.not_mem_nil,
      fun _ _ h => h⟩
  | cons y ys ih =>
    intro w h hl hc hys
    have hy := hys y List.mem_cons_self
    obtain ⟨w₁, hgo, hvisit⟩ := hl.visit hsize hodd h hy
    have hsteady := hvisit.steady hl
    have hkeep : ∀ z ∈ g.peersOf x, Level w x z c → Level w₁ x z c := fun z hz hlevel =>
      hvisit.keeps hl (h.static.peers x ▸ hz) (Group.mem_peersOf.mp hz).2 hc hlevel
    have hc₁ : c ≤ min (w₁.node x).commitIndex (w₁.node x).lastLogIndex := by
      rw [hsteady.last]
      have := hsteady.commit
      omega
    obtain ⟨w', hgo', hsteady', hlevels, hkeep'⟩ := ih (h.goes hsize hodd hgo) hsteady.leads hc₁
      fun z hz => hys z (List.mem_cons_of_mem _ hz)
    refine ⟨w', hgo.trans hgo', hsteady.trans hsteady', fun z hz => ?_,
      fun z hz hlevel => hkeep' z hz (hkeep z hz hlevel)⟩
    rcases List.mem_cons.mp hz with rfl | hrest
    · exact hkeep' z hy (hvisit.level hl hc)
    · exact hlevels z hrest

/-- **A leader's log spreads.** In the first round the peers get its entries, with one exchange more
it commits them, and in the second round the peers hear of that. -/
theorem Leads.spread (hsize : 2 ≤ g.size) (hodd : Odd g.size ∨ g.size = 2) (h : Sane g w₀ w)
    (hl : Leads g w x) :
    ∃ w', g.Goes w w' ∧ (w'.node x).log = (w.node x).log ∧ ∀ y ∈ g.members,
      (w'.node y).lastLogIndex = (w.node x).lastLogIndex ∧
      Agree (w'.node y).log (w.node x).log (w.node x).lastLogIndex ∧
      (w.node x).lastLogIndex ≤ (w'.node y).commitIndex := by
  obtain ⟨w₁, hgo₁, hsteady₁, hlevel₁, -⟩ := hl.round hsize hodd h (Nat.zero_le _) fun y hy => hy
  have h₁ := h.goes hsize hodd hgo₁
  obtain ⟨y, hy⟩ : ∃ y, y ∈ g.peersOf x := by
    have hlen := g.length_peersOf hl.member
    exact List.exists_mem_of_length_pos (by omega)
  obtain ⟨w₂, hgo₂, hvisit⟩ := hsteady₁.leads.visit hsize hodd h₁ hy
  have h₂ := h₁.goes hsize hodd hgo₂
  have hsteady₂ := hvisit.steady hsteady₁.leads
  have hcounted : (w₂.node x).lastLogIndex ≤ (w₂.node x).commitIndex := by
    rw [hsteady₂.last]
    refine hvisit.counts fun z hz => ?_
    rw [h₁.static.peers x] at hz
    exact (hvisit.keeps hsteady₁.leads (h₁.static.peers x ▸ hz) (Group.mem_peersOf.mp hz).2
      (Nat.zero_le _) (hlevel₁ z hz)).known.trans hsteady₂.last
  obtain ⟨w₃, hgo₃, hsteady₃, hlevel₃, -⟩ := hsteady₂.leads.round hsize hodd h₂
    (Nat.le_min.mpr ⟨hcounted, Nat.le_refl _⟩) fun y hy => hy
  have hsteady := (hsteady₁.trans hsteady₂).trans hsteady₃
  refine ⟨w₃, (hgo₁.trans hgo₂).trans hgo₃, hsteady.log, fun z hz => ?_⟩
  rw [← hsteady.last, ← hsteady.log]
  by_cases hzx : z = x
  · rw [hzx]
    refine ⟨rfl, Agree.refl ?_, ?_⟩
    · exact lt_length_of_stampAt hsteady.leads.own.2
    · rw [hsteady₃.last]
      exact Nat.le_trans hcounted hsteady₃.commit
  · have hlevel := hlevel₃ z (Group.mem_peersOf.mpr ⟨hz, hzx⟩)
    refine ⟨hlevel.last, hlevel.agree, ?_⟩
    rw [hsteady₃.last]
    exact hlevel.commit

/-! ## Handing out -/

theorem goes_apply (hx : x ∈ g.members) :
    g.Goes w { w.act x ((w.node x).takePendingApply.1, []) with
      applied := Function.update w.applied x
        (w.applied x ++ (w.node x).takePendingApply.2.map LogEntry.command) } := by
  have hstep : g.step w (.apply x) = { w.act x ((w.node x).takePendingApply.1, []) with
      applied := Function.update w.applied x
        (w.applied x ++ (w.node x).takePendingApply.2.map LogEntry.command) } := by
    simp only [Group.step, if_pos hx]
  rw [← hstep]
  exact .single (meets_of_quiet rfl)

/-- The members hand out what they have committed. -/
theorem apply_all : ∀ (ys : List Uuid) {w : World}, (∀ y ∈ ys, y ∈ g.members) →
    ∃ w', g.Goes w w' ∧ ∀ z, (w'.node z).log = (w.node z).log ∧
      (w'.node z).commitIndex = (w.node z).commitIndex ∧
      (w.node z).lastApplied ≤ (w'.node z).lastApplied ∧
      (z ∈ ys → (w.node z).commitIndex ≤ (w'.node z).lastApplied) := by
  intro ys
  induction ys with
  | nil =>
    intro w _
    exact ⟨w, .refl w, fun z => ⟨rfl, rfl, Nat.le_refl _, fun hz => absurd hz List.not_mem_nil⟩⟩
  | cons y ys ih =>
    intro w hys
    have hgo := goes_apply (w := w) (hys y List.mem_cons_self)
    obtain ⟨w', hgo', hafter⟩ := ih fun z hz => hys z (List.mem_cons_of_mem _ hz)
    refine ⟨w', hgo.trans hgo', fun z => ?_⟩
    obtain ⟨hlog, hcommit, hmore, hthere⟩ := hafter z
    dsimp only at hlog hcommit hmore hthere
    rw [World.act_node_apply] at hlog hcommit hmore hthere
    by_cases hzy : z = y
    · subst hzy
      rw [if_pos rfl] at hlog hcommit hmore
      refine ⟨hlog, hcommit, ?_, fun _ => ?_⟩
      · exact Nat.le_trans (Nat.le_max_left _ _) hmore
      · exact Nat.le_trans (Nat.le_max_right _ _) hmore
    · rw [if_neg hzy] at hlog hcommit hmore hthere
      exact ⟨hlog, hcommit, hmore, fun hz => hthere ((List.mem_cons.mp hz).resolve_left hzy)⟩

/-- Where a leader with an entry of its own is known to all, the members come to have handed out
exactly its commands. -/
theorem Leads.hand_out (hsize : 2 ≤ g.size) (hodd : Odd g.size ∨ g.size = 2) (h : Sane g w₀ w)
    (hl : Leads g w x) :
    ∃ w', g.Goes w w' ∧
      ∀ y ∈ g.members, w'.applied y = frontOf (w.node x).log (w.node x).lastLogIndex := by
  obtain ⟨w₁, hgo₁, -, hspread⟩ := hl.spread hsize hodd h
  obtain ⟨w', hgo', hafter⟩ := apply_all (w := w₁) g.members fun _ hy => hy
  have h' := h.goes hsize hodd (hgo₁.trans hgo')
  refine ⟨w', hgo₁.trans hgo', fun y hy => ?_⟩
  obtain ⟨hlast, hagree, hcommit⟩ := hspread y hy
  obtain ⟨hlog, hcommit', -, hthere⟩ := hafter y
  have hinside := h'.firm.indexed y hy
  have happlied : (w'.node y).lastApplied = (w.node x).lastLogIndex := by
    have hbound : (w'.node y).lastLogIndex = (w₁.node y).lastLogIndex := by
      unfold RaftNode.lastLogIndex
      rw [hlog]
    have := hthere hy
    have := hinside.1
    have := hinside.2
    omega
  rw [h'.firm.handed_out hodd hy, happlied, hlog]
  refine List.ext_getElem? fun j => ?_
  rcases Nat.lt_or_ge j (w.node x).lastLogIndex with hlt | hge
  · rw [frontOf_getElem? hlt, frontOf_getElem? hlt]
    exact hagree.2.2 (j + 1) hlt
  · rw [List.getElem?_eq_none (by rw [length_frontOf hagree.1]; exact hge),
      List.getElem?_eq_none (by rw [length_frontOf hagree.2.1]; exact hge)]

end Raft
end KvJet
