import KvJet.Raft.Spreading
import Mathlib.Data.Finset.Max
import Mathlib.Data.Prod.Lex

/-!
# Going on

Whatever has been lost, delayed, reordered or repeated on the way to it: from every state of a group
events lead to one where all members have handed out the same commands, with a new one as the last
(`never_stuck`). A member whose log is as new as any other stands until its term is the newest, the
others vote for it, and it takes the command; from there its log spreads.

The fields of messages are delivered as they were sent. The texts of this code do not do that for
the flags of the replies (`Raft/Codec.lean`): a granted vote and a success arrive as refusals, and
with these texts no group of two or more ever has a leader (`Raft/Restart.lean`). So what is said
here is that nothing else stands in the way.
-/

namespace KvJet
namespace Raft

variable {g : Group} {w w₀ : World} {x y : Uuid}

/-! ## Standing for election

Nothing here is fair or timed: the clock and the deliveries are chosen, and what has to be shown is
that the choice is allowed by the four conditions. -/

/-- A leader hears of a newer term. -/
theorem step_down (hsize : 2 ≤ g.size) (hodd : Odd g.size ∨ g.size = 2) (h : Sane g w₀ w)
    (hx : x ∈ g.members) (hlead : (w.node x).state = .leader) (hy : y ∈ g.peersOf x)
    (hnewer : (w.node x).currentTerm < (w.node y).currentTerm) :
    ∃ w', g.Goes w w' ∧ (w'.node x).state ≠ .leader ∧ (w'.node x).log = (w.node x).log ∧
      ∀ z, z ≠ x → w'.node z = w.node z := by
  obtain ⟨w₁, hgo₁, hbeat⟩ := beat hx hlead
  have h₁ := h.goes hsize hodd hgo₁
  have hyx : y ≠ x := (Group.mem_peersOf.mp hy).2
  have he := hbeat.offered y (h.static.peers x ▸ hy)
  have hlt : (w₁.node x).currentTerm < (w₁.node y).currentTerm := by
    rw [hbeat.same.currentTerm, hbeat.others y hyx]
    exact hnewer
  have hrefuses : ¬ (w₁.node y).currentTerm ≤ (w₁.node x).currentTerm := Nat.not_le.mpr hlt
  -- the peer refuses the offer, and the refusal carries its term
  have hharmless : w₁.Harmless ⟨x, y, (w₁.node x).offer y, (w₁.node x).log⟩ := by
    refine ⟨trivial, trivial, ?_, fun haccept => absurd haccept.1 hrefuses⟩
    unfold World.NoStaleTail RaftNode.offer
    split
    · rename_i hpayload
      simp only [Payload.appendEntries.injEq] at hpayload
      exact fun haccept => absurd (hpayload.1 ▸ haccept.1) hrefuses
    · trivial
  have hrefused : (w₁.node y).step x ((w₁.node x).offer y) 0 0
      = (w₁.node y, [⟨x, .appendEntriesReply (w₁.node y).currentTerm false 0⟩]) := by
    dsimp only [RaftNode.offer, RaftNode.step]
    rw [RaftNode.handleAppendEntries_eq, if_pos hlt]
  obtain ⟨w₂, hgo₂, hy₂, hothers₂, hsent₂, -⟩ := goes_reply (g := g) he hharmless
    (by simp [RaftNode.offer]) hrefused
  have hx₂ := hothers₂ x hyx.symm
  have hreply : (⟨y, x, .appendEntriesReply (w₁.node y).currentTerm false 0, (w₁.node y).log⟩
      : Envelope) ∈ w₂.sent := by
    rw [hsent₂]
    exact List.mem_append_right _ (List.mem_singleton_self _)
  have hback : (w₂.node x).step y (.appendEntriesReply (w₁.node y).currentTerm false 0) 0 0
      = ((w₂.node x).becomeFollower (w₁.node y).currentTerm 0, []) := by
    dsimp only [RaftNode.step]
    unfold RaftNode.handleAppendEntriesReply
    rw [hx₂, if_neg (not_not.mpr (hbeat.same.state.trans hlead)), if_pos hlt]
  refine ⟨_, (hgo₁.trans hgo₂).trans (goes_arrive hreply ⟨trivial, trivial, trivial, trivial⟩
    (by simp) hback), ?_, ?_, fun z hz => ?_⟩
  · rw [World.act_node_apply, if_pos rfl]
    simp [RaftNode.becomeFollower, RaftNode.resetElectionTimer]
  · rw [World.act_node_apply, if_pos rfl]
    show (w₂.node x).log = _
    rw [hx₂, hbeat.same.log]
  · rw [World.act_node_apply, if_neg hz, ← hbeat.others z hz]
    by_cases hzy : z = y
    · rw [hzy, hy₂]
    · rw [hothers₂ z hzy]

/-- A tick of a node that does not lead. -/
theorem RaftNode.tick_waits {n : RaftNode} (hst : n.state ≠ .leader) :
    ∃ n', n'.log = n.log ∧ n'.peers = n.peers ∧
      if n.electionTimer ≤ 1 then n.tick 0 = (n', n'.sendRequestVote) ∧ n'.state = .candidate ∧
        n'.currentTerm = n.currentTerm + 1 ∧ n'.voteCount = 1
      else n.tick 0 = (n', []) ∧ n'.state = n.state ∧ n'.currentTerm = n.currentTerm ∧
        n'.electionTimer = n.electionTimer - 1 := by
  unfold tick
  dsimp only
  rw [if_neg (show ¬ (n.record .flush).state = .leader from hst)]
  have htimer : (n.record .flush).electionTimer = n.electionTimer := rfl
  by_cases hdue : n.electionTimer ≤ 1
  · rw [if_pos (by omega)]
    refine ⟨({ n.record .flush with electionTimer := n.electionTimer - 1 } : RaftNode
      ).becomeCandidate 0, rfl, rfl, ?_⟩
    rw [if_pos hdue]
    exact ⟨rfl, rfl, rfl, rfl⟩
  · rw [if_neg (by omega)]
    refine ⟨{ n.record .flush with electionTimer := n.electionTimer - 1 }, rfl, rfl, ?_⟩
    rw [if_neg hdue]
    exact ⟨rfl, rfl, rfl, rfl⟩

/-- Member `x` is a candidate, and what it has asked for can still be granted by each of `ys`. -/
structure Standing (w : World) (x : Uuid) (ys : List Uuid) : Prop where
  stands : (w.node x).state = .candidate
  asked : ∀ y ∈ ys, (⟨x, y, .requestVote (w.node x).currentTerm (w.node x).lastLogIndex
    (w.node x).lastLogTerm, (w.node x).log⟩ : Envelope) ∈ w.sent
  uncounted : ∀ y ∈ ys, (x, (w.node x).currentTerm, y) ∉ w.counted
  older : ∀ y ∈ ys, (w.node y).currentTerm < (w.node x).currentTerm
  newest : ∀ y ∈ ys, (w.node y).logOk (w.node x).lastLogIndex (w.node x).lastLogTerm

/-- Its clock makes a node a candidate. -/
theorem stand (hx : x ∈ g.members) (hst : (w.node x).state ≠ .leader) :
    ∃ w', g.Goes w w' ∧ (w'.node x).state = .candidate ∧
      (w'.node x).currentTerm = (w.node x).currentTerm + 1 ∧ (w'.node x).voteCount = 1 ∧
      (w'.node x).log = (w.node x).log ∧ (∀ z, z ≠ x → w'.node z = w.node z) ∧
      ∀ y ∈ (w.node x).peers, (⟨x, y, .requestVote (w'.node x).currentTerm (w'.node x).lastLogIndex
        (w'.node x).lastLogTerm, (w'.node x).log⟩ : Envelope) ∈ w'.sent := by
  induction ht : (w.node x).electionTimer.toNat using Nat.strong_induction_on generalizing w with
  | _ t ih =>
    have hgo := goes_tick (w := w) hx
    obtain ⟨n', hlog, hpeers, htick⟩ := RaftNode.tick_waits hst
    by_cases hdue : (w.node x).electionTimer ≤ 1
    · rw [if_pos hdue] at htick
      obtain ⟨htick, hstate, hterm, hvotes⟩ := htick
      rw [htick] at hgo
      have hself : (w.act x (n', n'.sendRequestVote)).node x = n' := by simp
      refine ⟨_, hgo, by rw [hself, hstate], by rw [hself, hterm], by rw [hself, hvotes],
        by rw [hself, hlog], fun z hz => ?_, fun y hy => ?_⟩
      · rw [World.act_node_apply, if_neg hz]
      · rw [hself, World.act_sent]
        rw [← hpeers] at hy
        exact List.mem_append_right _ (List.mem_map.mpr ⟨_, List.mem_map.mpr ⟨y, hy, rfl⟩, rfl⟩)
    · rw [if_neg hdue] at htick
      obtain ⟨htick, hstate, hterm, htimer⟩ := htick
      rw [htick] at hgo
      have hself : (w.act x (n', [])).node x = n' := by simp
      obtain ⟨w', hgo', hcandidate, hterm', hvotes, hlog', hothers, hasked⟩ := ih _
        (by rw [hself, htimer]; omega) (by rw [hself, hstate]; exact hst) rfl
      rw [hself] at hterm' hlog' hasked
      refine ⟨w', hgo.trans hgo', hcandidate, by rw [hterm', hterm], hvotes, hlog'.trans hlog,
        fun z hz => ?_, fun y hy => hasked y (hpeers ▸ hy)⟩
      rw [hothers z hz, World.act_node_apply, if_neg hz]

/-- It stands again until its term is beyond `M`. -/
theorem stand_above (hsize : 2 ≤ g.size) (hodd : Odd g.size ∨ g.size = 2) {M : Nat}
    (h : Sane g w₀ w) (hx : x ∈ g.members) (hst : (w.node x).state ≠ .leader)
    (hbound : ∀ z ∈ g.peersOf x, (w.node z).currentTerm ≤ M)
    (hbest : ∀ z ∈ g.peersOf x,
      (w.node z).logOk (w.node x).lastLogIndex (w.node x).lastLogTerm) :
    ∃ w', g.Goes w w' ∧ Standing w' x (g.peersOf x) ∧ (w'.node x).voteCount = 1 := by
  induction hd : M - (w.node x).currentTerm using Nat.strong_induction_on generalizing w with
  | _ d ih =>
    obtain ⟨w₁, hgo, hstate, hterm, hvotes, hlog, hothers, hasked⟩ := stand hx hst
    have h₁ := h.goes hsize hodd hgo
    have hlast : (w₁.node x).lastLogIndex = (w.node x).lastLogIndex ∧
        (w₁.node x).lastLogTerm = (w.node x).lastLogTerm := by
      unfold RaftNode.lastLogIndex RaftNode.lastLogTerm
      rw [hlog]
      exact ⟨rfl, rfl⟩
    have hpeer : ∀ z ∈ g.peersOf x, w₁.node z = w.node z := fun z hz =>
      hothers z (Group.mem_peersOf.mp hz).2
    have hbest₁ : ∀ z ∈ g.peersOf x,
        (w₁.node z).logOk (w₁.node x).lastLogIndex (w₁.node x).lastLogTerm := by
      intro z hz
      rw [hpeer z hz, hlast.1, hlast.2]
      exact hbest z hz
    by_cases hbeyond : M < (w₁.node x).currentTerm
    · have hnewest : ∀ z ∈ g.peersOf x, (w₁.node z).currentTerm < (w₁.node x).currentTerm := by
        intro z hz
        rw [hpeer z hz]
        exact Nat.lt_of_le_of_lt (hbound z hz) hbeyond
      refine ⟨w₁, hgo, ⟨hstate, fun y hy => hasked y (h.static.peers x ▸ hy),
        fun y _ hcounted => ?_, hnewest, hbest₁⟩, hvotes⟩
      -- it has only its own vote
      have htally := h₁.firm.sound.ballots.tallied x hx hstate
      rw [hvotes] at htally
      have hnone : w₁.voters x (w₁.node x).currentTerm = [] :=
        List.eq_nil_of_length_eq_zero (by omega)
      exact absurd (hnone ▸ mem_voters.mpr hcounted) List.not_mem_nil
    · obtain ⟨w', hgo', hend⟩ := ih _ (by omega) h₁ (by rw [hstate]; simp)
        (fun z hz => by rw [hpeer z hz]; exact hbound z hz) hbest₁ rfl
      exact ⟨w', hgo.trans hgo', hend⟩

/-- What a granted vote makes of a candidate. -/
theorem RaftNode.step_granted {n : RaftNode} (hst : n.state = .candidate) (fromPeer : Uuid) :
    ∃ n', n.step fromPeer (.requestVoteReply n.currentTerm true) 0 0 = (n', []) ∧
      n'.currentTerm = n.currentTerm ∧ n'.log = n.log ∧ n'.peers = n.peers ∧
      (n'.state = .leader ∨ (n'.state = .candidate ∧ n'.voteCount = n.voteCount + 1 ∧
        n.voteCount + 1 < n.quorum)) := by
  dsimp only [step]
  unfold handleRequestVoteReply
  rw [if_neg (not_not.mpr hst), if_neg (Nat.lt_irrefl _), if_pos rfl]
  dsimp only
  split
  · exact ⟨_, rfl, rfl, rfl, rfl, Or.inl rfl⟩
  · rename_i hfewer
    exact ⟨_, rfl, rfl, rfl, rfl, Or.inr ⟨hst, rfl, Nat.lt_of_not_le hfewer⟩⟩

/-- What a node of an older term makes of a candidate whose log is as new as its own. -/
theorem RaftNode.step_asked {n : RaftNode} {term lastIdx lastTerm : Nat}
    (hterm : n.currentTerm < term) (hok : n.logOk lastIdx lastTerm) (fromPeer : Uuid) :
    ∃ n', n.step fromPeer (.requestVote term lastIdx lastTerm) 0 0
        = (n', [⟨fromPeer, .requestVoteReply term true⟩]) ∧ n'.currentTerm = term ∧
      n'.log = n.log := by
  dsimp only [step]
  unfold handleRequestVote
  rw [if_neg (Nat.not_lt.mpr (Nat.le_of_lt hterm))]
  dsimp only
  rw [if_pos (by exact hterm)]
  unfold considerVote
  rw [if_pos ⟨Or.inl rfl, hok⟩]
  exact ⟨_, rfl, rfl, rfl⟩

/-- One more votes for the candidate. -/
theorem Standing.poll {ys : List Uuid} (hs : Standing w x (y :: ys)) (hyx : y ≠ x)
    (hnodup : (y :: ys).Nodup) (hxs : x ∉ ys) :
    ∃ w', g.Goes w w' ∧ (w'.node x).currentTerm = (w.node x).currentTerm ∧
      (w'.node x).log = (w.node x).log ∧ (w'.node x).peers = (w.node x).peers ∧
      (w'.node y).currentTerm = (w.node x).currentTerm ∧
      (∀ z, z ≠ x → z ≠ y → w'.node z = w.node z) ∧
      ((w'.node x).state = .leader ∨ (Standing w' x ys ∧
        (w'.node x).voteCount = (w.node x).voteCount + 1 ∧
        (w.node x).voteCount + 1 < (w.node x).quorum)) := by
  obtain ⟨hyys, -⟩ := List.nodup_cons.mp hnodup
  obtain ⟨m, hgrants, hterm, hlog⟩ := RaftNode.step_asked (hs.older y List.mem_cons_self)
    (hs.newest y List.mem_cons_self) x
  obtain ⟨w₁, hgo₁, hy₁, hnode₁, hsent₁, hcounted₁⟩ := goes_reply (g := g)
    (hs.asked y List.mem_cons_self) ⟨trivial, trivial, trivial, trivial⟩ (by simp) hgrants
  have hx₁ := hnode₁ x hyx.symm
  -- the vote comes back
  have hgenuine : w₁.GenuineVote ⟨y, x, .requestVoteReply (w.node x).currentTerm true, m.log⟩ := by
    intro _ _
    rw [hx₁, hcounted₁]
    exact ⟨rfl, hs.uncounted y List.mem_cons_self⟩
  obtain ⟨n', hcounts, hterm', hlog', hpeers', hresult⟩ := RaftNode.step_granted hs.stands y
  have hgo₂ := goes_deliver (g := g) (w := w₁)
    (by rw [hsent₁]; exact List.mem_append_right _ (List.mem_singleton_self _))
    ⟨hgenuine, trivial, trivial, trivial⟩
  dsimp only at hgo₂
  rw [hx₁, hcounts] at hgo₂
  have htally : (w₁.tally ⟨y, x, .requestVoteReply (w.node x).currentTerm true, m.log⟩).counted
      = w.counted ++ [(x, (w.node x).currentTerm, y)] := by
    unfold World.tally
    dsimp only
    rw [if_pos ⟨by rw [hx₁]; exact hs.stands, by rw [hx₁]⟩, hcounted₁, hx₁]
  generalize hw₂ : (w₁.tally ⟨y, x, .requestVoteReply (w.node x).currentTerm true, m.log⟩).act x
    (n', []) = w₂ at hgo₂
  have hx₂ : w₂.node x = n' := by rw [← hw₂, World.act_node_apply, if_pos rfl]
  have hnode₂ : ∀ z, z ≠ x → w₂.node z = w₁.node z := fun z hz => by
    rw [← hw₂, World.act_node_apply, if_neg hz, World.node_tally]
  refine ⟨w₂, hgo₁.trans hgo₂, by rw [hx₂, hterm'], by rw [hx₂, hlog'], by rw [hx₂, hpeers'],
    by rw [hnode₂ y hyx, hy₁, hterm], fun z hzx hzy => by rw [hnode₂ z hzx, hnode₁ z hzy], ?_⟩
  rw [hx₂]
  refine hresult.imp id fun ⟨hstate, hvotes, hfewer⟩ => ⟨?_, hvotes, hfewer⟩
  have hlast : n'.lastLogIndex = (w.node x).lastLogIndex ∧
      n'.lastLogTerm = (w.node x).lastLogTerm := by
    unfold RaftNode.lastLogIndex RaftNode.lastLogTerm
    rw [hlog']
    exact ⟨rfl, rfl⟩
  have hsame : ∀ z ∈ ys, w₂.node z = w.node z := fun z hz => by
    rw [hnode₂ z fun heq => hxs (heq ▸ hz), hnode₁ z fun heq => hyys (heq ▸ hz)]
  refine ⟨by rw [hx₂, hstate], fun z hz => ?_, fun z hz => ?_, fun z hz => ?_, fun z hz => ?_⟩
  · rw [hx₂, hterm', hlast.1, hlast.2, hlog', ← hw₂, World.act_sent, World.sent_tally, hsent₁]
    exact List.mem_append_left _ (List.mem_append_left _
      (hs.asked z (List.mem_cons_of_mem _ hz)))
  · rw [hx₂, hterm', ← hw₂, World.act_counted, htally, List.mem_append, List.mem_singleton]
    rintro (hold | heq)
    · exact hs.uncounted z (List.mem_cons_of_mem _ hz) hold
    · simp only [Prod.mk.injEq, true_and] at heq
      exact hyys (heq ▸ hz)
  · rw [hx₂, hterm', hsame z hz]
    exact hs.older z (List.mem_cons_of_mem _ hz)
  · rw [hx₂, hlast.1, hlast.2, hsame z hz]
    exact hs.newest z (List.mem_cons_of_mem _ hz)

/-- **A candidate wins.**

Each voter in `ys` has not voted in this term yet and has no log that is newer, so it grants its
vote when it is asked, one after another; the induction is on those that are still to be asked, and
each vote is delivered at once. -/
theorem Standing.wins : ∀ {ys : List Uuid} {w : World}, Standing w x ys → ys.Nodup → x ∉ ys →
    ys ≠ [] → (w.node x).quorum ≤ (w.node x).voteCount + ys.length →
    (∀ z ∈ g.members, (w.node z).currentTerm ≤ (w.node x).currentTerm) →
    ∃ w', g.Goes w w' ∧ (w'.node x).state = .leader ∧ (w'.node x).log = (w.node x).log ∧
      ∀ z ∈ g.members, (w'.node z).currentTerm ≤ (w'.node x).currentTerm := by
  intro ys
  induction ys with
  | nil => exact fun _ _ _ hne => absurd rfl hne
  | cons y ys ih =>
    intro w hs hnodup hx _ hquorum holder
    have hyx : y ≠ x := fun heq => hx (heq ▸ List.mem_cons_self)
    have hxs : x ∉ ys := fun hmem => hx (List.mem_cons_of_mem _ hmem)
    obtain ⟨w₁, hgo, hterm, hlog, hpeers, hvoter, hothers, hresult⟩ :=
      hs.poll (g := g) hyx hnodup hxs
    have holder₁ : ∀ z ∈ g.members, (w₁.node z).currentTerm ≤ (w₁.node x).currentTerm := by
      intro z hz
      rw [hterm]
      by_cases hzx : z = x
      · rw [hzx, hterm]
      · by_cases hzy : z = y
        · rw [hzy, hvoter]
        · rw [hothers z hzx hzy]
          exact holder z hz
    rcases hresult with hlead | ⟨hs₁, hvotes, hfewer⟩
    · exact ⟨w₁, hgo, hlead, hlog, holder₁⟩
    · rw [List.length_cons] at hquorum
      have hsame : (w₁.node x).quorum = (w.node x).quorum := by
        unfold RaftNode.quorum
        rw [hpeers]
      obtain ⟨w', hgo', hlead, hlog', hnewest⟩ := ih hs₁ (List.nodup_cons.mp hnodup).2 hxs
        (fun hnil => by rw [hnil, List.length_nil] at hquorum; omega) (by rw [hsame, hvotes]; omega)
        holder₁
      exact ⟨w', hgo.trans hgo', hlead, hlog'.trans hlog, hnewest⟩

/-! ## The group goes on

A leader is found or made, and then its log is spread; after that it takes the new command and
spreads it as well. -/

/-- Some member's log is as new as any. -/
theorem exists_newest (w : World) (hx : x ∈ g.members) :
    ∃ y ∈ g.members, ∀ z ∈ g.members,
      (w.node z).logOk (w.node y).lastLogIndex (w.node y).lastLogTerm := by
  obtain ⟨y, hy, hmax⟩ := g.members.toFinset.exists_max_image
    (fun z => toLex ((w.node z).lastLogTerm, (w.node z).lastLogIndex)) ⟨x, List.mem_toFinset.mpr hx⟩
  refine ⟨y, List.mem_toFinset.mp hy, fun z hz => ?_⟩
  have hle := hmax z (List.mem_toFinset.mpr hz)
  rw [Prod.Lex.toLex_le_toLex] at hle
  exact hle.imp id fun heq => ⟨heq.1.symm, heq.2⟩

/-- A member that does not lead, with a log as new as any, comes to lead. -/
theorem win (hsize : 2 ≤ g.size) (hodd : Odd g.size ∨ g.size = 2) (h : Sane g w₀ w)
    (hx : x ∈ g.members) (hst : (w.node x).state ≠ .leader)
    (hbest : ∀ z ∈ g.members,
      (w.node z).logOk (w.node x).lastLogIndex (w.node x).lastLogTerm) :
    ∃ w', g.Goes w w' ∧ (w'.node x).state = .leader ∧
      ∀ z ∈ g.members, (w'.node z).currentTerm ≤ (w'.node x).currentTerm := by
  have hlen := g.length_peersOf hx
  obtain ⟨y, -, hmax⟩ := g.members.toFinset.exists_max_image (fun z => (w.node z).currentTerm)
    ⟨x, List.mem_toFinset.mpr hx⟩
  obtain ⟨w₁, hgo₁, hs, hvotes⟩ := stand_above hsize hodd (M := (w.node y).currentTerm) h hx hst
    (fun z hz => hmax z (List.mem_toFinset.mpr (Group.mem_peersOf.mp hz).1))
    fun z hz => hbest z (Group.mem_peersOf.mp hz).1
  have h₁ := h.goes hsize hodd hgo₁
  have hquorum : (w₁.node x).quorum ≤ (w₁.node x).voteCount + (g.peersOf x).length := by
    unfold RaftNode.quorum
    rw [h₁.static.peers x]
    omega
  have hself : x ∉ g.peersOf x := fun hmem => (Group.mem_peersOf.mp hmem).2 rfl
  have hne : g.peersOf x ≠ [] := by
    intro hnil
    rw [hnil, List.length_nil] at hlen
    omega
  obtain ⟨w', hgo', hlead, -, hnewest⟩ := hs.wins (g.nodup.filter _) hself hne hquorum
    fun z hz => by
      by_cases hzx : z = x
      · rw [hzx]
      · exact Nat.le_of_lt (hs.older z (Group.mem_peersOf.mpr ⟨hz, hzx⟩))
  exact ⟨w', hgo₁.trans hgo', hlead, hnewest⟩

/-- **A leader that nobody is beyond.**

The member with the newest log is let time out until its term is above all others. Then each of the
others may vote for it, and no condition forbids these votes to be counted, for they are genuine. -/
theorem come_to_lead (hsize : 2 ≤ g.size) (hodd : Odd g.size ∨ g.size = 2) (h : Sane g w₀ w) :
    ∃ w', g.Goes w w' ∧ ∃ x ∈ g.members, (w'.node x).state = .leader ∧
      ∀ z ∈ g.members, (w'.node z).currentTerm ≤ (w'.node x).currentTerm := by
  obtain ⟨x₀, hx₀⟩ : ∃ x, x ∈ g.members := List.exists_mem_of_length_pos (Nat.lt_of_lt_of_le
    Nat.zero_lt_two hsize)
  obtain ⟨x, hx, hbest⟩ := exists_newest w hx₀
  by_cases hlead : (w.node x).state = .leader
  · by_cases hnewest : ∀ z ∈ g.members, (w.node z).currentTerm ≤ (w.node x).currentTerm
    · exact ⟨w, .refl w, x, hx, hlead, hnewest⟩
    · -- it leads an old term
      simp only [not_forall, Nat.not_le] at hnewest
      obtain ⟨y, hy, hnewer⟩ := hnewest
      have hyx : y ≠ x := fun heq => Nat.lt_irrefl _ (heq ▸ hnewer)
      obtain ⟨w₁, hgo₁, hst, hlog, hothers⟩ := step_down hsize hodd h hx hlead
        (Group.mem_peersOf.mpr ⟨hy, hyx⟩) hnewer
      have hlast : (w₁.node x).lastLogIndex = (w.node x).lastLogIndex ∧
          (w₁.node x).lastLogTerm = (w.node x).lastLogTerm := by
        unfold RaftNode.lastLogIndex RaftNode.lastLogTerm
        rw [hlog]
        exact ⟨rfl, rfl⟩
      obtain ⟨w', hgo', hwins⟩ := win hsize hodd (h.goes hsize hodd hgo₁) hx hst fun z hz => by
        rw [hlast.1, hlast.2]
        by_cases hzx : z = x
        · rw [hzx]
          exact Or.inr ⟨hlast.2.symm, Nat.le_of_eq hlast.1⟩
        · rw [hothers z hzx]
          exact hbest z hz
      exact ⟨w', hgo₁.trans hgo', x, hx, hwins⟩
  · obtain ⟨w', hgo', hwins⟩ := win hsize hodd h hx hlead hbest
    exact ⟨w', hgo', x, hx, hwins⟩

/-- What a new command adds to the front of a log. -/
theorem frontOf_push (l : List LogEntry) (hpos : 0 < l.length) (e : LogEntry) :
    frontOf (l ++ [e]) l.length = frontOf l (l.length - 1) ++ [e.command] := by
  unfold frontOf
  rw [List.drop_append_of_le_length hpos, List.take_of_length_le (by simp; omega),
    List.take_of_length_le (by simp), List.map_append]
  rfl

theorem RaftNode.propose_leads {n : RaftNode} (hlead : n.state = .leader) (cmd : Bytes) :
    (n.propose cmd).1.log = n.log ++ [⟨n.currentTerm, cmd⟩] ∧
      (n.propose cmd).1.state = .leader ∧ (n.propose cmd).1.currentTerm = n.currentTerm := by
  unfold propose
  rw [if_neg (not_not.mpr hlead)]
  dsimp only
  split <;> exact ⟨rfl, hlead, rfl⟩

/-- The new leader takes a command, and all members come to hand it out. -/
theorem come_to_apply (hsize : 2 ≤ g.size) (hodd : Odd g.size ∨ g.size = 2) (h : Sane g w₀ w)
    (cmd : Bytes) :
    ∃ w' cmds, g.Goes w w' ∧ ∀ y ∈ g.members, w'.applied y = cmds ++ [cmd] := by
  obtain ⟨w₁, hgo₁, x, hx, hlead, hnewest⟩ := come_to_lead hsize hodd h
  have h₁ := h.goes hsize hodd hgo₁
  obtain ⟨hlog, hstate, hterm⟩ := RaftNode.propose_leads hlead cmd
  have hgo₂ := goes_propose (w := w₁) hx cmd
  have h₂ := h₁.goes hsize hodd hgo₂
  generalize hw₂ : w₁.act x ((w₁.node x).propose cmd) = w₂ at hgo₂ h₂
  have hself : w₂.node x = ((w₁.node x).propose cmd).1 := by
    rw [← hw₂, World.act_node_apply, if_pos rfl]
  have hpos := (h₁.firm.sound.ledgers.nodes x hx).toLogOk.pos
  have hlast : (w₂.node x).lastLogIndex = (w₁.node x).log.length := by
    rw [RaftNode.lastLogIndex, hself, hlog, List.length_append, List.length_singleton,
      Nat.add_sub_cancel]
  have hl : Leads g w₂ x := by
    refine ⟨hx, by rw [hself, hstate], ⟨by rw [hlast]; exact hpos, ?_⟩, fun z hz => ?_⟩
    · rw [hlast, hself, hlog, hterm]
      simp [stampAt]
    · rw [hself, hterm, ← hw₂, World.act_node_apply]
      split
      · rw [hterm]
      · exact hnewest z hz
  obtain ⟨w', hgo', happlied⟩ := hl.hand_out hsize hodd h₂
  refine ⟨w', frontOf (w₁.node x).log ((w₁.node x).log.length - 1), (hgo₁.trans hgo₂).trans hgo',
    fun y hy => ?_⟩
  rw [happlied y hy, hlast, hself, hlog]
  exact frontOf_push _ hpos _

/-- What has been handed out stays handed out. -/
theorem applied_prefix (evs : List Event) (y : Uuid) :
    w.applied y <+: (g.exec w evs).applied y := by
  refine Run.keeps_exec (I := fun w' : World => w.applied y <+: w'.applied y)
    (fun w' ev h => ?_) evs (List.prefix_refl _)
  refine h.trans ?_
  cases ev with
  | apply x =>
    simp only [Group.step]
    split
    · dsimp only
      by_cases hyx : y = x
      · rw [hyx, Function.update_self]
        exact List.prefix_append _ _
      · rw [Function.update_of_ne hyx]
    · exact List.prefix_refl _
  | tick x rand | propose x cmd =>
    simp only [Group.step]
    split
    · rw [World.act_applied]
    · exact List.prefix_refl _
  | deliver k rand stray =>
    simp only [Group.step]
    split
    · exact List.prefix_refl _
    · rw [World.act_applied, World.tally_applied]

/-- The member of a group of one commits as it takes the command. -/
theorem Alone.come_to_apply (hsize : ¬ 2 ≤ g.size) {logs : Uuid → List LogEntry}
    (h : Alone g logs w)
    (hfront : ∀ x ∈ g.members, w.applied x = frontOf (w.node x).log (w.node x).lastApplied)
    (cmd : Bytes) : ∃ w' cmds, g.Goes w w' ∧ ∀ y ∈ g.members, w'.applied y = cmds ++ [cmd] := by
  by_cases hsome : ∃ x, x ∈ g.members
  · obtain ⟨x, hx⟩ := hsome
    have h₁ := h.step (.propose x cmd)
    have hfront₂ := h₁.step_handed (h.step_handed hfront (.propose x cmd)) (.apply x) x hx
    have hgo₁ : g.Goes w (g.step w (.propose x cmd)) := .single (meets_of_quiet rfl)
    have hlog : ((g.step w (.propose x cmd)).node x).log
        = (w.node x).log ++ [⟨(w.node x).currentTerm, cmd⟩] := by
      simp only [Group.step, if_pos hx, World.act_node, Function.update_self]
      exact (RaftNode.propose_leads (h.node x hx).leads cmd).1
    generalize g.step w (.propose x cmd) = w₁ at h₁ hfront₂ hgo₁ hlog
    have hlone₁ := h₁.node x hx
    have hnode : (g.step w₁ (.apply x)).node x = (w₁.node x).takePendingApply.1 := by
      simp only [Group.step, if_pos hx, World.act_node, Function.update_self]
    have happlied : (w₁.node x).takePendingApply.1.lastApplied = (w.node x).log.length := by
      have hmax : max (w₁.node x).lastApplied (w₁.node x).commitIndex = (w₁.node x).commitIndex :=
        Nat.max_eq_right hlone₁.applied
      rw [show (w₁.node x).takePendingApply.1.lastApplied = _ from hmax, hlone₁.committed,
        RaftNode.lastLogIndex, hlog, List.length_append, List.length_singleton,
        Nat.add_sub_cancel]
    refine ⟨_, frontOf (w.node x).log ((w.node x).log.length - 1),
      hgo₁.trans (.single (e := .apply x) (meets_of_quiet rfl)), fun y hy => ?_⟩
    rw [← Group.eq_of_small hsize hx hy, hfront₂, hnode, hlone₁.take.2, hlog, happlied]
    exact frontOf_push _ (h.node x hx).pos _
  · exact ⟨w, [], .refl w, fun y hy => absurd ⟨y, hy⟩ hsome⟩

/-- **Never stuck.** In a group of odd size or of two whose messages are delivered with their fields
as sent, after every run in which the four conditions hold: for every command there is a continuation
in which they hold on, and at whose end every member has handed out the same commands, this one as
the last, and those it had handed out before as the first ones.

The conditions never forbid the deliveries that are needed: an offer of the newest leader, and the
answers to it and to its requests for votes. And a newest log has every committed entry, so that what
it spreads goes on from what each member has handed out. -/
theorem never_stuck (g : Group) (hodd : Odd g.size ∨ g.size = 2) (rand : Uuid → Nat)
    (before : List Event)
    (hcare : Run.Along g.step (fun w ev => AtDelivery World.GenuineVote w ev ∧
      AtDelivery World.CurrentReply w ev ∧ AtDelivery World.NoStaleTail w ev ∧
      AtDelivery World.NoRestamp w ev) (g.start rand) before) (cmd : Bytes) :
    let w := g.exec (g.start rand) before
    ∃ (after : List Event) (cmds : List Bytes),
      Run.Along g.step (fun w ev => AtDelivery World.GenuineVote w ev ∧
        AtDelivery World.CurrentReply w ev ∧ AtDelivery World.NoStaleTail w ev ∧
        AtDelivery World.NoRestamp w ev) w after ∧
      ∀ y ∈ g.members, (g.exec w after).applied y = cmds ++ [cmd] ∧
        w.applied y <+: cmds ++ [cmd] := by
  intro w
  obtain ⟨w', cmds, ⟨after, hmeets, hw'⟩, happlied⟩ :
      ∃ w' cmds, g.Goes w w' ∧ ∀ y ∈ g.members, w'.applied y = cmds ++ [cmd] := by
    by_cases hsize : 2 ≤ g.size
    · have hmeets : Run.Along g.step Care.all.Meets (g.start rand) before :=
        hcare.imp fun w ev h => ⟨fun _ => h.1, fun _ => h.2.1, fun _ => h.2.2.1, fun _ => h.2.2.2⟩
      obtain ⟨hstatic, h⟩ := exec_invariant hsize (firm_start hsize rand)
        (fun _ _ _ hm h => firm_move hodd hm h) hmeets
      exact come_to_apply hsize hodd ⟨hstatic, h⟩ cmd
    · obtain ⟨halone, hfront⟩ := alone_handed hsize rand before
      exact halone.come_to_apply hsize hfront cmd
  refine ⟨after, cmds, hmeets.imp fun w ev h => ⟨h.votes trivial, h.replies trivial,
    h.tails trivial, h.restamps trivial⟩, fun y hy => ?_⟩
  have hprefix := applied_prefix (g := g) (w := w) after y
  have hend : (g.exec w after).applied y = cmds ++ [cmd] := by
    rw [show g.exec w after = w' from hw']
    exact happlied y hy
  exact ⟨hend, hend ▸ hprefix⟩

/-- Node 3 leads, and its proposal has reached node 1 only. -/
theorem never_stuck_proposal :
    ∃ (after : List Event) (cmds : List Bytes), ∀ y ∈ trio.members,
      (trio.exec (trio.exec (trio.start fun _ => 0) oneProposal) after).applied y
        = cmds ++ [[98]] := by
  obtain ⟨after, cmds, -, happlied⟩ :=
    never_stuck trio (Or.inl (by decide)) (fun _ => 0) oneProposal (by decide +kernel) [98]
  exact ⟨after, cmds, fun y hy => (happlied y hy).1⟩

end Raft
end KvJet
