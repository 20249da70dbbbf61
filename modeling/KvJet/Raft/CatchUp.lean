import KvJet.Raft.Solo

/-!
# Catching up

A leader and one follower by themselves. The leader sends an `AppendEntries`; the follower
refuses it or takes it in; a refusal makes the leader step back by one entry and send again
(`sendAppendEntries`, `handleAppendEntriesReply`). The loop is spread over the two nodes, and its
measure is the cell of `nextIndex`: at 1 nothing is left to be checked.

What the follower holds afterwards rests on two things it has before: where it has an entry of
the leader's with the same term, it has the same commands up to there, and what it has received in
the leader's own term comes from the leader.
-/

namespace KvJet
namespace Raft

structure Exchange where
  leader : RaftNode
  follower : RaftNode
  /-- What is on its way, to either of the two. -/
  wire : List RaftMessage
deriving DecidableEq

namespace Exchange

/-- The first message on the wire arrives; `rand` and `stray` are the draws of its receiver. -/
def deliver (s : Exchange) (draw : Nat × Nat) : Exchange :=
  match s.wire with
  | [] => s
  | m :: rest =>
    if m.target = s.follower.selfId then
      let (f, ms) := s.follower.step s.leader.selfId m.payload draw.1 draw.2
      { s with follower := f, wire := rest ++ ms }
    else
      let (l, ms) := s.leader.step s.follower.selfId m.payload draw.1 draw.2
      { s with leader := l, wire := rest ++ ms }

/-- The exchange after so many deliveries. -/
def after : Exchange → (Nat → Nat × Nat) → Nat → Exchange
  | s, _, 0 => s
  | s, draws, t + 1 => after (s.deliver (draws 0)) (fun i => draws (i + 1)) t

end Exchange

/-- The leader begins with what its cell for the follower says. -/
def RaftNode.approach (l f : RaftNode) : Exchange := ⟨l, f, l.sendAppendEntries f.selfId⟩

/-- The leader `l` of its term and a node that has not seen a newer one. -/
structure Paired (l f : RaftNode) : Prop where
  leads : l.state = .leader
  ids : l.selfId ≠ f.selfId
  peer : f.selfId ∈ l.peers
  older : f.currentTerm ≤ l.currentTerm
  root : f.log[0]? = some sentinel
  /-- An entry of the same term at the same index has the same commands below it. -/
  matching : ∀ i s, 1 ≤ i → stampAt l.log i = some s → stampAt f.log i = some s →
    ∀ j ≤ i, cmdAt f.log j = cmdAt l.log j
  /-- Below an entry of the leader's term lie the leader's commands, as far as it has them. -/
  own : ∀ i, stampAt f.log i = some l.currentTerm →
    ∀ j ≤ i, j ≤ l.lastLogIndex → cmdAt f.log j = cmdAt l.log j
  stamped : ∀ i s, 1 ≤ i → stampAt f.log i = some s → 1 ≤ s

namespace Paired

variable {l f : RaftNode} {k : Nat}

/-! ## The leader -/

/-- The `AppendEntries` that starts at index `k`. -/
def offer (l : RaftNode) (k : Nat) : Payload :=
  .appendEntries l.currentTerm (k - 1) ((stampAt l.log (k - 1)).getD 0) l.commitIndex
    ((l.log.drop k).map LogEntry.command)

theorem slot_lt (h : Paired l f) : l.peerIndex f.selfId < l.peers.length :=
  List.idxOf_lt_length_iff.mpr h.peer

theorem send (h : Paired l f) (hk : l.nextIndex[l.peerIndex f.selfId]? = some k) :
    l.sendAppendEntries f.selfId = [⟨f.selfId, offer l k⟩] := by
  unfold RaftNode.sendAppendEntries
  rw [if_neg (Nat.not_le.mpr h.slot_lt), List.getD_eq_getElem?_getD, hk]
  rfl

/-- A refusal: one entry earlier. -/
theorem back_off (h : Paired l f) (hk : l.nextIndex[l.peerIndex f.selfId]? = some (k + 1))
    (hpos : 1 ≤ k) (draw : Nat × Nat) {term : Nat} (hterm : term ≤ l.currentTerm) :
    let l' := { l with nextIndex := l.nextIndex.set (l.peerIndex f.selfId) k }
    l.step f.selfId (.appendEntriesReply term false 0) draw.1 draw.2
      = (l', l'.sendAppendEntries f.selfId) := by
  dsimp only [RaftNode.step]
  unfold RaftNode.handleAppendEntriesReply
  rw [if_neg (not_not.mpr h.leads), if_neg (Nat.not_lt.mpr hterm)]
  dsimp only
  rw [if_neg (Nat.not_le.mpr h.slot_lt), List.getD_eq_getElem?_getD, hk]
  simp only [Bool.false_eq_true, if_false, Option.getD_some, Nat.add_sub_cancel]
  rw [if_pos (Nat.lt_succ_of_le hpos)]

/-- The two after a refusal. -/
theorem retry (h : Paired l f) {f' : RaftNode} (hlog : f'.log = f.log)
    (hself : f'.selfId = f.selfId) (hterm : f'.currentTerm = l.currentTerm) :
    Paired { l with nextIndex := l.nextIndex.set (l.peerIndex f.selfId) k } f' where
  leads := h.leads
  ids := by rw [hself]; exact h.ids
  peer := by rw [hself]; exact h.peer
  older := Nat.le_of_eq hterm
  root := by rw [hlog]; exact h.root
  matching := by rw [hlog]; exact h.matching
  own := by rw [hlog]; exact h.own
  stamped := by rw [hlog]; exact h.stamped

/-- An acceptance: nothing more is sent, and the log is what it was. -/
theorem settle (h : Paired l f) (matchIdx : Nat) (draw : Nat × Nat) {term : Nat}
    (hterm : term ≤ l.currentTerm) :
    ∃ l', l.step f.selfId (.appendEntriesReply term true matchIdx) draw.1 draw.2 = (l', []) ∧
      l'.log = l.log := by
  refine ⟨(l.acknowledge (l.peerIndex f.selfId) matchIdx).advanceCommitIndex draw.2, ?_, ?_⟩
  · dsimp only [RaftNode.step]
    unfold RaftNode.handleAppendEntriesReply
    rw [if_neg (not_not.mpr h.leads), if_neg (Nat.not_lt.mpr hterm)]
    dsimp only
    rw [if_neg (Nat.not_le.mpr h.slot_lt), if_pos rfl]
  · unfold RaftNode.advanceCommitIndex
    dsimp only
    split <;> rfl

/-! ## The follower -/

theorem follow_selfId (f : RaftNode) (term rand : Nat) :
    (f.follow term rand).selfId = f.selfId := by
  unfold RaftNode.follow
  split <;> rfl

/-- What the follower holds once the leader's entries from `k` on are taken in. -/
theorem agrees (h : Paired l f) (hk : 1 ≤ k)
    (hprev : k - 1 = 0 ∨ stampAt f.log (k - 1) = some ((stampAt l.log (k - 1)).getD 0)) {i : Nat}
    (hi : 1 ≤ i) (hlast : i ≤ l.lastLogIndex) :
    cmdAt (splice l.currentTerm (k - 1 + 1) ((l.log.drop k).map LogEntry.command) f.log) i
      = cmdAt l.log i := by
  unfold RaftNode.lastLogIndex at hlast
  have hlen : ((l.log.drop k).map LogEntry.command).length = l.log.length - k := by simp
  have hlt : k - 1 < f.log.length := by
    rcases hprev with hzero | hstamp
    · rw [hzero]
      exact (List.getElem?_eq_some_iff.mp h.root).1
    · exact lt_length_of_stampAt hstamp
  -- the check cannot pass behind the end of the leader's log
  have hin : k - 1 < l.log.length := by
    rcases hprev with hzero | hstamp
    · omega
    · by_contra hnot
      have hnone : stampAt l.log (k - 1) = none := by simp [stampAt, Nat.le_of_not_lt hnot]
      rw [hnone] at hstamp
      exact absurd (h.stamped _ _ (by omega) hstamp) (by simp)
  have hbelow : i ≤ k - 1 → cmdAt f.log i = cmdAt l.log i := by
    intro hle
    obtain ⟨s, hs⟩ := stampAt_isSome hin
    have hstamp := hprev.resolve_left (by omega)
    rw [hs] at hstamp
    exact h.matching (k - 1) s (by omega) hs hstamp i hle
  have hown : stampAt f.log i = some l.currentTerm → cmdAt f.log i = cmdAt l.log i :=
    fun hs => h.own i hs i (Nat.le_refl i) hlast
  rcases splice_cases l.currentTerm ((l.log.drop k).map LogEntry.command) hlt with
    ⟨heq, hstamps⟩ | ⟨c, hpc, -, -, hkept, -, -, hold, hnew⟩
  · rw [heq]
    by_cases hle : i ≤ k - 1
    · exact hbelow hle
    · exact hown (hstamps i (Nat.lt_of_not_le hle) (by omega))
  · by_cases hic : i < c
    · have hkeep : cmdAt (splice l.currentTerm (k - 1 + 1) ((l.log.drop k).map LogEntry.command)
          f.log) i = cmdAt f.log i := by
        unfold cmdAt
        rw [hold i hic]
      rw [hkeep]
      by_cases hle : i ≤ k - 1
      · exact hbelow hle
      · exact hown (hkept i (Nat.lt_of_not_le hle) hic)
    · unfold cmdAt
      rw [hnew i (Nat.le_of_not_lt hic) (by omega), List.getElem?_map, List.getElem?_drop,
        show k + (i - (k - 1) - 1) = i by omega, Option.map_map, Option.map_map]
      rfl

/-- **What the follower does with an offer.** -/
theorem answer (h : Paired l f) (hk : 1 ≤ k) (draw : Nat × Nat) :
    ∃ f' success idx, f.step l.selfId (offer l k) draw.1 draw.2
        = (f', [⟨l.selfId, .appendEntriesReply l.currentTerm success idx⟩]) ∧
      f'.selfId = f.selfId ∧ f'.currentTerm = l.currentTerm ∧
      if success then ∀ i, 1 ≤ i → i ≤ l.lastLogIndex → cmdAt f'.log i = cmdAt l.log i
      else 1 < k ∧ idx = 0 ∧ f'.log = f.log := by
  have hcurrent := RaftNode.follow_currentTerm h.older draw.1
  have hlog := (f.follow_same l.currentTerm draw.1).1
  have hself := follow_selfId f l.currentTerm draw.1
  dsimp only [RaftNode.step, offer]
  rw [RaftNode.handleAppendEntries_eq, if_neg (Nat.not_lt.mpr h.older)]
  by_cases hmis : (f.follow l.currentTerm draw.1).Mismatch (k - 1) ((stampAt l.log (k - 1)).getD 0)
  · rw [RaftNode.receiveEntries_mismatch hmis, hcurrent]
    have hpos : 0 < k - 1 := hmis.1
    exact ⟨_, false, 0, rfl, hself, hcurrent, by omega, rfl, hlog⟩
  · obtain ⟨m, heq, -, hsame⟩ := RaftNode.receiveEntries_accepted hmis l.selfId l.currentTerm
      l.commitIndex ((l.log.drop k).map LogEntry.command)
    have hprev := RaftNode.not_mismatch_iff.mp hmis
    rw [hlog] at hprev
    rw [heq, hcurrent]
    refine ⟨m, true, _, rfl, hsame.selfId.trans hself, hsame.currentTerm.trans hcurrent, ?_⟩
    intro i hi hlast
    rw [hsame.log, hlog]
    exact h.agrees hk hprev hi hlast

/-! ## The two together -/

/-- A refused offer and its reply: the leader offers one entry more. -/
theorem refused (h : Paired l f) (hk : l.nextIndex[l.peerIndex f.selfId]? = some (k + 1))
    (hpos : 1 ≤ k) {f' : RaftNode} (hself : f'.selfId = f.selfId) (draw : Nat × Nat) :
    Exchange.deliver ⟨l, f', [⟨l.selfId, .appendEntriesReply l.currentTerm false 0⟩]⟩ draw
      = RaftNode.approach { l with nextIndex := l.nextIndex.set (l.peerIndex f.selfId) k } f' := by
  unfold Exchange.deliver
  dsimp only
  rw [if_neg (by rw [hself]; exact h.ids), hself, h.back_off hk hpos draw (Nat.le_refl _)]
  dsimp only [RaftNode.approach]
  rw [hself]
  rfl

/-- An accepted offer and its reply: the wire is empty. -/
theorem accepted (h : Paired l f) {f' : RaftNode} (hself : f'.selfId = f.selfId) (idx : Nat)
    (draw : Nat × Nat) :
    ∃ l', Exchange.deliver ⟨l, f', [⟨l.selfId, .appendEntriesReply l.currentTerm true idx⟩]⟩ draw
      = ⟨l', f', []⟩ ∧ l'.log = l.log := by
  obtain ⟨l', hstep, hlog⟩ := h.settle idx draw (Nat.le_refl _)
  refine ⟨l', ?_, hlog⟩
  unfold Exchange.deliver
  dsimp only
  rw [if_neg (by rw [hself]; exact h.ids), hself, hstep]
  rfl

/-- **Catching up ends.** Of the offers fewer than `k` are refused, where `k` is the leader's cell
at the start; the next one is accepted, and with its reply the exchange is over and the follower
has the leader's commands.

A refusal makes the leader's cell smaller by one, and at 1 there is no entry in front left to be
checked, so the induction is on the cell. What the accepted offer does not carry lies below an entry
on which the check agreed, and there the two logs have the same commands by assumption (`Paired`).
-/
theorem catch_up (h : Paired l f) (hk : l.nextIndex[l.peerIndex f.selfId]? = some k)
    (hpos : 1 ≤ k) (draws : Nat → Nat × Nat) :
    ∃ refusals < k,
      let run := (l.approach f).after draws
      (∀ j < refusals,
        (run (2 * j + 1)).wire = [⟨l.selfId, .appendEntriesReply l.currentTerm false 0⟩]) ∧
      (∃ idx, (run (2 * refusals + 1)).wire
        = [⟨l.selfId, .appendEntriesReply l.currentTerm true idx⟩]) ∧
      (run (2 * refusals + 2)).wire = [] ∧
      (run (2 * refusals + 2)).leader.log = l.log ∧
      ∀ i, 1 ≤ i → i ≤ l.lastLogIndex →
        cmdAt (run (2 * refusals + 2)).follower.log i = cmdAt l.log i := by
  induction k generalizing l f draws with
  | zero => exact absurd hpos (by simp)
  | succ k ih =>
    obtain ⟨f', success, idx, hstep, hself, hterm, hanswer⟩ := h.answer hpos (draws 0)
    have hfirst : (l.approach f).deliver (draws 0)
        = ⟨l, f', [⟨l.selfId, .appendEntriesReply l.currentTerm success idx⟩]⟩ := by
      unfold RaftNode.approach
      rw [h.send hk]
      unfold Exchange.deliver
      dsimp only
      rw [if_pos rfl, hstep]
      rfl
    cases success with
    | true =>
      obtain ⟨l', hend, hlog⟩ := h.accepted hself idx (draws 1)
      refine ⟨0, Nat.succ_pos k, ?_⟩
      have hlast : (l.approach f).after draws 2 = ⟨l', f', []⟩ := by
        show ((l.approach f).deliver (draws 0)).deliver (draws 1) = _
        rw [hfirst, hend]
      dsimp only
      refine ⟨fun j hj => absurd hj (Nat.not_lt_zero j), ⟨idx, ?_⟩, ?_⟩
      · show ((l.approach f).deliver (draws 0)).wire = _
        rw [hfirst]
      · rw [show 2 * 0 + 2 = 2 from rfl, hlast]
        exact ⟨rfl, hlog, hanswer⟩
    | false =>
      obtain ⟨hk1, rfl, hlog⟩ := hanswer
      have hpos' : 1 ≤ k := Nat.le_of_lt_succ hk1
      have hsecond := h.refused hk hpos' hself (draws 1)
      have hcell := (List.getElem?_eq_some_iff.mp hk).1
      obtain ⟨refusals, hlt, hrefused, haccepted, hover⟩ :=
        ih (h.retry (k := k) hlog hself hterm)
          (by rw [hself]; exact List.getElem?_set_self hcell) hpos' (fun i => draws (i + 2))
      have hshift : ∀ t, (l.approach f).after draws (t + 2)
          = (RaftNode.approach { l with nextIndex := l.nextIndex.set (l.peerIndex f.selfId) k }
              f').after (fun i => draws (i + 2)) t := by
        intro t
        show (((l.approach f).deliver (draws 0)).deliver (draws 1)).after _ t = _
        rw [hfirst, hsecond]
      refine ⟨refusals + 1, Nat.succ_lt_succ hlt, fun j hj => ?_, ?_, ?_⟩
      · cases j with
        | zero =>
          show ((l.approach f).deliver (draws 0)).wire = _
          rw [hfirst]
        | succ j =>
          rw [show 2 * (j + 1) + 1 = 2 * j + 1 + 2 by omega, hshift]
          exact hrefused j (Nat.lt_of_succ_lt_succ hj)
      · rw [show 2 * (refusals + 1) + 1 = 2 * refusals + 1 + 2 by omega, hshift]
        exact haccepted
      · rw [show 2 * (refusals + 1) + 2 = 2 * refusals + 2 + 2 by omega, hshift]
        exact hover

end Paired

/-- A leader whose cell points past its log, and a follower with an entry of an older leader. -/
def rightfulLeader : RaftNode :=
  { groupId := 0, selfId := 1, peers := [2, 3], currentTerm := 2,
    log := [sentinel, ⟨1, ascii "a"⟩, ⟨2, ascii "b"⟩], state := .leader,
    nextIndex := [4, 3], matchIndex := [0, 0] }

def strayedFollower : RaftNode :=
  { groupId := 0, selfId := 2, peers := [1, 3], currentTerm := 1,
    log := [sentinel, ⟨1, ascii "a"⟩, ⟨1, ascii "c"⟩, ⟨1, ascii "d"⟩] }

theorem paired_strayed : Paired rightfulLeader strayedFollower where
  leads := rfl
  ids := by decide
  peer := by decide
  older := by decide
  root := rfl
  matching := by
    intro i s hi hl hf j hj
    have hlt : i < 3 := lt_length_of_stampAt hl
    obtain rfl | rfl : i = 1 ∨ i = 2 := by omega
    · obtain rfl | rfl : j = 0 ∨ j = 1 := by omega
      · rfl
      · rfl
    · rw [← hl] at hf
      exact absurd hf (by decide)
  own := by
    intro i hs
    have hlt : i < 4 := lt_length_of_stampAt hs
    obtain rfl | rfl | rfl | rfl : i = 0 ∨ i = 1 ∨ i = 2 ∨ i = 3 := by omega
    all_goals exact absurd hs (by decide)
  stamped := by
    intro i s hi hs
    have hlt : i < 4 := lt_length_of_stampAt hs
    obtain rfl | rfl | rfl : i = 1 ∨ i = 2 ∨ i = 3 := by omega
    all_goals exact Nat.le_of_eq (Option.some.inj hs)

theorem catch_up_strayed :
    ∃ refusals < 4,
      let run := (rightfulLeader.approach strayedFollower).after fun _ => (0, 0)
      (∀ j < refusals,
        (run (2 * j + 1)).wire = [⟨1, .appendEntriesReply 2 false 0⟩]) ∧
      (∃ idx, (run (2 * refusals + 1)).wire = [⟨1, .appendEntriesReply 2 true idx⟩]) ∧
      (run (2 * refusals + 2)).wire = [] ∧
      (run (2 * refusals + 2)).leader.log = rightfulLeader.log ∧
      ∀ i, 1 ≤ i → i ≤ rightfulLeader.lastLogIndex →
        cmdAt (run (2 * refusals + 2)).follower.log i = cmdAt rightfulLeader.log i :=
  Paired.catch_up paired_strayed rfl (by decide) _

end Raft
end KvJet
