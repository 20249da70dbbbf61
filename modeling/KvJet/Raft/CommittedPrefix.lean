import KvJet.Raft.Safety
import KvJet.Raft.Solo

/-!
# The committed part of a log

`commitIndex`, `lastApplied` and the log are changed by different handlers, and none of them
compares its index with the others': the truncation in `handleAppendEntries` does not look at
`commitIndex`. What keeps them in order is that a committed index goes back to one that was
chosen. Along a run in which the four conditions of `Raft/Group.lean` hold, `commitIndex` lies
inside the log and never goes back, and the commands up to it stay (`committed_prefix_stable`);
where an old tail is acknowledged, a committed command is overwritten
(`staleTail_overwrites_committed`).
-/

namespace KvJet
namespace Raft

open Run (exec)

variable {g : Group} {c : Care} {w w' : World}

/-! ## One move -/

/-- What a move makes of the two indexes. -/
structure Progress (n n' : RaftNode) : Prop where
  commit : n.commitIndex ≤ n'.commitIndex ∨ n'.commitIndex = n'.lastLogIndex
  applied : n'.lastApplied = n.lastApplied ∨
    (n'.lastApplied = max n.lastApplied n.commitIndex ∧ n'.commitIndex = n.commitIndex)

theorem Progress.of_same {n n' : RaftNode} (hcommit : n'.commitIndex = n.commitIndex)
    (happlied : n'.lastApplied = n.lastApplied) : Progress n n' :=
  ⟨Or.inl (Nat.le_of_eq hcommit.symm), Or.inl happlied⟩

theorem Progress.act {x : Uuid} {n' : RaftNode} {ms : List RaftMessage}
    (h : Progress (w.node x) n') (y : Uuid) :
    Progress (w.node y) ((w.act x (n', ms)).node y) := by
  rw [World.act_node_apply]
  split
  · rename_i hyx
    rw [hyx]
    exact h
  · exact .of_same rfl rfl

theorem progress_move (hm : Move g c w w') (x : Uuid) : Progress (w.node x) (w'.node x) := by
  cases hm with
  | quiet hy hn => exact Progress.act (.of_same hn.commitIndex hn.lastApplied) x
  | stand hy hst hn => exact Progress.act (.of_same hn.commitIndex hn.lastApplied) x
  | adopt hy hterm hn => exact Progress.act (.of_same hn.commitIndex hn.lastApplied) x
  | @accept e n' term prevIdx prevTerm leaderCommit cmds hy hsrc he hp hterm hst hprev htail hkeep hn =>
    refine Progress.act ⟨?_, Or.inl hn.lastApplied⟩ x
    rw [hn.commitIndex, RaftNode.lastLogIndex, hn.log]
    dsimp only
    split
    · rename_i hgt
      rcases Nat.le_total leaderCommit
        ((splice term (prevIdx + 1) cmds (w.node e.dst).log).length - 1) with hle | hle
      · rw [Nat.min_eq_left hle]
        exact Or.inl (Nat.le_of_lt hgt)
      · exact Or.inr (Nat.min_eq_right hle)
    · exact Or.inl (Nat.le_refl _)
  | grant hy hsrc he hp hterm hcan hok hn =>
    exact Progress.act (.of_same hn.commitIndex hn.lastApplied) x
  | @count e n' term hy he hp hst hterm hv hn =>
    have h : Progress (({ w with
        counted := w.counted ++ [(e.dst, (w.node e.dst).currentTerm, e.src)] } : World).node e.dst)
        n' := .of_same hn.commitIndex hn.lastApplied
    exact h.act x
  | lead hy hst hq h2 hn => exact Progress.act (.of_same hn.commitIndex hn.lastApplied) x
  | push hy hst hn => exact Progress.act (.of_same hn.commitIndex hn.lastApplied) x
  | ack hy he hp hst hterm hr hn => exact Progress.act (.of_same hn.commitIndex hn.lastApplied) x
  | commit hy hst hi hterm hn =>
    refine Progress.act ⟨Or.inl ?_, Or.inl hn.lastApplied⟩ x
    rw [hn.commitIndex]
    exact Nat.le_of_lt hi
  | @apply y hy =>
    have h : Progress (w.node y) (w.node y).takePendingApply.1 :=
      ⟨Or.inl (Nat.le_refl _), Or.inr ⟨rfl, rfl⟩⟩
    have hact : Progress (w.node x) ((w.act y ((w.node y).takePendingApply.1, [])).node x) :=
      h.act x
    exact hact

/-! ## A run -/

/-- The two indexes are in order. -/
def Indexed (n : RaftNode) : Prop := n.lastApplied ≤ n.commitIndex ∧ n.commitIndex ≤ n.lastLogIndex

/-- What a run has kept since the world `w₀`. -/
structure Firm (g : Group) (w₀ w : World) : Prop where
  sound : Sound g w
  commits : Commits g w
  indexed : ∀ x ∈ g.members, Indexed (w.node x)
  evolves : Evolves w₀ w
  monotone : ∀ x ∈ g.members, (w₀.node x).commitIndex ≤ (w.node x).commitIndex

theorem Evolves.trans {w₀ : World} (h : Evolves w₀ w) (h' : Evolves w w') : Evolves w₀ w' := by
  refine ⟨fun e he => h'.sent e (h.sent e he), fun p hp => h'.books.led p (h.books.led p hp),
    fun t hled => ?_, fun t => (h.books.ledger t).trans (h'.books.ledger t)⟩
  exact (h'.books.opening t (hled.mono h.books)).trans (h.books.opening t hled)

/-- What is committed lies inside the log. -/
theorem Sound.confirmed_le (hodd : Odd g.size ∨ g.size = 2) (hs : Sound g w) {x : Uuid}
    (hx : x ∈ g.members) {i : Nat} (h : w.Confirmed g x i) : i ≤ (w.node x).lastLogIndex := by
  rcases h with h0 | ⟨r, hacked, hcommit⟩
  · rw [h0]
    exact Nat.zero_le _
  · exact Nat.le_sub_one_of_lt (hs.holds hodd hx hacked hcommit).2.1

theorem firm_move (hodd : Odd g.size ∨ g.size = 2) {w₀ : World} (hm : Move g Care.all w w')
    (h : Firm g w₀ w) : Firm g w₀ w' := by
  obtain ⟨hsound, hev⟩ := sound_move hodd hm h.sound
  have hcommits := commits_move hodd hm h.sound h.commits
  have hbound : ∀ x ∈ g.members, ∀ i, w.Confirmed g x i → i ≤ (w'.node x).lastLogIndex :=
    fun x hx i hi => hsound.confirmed_le hodd hx (hi.mono hev)
  have hmono : ∀ x ∈ g.members, (w.node x).commitIndex ≤ (w'.node x).commitIndex := by
    intro x hx
    rcases (progress_move hm x).commit with hle | hlast
    · exact hle
    · rw [hlast]
      exact hbound x hx _ (h.commits.node x hx)
  refine ⟨hsound, hcommits, fun x hx => ⟨?_, ?_⟩, h.evolves.trans hev,
    fun x hx => Nat.le_trans (h.monotone x hx) (hmono x hx)⟩
  · have happlied := (h.indexed x hx).1
    rcases (progress_move hm x).applied with hsame | ⟨hmax, hcommit⟩
    · rw [hsame]
      exact Nat.le_trans happlied (hmono x hx)
    · rw [hmax, hcommit]
      exact Nat.max_le.mpr ⟨happlied, Nat.le_refl _⟩
  · exact hsound.confirmed_le hodd hx (hcommits.node x hx)

/-- The commands up to `commitIndex`, then and now. -/
theorem Firm.stable (hodd : Odd g.size ∨ g.size = 2) {w₀ : World} (hs : Sound g w₀)
    (hc : Commits g w₀) (h : Firm g w₀ w) {x : Uuid} (hx : x ∈ g.members) :
    Agree (w₀.node x).log (w.node x).log (w₀.node x).commitIndex := by
  rcases hc.node x hx with h0 | hconfirmed
  · rw [h0]
    exact ((hs.ledgers.nodes x hx).toLogOk.mono h.evolves.books).agree_zero
      (h.sound.ledgers.nodes x hx).toLogOk
  · obtain ⟨r, hacked, hcommit⟩ := hconfirmed
    have hthen := (hs.holds hodd hx hacked hcommit).2
    have hnow := (h.sound.holds hodd hx (hacked.mono h.evolves) (hcommit.mono h.evolves)).2
    exact (hthen.grow (h.evolves.books.ledger r)).trans hnow.symm

theorem firm_start (hsize : 2 ≤ g.size) (rand : Uuid → Nat) :
    Firm g (g.start rand) (g.start rand) where
  sound := ⟨(static_start rand).toWired, terms_start hsize rand, ballots_start hsize rand,
    ledgers_start hsize rand, acks_start hsize rand, safe_start hsize rand⟩
  commits := commits_start hsize rand
  indexed x hx := by
    rw [start_node hsize rand hx]
    exact ⟨Nat.le_refl 0, Nat.zero_le _⟩
  evolves := ⟨fun _ he => he, Books.Grows.refl _⟩
  monotone _ _ := Nat.le_refl _

/-- **The committed prefix is stable.** In a group of odd size or of two, along every run in which
the four conditions hold: a member has `lastApplied`, `commitIndex` and its last index in this
order; `commitIndex` never goes back; and the commands up to it stay.

No handler looks at `commitIndex` when it cuts a log. But a message is accepted only of a leader
whose term is not an old one, and such a leader has what was committed; so up to a committed index
the message has the commands that are there already, and what it writes anew it writes as it was.
`commitIndex` itself never goes back because both handlers that assign it compare first. -/
theorem committed_prefix_stable (g : Group) (hodd : Odd g.size ∨ g.size = 2) (rand : Uuid → Nat)
    (evs more : List Event)
    (hcare : Run.Along g.step (fun w ev => AtDelivery World.GenuineVote w ev ∧
      AtDelivery World.CurrentReply w ev ∧ AtDelivery World.NoStaleTail w ev ∧
      AtDelivery World.NoRestamp w ev) (g.start rand) (evs ++ more))
    (x : Uuid) (hx : x ∈ g.members) :
    let n := (g.exec (g.start rand) evs).node x
    let n' := (g.exec (g.start rand) (evs ++ more)).node x
    n.lastApplied ≤ n.commitIndex ∧ n.commitIndex ≤ n.lastLogIndex ∧
    n.commitIndex ≤ n'.commitIndex ∧
    ∀ i ≤ n.commitIndex, ∃ cmd, cmdAt n.log i = some cmd ∧ cmdAt n'.log i = some cmd := by
  dsimp only
  have hstable : ∀ {l l' : List LogEntry} {k : Nat}, Agree l l' k →
      ∀ i ≤ k, ∃ cmd, cmdAt l i = some cmd ∧ cmdAt l' i = some cmd := by
    intro l l' k hagree i hi
    have hlt : i < l.length := Nat.lt_of_le_of_lt hi hagree.1
    refine ⟨l[i].command, ?_, ?_⟩
    · simp [cmdAt, hlt]
    · rw [← hagree.2.2 i hi]
      simp [cmdAt, hlt]
  rw [show g.exec (g.start rand) (evs ++ more) = g.exec (g.exec (g.start rand) evs) more from
    Run.exec_append ..]
  by_cases hsize : 2 ≤ g.size
  · have hmeets : Run.Along g.step Care.all.Meets (g.start rand) (evs ++ more) :=
      hcare.imp fun w ev h => ⟨fun _ => h.1, fun _ => h.2.1, fun _ => h.2.2.1, fun _ => h.2.2.2⟩
    obtain ⟨hfirst, hsecond⟩ := hmeets.append
    obtain ⟨hstatic, h⟩ := exec_invariant hsize (firm_start hsize rand)
      (fun _ _ _ hm h => firm_move hodd hm h) hfirst
    have hhere : Firm g (g.exec (g.start rand) evs) (g.exec (g.start rand) evs) :=
      ⟨h.sound, h.commits, h.indexed, ⟨fun _ he => he, Books.Grows.refl _⟩,
        fun _ _ => Nat.le_refl _⟩
    obtain ⟨-, h'⟩ := along_invariant hsize hstatic hhere
      (fun _ _ _ hm h => firm_move hodd hm h) hsecond
    obtain ⟨happlied, hcommit⟩ := h.indexed x hx
    exact ⟨happlied, hcommit, h'.monotone x hx, hstable (h'.stable hodd h.sound h.commits hx)⟩
  · have h := (alone_start hsize rand).exec evs
    have hlone := h.node x hx
    have hhere : Alone g (fun y => ((g.exec (g.start rand) evs).node y).log)
        (g.exec (g.start rand) evs) := ⟨h.sent, h.node, fun _ _ => List.prefix_refl _⟩
    have hafter := hhere.exec more
    have hgrown := hafter.grown x hx
    have hcommit := hlone.committed
    refine ⟨hlone.applied, Nat.le_of_eq hcommit, ?_, ?_⟩
    · rw [hcommit, (hafter.node x hx).committed]
      exact Nat.sub_le_sub_right hgrown.length_le 1
    · rw [hcommit]
      exact hstable (Agree.of_extends hgrown (Nat.sub_one_lt_of_lt hlone.pos))

set_option maxRecDepth 4000 in
/-- Node 3 has committed its proposal, and tells node 1. -/
theorem committed_prefix_stable_proposal :
    let n := (trio.exec (trio.start fun _ => 0) (oneProposal ++ [.deliver 5 0 0])).node 3
    let n' := (trio.exec (trio.start fun _ => 0)
      (oneProposal ++ [.deliver 5 0 0] ++ [.apply 3, .tick 3 0, .deliver 6 0 0])).node 3
    n.lastApplied ≤ n.commitIndex ∧ n.commitIndex ≤ n.lastLogIndex ∧
    n.commitIndex ≤ n'.commitIndex ∧
    ∀ i ≤ n.commitIndex, ∃ cmd, cmdAt n.log i = some cmd ∧ cmdAt n'.log i = some cmd :=
  committed_prefix_stable trio (Or.inl (by decide)) (fun _ => 0) _ _ (by decide +kernel) 3
    (by decide)

/-- Node 2 sends its log, with the old proposal, to node 1, which first refuses it. -/
def overwriting : List Event := [.deliver 18 0 0, .deliver 23 0 0, .deliver 24 0 0]

set_option maxRecDepth 4000 in
/-- What node 1 has committed, and applied, is overwritten. -/
theorem staleTail_overwrites_committed :
    (trio.exec (trio.start fun _ => 0) (staleTail ++ overwriting)).SingleLeader ∧
    ((trio.exec (trio.start fun _ => 0) staleTail).node 1).commitIndex = 1 ∧
    cmdAt ((trio.exec (trio.start fun _ => 0) staleTail).node 1).log 1 = some [97] ∧
    cmdAt ((trio.exec (trio.start fun _ => 0) (staleTail ++ overwriting)).node 1).log 1
      = some [98] := by
  have hrun : (trio.exec (trio.start fun _ => 0) (staleTail ++ overwriting)).led
        = [(2, 1), (1, 2), (2, 3)] ∧
      ((trio.exec (trio.start fun _ => 0) staleTail).node 1).commitIndex = 1 ∧
      cmdAt ((trio.exec (trio.start fun _ => 0) staleTail).node 1).log 1 = some [97] ∧
      cmdAt ((trio.exec (trio.start fun _ => 0) (staleTail ++ overwriting)).node 1).log 1
        = some [98] := by
    decide +kernel
  obtain ⟨hled, hrest⟩ := hrun
  exact ⟨.of_nodup (by rw [hled]; decide), hrest⟩

end Raft
end KvJet
