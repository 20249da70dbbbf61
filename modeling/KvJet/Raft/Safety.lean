import KvJet.Raft.Completeness

/-!
# State machine safety

Whatever a node has committed goes back to an index that was chosen (`Committed`): a leader's
own commit is one, a follower learns of one with the `leaderCommit` of a message whose entries
it has just acknowledged. By leader completeness two such indexes have the same commands below
them, and an acknowledged one is never overwritten. So the commands a node hands out are those
of the leader that wrote the chosen index, and any two nodes hand out the same.
-/

namespace KvJet
namespace Raft

variable {g : Group} {w w' : World}

/-- What the earlier modules keep along a run in which all four conditions hold. -/
structure Sound (g : Group) (w : World) : Prop where
  wired : Wired g w
  terms : Terms g w
  ballots : Ballots g w
  ledgers : Ledgers g w
  acks : Acks g w
  safe : Safe g w

theorem sound_move (hodd : Odd g.size ∨ g.size = 2) (hm : Move g Care.all w w') (h : Sound g w) :
    Sound g w' ∧ Evolves w w' := by
  have hwired := wired_move hm h.wired
  have hterms := terms_move hm h.terms
  have hballots := ballots_move trivial h.wired h.terms hm h.ballots
  have hsingle := singleLeader_of_ballots hwired hterms hballots.toCast
    (Group.size_lt_voteQuorum hodd)
  obtain ⟨hledgers, hgrows⟩ := ledgers_move h.terms hm hsingle h.ledgers
  refine ⟨⟨hwired, hterms, hballots, hledgers, ?_, ?_⟩, fun _ he => sent_move hm he, hgrows⟩
  · exact acks_move trivial trivial h.terms hm hsingle h.ledgers h.acks
  · exact safe_move hm h.wired h.terms h.ballots hsingle h.ledgers h.acks h.safe

/-! ## Committed indexes

A follower commits what a leader tells it, and the leader may have told it of an index that was
chosen in an earlier term. So an index is committed with respect to a leader's log: it lies below
one that was chosen, and the log has what was chosen. -/

/-- Below a chosen index of an earlier term or of `r` itself, whose commands the leader of `r`
has up to `i`. -/
def Committed (g : Group) (w : World) (r i : Nat) : Prop :=
  ∃ t ≤ r, ∃ j ≥ i, Chosen g w t j ∧ Agree (w.ledger r) (w.ledger t) i

theorem Committed.mono (hev : Evolves w w') {r i : Nat} (h : Committed g w r i) :
    Committed g w' r i := by
  obtain ⟨t, htr, j, hij, hchosen, hagree⟩ := h
  refine ⟨t, htr, j, hij, hchosen.mono hev, ?_⟩
  exact ((hagree.grow (hev.books.ledger t)).symm.grow (hev.books.ledger r)).symm

theorem Committed.le {r i k : Nat} (h : Committed g w r i) (hk : k ≤ i) : Committed g w r k := by
  obtain ⟨t, htr, j, hij, hchosen, hagree⟩ := h
  exact ⟨t, htr, j, Nat.le_trans hk hij, hchosen, hagree.mono hk⟩

section Sound

variable (hodd : Odd g.size ∨ g.size = 2) (h : Sound g w)
include hodd h

theorem Sound.complete {t i u : Nat} (hchosen : Chosen g w t i) (htu : t < u)
    (hled : w.books.Led u) : Agree (w.opening u) (w.ledger t) i :=
  h.safe.complete h.wired h.terms h.ballots.toCast h.ledgers hodd hchosen u htu hled

theorem Sound.not_lost {r i T : Nat} (hcommit : Committed g w r i) : ¬ w.books.Lost r i T := by
  rintro ⟨-, s, hrs, -, hled, hnot⟩
  obtain ⟨t, htr, j, hij, hchosen, hagree⟩ := hcommit
  have hopen := h.complete hodd hchosen (Nat.lt_of_le_of_lt htr hrs) hled
  exact hnot ((hopen.mono hij).trans hagree.symm)

/-- What is committed and acknowledged stays in the log. -/
theorem Sound.holds {x : Uuid} (hx : x ∈ g.members) {r i : Nat} (hacked : w.Acked x r i)
    (hcommit : Committed g w r i) :
    r ≤ (w.node x).currentTerm ∧ Agree (w.node x).log (w.ledger r) i := by
  obtain ⟨hle, hholds | hlost⟩ := h.safe.pledge x hx r i hacked
  · exact ⟨hle, hholds.1⟩
  · exact absurd hlost (h.not_lost hodd hcommit)

/-- **Two committed indexes have the same commands below them.**

The later of the two terms has a leader that began with what was chosen in the earlier one, so both
are fronts of its log. -/
theorem Sound.agree {r r' i i' k : Nat} (hcommit : Committed g w r i)
    (hcommit' : Committed g w r' i') (hk : k ≤ i) (hk' : k ≤ i') :
    Agree (w.ledger r) (w.ledger r') k := by
  obtain ⟨t, -, j, hij, hchosen, hagree⟩ := hcommit
  obtain ⟨t', -, j', hij', hchosen', hagree'⟩ := hcommit'
  -- the later of the two leaders began with what the earlier one had chosen
  have hlater : ∀ {s s' m}, Chosen g w s m → w.books.Led s' → s < s' → k ≤ m →
      Agree (w.ledger s) (w.ledger s') k := by
    intro s s' m hs hled hlt hkm
    have hopen := (h.complete hodd hs hlt hled).mono hkm
    exact hopen.symm.grow (h.ledgers.terms s').grown
  have hbetween : Agree (w.ledger t) (w.ledger t') k := by
    rcases Nat.lt_trichotomy t t' with hlt | heq | hgt
    · exact hlater hchosen hchosen'.led hlt (Nat.le_trans hk hij)
    · rw [← heq]
      exact Agree.refl (hagree.mono hk).2.1
    · exact (hlater hchosen' hchosen.led hgt (Nat.le_trans hk' hij')).symm
  exact ((hagree.mono hk).trans hbetween).trans (hagree'.mono hk').symm

end Sound

/-! ## What nodes commit and hand out

A node's `commitIndex` is about its own log, and a committed index about a leader's. What ties them
together is an acknowledgement. -/

/-- `commitIndex` is one that the node has acknowledged and that is committed. -/
def World.Confirmed (g : Group) (w : World) (x : Uuid) (i : Nat) : Prop :=
  i = 0 ∨ ∃ r, w.Acked x r i ∧ Committed g w r i

/-- The commands handed out are those of a leader, up to a committed index. -/
def World.Handed (g : Group) (w : World) (cmds : List Bytes) : Prop :=
  cmds = [] ∨ ∃ r, Committed g w r cmds.length ∧
    ∀ k < cmds.length, cmds[k]? = cmdAt (w.ledger r) (k + 1)

/-- What members commit and hand out goes back to a committed index. A follower learns of one from
the `leaderCommit` of a message (`wire`), and takes it as far as it has just acknowledged that
leader's log, so that its own log has the same commands up to there (`node`). -/
structure Commits (g : Group) (w : World) : Prop where
  node : ∀ x ∈ g.members, w.Confirmed g x (w.node x).commitIndex
  wire : ∀ e ∈ w.sent, ∀ term prevIdx prevTerm leaderCommit cmds,
    e.payload = .appendEntries term prevIdx prevTerm leaderCommit cmds →
      leaderCommit = 0 ∨ Committed g w term leaderCommit
  length : ∀ x ∈ g.members, (w.applied x).length = (w.node x).lastApplied
  handed : ∀ x ∈ g.members, w.Handed g (w.applied x)

theorem World.Confirmed.mono (hev : Evolves w w') {x : Uuid} {i : Nat}
    (h : w.Confirmed g x i) : w'.Confirmed g x i := by
  rcases h with h0 | ⟨r, hacked, hcommit⟩
  · exact Or.inl h0
  · exact Or.inr ⟨r, hacked.mono hev, hcommit.mono hev⟩

theorem World.Handed.mono (hev : Evolves w w') {cmds : List Bytes}
    (h : w.Handed g cmds) : w'.Handed g cmds := by
  rcases h with hnil | ⟨r, hcommit, hcmds⟩
  · exact Or.inl hnil
  · refine Or.inr ⟨r, hcommit.mono hev, fun k hk => ?_⟩
    obtain ⟨t, -, j, -, -, hagree⟩ := hcommit
    have hlt : k + 1 < (w.ledger r).length := Nat.lt_of_le_of_lt hk hagree.1
    rw [hcmds k hk]
    exact (cmdAt_of_extends (hev.books.ledger r) hlt).symm

section Act

variable {x : Uuid} {n' : RaftNode} {ms : List RaftMessage}

theorem Commits.act (h : Commits g w) (hev : Evolves w (w.act x (n', ms)))
    (hcommit : (w.act x (n', ms)).Confirmed g x n'.commitIndex)
    (happlied : n'.lastApplied = (w.node x).lastApplied)
    (hms : ∀ m ∈ ms, ∀ term prevIdx prevTerm leaderCommit cmds,
      m.payload = .appendEntries term prevIdx prevTerm leaderCommit cmds →
        leaderCommit = 0 ∨ Committed g (w.act x (n', ms)) term leaderCommit) :
    Commits g (w.act x (n', ms)) := by
  refine ⟨?_, ?_, ?_, ?_⟩
  · intro y hy
    rw [World.act_node_apply]
    split
    · rename_i hyx
      rw [hyx]
      exact hcommit
    · exact (h.node y hy).mono hev
  · intro e he term prevIdx prevTerm leaderCommit cmds hp
    rw [World.act_sent] at he
    rcases List.mem_append.mp he with hold | hnew
    · rcases h.wire e hold term prevIdx prevTerm leaderCommit cmds hp with h0 | hc
      · exact Or.inl h0
      · exact Or.inr (hc.mono hev)
    · obtain ⟨m, hm, rfl⟩ := List.mem_map.mp hnew
      exact hms m hm term prevIdx prevTerm leaderCommit cmds hp
  · intro y hy
    rw [World.act_applied, World.act_node_apply, h.length y hy]
    split
    · rename_i hyx
      rw [hyx, happlied]
    · rfl
  · intro y hy
    rw [World.act_applied]
    exact (h.handed y hy).mono hev

/-- What a leader has committed is committed in its own term. -/
theorem Commits.leader (h : Commits g w) (hs : Sound g w) (hodd : Odd g.size ∨ g.size = 2)
    (hx : x ∈ g.members) (hst : (w.node x).state = .leader) : (w.node x).commitIndex = 0 ∨
      Committed g w (w.node x).currentTerm (w.node x).commitIndex := by
  rcases h.node x hx with h0 | ⟨r, hacked, hcommit⟩
  · exact Or.inl h0
  · obtain ⟨hle, hagree⟩ := hs.holds hodd hx hacked hcommit
    obtain ⟨t, htr, j, hij, hchosen, hagree'⟩ := hcommit
    refine Or.inr ⟨t, Nat.le_trans htr hle, j, hij, hchosen, ?_⟩
    rw [hs.ledgers.book x hx hst]
    exact hagree.trans hagree'

/-- An action that commits nothing, and sends nothing but plain messages. -/
theorem Commits.act_same (h : Commits g w) (hs : Sound g w) (hodd : Odd g.size ∨ g.size = 2)
    (hev : Evolves w (w.act x (n', ms))) (hx : x ∈ g.members)
    (hcommit : n'.commitIndex = (w.node x).commitIndex)
    (happlied : n'.lastApplied = (w.node x).lastApplied)
    (hms : ∀ m ∈ ms, ∀ term prevIdx prevTerm leaderCommit cmds,
      m.payload = .appendEntries term prevIdx prevTerm leaderCommit cmds →
        (w.node x).state = .leader ∧ term = (w.node x).currentTerm ∧
          leaderCommit = (w.node x).commitIndex) :
    Commits g (w.act x (n', ms)) := by
  refine h.act hev ?_ happlied ?_
  · rw [hcommit]
    exact (h.node x hx).mono hev
  · intro m hm term prevIdx prevTerm leaderCommit cmds hp
    obtain ⟨hst, rfl, rfl⟩ := hms m hm term prevIdx prevTerm leaderCommit cmds hp
    rcases h.leader hs hodd hx hst with h0 | hc
    · exact Or.inl h0
    · exact Or.inr (hc.mono hev)

theorem plain_commit {n : RaftNode} {P : RaftMessage → Prop}
    (h : ∀ m ∈ ms, P m ∧ Plain n' m.payload) (hstate : n'.state = n.state)
    (hterm : n'.currentTerm = n.currentTerm) (hcommit : n'.commitIndex = n.commitIndex) :
    ∀ m ∈ ms, ∀ term prevIdx prevTerm leaderCommit cmds,
      m.payload = .appendEntries term prevIdx prevTerm leaderCommit cmds →
        n.state = .leader ∧ term = n.currentTerm ∧ leaderCommit = n.commitIndex := by
  intro m hm term prevIdx prevTerm leaderCommit cmds hp
  have hplain := (h m hm).2
  rw [hp] at hplain
  obtain ⟨hst, ht, hlc, -⟩ := hplain
  rw [← hstate, ← hterm, ← hcommit]
  exact ⟨hst, ht, hlc⟩

end Act

/-- **What a leader commits is chosen.**

The quorum has acknowledged the index in the leader's own term. That the entry is the leader's own
is what the comparison with `currentTerm` in `advanceCommitIndex` is for: an entry of an earlier
term may be at a majority and still be overwritten. -/
theorem Sound.chosen (h : Sound g w) {x : Uuid} (hx : x ∈ g.members)
    (hst : (w.node x).state = .leader) {i stray : Nat}
    (hi : (w.node x).sortedMatch.getD ((w.node x).quorum - 1) 0 = i) (hpos : 0 < i)
    (hterm : (stampAt (w.node x).log i).getD stray = (w.node x).currentTerm) :
    Chosen g w (w.node x).currentTerm i ∧ i < (w.ledger (w.node x).currentTerm).length := by
  have hseat := h.terms.seat x hx hst
  have hbook := h.ledgers.book x hx hst
  have hlt := h.acks.lt_length h.ledgers hx hst hi hpos
  have hlt' : i < (w.ledger (w.node x).currentTerm).length := by
    rw [hbook]
    exact hlt
  obtain ⟨S, hS, -, hcard, hheld⟩ := h.acks.quorum h.wired h.ledgers hx hst hi hpos
  refine ⟨⟨⟨x, hseat⟩, ?_, S, hS, hcard, fun v hv => ?_⟩, hlt'⟩
  · -- the entry carries the leader's term, so it is not among those it began with
    obtain ⟨s, hs⟩ := stampAt_isSome hlt
    rw [hs, Option.getD_some] at hterm
    by_contra hshort
    have hopen := (h.ledgers.terms (w.node x).currentTerm).grown
    have hstamp : stampAt (w.opening (w.node x).currentTerm) i = some s := by
      have hsame := stampAt_of_extends hopen (Nat.lt_of_not_le hshort)
      rw [show w.books.ledger (w.node x).currentTerm = (w.node x).log from hbook, hs] at hsame
      exact hsame.symm
    have := (h.ledgers.terms (w.node x).currentTerm).past i s hpos hstamp
    omega
  · rcases hheld v hv with rfl | ⟨m, him, hreplied⟩
    · exact Or.inr ⟨hseat, hlt'⟩
    · exact Or.inl ⟨x, m, him, hreplied⟩

/-! ## Handing out

`takePendingApply` goes on from `lastApplied`, so what has been handed out is a front of what is
committed, at every moment. -/

/-- **Handing out keeps the commands those of a leader.** -/
theorem Commits.handed_apply (h : Commits g w) (hs : Sound g w) (hodd : Odd g.size ∨ g.size = 2)
    {x : Uuid} (hx : x ∈ g.members) :
    (w.applied x ++ (w.node x).takePendingApply.2.map LogEntry.command).length
      = (w.node x).takePendingApply.1.lastApplied ∧
    w.Handed g (w.applied x ++ (w.node x).takePendingApply.2.map LogEntry.command) := by
  have hlen := h.length x hx
  rcases Nat.lt_or_ge (w.node x).lastApplied (w.node x).commitIndex with hlt | hge
  · obtain ⟨r, hacked, hcommit⟩ := (h.node x hx).resolve_left (by omega)
    have hagree := (hs.holds hodd hx hacked hcommit).2
    have hnew := RaftNode.takePendingApply_snd hagree.1 (Nat.le_of_lt hlt)
    have hcount : (w.applied x ++ (w.node x).takePendingApply.2.map LogEntry.command).length
        = (w.node x).commitIndex := by
      have := hagree.1
      rw [hnew, List.length_append, hlen, List.length_map, List.length_take, List.length_drop]
      omega
    refine ⟨?_, Or.inr ⟨r, by rw [hcount]; exact hcommit, ?_⟩⟩
    · rw [hcount]
      exact (Nat.max_eq_right (Nat.le_of_lt hlt)).symm
    · intro k hk
      rw [hcount] at hk
      rcases Nat.lt_or_ge k (w.applied x).length with hold | hfresh
      · -- what was handed out before came from a leader with the same commands
        rw [List.getElem?_append_left hold]
        rcases h.handed x hx with hnil | ⟨r', hcommit', hcmds⟩
        · rw [hnil] at hold
          exact absurd hold (by simp)
        · rw [hcmds k hold]
          exact (hs.agree hodd hcommit' hcommit hold hk).2.2 (k + 1) (Nat.le_refl _)
      · rw [List.getElem?_append_right hfresh, hnew, List.getElem?_map, hlen,
          List.getElem?_take_of_lt (by omega), List.getElem?_drop,
          show (w.node x).lastApplied + 1 + (k - (w.node x).lastApplied) = k + 1 by omega]
        exact hagree.2.2 (k + 1) hk
  · have hnone : (w.node x).takePendingApply.2 = [] := by
      unfold RaftNode.takePendingApply
      rw [Nat.sub_eq_zero_of_le hge]
      rfl
    rw [hnone, List.map_nil, List.append_nil, hlen]
    exact ⟨(Nat.max_eq_left hge).symm, h.handed x hx⟩

theorem commits_move (hodd : Odd g.size ∨ g.size = 2) (hm : Move g Care.all w w')
    (hs : Sound g w) (h : Commits g w) : Commits g w' := by
  have hev := (sound_move hodd hm hs).2
  cases hm with
  | @quiet x n' ms hx hn hms =>
    exact h.act_same hs hodd hev hx hn.commitIndex hn.lastApplied
      (plain_commit hms hn.state hn.currentTerm hn.commitIndex)
  | @stand x n' ms hx hst hn hms =>
    refine h.act_same hs hodd hev hx hn.commitIndex hn.lastApplied ?_
    intro m hm term prevIdx prevTerm leaderCommit cmds hp
    rw [(hms m hm).2] at hp
    exact absurd hp (by simp)
  | @adopt x n' term hx hterm hn =>
    exact h.act_same hs hodd hev hx hn.commitIndex hn.lastApplied (by simp)
  | @accept e n' term prevIdx prevTerm leaderCommit cmds hx hsrc he hp hterm hst hprev htail hkeep hn =>
    refine h.act hev ?_ hn.lastApplied (by simp)
    have hcommit : n'.commitIndex = if leaderCommit > (w.node e.dst).commitIndex then
        min leaderCommit n'.lastLogIndex else (w.node e.dst).commitIndex := by
      rw [hn.commitIndex, RaftNode.lastLogIndex, hn.log]
    rw [hcommit]
    split
    · -- the node acknowledges all of its log in this very step
      rename_i hgt
      have hlc := (h.wire e he term prevIdx prevTerm leaderCommit cmds hp).resolve_left
        (Nat.ne_of_gt (Nat.zero_lt_of_lt hgt))
      refine Or.inr ⟨term, Or.inl ⟨e.src, n'.lastLogIndex, Nat.min_le_right _ _, ?_⟩,
        (hlc.mono hev).le (Nat.min_le_left _ _)⟩
      refine ⟨⟨e.dst, e.src, .appendEntriesReply n'.currentTerm true n'.lastLogIndex, n'.log⟩,
        ?_, rfl, rfl, ?_⟩
      · rw [World.act_sent]
        exact List.mem_append_right _ (List.mem_singleton.mpr rfl)
      · rw [hn.currentTerm, hterm]
    · exact (h.node _ hx).mono hev
  | @grant e n' term lastIdx lastTerm hx hsrc he hp hterm hcan hok hn =>
    exact h.act_same hs hodd hev hx hn.commitIndex hn.lastApplied (by simp)
  | @count e n' term hx he hp hst hterm hv hn =>
    have h' : Commits g { w with
        counted := w.counted ++ [(e.dst, (w.node e.dst).currentTerm, e.src)] } := by
      have hev' : Evolves w { w with
          counted := w.counted ++ [(e.dst, (w.node e.dst).currentTerm, e.src)] } :=
        ⟨fun _ he => he, Books.Grows.refl _⟩
      refine ⟨fun x hx => (h.node x hx).mono hev', ?_, h.length,
        fun x hx => (h.handed x hx).mono hev'⟩
      intro e he term prevIdx prevTerm leaderCommit cmds hp
      rcases h.wire e he term prevIdx prevTerm leaderCommit cmds hp with h0 | hc
      · exact Or.inl h0
      · exact Or.inr (hc.mono hev')
    refine h'.act ⟨hev.sent, hev.books⟩ ?_ hn.lastApplied (by simp)
    rw [hn.commitIndex]
    exact (h.node _ hx).mono hev
  | @lead x n' hx hst hq h2 hn =>
    exact h.act_same hs hodd hev hx hn.commitIndex hn.lastApplied (by simp)
  | @push x n' ms cmd hx hst hn hms =>
    exact h.act_same hs hodd hev hx hn.commitIndex hn.lastApplied
      (plain_commit hms hn.state hn.currentTerm hn.commitIndex)
  | @ack e n' term matchIdx hx he hp hst hterm hr hn =>
    exact h.act_same hs hodd hev hx hn.commitIndex hn.lastApplied (by simp)
  | @commit x n' stray hx hst hi hterm hn =>
    refine h.act hev ?_ hn.lastApplied (by simp)
    obtain ⟨hchosen, hlt⟩ := hs.chosen hx hst rfl (Nat.zero_lt_of_lt hi) hterm
    have hacked : w.Acked x (w.node x).currentTerm
        ((w.node x).sortedMatch.getD ((w.node x).quorum - 1) 0) :=
      Or.inr ⟨hs.terms.seat x hx hst, hlt⟩
    have hcommit : Committed g w (w.node x).currentTerm
        ((w.node x).sortedMatch.getD ((w.node x).quorum - 1) 0) :=
      ⟨_, Nat.le_refl _, _, Nat.le_refl _, hchosen, Agree.refl hlt⟩
    rw [hn.commitIndex]
    exact Or.inr ⟨_, hacked.mono hev, hcommit.mono hev⟩
  | @apply x hx =>
    obtain ⟨hlen, hhanded⟩ := h.handed_apply hs hodd hx
    refine ⟨?_, ?_, ?_, ?_⟩
    · intro y hy
      refine World.Confirmed.mono hev ?_
      dsimp only
      rw [World.act_node_apply]
      split
      · rename_i hyx
        rw [hyx]
        exact h.node x hx
      · exact h.node y hy
    · intro e he term prevIdx prevTerm leaderCommit cmds hp
      have hold : e ∈ w.sent := by
        have : e ∈ (w.act x ((w.node x).takePendingApply.1, [])).sent := he
        rw [World.act_sent] at this
        simpa using this
      rcases h.wire e hold term prevIdx prevTerm leaderCommit cmds hp with h0 | hc
      · exact Or.inl h0
      · exact Or.inr (hc.mono hev)
    · intro y hy
      dsimp only
      rw [World.act_node_apply]
      by_cases hyx : y = x
      · rw [hyx, Function.update_self, if_pos rfl]
        exact hlen
      · rw [Function.update_of_ne hyx, if_neg hyx]
        exact h.length y hy
    · intro y hy
      refine World.Handed.mono hev ?_
      dsimp only
      by_cases hyx : y = x
      · rw [hyx, Function.update_self]
        exact hhanded
      · rw [Function.update_of_ne hyx]
        exact h.handed y hy

theorem commits_start (hsize : 2 ≤ g.size) (rand : Uuid → Nat) : Commits g (g.start rand) := by
  refine ⟨?_, ?_, ?_, fun x _ => Or.inl rfl⟩
  · intro x hx
    rw [start_node hsize rand hx]
    exact Or.inl rfl
  · intro e he
    exact absurd he (by simp [Group.start])
  · intro x hx
    rw [start_node hsize rand hx]
    rfl

/-- **State machine safety.** In a group of odd size or of two, in every run in which the four
conditions hold, any two members hand out the same commands.

What a member has handed out is a front of the log of the leader that chose its last index
(`Commits.handed`). Of two such leaders the later one began with what the earlier one had chosen,
since one of its voters had acknowledged it and kept it (`Sound.agree`). So at each place both
fronts have the same command. Without the third condition two members hand out two commands
(`staleTail_hands_out_two_commands`). -/
theorem state_machine_safety (g : Group) (hodd : Odd g.size ∨ g.size = 2) (rand : Uuid → Nat)
    (evs : List Event)
    (hcare : Run.Along g.step (fun w ev => AtDelivery World.GenuineVote w ev ∧
      AtDelivery World.CurrentReply w ev ∧ AtDelivery World.NoStaleTail w ev ∧
      AtDelivery World.NoRestamp w ev) (g.start rand) evs)
    (a b : Uuid) (ha : a ∈ g.members) (hb : b ∈ g.members) (k : Nat) (ca cb : Bytes)
    (hca : ((g.exec (g.start rand) evs).applied a)[k]? = some ca)
    (hcb : ((g.exec (g.start rand) evs).applied b)[k]? = some cb) : ca = cb := by
  by_cases hsize : 2 ≤ g.size
  · have hmeets : Run.Along g.step Care.all.Meets (g.start rand) evs :=
      hcare.imp fun w ev h => ⟨fun _ => h.1, fun _ => h.2.1, fun _ => h.2.2.1, fun _ => h.2.2.2⟩
    have hstart : Sound g (g.start rand) := ⟨(static_start rand).toWired, terms_start hsize rand,
      ballots_start hsize rand, ledgers_start hsize rand, acks_start hsize rand,
      safe_start hsize rand⟩
    obtain ⟨-, hs, h⟩ := exec_invariant (I := fun w => Sound g w ∧ Commits g w) hsize
      ⟨hstart, commits_start hsize rand⟩
      (fun w w' _ hm h => ⟨(sound_move hodd hm h.1).1, commits_move hodd hm h.1 h.2⟩) hmeets
    have hka := (List.getElem?_eq_some_iff.mp hca).1
    have hkb := (List.getElem?_eq_some_iff.mp hcb).1
    rcases h.handed a ha with hnil | ⟨r, hcommit, hcmds⟩
    · rw [hnil] at hka
      exact absurd hka (by simp)
    · rcases h.handed b hb with hnil | ⟨r', hcommit', hcmds'⟩
      · rw [hnil] at hkb
        exact absurd hkb (by simp)
      · have hagree := (hs.agree hodd hcommit hcommit' hka hkb).2.2 (k + 1) (Nat.le_refl _)
        rw [← hcmds k hka, ← hcmds' k hkb, hca, hcb] at hagree
        exact Option.some.inj hagree
  · have hcard : g.members.toFinset.card ≤ 1 := by
      rw [card_members]
      exact Nat.le_of_lt_succ (Nat.lt_of_not_le hsize)
    have hab := Finset.card_le_one.mp hcard a (List.mem_toFinset.mpr ha) b
      (List.mem_toFinset.mpr hb)
    rw [hab, hcb] at hca
    exact (Option.some.inj hca).symm

/-- Node 3 commits its proposal with node 1, tells node 1 so, and both hand it out. -/
def oneCommit : List Event :=
  oneProposal ++ [.deliver 5 0 0, .apply 3, .tick 3 0, .deliver 6 0 0, .apply 1]

set_option maxRecDepth 4000 in
theorem state_machine_safety_proposal :
    ∃ ca ∈ ((trio.exec (trio.start fun _ => 0) oneCommit).applied 1)[0]?,
      ∃ cb ∈ ((trio.exec (trio.start fun _ => 0) oneCommit).applied 3)[0]?, ca = cb := by
  have ha : ((trio.exec (trio.start fun _ => 0) oneCommit).applied 1)[0]? = some [97] := by
    decide +kernel
  have hb : ((trio.exec (trio.start fun _ => 0) oneCommit).applied 3)[0]? = some [97] := by
    decide +kernel
  refine ⟨_, ha, _, hb, ?_⟩
  exact state_machine_safety trio (Or.inl (by decide)) (fun _ => 0) oneCommit (by decide +kernel)
    1 3 (by decide) (by decide) 0 _ _ ha hb

/-- Node 2 leads term 1 and keeps a proposal to itself. Node 1 leads term 2 with the vote of
node 3; its heartbeat is accepted by node 2, which reports that old proposal's index, and node 1
commits its own proposal for it. Node 2 then leads term 3, again with the vote of node 3, and
commits the old proposal. -/
def staleTail : List Event :=
  ticks 2 150 ++ [.deliver 1 0 0, .deliver 2 0 0, .propose 2 [98]] ++
    ticks 1 300 ++ [.deliver 8 0 0, .deliver 9 0 0, .tick 1 0, .deliver 10 0 0,
      .propose 1 [97], .deliver 12 0 0, .apply 1] ++
    ticks 2 150 ++ [.deliver 16 0 0, .deliver 17 0 0, .propose 2 [99],
      .deliver 19 0 0, .deliver 20 0 0, .deliver 21 0 0, .deliver 22 0 0, .apply 2]

set_option maxRecDepth 4000 in
theorem staleTail_hands_out_two_commands :
    (trio.exec (trio.start fun _ => 0) staleTail).SingleLeader ∧
    ((trio.exec (trio.start fun _ => 0) staleTail).applied 1)[0]? = some [97] ∧
    ((trio.exec (trio.start fun _ => 0) staleTail).applied 2)[0]? = some [98] := by
  have hrun : (trio.exec (trio.start fun _ => 0) staleTail).led = [(2, 1), (1, 2), (2, 3)] ∧
      ((trio.exec (trio.start fun _ => 0) staleTail).applied 1)[0]? = some [97] ∧
      ((trio.exec (trio.start fun _ => 0) staleTail).applied 2)[0]? = some [98] := by
    decide +kernel
  obtain ⟨hled, happlied⟩ := hrun
  exact ⟨.of_nodup (by rw [hled]; decide), happlied⟩

end Raft
end KvJet
