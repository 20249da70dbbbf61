import KvJet.Raft.CommittedPrefix

/-!
# Leaders and the state machine

What a member has committed at some moment is in the log of every later leader, as long as that one
is not behind in its term (`leader_complete`): so a command that was handed out is never lost by an
election. And what a member hands out over a whole run is the front of its log, every index once and
in order (`handed_out_in_order`), although neither the log nor the two indexes know what has been
handed out.

Both are results along runs in which the four conditions of `Raft/Group.lean` hold, and in which the
fields of messages are delivered as they were sent.
-/

namespace KvJet
namespace Raft

open Run (exec)

variable {g : Group} {w w₀ : World} {x y : Uuid}

/-! ## Leaders have what is committed -/

/-- Nothing has happened yet. -/
theorem Firm.here (h : Firm g w₀ w) : Firm g w w :=
  ⟨h.sound, h.commits, h.indexed, ⟨fun _ he => he, Books.Grows.refl _⟩, fun _ _ => Nat.le_refl _⟩

theorem Firm.of_leads (hodd : Odd g.size ∨ g.size = 2) (hs : Sound g w₀)
    (hc : Commits g w₀) (h : Firm g w₀ w) (hx : x ∈ g.members) (hy : y ∈ g.members)
    (hleads : (w.node y).state = .leader)
    (hterm : (w₀.node x).currentTerm ≤ (w.node y).currentTerm) :
    Agree (w₀.node x).log (w.node y).log (w₀.node x).commitIndex := by
  rcases hc.node x hx with h0 | ⟨r, hacked, hcommit⟩
  · rw [h0]
    exact ((hs.ledgers.nodes x hx).toLogOk.mono h.evolves.books).agree_zero
      (h.sound.ledgers.nodes y hy).toLogOk
  · obtain ⟨hrx, hthen⟩ := hs.holds hodd hx hacked hcommit
    have hnow := hthen.grow (h.evolves.books.ledger r)
    obtain ⟨t, htr, j, hij, hchosen, hagree⟩ := hcommit.mono h.evolves
    have hbook := h.sound.ledgers.book y hy hleads
    have hled : w.books.Led (w.node y).currentTerm :=
      ⟨y, h.sound.terms.seat y hy hleads⟩
    rw [← hbook]
    rcases Nat.lt_or_ge t (w.node y).currentTerm with hlt | hge
    · -- the leader began with what was chosen, and has kept its log since
      have hopen := (h.sound.complete hodd hchosen hlt hled).mono hij
      have hgrown := hopen.symm.grow (h.sound.ledgers.terms (w.node y).currentTerm).grown
      exact (hnow.trans hagree).trans hgrown
    · have heq : r = (w.node y).currentTerm := by omega
      rw [← heq]
      exact hnow

theorem Group.eq_of_small (hsize : ¬ 2 ≤ g.size) (hx : x ∈ g.members) (hy : y ∈ g.members) :
    x = y := by
  have hcard : g.members.toFinset.card ≤ 1 := by
    rw [card_members]
    exact Nat.le_of_lt_succ (Nat.lt_of_not_le hsize)
  exact Finset.card_le_one.mp hcard x (List.mem_toFinset.mpr hx) y (List.mem_toFinset.mpr hy)

/-- **Leader completeness.** In a group of odd size or of two, along every run in which the fields of
messages are delivered as sent and the four conditions hold: what a member has committed at one
moment is in the log of every member that leads, then or at any later moment, a term that is not
older than the first one's term was.

What is committed was stored by a majority in the leader's own term, a later leader has the votes of
another majority, and the voter that both have in common does not vote for a log that is older than
its own. -/
theorem leader_complete (g : Group) (hodd : Odd g.size ∨ g.size = 2) (rand : Uuid → Nat)
    (evs more : List Event)
    (hcare : Run.Along g.step (fun w ev => AtDelivery World.GenuineVote w ev ∧
      AtDelivery World.CurrentReply w ev ∧ AtDelivery World.NoStaleTail w ev ∧
      AtDelivery World.NoRestamp w ev) (g.start rand) (evs ++ more))
    (x y : Uuid) (hx : x ∈ g.members) (hy : y ∈ g.members) :
    let n := (g.exec (g.start rand) evs).node x
    let l := (g.exec (g.start rand) (evs ++ more)).node y
    l.state = .leader → n.currentTerm ≤ l.currentTerm →
      ∀ i ≤ n.commitIndex, ∃ cmd, cmdAt n.log i = some cmd ∧ cmdAt l.log i = some cmd := by
  intro n l hleads hterm
  have hagree : Agree n.log l.log n.commitIndex := by
    dsimp only [n, l] at hleads hterm ⊢
    rw [show g.exec (g.start rand) (evs ++ more) = g.exec (g.exec (g.start rand) evs) more from
      Run.exec_append ..] at hleads hterm ⊢
    by_cases hsize : 2 ≤ g.size
    · have hmeets : Run.Along g.step Care.all.Meets (g.start rand) (evs ++ more) :=
        hcare.imp fun w ev h => ⟨fun _ => h.1, fun _ => h.2.1, fun _ => h.2.2.1, fun _ => h.2.2.2⟩
      obtain ⟨hfirst, hsecond⟩ := hmeets.append
      obtain ⟨hstatic, h⟩ := exec_invariant hsize (firm_start hsize rand)
        (fun _ _ _ hm h => firm_move hodd hm h) hfirst
      obtain ⟨-, h'⟩ := along_invariant hsize hstatic h.here
        (fun _ _ _ hm h => firm_move hodd hm h) hsecond
      exact h'.of_leads hodd h.sound h.commits hx hy hleads hterm
    · -- a group of one
      have h := (alone_start hsize rand).exec evs
      have hhere : Alone g (fun z => ((g.exec (g.start rand) evs).node z).log)
          (g.exec (g.start rand) evs) := ⟨h.sent, h.node, fun _ _ => List.prefix_refl _⟩
      rw [← Group.eq_of_small hsize hx hy, (h.node x hx).committed]
      exact Agree.of_extends ((hhere.exec more).grown x hx)
        (Nat.sub_one_lt_of_lt (h.node x hx).pos)
  intro i hi
  have hlt : i < n.log.length := Nat.lt_of_le_of_lt hi hagree.1
  refine ⟨n.log[i].command, by simp [cmdAt, hlt], ?_⟩
  rw [← hagree.2.2 i hi]
  simp [cmdAt, hlt]

set_option maxRecDepth 4000 in
/-- Node 3 has committed its proposal, and it leads on. -/
theorem leader_complete_proposal :
    let n := (trio.exec (trio.start fun _ => 0) (oneProposal ++ [.deliver 5 0 0])).node 3
    let l := (trio.exec (trio.start fun _ => 0)
      (oneProposal ++ [.deliver 5 0 0] ++ [.apply 3, .tick 3 0, .deliver 6 0 0])).node 3
    n.commitIndex = 1 ∧ ∀ i ≤ 1, ∃ cmd, cmdAt n.log i = some cmd ∧ cmdAt l.log i = some cmd := by
  intro n l
  have hcommit : n.commitIndex = 1 := by decide +kernel
  refine ⟨hcommit, ?_⟩
  have hcomplete := leader_complete trio (Or.inl (by decide)) (fun _ => 0)
    (oneProposal ++ [.deliver 5 0 0]) [.apply 3, .tick 3 0, .deliver 6 0 0] (by decide +kernel) 3 3
    (by decide) (by decide) (by decide +kernel) (by decide +kernel)
  rw [show ((trio.exec (trio.start fun _ => 0) (oneProposal ++ [.deliver 5 0 0])).node
    3).commitIndex = 1 from hcommit] at hcomplete
  exact hcomplete

/-! ## What a member hands out -/

/-- The commands at the indexes 1 to `k`. -/
def frontOf (l : List LogEntry) (k : Nat) : List Bytes := ((l.drop 1).take k).map LogEntry.command

theorem frontOf_getElem? {l : List LogEntry} {j k : Nat} (hj : j < k) :
    (frontOf l k)[j]? = cmdAt l (j + 1) := by
  rw [frontOf, List.getElem?_map, List.getElem?_take_of_lt hj, List.getElem?_drop, Nat.add_comm]
  rfl

theorem length_frontOf {l : List LogEntry} {k : Nat} (hk : k < l.length) :
    (frontOf l k).length = k := by
  rw [frontOf, List.length_map, List.length_take, List.length_drop]
  omega

/-- A log that goes on keeps its front. -/
theorem frontOf_of_extends {l l' : List LogEntry} {k : Nat} (h : l <+: l') (hk : k < l.length) :
    frontOf l' k = frontOf l k := by
  refine List.ext_getElem? fun j => ?_
  rcases Nat.lt_or_ge j k with hlt | hge
  · rw [frontOf_getElem? hlt, frontOf_getElem? hlt, cmdAt_of_extends h (by omega)]
  · rw [List.getElem?_eq_none (by rw [length_frontOf (Nat.lt_of_lt_of_le hk h.length_le)]; exact hge),
      List.getElem?_eq_none (by rw [length_frontOf hk]; exact hge)]

/-- The next commands. -/
theorem frontOf_append {l : List LogEntry} {j k : Nat} (hjk : j ≤ k) :
    frontOf l j ++ ((l.drop (j + 1)).take (k - j)).map LogEntry.command = frontOf l k := by
  obtain ⟨d, rfl⟩ := Nat.exists_eq_add_of_le hjk
  rw [frontOf, frontOf, ← List.map_append, Nat.add_sub_cancel_left, List.take_add, List.drop_drop,
    Nat.add_comm 1 j]

theorem Firm.handed_out (hodd : Odd g.size ∨ g.size = 2) (h : Firm g w₀ w) (hx : x ∈ g.members) :
    w.applied x = frontOf (w.node x).log (w.node x).lastApplied := by
  obtain ⟨happlied, hcommit⟩ := h.indexed x hx
  have hlen := h.commits.length x hx
  have hinside : (w.node x).lastApplied < (w.node x).log.length := by
    have hpos := (h.sound.ledgers.nodes x hx).toLogOk.pos
    rw [RaftNode.lastLogIndex] at hcommit
    omega
  rcases h.commits.handed x hx with hnil | ⟨r, hr, hcmds⟩
  · rw [hnil] at hlen ⊢
    rw [← hlen]
    rfl
  · refine List.ext_getElem? fun j => ?_
    rcases Nat.lt_or_ge j (w.node x).lastApplied with hlt | hge
    · rw [frontOf_getElem? hlt, hcmds j (hlen ▸ hlt)]
      -- the log agrees with the leader that wrote what was committed last
      obtain ⟨r', hacked, hr'⟩ := (h.commits.node x hx).resolve_left (by omega)
      have hlog := (h.sound.holds hodd hx hacked hr').2
      have hsame := h.sound.agree hodd hr hr' (k := j + 1) (by omega) (by omega)
      rw [hsame.2.2 (j + 1) (Nat.le_refl _), hlog.2.2 (j + 1) (by omega)]
    · rw [List.getElem?_eq_none (hlen ▸ hge),
        List.getElem?_eq_none (by rw [length_frontOf hinside]; exact hge)]

/-- A member of a group of one. -/
theorem Alone.step_handed {logs : Uuid → List LogEntry} (h : Alone g logs w)
    (hfront : ∀ x ∈ g.members, w.applied x = frontOf (w.node x).log (w.node x).lastApplied)
    (ev : Event) : ∀ x ∈ g.members, (g.step w ev).applied x
      = frontOf ((g.step w ev).node x).log ((g.step w ev).node x).lastApplied := by
  have hinside : ∀ x ∈ g.members, (w.node x).commitIndex < (w.node x).log.length := by
    intro x hx
    rw [(h.node x hx).committed]
    exact Nat.sub_one_lt_of_lt (h.node x hx).pos
  have hact : ∀ y ∈ g.members, ∀ r : RaftNode × List RaftMessage, (w.node y).log <+: r.1.log →
      r.1.lastApplied = (w.node y).lastApplied → ∀ x ∈ g.members, (w.act y r).applied x
        = frontOf ((w.act y r).node x).log ((w.act y r).node x).lastApplied := by
    intro y hy r hlog happlied x hx
    rw [World.act_applied, World.act_node_apply, hfront x hx]
    split
    · rename_i hxy
      rw [hxy, happlied]
      have hle := (h.node y hy).applied
      exact (frontOf_of_extends hlog (Nat.lt_of_le_of_lt hle (hinside y hy))).symm
    · rfl
  cases ev with
  | tick y rand =>
    simp only [Group.step]
    split
    · rename_i hy
      have htick := ((h.node y hy).tick rand).2.2
      refine hact y hy _ (htick ▸ List.prefix_refl _) ?_
      unfold RaftNode.tick
      dsimp only
      split <;> split <;> rfl
    · exact hfront
  | propose y cmd =>
    simp only [Group.step]
    split
    · rename_i hy
      refine hact y hy _ ((h.node y hy).propose cmd).2.2 ?_
      unfold RaftNode.propose
      dsimp only
      split
      · rfl
      · split <;> rfl
    · exact hfront
  | deliver k rand stray =>
    simp only [Group.step, h.sent]
    exact hfront
  | apply y =>
    simp only [Group.step]
    split
    · rename_i hy
      intro x hx
      dsimp only
      rw [World.act_node_apply]
      by_cases hxy : x = y
      · rw [hxy, Function.update_self, if_pos rfl, hfront y hy,
          RaftNode.takePendingApply_snd (hinside y hy) (h.node y hy).applied]
        have hlast : (w.node y).takePendingApply.1.lastApplied = (w.node y).commitIndex :=
          Nat.max_eq_right (h.node y hy).applied
        rw [hlast, (h.node y hy).take.2]
        exact frontOf_append (h.node y hy).applied
      · rw [Function.update_of_ne hxy, if_neg hxy]
        exact hfront x hx
    · exact hfront

theorem alone_handed (hsize : ¬ 2 ≤ g.size) (rand : Uuid → Nat) (evs : List Event) :
    Alone g (fun _ => []) (g.exec (g.start rand) evs) ∧ ∀ y ∈ g.members,
      (g.exec (g.start rand) evs).applied y = frontOf ((g.exec (g.start rand) evs).node y).log
        ((g.exec (g.start rand) evs).node y).lastApplied := by
  have hstart : ∀ y ∈ g.members, (g.start rand).applied y
      = frontOf ((g.start rand).node y).log ((g.start rand).node y).lastApplied := by
    intro y hy
    simp only [Group.start, RaftNode.construct]
    split <;> rfl
  exact Run.keeps_exec (I := fun w : World => Alone g (fun _ => []) w ∧
      ∀ y ∈ g.members, w.applied y = frontOf (w.node y).log (w.node y).lastApplied)
    (fun _ ev h => ⟨h.1.step ev, h.1.step_handed h.2 ev⟩) evs ⟨alone_start hsize rand, hstart⟩

/-- **Handed out once and in order.** In a group of odd size or of two, after every run in which the
fields of messages are delivered as sent and the four conditions hold: what a member has handed out
so far is the command of its log's indexes 1, 2, …, `lastApplied`, each once and in this order.

`takePendingApply` goes on where it stopped, and what it handed out was committed: no later message
truncates the log there (`Raft/CommittedPrefix.lean`), so the front of the log is still the same. -/
theorem handed_out_in_order (g : Group) (hodd : Odd g.size ∨ g.size = 2) (rand : Uuid → Nat)
    (evs : List Event)
    (hcare : Run.Along g.step (fun w ev => AtDelivery World.GenuineVote w ev ∧
      AtDelivery World.CurrentReply w ev ∧ AtDelivery World.NoStaleTail w ev ∧
      AtDelivery World.NoRestamp w ev) (g.start rand) evs)
    (x : Uuid) (hx : x ∈ g.members) :
    let w := g.exec (g.start rand) evs
    w.applied x = frontOf (w.node x).log (w.node x).lastApplied ∧
      (w.applied x).length = (w.node x).lastApplied := by
  intro w
  by_cases hsize : 2 ≤ g.size
  · have hmeets : Run.Along g.step Care.all.Meets (g.start rand) evs :=
      hcare.imp fun w ev h => ⟨fun _ => h.1, fun _ => h.2.1, fun _ => h.2.2.1, fun _ => h.2.2.2⟩
    obtain ⟨-, h⟩ := exec_invariant hsize (firm_start hsize rand)
      (fun _ _ _ hm h => firm_move hodd hm h) hmeets
    exact ⟨h.handed_out hodd hx, h.commits.length x hx⟩
  · have h := alone_handed hsize rand evs
    have hlone := h.1.node x hx
    refine ⟨h.2 x hx, ?_⟩
    have hpos := hlone.pos
    have happlied := hlone.applied
    rw [hlone.committed, RaftNode.lastLogIndex] at happlied
    rw [h.2 x hx, length_frontOf (by omega)]

set_option maxRecDepth 4000 in
theorem handed_out_proposal :
    ((trio.exec (trio.start fun _ => 0) oneCommit).node 1).lastApplied = 1 ∧
      (trio.exec (trio.start fun _ => 0) oneCommit).applied 1
        = frontOf ((trio.exec (trio.start fun _ => 0) oneCommit).node 1).log
          ((trio.exec (trio.start fun _ => 0) oneCommit).node 1).lastApplied := by
  refine ⟨by decide +kernel, ?_⟩
  exact (handed_out_in_order trio (Or.inl (by decide)) (fun _ => 0) oneCommit (by decide +kernel) 1
    (by decide)).1

end Raft
end KvJet
