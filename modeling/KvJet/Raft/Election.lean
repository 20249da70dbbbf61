import KvJet.Raft.Moves
import Mathlib.Data.Finset.Card

/-!
# One leader in a term

A candidate of term `t` leads once it has counted enough granted votes. A node grants at most
one vote in a term (`Terms.once`): its `votedFor` is only forgotten when it was a candidate
itself and met a leader of its own term, and such a node has granted nothing. A node that has
granted a vote in a term never leads that term (`Terms.abstain`).

So two leaders of one term need two disjoint sets of voters, and there is no room for these in
a group of odd size or of two, if the votes counted are different voters' votes of that term.
The code does not see to that: it looks neither at the sender nor at the term of a granted
reply. And its quorum, half of the *peers* and one more, is only half of an even group.
-/

namespace KvJet
namespace Raft

/-- `v` has granted `x` its vote in term `t`. -/
def World.Granted (w : World) (v x : Uuid) (t : Nat) : Prop :=
  ∃ e ∈ w.sent, e.src = v ∧ e.dst = x ∧ e.payload = .requestVoteReply t true

theorem granted_act {w : World} {x v y : Uuid} {t : Nat} {n' : RaftNode} {ms : List RaftMessage} :
    (w.act x (n', ms)).Granted v y t ↔
      w.Granted v y t ∨ (v = x ∧ ⟨y, .requestVoteReply t true⟩ ∈ ms) := by
  unfold World.Granted
  rw [World.act_sent]
  constructor
  · intro ⟨e, he, hsrc, hdst, hp⟩
    rcases List.mem_append.mp he with hold | hnew
    · exact Or.inl ⟨e, hold, hsrc, hdst, hp⟩
    · obtain ⟨⟨target, payload⟩, hm, rfl⟩ := List.mem_map.mp hnew
      dsimp only at hsrc hdst hp
      rw [hdst, hp] at hm
      exact Or.inr ⟨hsrc.symm, hm⟩
  · intro h
    rcases h with ⟨e, he, h⟩ | ⟨hvx, hm⟩
    · exact ⟨e, List.mem_append_left _ he, h⟩
    · exact ⟨_, List.mem_append_right _ (List.mem_map_of_mem hm), hvx.symm, rfl, rfl⟩

/-! ## Votes and terms -/

/-- What each member's term, state and vote say of the terms before. `once` is the aim, and cannot
be carried alone: a node forgets its `votedFor` when it gets to a new term, so that it has not
granted two votes in one term rests on `grants`, by which what it has granted lies behind it or is
still written down. -/
structure Terms (g : Group) (w : World) : Prop where
  /-- Candidates and leaders vote for themselves. -/
  vote : ∀ x ∈ g.members, (w.node x).state ≠ .follower →
    1 ≤ (w.node x).currentTerm ∧ (w.node x).votedFor = some x
  seat : ∀ x ∈ g.members, (w.node x).state = .leader → (x, (w.node x).currentTerm) ∈ w.led
  tenure : ∀ x t, (x, t) ∈ w.led → x ∈ g.members ∧ 1 ≤ t ∧
    (t < (w.node x).currentTerm ∨ ((w.node x).currentTerm = t ∧ (w.node x).state = .leader))
  grants : ∀ v x t, w.Granted v x t → t < (w.node v).currentTerm ∨
    ((w.node v).currentTerm = t ∧ (w.node v).state = .follower ∧ (w.node v).votedFor = some x)
  once : ∀ v x y t, w.Granted v x t → w.Granted v y t → x = y
  abstain : ∀ v x t, w.Granted v x t → (v, t) ∉ w.led

/-- Only a leader leads its current term, and only a follower has voted for another in it. -/
theorem Terms.led_before (h : Terms g w) {x : Uuid} {t : Nat}
    (hst : (w.node x).state ≠ .leader) (hled : (x, t) ∈ w.led) : t < (w.node x).currentTerm :=
  (h.tenure x t hled).2.2.resolve_right fun hl => hst hl.2

theorem Terms.granted_before (h : Terms g w) {v x : Uuid} {t : Nat}
    (hst : (w.node v).state ≠ .follower) (hg : w.Granted v x t) : t < (w.node v).currentTerm :=
  (h.grants v x t hg).resolve_right fun hf => hst hf.2.1

/-- What an action of `x` has to meet to keep `Terms`. -/
structure TermsAction (w : World) (x : Uuid) (n' : RaftNode) (ms : List RaftMessage) : Prop where
  vote : n'.state ≠ .follower → 1 ≤ n'.currentTerm ∧ n'.votedFor = some x
  tenure : ∀ t, (x, t) ∈ w.led → t < n'.currentTerm ∨ (n'.currentTerm = t ∧ n'.state = .leader)
  grants : ∀ y t, w.Granted x y t → t < n'.currentTerm ∨
    (n'.currentTerm = t ∧ n'.state = .follower ∧ n'.votedFor = some y)
  cast : ∀ y t, ⟨y, .requestVoteReply t true⟩ ∈ ms →
    n'.currentTerm = t ∧ n'.state = .follower ∧ n'.votedFor = some y

theorem mem_led_act {w : World} {x y : Uuid} {t : Nat} {n' : RaftNode} {ms : List RaftMessage} :
    (y, t) ∈ (w.act x (n', ms)).led ↔
      (y, t) ∈ w.led ∨ (n'.state = .leader ∧ y = x ∧ t = n'.currentTerm) := by
  by_cases hl : n'.state = .leader
  · rw [World.act_led hl]
    split
    · rename_i hmem
      constructor
      · intro h
        exact Or.inl h
      · intro h
        rcases h with h | ⟨-, rfl, rfl⟩
        · exact h
        · exact hmem
    · simp [hl]
  · rw [World.act_led_of_ne hl]
    simp [hl]

variable {g : Group} {c : Care} {w : World}

theorem Terms.act (h : Terms g w) {x : Uuid} {n' : RaftNode} {ms : List RaftMessage}
    (hx : x ∈ g.members) (ha : TermsAction w x n' ms) : Terms g (w.act x (n', ms)) := by
  have hnode : ∀ y, (w.act x (n', ms)).node y = if y = x then n' else w.node y :=
    World.act_node_apply
  have hgrants : ∀ v y t, (w.act x (n', ms)).Granted v y t →
      t < ((w.act x (n', ms)).node v).currentTerm ∨
      (((w.act x (n', ms)).node v).currentTerm = t ∧
        ((w.act x (n', ms)).node v).state = .follower ∧
        ((w.act x (n', ms)).node v).votedFor = some y) := by
    intro v y t hg
    rw [hnode]
    rcases granted_act.mp hg with hold | ⟨rfl, hm⟩
    · split
      · rename_i hv
        subst hv
        exact ha.grants y t hold
      · exact h.grants v y t hold
    · rw [if_pos rfl]
      exact Or.inr (ha.cast y t hm)
  constructor
  · intro y hy hst
    rw [hnode] at hst ⊢
    split at hst
    · rename_i hyx
      rw [if_pos hyx, hyx]
      exact ha.vote hst
    · rename_i hyx
      rw [if_neg hyx]
      exact h.vote y hy hst
  · intro y hy hst
    rw [hnode] at hst ⊢
    rw [mem_led_act]
    split at hst
    · rename_i hyx
      rw [if_pos hyx]
      exact Or.inr ⟨hst, hyx, rfl⟩
    · rename_i hyx
      rw [if_neg hyx]
      exact Or.inl (h.seat y hy hst)
  · intro y t hled
    rw [hnode]
    rcases mem_led_act.mp hled with hold | ⟨hl, rfl, rfl⟩
    · obtain ⟨hmem, hpos, hten⟩ := h.tenure y t hold
      refine ⟨hmem, hpos, ?_⟩
      split
      · rename_i hyx
        subst hyx
        exact ha.tenure t hold
      · exact hten
    · rw [if_pos rfl]
      exact ⟨hx, (ha.vote (by rw [hl]; simp)).1, Or.inr ⟨rfl, hl⟩⟩
  · exact hgrants
  · intro v y z t hy hz
    -- of two grants of one term, the newer one names the recorded vote
    have key : ∀ y z, (w.act x (n', ms)).Granted v y t → v = x →
        ⟨z, .requestVoteReply t true⟩ ∈ ms → y = z := by
      intro y z hg hv hm
      obtain ⟨ht, -, hvote⟩ := ha.cast z t hm
      have := hgrants v y t hg
      rw [hnode, if_pos hv, ht, hvote] at this
      rcases this with hlt | ⟨-, -, heq⟩
      · exact absurd hlt (Nat.lt_irrefl t)
      · exact (Option.some.inj heq).symm
    rcases granted_act.mp hz with hz' | ⟨hv, hm⟩
    · rcases granted_act.mp hy with hy' | ⟨hv, hm⟩
      · exact h.once v y z t hy' hz'
      · exact (key z y hz hv hm).symm
    · exact key y z hy hv hm
  · intro v y t hg hled
    have hgr := hgrants v y t hg
    rw [hnode] at hgr
    rcases mem_led_act.mp hled with hled' | ⟨hl, rfl, rfl⟩
    · rcases granted_act.mp hg with hg' | ⟨rfl, hm⟩
      · exact h.abstain v y t hg' hled'
      · obtain ⟨ht, hst, -⟩ := ha.cast y t hm
        rcases ha.tenure t hled' with hlt | ⟨-, hlead⟩
        · omega
        · rw [hst] at hlead
          exact absurd hlead (by simp)
    · rw [if_pos rfl] at hgr
      rcases hgr with hlt | ⟨-, hst, -⟩
      · exact absurd hlt (Nat.lt_irrefl _)
      · rw [hl] at hst
        exact absurd hst (by simp)

/-- An action that changes neither term, role nor vote, and grants nothing. -/
theorem TermsAction.of_same (h : Terms g w) {x : Uuid} {n' : RaftNode} {ms : List RaftMessage}
    (hx : x ∈ g.members) (hterm : n'.currentTerm = (w.node x).currentTerm)
    (hstate : n'.state = (w.node x).state) (hvote : n'.votedFor = (w.node x).votedFor)
    (hms : ∀ y t, ⟨y, .requestVoteReply t true⟩ ∉ ms) : TermsAction w x n' ms where
  vote := by
    rw [hstate, hterm, hvote]
    exact h.vote x hx
  tenure := by
    intro t hled
    rw [hterm, hstate]
    exact (h.tenure x t hled).2.2
  grants := by
    intro y t hg
    rw [hterm, hstate, hvote]
    exact h.grants x y t hg
  cast := fun y t hm => absurd hm (hms y t)

/-- An action that moves on to a newer term, and grants nothing. -/
theorem TermsAction.of_newer (h : Terms g w) {x : Uuid} {n' : RaftNode} {ms : List RaftMessage}
    (hterm : (w.node x).currentTerm < n'.currentTerm)
    (hvote : n'.state ≠ .follower → n'.votedFor = some x)
    (hms : ∀ y t, ⟨y, .requestVoteReply t true⟩ ∉ ms) : TermsAction w x n' ms where
  vote := fun hst => ⟨Nat.le_trans (Nat.le_add_left 1 _) hterm, hvote hst⟩
  tenure := by
    intro t hled
    rcases (h.tenure x t hled).2.2 with hlt | ⟨heq, -⟩
    · exact Or.inl (Nat.lt_trans hlt hterm)
    · exact Or.inl (heq ▸ hterm)
  grants := by
    intro y t hg
    rcases h.grants x y t hg with hlt | ⟨heq, -⟩
    · exact Or.inl (Nat.lt_trans hlt hterm)
    · exact Or.inl (heq ▸ hterm)
  cast := fun y t hm => absurd hm (hms y t)

theorem plain_grants {n : RaftNode} {ms : List RaftMessage} {P : RaftMessage → Prop}
    (h : ∀ m ∈ ms, P m ∧ Plain n m.payload) (y : Uuid) (t : Nat) :
    ⟨y, .requestVoteReply t true⟩ ∉ ms := by
  intro hm
  exact absurd (h _ hm).2 (by simp [Plain])

theorem Terms.recount (h : Terms g w) (votes : List (Uuid × Nat × Uuid)) :
    Terms g { w with counted := votes } :=
  ⟨h.vote, h.seat, h.tenure, h.grants, h.once, h.abstain⟩

theorem terms_move {w' : World} (hm : Move g c w w') (h : Terms g w) :
    Terms g w' := by
  cases hm with
  | @quiet x n' ms hx hn hms =>
    exact h.act hx (.of_same h hx hn.currentTerm hn.state hn.votedFor (plain_grants hms))
  | @stand x n' ms hx hst hn hms =>
    refine h.act hx (.of_newer h (by rw [hn.currentTerm]; exact Nat.lt_succ_self _)
      (fun _ => hn.votedFor) ?_)
    intro y t hm
    exact absurd (hms _ hm).2 (by simp)
  | @adopt x n' term hx ht hn =>
    have hfollower : n'.state = .follower := hn.state
    rcases ht with hlt | ⟨hcand, heq, -⟩
    · exact h.act hx (.of_newer h (by rw [hn.currentTerm]; exact hlt)
        (fun hst => absurd hfollower hst) (by simp))
    · -- a candidate has neither led its term nor granted a vote in it
      have hterm : n'.currentTerm = (w.node x).currentTerm := hn.currentTerm.trans heq.symm
      refine h.act hx ⟨fun hst => absurd hfollower hst, ?_, ?_, by simp⟩
      · intro t hled
        rw [hterm]
        exact Or.inl (h.led_before (by simp [hcand]) hled)
      · intro y t hg
        rw [hterm]
        exact Or.inl (h.granted_before (by simp [hcand]) hg)
  | @accept e n' term prevIdx prevTerm leaderCommit cmds hx hsrc he hp ht hst hprev htail hkeep hn =>
    exact h.act hx (.of_same h hx hn.currentTerm hn.state hn.votedFor (by simp))
  | @grant e n' term lastIdx lastTerm hx hsrc he hp ht hcan hok hn =>
    have hne : e.src ≠ e.dst := (Group.mem_peersOf.mp hsrc).2
    have hfollower : (w.node e.dst).state = .follower := by
      by_contra hst
      have hself := (h.vote e.dst hx hst).2
      rcases hcan with hnone | hsome
      · rw [hself] at hnone
        exact absurd hnone (by simp)
      · rw [hself] at hsome
        exact hne (Option.some.inj hsome).symm
    have hst' : n'.state = .follower := hn.state.trans hfollower
    refine h.act hx ⟨fun hst => absurd hst' hst, ?_, ?_, ?_⟩
    · intro t hled
      rw [hn.currentTerm]
      exact Or.inl (h.led_before (by simp [hfollower]) hled)
    · intro y t hg
      rw [hn.currentTerm, hst', hn.votedFor]
      rcases h.grants e.dst y t hg with hlt | ⟨heq, -, hvote⟩
      · exact Or.inl hlt
      · refine Or.inr ⟨heq, rfl, ?_⟩
        rcases hcan with hnone | hsome
        · rw [hvote] at hnone
          exact absurd hnone (by simp)
        · exact hsome.symm.trans hvote
    · intro y t hm
      rw [List.mem_singleton, RaftMessage.mk.injEq, Payload.requestVoteReply.injEq] at hm
      obtain ⟨rfl, rfl, -⟩ := hm
      exact ⟨rfl, hst', hn.votedFor⟩
  | @count e n' term hx he hp hst ht hv hn =>
    have h' := h.recount (w.counted ++ [(e.dst, (w.node e.dst).currentTerm, e.src)])
    exact h'.act hx (.of_same h' hx hn.currentTerm hn.state hn.votedFor (by simp))
  | @lead x n' hx hst hq h2 hn =>
    obtain ⟨hpos, hself⟩ := h.vote x hx (by rw [hst]; simp)
    refine h.act hx ⟨fun _ => ⟨?_, ?_⟩, ?_, ?_, by simp⟩
    · rw [hn.currentTerm]
      exact hpos
    · rw [hn.votedFor]
      exact hself
    · intro t hled
      rw [hn.currentTerm]
      exact Or.inl (h.led_before (by simp [hst]) hled)
    · intro y t hg
      rw [hn.currentTerm]
      exact Or.inl (h.granted_before (by simp [hst]) hg)
  | @push x n' ms cmd hx hst hn hms =>
    exact h.act hx (.of_same h hx hn.currentTerm hn.state hn.votedFor (plain_grants hms))
  | @ack e n' term matchIdx hx he hp hst ht hr hn =>
    exact h.act hx (.of_same h hx hn.currentTerm hn.state hn.votedFor (by simp))
  | @commit x n' stray hx hst hi ht hn =>
    exact h.act hx (.of_same h hx hn.currentTerm hn.state hn.votedFor (by simp))
  | @apply x hx =>
    have h' : Terms g (w.act x ((w.node x).takePendingApply.1, [])) :=
      h.act hx (.of_same h hx rfl rfl rfl (by simp))
    exact ⟨h'.vote, h'.seat, h'.tenure, h'.grants, h'.once, h'.abstain⟩

theorem start_led (hsize : 2 ≤ g.size) (rand : Uuid → Nat) : (g.start rand).led = [] := by
  show (g.members.filter fun x => ((g.start rand).node x).state = .leader).map _ = []
  rw [List.map_eq_nil_iff, List.filter_eq_nil_iff]
  intro x hx
  rw [start_node hsize rand hx]
  simp [RaftNode.resetElectionTimer]

theorem terms_start (hsize : 2 ≤ g.size) (rand : Uuid → Nat) : Terms g (g.start rand) := by
  have hnode := fun x hx => start_node (g := g) hsize rand (x := x) hx
  have hled := start_led hsize rand
  have hsent : ∀ v x t, ¬ (g.start rand).Granted v x t := by
    intro v x t ⟨e, he, _⟩
    exact absurd he (by simp [Group.start])
  constructor
  · intro x hx hst
    rw [hnode x hx] at hst
    exact absurd rfl hst
  · intro x hx hst
    rw [hnode x hx] at hst
    exact absurd hst (by simp [RaftNode.resetElectionTimer])
  · intro x t h
    rw [hled] at h
    exact absurd h (by simp)
  · intro v x t h
    exact absurd h (hsent v x t)
  · intro v x y t h
    exact absurd h (hsent v x t)
  · intro v x t h
    exact absurd h (hsent v x t)

/-! ## Counted votes

`voteCount` is a number, and a number does not say whose votes it counts. So the world keeps the
votes that were counted, by term and voter, and the number is shown to be theirs. -/

/-- The votes that `x` has counted in term `t`, its own apart. -/
def World.voters (w : World) (x : Uuid) (t : Nat) : List Uuid :=
  (w.counted.filter fun c => c.1 = x ∧ c.2.1 = t).map fun c => c.2.2

theorem mem_voters {x v : Uuid} {t : Nat} : v ∈ w.voters x t ↔ (x, t, v) ∈ w.counted := by
  simp only [World.voters, List.mem_map, List.mem_filter, decide_eq_true_eq]
  constructor
  · intro ⟨⟨x', t', v'⟩, ⟨hmem, hx, ht⟩, hv⟩
    dsimp only at hx ht hv
    rwa [hx, ht, hv] at hmem
  · intro h
    exact ⟨(x, t, v), ⟨h, rfl, rfl⟩, rfl⟩

/-- How many votes a leader has had at least: the quorum, and never only its own, since a
candidate looks at its count when a reply comes in. -/
def Group.voteQuorum (g : Group) : Nat := max 2 ((g.size - 1) / 2 + 1)

/-- The votes a leader counted were granted, each once, and were enough. Without `nodup` a reply
that is delivered twice would be two votes. -/
structure Cast (g : Group) (w : World) : Prop where
  cast : ∀ x t v, (x, t, v) ∈ w.counted → w.Granted v x t ∧ t ≤ (w.node x).currentTerm
  nodup : w.counted.Nodup
  won : ∀ x t, (x, t) ∈ w.led → g.voteQuorum ≤ (w.voters x t).length + 1

def World.Tallied (w : World) (x : Uuid) : Prop :=
  (w.node x).state = .candidate →
    (w.node x).voteCount = (w.voters x (w.node x).currentTerm).length + 1

/-- For a candidate that is still counting, `voteCount` is the number of the votes written down; so
when it gets to the quorum, they are that many. -/
structure Ballots (g : Group) (w : World) : Prop extends Cast g w where
  tallied : ∀ x ∈ g.members, w.Tallied x

theorem Cast.act (h : Cast g w) {x : Uuid} {n' : RaftNode} {ms : List RaftMessage}
    (hothers : ∀ y ∈ g.members, y ≠ x → w.Tallied y)
    (hterm : (w.node x).currentTerm ≤ n'.currentTerm)
    (hcand : n'.state = .candidate → n'.voteCount = (w.voters x n'.currentTerm).length + 1)
    (hlead : n'.state = .leader → (x, n'.currentTerm) ∈ w.led ∨
      g.voteQuorum ≤ (w.voters x n'.currentTerm).length + 1) :
    Ballots g (w.act x (n', ms)) := by
  have hvoters : ∀ y t, (w.act x (n', ms)).voters y t = w.voters y t := by
    intro y t
    unfold World.voters
    rw [World.act_counted]
  refine ⟨⟨?_, by rw [World.act_counted]; exact h.nodup, ?_⟩, ?_⟩
  · intro y t v hm
    rw [World.act_counted] at hm
    obtain ⟨hg, ht⟩ := h.cast y t v hm
    refine ⟨granted_act.mpr (Or.inl hg), ?_⟩
    rw [World.act_node_apply]
    split
    · rename_i hyx
      rw [hyx] at ht
      exact Nat.le_trans ht hterm
    · exact ht
  · intro y t hled
    rw [hvoters]
    rcases mem_led_act.mp hled with hold | ⟨hl, rfl, rfl⟩
    · exact h.won y t hold
    · rcases hlead hl with hold | hq
      · exact h.won y _ hold
      · exact hq
  · intro y hy hst
    rw [World.act_node_apply] at hst ⊢
    rw [hvoters]
    split at hst
    · rename_i hyx
      rw [if_pos hyx, hyx]
      exact hcand hst
    · rename_i hyx
      rw [if_neg hyx]
      exact hothers y hy hyx hst

theorem Ballots.act (h : Ballots g w) {x : Uuid} {n' : RaftNode} {ms : List RaftMessage}
    (hterm : (w.node x).currentTerm ≤ n'.currentTerm)
    (hcand : n'.state = .candidate → n'.voteCount = (w.voters x n'.currentTerm).length + 1)
    (hlead : n'.state = .leader → (x, n'.currentTerm) ∈ w.led ∨
      g.voteQuorum ≤ (w.voters x n'.currentTerm).length + 1) :
    Ballots g (w.act x (n', ms)) :=
  h.toCast.act (fun y hy _ => h.tallied y hy) hterm hcand hlead

/-- An action that changes neither term, role nor count. -/
theorem Ballots.act_same (h : Ballots g w) (ht : Terms g w) {x : Uuid} {n' : RaftNode}
    {ms : List RaftMessage} (hx : x ∈ g.members) (hterm : n'.currentTerm = (w.node x).currentTerm)
    (hstate : n'.state = (w.node x).state) (hcount : n'.voteCount = (w.node x).voteCount) :
    Ballots g (w.act x (n', ms)) := by
  refine h.act (Nat.le_of_eq hterm.symm) ?_ ?_
  · intro hst
    rw [hcount, hterm]
    exact h.tallied x hx (hstate ▸ hst)
  · intro hst
    rw [hterm]
    exact Or.inl (ht.seat x hx (hstate ▸ hst))

theorem voters_count (x v y : Uuid) (t t' : Nat) :
    World.voters { w with counted := w.counted ++ [(x, t, v)] } y t'
      = w.voters y t' ++ if y = x ∧ t' = t then [v] else [] := by
  unfold World.voters
  rw [List.filter_append, List.map_append]
  congr 1
  by_cases hyt : y = x ∧ t' = t
  · simp [hyt.1, hyt.2]
  · rw [if_neg hyt, List.filter_cons_of_neg]
    · rfl
    · intro h
      rw [decide_eq_true_eq] at h
      exact hyt ⟨h.1.symm, h.2.symm⟩

/-- A vote of the current term that is counted for the first time. -/
theorem Cast.count (h : Cast g w) {x v : Uuid} (hgranted : w.Granted v x (w.node x).currentTerm)
    (hfresh : (x, (w.node x).currentTerm, v) ∉ w.counted) :
    Cast g { w with counted := w.counted ++ [(x, (w.node x).currentTerm, v)] } := by
  refine ⟨?_, ?_, ?_⟩
  · intro y t u hm
    rcases List.mem_append.mp hm with hold | hnew
    · exact h.cast y t u hold
    · rw [List.mem_singleton, Prod.mk.injEq, Prod.mk.injEq] at hnew
      obtain ⟨rfl, rfl, rfl⟩ := hnew
      exact ⟨hgranted, Nat.le_refl _⟩
  · exact List.nodup_append.mpr ⟨h.nodup, by simp, fun a ha b hb hab =>
      hfresh (by rw [List.mem_singleton] at hb; rwa [hab, hb] at ha)⟩
  · intro y t hled
    rw [voters_count]
    have := h.won y t hled
    rw [List.length_append]
    omega

theorem ballots_move {w' : World} (hcare : c.votes) (hw : Wired g w) (ht : Terms g w)
    (hm : Move g c w w') (h : Ballots g w) : Ballots g w' := by
  cases hm with
  | @quiet x n' ms hx hn hms => exact h.act_same ht hx hn.currentTerm hn.state hn.voteCount
  | @stand x n' ms hx hst hn hms =>
    refine h.act (by rw [hn.currentTerm]; exact Nat.le_succ _) ?_ ?_
    · -- in a new term nothing has been counted yet
      intro _
      have hnone : w.voters x n'.currentTerm = [] := by
        refine List.eq_nil_iff_forall_not_mem.mpr fun v hv => ?_
        have hle := (h.cast x _ v (mem_voters.mp hv)).2
        rw [hn.currentTerm] at hle
        exact absurd hle (Nat.not_succ_le_self _)
      rw [hnone, hn.voteCount]
      rfl
    · intro hl
      rw [hn.state] at hl
      exact absurd hl (by simp)
  | @adopt x n' term hx hterm hn =>
    have hfollower : n'.state = .follower := hn.state
    refine h.act ?_ (fun hst => ?_) (fun hst => ?_)
    · rw [hn.currentTerm]
      rcases hterm with hlt | ⟨-, heq, -⟩
      · exact Nat.le_of_lt hlt
      · exact Nat.le_of_eq heq
    · rw [hfollower] at hst
      exact absurd hst (by simp)
    · rw [hfollower] at hst
      exact absurd hst (by simp)
  | @accept e n' term prevIdx prevTerm leaderCommit cmds hx hsrc he hp hterm hst hprev htail hkeep hn =>
    exact h.act_same ht hx hn.currentTerm hn.state hn.voteCount
  | @grant e n' term lastIdx lastTerm hx hsrc he hp hterm hcan hok hn =>
    exact h.act_same ht hx hn.currentTerm hn.state hn.voteCount
  | @count e n' term hx he hp hst hterm hv hn =>
    obtain ⟨heq, hfresh⟩ := hv hcare
    subst heq
    have hgranted : w.Granted e.src e.dst (w.node e.dst).currentTerm := ⟨e, he, rfl, rfl, hp⟩
    refine (h.toCast.count hgranted hfresh).act ?_ (Nat.le_of_eq hn.currentTerm.symm) ?_ ?_
    · intro y hy hyx hc
      rw [voters_count, if_neg fun h => hyx h.1, List.append_nil]
      exact h.tallied y hy hc
    · intro _
      have htallied := h.tallied e.dst hx hst
      rw [hn.voteCount, hn.currentTerm, voters_count, if_pos ⟨rfl, rfl⟩, List.length_append,
        List.length_singleton]
      exact congrArg (· + 1) htallied
    · intro hl
      rw [hn.state] at hl
      exact absurd (hst.symm.trans hl) (by simp)
  | @lead x n' hx hst hq h2 hn =>
    have hleader : n'.state = .leader := hn.state
    refine h.act (Nat.le_of_eq hn.currentTerm.symm) ?_ ?_
    · intro hc
      rw [hleader] at hc
      exact absurd hc (by simp)
    · intro _
      rw [hn.currentTerm]
      have htallied := h.tallied x hx hst
      have hsize := g.length_peersOf hx
      unfold RaftNode.quorum at hq
      rw [hw.peers x] at hq
      unfold Group.voteQuorum
      rw [← htallied, show g.size - 1 = (g.peersOf x).length by omega]
      exact Or.inr (Nat.max_le.mpr ⟨h2, hq⟩)
  | @push x n' ms cmd hx hst hn hms => exact h.act_same ht hx hn.currentTerm hn.state hn.voteCount
  | @ack e n' term matchIdx hx he hp hst hterm hr hn =>
    exact h.act_same ht hx hn.currentTerm hn.state hn.voteCount
  | @commit x n' stray hx hst hi hterm hn =>
    exact h.act_same ht hx hn.currentTerm hn.state hn.voteCount
  | @apply x hx =>
    have h' : Ballots g (w.act x ((w.node x).takePendingApply.1, [])) :=
      h.act_same ht hx rfl rfl rfl
    exact ⟨⟨h'.cast, h'.nodup, h'.won⟩, h'.tallied⟩

theorem ballots_start (hsize : 2 ≤ g.size) (rand : Uuid → Nat) : Ballots g (g.start rand) := by
  have ht := terms_start hsize rand
  refine ⟨⟨?_, by simp [Group.start], ?_⟩, ?_⟩
  · intro x t v hm
    exact absurd hm (by simp [Group.start])
  · intro x t hled
    obtain ⟨hx, hpos, hten⟩ := ht.tenure x t hled
    rw [start_node hsize rand hx] at hten
    rcases hten with hlt | ⟨heq, -⟩
    · exact absurd hlt (Nat.not_lt_zero t)
    · have heq : 0 = t := heq
      omega
  · intro x hx hst
    rw [start_node hsize rand hx] at hst
    exact absurd hst (by simp [RaftNode.resetElectionTimer])

/-! ## Two leaders need two electorates

A matter of counting alone: each of the two has more than half of the group behind it, itself
included, or all of a group of two. -/

/-- Those whose votes made `x` leader of term `t`. -/
def World.electorate (w : World) (x : Uuid) (t : Nat) : Finset Uuid :=
  insert x (w.voters x t).toFinset

theorem Cast.voter (h : Cast g w) (hw : Wired g w) {x v : Uuid} {t : Nat}
    (hv : v ∈ w.voters x t) : w.Granted v x t ∧ v ∈ g.members ∧ v ≠ x := by
  have hg := (h.cast x t v (mem_voters.mp hv)).1
  have ⟨e, he, hsrc, hdst, _⟩ := hg
  have hwire := (hw.wire e he).2
  rw [hsrc, hdst] at hwire
  exact ⟨hg, Group.mem_peersOf.mp hwire⟩

theorem Cast.nodup_voters (h : Cast g w) (x : Uuid) (t : Nat) : (w.voters x t).Nodup := by
  refine List.Nodup.map_on ?_ (h.nodup.filter _)
  intro ⟨x₁, t₁, v₁⟩ h₁ ⟨x₂, t₂, v₂⟩ h₂ heq
  simp only [List.mem_filter, decide_eq_true_eq] at h₁ h₂
  dsimp only at heq
  rw [h₁.2.1, h₁.2.2, h₂.2.1, h₂.2.2, heq]

theorem Cast.electorate_subset (h : Cast g w) (hw : Wired g w) {x : Uuid} (hx : x ∈ g.members)
    (t : Nat) : w.electorate x t ⊆ g.members.toFinset := by
  intro v hv
  rw [List.mem_toFinset]
  rcases Finset.mem_insert.mp hv with rfl | hv
  · exact hx
  · exact (h.voter hw (List.mem_toFinset.mp hv)).2.1

theorem Cast.card_electorate (h : Cast g w) (hw : Wired g w) {x : Uuid} {t : Nat}
    (hled : (x, t) ∈ w.led) : g.voteQuorum ≤ (w.electorate x t).card := by
  have hself : x ∉ (w.voters x t).toFinset := by
    intro hx
    exact (h.voter hw (List.mem_toFinset.mp hx)).2.2 rfl
  rw [World.electorate, Finset.card_insert_of_notMem hself,
    List.toFinset_card_of_nodup (h.nodup_voters x t)]
  exact h.won x t hled

theorem card_members (g : Group) : g.members.toFinset.card = g.size :=
  List.toFinset_card_of_nodup g.nodup

theorem singleLeader_of_ballots (hw : Wired g w) (ht : Terms g w) (h : Cast g w)
    (hq : g.size < 2 * g.voteQuorum) : w.SingleLeader := by
  intro a b t ha hb
  have hma := (ht.tenure a t ha).1
  have hmb := (ht.tenure b t hb).1
  have hca := h.card_electorate hw ha
  have hcb := h.card_electorate hw hb
  obtain ⟨v, hv⟩ := Finset.inter_nonempty_of_card_lt_card_add_card
    (h.electorate_subset hw hma t) (h.electorate_subset hw hmb t)
    (by rw [card_members]; omega)
  obtain ⟨hva, hvb⟩ := Finset.mem_inter.mp hv
  -- the common voter is one of the two, who has led, or has voted for both
  rcases Finset.mem_insert.mp hva with rfl | hva
  · rcases Finset.mem_insert.mp hvb with rfl | hvb
    · rfl
    · exact absurd ha (ht.abstain _ _ _ (h.voter hw (List.mem_toFinset.mp hvb)).1)
  · have hga := (h.voter hw (List.mem_toFinset.mp hva)).1
    rcases Finset.mem_insert.mp hvb with rfl | hvb
    · exact absurd hb (ht.abstain _ _ _ hga)
    · exact ht.once v a b t hga (h.voter hw (List.mem_toFinset.mp hvb)).1

theorem Group.size_lt_voteQuorum (h : Odd g.size ∨ g.size = 2) : g.size < 2 * g.voteQuorum := by
  unfold Group.voteQuorum
  rcases h with ⟨k, hk⟩ | h2
  · omega
  · omega

/-! ## Runs

A leader of an earlier moment is in the world's list of leaders for good, so two leaders of
different moments can be compared at the end. -/

theorem led_step {x : Uuid} {t : Nat} (h : (x, t) ∈ w.led) (ev : Event) :
    (x, t) ∈ (g.step w ev).led := by
  have act : ∀ (w' : World) (y : Uuid) (r : RaftNode × List RaftMessage),
      w'.led = w.led → (x, t) ∈ (w'.act y r).led := by
    intro w' y r hled
    exact mem_led_act.mpr (Or.inl (hled ▸ h))
  cases ev with
  | tick y rand =>
    simp only [Group.step]
    split
    · exact act w y _ rfl
    · exact h
  | propose y cmd =>
    simp only [Group.step]
    split
    · exact act w y _ rfl
    · exact h
  | apply y =>
    simp only [Group.step]
    split
    · exact act w y _ rfl
    · exact h
  | deliver k rand stray =>
    simp only [Group.step]
    cases w.sent[k]? with
    | none => exact h
    | some e =>
      refine act (w.tally e) e.dst _ ?_
      unfold World.tally
      split
      · split <;> rfl
      · rfl

theorem led_exec {x : Uuid} {t : Nat} (evs : List Event) (h : (x, t) ∈ w.led) :
    (x, t) ∈ (g.exec w evs).led :=
  Run.keeps_exec (I := fun w : World => (x, t) ∈ w.led) (fun _ ev hw => led_step hw ev) evs h

/-- Only the votes are known to be genuine. -/
def Care.onlyVotes : Care := ⟨True, False, False, False⟩

theorem meets_none (evs : List Event) (w : World) : Run.Along g.step Care.none.Meets w evs :=
  Run.along_of_forall (fun _ _ => ⟨False.elim, False.elim, False.elim, False.elim⟩) evs w

theorem terms_exec (hsize : 2 ≤ g.size) (rand : Uuid → Nat) (evs : List Event) :
    Terms g (g.exec (g.start rand) evs) :=
  (exec_invariant hsize (terms_start hsize rand) (fun _ _ _ hm h => terms_move hm h)
    (meets_none evs _)).2

/-- **Election safety.** In a group of odd size or of two, in every run in which the candidates
count only genuine votes, no term ever has two leaders.

A leader has an electorate, of different voters that granted it their votes (`Ballots`), and a voter
grants one vote in a term (`Terms.once`). In a group of this size two electorates have a voter in
common, so two leaders of one term are one node. The condition is needed because a candidate also
counts a vote of an earlier term, and counts it as often as it comes (`delayedVote_two_leaders`). -/
theorem election_safety (g : Group) (hsize : 2 ≤ g.size) (hodd : Odd g.size ∨ g.size = 2)
    (rand : Uuid → Nat) (evs : List Event)
    (hvotes : Run.Along g.step (AtDelivery World.GenuineVote) (g.start rand) evs)
    (evs₁ evs₂ : List Event) (h₁ : evs₁ <+: evs) (h₂ : evs₂ <+: evs) (a b : Uuid)
    (ha : a ∈ g.members) (hb : b ∈ g.members)
    (hla : ((g.exec (g.start rand) evs₁).node a).state = .leader)
    (hlb : ((g.exec (g.start rand) evs₂).node b).state = .leader)
    (hterm : ((g.exec (g.start rand) evs₁).node a).currentTerm
      = ((g.exec (g.start rand) evs₂).node b).currentTerm) : a = b := by
  have hmeets : Run.Along g.step Care.onlyVotes.Meets (g.start rand) evs :=
    hvotes.imp fun w ev hv => ⟨fun _ => hv, False.elim, False.elim, False.elim⟩
  obtain ⟨hstatic, hterms, hballots⟩ := exec_invariant (I := fun w => Terms g w ∧ Ballots g w) hsize
    ⟨terms_start hsize rand, ballots_start hsize rand⟩
    (fun w w' hw hm h => ⟨terms_move hm h.1, ballots_move trivial hw h.1 hm h.2⟩) hmeets
  have hunique := singleLeader_of_ballots hstatic.toWired hterms hballots.toCast
    (Group.size_lt_voteQuorum hodd)
  obtain ⟨rest₁, rfl⟩ := h₁
  obtain ⟨rest₂, hrest₂⟩ := h₂
  refine hunique a b ((g.exec (g.start rand) evs₁).node a).currentTerm ?_ ?_
  · have hseat := (terms_exec hsize rand evs₁).seat a ha hla
    have := led_exec (g := g) rest₁ hseat
    rwa [Group.exec, Group.exec, ← Run.exec_append] at this
  · have hseat := (terms_exec hsize rand evs₂).seat b hb hlb
    have := led_exec (g := g) rest₂ hseat
    rw [Group.exec, Group.exec, ← Run.exec_append, hrest₂] at this
    rwa [hterm]

/-- Three nodes. -/
def trio : Group := ⟨0, [1, 2, 3], by decide⟩

/-- The clock of `x` ticks `k` times. -/
def ticks (x : Uuid) (k : Nat) : List Event := List.replicate k (.tick x 0)

/-- Node 3 times out, asks, and gets the vote of node 2. -/
def oneElection : List Event :=
  ticks 3 150 ++ [.deliver 1 0 0, .deliver 2 0 0]

theorem election_safety_trio :
    ((trio.exec (trio.start fun _ => 0) oneElection).node 3).state = .leader ∧
    ∀ b ∈ trio.members, ((trio.exec (trio.start fun _ => 0) oneElection).node b).state = .leader →
      ((trio.exec (trio.start fun _ => 0) oneElection).node 3).currentTerm
        = ((trio.exec (trio.start fun _ => 0) oneElection).node b).currentTerm → 3 = b := by
  have hlead : ((trio.exec (trio.start fun _ => 0) oneElection).node 3).state = .leader := by
    decide +kernel
  refine ⟨hlead, fun b hb hlb hterm => ?_⟩
  exact election_safety trio (by decide) (Or.inl (by decide)) (fun _ => 0) oneElection
    (by decide +kernel) oneElection oneElection (List.prefix_refl _) (List.prefix_refl _) 3 b
    (by decide) hb hlead hlb hterm

/-- Node 3 gets the vote of node 2 for term 1, but is in term 2 when it hears of it; by then
node 1 leads term 2 with the vote of node 2 for term 2. -/
def delayedVote : List Event :=
  ticks 3 150 ++ [.deliver 1 0 0] ++ ticks 3 150 ++
    ticks 1 300 ++ [.deliver 7 0 0, .deliver 9 0 0, .deliver 2 0 0]

set_option maxRecDepth 4000 in
theorem delayedVote_two_leaders :
    ((trio.exec (trio.start fun _ => 0) delayedVote).node 1).state = .leader ∧
    ((trio.exec (trio.start fun _ => 0) delayedVote).node 3).state = .leader ∧
    ((trio.exec (trio.start fun _ => 0) delayedVote).node 1).currentTerm
      = ((trio.exec (trio.start fun _ => 0) delayedVote).node 3).currentTerm := by
  decide +kernel

end Raft
end KvJet
