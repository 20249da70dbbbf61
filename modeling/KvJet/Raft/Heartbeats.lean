import KvJet.Raft.Election
import KvJet.Raft.Solo

/-!
# A leader that is heard

A member asks for votes when its election timer has run down, and every `AppendEntries` of the
current term puts the timer back to `ELECTION_TIMEOUT_MIN` ticks at least. So a leader that each
other member hears of once in less than that many of its own ticks is never deposed
(`heard_leader_stays`): no member's term goes beyond the leader's, and nobody asks for a vote. The
fields of messages are delivered as they were sent.
-/

namespace KvJet
namespace Raft

/-- The term in the text of a message. -/
def Payload.term : Payload → Nat
  | .appendEntries term _ _ _ _ | .appendEntriesReply term _ _ | .requestVote term _ _
  | .requestVoteReply term _ => term

def Payload.AsksVote : Payload → Prop
  | .requestVote .. => True
  | .appendEntries .. | .appendEntriesReply .. | .requestVoteReply .. => False

namespace RaftNode

/-- What a member does as long as nobody goes beyond the term `T`. -/
structure Within (T : Nat) (n : RaftNode) (r : RaftNode × List RaftMessage) : Prop where
  term : r.1.currentTerm ≤ T
  leads : n.state = .leader → n.currentTerm = T → r.1.state = .leader ∧ r.1.currentTerm = T
  timer : r.1.electionTimer = n.electionTimer ∨ electionTimeoutMin ≤ r.1.electionTimer
  sent : ∀ m ∈ r.2, m.payload.term ≤ T ∧ ¬ m.payload.AsksVote

variable {T : Nat} {n : RaftNode} {fromPeer : Uuid} {term rand : Nat}

theorem le_timer_resetElectionTimer (n : RaftNode) (rand : Nat) :
    (electionTimeoutMin : Int) ≤ (n.resetElectionTimer rand).electionTimer := by
  unfold resetElectionTimer
  exact Int.le_add_of_nonneg_right (Int.natCast_nonneg _)

theorem mem_sendAppendEntries_term {peer : Uuid} {m : RaftMessage}
    (hm : m ∈ n.sendAppendEntries peer) :
    m.payload.term = n.currentTerm ∧ ¬ m.payload.AsksVote := by
  unfold sendAppendEntries at hm
  dsimp only at hm
  split at hm
  · exact absurd hm (by simp)
  · rw [List.mem_singleton] at hm
    rw [hm]
    exact ⟨rfl, fun h => h⟩

theorem mem_broadcast_term {m : RaftMessage} (hm : m ∈ n.peers.flatMap n.sendAppendEntries) :
    m.payload.term = n.currentTerm ∧ ¬ m.payload.AsksVote := by
  obtain ⟨peer, -, hm⟩ := List.mem_flatMap.mp hm
  exact mem_sendAppendEntries_term hm

/-! ## The handlers -/

theorem appendLoop_timer (term : Nat) : ∀ (cmds : List Bytes) (idx : Nat) (s : RaftNode × Bool),
    (appendLoop term idx cmds s).1.electionTimer = s.1.electionTimer := by
  intro cmds
  induction cmds with
  | nil => intro idx s; rfl
  | cons cmd cmds ih =>
    intro idx ⟨n, truncated⟩
    unfold appendLoop
    rw [ih]
    dsimp only
    split <;> split <;> rfl

theorem appendEntries_timer (n : RaftNode) (term prevIdx : Nat) (cmds : List Bytes) :
    (n.appendEntries term prevIdx cmds).electionTimer = n.electionTimer := by
  have h := appendLoop_timer term cmds (prevIdx + 1) (n, false)
  unfold appendEntries
  dsimp only
  split
  · exact h
  · exact h

/-- The entries change neither the term nor the timer. -/
theorem receiveEntries_within (n : RaftNode) (fromPeer : Uuid)
    (term prevIdx prevTerm leaderCommit : Nat) (cmds : List Bytes) :
    let r := n.receiveEntries fromPeer term prevIdx prevTerm leaderCommit cmds
    r.1.currentTerm = n.currentTerm ∧ r.1.state = n.state ∧ r.1.electionTimer = n.electionTimer ∧
      ∀ m ∈ r.2, m.payload.term = n.currentTerm ∧ ¬ m.payload.AsksVote := by
  have hsame := appendEntries_same n term prevIdx cmds
  have htimer := appendEntries_timer n term prevIdx cmds
  intro r
  dsimp only [r]
  unfold receiveEntries
  split
  · refine ⟨rfl, rfl, rfl, fun m hm => ?_⟩
    rw [List.mem_singleton.mp hm]
    exact ⟨rfl, fun h => h⟩
  · dsimp only
    split <;> refine ⟨hsame.currentTerm, hsame.state, htimer, fun m hm => ?_⟩ <;>
      rw [List.mem_singleton.mp hm] <;> exact ⟨hsame.currentTerm, fun h => h⟩

theorem within_of_reset (n n' : RaftNode) (fromPeer : Uuid) (term rand : Nat)
    (hn : n'.currentTerm ≤ T)
    (hleads : n.state = .leader → n.currentTerm = T → n'.state = .leader ∧ n'.currentTerm = T)
    (prevIdx prevTerm leaderCommit : Nat) (cmds : List Bytes) :
    let r := (n'.resetElectionTimer rand).receiveEntries fromPeer term prevIdx prevTerm leaderCommit
      cmds
    Within T n r ∧ electionTimeoutMin ≤ r.1.electionTimer := by
  obtain ⟨hterm, hstate, htimer, hsent⟩ := receiveEntries_within (n'.resetElectionTimer rand)
    fromPeer term prevIdx prevTerm leaderCommit cmds
  have hmin := le_timer_resetElectionTimer n' rand
  rw [← htimer] at hmin
  refine ⟨⟨hterm ▸ hn, fun hst ht => ?_, Or.inr hmin, fun m hm => ?_⟩, hmin⟩
  · obtain ⟨hst', ht'⟩ := hleads hst ht
    exact ⟨hstate.trans hst', hterm.trans ht'⟩
  · obtain ⟨hm', hasks⟩ := hsent m hm
    rw [hm']
    exact ⟨hn, hasks⟩

/-- One that hears the leader of `T` has its timer put back. -/
theorem handleAppendEntries_within (hn : n.currentTerm ≤ T) (hterm : term ≤ T)
    (fromPeer : Uuid) (rand prevIdx prevTerm leaderCommit : Nat) (cmds : List Bytes) :
    let r := n.handleAppendEntries fromPeer term prevIdx prevTerm leaderCommit cmds rand
    Within T n r ∧ (term = T → electionTimeoutMin ≤ r.1.electionTimer) := by
  intro r
  dsimp only [r]
  unfold handleAppendEntries
  split
  · rename_i hold
    refine ⟨⟨hn, fun hst ht => ⟨hst, ht⟩, Or.inl rfl, fun m hm => ?_⟩, fun ht => by omega⟩
    rw [List.mem_singleton.mp hm]
    exact ⟨hn, fun h => h⟩
  · dsimp only
    split
    · rename_i hnew hdown
      obtain ⟨hwithin, hmin⟩ := within_of_reset n (n.becomeFollower term rand) fromPeer term rand
        hterm (fun hst ht => by
          rcases hdown with hgt | hcand
          · omega
          · rw [hst] at hcand
            cases hcand) prevIdx prevTerm leaderCommit cmds
      exact ⟨hwithin, fun _ => hmin⟩
    · obtain ⟨hwithin, hmin⟩ := within_of_reset n n fromPeer term rand hn
        (fun hst ht => ⟨hst, ht⟩) prevIdx prevTerm leaderCommit cmds
      exact ⟨hwithin, fun _ => hmin⟩

theorem becomeFollower_within (hterm : term ≤ T) (hnot : n.state = .leader → n.currentTerm ≠ T) :
    Within T n (n.becomeFollower term rand, []) :=
  ⟨hterm, fun hst ht => absurd ht (hnot hst), Or.inr (le_timer_resetElectionTimer _ rand),
    fun m hm => absurd hm (by simp)⟩

/-- A step that leaves term, role and timer alone. -/
theorem within_of_same {n' : RaftNode} {ms : List RaftMessage} (hn : n.currentTerm ≤ T)
    (hterm : n'.currentTerm = n.currentTerm) (hstate : n'.state = n.state)
    (htimer : n'.electionTimer = n.electionTimer)
    (hms : ∀ m ∈ ms, m.payload.term = n.currentTerm ∧ ¬ m.payload.AsksVote) :
    Within T n (n', ms) := by
  refine ⟨hterm ▸ hn, fun hst ht => ⟨hstate.trans hst, hterm.trans ht⟩, Or.inl htimer,
    fun m hm => ?_⟩
  obtain ⟨hm', hasks⟩ := hms m hm
  rw [hm']
  exact ⟨hn, hasks⟩

theorem handleAppendEntriesReply_within (hn : n.currentTerm ≤ T) (hterm : term ≤ T)
    (success : Bool) (matchIdx stray : Nat) :
    Within T n (n.handleAppendEntriesReply fromPeer term success matchIdx rand stray) := by
  unfold handleAppendEntriesReply
  split
  · exact within_of_same hn rfl rfl rfl (by simp)
  · split
    · exact becomeFollower_within hterm (fun _ ht => by omega)
    · dsimp only
      split
      · exact within_of_same hn rfl rfl rfl (by simp)
      · split
        · unfold advanceCommitIndex
          dsimp only
          split <;> exact within_of_same hn rfl rfl rfl (by simp)
        · split
          · refine within_of_same hn rfl rfl rfl fun m hm => ?_
            have hm' := mem_sendAppendEntries_term hm
            exact hm'
          · exact within_of_same hn rfl rfl rfl fun m hm => mem_sendAppendEntries_term hm

theorem considerVote_within {n' : RaftNode} (hn : n'.currentTerm ≤ T)
    (hleads : n.state = .leader → n.currentTerm = T → n'.state = .leader ∧ n'.currentTerm = T)
    (htimer : n'.electionTimer = n.electionTimer ∨ electionTimeoutMin ≤ n'.electionTimer)
    (lastIdx lastTerm : Nat) : Within T n (n'.considerVote fromPeer lastIdx lastTerm rand) := by
  unfold considerVote
  split
  · refine ⟨hn, hleads, Or.inr (le_timer_resetElectionTimer _ rand), fun m hm => ?_⟩
    rw [List.mem_singleton.mp hm]
    exact ⟨hn, fun h => h⟩
  · refine ⟨hn, hleads, htimer, fun m hm => ?_⟩
    rw [List.mem_singleton.mp hm]
    exact ⟨hn, fun h => h⟩

theorem handleRequestVote_within (hn : n.currentTerm ≤ T) (hterm : term ≤ T)
    (lastIdx lastTerm : Nat) :
    Within T n (n.handleRequestVote fromPeer term lastIdx lastTerm rand) := by
  unfold handleRequestVote
  split
  · refine within_of_same hn rfl rfl rfl fun m hm => ?_
    rw [List.mem_singleton.mp hm]
    exact ⟨rfl, fun h => h⟩
  · dsimp only
    split
    · rename_i hgt
      refine considerVote_within hterm (fun _ ht => by omega) ?_ lastIdx lastTerm
      exact Or.inr (le_timer_resetElectionTimer _ rand)
    · exact considerVote_within hn (fun hst ht => ⟨hst, ht⟩) (Or.inl rfl) lastIdx lastTerm

theorem handleRequestVoteReply_within (hn : n.currentTerm ≤ T) (hterm : term ≤ T)
    (granted : Bool) : Within T n (n.handleRequestVoteReply term granted rand, []) := by
  unfold handleRequestVoteReply
  split
  · exact within_of_same hn rfl rfl rfl (by simp)
  · rename_i hcand
    have hnot : n.state ≠ .leader := by
      rw [not_not.mp hcand]
      simp
    split
    · exact becomeFollower_within hterm (fun hst => absurd hst hnot)
    · split
      · dsimp only
        split
        · exact ⟨hn, fun hst => absurd hst hnot, Or.inl rfl, fun m hm => absurd hm (by simp)⟩
        · exact within_of_same hn rfl rfl rfl (by simp)
      · exact within_of_same hn rfl rfl rfl (by simp)

theorem step_within {payload : Payload} (hn : n.currentTerm ≤ T) (hterm : payload.term ≤ T)
    (fromPeer : Uuid) (rand stray : Nat) : Within T n (n.step fromPeer payload rand stray) := by
  cases payload with
  | appendEntries term prevIdx prevTerm leaderCommit cmds =>
    exact (handleAppendEntries_within hn hterm fromPeer rand prevIdx prevTerm leaderCommit cmds).1
  | appendEntriesReply term success matchIdx =>
    exact handleAppendEntriesReply_within hn hterm success matchIdx stray
  | requestVote term lastIdx lastTerm => exact handleRequestVote_within hn hterm lastIdx lastTerm
  | requestVoteReply term granted => exact handleRequestVoteReply_within hn hterm granted

theorem propose_within (hn : n.currentTerm ≤ T) (cmd : Bytes) : Within T n (n.propose cmd) := by
  unfold propose
  split
  · exact within_of_same hn rfl rfl rfl (by simp)
  · dsimp only
    split
    all_goals
      refine within_of_same hn rfl rfl rfl fun m hm => ?_
      have hm' := mem_broadcast_term hm
      exact hm'

/-- A tick that does not run the election timer down. -/
theorem tick_within (hn : n.currentTerm ≤ T) (hlive : n.state = .leader ∨ 1 < n.electionTimer)
    (rand : Nat) : (n.tick rand).1.currentTerm = n.currentTerm ∧
      (n.tick rand).1.state = n.state ∧ n.electionTimer ≤ (n.tick rand).1.electionTimer + 1 ∧
      ∀ m ∈ (n.tick rand).2, m.payload.term ≤ T ∧ ¬ m.payload.AsksVote := by
  unfold tick
  dsimp only
  split
  · split
    · refine ⟨rfl, rfl, by simp [record], fun m hm => ?_⟩
      obtain ⟨hm', hasks⟩ := mem_broadcast_term hm
      rw [hm']
      exact ⟨hn, hasks⟩
    · exact ⟨rfl, rfl, by simp [record], by simp⟩
  · rename_i hfollows
    have hlive' : 1 < n.electionTimer := hlive.resolve_left hfollows
    split
    · rename_i hdue
      simp only [record] at hdue
      omega
    · exact ⟨rfl, rfl, by simp [record], by simp⟩

end RaftNode

/-! ## A run that is watched -/

/-- The group comes to this world. -/
def Group.Reaches (g : Group) (w : World) : Prop :=
  ∃ (rand : Uuid → Nat) (evs : List Event), w = g.exec (g.start rand) evs

theorem Group.Reaches.step {g : Group} {w : World} (h : g.Reaches w) (ev : Event) :
    g.Reaches (g.step w ev) := by
  obtain ⟨rand, evs, rfl⟩ := h
  exact ⟨rand, evs ++ [ev], (Run.exec_append g.step _ evs [ev]).symm⟩

/-- Messages go to members. -/
theorem Group.Reaches.addressed {g : Group} {w : World} (h : g.Reaches w) :
    ∀ e ∈ w.sent, e.dst ∈ g.members := by
  obtain ⟨rand, evs, rfl⟩ := h
  by_cases hsize : 2 ≤ g.size
  · have hstatic : Static g (g.exec (g.start rand) evs) :=
      Run.keeps_exec (I := Static g) (fun _ ev hs => static_step hs hsize ev) evs (static_start rand)
    exact fun e he => (hstatic.wire e he).1
  · intro e he
    rw [((alone_start hsize rand).exec evs).sent] at he
    exact absurd he (by simp)

/-- A run of the group, with the ticks of each member since it last took in the leader's word. -/
structure Watch where
  world : World
  idle : Uuid → Nat

namespace Watch

variable (g : Group) (x : Uuid) (T : Nat)

def step (s : Watch) (ev : Event) : Watch where
  world := g.step s.world ev
  idle := match ev with
    | .tick y _ => Function.update s.idle y (s.idle y + 1)
    | .deliver k _ _ =>
      match s.world.sent[k]? with
      | some e =>
        match e.payload with
        | .appendEntries term _ _ _ _ =>
          if e.src = x ∧ term = T then Function.update s.idle e.dst 0 else s.idle
        | .appendEntriesReply .. | .requestVote .. | .requestVoteReply .. => s.idle
      | none => s.idle
    | .propose _ _ | .apply _ => s.idle

/-- A member's clock has not ticked too often since it heard of the leader. -/
def InTime (s : Watch) : Event → Prop
  | .tick y _ => y ∈ g.members → y ≠ x → s.idle y + 1 < RaftNode.electionTimeoutMin
  | .deliver .. | .propose .. | .apply _ => True

instance (s : Watch) : DecidablePred (InTime g x s)
  | .tick .. => inferInstanceAs (Decidable (_ → _ → _))
  | .deliver .. | .propose .. | .apply _ => inferInstanceAs (Decidable True)

/-- `x` leads the term `T`, and nobody is beyond it. -/
structure Ruled (w₀ : World) (s : Watch) : Prop where
  reached : g.Reaches s.world
  leads : (s.world.node x).state = .leader ∧ (s.world.node x).currentTerm = T
  terms : ∀ y ∈ g.members, (s.world.node y).currentTerm ≤ T
  sent : ∀ e ∈ s.world.sent, e.payload.term ≤ T ∧ (e.payload.AsksVote → e ∈ w₀.sent)
  timers : ∀ y ∈ g.members, y ≠ x →
    (RaftNode.electionTimeoutMin : Int) ≤ (s.world.node y).electionTimer + s.idle y

variable {g x T} {w₀ : World} {s : Watch}

theorem world_exec (s : Watch) (evs : List Event) :
    (Run.exec (step g x T) s evs).world = g.exec s.world evs := by
  induction evs generalizing s with
  | nil => rfl
  | cons ev evs ih => exact ih (step g x T s ev)

/-- A member has taken a step within the term. -/
theorem Ruled.act (h : Ruled g x T w₀ s) {y : Uuid} {r : RaftNode × List RaftMessage}
    {c : List (Uuid × Nat × Uuid)} {idle : Uuid → Nat}
    (hreached : g.Reaches (({ s.world with counted := c } : World).act y r))
    (hterm : r.1.currentTerm ≤ T)
    (hleads : y = x → r.1.state = .leader ∧ r.1.currentTerm = T)
    (hsent : ∀ m ∈ r.2, m.payload.term ≤ T ∧ ¬ m.payload.AsksVote)
    (htimer : y ∈ g.members → y ≠ x →
      (RaftNode.electionTimeoutMin : Int) ≤ r.1.electionTimer + idle y)
    (hidle : ∀ z, z ≠ y → idle z = s.idle z) :
    Ruled g x T w₀ ⟨({ s.world with counted := c } : World).act y r, idle⟩ := by
  refine ⟨hreached, ?_, fun z hz => ?_, fun e he => ?_, fun z hz hzx => ?_⟩
  · rw [World.act_node_apply]
    split
    · rename_i hxy
      exact hleads hxy.symm
    · exact h.leads
  · rw [World.act_node_apply]
    split
    · exact hterm
    · exact h.terms z hz
  · rw [World.act_sent] at he
    rcases List.mem_append.mp he with hold | hnew
    · exact h.sent e hold
    · obtain ⟨m, hm, rfl⟩ := List.mem_map.mp hnew
      obtain ⟨hm', hasks⟩ := hsent m hm
      exact ⟨hm', fun h => absurd h hasks⟩
  · rw [World.act_node_apply]
    split
    · rename_i hzy
      subst hzy
      exact htimer hz hzx
    · rename_i hzy
      dsimp only
      rw [hidle z hzy]
      exact h.timers z hz hzx

/-- The same for what a handler does. -/
theorem Ruled.within (h : Ruled g x T w₀ s) {y : Uuid} {r : RaftNode × List RaftMessage}
    {c : List (Uuid × Nat × Uuid)}
    (hreached : g.Reaches (({ s.world with counted := c } : World).act y r))
    (hr : RaftNode.Within T (s.world.node y) r) :
    Ruled g x T w₀ ⟨({ s.world with counted := c } : World).act y r, s.idle⟩ := by
  refine h.act hreached hr.term (fun hyx => ?_) hr.sent (fun hy hyx => ?_) (fun _ _ => rfl)
  · subst hyx
    exact hr.leads h.leads.1 h.leads.2
  · have htimers := h.timers y hy hyx
    rcases hr.timer with hsame | hmin
    · rw [hsame]
      exact htimers
    · exact Int.le_trans hmin (Int.le_add_of_nonneg_right (Int.natCast_nonneg _))

theorem exists_tally (w : World) (e : Envelope) :
    ∃ counted, w.tally e = { w with counted } := by
  unfold World.tally
  split
  · split
    · exact ⟨_, rfl⟩
    · exact ⟨w.counted, rfl⟩
  · exact ⟨w.counted, rfl⟩

theorem Ruled.deliver (h : Ruled g x T w₀ s) (k rand stray : Nat) :
    Ruled g x T w₀ (step g x T s (.deliver k rand stray)) := by
  have hreached := h.reached.step (.deliver k rand stray)
  simp only [step, Group.step] at hreached ⊢
  cases hk : s.world.sent[k]? with
  | none => exact h
  | some e =>
    have he := List.mem_of_getElem? hk
    have hmember := h.reached.addressed e he
    have hterm := (h.sent e he).1
    obtain ⟨counted, htally⟩ := exists_tally s.world e
    have hwithin := RaftNode.step_within (h.terms e.dst hmember) hterm e.src rand stray
    rw [hk] at hreached
    dsimp only at hreached ⊢
    rw [htally] at hreached ⊢
    cases hp : e.payload with
    | appendEntries term prevIdx prevTerm leaderCommit cmds =>
      rw [hp] at hreached hterm hwithin
      dsimp only
      split
      · -- the member hears the leader
        rename_i hheard
        have hreset := (RaftNode.handleAppendEntries_within (h.terms e.dst hmember) hterm e.src rand
          prevIdx prevTerm leaderCommit cmds).2 hheard.2
        refine h.act hreached hwithin.term (fun hx => ?_) hwithin.sent (fun _ _ => ?_) (fun z hz => ?_)
        · subst hx
          exact hwithin.leads h.leads.1 h.leads.2
        · rw [Function.update_self]
          exact Int.le_trans hreset (Int.le_add_of_nonneg_right (Int.natCast_nonneg _))
        · exact Function.update_of_ne hz _ _
      · exact h.within hreached hwithin
    | appendEntriesReply term success matchIdx =>
      rw [hp] at hreached hwithin
      exact h.within hreached hwithin
    | requestVote term lastIdx lastTerm =>
      rw [hp] at hreached hwithin
      exact h.within hreached hwithin
    | requestVoteReply term granted =>
      rw [hp] at hreached hwithin
      exact h.within hreached hwithin

theorem Ruled.tick (h : Ruled g x T w₀ s) {y : Uuid} {rand : Nat}
    (hintime : s.InTime g x (.tick y rand)) : Ruled g x T w₀ (step g x T s (.tick y rand)) := by
  have hreached := h.reached.step (.tick y rand)
  simp only [step, Group.step] at hreached ⊢
  split
  · rename_i hy
    rw [if_pos hy] at hreached
    have hlive : (s.world.node y).state = .leader ∨ 1 < (s.world.node y).electionTimer := by
      rcases eq_or_ne y x with rfl | hyx
      · exact Or.inl h.leads.1
      · have htimer := h.timers y hy hyx
        have hidle := hintime hy hyx
        exact Or.inr (by omega)
    obtain ⟨hterm, hstate, htimer, hsent⟩ := RaftNode.tick_within (h.terms y hy) hlive rand
    refine h.act (c := s.world.counted) hreached (hterm ▸ h.terms y hy) (fun hyx => ?_) hsent
      (fun hy hyx => ?_) (fun z hz => Function.update_of_ne hz _ _)
    · subst hyx
      exact ⟨hstate.trans h.leads.1, hterm.trans h.leads.2⟩
    · have hbefore := h.timers y hy hyx
      rw [Function.update_self]
      omega
  · rename_i hy
    refine ⟨h.reached, h.leads, h.terms, h.sent, fun z hz hzx => ?_⟩
    have hzy : z ≠ y := fun heq => hy (heq ▸ hz)
    dsimp only
    rw [Function.update_of_ne hzy]
    exact h.timers z hz hzx

theorem Ruled.step (h : Ruled g x T w₀ s) {ev : Event} (hintime : s.InTime g x ev) :
    Ruled g x T w₀ (Watch.step g x T s ev) := by
  cases ev with
  | tick y rand => exact h.tick hintime
  | deliver k rand stray => exact h.deliver k rand stray
  | propose y cmd =>
    have hreached := h.reached.step (.propose y cmd)
    simp only [Watch.step, Group.step] at hreached ⊢
    split
    · rename_i hy
      rw [if_pos hy] at hreached
      exact h.within (c := s.world.counted) hreached
        (RaftNode.propose_within (h.terms y hy) cmd)
    · exact h
  | apply y =>
    have hreached := h.reached.step (.apply y)
    simp only [Watch.step, Group.step] at hreached ⊢
    split
    · rename_i hy
      rw [if_pos hy] at hreached
      have hwithin : RaftNode.Within T (s.world.node y) ((s.world.node y).takePendingApply.1, []) :=
        RaftNode.within_of_same (h.terms y hy) rfl rfl rfl (by simp)
      refine ⟨hreached, ?_, fun z hz => ?_, fun e he => ?_, fun z hz hzx => ?_⟩
      · dsimp only
        rw [World.act_node_apply]
        split
        · rename_i hxy
          subst hxy
          exact hwithin.leads h.leads.1 h.leads.2
        · exact h.leads
      · dsimp only
        rw [World.act_node_apply]
        split
        · exact hwithin.term
        · exact h.terms z hz
      · dsimp only at he
        rw [World.act_sent, List.map_nil, List.append_nil] at he
        exact h.sent e he
      · dsimp only
        rw [World.act_node_apply]
        split
        · rename_i hzy
          subst hzy
          exact h.timers z hz hzx
        · exact h.timers z hz hzx
    · exact h

end Watch

/-- **A leader that is heard stays.** In any reachable world: member `x` leads the term `T`, no
member and no message on its way is beyond `T`, and no other member's election timer is further down
than the ticks since it last heard of the leader. Then along every run in which each other member
takes in an `AppendEntries` of `x` at least once in less than `ELECTION_TIMEOUT_MIN` of its ticks,
with any delay, loss and duplication of all other messages, and the fields of each as sent: `x` goes
on to lead `T`, no member goes beyond `T`, and nobody asks for a vote.

A term grows only where a timer runs down or a message has a newer one. There is no newer one as long
as no timer runs down, and none does: what a timer has lost since it was last put back is at most the
ticks since then. -/
theorem heard_leader_stays (g : Group) (rand : Uuid → Nat) (before : List Event) (x : Uuid) (T : Nat)
    (idle : Uuid → Nat) (evs : List Event) :
    let w := g.exec (g.start rand) before
    let w' := g.exec w evs
    (w.node x).state = .leader ∧ (w.node x).currentTerm = T →
    (∀ y ∈ g.members, (w.node y).currentTerm ≤ T) → (∀ e ∈ w.sent, e.payload.term ≤ T) →
    (∀ y ∈ g.members, y ≠ x →
      (RaftNode.electionTimeoutMin : Int) ≤ (w.node y).electionTimer + idle y) →
    Run.Along (Watch.step g x T) (Watch.InTime g x) ⟨w, idle⟩ evs →
    ((w'.node x).state = .leader ∧ (w'.node x).currentTerm = T) ∧
      (∀ y ∈ g.members, (w'.node y).currentTerm ≤ T) ∧
      ∀ e ∈ w'.sent, e.payload.AsksVote → e ∈ w.sent := by
  intro w w' hleads hterms hsent htimers hintime
  have hstart : Watch.Ruled g x T w ⟨w, idle⟩ :=
    ⟨⟨rand, before, rfl⟩, hleads, hterms, fun e he => ⟨hsent e he, fun _ => he⟩, htimers⟩
  have h := Run.Along.invariant (fun _ _ hev h => Watch.Ruled.step h hev) hintime hstart
  have hworld : (Run.exec (Watch.step g x T) ⟨w, idle⟩ evs).world = w' := Watch.world_exec _ evs
  rw [← hworld]
  exact ⟨h.leads, h.terms, fun e he => (h.sent e he).2⟩

/-- Node 3 has won its election, and the others have heard of it. -/
def heardOnce : List Event := oneElection ++ [.tick 3 0, .deliver 3 0 0, .deliver 4 0 0]

/-- The clock of node 1 ticks 200 times, and the next heartbeat comes in between. -/
def heardAgain : List Event :=
  ticks 1 100 ++ ticks 3 50 ++ [.deliver 7 0 0] ++ ticks 1 100 ++ [.propose 3 [97], .deliver 9 0 0]

set_option maxRecDepth 8000 in
theorem heardAgain_stays :
    let w' := trio.exec (trio.exec (trio.start fun _ => 0) heardOnce) heardAgain
    (w'.node 3).state = .leader ∧ (w'.node 3).currentTerm = 1 := by
  have hstays := heard_leader_stays trio (fun _ => 0) heardOnce 3 1 (fun _ => 0) heardAgain
    (by decide +kernel) (List.forall_iff_forall_mem.mp (by decide +kernel))
    (List.forall_iff_forall_mem.mp (by decide +kernel))
    (List.forall_iff_forall_mem.mp (by decide +kernel)) (by decide +kernel)
  exact hstays.1

end Raft
end KvJet
