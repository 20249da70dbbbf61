import KvJet.Raft.CommittedPrefix
import KvJet.Raft.Threads

/-!
# What a success reply promises

A leader counts on a success reply for two things: the follower has the leader's commands up to
the reported index, and it keeps them while the term lasts. The first fails where the follower
reports an old tail behind what the message looked at, the second where an older message of the
same leader cuts off what a newer one brought. Where neither happens, both hold
(`success_reply_trusted`).

The log of the leader that the follower agrees with is one it had after it had sent the message
(`ledger_seen`).
-/

namespace KvJet
namespace Raft

variable {g : Group} {c : Care} {w w' : World}

/-! ## The leader's log -/

/-- One node has acted; votes counted and commands handed out may have been written down. -/
structure Acted (w w' : World) : Prop where
  sent : w.sent <+: w'.sent
  fresh : ∀ (k : Nat) (e : Envelope), w.sent[k]? = none → w'.sent[k]? = some e → ∀ term ∈ e.payload.replicates,
    (w'.node e.src).state = .leader ∧ (w'.node e.src).currentTerm = term ∧
      w'.ledger term = (w'.node e.src).log
  ledger : ∀ t, w'.ledger t = w.ledger t ∨ ∃ x, (x, t) ∈ w'.led ∧
    (w'.node x).state = .leader ∧ (w'.node x).currentTerm = t ∧ w'.ledger t = (w'.node x).log

theorem acted_act {x : Uuid} {r : RaftNode × List RaftMessage} (h : SentByLeader r.1 r.2) :
    Acted w (w.act x r) := by
  have hself : (w.act x r).node x = r.1 := by simp
  have hbook : r.1.state = .leader → (w.act x r).ledger r.1.currentTerm = r.1.log := by
    intro hl
    rw [World.act_ledger hl]
    exact Function.update_self ..
  refine ⟨by rw [World.act_sent]; exact List.prefix_append _ _, ?_, fun t => ?_⟩
  · intro k e hnone hsome term hterm
    rw [World.act_sent, List.getElem?_append_right (List.getElem?_eq_none_iff.mp hnone)] at hsome
    obtain ⟨m, hm, rfl⟩ := List.mem_map.mp (List.mem_of_getElem? hsome)
    obtain ⟨hl, ht⟩ := h m hm term hterm
    dsimp only
    rw [hself, ← ht]
    exact ⟨hl, rfl, hbook hl⟩
  · by_cases hl : r.1.state = .leader ∧ r.1.currentTerm = t
    · refine Or.inr ⟨x, mem_led_act.mpr (Or.inr ⟨hl.1, rfl, hl.2.symm⟩), ?_⟩
      rw [hself, ← hl.2]
      exact ⟨hl.1, rfl, hbook hl.1⟩
    · left
      by_cases hst : r.1.state = .leader
      · rw [World.act_ledger hst]
        exact Function.update_of_ne (fun heq => hl ⟨hst, heq.symm⟩) ..
      · rw [World.act_ledger_of_ne hst]

theorem propose_sentByLeader (n : RaftNode) (cmd : Bytes) :
    SentByLeader (n.propose cmd).1 (n.propose cmd).2 := by
  unfold RaftNode.propose
  dsimp only
  split
  · exact .nil _
  · rename_i hst
    refine .of_term ?_ fun m hm => ?_
    · rw [← not_not.mp hst]
      split <;> rfl
    · obtain ⟨peer, -, hm⟩ := List.mem_flatMap.mp hm
      exact RaftNode.replicates_sendAppendEntries hm

theorem acted_step (ev : Event) : Acted w (g.step w ev) := by
  have hrefl : Acted w w :=
    ⟨List.prefix_refl _, fun k e hnone hsome => absurd (hnone.symm.trans hsome) (by simp),
      fun _ => Or.inl rfl⟩
  cases ev with
  | tick x rand =>
    simp only [Group.step]
    split
    · exact acted_act RaftNode.tick_sentByLeader
    · exact hrefl
  | propose x cmd =>
    simp only [Group.step]
    split
    · exact acted_act (propose_sentByLeader _ cmd)
    · exact hrefl
  | apply x =>
    simp only [Group.step]
    split
    · have h : Acted w (w.act x ((w.node x).takePendingApply.1, [])) := acted_act (.nil _)
      exact ⟨h.sent, h.fresh, h.ledger⟩
    · exact hrefl
  | deliver k rand stray =>
    simp only [Group.step]
    cases w.sent[k]? with
    | none => exact hrefl
    | some e =>
      have htally : (w.tally e).sent = w.sent ∧ (w.tally e).ledger = w.ledger := by
        unfold World.tally
        split
        · split <;> exact ⟨rfl, rfl⟩
        · exact ⟨rfl, rfl⟩
      have h : Acted (w.tally e) ((w.tally e).act e.dst
          ((w.node e.dst).step e.src e.payload rand stray)) :=
        acted_act (RaftNode.step_sentByLeader e.payload)
      have hsent := h.sent
      have hfresh := h.fresh
      have hledger := h.ledger
      rw [htally.1] at hsent hfresh
      rw [htally.2] at hledger
      exact ⟨hsent, hfresh, hledger⟩

theorem Ledgers.led_of_replicates (h : Ledgers g w) {e : Envelope} (he : e ∈ w.sent) {term : Nat}
    (hterm : term ∈ e.payload.replicates) : (e.src, term) ∈ w.led := by
  have hwire := h.wire e he
  unfold Books.WireOk at hwire
  cases hp : e.payload with
  | appendEntries t prevIdx prevTerm leaderCommit cmds =>
    rw [hp] at hwire hterm
    rw [← Option.some.inj hterm]
    exact hwire.1
  | appendEntriesReply t success matchIdx =>
    rw [hp] at hterm
    exact absurd hterm (by simp [Payload.replicates])
  | requestVote t lastIdx lastTerm =>
    rw [hp] at hterm
    exact absurd hterm (by simp [Payload.replicates])
  | requestVoteReply t granted =>
    rw [hp] at hterm
    exact absurd hterm (by simp [Payload.replicates])

/-- **The log of the leader of a term is one it had when a message of that term was sent, or
later.** -/
theorem ledger_seen (hsize : 2 ≤ g.size) (rand : Uuid → Nat) (evs : List Event)
    (hsingle : (g.exec (g.start rand) evs).SingleLeader) {k : Nat} {e : Envelope} {term : Nat}
    (he : (g.exec (g.start rand) evs).sent[k]? = some e) (hterm : term ∈ e.payload.replicates) :
    ∃ pre, pre <+: evs ∧ (g.exec (g.start rand) pre).sent[k]? = some e ∧
      ((g.exec (g.start rand) pre).node e.src).state = .leader ∧
      ((g.exec (g.start rand) pre).node e.src).currentTerm = term ∧
      ((g.exec (g.start rand) pre).node e.src).log
        = (g.exec (g.start rand) evs).ledger term := by
  induction evs using List.reverseRecOn with
  | nil => exact absurd he (by simp [Group.start])
  | append_singleton evs ev ih =>
    have hexec : g.exec (g.start rand) (evs ++ [ev]) = g.step (g.exec (g.start rand) evs) ev :=
      Run.exec_append ..
    have hacted := acted_step (g := g) (w := g.exec (g.start rand) evs) ev
    rw [← hexec] at hacted
    have hbefore : (g.exec (g.start rand) evs).SingleLeader :=
      hsingle.of_led fun p hp => by rw [hexec]; exact led_step hp ev
    cases hold : (g.exec (g.start rand) evs).sent[k]? with
    | none =>
      obtain ⟨hst, ht, hlog⟩ := hacted.fresh k e hold he term hterm
      exact ⟨evs ++ [ev], List.prefix_refl _, he, hst, ht, hlog.symm⟩
    | some e' =>
      have heq : e' = e := by
        obtain ⟨rest, hrest⟩ := hacted.sent
        rw [← hrest, List.getElem?_append_left (List.getElem?_eq_some_iff.mp hold).1, hold] at he
        exact Option.some.inj he
      rw [heq] at hold
      rcases hacted.ledger term with hsame | ⟨x, hled, hst, ht, hlog⟩
      · obtain ⟨pre, hpre, hrest⟩ := ih hbefore hold
        rw [hsame]
        exact ⟨pre, hpre.trans (List.prefix_append _ _), hrest⟩
      · -- the leader has written again
        have hx : x = e.src := hsingle _ _ _ hled
          ((ledgers_exec hsize rand _ hsingle).led_of_replicates (List.mem_of_getElem? he) hterm)
        rw [hx] at hst ht hlog
        exact ⟨evs ++ [ev], List.prefix_refl _, he, hst, ht, hlog.symm⟩

/-! ## The follower's word -/

/-- What a node has acknowledged it keeps, unless a later leader has taken it away. -/
def Pledged (g : Group) (w : World) : Prop :=
  ∀ v ∈ g.members, ∀ x t m, w.Replied v x t m → t ≤ (w.node v).currentTerm ∧
    w.books.Kept (w.node v).log t m (w.node v).currentTerm

section Act

variable {x : Uuid} {n' : RaftNode} {ms : List RaftMessage}

theorem Pledged.act (h : Pledged g w) (hvouched : Vouched w)
    (hvouched' : Vouched (w.act x (n', ms))) (hgrows : w.books.Grows (w.act x (n', ms)).books)
    (hterm : (w.node x).currentTerm ≤ n'.currentTerm)
    (hreplies : ∀ m ∈ ms, ∀ t i, m.payload = .appendEntriesReply t true i → t = n'.currentTerm)
    (hkept : ∀ t i, t ≤ (w.node x).currentTerm →
      w.books.Kept (w.node x).log t i (w.node x).currentTerm →
        w.books.Kept n'.log t i n'.currentTerm) : Pledged g (w.act x (n', ms)) := by
  intro v hv y t m ⟨e, he, hsrc, hdst, hp⟩
  rw [World.act_node_apply]
  rcases List.mem_append.mp (World.act_sent (w := w) ▸ he) with hold | hnew
  · have hled := (hvouched e hold t m hp).1
    obtain ⟨hle, hk⟩ := h v hv y t m ⟨e, hold, hsrc, hdst, hp⟩
    split
    · rename_i hvx
      rw [hvx] at hle hk
      exact ⟨Nat.le_trans hle hterm, (hkept t m hle hk).mono hgrows hled (Nat.le_refl _)⟩
    · exact ⟨hle, hk.mono hgrows hled (Nat.le_refl _)⟩
  · have hholds := (hvouched' e he t m hp).2.2
    obtain ⟨msg, hmsg, rfl⟩ := List.mem_map.mp hnew
    rw [if_pos hsrc.symm]
    exact ⟨Nat.le_of_eq (hreplies msg hmsg t m hp), Or.inl hholds⟩

theorem Pledged.act_safe (h : Pledged g w) (hvouched : Vouched w)
    (hvouched' : Vouched (w.act x (n', ms))) (hgrows : w.books.Grows (w.act x (n', ms)).books)
    (ha : SafeAction w x n' ms) : Pledged g (w.act x (n', ms)) :=
  h.act hvouched hvouched' hgrows ha.term ha.replies ha.kept

/-- An action that changes neither term nor log and acknowledges nothing. -/
theorem Pledged.act_same (h : Pledged g w) (hvouched : Vouched w)
    (hvouched' : Vouched (w.act x (n', ms))) (hgrows : w.books.Grows (w.act x (n', ms)).books)
    (hlog : n'.log = (w.node x).log) (hterm : n'.currentTerm = (w.node x).currentTerm)
    (hms : ∀ m ∈ ms, ∀ t i, m.payload ≠ .appendEntriesReply t true i) :
    Pledged g (w.act x (n', ms)) := by
  refine h.act hvouched hvouched' hgrows (Nat.le_of_eq hterm.symm)
    (fun m hm t i hp => absurd hp (hms m hm t i)) fun t i _ hk => ?_
  rw [hlog, hterm]
  exact hk

end Act

theorem pledged_move (htails : c.tails) (hrestamps : c.restamps) (ht : Terms g w)
    (hm : Move g c w w') (hsingle : w'.SingleLeader) (hl : Ledgers g w) (hv : Vouched w)
    (h : Pledged g w) : Pledged g w' := by
  have hgrows := (ledgers_move ht hm hsingle hl).2
  have hv' := vouched_move htails ht hm hsingle hl hv
  cases hm with
  | @quiet x n' ms hx hn hms =>
    exact h.act_same hv hv' hgrows hn.log hn.currentTerm (plain_acks hms)
  | @stand x n' ms hx hst hn hms =>
    exact h.act_safe hv hv' hgrows (.stand hn fun m hm => (hms m hm).2)
  | @adopt x n' term hx hterm hn =>
    refine h.act_safe hv hv' hgrows (.follow hn.state hn.log ?_)
    rw [hn.currentTerm]
    rcases hterm with hlt | ⟨-, heq, -⟩
    · exact Nat.le_of_lt hlt
    · exact Nat.le_of_eq heq
  | @accept e n' term prevIdx prevTerm leaderCommit cmds hx hsrc he hp hterm hst hprev htail hkeep hn =>
    exact h.act_safe hv hv' hgrows (.accept ht hl hx he hp hterm hst hprev (hkeep hrestamps) hn)
  | @grant e n' term lastIdx lastTerm hx hsrc he hp hterm hcan hok hn =>
    exact h.act_same hv hv' hgrows hn.log hn.currentTerm (by simp)
  | @count e n' term hx he hp hst hterm hvote hn =>
    have h₀ : Pledged g { w with
        counted := w.counted ++ [(e.dst, (w.node e.dst).currentTerm, e.src)] } := h
    exact h₀.act_same (hv.recount _) hv' hgrows hn.log hn.currentTerm (by simp)
  | @lead x n' hx hst hq h2 hn =>
    exact h.act_same hv hv' hgrows hn.log hn.currentTerm (by simp)
  | @push x n' ms cmd hx hst hn hms =>
    exact h.act_safe hv hv' hgrows (.push ht hl hx hst hn hms)
  | @ack e n' term matchIdx hx he hp hst hterm hr hn =>
    exact h.act_same hv hv' hgrows hn.log hn.currentTerm (by simp)
  | @commit x n' stray hx hst hi hterm hn =>
    exact h.act_same hv hv' hgrows hn.log hn.currentTerm (by simp)
  | @apply x hx =>
    have h' : Pledged g (w.act x ((w.node x).takePendingApply.1, [])) :=
      h.act_same hv hv' hgrows rfl rfl (by simp)
    exact h'

/-! ## The result -/

/-- No old tail is acknowledged, and no message cuts off what a newer one of its term brought. -/
def Care.onlyTrust : Care := ⟨False, False, True, True⟩

/-- What a run has kept since the world `w₀`. -/
structure Trusted (g : Group) (w₀ w : World) : Prop where
  ledgers : Ledgers g w
  vouched : Vouched w
  pledged : Pledged g w
  evolves : Evolves w₀ w

theorem trusted_along (hsize : 2 ≤ g.size) {w₀ : World} (hstatic : Static g w) {evs : List Event}
    (hterms : Terms g w) (h : w.SingleLeader → Trusted g w₀ w)
    (hmeets : Run.Along g.step Care.onlyTrust.Meets w evs)
    (hsingle : (g.exec w evs).SingleLeader) :
    Static g (g.exec w evs) ∧ Terms g (g.exec w evs) ∧ Trusted g w₀ (g.exec w evs) := by
  obtain ⟨hstatic', hterms', h'⟩ := along_invariant
    (I := fun w => Terms g w ∧ (w.SingleLeader → Trusted g w₀ w)) hsize hstatic ⟨hterms, h⟩
    (fun w w' _ hm hi => ⟨terms_move hm hi.1, fun hs => by
      have hold := hi.2 (hs.of_led fun _ => led_move hm)
      obtain ⟨hl, hgrows⟩ := ledgers_move hi.1 hm hs hold.ledgers
      refine ⟨hl, vouched_move trivial hi.1 hm hs hold.ledgers hold.vouched,
        pledged_move trivial trivial hi.1 hm hs hold.ledgers hold.vouched hold.pledged,
        hold.evolves.trans ⟨fun e he => sent_move hm he, hgrows⟩⟩⟩)
    hmeets
  exact ⟨hstatic', hterms', h' hsingle⟩

theorem trusted_start (hsize : 2 ≤ g.size) (rand : Uuid → Nat) :
    Trusted g (g.start rand) (g.start rand) := by
  refine ⟨ledgers_start hsize rand, ?_, ?_, fun _ he => he, Books.Grows.refl _⟩
  · intro e he
    exact absurd he (by simp [Group.start])
  · rintro v _ x t m ⟨e, he, -⟩
    exact absurd he (by simp [Group.start])

/-- What an answered `AppendEntries` leaves behind. -/
theorem step_deliver {k draw stray : Nat} {e : Envelope}
    {term prevIdx prevTerm leaderCommit : Nat} {cmds : List Bytes} (he : w.sent[k]? = some e)
    (hp : e.payload = .appendEntries term prevIdx prevTerm leaderCommit cmds) :
    g.step w (.deliver k draw stray)
      = w.act e.dst ((w.node e.dst).step e.src e.payload draw stray) := by
  have htally : w.tally e = w := by
    unfold World.tally
    rw [hp]
  simp only [Group.step, he, htally]

/-- **A success reply is trustworthy.** In every run in which no term has two leaders, no old tail
is acknowledged and no message cuts off what a newer one of its term brought: a node that answers
an `AppendEntries` with success and index `n` has the commands up to `n` that the leader of the
term had when it had sent the message, or later; and it keeps them as long as it is in the term.

The message is a stretch of the leader's log that went to its end, and behind the point where the
consistency check holds the follower writes it out; so its log agrees with the leader's up to the
end of the message. What it has behind that, if it is no old tail, is from a newer message of the
same leader; hence the words "or later". In the same term it loses this again only to a message of
the same leader that ends earlier, which is the other thing excluded. -/
theorem success_reply_trusted (g : Group) (rand : Uuid → Nat) (evs more : List Event)
    (k draw stray : Nat)
    (hcare : Run.Along g.step
      (fun w ev => AtDelivery World.NoStaleTail w ev ∧ AtDelivery World.NoRestamp w ev)
      (g.start rand) (evs ++ .deliver k draw stray :: more))
    (hsingle : (g.exec (g.start rand) (evs ++ .deliver k draw stray :: more)).SingleLeader)
    (e : Envelope) (he : (g.exec (g.start rand) evs).sent[k]? = some e)
    (term prevIdx prevTerm leaderCommit : Nat) (cmds : List Bytes)
    (hp : e.payload = .appendEntries term prevIdx prevTerm leaderCommit cmds) (t n : Nat)
    (hanswer : ⟨e.src, .appendEntriesReply t true n⟩ ∈
      (((g.exec (g.start rand) evs).node e.dst).step e.src e.payload draw stray).2) :
    let answered := g.exec (g.start rand) (evs ++ [.deliver k draw stray])
    let last := g.exec (g.start rand) (evs ++ .deliver k draw stray :: more)
    (∃ pre, pre <+: evs ++ [.deliver k draw stray] ∧
      (g.exec (g.start rand) pre).sent[k]? = some e ∧
      ((g.exec (g.start rand) pre).node e.src).state = .leader ∧
      ((g.exec (g.start rand) pre).node e.src).currentTerm = term ∧
      Agree (answered.node e.dst).log ((g.exec (g.start rand) pre).node e.src).log n) ∧
    ((last.node e.dst).currentTerm = term →
      Agree (last.node e.dst).log (answered.node e.dst).log n) := by
  have hsize : 2 ≤ g.size := by
    by_contra hsmall
    rw [((alone_start hsmall rand).exec evs).sent] at he
    exact absurd he (by simp)
  dsimp only
  -- the run is cut behind the answer
  rw [show evs ++ .deliver k draw stray :: more = (evs ++ [.deliver k draw stray]) ++ more by simp]
    at hcare hsingle ⊢
  have hmeets := hcare.imp (Q := Care.onlyTrust.Meets)
    fun w ev h => ⟨False.elim, False.elim, fun _ => h.1, fun _ => h.2⟩
  obtain ⟨hfirst, hsecond⟩ := hmeets.append
  have hexec : ∀ as bs, g.exec (g.start rand) (as ++ bs) = g.exec (g.exec (g.start rand) as) bs :=
    fun as bs => Run.exec_append ..
  have hsingle' : (g.exec (g.start rand) (evs ++ [.deliver k draw stray])).SingleLeader := by
    rw [hexec _ more] at hsingle
    exact hsingle.of_led fun p hled => led_exec more hled
  obtain ⟨hstatic, hterms, h⟩ := trusted_along hsize (static_start rand) (terms_start hsize rand)
    (fun _ => trusted_start hsize rand) hfirst hsingle'
  have hrest : Trusted g (g.exec (g.start rand) (evs ++ [.deliver k draw stray]))
      (g.exec (g.start rand) ((evs ++ [.deliver k draw stray]) ++ more)) := by
    rw [hexec _ more] at hsingle ⊢
    exact (trusted_along hsize hstatic hterms
      (fun _ => ⟨h.ledgers, h.vouched, h.pledged, fun _ he => he, Books.Grows.refl _⟩)
      hsecond hsingle).2.2
  -- the answer is on its way, with the log of that moment
  have hdeliver : g.exec (g.start rand) (evs ++ [.deliver k draw stray])
      = (g.exec (g.start rand) evs).act e.dst
          (((g.exec (g.start rand) evs).node e.dst).step e.src e.payload draw stray) := by
    rw [hexec]
    exact step_deliver (g := g) he hp
  have hterm : t = term := by
    rw [hp] at hanswer
    exact (RaftNode.of_success hanswer).1
  subst hterm
  generalize hr : ((g.exec (g.start rand) evs).node e.dst).step e.src e.payload draw stray = r
    at hanswer hdeliver
  have hreply : ⟨e.dst, e.src, .appendEntriesReply t true n, r.1.log⟩
      ∈ (g.exec (g.start rand) (evs ++ [.deliver k draw stray])).sent := by
    rw [hdeliver, World.act_sent]
    exact List.mem_append_right _ (List.mem_map_of_mem hanswer)
  have hlog : ((g.exec (g.start rand) (evs ++ [.deliver k draw stray])).node e.dst).log
      = r.1.log := by
    rw [hdeliver, World.act_node_apply, if_pos rfl]
  have hsent : (g.exec (g.start rand) (evs ++ [.deliver k draw stray])).sent[k]? = some e := by
    rw [hdeliver, World.act_sent,
      List.getElem?_append_left (List.getElem?_eq_some_iff.mp he).1, he]
  have hagree := (h.vouched _ hreply t n rfl).2.2.1
  rw [hlog]
  constructor
  · obtain ⟨pre, hpre, hseen, hst, hcurrent, hbook⟩ := ledger_seen hsize rand _ hsingle' hsent
      (show t ∈ e.payload.replicates by rw [hp]; rfl)
    exact ⟨pre, hpre, hseen, hst, hcurrent, by rw [hbook]; exact hagree⟩
  · intro hstays
    have hmember := (hstatic.wire e (List.mem_of_getElem? hsent)).1
    have hpledge := (hrest.pledged e.dst hmember e.src t n
      ⟨_, hrest.evolves.sent _ hreply, rfl, rfl, rfl⟩).2
    rw [hstays] at hpledge
    rcases hpledge with hholds | ⟨-, r', hlt, hle, -⟩
    · exact hholds.1.trans (hagree.grow (hrest.evolves.books.ledger t)).symm
    · exact absurd hlt (Nat.not_lt.mpr hle)

/-- Node 1 answers the proposal of node 3, and keeps its word. -/
theorem success_reply_trusted_proposal :
    let answered := trio.exec (trio.start fun _ => 0) (oneElection ++ [.propose 3 [97]] ++
      [.deliver 3 0 0])
    let last := trio.exec (trio.start fun _ => 0) (oneElection ++ [.propose 3 [97]] ++
      .deliver 3 0 0 :: [.tick 3 0, .deliver 6 0 0])
    (∃ pre, pre <+: oneElection ++ [.propose 3 [97]] ++ [.deliver 3 0 0] ∧
      (trio.exec (trio.start fun _ => 0) pre).sent[3]?
        = some ⟨3, 1, .appendEntries 1 0 0 0 [[97]], [sentinel, ⟨1, [97]⟩]⟩ ∧
      ((trio.exec (trio.start fun _ => 0) pre).node 3).state = .leader ∧
      ((trio.exec (trio.start fun _ => 0) pre).node 3).currentTerm = 1 ∧
      Agree (answered.node 1).log ((trio.exec (trio.start fun _ => 0) pre).node 3).log 1) ∧
    ((last.node 1).currentTerm = 1 → Agree (last.node 1).log (answered.node 1).log 1) := by
  have hled : (trio.exec (trio.start fun _ => 0) (oneElection ++ [.propose 3 [97]] ++
      .deliver 3 0 0 :: [.tick 3 0, .deliver 6 0 0])).led = [(3, 1)] := by decide +kernel
  have h := success_reply_trusted trio (fun _ => 0) (oneElection ++ [.propose 3 [97]])
    [.tick 3 0, .deliver 6 0 0] 3 0 0 (by decide +kernel) (.of_nodup (by rw [hled]; decide))
    ⟨3, 1, .appendEntries 1 0 0 0 [[97]], [sentinel, ⟨1, [97]⟩]⟩ (by decide +kernel)
    1 0 0 0 [[97]] rfl 1 1 (by decide +kernel)
  dsimp only at h ⊢
  exact h

/-! ## An old tail -/

/-- What the leader of a term has in its log is never taken away again. -/
theorem ledger_grows (hsize : 2 ≤ g.size) (rand : Uuid → Nat) (evs more : List Event)
    (hsingle : (g.exec (g.start rand) (evs ++ more)).SingleLeader) (t : Nat) :
    (g.exec (g.start rand) evs).ledger t <+: (g.exec (g.start rand) (evs ++ more)).ledger t := by
  have hexec : g.exec (g.start rand) (evs ++ more) = g.exec (g.exec (g.start rand) evs) more :=
    Run.exec_append ..
  rw [hexec] at hsingle ⊢
  have hstatic : Static g (g.exec (g.start rand) evs) :=
    (exec_invariant (I := fun _ => True) hsize trivial (fun _ _ _ _ _ => trivial)
      (meets_none evs _)).1
  obtain ⟨-, -, h⟩ := along_invariant (c := Care.none) (I := fun w => Terms g w ∧
      (w.SingleLeader → Ledgers g w ∧ Evolves (g.exec (g.start rand) evs) w)) hsize hstatic
    ⟨terms_exec hsize rand evs, fun hs =>
      ⟨ledgers_exec hsize rand evs hs, fun _ he => he, Books.Grows.refl _⟩⟩
    (fun w w' _ hm hi => ⟨terms_move hm hi.1, fun hs => by
      obtain ⟨hl, hev⟩ := hi.2 (hs.of_led fun _ => led_move hm)
      obtain ⟨hl', hgrows⟩ := ledgers_move hi.1 hm hs hl
      exact ⟨hl', hev.trans ⟨fun _ he => sent_move hm he, hgrows⟩⟩⟩)
    (meets_none more _)
  exact (h hsingle).2.books.ledger t

/-- Node 2 leads term 1 and keeps a proposal to itself. Node 1 leads term 2 with the vote of node
3, sends a heartbeat, and takes in a proposal. -/
def oldTail : List Event :=
  ticks 2 150 ++ [.deliver 1 0 0, .deliver 2 0 0, .propose 2 [98]] ++
    ticks 1 300 ++ [.deliver 8 0 0, .deliver 9 0 0, .tick 1 0, .propose 1 [97]]

set_option maxRecDepth 4000 in
/-- To the heartbeat node 2 answers success with the index of its old proposal, and the leader of
term 2 never has that command there. -/
theorem oldTail_acknowledged :
    let run := trio.exec (trio.start fun _ => 0)
    (run (oldTail ++ [.deliver 10 0 0])).SingleLeader ∧
    (run oldTail).sent[10]? = some ⟨1, 2, .appendEntries 2 0 0 0 [], [sentinel]⟩ ∧
    ⟨1, .appendEntriesReply 2 true 1⟩ ∈
      (((run oldTail).node 2).step 1 (.appendEntries 2 0 0 0 []) 0 0).2 ∧
    cmdAt ((run (oldTail ++ [.deliver 10 0 0])).node 2).log 1 = some [98] ∧
    ∀ more, (run (oldTail ++ [.deliver 10 0 0] ++ more)).SingleLeader →
      ∀ pre, pre <+: oldTail ++ [.deliver 10 0 0] ++ more →
        ((run pre).node 1).state = .leader → ((run pre).node 1).currentTerm = 2 →
        cmdAt ((run pre).node 1).log 1 ≠ some [98] := by
  dsimp only
  have hrun : (trio.exec (trio.start fun _ => 0) (oldTail ++ [.deliver 10 0 0])).led
        = [(2, 1), (1, 2)] ∧
      (trio.exec (trio.start fun _ => 0) oldTail).sent[10]?
        = some ⟨1, 2, .appendEntries 2 0 0 0 [], [sentinel]⟩ ∧
      ⟨1, .appendEntriesReply 2 true 1⟩ ∈ (((trio.exec (trio.start fun _ => 0) oldTail).node 2).step
        1 (.appendEntries 2 0 0 0 []) 0 0).2 ∧
      cmdAt ((trio.exec (trio.start fun _ => 0) (oldTail ++ [.deliver 10 0 0])).node 2).log 1
        = some [98] ∧
      (trio.exec (trio.start fun _ => 0) (oldTail ++ [.deliver 10 0 0])).ledger 2
        = [sentinel, ⟨2, [97]⟩] := by
    decide +kernel
  obtain ⟨hled, hsent, hanswer, hcmd, hledger⟩ := hrun
  refine ⟨.of_nodup (by rw [hled]; decide), hsent, hanswer, hcmd, ?_⟩
  rintro more hsingle pre ⟨rest, hrest⟩ hst hterm hold
  have hsize : 2 ≤ trio.size := by decide
  have hbefore : (trio.exec (trio.start fun _ => 0) pre).SingleLeader := by
    have hexec : trio.exec (trio.start fun _ => 0) (pre ++ rest)
        = trio.exec (trio.exec (trio.start fun _ => 0) pre) rest := Run.exec_append ..
    rw [← hrest, hexec] at hsingle
    exact hsingle.of_led fun p hled => led_exec rest hled
  -- the log grows into the one node 1 leads with in the end, which has the other command there
  have hlog : ((trio.exec (trio.start fun _ => 0) pre).node 1).log
      <+: (trio.exec (trio.start fun _ => 0) (oldTail ++ [.deliver 10 0 0] ++ more)).ledger 2 := by
    rw [← (ledgers_exec hsize _ pre hbefore).book 1 (by decide) hst, hterm, ← hrest]
    rw [← hrest] at hsingle
    exact ledger_grows hsize _ pre rest hsingle 2
  have hends := ledger_grows hsize _ _ more hsingle 2
  rw [hledger] at hends
  obtain ⟨entry, hentry, -⟩ := Option.map_eq_some_iff.mp hold
  have h97 := cmdAt_of_extends hends (i := 1) (by decide)
  have h98 := cmdAt_of_extends hlog (List.getElem?_eq_some_iff.mp hentry).1
  rw [hold, h97] at h98
  exact absurd h98 (by decide)

end Raft
end KvJet
