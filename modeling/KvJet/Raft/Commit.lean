import KvJet.Lib.Quorum
import KvJet.Raft.LogMatching

/-!
# What a commit rests on

A leader commits the index that its quorum has reached according to `matchIndex`. Whether the
members really have its entries up to there depends on three things that the code leaves open.

* A follower reports its *own* last index. It may have a tail behind the entries that the
  leader's message looked at, and only a message with entries cuts that tail off.
* A leader takes in replies of any earlier term.
* `quorum` is half of the peers and one more: for an even group, half of the group.

Where none of these plays a part, a success reply in term `t` means that the follower had the
commands of the leader of `t` up to the index it reported (`Acks.sent`), the cells of
`matchIndex` are such reports (`Acks.cells`), and a commit has a majority behind it.
-/

namespace KvJet
namespace Raft

namespace Books

/-- The log has what the leader of `t` had up to `m`, and if the leader had added some of it
itself, ends in `t` or later. -/
def Holds (b : Books) (l : List LogEntry) (t m : Nat) : Prop :=
  Agree l (b.ledger t) m ∧ ((b.opening t).length ≤ m → t ≤ lastStamp l)

variable {b b' : Books} {l : List LogEntry} {t prevIdx prevTerm : Nat} {cmds : List Bytes}

theorem Holds.mono (hg : Grows b b') {m : Nat} (hled : b.Led t) (h : b.Holds l t m) :
    b'.Holds l t m := by
  refine ⟨h.1.grow (hg.ledger t), ?_⟩
  rw [hg.opening t hled]
  exact h.2

theorem Holds.le {m i : Nat} (h : b.Holds l t m) (hi : i ≤ m) : b.Holds l t i :=
  ⟨h.1.mono hi, fun hlen => h.2 (Nat.le_trans hlen hi)⟩

/-- A log that ends in a term has only commands of that term's leader. -/
theorem LogOk.holds_last (h : b.LogOk l) (ht : b.TermOk t) (hlast : lastStamp l = t) :
    b.Holds l t (l.length - 1) := by
  refine ⟨?_, fun _ => Nat.le_of_eq hlast.symm⟩
  have hpos := h.pos
  by_cases h1 : 1 < l.length
  · have hs := stampAt_last h1
    rw [hlast] at hs
    exact (h.traced _ _ (by omega) hs).2
  · rw [show l.length - 1 = 0 by omega]
    exact h.agree_zero ht.log

/-- **What an acknowledged log holds.**

The message goes to the end of what the leader had, so where it is written out the log ends with it,
or with something newer of the same leader. An empty message writes nothing, and whatever stands
behind `prevIdx` stays; hence `htail`. -/
theorem LogOk.holds_splice (h : b.LogOk l) (ht : b.TermOk t) (hled : b.Led t)
    (hbound : ∀ i s, stampAt l i = some s → s ≤ t) (hslice : b.Slice t prevIdx prevTerm cmds)
    (hprev : prevIdx = 0 ∨ stampAt l prevIdx = some prevTerm)
    (htail : cmds = [] → l.length - 1 ≤ prevIdx ∨ lastStamp l = t) :
    b.Holds (Raft.splice t (prevIdx + 1) cmds l) t
      ((Raft.splice t (prevIdx + 1) cmds l).length - 1) := by
  have hlt := h.prev_lt hprev
  have hsplice := (h.splice ht hled hbound hslice hprev).1
  rcases splice_lastStamp t cmds hlt with ⟨heq, hend⟩ | ⟨-, hlast⟩
  · rw [heq]
    by_cases hcmds : cmds = []
    · rcases htail hcmds with hle | hlast
      · -- the log ends where the heartbeat looked
        have hend : l.length - 1 = prevIdx := by omega
        rw [hend]
        refine ⟨h.agree_prev ht hslice hprev, fun hopen => ?_⟩
        have hone : 1 ≤ prevIdx := Nat.le_trans ht.start.pos hopen
        have hs := hprev.resolve_left (by omega)
        rw [ht.own _ _ hopen hslice.stamp, ← hend] at hs
        exact Nat.le_of_eq (lastStamp_eq (by omega) hs).symm
      · exact h.holds_last ht hlast
    · -- the entries are there already, in the message's term
      have hs := hend hcmds
      have hlen := List.length_pos_iff.mpr hcmds
      have hlast := stampAt_last (Nat.lt_of_le_of_lt (by omega) (lt_length_of_stampAt hs))
      exact h.holds_last ht (Nat.le_antisymm (hbound _ _ hlast)
        (h.sorted.le_lastStamp (by omega) hs))
  · exact hsplice.holds_last ht hlast

end Books

/-- `v` has sent `x` a success reply in term `t` with index `m`. -/
def World.Replied (w : World) (v x : Uuid) (t m : Nat) : Prop :=
  ∃ e ∈ w.sent, e.src = v ∧ e.dst = x ∧ e.payload = .appendEntriesReply t true m

/-- What the cells of `matchIndex` stand for. -/
structure Cells (w : World) (x : Uuid) (n : RaftNode) : Prop where
  length : n.matchIndex.length = n.peers.length
  reported : ∀ v m, (v, m) ∈ n.peers.zip n.matchIndex → m = 0 ∨ w.Replied v x n.currentTerm m

/-- What the success replies stand for. -/
def Vouched (w : World) : Prop :=
  ∀ e ∈ w.sent, ∀ t m, e.payload = .appendEntriesReply t true m →
    w.books.Led t ∧ m + 1 = e.senderLog.length ∧ w.books.Holds e.senderLog t m

/-- What success replies, and the cells of a leader that are made of them, stand for. A cell only
ever gets a reply's index, so once the replies are true of the followers' logs the cells are true of
the leader's own log. -/
structure Acks (g : Group) (w : World) : Prop where
  sent : ∀ e ∈ w.sent, ∀ t m, e.payload = .appendEntriesReply t true m →
    w.books.Led t ∧ m + 1 = e.senderLog.length ∧ w.books.Holds e.senderLog t m
  cells : ∀ x ∈ g.members, (w.node x).state = .leader → Cells w x (w.node x)

variable {g : Group} {c : Care} {w : World}

theorem World.Replied.act {v y x : Uuid} {t m : Nat} {r : RaftNode × List RaftMessage}
    (h : w.Replied v y t m) : (w.act x r).Replied v y t m := by
  obtain ⟨e, he, hfields⟩ := h
  refine ⟨e, ?_, hfields⟩
  rw [World.act_sent]
  exact List.mem_append_left _ he

theorem Cells.act {x y : Uuid} {n : RaftNode} {r : RaftNode × List RaftMessage} (h : Cells w y n) :
    Cells (w.act x r) y n := by
  refine ⟨h.length, fun v m hm => ?_⟩
  rcases h.reported v m hm with h0 | hr
  · exact Or.inl h0
  · exact Or.inr hr.act

theorem Vouched.act (h : Vouched w) {x : Uuid} {n' : RaftNode} {ms : List RaftMessage}
    (hgrows : w.books.Grows (w.act x (n', ms)).books)
    (hms : ∀ m ∈ ms, ∀ t i, m.payload = .appendEntriesReply t true i →
      w.books.Led t ∧ i + 1 = n'.log.length ∧ w.books.Holds n'.log t i) :
    Vouched (w.act x (n', ms)) := by
  intro e he t i hp
  have hgrown : ∀ l, w.books.Led t ∧ i + 1 = l.length ∧ w.books.Holds l t i →
      (w.act x (n', ms)).books.Led t ∧ i + 1 = l.length ∧
        (w.act x (n', ms)).books.Holds l t i :=
    fun l ⟨hled, hlen, hholds⟩ => ⟨hled.mono hgrows, hlen, hholds.mono hgrows hled⟩
  rw [World.act_sent] at he
  rcases List.mem_append.mp he with hold | hnew
  · exact hgrown _ (h e hold t i hp)
  · obtain ⟨m, hm, rfl⟩ := List.mem_map.mp hnew
    exact hgrown _ (hms m hm t i hp)

/-- An action that acknowledges nothing. -/
theorem Vouched.act_same (h : Vouched w) {x : Uuid} {n' : RaftNode} {ms : List RaftMessage}
    (hgrows : w.books.Grows (w.act x (n', ms)).books)
    (hms : ∀ m ∈ ms, ∀ t i, m.payload ≠ .appendEntriesReply t true i) :
    Vouched (w.act x (n', ms)) :=
  h.act hgrows fun m hm t i hp => absurd hp (hms m hm t i)

theorem Acks.act (h : Acks g w) {x : Uuid} {n' : RaftNode} {ms : List RaftMessage}
    (hsent : Vouched (w.act x (n', ms)))
    (hcells : n'.state = .leader → Cells w x n') : Acks g (w.act x (n', ms)) := by
  refine ⟨hsent, ?_⟩
  intro y hy hst
  rw [World.act_node_apply] at hst ⊢
  split at hst
  · rename_i hyx
    rw [if_pos hyx, hyx]
    exact (hcells hst).act
  · rename_i hyx
    rw [if_neg hyx]
    exact (h.cells y hy hst).act

/-- An action that changes neither term, role nor cells. -/
theorem Acks.act_same (h : Acks g w) {x : Uuid} {n' : RaftNode} {ms : List RaftMessage}
    (hx : x ∈ g.members) (hsent : Vouched (w.act x (n', ms)))
    (hstate : n'.state = (w.node x).state) (hterm : n'.currentTerm = (w.node x).currentTerm)
    (hpeers : n'.peers = (w.node x).peers) (hcells : n'.matchIndex = (w.node x).matchIndex) :
    Acks g (w.act x (n', ms)) := by
  refine h.act hsent fun hst => ?_
  have hold := h.cells x hx (hstate ▸ hst)
  refine ⟨?_, ?_⟩
  · rw [hcells, hpeers]
    exact hold.length
  · rw [hcells, hpeers, hterm]
    exact hold.reported

theorem plain_acks {n : RaftNode} {ms : List RaftMessage} {P : RaftMessage → Prop}
    (h : ∀ m ∈ ms, P m ∧ Plain n m.payload) :
    ∀ m ∈ ms, ∀ t i, m.payload ≠ .appendEntriesReply t true i := by
  intro m hm t i hp
  have hplain := (h m hm).2
  rw [hp] at hplain
  exact absurd hplain (by simp [Plain])

/-- The cells after a reply. -/
theorem Cells.set {x v : Uuid} {n n' : RaftNode} {i : Nat} (h : Cells w x n)
    (hr : w.Replied v x n.currentTerm i) (hpeers : n'.peers = n.peers)
    (hterm : n'.currentTerm = n.currentTerm)
    (hcells : n'.matchIndex = n.matchIndex.set (n.peerIndex v) i) : Cells w x n' := by
  refine ⟨?_, ?_⟩
  · rw [hcells, hpeers, List.length_set]
    exact h.length
  · rw [hcells, hpeers, hterm]
    intro u m hm
    obtain ⟨j, hj, hget⟩ := List.mem_iff_getElem.mp hm
    rw [List.length_zip, List.length_set] at hj
    rw [List.getElem_zip, Prod.mk.injEq] at hget
    obtain ⟨hu, hm⟩ := hget
    rw [List.getElem_set] at hm
    split at hm
    · -- this is the cell of the sender
      rename_i hjv
      have hvu : v = u := by
        rw [← hu]
        simp only [← hjv, RaftNode.peerIndex, List.getElem_idxOf]
      rw [← hm, ← hvu]
      exact Or.inr hr
    · refine h.reported u m (List.mem_iff_getElem.mpr ⟨j, ?_, ?_⟩)
      · rwa [List.length_zip]
      · rw [List.getElem_zip, hu, hm]

theorem Acks.recount (h : Acks g w) (votes : List (Uuid × Nat × Uuid)) :
    Acks g { w with counted := votes } :=
  ⟨h.sent, fun x hx hst => ⟨(h.cells x hx hst).length, (h.cells x hx hst).reported⟩⟩

theorem Vouched.recount (h : Vouched w) (votes : List (Uuid × Nat × Uuid)) :
    Vouched { w with counted := votes } := h

/-- **Success replies are true**, where no old tail is acknowledged.

A node reports its last index at the moment it takes a message in, so the report is about the log it
has after the splice, and that one is known (`LogOk.holds_splice`). Later changes of the log do not
matter: an envelope keeps the log of its sender. -/
theorem vouched_move {w' : World} (htails : c.tails) (ht : Terms g w) (hm : Move g c w w')
    (hsingle : w'.SingleLeader) (hl : Ledgers g w) (h : Vouched w) : Vouched w' := by
  have hgrows := (ledgers_move ht hm hsingle hl).2
  cases hm with
  | @quiet x n' ms hx hn hms => exact h.act_same hgrows (plain_acks hms)
  | @stand x n' ms hx hst hn hms =>
    refine h.act_same hgrows fun m hm t i hp => ?_
    rw [(hms m hm).2] at hp
    exact absurd hp (by simp)
  | @adopt x n' term hx hterm hn => exact h.act_same hgrows (by simp)
  | @accept e n' term prevIdx prevTerm leaderCommit cmds hx hsrc he hp hterm hst hprev htail hkeep hn =>
    have hlog : n'.log = splice term (prevIdx + 1) cmds (w.node e.dst).log := hn.log
    obtain ⟨hled, hslice⟩ := hl.slice ht hx he hp hprev
    have hnode := hl.nodes _ hx
    have hbound := hnode.bound
    rw [hterm] at hbound
    refine h.act hgrows fun m hm t i hpay => ?_
    rw [List.mem_singleton.mp hm, Payload.appendEntriesReply.injEq] at hpay
    obtain ⟨rfl, -, rfl⟩ := hpay
    have hholds := hnode.toLogOk.holds_splice (hl.terms term) ⟨_, hled⟩ hbound hslice hprev
      (htail htails)
    have hpos := (hnode.toLogOk.splice (hl.terms term) ⟨_, hled⟩ hbound hslice hprev).1.pos
    rw [← hlog] at hholds hpos
    rw [hn.currentTerm, hterm]
    exact ⟨⟨_, hled⟩, Nat.sub_add_cancel hpos, hholds⟩
  | @grant e n' term lastIdx lastTerm hx hsrc he hp hterm hcan hok hn =>
    exact h.act_same hgrows (by simp)
  | @count e n' term hx he hp hst hterm hv hn => exact (h.recount _).act_same hgrows (by simp)
  | @lead x n' hx hst hq h2 hn => exact h.act_same hgrows (by simp)
  | @push x n' ms cmd hx hst hn hms => exact h.act_same hgrows (plain_acks hms)
  | @ack e n' term matchIdx hx he hp hst hterm hr hn => exact h.act_same hgrows (by simp)
  | @commit x n' stray hx hst hi hterm hn => exact h.act_same hgrows (by simp)
  | @apply x hx =>
    have h' : Vouched (w.act x ((w.node x).takePendingApply.1, [])) := h.act_same hgrows (by simp)
    exact h'

/-- Only a reply writes a cell, and the condition has it be a reply of the leader's own term, so it
is a report on this leader's log. A new leader starts with cells of 0, which say nothing. -/
theorem acks_move {w' : World} (hreplies : c.replies) (htails : c.tails) (ht : Terms g w)
    (hm : Move g c w w') (hsingle : w'.SingleLeader) (hl : Ledgers g w) (h : Acks g w) :
    Acks g w' := by
  have hgrows := (ledgers_move ht hm hsingle hl).2
  have hsent := vouched_move htails ht hm hsingle hl h.sent
  cases hm with
  | @quiet x n' ms hx hn hms =>
    exact h.act_same hx hsent hn.state hn.currentTerm hn.peers hn.matchIndex
  | @stand x n' ms hx hst hn hms =>
    refine h.act hsent fun hl => ?_
    rw [hn.state] at hl
    exact absurd hl (by simp)
  | @adopt x n' term hx hterm hn =>
    refine h.act hsent fun hl => ?_
    rw [hn.state] at hl
    exact absurd hl (by simp)
  | @accept e n' term prevIdx prevTerm leaderCommit cmds hx hsrc he hp hterm hst hprev htail hkeep hn =>
    refine h.act hsent fun hlead => ?_
    rw [hn.state] at hlead
    exact absurd hlead (hl.not_leader ht (hsingle.of_led hgrows.led) hx hsrc he hp hterm)
  | @grant e n' term lastIdx lastTerm hx hsrc he hp hterm hcan hok hn =>
    exact h.act_same hx hsent hn.state hn.currentTerm hn.peers hn.matchIndex
  | @count e n' term hx he hp hst hterm hv hn =>
    exact (h.recount _).act_same hx hsent hn.state hn.currentTerm hn.peers hn.matchIndex
  | @lead x n' hx hst hq h2 hn =>
    refine h.act hsent fun _ => ⟨?_, ?_⟩
    · rw [hn.matchIndex, hn.peers, List.length_replicate]
    · intro v m hm
      rw [hn.matchIndex] at hm
      exact Or.inl (List.eq_of_mem_replicate (List.of_mem_zip hm).2)
  | @push x n' ms cmd hx hst hn hms =>
    exact h.act_same hx hsent hn.state hn.currentTerm hn.peers hn.matchIndex
  | @ack e n' term matchIdx hx he hp hst hterm hr hn =>
    have hr := hr hreplies
    refine h.act hsent fun _ => ?_
    exact (h.cells _ hx hst).set ⟨e, he, rfl, rfl, hr ▸ hp⟩ hn.peers hn.currentTerm hn.matchIndex
  | @commit x n' stray hx hst hi hterm hn =>
    exact h.act_same hx hsent hn.state hn.currentTerm hn.peers hn.matchIndex
  | @apply x hx =>
    have h' : Acks g (w.act x ((w.node x).takePendingApply.1, [])) :=
      h.act_same hx hsent rfl rfl rfl rfl
    exact ⟨h'.sent, fun y hy hst => ⟨(h'.cells y hy hst).length, (h'.cells y hy hst).reported⟩⟩

theorem acks_start (hsize : 2 ≤ g.size) (rand : Uuid → Nat) : Acks g (g.start rand) := by
  refine ⟨?_, ?_⟩
  · intro e he
    exact absurd he (by simp [Group.start])
  · intro x hx hst
    rw [start_node hsize rand hx] at hst
    exact absurd hst (by simp [RaftNode.resetElectionTimer])

section Quorum

variable {x : Uuid} {i : Nat}

/-- Enough of the cells and the own last index reach what is committed. -/
theorem Cells.lt_countP {n : RaftNode} (h : Cells w x n)
    (hi : n.sortedMatch.getD (n.quorum - 1) 0 = i) :
    n.peers.length / 2 < (n.matchIndex ++ [n.lastLogIndex]).countP (i ≤ ·) := by
  have hlen : n.quorum - 1 < (n.matchIndex ++ [n.lastLogIndex]).length := by
    rw [List.length_append, h.length, List.length_singleton]
    unfold RaftNode.quorum
    omega
  have hcount := Quorum.lt_countP_insertionSort _ hlen 0
  unfold RaftNode.sortedMatch at hi
  rw [hi] at hcount
  exact hcount

theorem Cells.replied {n : RaftNode} (h : Cells w x n) (hpos : 0 < i) {v : Uuid} {m : Nat}
    (hm : (v, m) ∈ n.peers.zip n.matchIndex) (him : i ≤ m) : w.Replied v x n.currentTerm m :=
  (h.reported v m hm).resolve_left (by omega)

/-- A leader has what it commits. -/
theorem Acks.lt_length (h : Acks g w) (hl : Ledgers g w) (hx : x ∈ g.members)
    (hst : (w.node x).state = .leader)
    (hi : (w.node x).sortedMatch.getD ((w.node x).quorum - 1) 0 = i) (hpos : 0 < i) :
    i < (w.node x).log.length := by
  have hcells := h.cells x hx hst
  obtain ⟨m, hm, him⟩ := List.countP_pos_iff.mp (Nat.zero_lt_of_lt (hcells.lt_countP hi))
  rw [decide_eq_true_eq] at him
  rcases List.mem_append.mp hm with hcell | hlast
  · obtain ⟨v, hzip⟩ := Quorum.exists_reporter hcells.length hcell
    obtain ⟨e, he, -, -, hp⟩ := hcells.replied hpos hzip him
    obtain ⟨-, -, hagree, -⟩ := h.sent e he _ _ hp
    have hbook : w.books.ledger _ = _ := hl.book x hx hst
    rw [hbook] at hagree
    exact Nat.lt_of_le_of_lt him hagree.2.1
  · rw [List.mem_singleton.mp hlast] at him
    exact Nat.lt_of_le_of_lt him (Nat.sub_one_lt_of_lt (hl.nodes x hx).pos)

/-- **The quorum behind a commit.**

The indexes are sorted from high to low, the leader's own one with them, so at least `quorum` of
them get to the one at place `quorum - 1`. Each peer has one cell, so those that report are as many
different members. -/
theorem Acks.quorum (h : Acks g w) (hw : Wired g w) (hl : Ledgers g w) (hx : x ∈ g.members)
    (hst : (w.node x).state = .leader)
    (hi : (w.node x).sortedMatch.getD ((w.node x).quorum - 1) 0 = i) (hpos : 0 < i) :
    ∃ S : Finset Uuid, S ⊆ g.members.toFinset ∧ x ∈ S ∧ (g.size - 1) / 2 < S.card ∧
      ∀ v ∈ S, v = x ∨ ∃ m ≥ i, w.Replied v x (w.node x).currentTerm m := by
  have hcells := h.cells x hx hst
  have hpeers := hw.peers x
  have hlt := h.lt_length hl hx hst hi hpos
  have hpeer : ∀ v ∈ Quorum.reporters (w.node x).peers (w.node x).matchIndex i,
      v ∈ g.members ∧ v ≠ x := by
    intro v hv
    have hmem := Quorum.reporters_subset hv
    rw [hpeers] at hmem
    exact Group.mem_peersOf.mp hmem
  refine ⟨insert x (Quorum.reporters (w.node x).peers (w.node x).matchIndex i), ?_,
    Finset.mem_insert_self _ _, ?_, ?_⟩
  · intro v hv
    rw [List.mem_toFinset]
    rcases Finset.mem_insert.mp hv with rfl | hv
    · exact hx
    · exact (hpeer v hv).1
  · have hnodup : (w.node x).peers.Nodup := by
      rw [hpeers]
      exact g.nodup.filter _
    have hlast : i ≤ (w.node x).lastLogIndex := Nat.le_sub_one_of_lt hlt
    have hcount := hcells.lt_countP hi
    have hsize := g.length_peersOf hx
    rw [Finset.card_insert_of_notMem fun hv => (hpeer x hv).2 rfl,
      Quorum.card_reporters hnodup hcells.length]
    rw [List.countP_append, List.countP_singleton, decide_eq_true hlast, if_pos rfl, hpeers]
      at hcount
    rwa [show g.size - 1 = (g.peersOf x).length by omega]
  · intro v hv
    rcases Finset.mem_insert.mp hv with rfl | hv
    · exact Or.inl rfl
    · obtain ⟨m, hm, him⟩ := Quorum.mem_reporters.mp hv
      exact Or.inr ⟨m, him, hcells.replied hpos hm him⟩

end Quorum

/-! ## Commits

From the cells to the followers' logs. What a follower has by now may be more than it reported, or
less, if a newer leader has come; so the claim is about the moment of its report. -/

/-- A reply that moves `commitIndex`: the leader takes it in and finds a new median.

Nothing else changes `commitIndex` here: a refusal, and a reply to somebody who is no leader any
more, leave it alone. -/
theorem RaftNode.commit_of_reply {n : RaftNode} {v : Uuid} {term matchIdx rand stray : Nat}
    {success : Bool} (h : (n.handleAppendEntriesReply v term success matchIdx rand
      stray).1.commitIndex ≠ n.commitIndex) :
    n.state = .leader ∧ term ≤ n.currentTerm ∧ success = true ∧
      ∃ i, (n.acknowledge (n.peerIndex v) matchIdx).sortedMatch.getD (n.quorum - 1) 0 = i ∧
        n.commitIndex < i ∧ n.handleAppendEntriesReply v term success matchIdx rand stray
          = ({ n.acknowledge (n.peerIndex v) matchIdx with commitIndex := i }, []) := by
  unfold RaftNode.handleAppendEntriesReply at h ⊢
  by_cases hst : n.state = .leader
  · rw [if_neg (not_not.mpr hst)] at h ⊢
    by_cases hterm : term > n.currentTerm
    · rw [if_pos hterm] at h
      exact absurd rfl h
    · rw [if_neg hterm] at h ⊢
      dsimp only at h ⊢
      by_cases hpi : n.peerIndex v ≥ n.peers.length
      · rw [if_pos hpi] at h
        exact absurd rfl h
      · rw [if_neg hpi] at h ⊢
        cases success with
        | false =>
          rw [if_neg (by simp)] at h
          split at h <;> exact absurd rfl h
        | true =>
          rw [if_pos rfl] at h ⊢
          unfold RaftNode.advanceCommitIndex at h ⊢
          dsimp only at h ⊢
          split at h
          · rename_i hcommit
            rw [if_pos hcommit]
            exact ⟨hst, Nat.le_of_not_lt hterm, rfl, _, rfl, hcommit.1, rfl⟩
          · exact absurd rfl h
  · rw [if_pos hst] at h
    exact absurd rfl h

/-- `v` has the commands of `x` up to `i`, or had them when it acknowledged to `x`. -/
def World.Held (w : World) (v x : Uuid) (i : Nat) : Prop :=
  Agree (w.node v).log (w.node x).log i ∨
    ∃ e ∈ w.sent, e.src = v ∧ e.dst = x ∧ (∃ t m, e.payload = .appendEntriesReply t true m) ∧
      Agree e.senderLog (w.node x).log i

/-- Strictly more than half of the group, `x` included. -/
def Group.MajorityHeld (g : Group) (w : World) (x : Uuid) (i : Nat) : Prop :=
  ∃ S : Finset Uuid, S ⊆ g.members.toFinset ∧ x ∈ S ∧ g.size < 2 * S.card ∧ ∀ v ∈ S, w.Held v x i

/-- Replies are current, and no old tail is acknowledged. -/
def Care.onlyAcks : Care := ⟨False, True, True, False⟩

theorem acks_exec (hsize : 2 ≤ g.size) (rand : Uuid → Nat) (evs : List Event)
    (hmeets : Run.Along g.step Care.onlyAcks.Meets (g.start rand) evs)
    (hsingle : (g.exec (g.start rand) evs).SingleLeader) :
    Static g (g.exec (g.start rand) evs) ∧ Terms g (g.exec (g.start rand) evs) ∧
      Ledgers g (g.exec (g.start rand) evs) ∧ Acks g (g.exec (g.start rand) evs) := by
  obtain ⟨hstatic, hterms, hinv⟩ := exec_invariant
    (I := fun w => Terms g w ∧ (w.SingleLeader → Ledgers g w ∧ Acks g w)) hsize
    ⟨terms_start hsize rand, fun _ => ⟨ledgers_start hsize rand, acks_start hsize rand⟩⟩
    (fun w w' _ hm h => ⟨terms_move hm h.1, fun hs =>
      have hold := h.2 (hs.of_led fun _ => led_move hm)
      ⟨(ledgers_move h.1 hm hs hold.1).1, acks_move trivial trivial h.1 hm hs hold.1 hold.2⟩⟩)
    hmeets
  exact ⟨hstatic, hterms, hinv hsingle⟩

/-- One step: what a leader commits on a current reply has its quorum behind it. -/
theorem Acks.commit_step (hacks : Acks g w) (hw : Wired g w) (hterms : Terms g w)
    (hledgers : Ledgers g w) {k draw stray term matchIdx : Nat} {success : Bool} {e : Envelope}
    (he : w.sent[k]? = some e) (hp : e.payload = .appendEntriesReply term success matchIdx)
    (hreply : w.CurrentReply e) (hsingle : (g.step w (.deliver k draw stray)).SingleLeader)
    (hcommit : ((g.step w (.deliver k draw stray)).node e.dst).commitIndex
      ≠ (w.node e.dst).commitIndex) :
    ∃ S : Finset Uuid, S ⊆ g.members.toFinset ∧ e.dst ∈ S ∧ (g.size - 1) / 2 < S.card ∧
      ∀ v ∈ S, (g.step w (.deliver k draw stray)).Held v e.dst
        ((g.step w (.deliver k draw stray)).node e.dst).commitIndex := by
  have hmem : e ∈ w.sent := List.mem_of_getElem? he
  obtain ⟨hx, -⟩ := hw.wire e hmem
  have hstep : g.step w (.deliver k draw stray)
      = w.act e.dst ((w.node e.dst).handleAppendEntriesReply e.src term success matchIdx draw
        stray) := by
    simp only [Group.step, he, World.tally, hp, RaftNode.step]
  rw [hstep] at hcommit hsingle ⊢
  rw [World.act_node_apply, if_pos rfl] at hcommit
  obtain ⟨hst, hterm, rfl, i, hi, hpos, hresult⟩ := RaftNode.commit_of_reply hcommit
  rw [hresult] at hsingle ⊢
  -- the leader after it has taken the reply in, and before it commits
  generalize hn : (w.node e.dst).acknowledge ((w.node e.dst).peerIndex e.src) matchIdx = n
    at hi hsingle ⊢
  have hsame : Same n { w.node e.dst with
      matchIndex := (w.node e.dst).matchIndex.set ((w.node e.dst).peerIndex e.src) matchIdx } := by
    rw [← hn]
    constructor <;> rfl
  have hcurrent : term = (w.node e.dst).currentTerm := by
    simp only [World.CurrentReply, hp] at hreply
    exact hreply hst hterm
  have hack : Move g Care.onlyAcks w (w.act e.dst (n, [])) :=
    Move.ack hx hmem hp hst hterm (fun _ => hcurrent) hsame
  have hsingle' : (w.act e.dst (n, [])).SingleLeader := by
    refine hsingle.of_led fun p hp => ?_
    obtain ⟨y, t⟩ := p
    rw [mem_led_act] at hp ⊢
    exact hp
  have hledgers' := (ledgers_move hterms hack hsingle' hledgers).1
  have hacks' := acks_move trivial trivial hterms hack hsingle' hledgers hacks
  have hnode : (w.act e.dst (n, [])).node e.dst = n := by simp
  have hst' : ((w.act e.dst (n, [])).node e.dst).state = .leader := by
    rw [hnode]
    exact hsame.state.trans hst
  have hquorum : n.quorum = (w.node e.dst).quorum := by
    unfold RaftNode.quorum
    rw [hsame.peers]
  have hi' : ((w.act e.dst (n, [])).node e.dst).sortedMatch.getD
      (((w.act e.dst (n, [])).node e.dst).quorum - 1) 0 = i := by
    rw [hnode, hquorum]
    exact hi
  have hlen := hacks'.lt_length hledgers' hx hst' hi' (Nat.zero_lt_of_lt hpos)
  have hbook := hledgers'.book e.dst hx hst'
  obtain ⟨S, hS, hxS, hcard, hheld⟩ := hacks'.quorum (wired_move hack hw) hledgers' hx hst' hi'
    (Nat.zero_lt_of_lt hpos)
  rw [hnode] at hlen hheld hbook
  have hfinal : (w.act e.dst ({ n with commitIndex := i }, [])).node e.dst
      = { n with commitIndex := i } := by simp
  refine ⟨S, hS, hxS, hcard, fun v hv => ?_⟩
  unfold World.Held
  rw [hfinal]
  rcases hheld v hv with rfl | ⟨m, him, e', he', hsrc, hdst, hp'⟩
  · rw [hfinal]
    exact Or.inl (Agree.refl hlen)
  · obtain ⟨-, -, hagree, -⟩ := hacks'.sent e' he' _ _ hp'
    have hagree : Agree e'.senderLog n.log m := hbook ▸ hagree
    refine Or.inr ⟨e', ?_, hsrc, hdst, ⟨_, _, hp'⟩, hagree.mono him⟩
    rw [World.act_sent] at he' ⊢
    exact he'

/-- **A commit needs a majority.** In a group of odd size, in every run in which no term has two
leaders, replies are current and no old tail is acknowledged: what a leader commits on a reply,
more than half of the group have, or had when they acknowledged.

The new index is one that a quorum of the cells has got to. A cell is the report of a follower that
had the leader's commands up to there when it sent it (`Acks.cells`), and for an odd size the
quorum, the leader's own index among it, is more than half of the group. The replies of an earlier
term, and those of a follower that has an old tail, are reports of another log, which is why they
are excluded. -/
theorem commit_majority (g : Group) (hsize : 2 ≤ g.size) (hodd : Odd g.size) (rand : Uuid → Nat)
    (evs : List Event) (k draw stray : Nat)
    (hcare : Run.Along g.step
      (fun w ev => AtDelivery World.CurrentReply w ev ∧ AtDelivery World.NoStaleTail w ev)
      (g.start rand) (evs ++ [.deliver k draw stray]))
    (hsingle : (g.exec (g.start rand) (evs ++ [.deliver k draw stray])).SingleLeader)
    (e : Envelope) (he : (g.exec (g.start rand) evs).sent[k]? = some e)
    (term matchIdx : Nat) (success : Bool)
    (hp : e.payload = .appendEntriesReply term success matchIdx)
    (hcommit : ((g.exec (g.start rand) (evs ++ [.deliver k draw stray])).node e.dst).commitIndex
      ≠ ((g.exec (g.start rand) evs).node e.dst).commitIndex) :
    g.MajorityHeld (g.exec (g.start rand) (evs ++ [.deliver k draw stray])) e.dst
      ((g.exec (g.start rand) (evs ++ [.deliver k draw stray])).node e.dst).commitIndex := by
  obtain ⟨hevs, hlast, -⟩ := hcare.append
  have hmeets : Run.Along g.step Care.onlyAcks.Meets (g.start rand) evs :=
    hevs.imp fun w ev h => ⟨False.elim, fun _ => h.1, fun _ => h.2, False.elim⟩
  have hexec : g.exec (g.start rand) (evs ++ [.deliver k draw stray])
      = g.step (g.exec (g.start rand) evs) (.deliver k draw stray) := Run.exec_append ..
  rw [hexec] at hsingle hcommit ⊢
  have hbefore : (g.exec (g.start rand) evs).SingleLeader :=
    hsingle.of_led fun p hp => led_step hp _
  obtain ⟨hstatic, hterms, hledgers, hacks⟩ := acks_exec hsize rand evs hmeets hbefore
  obtain ⟨S, hS, hx, hcard, hheld⟩ :=
    hacks.commit_step hstatic.toWired hterms hledgers he hp (hlast.1 e he) hsingle hcommit
  refine ⟨S, hS, hx, ?_, hheld⟩
  obtain ⟨q, hq⟩ := hodd
  omega

/-- Node 1 answers the proposal of node 3, which commits it. -/
theorem commit_majority_proposal :
    trio.MajorityHeld (trio.exec (trio.start fun _ => 0) (oneProposal ++ [.deliver 5 0 0])) 3 1 := by
  have hcommit : ((trio.exec (trio.start fun _ => 0)
      (oneProposal ++ [.deliver 5 0 0])).node 3).commitIndex = 1 := by decide +kernel
  have hbefore : ((trio.exec (trio.start fun _ => 0) oneProposal).node 3).commitIndex = 0 := by
    decide +kernel
  have hled : (trio.exec (trio.start fun _ => 0) (oneProposal ++ [.deliver 5 0 0])).led
      = [(3, 1)] := by decide +kernel
  have he : (trio.exec (trio.start fun _ => 0) oneProposal).sent[5]?
      = some ⟨1, 3, .appendEntriesReply 1 true 1, [sentinel, ⟨1, [97]⟩]⟩ := by decide +kernel
  have hsingle : (trio.exec (trio.start fun _ => 0)
      (oneProposal ++ [.deliver 5 0 0])).SingleLeader := by
    intro a b t ha hb
    rw [hled, List.mem_singleton, Prod.mk.injEq] at ha hb
    rw [ha.1, hb.1]
  have h := commit_majority trio (by decide) (by decide) (fun _ => 0) oneProposal 5 0 0
    (by decide +kernel) hsingle _ he _ _ _ rfl (by
      dsimp only
      rw [hcommit, hbefore]
      decide)
  dsimp only at h
  rwa [hcommit] at h

/-- Two nodes. -/
def duo : Group := ⟨0, [1, 2], by decide⟩

/-- Node 1 leads and sends a heartbeat, then takes in a proposal. The heartbeat arrives, the
proposal does not. -/
def heartbeatOnly : List Event :=
  ticks 1 150 ++
    [.deliver 0 0 0, .deliver 1 0 0, .tick 1 0, .propose 1 [97], .deliver 2 0 0]

/-- Its answer makes node 1 commit what node 2 has never seen. -/
theorem heartbeatOnly_commits_alone :
    ((duo.exec (duo.start fun _ => 0) heartbeatOnly).sent[4]?.map Envelope.payload
      = some (.appendEntriesReply 1 true 0)) ∧
    ((duo.exec (duo.start fun _ => 0) heartbeatOnly).node 1).commitIndex = 0 ∧
    ((duo.exec (duo.start fun _ => 0) (heartbeatOnly ++ [.deliver 4 0 0])).node 1).commitIndex = 1 ∧
    ¬ duo.MajorityHeld (duo.exec (duo.start fun _ => 0) (heartbeatOnly ++ [.deliver 4 0 0])) 1 1 := by
  refine ⟨by decide +kernel, by decide +kernel, by decide +kernel, ?_⟩
  rintro ⟨S, hS, -, hcard, hheld⟩
  have hlog : ((duo.exec (duo.start fun _ => 0) (heartbeatOnly ++ [.deliver 4 0 0])).node 2).log
      = [sentinel] := by decide +kernel
  have hsent : ∀ e ∈ (duo.exec (duo.start fun _ => 0) (heartbeatOnly ++ [.deliver 4 0 0])).sent,
      e.src = 2 → e.senderLog.length ≤ 1 := by decide +kernel
  have htwo : (2 : Uuid) ∈ S := by
    have hfull : S = duo.members.toFinset := by
      refine Finset.eq_of_subset_of_card_le hS ?_
      rw [card_members]
      have hsize : duo.size = 2 := rfl
      omega
    rw [hfull]
    decide
  rcases hheld 2 htwo with hnow | ⟨e, he, hsrc, -, -, hthen⟩
  · rw [hlog] at hnow
    exact absurd hnow.1 (by decide)
  · exact absurd hthen.1 (Nat.not_lt.mpr (hsent e he hsrc))

end Raft
end KvJet
