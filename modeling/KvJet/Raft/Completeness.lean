import KvJet.Raft.Commit

/-!
# Leaders have what was chosen

An entry is chosen when its leader wrote it in its own term and a quorum acknowledged it
(`Chosen`). Every later leader then begins with the chosen commands (`Safe.complete`).

A node that has acknowledged something keeps it, unless a later leader that does not have it
has overwritten it (`Kept`). No majority enters into this, so it can be carried along a run
(`Safe.pledge`), is true of the log a voter had when it voted (`Safe.ballot`), and hence of the
electorate of every leader (`Safe.win`). That there is no later leader without the entry then
follows by induction on its term.

This needs the four conditions on deliveries together: votes and replies that mean what they
say, and no follower that acknowledges an old tail or loses acknowledged entries to a message
of its own leader.
-/

namespace KvJet
namespace Raft

namespace Books

variable {b b' : Books} {l : List LogEntry} {t i : Nat}

/-- A leader after `t`, up to `T`, began without what the leader of `t` had up to `i`. -/
def Lost (b : Books) (t i T : Nat) : Prop :=
  i < (b.ledger t).length ∧
    ∃ r, t < r ∧ r ≤ T ∧ b.Led r ∧ ¬ Agree (b.opening r) (b.ledger t) i

def Kept (b : Books) (l : List LogEntry) (t i T : Nat) : Prop := b.Holds l t i ∨ b.Lost t i T

theorem Lost.mono (hg : Grows b b') {T T' : Nat} (hT : T ≤ T') (h : b.Lost t i T) :
    b'.Lost t i T' := by
  obtain ⟨hi, r, htr, hrT, hled, hnot⟩ := h
  refine ⟨Nat.lt_of_lt_of_le hi (hg.ledger t).length_le, r, htr, Nat.le_trans hrT hT,
    hled.mono hg, fun hagree => hnot ?_⟩
  rw [hg.opening r hled] at hagree
  exact hagree.trans (Agree.of_extends (hg.ledger t) hi).symm

theorem Kept.mono (hg : Grows b b') (hled : b.Led t) {T T' : Nat} (hT : T ≤ T')
    (h : b.Kept l t i T) : b'.Kept l t i T' := by
  rcases h with hholds | hlost
  · exact Or.inl (hholds.mono hg hled)
  · exact Or.inr (hlost.mono hg hT)

/-- Up to a term, or the term before it, if that term has no leader yet. -/
theorem Kept.before {u : Nat} (h : b.Kept l t i u) : b.Kept l t i (u - 1) ∨ b.Led u := by
  rcases h with hholds | ⟨hi, r, htr, hru, hled, hnot⟩
  · exact Or.inl (Or.inl hholds)
  · by_cases heq : r = u
    · rw [heq] at hled
      exact Or.inr hled
    · exact Or.inl (Or.inr ⟨hi, r, htr, by omega, hled, hnot⟩)

section Splice

variable {T prevIdx prevTerm : Nat} {cmds : List Bytes}

theorem LogOk.lastStamp_le (h : b.LogOk l) (hbound : ∀ i s, stampAt l i = some s → s ≤ T) :
    lastStamp l ≤ T := by
  have hpos := h.pos
  by_cases h1 : 1 < l.length
  · exact hbound _ _ (stampAt_last h1)
  · unfold lastStamp
    rw [if_pos (Nat.le_of_not_lt h1)]
    exact Nat.zero_le T

/-- A message of the term itself takes nothing away that its leader had. -/
theorem LogOk.lt_length_splice (h : b.LogOk l) (hbound : ∀ i s, stampAt l i = some s → s ≤ T)
    (hslice : b.Slice T prevIdx prevTerm cmds)
    (hprev : prevIdx = 0 ∨ stampAt l prevIdx = some prevTerm)
    (hkeep : lastStamp l = T → prevIdx + cmds.length < l.length - 1 →
      ∀ entry ∈ (l.drop (prevIdx + 1)).take cmds.length, entry.term = T)
    (hholds : b.Holds l T i) : i < (Raft.splice T (prevIdx + 1) cmds l).length := by
  rcases splice_cases T cmds (h.prev_lt hprev) with ⟨heq, -⟩ |
    ⟨c, hpc, hcle, -, -, hcut, hlen, -, -⟩
  · rw [heq]
    exact hholds.1.1
  · have hreach := hslice.reach
    have hil := hholds.1.1
    rw [hlen]
    by_contra hge
    -- the entry is one that the leader added, so the log ends in its term, and is not cut
    have hlast : lastStamp l = T :=
      Nat.le_antisymm (h.lastStamp_le hbound) (hholds.2 (by omega))
    have hc : c < l.length := by omega
    have hmem : l[c] ∈ (l.drop (prevIdx + 1)).take cmds.length := by
      refine List.mem_iff_getElem.mpr ⟨c - (prevIdx + 1), ?_, ?_⟩
      · rw [List.length_take, List.length_drop]
        omega
      · rw [List.getElem_take, List.getElem_drop]
        congr 1
        omega
    have hterm := hkeep hlast (by omega) _ hmem
    exact hcut (stampAt_eq_some.mpr ⟨l[c], List.getElem?_eq_getElem hc, hterm⟩)

/-- **What an accepted message does to acknowledged entries.**

Where the splice cuts something off, it does so for the leader of the newer term `T`. Either that
leader began with the acknowledged entries, and then they are in the message or below it; or it did
not, and then it is the later leader that took them away. In the term itself they go only where an
older message cuts off what a newer one brought, which `hkeep` excludes. -/
theorem LogOk.kept_splice (h : b.LogOk l) (ht : b.TermOk T) (hled : b.Led T)
    (hbound : ∀ i s, stampAt l i = some s → s ≤ T) (hslice : b.Slice T prevIdx prevTerm cmds)
    (hprev : prevIdx = 0 ∨ stampAt l prevIdx = some prevTerm)
    (hkeep : lastStamp l = T → prevIdx + cmds.length < l.length - 1 →
      ∀ entry ∈ (l.drop (prevIdx + 1)).take cmds.length, entry.term = T)
    (htT : t ≤ T) (hholds : b.Holds l t i) :
    b.Kept (Raft.splice T (prevIdx + 1) cmds l) t i T := by
  rcases splice_lastStamp T cmds (h.prev_lt hprev) with ⟨heq, -⟩ | ⟨hlen, hlast⟩
  · rw [heq]
    exact Or.inl hholds
  · have hagree := h.agree_splice ht hslice hprev
    have hreach := hslice.reach
    rcases Nat.lt_or_eq_of_le htT with hlt | rfl
    · by_cases hopen : Agree (b.opening T) (b.ledger t) i
      · -- the later leader began with the entry, and the log has what it began with
        have hi : i ≤ prevIdx + cmds.length := by
          have := hopen.1
          omega
        refine Or.inl ⟨?_, fun _ => by rw [hlast]; exact htT⟩
        exact ((hagree.mono hi).trans (Agree.of_extends ht.grown hopen.1).symm).trans hopen
      · exact Or.inr ⟨hholds.1.2.1, T, hlt, Nat.le_refl T, hled, hopen⟩
    · have hi := h.lt_length_splice hbound hslice hprev hkeep hholds
      exact Or.inl ⟨hagree.mono (by omega), fun _ => Nat.le_of_eq hlast.symm⟩

end Splice

end Books

/-! ## Acknowledgements

A leader counts as having acknowledged its own log, so that in a quorum there is no need to tell it
from the others. -/

/-- `v` has acknowledged index `i` in term `t`, or led it with that index in its log. -/
def World.Acked (w : World) (v : Uuid) (t i : Nat) : Prop :=
  (∃ x m, i ≤ m ∧ w.Replied v x t m) ∨ ((v, t) ∈ w.led ∧ i < (w.ledger t).length)

/-- History is only ever added to. -/
structure Evolves (w w' : World) : Prop where
  sent : ∀ e ∈ w.sent, e ∈ w'.sent
  books : w.books.Grows w'.books

variable {g : Group} {c : Care} {w w' : World}

theorem Evolves.act {x : Uuid} {r : RaftNode × List RaftMessage}
    (hbooks : w.books.Grows (w.act x r).books) : Evolves w (w.act x r) := by
  refine ⟨fun e he => ?_, hbooks⟩
  rw [World.act_sent]
  exact List.mem_append_left _ he

theorem World.Replied.mono (hev : Evolves w w') {v x : Uuid} {t m : Nat} (h : w.Replied v x t m) :
    w'.Replied v x t m := by
  obtain ⟨e, he, hfields⟩ := h
  exact ⟨e, hev.sent e he, hfields⟩

theorem World.Acked.mono (hev : Evolves w w') {v : Uuid} {t i : Nat} (h : w.Acked v t i) :
    w'.Acked v t i := by
  rcases h with ⟨x, m, him, hr⟩ | ⟨hled, hi⟩
  · exact Or.inl ⟨x, m, him, hr.mono hev⟩
  · exact Or.inr ⟨hev.books.led _ hled, Nat.lt_of_lt_of_le hi (hev.books.ledger t).length_le⟩

theorem World.Acked.led (h : Acks g w) {v : Uuid} {t i : Nat} (hacked : w.Acked v t i) :
    w.books.Led t := by
  rcases hacked with ⟨x, m, -, e, he, -, -, hp⟩ | ⟨hled, -⟩
  · exact (h.sent e he t m hp).1
  · exact ⟨v, hled⟩

/-- What an action acknowledges: its replies, and the log of a leader. -/
theorem acked_act {x v : Uuid} {n' : RaftNode} {ms : List RaftMessage} {t i : Nat}
    (hsingle : (w.act x (n', ms)).SingleLeader) (h : (w.act x (n', ms)).Acked v t i) :
    w.Acked v t i ∨ (v = x ∧ ((∃ m ∈ ms, ∃ j ≥ i, m.payload = .appendEntriesReply t true j) ∨
      (n'.state = .leader ∧ t = n'.currentTerm ∧ i < n'.log.length))) := by
  rcases h with ⟨y, j, hij, e, he, hsrc, hdst, hp⟩ | ⟨hled, hi⟩
  · rw [World.act_sent] at he
    rcases List.mem_append.mp he with hold | hnew
    · exact Or.inl (Or.inl ⟨y, j, hij, e, hold, hsrc, hdst, hp⟩)
    · obtain ⟨m, hm, rfl⟩ := List.mem_map.mp hnew
      exact Or.inr ⟨hsrc.symm, Or.inl ⟨m, hm, j, hij, hp⟩⟩
  · by_cases hl : n'.state = .leader ∧ t = n'.currentTerm
    · obtain ⟨hl, rfl⟩ := hl
      have hvx : v = x := hsingle v x _ hled (mem_led_act.mpr (Or.inr ⟨hl, rfl, rfl⟩))
      have hledger : (w.act x (n', ms)).ledger n'.currentTerm = n'.log := ledger_act hl
      rw [hledger] at hi
      exact Or.inr ⟨hvx, Or.inr ⟨hl, rfl, hi⟩⟩
    · have hold : (v, t) ∈ w.led := by
        rcases mem_led_act.mp hled with hold | ⟨hl', -, ht⟩
        · exact hold
        · exact absurd ⟨hl', ht⟩ hl
      refine Or.inl (Or.inr ⟨hold, ?_⟩)
      by_cases hl' : n'.state = .leader
      · have hledger : (w.act x (n', ms)).ledger t = w.ledger t :=
          ledger_act_ne hl' fun ht => hl ⟨hl', ht⟩
        rwa [hledger] at hi
      · rwa [World.act_ledger_of_ne hl'] at hi

/-! ## What a run keeps

To say that a later leader has what was chosen would be too weak to carry along: at the time of the
vote nobody knows yet who will win. So it is said of the voters, and of what was in their logs when
they voted. -/

/-- The log is no newer than one that ends at `lastIdx` in `lastTerm`. -/
def NoNewer (l : List LogEntry) (lastIdx lastTerm : Nat) : Prop :=
  lastStamp l < lastTerm ∨ (lastStamp l = lastTerm ∧ l.length - 1 ≤ lastIdx)

/-- `v` had the log `l`, no newer than that with which the leader of `u` began, when it helped to
elect it. -/
def World.Elected (w : World) (v : Uuid) (u : Nat) (l : List LogEntry) : Prop :=
  NoNewer l ((w.opening u).length - 1) (lastStamp (w.opening u)) ∧
    ∀ t i, t < u → w.Acked v t i → w.books.Kept l t i (u - 1)

/-- What makes every later leader have what was chosen. A member keeps what it has acknowledged
(`pledge`); it still had it when it voted (`ballot`), for a log no older than its own; and so each
leader had such voters (`win`). `ask` is there for `ballot`: the log with which a candidate asks is
the one it begins to lead with. -/
structure Safe (g : Group) (w : World) : Prop where
  pledge : ∀ v ∈ g.members, ∀ t i, w.Acked v t i →
    t ≤ (w.node v).currentTerm ∧ w.books.Kept (w.node v).log t i (w.node v).currentTerm
  /-- A candidate keeps the log with which it asks for votes. -/
  ask : ∀ e ∈ w.sent, ∀ u lastIdx lastTerm, e.payload = .requestVote u lastIdx lastTerm →
    u < (w.node e.src).currentTerm ∨ (u = (w.node e.src).currentTerm ∧
      ((w.node e.src).state = .candidate →
        lastIdx = (w.node e.src).lastLogIndex ∧ lastTerm = (w.node e.src).lastLogTerm))
  ballot : ∀ e ∈ w.sent, ∀ u, e.payload = .requestVoteReply u true →
    (∃ rv ∈ w.sent, rv.src = e.dst ∧ ∃ lastIdx lastTerm,
      rv.payload = .requestVote u lastIdx lastTerm ∧ NoNewer e.senderLog lastIdx lastTerm) ∧
    ∀ t i, t < u → w.Acked e.src t i → w.books.Kept e.senderLog t i (u - 1) ∨ w.books.Led u
  win : ∀ x u, (x, u) ∈ w.led → ∀ v ∈ w.electorate x u, ∃ l, w.Elected v u l

/-- What an action of `x` has to meet to keep this. -/
structure SafeAction (w : World) (x : Uuid) (n' : RaftNode) (ms : List RaftMessage) : Prop where
  term : (w.node x).currentTerm ≤ n'.currentTerm
  replies : ∀ m ∈ ms, ∀ t i, m.payload = .appendEntriesReply t true i → t = n'.currentTerm
  kept : ∀ t i, t ≤ (w.node x).currentTerm →
    w.books.Kept (w.node x).log t i (w.node x).currentTerm →
      w.books.Kept n'.log t i n'.currentTerm
  candidate : n'.state = .candidate → (w.node x).currentTerm < n'.currentTerm ∨
    ((w.node x).state = .candidate ∧ n'.log = (w.node x).log)
  asks : ∀ m ∈ ms, ∀ u lastIdx lastTerm, m.payload = .requestVote u lastIdx lastTerm →
    u = n'.currentTerm ∧ lastIdx = n'.lastLogIndex ∧ lastTerm = n'.lastLogTerm
  grants : ∀ m ∈ ms, ∀ u, m.payload = .requestVoteReply u true → u = n'.currentTerm ∧
    ∃ rv ∈ w.sent, rv.src = m.target ∧ ∃ lastIdx lastTerm,
      rv.payload = .requestVote u lastIdx lastTerm ∧ NoNewer n'.log lastIdx lastTerm
  win : n'.state = .leader → (x, n'.currentTerm) ∉ w.led →
    ∀ v ∈ w.electorate x n'.currentTerm, ∃ l, NoNewer l (n'.log.length - 1) (lastStamp n'.log) ∧
      ∀ t i, t < n'.currentTerm → w.Acked v t i → w.books.Kept l t i (n'.currentTerm - 1)

section Act

variable {x : Uuid} {n' : RaftNode} {ms : List RaftMessage}

/-- What is acknowledged anew, the new log has. -/
theorem SafeAction.acked (ha : SafeAction w x n' ms) (hsingle : (w.act x (n', ms)).SingleLeader)
    (hl : Ledgers g (w.act x (n', ms))) (hacks : Acks g (w.act x (n', ms))) {v : Uuid} {t i : Nat}
    (h : (w.act x (n', ms)).Acked v t i) : w.Acked v t i ∨
      (v = x ∧ t = n'.currentTerm ∧ (w.act x (n', ms)).books.Holds n'.log t i) := by
  rcases acked_act hsingle h with hold | ⟨hv, ⟨m, hm, j, hij, hp⟩ | ⟨hst, rfl, hi⟩⟩
  · exact Or.inl hold
  · refine Or.inr ⟨hv, ha.replies m hm t j hp, ?_⟩
    have hsent : ⟨x, m.target, m.payload, n'.log⟩ ∈ (w.act x (n', ms)).sent := by
      rw [World.act_sent]
      exact List.mem_append_right _ (List.mem_map_of_mem hm)
    exact (hacks.sent _ hsent t j hp).2.2.le hij
  · refine Or.inr ⟨hv, rfl, ?_, fun hopen => ?_⟩
    · rw [ledger_act hst]
      exact Agree.refl hi
    · -- the leader's own entries carry its term
      have hterm := hl.terms n'.currentTerm
      obtain ⟨s, hs⟩ := stampAt_isSome hi
      have hown := hterm.own i s hopen (by rw [ledger_act hst]; exact hs)
      have hlog := hterm.log
      rw [ledger_act hst] at hlog
      rw [← hown]
      exact hlog.sorted.le_lastStamp (Nat.le_trans hterm.start.pos hopen) hs

theorem SafeAction.acked_old (ha : SafeAction w x n' ms)
    (hsingle : (w.act x (n', ms)).SingleLeader) (hl : Ledgers g (w.act x (n', ms)))
    (hacks : Acks g (w.act x (n', ms))) {v : Uuid} {t i : Nat}
    (ht : t < (w.node v).currentTerm ∨ t < n'.currentTerm)
    (h : (w.act x (n', ms)).Acked v t i) : w.Acked v t i := by
  rcases ha.acked hsingle hl hacks h with hold | ⟨rfl, heq, -⟩
  · exact hold
  · have := ha.term
    omega

theorem electorate_act (y : Uuid) (u : Nat) :
    (w.act x (n', ms)).electorate y u = w.electorate y u := by
  unfold World.electorate World.voters
  rw [World.act_counted]

theorem Terms.granted_term (ht : Terms g w) {v y : Uuid} {u : Nat} (h : w.Granted v y u) :
    u ≤ (w.node v).currentTerm := by
  rcases ht.grants v y u h with hlt | ⟨heq, -⟩
  · exact Nat.le_of_lt hlt
  · exact Nat.le_of_eq heq.symm

/-- Those who elected a leader have moved on to its term. -/
theorem Terms.electorate_term (ht : Terms g w) (hc : Cast g w) (hw : Wired g w) {y v : Uuid}
    {u : Nat} (hled : (y, u) ∈ w.led) (hv : v ∈ w.electorate y u) :
    u ≤ (w.node v).currentTerm := by
  rcases Finset.mem_insert.mp hv with rfl | hv
  · rcases (ht.tenure v u hled).2.2 with hlt | ⟨heq, -⟩
    · exact Nat.le_of_lt hlt
    · exact Nat.le_of_eq heq.symm
  · exact ht.granted_term (hc.voter hw (List.mem_toFinset.mp hv)).1

theorem Safe.act_ask (h : Safe g w) (ha : SafeAction w x n' ms) :
    ∀ e ∈ (w.act x (n', ms)).sent, ∀ u lastIdx lastTerm,
      e.payload = .requestVote u lastIdx lastTerm →
        u < ((w.act x (n', ms)).node e.src).currentTerm ∨
        (u = ((w.act x (n', ms)).node e.src).currentTerm ∧
          (((w.act x (n', ms)).node e.src).state = .candidate →
            lastIdx = ((w.act x (n', ms)).node e.src).lastLogIndex ∧
              lastTerm = ((w.act x (n', ms)).node e.src).lastLogTerm)) := by
  intro e he u lastIdx lastTerm hp
  rw [World.act_sent] at he
  rw [World.act_node_apply]
  rcases List.mem_append.mp he with hold | hnew
  · have hask := h.ask e hold u lastIdx lastTerm hp
    by_cases hsrc : e.src = x
    · rw [if_pos hsrc]
      rw [hsrc] at hask
      rcases hask with hlt | ⟨heq, hsame⟩
      · exact Or.inl (Nat.lt_of_lt_of_le hlt ha.term)
      · rcases Nat.lt_or_eq_of_le ha.term with hnewer | hterm
        · exact Or.inl (heq ▸ hnewer)
        · refine Or.inr ⟨heq.trans hterm, fun hcand => ?_⟩
          rcases ha.candidate hcand with hlt | ⟨hwas, hlog⟩
          · omega
          · obtain ⟨hidx, hlt⟩ := hsame hwas
            unfold RaftNode.lastLogIndex at hidx ⊢
            rw [RaftNode.lastLogTerm_eq] at hlt ⊢
            rw [hlog]
            exact ⟨hidx, hlt⟩
    · rw [if_neg hsrc]
      exact hask
  · obtain ⟨m, hm, rfl⟩ := List.mem_map.mp hnew
    rw [if_pos rfl]
    obtain ⟨hu, hrest⟩ := ha.asks m hm u lastIdx lastTerm hp
    exact Or.inr ⟨hu, fun _ => hrest⟩

theorem Safe.act (h : Safe g w) (ht : Terms g w) (hc : Cast g w) (hw : Wired g w)
    (hacks : Acks g w) (hx : x ∈ g.members) (hgrows : w.books.Grows (w.act x (n', ms)).books)
    (hsingle : (w.act x (n', ms)).SingleLeader) (hl' : Ledgers g (w.act x (n', ms)))
    (hacks' : Acks g (w.act x (n', ms))) (ha : SafeAction w x n' ms) :
    Safe g (w.act x (n', ms)) := by
  have hev : Evolves w (w.act x (n', ms)) := Evolves.act hgrows
  have hpledge : ∀ t i, (w.act x (n', ms)).Acked x t i → t ≤ n'.currentTerm ∧
      (w.act x (n', ms)).books.Kept n'.log t i n'.currentTerm := by
    intro t i hacked
    rcases ha.acked hsingle hl' hacks' hacked with hold | ⟨-, rfl, hholds⟩
    · obtain ⟨hle, hkept⟩ := h.pledge x hx t i hold
      exact ⟨Nat.le_trans hle ha.term,
        (ha.kept t i hle hkept).mono hgrows (hold.led hacks) (Nat.le_refl _)⟩
    · exact ⟨Nat.le_refl _, Or.inl hholds⟩
  refine ⟨?_, h.act_ask ha, ?_, ?_⟩
  · intro v hv t i hacked
    rw [World.act_node_apply]
    by_cases hvx : v = x
    · rw [if_pos hvx]
      rw [hvx] at hacked
      exact hpledge t i hacked
    · rw [if_neg hvx]
      rcases ha.acked hsingle hl' hacks' hacked with hold | ⟨heq, -⟩
      · obtain ⟨hle, hkept⟩ := h.pledge v hv t i hold
        exact ⟨hle, hkept.mono hgrows (hold.led hacks) (Nat.le_refl _)⟩
      · exact absurd heq hvx
  · intro e he u hp
    rw [World.act_sent] at he
    rcases List.mem_append.mp he with hold | hnew
    · obtain ⟨⟨rv, hrv, hsrc, hask⟩, hkept⟩ := h.ballot e hold u hp
      refine ⟨⟨rv, hev.sent rv hrv, hsrc, hask⟩, fun t i htu hacked => ?_⟩
      have hterm := ht.granted_term ⟨e, hold, rfl, rfl, hp⟩
      have hacked' := ha.acked_old hsingle hl' hacks'
        (Or.inl (Nat.lt_of_lt_of_le htu hterm)) hacked
      rcases hkept t i htu hacked' with hk | hled
      · exact Or.inl (hk.mono hgrows (hacked'.led hacks) (Nat.le_refl _))
      · exact Or.inr (hled.mono hgrows)
    · obtain ⟨m, hm, rfl⟩ := List.mem_map.mp hnew
      obtain ⟨rfl, rv, hrv, hsrc, hask⟩ := ha.grants m hm u hp
      refine ⟨⟨rv, hev.sent rv hrv, hsrc, hask⟩, fun t i _ hacked => ?_⟩
      exact (hpledge t i hacked).2.before
  · intro y u hled v hv
    rw [electorate_act] at hv
    by_cases hold : (y, u) ∈ w.led
    · obtain ⟨l, hnewer, hkept⟩ := h.win y u hold v hv
      have hopen : (w.act x (n', ms)).opening u = w.opening u := hgrows.opening u ⟨y, hold⟩
      refine ⟨l, by rw [hopen]; exact hnewer, fun t i htu hacked => ?_⟩
      have hterm := ht.electorate_term hc hw hold hv
      have hacked' := ha.acked_old hsingle hl' hacks'
        (Or.inl (Nat.lt_of_lt_of_le htu hterm)) hacked
      exact (hkept t i htu hacked').mono hgrows (hacked'.led hacks) (Nat.le_refl _)
    · rcases mem_led_act.mp hled with hold' | ⟨hst, rfl, rfl⟩
      · exact absurd hold' hold
      · obtain ⟨l, hnewer, hkept⟩ := ha.win hst hold v hv
        have hopen : (w.act y (n', ms)).opening n'.currentTerm = n'.log := by
          rw [World.act_opening hst, if_neg hold]
          exact Function.update_self ..
        refine ⟨l, by rw [hopen]; exact hnewer, fun t i htu hacked => ?_⟩
        have hacked' := ha.acked_old hsingle hl' hacks' (Or.inr htu) hacked
        exact (hkept t i htu hacked').mono hgrows (hacked'.led hacks) (Nat.le_refl _)

/-- An action that changes neither term nor log and is no candidacy or election. -/
theorem SafeAction.of_same (hlog : n'.log = (w.node x).log)
    (hterm : n'.currentTerm = (w.node x).currentTerm) (hstate : n'.state = (w.node x).state)
    (ht : Terms g w) (hx : x ∈ g.members)
    (hms : ∀ m ∈ ms, (∀ t i, m.payload ≠ .appendEntriesReply t true i) ∧
      (∀ u i t, m.payload ≠ .requestVote u i t) ∧
      ∀ u, m.payload = .requestVoteReply u true → u = n'.currentTerm ∧
        ∃ rv ∈ w.sent, rv.src = m.target ∧ ∃ lastIdx lastTerm,
          rv.payload = .requestVote u lastIdx lastTerm ∧ NoNewer n'.log lastIdx lastTerm) :
    SafeAction w x n' ms where
  term := Nat.le_of_eq hterm.symm
  replies := fun m hm t i hp => absurd hp ((hms m hm).1 t i)
  kept := by
    intro t i _ hkept
    rw [hlog, hterm]
    exact hkept
  candidate := fun hst => Or.inr ⟨hstate ▸ hst, hlog⟩
  asks := fun m hm u i t hp => absurd hp ((hms m hm).2.1 u i t)
  grants := fun m hm => (hms m hm).2.2
  win := by
    intro hst hnot
    rw [hstate] at hst
    rw [hterm] at hnot
    exact absurd (ht.seat x hx hst) hnot

end Act

theorem plain_quiet {n : RaftNode} {ms : List RaftMessage} {Q : RaftMessage → Prop}
    {P : Nat → RaftMessage → Prop} (h : ∀ m ∈ ms, Q m ∧ Plain n m.payload) :
    ∀ m ∈ ms, (∀ t i, m.payload ≠ .appendEntriesReply t true i) ∧
      (∀ u i t, m.payload ≠ .requestVote u i t) ∧
      ∀ u, m.payload = .requestVoteReply u true → P u m := by
  intro m hm
  have hplain := (h m hm).2
  refine ⟨fun t i hp => ?_, fun u i t hp => ?_, fun u hp => ?_⟩ <;> rw [hp] at hplain <;>
    exact absurd hplain (by simp [Plain])

/-- The votes behind a new leader. -/
theorem Safe.win_lead (h : Safe g w) (hc : Cast g w) {x : Uuid}
    (hx : x ∈ g.members) (hst : (w.node x).state = .candidate)
    (hunled : ¬ w.books.Led (w.node x).currentTerm) :
    ∀ v ∈ w.electorate x (w.node x).currentTerm,
      ∃ l, NoNewer l ((w.node x).log.length - 1) (lastStamp (w.node x).log) ∧
        ∀ t i, t < (w.node x).currentTerm → w.Acked v t i →
          w.books.Kept l t i ((w.node x).currentTerm - 1) := by
  intro v hv
  rcases Finset.mem_insert.mp hv with rfl | hv
  · refine ⟨(w.node v).log, Or.inr ⟨rfl, Nat.le_refl _⟩, fun t i _ hacked => ?_⟩
    exact (h.pledge v hx t i hacked).2.before.resolve_right hunled
  · obtain ⟨e, he, rfl, hdst, hp⟩ :=
      (hc.cast x _ v (mem_voters.mp (List.mem_toFinset.mp hv))).1
    obtain ⟨⟨rv, hrv, hsrc, lastIdx, lastTerm, hrvp, hnewer⟩, hkept⟩ := h.ballot e he _ hp
    refine ⟨e.senderLog, ?_, fun t i htu hacked => (hkept t i htu hacked).resolve_right hunled⟩
    -- the candidate still has the log it asked with
    have hask := h.ask rv hrv _ lastIdx lastTerm hrvp
    rw [hsrc, hdst] at hask
    rcases hask with hlt | ⟨-, hsame⟩
    · exact absurd hlt (Nat.lt_irrefl _)
    · obtain ⟨hidx, hterm⟩ := hsame hst
      rw [hidx, hterm] at hnewer
      exact hnewer

/-- All four conditions. -/
def Care.all : Care := ⟨True, True, True, True⟩

/-! ## The moves, one by one

A move changes one member and sends what that member sends, so it is enough to look at what the
member has pledged and what is new on the wire (`SafeAction`). -/

section Moves

variable {x : Uuid} {n' : RaftNode} {ms : List RaftMessage}

/-- A new candidate asks with the log it has, in a term of its own. -/
theorem SafeAction.stand
    (hn : Same n' { w.node x with
      state := .candidate, currentTerm := (w.node x).currentTerm + 1,
      votedFor := some x, voteCount := 1 })
    (hms : ∀ m ∈ ms, m.payload = .requestVote n'.currentTerm n'.lastLogIndex n'.lastLogTerm) :
    SafeAction w x n' ms := by
  have hterm : n'.currentTerm = (w.node x).currentTerm + 1 := hn.currentTerm
  have hlog : n'.log = (w.node x).log := hn.log
  refine ⟨?_, ?_, ?_, ?_, ?_, ?_, ?_⟩
  · rw [hterm]
    exact Nat.le_succ _
  · intro m hm t i hp
    rw [hms m hm] at hp
    exact absurd hp (by simp)
  · intro t i _ hkept
    rw [hlog, hterm]
    rcases hkept with hholds | hlost
    · exact Or.inl hholds
    · exact Or.inr (hlost.mono (Books.Grows.refl _) (Nat.le_succ _))
  · intro _
    rw [hterm]
    exact Or.inl (Nat.lt_succ_self _)
  · intro m hm u i t hp
    rw [hms m hm, Payload.requestVote.injEq] at hp
    exact ⟨hp.1.symm, hp.2.1.symm, hp.2.2.symm⟩
  · intro m hm u hp
    rw [hms m hm] at hp
    exact absurd hp (by simp)
  · intro hlead
    rw [hn.state] at hlead
    exact absurd hlead (by simp)

/-- A follower of a term that is not below its own keeps its log. -/
theorem SafeAction.follow (hstate : n'.state = .follower) (hlog : n'.log = (w.node x).log)
    (hle : (w.node x).currentTerm ≤ n'.currentTerm) : SafeAction w x n' [] := by
  refine ⟨hle, by simp, ?_, ?_, by simp, by simp, ?_⟩
  · intro t i _ hkept
    rw [hlog]
    rcases hkept with hholds | hlost
    · exact Or.inl hholds
    · exact Or.inr (hlost.mono (Books.Grows.refl _) hle)
  · intro hcand
    rw [hstate] at hcand
    exact absurd hcand (by simp)
  · intro hlead
    rw [hstate] at hlead
    exact absurd hlead (by simp)

/-- An accepted message leaves of the old log what was acknowledged. -/
theorem SafeAction.accept (ht : Terms g w) (hl : Ledgers g w) {e : Envelope}
    {term prevIdx prevTerm leaderCommit commit : Nat} {cmds : List Bytes} (hx : e.dst ∈ g.members)
    (he : e ∈ w.sent) (hp : e.payload = .appendEntries term prevIdx prevTerm leaderCommit cmds)
    (hterm : (w.node e.dst).currentTerm = term) (hst : (w.node e.dst).state ≠ .candidate)
    (hprev : prevIdx = 0 ∨ stampAt (w.node e.dst).log prevIdx = some prevTerm)
    (hkeep : Survives (w.node e.dst) term prevIdx cmds)
    (hn : Same n' { w.node e.dst with
      log := splice term (prevIdx + 1) cmds (w.node e.dst).log, commitIndex := commit }) :
    SafeAction w e.dst n' [⟨e.src, .appendEntriesReply n'.currentTerm true n'.lastLogIndex⟩] := by
  have hlog : n'.log = splice term (prevIdx + 1) cmds (w.node e.dst).log := hn.log
  have hterm' : n'.currentTerm = (w.node e.dst).currentTerm := hn.currentTerm
  have hstate : n'.state = (w.node e.dst).state := hn.state
  obtain ⟨hled, hslice⟩ := hl.slice ht hx he hp hprev
  have hnode := hl.nodes _ hx
  have hbound := hnode.bound
  rw [hterm] at hbound
  refine ⟨Nat.le_of_eq hterm'.symm, ?_, ?_, ?_, by simp, by simp, ?_⟩
  · intro m hm t i hpay
    rw [List.mem_singleton.mp hm, Payload.appendEntriesReply.injEq] at hpay
    exact hpay.1.symm
  · intro t i hle hkept
    rw [hlog, hterm', hterm]
    rw [hterm] at hle hkept
    rcases hkept with hholds | hlost
    · exact hnode.toLogOk.kept_splice (hl.terms term) ⟨_, hled⟩ hbound hslice hprev hkeep hle hholds
    · exact Or.inr hlost
  · intro hcand
    rw [hstate] at hcand
    exact absurd hcand hst
  · intro hlead hnot
    rw [hstate] at hlead
    rw [hterm'] at hnot
    exact absurd (ht.seat _ hx hlead) hnot

/-- A vote goes to a log that is no older. -/
theorem SafeAction.grant (ht : Terms g w) {e : Envelope} {term lastIdx lastTerm : Nat}
    (hx : e.dst ∈ g.members) (he : e ∈ w.sent)
    (hp : e.payload = .requestVote term lastIdx lastTerm)
    (hterm : (w.node e.dst).currentTerm = term) (hok : (w.node e.dst).logOk lastIdx lastTerm)
    (hn : Same n' { w.node e.dst with votedFor := some e.src }) :
    SafeAction w e.dst n' [⟨e.src, .requestVoteReply n'.currentTerm true⟩] := by
  have hlog : n'.log = (w.node e.dst).log := hn.log
  refine .of_same hn.log hn.currentTerm hn.state ht hx fun m hm => ?_
  rw [List.mem_singleton.mp hm]
  refine ⟨by simp, by simp, fun u hpay => ?_⟩
  rw [Payload.requestVoteReply.injEq] at hpay
  have hu : term = u := by
    rw [← hpay.1, hn.currentTerm]
    exact hterm.symm
  refine ⟨hpay.1.symm, e, he, rfl, lastIdx, lastTerm, by rw [← hu]; exact hp, ?_⟩
  rw [hlog]
  rcases hok with hgt | ⟨heq, hge⟩
  · exact Or.inl hgt
  · exact Or.inr ⟨heq.symm, hge⟩

theorem SafeAction.lead (h : Safe g w) (hc : Cast g w) (hx : x ∈ g.members)
    (hst : (w.node x).state = .candidate) (hunled : ¬ w.books.Led (w.node x).currentTerm)
    (hstate : n'.state = .leader) (hterm : n'.currentTerm = (w.node x).currentTerm)
    (hlog : n'.log = (w.node x).log) : SafeAction w x n' [] := by
  refine ⟨Nat.le_of_eq hterm.symm, by simp, ?_, ?_, by simp, by simp, ?_⟩
  · intro t i _ hkept
    rw [hlog, hterm]
    exact hkept
  · intro hcand
    rw [hstate] at hcand
    exact absurd hcand (by simp)
  · intro _ _
    rw [hlog, hterm]
    exact h.win_lead hc hx hst hunled

/-- A leader's own log only grows, and ends in its term. -/
theorem SafeAction.push (ht : Terms g w) (hl : Ledgers g w) {cmd : Bytes} (hx : x ∈ g.members)
    (hst : (w.node x).state = .leader)
    (hn : Same n' { w.node x with log := (w.node x).log ++ [⟨(w.node x).currentTerm, cmd⟩] })
    (hms : ∀ m ∈ ms, m.target ∈ g.peersOf x ∧ Plain n' m.payload) : SafeAction w x n' ms := by
  have hlog : n'.log = (w.node x).log ++ [⟨(w.node x).currentTerm, cmd⟩] := hn.log
  have hterm : n'.currentTerm = (w.node x).currentTerm := hn.currentTerm
  have hquiet := plain_quiet (P := fun _ _ => False) hms
  refine ⟨Nat.le_of_eq hterm.symm, fun m hm t i hp => absurd hp ((hquiet m hm).1 t i), ?_, ?_,
    fun m hm u i t hp => absurd hp ((hquiet m hm).2.1 u i t),
    fun m hm u hp => absurd ((hquiet m hm).2.2 u hp) id, ?_⟩
  · intro t i hle hkept
    rw [hterm]
    rcases hkept with hholds | hlost
    · have hpos := (hl.nodes x hx).pos
      have hlast : lastStamp n'.log = (w.node x).currentTerm := by
        rw [hlog]
        refine lastStamp_eq ?_ ?_
        · rw [List.length_append, List.length_singleton]
          omega
        · simp [stampAt]
      refine Or.inl ⟨?_, fun _ => by rw [hlast]; exact hle⟩
      have hgrow : (w.node x).log <+: n'.log := by
        rw [hlog]
        exact List.prefix_append _ _
      exact (Agree.of_extends hgrow hholds.1.1).symm.trans hholds.1
    · exact Or.inr hlost
  · intro hcand
    rw [hn.state] at hcand
    exact absurd (hst.symm.trans hcand) (by simp)
  · intro _ hnot
    rw [hterm] at hnot
    exact absurd (ht.seat x hx hst) hnot

/-- A candidate does not lead its term, so a vote it counts is in no electorate yet. -/
theorem Safe.count (h : Safe g w) (ht : Terms g w) (v : Uuid)
    (hst : (w.node x).state = .candidate) :
    Safe g { w with counted := w.counted ++ [(x, (w.node x).currentTerm, v)] } := by
  refine ⟨h.pledge, h.ask, h.ballot, fun y u hled v hv => ?_⟩
  have hne : ¬ (y = x ∧ u = (w.node x).currentTerm) := by
    rintro ⟨rfl, rfl⟩
    exact Nat.lt_irrefl _ (ht.led_before (by simp [hst]) hled)
  unfold World.electorate at hv
  rw [voters_count, if_neg hne, List.append_nil] at hv
  exact h.win y u hled v hv

end Moves

theorem safe_move (hm : Move g Care.all w w') (hw : Wired g w) (ht : Terms g w)
    (hb : Ballots g w) (hsingle : w'.SingleLeader) (hl : Ledgers g w) (hacks : Acks g w)
    (h : Safe g w) : Safe g w' := by
  obtain ⟨hl', hgrows⟩ := ledgers_move ht hm hsingle hl
  have hacks' := acks_move trivial trivial ht hm hsingle hl hacks
  have hc := hb.toCast
  cases hm with
  | @quiet x n' ms hx hn hms =>
    exact h.act ht hc hw hacks hx hgrows hsingle hl' hacks'
      (.of_same hn.log hn.currentTerm hn.state ht hx (plain_quiet hms))
  | @stand x n' ms hx hst hn hms =>
    exact h.act ht hc hw hacks hx hgrows hsingle hl' hacks' (.stand hn fun m hm => (hms m hm).2)
  | @adopt x n' term hx hterm hn =>
    have hle : (w.node x).currentTerm ≤ n'.currentTerm := by
      rw [hn.currentTerm]
      rcases hterm with hlt | ⟨-, heq, -⟩
      · exact Nat.le_of_lt hlt
      · exact Nat.le_of_eq heq
    exact h.act ht hc hw hacks hx hgrows hsingle hl' hacks' (.follow hn.state hn.log hle)
  | @accept e n' term prevIdx prevTerm leaderCommit cmds hx hsrc he hp hterm hst hprev htail hkeep hn =>
    exact h.act ht hc hw hacks hx hgrows hsingle hl' hacks'
      (.accept ht hl hx he hp hterm hst hprev (hkeep trivial) hn)
  | @grant e n' term lastIdx lastTerm hx hsrc he hp hterm hcan hok hn =>
    exact h.act ht hc hw hacks hx hgrows hsingle hl' hacks' (.grant ht hx he hp hterm hok hn)
  | @count e n' term hx he hp hst hterm hv hn =>
    obtain ⟨rfl, hfresh⟩ := hv trivial
    have hgranted : w.Granted e.src e.dst (w.node e.dst).currentTerm := ⟨e, he, rfl, rfl, hp⟩
    exact (h.count ht e.src hst).act (ht.recount _) (hc.count hgranted hfresh) (hw.recount _)
      (hacks.recount _) hx hgrows hsingle hl' hacks'
      (.of_same hn.log hn.currentTerm hn.state (ht.recount _) hx (by simp))
  | @lead x n' hx hst hq h2 hn =>
    have hterm : n'.currentTerm = (w.node x).currentTerm := hn.currentTerm
    have hunled := ht.unled_of_lead hsingle hst hn.state hterm
    rw [hterm] at hunled
    exact h.act ht hc hw hacks hx hgrows hsingle hl' hacks'
      (.lead h hc hx hst hunled hn.state hterm hn.log)
  | @push x n' ms cmd hx hst hn hms =>
    exact h.act ht hc hw hacks hx hgrows hsingle hl' hacks' (.push ht hl hx hst hn hms)
  | @ack e n' term matchIdx hx he hp hst hterm hr hn =>
    exact h.act ht hc hw hacks hx hgrows hsingle hl' hacks'
      (.of_same hn.log hn.currentTerm hn.state ht hx (by simp))
  | @commit x n' stray hx hst hi hterm hn =>
    exact h.act ht hc hw hacks hx hgrows hsingle hl' hacks'
      (.of_same hn.log hn.currentTerm hn.state ht hx (by simp))
  | @apply x hx =>
    have hl₀ : Ledgers g (w.act x ((w.node x).takePendingApply.1, [])) :=
      ⟨hl'.book, hl'.nodes, hl'.terms, hl'.wire⟩
    have hacks₀ : Acks g (w.act x ((w.node x).takePendingApply.1, [])) :=
      ⟨hacks'.sent, fun y hy hst =>
        ⟨(hacks'.cells y hy hst).length, (hacks'.cells y hy hst).reported⟩⟩
    have h' := h.act ht hc hw hacks hx hgrows hsingle hl₀ hacks₀
      (.of_same rfl rfl rfl ht hx (by simp))
    exact ⟨h'.pledge, h'.ask, h'.ballot, h'.win⟩

theorem safe_start (hsize : 2 ≤ g.size) (rand : Uuid → Nat) : Safe g (g.start rand) := by
  have hsent : (g.start rand).sent = [] := rfl
  have hled := start_led hsize rand
  refine ⟨?_, ?_, ?_, ?_⟩
  · intro v _ t i hacked
    rcases hacked with ⟨x, m, -, e, he, -⟩ | ⟨h, -⟩
    · rw [hsent] at he
      exact absurd he (by simp)
    · rw [hled] at h
      exact absurd h (by simp)
  · intro e he
    rw [hsent] at he
    exact absurd he (by simp)
  · intro e he
    rw [hsent] at he
    exact absurd he (by simp)
  · intro x u h
    rw [hled] at h
    exact absurd h (by simp)

/-! ## Leader completeness

Here the two quorums meet. The induction is on the term of the later leader, for a voter may have
lost the entry to a leader in between. -/

/-- The leader of `t` wrote index `i` in its own term, and a quorum acknowledged it. -/
structure Chosen (g : Group) (w : World) (t i : Nat) : Prop where
  led : w.books.Led t
  own : (w.opening t).length ≤ i
  quorum : ∃ S : Finset Uuid, S ⊆ g.members.toFinset ∧ (g.size - 1) / 2 < S.card ∧
    ∀ v ∈ S, w.Acked v t i

theorem Chosen.mono (hev : Evolves w w') {t i : Nat} (h : Chosen g w t i) : Chosen g w' t i := by
  obtain ⟨S, hS, hcard, hacked⟩ := h.quorum
  refine ⟨h.led.mono hev.books, ?_, S, hS, hcard, fun v hv => (hacked v hv).mono hev⟩
  have hopen : w'.opening t = w.opening t := hev.books.opening t h.led
  rw [hopen]
  exact h.own

/-- A log that is as new as one with the chosen entry has it too, if the leaders in between
have it. -/
theorem Books.LogOk.agree_of_newer {b : Books} {l l' : List LogEntry} {t i u : Nat}
    (h : b.LogOk l) (hterms : ∀ s, b.TermOk s) (htpos : 1 ≤ t)
    (hpast : ∀ j s, 1 ≤ j → stampAt l j = some s → s < u) (hholds : b.Holds l' t i)
    (hown : (b.opening t).length ≤ i) (hnewer : NoNewer l' (l.length - 1) (lastStamp l))
    (hmid : ∀ s, t < s → s < u → b.Led s → Agree (b.opening s) (b.ledger t) i) :
    Agree l (b.ledger t) i := by
  have ht : t ≤ lastStamp l' := hholds.2 hown
  have hle : lastStamp l' ≤ lastStamp l := by
    rcases hnewer with hlt | ⟨heq, -⟩
    · exact Nat.le_of_lt hlt
    · exact Nat.le_of_eq heq
  have hlen : 1 < l.length := by
    by_contra hshort
    have hzero : lastStamp l = 0 := by
      unfold lastStamp
      exact if_pos (Nat.le_of_not_lt hshort)
    omega
  have hlast := stampAt_last hlen
  obtain ⟨hled, hagree⟩ := h.traced _ _ (by omega) hlast
  rcases Nat.lt_or_ge t (lastStamp l) with hlt | hge
  · -- it ends in a later term, and has all that its leader began with
    have hmid' := hmid _ hlt (hpast _ _ (by omega) hlast) hled
    have hreach := h.reaches hlen
    have hi : i ≤ l.length - 1 := by
      have := hmid'.1
      omega
    have hopen := Agree.of_extends (hterms (lastStamp l)).grown hmid'.1
    exact (hagree.mono hi).trans (hopen.symm.trans hmid')
  · -- it ends in the same term, no earlier than the other log
    have heq : lastStamp l = t := by omega
    have hi : i ≤ l.length - 1 := by
      have := hholds.1.1
      rcases hnewer with hlt | ⟨-, hshort⟩
      · omega
      · omega
    rw [heq] at hagree
    exact hagree.mono hi

theorem Group.size_lt_quorums (h : Odd g.size ∨ g.size = 2) :
    g.size ≤ (g.size - 1) / 2 + g.voteQuorum := by
  unfold Group.voteQuorum
  rcases h with ⟨k, hk⟩ | h2
  · omega
  · omega

/-- **Leader completeness.** What was chosen in a term, every later leader began with.

The voters of the leader of `u` and those that acknowledged are both majorities, so some member is
among both. It still had the commands when it voted, unless a leader between `t` and `u` had
overwritten them; but that one began with them, by induction. And it votes only for a log that is no
older than its own, which then has them as well. -/
theorem Safe.complete (h : Safe g w) (hw : Wired g w) (ht : Terms g w) (hc : Cast g w)
    (hl : Ledgers g w) (hodd : Odd g.size ∨ g.size = 2) {t i : Nat} (hchosen : Chosen g w t i) :
    ∀ u, t < u → w.books.Led u → Agree (w.opening u) (w.ledger t) i := by
  intro u
  induction u using Nat.strong_induction_on with
  | _ u ih =>
    intro htu ⟨x, hx⟩
    obtain ⟨S, hS, hcard, hacked⟩ := hchosen.quorum
    -- somebody has acknowledged the entry and voted for the leader
    have hsize := Group.size_lt_quorums hodd
    have hvotes := hc.card_electorate hw hx
    obtain ⟨v, hv⟩ := Finset.inter_nonempty_of_card_lt_card_add_card hS
      (hc.electorate_subset hw (ht.tenure x u hx).1 u) (by rw [card_members]; omega)
    obtain ⟨hvS, hvE⟩ := Finset.mem_inter.mp hv
    obtain ⟨l, hnewer, hkept⟩ := h.win x u hx v hvE
    obtain ⟨y, hy⟩ := hchosen.led
    rcases hkept t i htu (hacked v hvS) with hholds | ⟨-, r, htr, hru, hled, hnot⟩
    · exact (hl.terms u).start.agree_of_newer hl.terms (ht.tenure y t hy).2.1 (hl.terms u).past
        hholds hchosen.own hnewer fun s hts hsu hled => ih s hsu hts hled
    · exact absurd (ih r (by omega) htr hled) hnot

end Raft
end KvJet
