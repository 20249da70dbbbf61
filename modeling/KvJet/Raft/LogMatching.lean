import KvJet.Raft.Election

/-!
# Log matching

`AppendEntries` carries no terms of its entries, and a follower stamps what it takes in with the
term of the message. So an entry's stamp does not say when its command was proposed, and the
usual argument, that an index and a term name one entry, is not available.

What holds instead: a stamp names a *log*. An entry stamped `s` at index `i`, in whatever log,
has below it the first `i` commands of the log with which the leader of term `s` led
(`Books.Traced`). The books of a world keep these logs: `opening t`, as it was when the leader
of `t` was elected, and `ledger t`, as far as it has grown.

All of this needs that no term has two leaders.
-/

namespace KvJet
namespace Raft

/-- What a world remembers of its leaders. -/
structure Books where
  led : List (Uuid × Nat)
  opening : Nat → List LogEntry
  ledger : Nat → List LogEntry

def World.books (w : World) : Books := ⟨w.led, w.opening, w.ledger⟩

namespace Books

/-- Term `t` has had a leader. -/
def Led (b : Books) (t : Nat) : Prop := ∃ y, (y, t) ∈ b.led

/-- Books are only ever added to. -/
structure Grows (b b' : Books) : Prop where
  led : ∀ p ∈ b.led, p ∈ b'.led
  opening : ∀ t, b.Led t → b'.opening t = b.opening t
  ledger : ∀ t, b.ledger t <+: b'.ledger t

theorem Grows.refl (b : Books) : Grows b b :=
  ⟨fun _ h => h, fun _ _ => rfl, fun _ => List.prefix_refl _⟩

theorem Led.mono {b b' : Books} (hg : Grows b b') {t : Nat} (h : b.Led t) : b'.Led t := by
  obtain ⟨y, hy⟩ := h
  exact ⟨y, hg.led _ hy⟩

/-- Below an entry stamped `s` lie the commands of the leader of `s`. -/
def Traced (b : Books) (l : List LogEntry) : Prop :=
  ∀ i s, 1 ≤ i → stampAt l i = some s → b.Led s ∧ Agree l (b.ledger s) i

/-- A log that ends in a term is no shorter than the log with which that term began. -/
def Reaches (b : Books) (l : List LogEntry) : Prop :=
  1 < l.length → (b.opening (lastStamp l)).length ≤ l.length

/-- A log that is made of the logs of leaders. `traced` is the point; `reaches` is there for the
consistency check, which compares the stamp of a single entry: a log whose last entry has the stamp
of a term has all that this term began with. -/
structure LogOk (b : Books) (l : List LogEntry) : Prop where
  root : l[0]? = some sentinel
  sorted : Sorted l
  traced : b.Traced l
  reaches : b.Reaches l

/-- The stamps in a node's log are of its own term or of earlier ones. A candidate's are earlier,
because no leader of its term has sent it anything yet; so what it then pushes as a leader is the
first with this stamp. -/
structure NodeOk (b : Books) (n : RaftNode) : Prop extends LogOk b n.log where
  bound : ∀ i s, stampAt n.log i = some s → s ≤ n.currentTerm
  older : n.state = .candidate → ∀ i s, stampAt n.log i = some s → s < n.currentTerm

/-- What the books say of one term: its leader began with `opening`, and has only added entries with
its own stamp since. -/
structure TermOk (b : Books) (t : Nat) : Prop where
  grown : b.opening t <+: b.ledger t
  log : LogOk b (b.ledger t)
  start : LogOk b (b.opening t)
  /-- What the leader added carries its term. -/
  own : ∀ i s, (b.opening t).length ≤ i → stampAt (b.ledger t) i = some s → s = t
  /-- What it began with does not. -/
  past : ∀ i s, 1 ≤ i → stampAt (b.opening t) i = some s → s < t
  unwritten : ¬ b.Led t → b.ledger t = [sentinel]

/-- An `AppendEntries` of term `t` is a stretch of the leader's log that went to its end. -/
structure Slice (b : Books) (t prevIdx prevTerm : Nat) (cmds : List Bytes) : Prop where
  inside : prevIdx + cmds.length < (b.ledger t).length
  commands : ∀ j < cmds.length, cmdAt (b.ledger t) (prevIdx + 1 + j) = cmds[j]?
  stamp : stampAt (b.ledger t) prevIdx = some prevTerm
  reach : (b.opening t).length ≤ prevIdx + 1 + cmds.length

/-- The second case is an `AppendEntries` that looks past the end of the leader's log. -/
def WireOk (b : Books) (e : Envelope) : Prop :=
  match e.payload with
  | .appendEntries t prevIdx prevTerm _ cmds =>
    (e.src, t) ∈ b.led ∧ (b.Slice t prevIdx prevTerm cmds ∨
      (cmds = [] ∧ prevTerm = 0 ∧ 1 ≤ prevIdx))
  | _ => True

/-! ## Growing books

The books only grow, so what was said of a log with the help of an earlier book stays true with a
later one. -/

section Mono

variable {b b' : Books} (hg : Grows b b')
include hg

theorem Traced.mono {l : List LogEntry} (h : b.Traced l) : b'.Traced l := by
  intro i s hi hs
  obtain ⟨hled, hagree⟩ := h i s hi hs
  exact ⟨hled.mono hg, hagree.grow (hg.ledger s)⟩

theorem LogOk.mono {l : List LogEntry} (h : b.LogOk l) : b'.LogOk l := by
  refine ⟨h.root, h.sorted, h.traced.mono hg, fun hlen => ?_⟩
  have hled := (h.traced (l.length - 1) _ (by omega) (stampAt_last hlen)).1
  rw [hg.opening _ hled]
  exact h.reaches hlen

theorem NodeOk.mono {n : RaftNode} (h : b.NodeOk n) : b'.NodeOk n :=
  ⟨h.toLogOk.mono hg, h.bound, h.older⟩

theorem Slice.mono {t prevIdx prevTerm : Nat} {cmds : List Bytes} (hled : b.Led t)
    (h : b.Slice t prevIdx prevTerm cmds) : b'.Slice t prevIdx prevTerm cmds := by
  have hlen := (hg.ledger t).length_le
  have hin := h.inside
  refine ⟨Nat.lt_of_lt_of_le hin hlen, ?_, ?_, ?_⟩
  · intro j hj
    rw [cmdAt_of_extends (hg.ledger t) (by omega)]
    exact h.commands j hj
  · rw [stampAt_of_extends (hg.ledger t) (by omega)]
    exact h.stamp
  · rw [hg.opening t hled]
    exact h.reach

theorem WireOk.mono {e : Envelope} (h : b.WireOk e) : b'.WireOk e := by
  unfold WireOk at h ⊢
  split at h
  · obtain ⟨hled, hslice⟩ := h
    refine ⟨hg.led _ hled, ?_⟩
    rcases hslice with hslice | hblank
    · exact Or.inl (hslice.mono hg ⟨_, hled⟩)
    · exact Or.inr hblank
  · trivial

/-- A term whose own book has not changed. -/
theorem TermOk.mono {t : Nat} (h : b.TermOk t) (hopen : b'.opening t = b.opening t)
    (hledger : b'.ledger t = b.ledger t) : b'.TermOk t := by
  refine ⟨?_, ?_, ?_, ?_, ?_, ?_⟩
  · rw [hopen, hledger]
    exact h.grown
  · rw [hledger]
    exact h.log.mono hg
  · rw [hopen]
    exact h.start.mono hg
  · rw [hopen, hledger]
    exact h.own
  · rw [hopen]
    exact h.past
  · intro hnot
    rw [hledger]
    exact h.unwritten fun hled => hnot (hled.mono hg)

end Mono

/-! ## A follower's log

A follower's log before and after a message. The message is a stretch of a ledger (`Slice`), and
what the splice keeps of the old log it keeps because of a stamp; so both halves of the new log are
traced to the same leader. -/

section Splice

variable {b : Books} {l : List LogEntry} {t prevIdx prevTerm : Nat} {cmds : List Bytes}

theorem LogOk.pos (h : b.LogOk l) : 0 < l.length := (List.getElem?_eq_some_iff.mp h.root).1

theorem LogOk.agree_zero {l' : List LogEntry} (h : b.LogOk l) (h' : b.LogOk l') : Agree l l' 0 := by
  refine ⟨h.pos, h'.pos, fun j hj => ?_⟩
  rw [Nat.le_zero.mp hj]
  unfold cmdAt
  rw [h.root, h'.root]

theorem LogOk.prev_lt (h : b.LogOk l) (hprev : prevIdx = 0 ∨ stampAt l prevIdx = some prevTerm) :
    prevIdx < l.length := by
  rcases hprev with rfl | hs
  · exact h.pos
  · exact lt_length_of_stampAt hs

/-- Where the consistency check passes, the logs agree. -/
theorem LogOk.agree_prev (h : b.LogOk l) (ht : b.TermOk t) (hslice : b.Slice t prevIdx prevTerm cmds)
    (hprev : prevIdx = 0 ∨ stampAt l prevIdx = some prevTerm) : Agree l (b.ledger t) prevIdx := by
  by_cases h0 : prevIdx = 0
  · rw [h0]
    exact h.agree_zero ht.log
  · have hs : stampAt l prevIdx = some prevTerm := hprev.resolve_left h0
    have hone : 1 ≤ prevIdx := Nat.pos_of_ne_zero h0
    exact (h.traced _ _ hone hs).2.trans (ht.log.traced _ _ hone hslice.stamp).2.symm

/-- **After the splice the log agrees with the leader's as far as the message went.**

Up to `prevIdx` the two agree because one entry has the leader's stamp (`agree_prev`). Behind it the
splice keeps what has the stamp of the term, which is of the same leader, and writes the rest from
the message. -/
theorem LogOk.agree_splice (h : b.LogOk l) (ht : b.TermOk t)
    (hslice : b.Slice t prevIdx prevTerm cmds)
    (hprev : prevIdx = 0 ∨ stampAt l prevIdx = some prevTerm) :
    Agree (splice t (prevIdx + 1) cmds l) (b.ledger t) (prevIdx + cmds.length) := by
  have hlt := h.prev_lt hprev
  have hagree := h.agree_prev ht hslice hprev
  rcases splice_cases t cmds hlt with ⟨heq, hstamps⟩ |
    ⟨c, hpc, hcle, -, hkept, -, hlen, hold, hnew⟩
  · rw [heq]
    by_cases h0 : cmds.length = 0
    · rw [h0]
      exact hagree
    · exact (h.traced _ _ (by omega) (hstamps _ (by omega) (Nat.le_refl _))).2
  · refine ⟨by omega, hslice.inside, fun j hj => ?_⟩
    rcases Nat.lt_or_ge j c with hjc | hjc
    · have hcmd : cmdAt (splice t (prevIdx + 1) cmds l) j = cmdAt l j := by
        unfold cmdAt
        rw [hold j hjc]
      rw [hcmd]
      rcases Nat.lt_or_ge prevIdx j with hpj | hpj
      · exact (h.traced j t (by omega) (hkept j hpj hjc)).2.2.2 j (Nat.le_refl j)
      · exact hagree.2.2 j hpj
    · have hcommand := hslice.commands (j - prevIdx - 1) (by omega)
      rw [show prevIdx + 1 + (j - prevIdx - 1) = j by omega] at hcommand
      unfold cmdAt at hcommand ⊢
      rw [hnew j hjc hj, hcommand, Option.map_map]
      simp [Function.comp_def]

/-- **The splice keeps a log in order.** -/
theorem LogOk.splice (h : b.LogOk l) (ht : b.TermOk t) (hled : b.Led t)
    (hbound : ∀ i s, stampAt l i = some s → s ≤ t) (hslice : b.Slice t prevIdx prevTerm cmds)
    (hprev : prevIdx = 0 ∨ stampAt l prevIdx = some prevTerm) :
    b.LogOk (splice t (prevIdx + 1) cmds l) ∧
      ∀ i s, stampAt (Raft.splice t (prevIdx + 1) cmds l) i = some s → s ≤ t := by
  have hagree := h.agree_splice ht hslice hprev
  have hordered := (Ordered.mk h.root h.sorted hbound).splice cmds (h.prev_lt hprev)
  refine ⟨⟨hordered.root, hordered.sorted, ?_, ?_⟩, hordered.bound⟩
  · intro i s hi hs
    obtain ⟨c, -, hold, hcases⟩ := stampAt_splice t cmds (h.prev_lt hprev)
    rcases hcases i s hs with ⟨hic, hs'⟩ | ⟨-, hile, rfl⟩
    · obtain ⟨hled', hag⟩ := h.traced i s hi hs'
      exact ⟨hled', hag.congr (lt_length_of_stampAt hs) fun j hj => hold j (by omega)⟩
    · exact ⟨hled, hagree.mono hile⟩
  · rcases splice_lastStamp t cmds (h.prev_lt hprev) with ⟨heq, -⟩ | ⟨hlen, hlast⟩
    · rw [heq]
      exact h.reaches
    · intro _
      rw [hlast, hlen]
      exact hslice.reach

/-- A leader that adds an entry of its own term keeps its log in order. -/
theorem LogOk.push (h : b.LogOk l) (cmd : Bytes) (hbound : ∀ i s, stampAt l i = some s → s ≤ t)
    (hled : b.Led t) (hledger : b.ledger t = l ++ [⟨t, cmd⟩])
    (hopen : (b.opening t).length ≤ l.length + 1) : b.LogOk (l ++ [⟨t, cmd⟩]) := by
  have hordered := (Ordered.mk h.root h.sorted hbound).push cmd
  have hlen : (l ++ [(⟨t, cmd⟩ : LogEntry)]).length = l.length + 1 := by simp
  have hlast : stampAt (l ++ [⟨t, cmd⟩]) l.length = some t := by simp [stampAt]
  refine ⟨hordered.root, hordered.sorted, ?_, ?_⟩
  · intro i s hi hs
    have hilt := lt_length_of_stampAt hs
    rcases Nat.lt_or_ge i l.length with hil | hil
    · rw [stampAt_append_left hil] at hs
      obtain ⟨hled', hag⟩ := h.traced i s hi hs
      exact ⟨hled', hag.congr hilt fun j hj => List.getElem?_append_left (by omega)⟩
    · rw [show i = l.length by omega, hlast, Option.some.injEq] at hs
      rw [← hs, hledger]
      exact ⟨hled, Agree.refl hilt⟩
  · intro hlen1
    rw [lastStamp_eq hlen1 (by rw [hlen]; exact hlast), hlen]
    exact hopen

end Splice

theorem NodeOk.of_log {b : Books} {n n' : RaftNode} (h : b.NodeOk n) (hlog : n'.log = n.log)
    (hterm : n.currentTerm ≤ n'.currentTerm)
    (hcand : n'.state = .candidate → n.currentTerm < n'.currentTerm ∨ n.state = .candidate) :
    b.NodeOk n' := by
  refine ⟨by rw [hlog]; exact h.toLogOk, ?_, ?_⟩
  · rw [hlog]
    exact fun i s hs => Nat.le_trans (h.bound i s hs) hterm
  · rw [hlog]
    intro hst i s hs
    rcases hcand hst with hlt | hold
    · exact Nat.lt_of_le_of_lt (h.bound i s hs) hlt
    · exact Nat.lt_of_lt_of_le (h.older hold i s hs) hterm

/-- The `AppendEntries` of a leader whose log is in the books. -/
theorem wireOk_plain {b : Books} {n : RaftNode} {e : Envelope} (hplain : Plain n e.payload)
    (hn : b.LogOk n.log) (ht : b.TermOk n.currentTerm)
    (hled : n.state = .leader → (e.src, n.currentTerm) ∈ b.led)
    (hbook : n.state = .leader → b.ledger n.currentTerm = n.log) : b.WireOk e := by
  unfold WireOk
  split
  · rename_i t prevIdx prevTerm leaderCommit cmds hp
    rw [hp] at hplain
    obtain ⟨hst, rfl, -, hprev, hcmds⟩ := hplain
    refine ⟨hled hst, ?_⟩
    have hledger := hbook hst
    have hopen := ht.grown.length_le
    rw [hledger] at hopen
    have hlen : cmds.length = n.log.length - (prevIdx + 1) := by simp [hcmds]
    rcases Nat.lt_or_ge prevIdx n.log.length with hlt | hge
    · left
      obtain ⟨s, hs⟩ := stampAt_isSome hlt
      refine ⟨by rw [hledger]; omega, ?_, ?_, by omega⟩
      · intro j _
        rw [hledger, hcmds, List.getElem?_map, List.getElem?_drop]
        rfl
      · rw [hledger, hprev, hs]
        rfl
    · right
      have hpos := hn.pos
      refine ⟨List.eq_nil_of_length_eq_zero (by omega), ?_, by omega⟩
      have hnone : stampAt n.log prevIdx = none := by simp [stampAt, hge]
      rw [hprev, hnone]
      rfl
  · trivial

end Books

/-! ## The books of a run

Move by move. Only a leader's own proposal writes in a ledger, and only an election opens one. -/

/-- The books are right about all members and all messages. The log of a leader is the ledger of its
term, for only it pushes entries of this term; everybody else gets them from its messages (`wire`).
-/
structure Ledgers (g : Group) (w : World) : Prop where
  book : ∀ x ∈ g.members, (w.node x).state = .leader →
    w.ledger (w.node x).currentTerm = (w.node x).log
  nodes : ∀ x ∈ g.members, w.books.NodeOk (w.node x)
  terms : ∀ t, w.books.TermOk t
  wire : ∀ e ∈ w.sent, w.books.WireOk e

variable {g : Group} {c : Care} {w : World}

theorem books_act_of_ne {x : Uuid} {r : RaftNode × List RaftMessage}
    (h : r.1.state ≠ .leader) : (w.act x r).books = w.books := by
  unfold World.books
  rw [World.act_led_of_ne h, World.act_opening_of_ne h, World.act_ledger_of_ne h]

/-- A leader that goes on with the same log adds nothing to the books. -/
theorem books_act_of_book {x : Uuid} {r : RaftNode × List RaftMessage}
    (hled : (x, r.1.currentTerm) ∈ w.led) (hbook : w.ledger r.1.currentTerm = r.1.log) :
    (w.act x r).books = w.books := by
  by_cases h : r.1.state = .leader
  · unfold World.books
    rw [World.act_led h, World.act_opening h, World.act_ledger h, if_pos hled, if_pos hled,
      ← hbook, Function.update_eq_self]
  · exact books_act_of_ne h

/-- What an action has to meet to keep the books. -/
theorem Ledgers.act (h : Ledgers g w) {x : Uuid} {n' : RaftNode} {ms : List RaftMessage}
    (hgrows : w.books.Grows (w.act x (n', ms)).books)
    (hothers : ∀ y ∈ g.members, y ≠ x → (w.node y).state = .leader →
      (w.act x (n', ms)).ledger (w.node y).currentTerm = w.ledger (w.node y).currentTerm)
    (hbook : n'.state = .leader → (w.act x (n', ms)).ledger n'.currentTerm = n'.log)
    (hnode : (w.act x (n', ms)).books.NodeOk n')
    (hterms : ∀ t, (w.act x (n', ms)).books.TermOk t)
    (hwire : ∀ m ∈ ms, (w.act x (n', ms)).books.WireOk ⟨x, m.target, m.payload, n'.log⟩) :
    Ledgers g (w.act x (n', ms)) := by
  refine ⟨?_, ?_, hterms, ?_⟩
  · intro y hy hst
    rw [World.act_node_apply] at hst ⊢
    split at hst
    · rename_i hyx
      rw [if_pos hyx]
      exact hbook hst
    · rename_i hyx
      rw [if_neg hyx, hothers y hy hyx hst]
      exact h.book y hy hst
  · intro y hy
    rw [World.act_node_apply]
    split
    · exact hnode
    · exact (h.nodes y hy).mono hgrows
  · intro e he
    rw [World.act_sent] at he
    rcases List.mem_append.mp he with hold | hnew
    · exact (h.wire e hold).mono hgrows
    · obtain ⟨m, hm, rfl⟩ := List.mem_map.mp hnew
      exact hwire m hm

/-- An action that leaves the books alone. -/
theorem Ledgers.act_keep (h : Ledgers g w) {x : Uuid} {n' : RaftNode} {ms : List RaftMessage}
    (hbooks : (w.act x (n', ms)).books = w.books)
    (hbook : n'.state = .leader → w.ledger n'.currentTerm = n'.log)
    (hnode : w.books.NodeOk n')
    (hwire : ∀ m ∈ ms, w.books.WireOk ⟨x, m.target, m.payload, n'.log⟩) :
    Ledgers g (w.act x (n', ms)) ∧ w.books.Grows (w.act x (n', ms)).books := by
  have hledger : (w.act x (n', ms)).ledger = w.ledger := congrArg Books.ledger hbooks
  have hgrows : w.books.Grows (w.act x (n', ms)).books := by
    rw [hbooks]
    exact Books.Grows.refl _
  refine ⟨h.act hgrows ?_ ?_ ?_ ?_ ?_, hgrows⟩
  · intro y _ _ _
    rw [hledger]
  · rw [hledger]
    exact hbook
  · rw [hbooks]
    exact hnode
  · rw [hbooks]
    exact h.terms
  · rw [hbooks]
    exact hwire

/-- An action that changes neither term, role nor log. -/
theorem Ledgers.act_same (h : Ledgers g w) (ht : Terms g w) {x : Uuid} {n' : RaftNode}
    {ms : List RaftMessage} (hx : x ∈ g.members) (hterm : n'.currentTerm = (w.node x).currentTerm)
    (hstate : n'.state = (w.node x).state) (hlog : n'.log = (w.node x).log)
    (hms : ∀ m ∈ ms, Plain n' m.payload ∨
      ∀ term prevIdx prevTerm leaderCommit cmds,
        m.payload ≠ .appendEntries term prevIdx prevTerm leaderCommit cmds) :
    Ledgers g (w.act x (n', ms)) ∧ w.books.Grows (w.act x (n', ms)).books := by
  have hseat : n'.state = .leader → (x, n'.currentTerm) ∈ w.led := by
    rw [hstate, hterm]
    exact ht.seat x hx
  have hbook : n'.state = .leader → w.ledger n'.currentTerm = n'.log := by
    rw [hstate, hterm, hlog]
    exact h.book x hx
  have hnode : w.books.NodeOk n' := (h.nodes x hx).of_log hlog (Nat.le_of_eq hterm.symm)
    fun hst => Or.inr (hstate ▸ hst)
  refine h.act_keep ?_ hbook hnode ?_
  · by_cases hst : n'.state = .leader
    · exact books_act_of_book (hseat hst) (hbook hst)
    · exact books_act_of_ne hst
  · intro m hm
    rcases hms m hm with hplain | hne
    · exact Books.wireOk_plain hplain hnode.toLogOk (h.terms _) hseat hbook
    · unfold Books.WireOk
      split
      · rename_i hp
        exact absurd hp (hne _ _ _ _ _)
      · trivial

theorem led_move {w' : World} (hm : Move g c w w') {p : Uuid × Nat} (h : p ∈ w.led) :
    p ∈ w'.led := by
  obtain ⟨y, t⟩ := p
  cases hm with
  | _ => exact mem_led_act.mpr (Or.inl h)

theorem sent_move {w' : World} (hm : Move g c w w') {e : Envelope} (h : e ∈ w.sent) :
    e ∈ w'.sent := by
  cases hm with
  | _ =>
    show e ∈ (World.act _ _ _).sent
    rw [World.act_sent]
    exact List.mem_append_left _ h

theorem World.SingleLeader.of_led {w' : World} (hled : ∀ p ∈ w.led, p ∈ w'.led)
    (h : w'.SingleLeader) : w.SingleLeader :=
  fun a b t ha hb => h a b t (hled _ ha) (hled _ hb)

theorem World.SingleLeader.of_nodup (h : (w.led.map Prod.snd).Nodup) : w.SingleLeader :=
  fun _ _ _ ha hb => congrArg Prod.fst (List.inj_on_of_nodup_map h ha hb rfl)

section Write

variable {x : Uuid} {n' : RaftNode} {ms : List RaftMessage}

theorem ledger_act (hl : n'.state = .leader) :
    (w.act x (n', ms)).books.ledger n'.currentTerm = n'.log := by
  show (w.act x (n', ms)).ledger _ = _
  rw [World.act_ledger hl]
  exact Function.update_self ..

theorem ledger_act_ne (hl : n'.state = .leader) {t : Nat} (hne : t ≠ n'.currentTerm) :
    (w.act x (n', ms)).books.ledger t = w.books.ledger t := by
  show (w.act x (n', ms)).ledger _ = _
  rw [World.act_ledger hl]
  exact Function.update_of_ne hne ..

theorem opening_act_ne (hl : n'.state = .leader) {t : Nat} (hne : t ≠ n'.currentTerm) :
    (w.act x (n', ms)).books.opening t = w.books.opening t := by
  show (w.act x (n', ms)).opening _ = _
  rw [World.act_opening hl]
  split
  · rfl
  · exact Function.update_of_ne hne ..

/-- An action of a leader that writes in the book of its own term. -/
theorem Ledgers.act_write (h : Ledgers g w) (ht : Terms g w)
    (hsingle : (w.act x (n', ms)).SingleLeader) (hl : n'.state = .leader)
    (hopen : w.books.Led n'.currentTerm →
      (w.act x (n', ms)).books.opening n'.currentTerm = w.books.opening n'.currentTerm)
    (hledger : w.books.ledger n'.currentTerm <+: n'.log)
    (hterm : w.books.Grows (w.act x (n', ms)).books →
      (w.act x (n', ms)).books.TermOk n'.currentTerm)
    (hbound : ∀ i s, stampAt n'.log i = some s → s ≤ n'.currentTerm)
    (hms : ∀ m ∈ ms, Plain n' m.payload) :
    Ledgers g (w.act x (n', ms)) ∧ w.books.Grows (w.act x (n', ms)).books := by
  have hseat : (x, n'.currentTerm) ∈ (w.act x (n', ms)).led :=
    mem_led_act.mpr (Or.inr ⟨hl, rfl, rfl⟩)
  have hgrows : w.books.Grows (w.act x (n', ms)).books := by
    refine ⟨fun p hp => mem_led_act.mpr (Or.inl hp), fun t hled => ?_, fun t => ?_⟩
    · by_cases hne : t = n'.currentTerm
      · rw [hne] at hled ⊢
        exact hopen hled
      · exact opening_act_ne hl hne
    · by_cases hne : t = n'.currentTerm
      · rw [hne, ledger_act hl]
        exact hledger
      · rw [ledger_act_ne hl hne]
  have hterm' := hterm hgrows
  have hlogok : (w.act x (n', ms)).books.LogOk n'.log := by
    have := hterm'.log
    rwa [ledger_act hl] at this
  refine ⟨h.act hgrows ?_ (fun _ => ledger_act hl) ⟨hlogok, hbound, ?_⟩ ?_ ?_, hgrows⟩
  · -- another leader leads another term
    intro y hy hyx hsty
    refine ledger_act_ne hl fun heq => hyx ?_
    have hyseat := ht.seat y hy hsty
    rw [heq] at hyseat
    exact hsingle y x _ (hgrows.led _ hyseat) hseat
  · intro hc
    rw [hl] at hc
    exact absurd hc (by simp)
  · intro t
    by_cases hne : t = n'.currentTerm
    · rw [hne]
      exact hterm'
    · exact (h.terms t).mono hgrows (opening_act_ne hl hne) (ledger_act_ne hl hne)
  · intro m hm
    exact Books.wireOk_plain (hms m hm) hlogok hterm' (fun _ => hseat) fun _ => ledger_act hl

/-- A leader writes a proposal down. -/
theorem Ledgers.act_push (h : Ledgers g w) (ht : Terms g w)
    (hsingle : (w.act x (n', ms)).SingleLeader) {cmd : Bytes} (hx : x ∈ g.members)
    (hst : (w.node x).state = .leader) (hn : Same n' { w.node x with
      log := (w.node x).log ++ [⟨(w.node x).currentTerm, cmd⟩] })
    (hms : ∀ m ∈ ms, Plain n' m.payload) :
    Ledgers g (w.act x (n', ms)) ∧ w.books.Grows (w.act x (n', ms)).books := by
  have hl : n'.state = .leader := hn.state.trans hst
  have hterm : (w.node x).currentTerm = n'.currentTerm := hn.currentTerm.symm
  have hlog : n'.log = (w.node x).log ++ [⟨n'.currentTerm, cmd⟩] := by
    rw [← hterm]
    exact hn.log
  have hseat := ht.seat x hx hst
  have hbook : w.books.ledger _ = _ := h.book x hx hst
  have hbound := (h.nodes x hx).bound
  rw [hterm] at hseat hbook hbound
  have hold := h.terms n'.currentTerm
  have hopening : (w.act x (n', ms)).books.opening n'.currentTerm
      = w.books.opening n'.currentTerm := by
    show (w.act x (n', ms)).opening _ = _
    rw [World.act_opening hl, if_pos hseat]
    rfl
  have hnew : ∀ i s, stampAt n'.log i = some s →
      stampAt (w.node x).log i = some s ∨ s = n'.currentTerm := by
    intro i s hs
    rcases Nat.lt_or_ge i (w.node x).log.length with hi | hi
    · rw [hlog, stampAt_append_left hi] at hs
      exact Or.inl hs
    · have hlt := lt_length_of_stampAt hs
      rw [hlog, List.length_append, List.length_singleton] at hlt
      have hi' : i = (w.node x).log.length := by omega
      rw [hlog, hi'] at hs
      simp only [stampAt, List.getElem?_concat_length, Option.map_some, Option.some.injEq] at hs
      exact Or.inr hs.symm
  have hgrow : w.books.ledger n'.currentTerm <+: n'.log := by
    rw [hbook, hlog]
    exact List.prefix_append _ _
  refine h.act_write ht hsingle hl (fun _ => hopening) hgrow (fun hgrows => ?_) ?_ hms
  · have hled : (w.act x (n', ms)).books.Led n'.currentTerm := Books.Led.mono hgrows ⟨x, hseat⟩
    refine ⟨?_, ?_, ?_, ?_, ?_, fun hnot => absurd hled hnot⟩
    · rw [hopening, ledger_act hl]
      exact hold.grown.trans hgrow
    · have hlen := hold.grown.length_le
      rw [hbook] at hlen
      rw [ledger_act hl, hlog]
      refine ((h.nodes x hx).toLogOk.mono hgrows).push cmd hbound hled
        ((ledger_act hl).trans hlog) ?_
      rw [hopening]
      exact Nat.le_succ_of_le hlen
    · rw [hopening]
      exact hold.start.mono hgrows
    · rw [hopening, ledger_act hl]
      intro i s hi hs
      rcases hnew i s hs with hs' | rfl
      · rw [← hbook] at hs'
        exact hold.own i s hi hs'
      · rfl
    · rw [hopening]
      exact hold.past
  · intro i s hs
    rcases hnew i s hs with hs' | rfl
    · exact hbound i s hs'
    · exact Nat.le_refl _

/-- The term a candidate wins was led by nobody: it has not led it itself, and no other may. -/
theorem Terms.unled_of_lead (ht : Terms g w) (hsingle : (w.act x (n', ms)).SingleLeader)
    (hst : (w.node x).state = .candidate) (hl : n'.state = .leader)
    (hterm : n'.currentTerm = (w.node x).currentTerm) : ¬ w.books.Led n'.currentTerm := by
  rintro ⟨y, hy⟩
  have hyx : y = x := hsingle y x n'.currentTerm (mem_led_act.mpr (Or.inl hy))
    (mem_led_act.mpr (Or.inr ⟨hl, rfl, rfl⟩))
  rw [hyx, hterm] at hy
  exact Nat.lt_irrefl _ (ht.led_before (by simp [hst]) hy)

/-- A candidate wins: its log opens the book of its term. -/
theorem Ledgers.act_lead (h : Ledgers g w) (ht : Terms g w)
    (hsingle : (w.act x (n', ms)).SingleLeader) (hx : x ∈ g.members)
    (hst : (w.node x).state = .candidate) (hl : n'.state = .leader)
    (hterm : n'.currentTerm = (w.node x).currentTerm) (hlog : n'.log = (w.node x).log)
    (hms : ∀ m ∈ ms, Plain n' m.payload) :
    Ledgers g (w.act x (n', ms)) ∧ w.books.Grows (w.act x (n', ms)).books := by
  have hunled := ht.unled_of_lead hsingle hst hl hterm
  have hnot : (x, n'.currentTerm) ∉ w.led := fun hled => hunled ⟨x, hled⟩
  have hopening : (w.act x (n', ms)).books.opening n'.currentTerm = n'.log := by
    show (w.act x (n', ms)).opening _ = _
    rw [World.act_opening hl, if_neg hnot]
    exact Function.update_self ..
  have hnode := h.nodes x hx
  have hgrow : w.books.ledger n'.currentTerm <+: n'.log := by
    rw [(h.terms _).unwritten hunled, hlog]
    cases hl : (w.node x).log with
    | nil =>
      have := hnode.pos
      rw [hl] at this
      exact absurd this (by simp)
    | cons e l =>
      have hroot := hnode.root
      rw [hl, List.getElem?_cons_zero, Option.some.injEq] at hroot
      rw [hroot]
      exact ⟨l, rfl⟩
  refine h.act_write ht hsingle hl (fun hled => absurd hled hunled) hgrow (fun hgrows => ?_) ?_ hms
  · have hok : (w.act x (n', ms)).books.LogOk n'.log := by
      rw [hlog]
      exact hnode.toLogOk.mono hgrows
    refine ⟨?_, ?_, ?_, ?_, ?_, fun hnot => absurd ?_ hnot⟩
    · rw [hopening, ledger_act hl]
    · rw [ledger_act hl]
      exact hok
    · rw [hopening]
      exact hok
    · rw [hopening, ledger_act hl]
      intro i s hi hs
      exact absurd (lt_length_of_stampAt hs) (Nat.not_lt.mpr hi)
    · rw [hopening, hlog, hterm]
      intro i s _ hs
      exact hnode.older hst i s hs
    · exact ⟨x, mem_led_act.mpr (Or.inr ⟨hl, rfl, rfl⟩)⟩
  · rw [hlog, hterm]
    exact hnode.bound

end Write

/-- An `AppendEntries` of a term reaches a node of that term that does not lead it. -/
theorem Ledgers.not_leader (h : Ledgers g w) (ht : Terms g w) (hsingle : w.SingleLeader)
    {e : Envelope} {term prevIdx prevTerm leaderCommit : Nat} {cmds : List Bytes}
    (hx : e.dst ∈ g.members) (hsrc : e.src ∈ g.peersOf e.dst) (he : e ∈ w.sent)
    (hp : e.payload = .appendEntries term prevIdx prevTerm leaderCommit cmds)
    (hterm : (w.node e.dst).currentTerm = term) : (w.node e.dst).state ≠ .leader := by
  intro hst
  have hseat := ht.seat _ hx hst
  have hwire := h.wire e he
  unfold Books.WireOk at hwire
  rw [hp] at hwire
  rw [hterm] at hseat
  exact (Group.mem_peersOf.mp hsrc).2 (hsingle _ _ _ hwire.1 hseat)

/-- What passes the consistency check is a stretch of the leader's log. -/
theorem Ledgers.slice (h : Ledgers g w) (ht : Terms g w) {e : Envelope}
    {term prevIdx prevTerm leaderCommit : Nat} {cmds : List Bytes} (hx : e.dst ∈ g.members)
    (he : e ∈ w.sent) (hp : e.payload = .appendEntries term prevIdx prevTerm leaderCommit cmds)
    (hprev : prevIdx = 0 ∨ stampAt (w.node e.dst).log prevIdx = some prevTerm) :
    (e.src, term) ∈ w.led ∧ w.books.Slice term prevIdx prevTerm cmds := by
  have hwire := h.wire e he
  unfold Books.WireOk at hwire
  rw [hp] at hwire
  obtain ⟨hled, hslice | ⟨-, hzero, hone⟩⟩ := hwire
  · exact ⟨hled, hslice⟩
  · -- no entry is stamped with term 0
    exfalso
    rcases hprev with h0 | hs
    · omega
    · rw [hzero] at hs
      obtain ⟨⟨y, hy⟩, -⟩ := (h.nodes _ hx).traced _ _ hone hs
      exact absurd (ht.tenure y 0 hy).2.1 (by simp)

theorem Ledgers.recount (h : Ledgers g w) (votes : List (Uuid × Nat × Uuid)) :
    Ledgers g { w with counted := votes } := ⟨h.book, h.nodes, h.terms, h.wire⟩

theorem ledgers_move {w' : World} (ht : Terms g w) (hm : Move g c w w')
    (hsingle : w'.SingleLeader) (h : Ledgers g w) : Ledgers g w' ∧ w.books.Grows w'.books := by
  have hsingle₀ := hsingle.of_led fun _ => led_move hm
  cases hm with
  | @quiet x n' ms hx hn hms =>
    exact h.act_same ht hx hn.currentTerm hn.state hn.log fun m hm => Or.inl (hms m hm).2
  | @stand x n' ms hx hst hn hms =>
    have hne : n'.state ≠ .leader := by
      rw [hn.state]
      simp
    refine h.act_keep (books_act_of_ne hne) (fun hl => absurd hl hne) ?_ ?_
    · exact (h.nodes x hx).of_log hn.log (by rw [hn.currentTerm]; exact Nat.le_succ _)
        fun _ => Or.inl (by rw [hn.currentTerm]; exact Nat.lt_succ_self _)
    · intro m hm
      unfold Books.WireOk
      rw [(hms m hm).2]
      trivial
  | @adopt x n' term hx hterm hn =>
    have hfollower : n'.state = .follower := hn.state
    have hne : n'.state ≠ .leader := by
      rw [hfollower]
      simp
    refine h.act_keep (books_act_of_ne hne) (fun hl => absurd hl hne) ?_ (by simp)
    refine (h.nodes x hx).of_log hn.log ?_ fun hc => ?_
    · rw [hn.currentTerm]
      rcases hterm with hlt | ⟨-, heq, -⟩
      · exact Nat.le_of_lt hlt
      · exact Nat.le_of_eq heq
    · rw [hfollower] at hc
      exact absurd hc (by simp)
  | @accept e n' term prevIdx prevTerm leaderCommit cmds hx hsrc he hp hterm hst hprev htail hkeep hn =>
    have hne := h.not_leader ht hsingle₀ hx hsrc he hp hterm
    have hne' : n'.state ≠ .leader := by
      rw [hn.state]
      exact hne
    have hlog : n'.log = splice term (prevIdx + 1) cmds (w.node e.dst).log := hn.log
    have hterm' : n'.currentTerm = term := hn.currentTerm.trans hterm
    obtain ⟨hled, hslice⟩ := h.slice ht hx he hp hprev
    have hnode := h.nodes _ hx
    have hbound := hnode.bound
    rw [hterm] at hbound
    obtain ⟨hok, hbound'⟩ :=
      hnode.toLogOk.splice (h.terms term) ⟨_, hled⟩ hbound hslice hprev
    refine h.act_keep (books_act_of_ne hne') (fun hl => absurd hl hne') ⟨?_, ?_, ?_⟩ ?_
    · rw [hlog]
      exact hok
    · rw [hlog, hterm']
      exact hbound'
    · intro hc
      rw [hn.state] at hc
      exact absurd hc hst
    · intro m hm
      rw [List.mem_singleton] at hm
      rw [hm]
      trivial
  | @grant e n' term lastIdx lastTerm hx hsrc he hp hterm hcan hok hn =>
    exact h.act_same ht hx hn.currentTerm hn.state hn.log fun m hm =>
      Or.inr (by rw [List.mem_singleton.mp hm]; simp)
  | @count e n' term hx he hp hst hterm hv hn =>
    exact (h.recount _).act_same (ht.recount _) hx hn.currentTerm hn.state hn.log (by simp)
  | @lead x n' hx hst hq h2 hn =>
    exact h.act_lead ht hsingle hx hst hn.state hn.currentTerm hn.log (by simp)
  | @push x n' ms cmd hx hst hn hms =>
    exact h.act_push ht hsingle hx hst hn fun m hm => (hms m hm).2
  | @ack e n' term matchIdx hx he hp hst hterm hr hn =>
    exact h.act_same ht hx hn.currentTerm hn.state hn.log (by simp)
  | @commit x n' stray hx hst hi hterm hn =>
    exact h.act_same ht hx hn.currentTerm hn.state hn.log (by simp)
  | @apply x hx =>
    have h' : Ledgers g (w.act x ((w.node x).takePendingApply.1, [])) ∧
        w.books.Grows (w.act x ((w.node x).takePendingApply.1, [])).books :=
      h.act_same ht hx rfl rfl rfl (by simp)
    exact ⟨⟨h'.1.book, h'.1.nodes, h'.1.terms, h'.1.wire⟩, h'.2⟩

theorem Books.logOk_sentinel (b : Books) : b.LogOk [sentinel] := by
  have hzero : ∀ i s, stampAt [sentinel] i = some s → i = 0 ∧ s = 0 := by
    intro i s hs
    have hi : i < 1 := lt_length_of_stampAt hs
    obtain rfl : i = 0 := by omega
    exact ⟨rfl, (Option.some.inj hs).symm⟩
  refine ⟨rfl, ?_, ?_, fun hlen => absurd hlen (by simp)⟩
  · intro i j s s' _ hs hs'
    rw [(hzero i s hs).2]
    exact Nat.zero_le _
  · intro i s hi hs
    exact absurd (hzero i s hs).1 (Nat.ne_of_gt hi)

theorem ledgers_start (hsize : 2 ≤ g.size) (rand : Uuid → Nat) : Ledgers g (g.start rand) := by
  have hok := Books.logOk_sentinel (g.start rand).books
  have hone : ∀ i s, 1 ≤ i → stampAt [sentinel] i ≠ some s := by
    intro i s hi hs
    exact absurd (lt_length_of_stampAt hs) (Nat.not_lt.mpr hi)
  refine ⟨?_, ?_, ?_, ?_⟩
  · intro x hx hst
    rw [start_node hsize rand hx] at hst
    exact absurd hst (by simp [RaftNode.resetElectionTimer])
  · intro x hx
    rw [start_node hsize rand hx]
    refine ⟨hok, fun i s hs => ?_, fun hc => absurd hc (by simp [RaftNode.resetElectionTimer])⟩
    by_cases hi : i = 0
    · subst hi
      exact Nat.le_of_eq (Option.some.inj hs).symm
    · exact absurd hs (hone i s (Nat.pos_of_ne_zero hi))
  · intro t
    refine ⟨List.prefix_refl _, hok, hok, ?_, ?_, fun _ => rfl⟩
    · intro i s hi hs
      exact absurd hs (hone i s hi)
    · intro i s hi hs
      exact absurd hs (hone i s hi)
  · intro e he
    exact absurd he (by simp [Group.start])

/-- The books of every run in which no term has two leaders. -/
theorem ledgers_exec (hsize : 2 ≤ g.size) (rand : Uuid → Nat) (evs : List Event)
    (hsingle : (g.exec (g.start rand) evs).SingleLeader) :
    Ledgers g (g.exec (g.start rand) evs) := by
  have hinv := exec_invariant (I := fun w => Terms g w ∧ (w.SingleLeader → Ledgers g w)) hsize
    ⟨terms_start hsize rand, fun _ => ledgers_start hsize rand⟩
    (fun w w' _ hm h => ⟨terms_move hm h.1, fun hs =>
      (ledgers_move h.1 hm hs (h.2 (hs.of_led fun _ => led_move hm))).1⟩) (meets_none evs _)
  exact hinv.2.2 hsingle

/-- **Log matching.** In every run in which no term has two leaders, two members' logs that hold
entries of one term at one index hold the same commands up to there.

Both entries have below them the commands of one and the same log, that of the leader of this term,
up to index `i` (`Books.Traced`). A message keeps this up, because where the consistency check finds
the stamp of the entry in front, receiver and sender have the same commands up to there already;
what it then writes is a stretch of the ledger. -/
theorem log_matching (g : Group) (rand : Uuid → Nat) (evs : List Event)
    (hsingle : (g.exec (g.start rand) evs).SingleLeader) (a b : Uuid) (ha : a ∈ g.members)
    (hb : b ∈ g.members) (i : Nat) (ea eb : LogEntry)
    (hea : ((g.exec (g.start rand) evs).node a).log[i]? = some ea)
    (heb : ((g.exec (g.start rand) evs).node b).log[i]? = some eb) (hterm : ea.term = eb.term) :
    ∀ j ≤ i, ((g.exec (g.start rand) evs).node a).log[j]?.map LogEntry.command
      = ((g.exec (g.start rand) evs).node b).log[j]?.map LogEntry.command := by
  by_cases hsize : 2 ≤ g.size
  · have h := ledgers_exec hsize rand evs hsingle
    have hsa : stampAt ((g.exec (g.start rand) evs).node a).log i = some ea.term :=
      stampAt_eq_some.mpr ⟨ea, hea, rfl⟩
    have hsb : stampAt ((g.exec (g.start rand) evs).node b).log i = some ea.term :=
      stampAt_eq_some.mpr ⟨eb, heb, hterm.symm⟩
    have hagree : Agree ((g.exec (g.start rand) evs).node a).log
        ((g.exec (g.start rand) evs).node b).log i := by
      by_cases hi : i = 0
      · rw [hi]
        exact (h.nodes a ha).agree_zero (h.nodes b hb).toLogOk
      · -- both are the log of the leader of that term, up to here
        have hone := Nat.pos_of_ne_zero hi
        exact ((h.nodes a ha).traced i _ hone hsa).2.trans ((h.nodes b hb).traced i _ hone hsb).2.symm
    exact hagree.2.2
  · -- a group of one
    have hab : a = b := by
      have hcard : g.members.toFinset.card ≤ 1 := by
        rw [card_members]
        exact Nat.le_of_lt_succ (Nat.lt_of_not_le hsize)
      exact Finset.card_le_one.mp hcard a (List.mem_toFinset.mpr ha) b (List.mem_toFinset.mpr hb)
    intro j _
    rw [hab]

/-- Node 3 is elected and sends a proposal to node 1. -/
def oneProposal : List Event := oneElection ++ [.propose 3 [97], .deliver 3 0 0]

theorem log_matching_proposal :
    ∃ ea ∈ ((trio.exec (trio.start fun _ => 0) oneProposal).node 3).log[1]?,
      ∃ eb ∈ ((trio.exec (trio.start fun _ => 0) oneProposal).node 1).log[1]?,
        ea.term = eb.term ∧ ∀ j ≤ 1,
          ((trio.exec (trio.start fun _ => 0) oneProposal).node 3).log[j]?.map LogEntry.command
          = ((trio.exec (trio.start fun _ => 0) oneProposal).node 1).log[j]?.map
            LogEntry.command := by
  have hea : ((trio.exec (trio.start fun _ => 0) oneProposal).node 3).log[1]?
      = some ⟨1, [97]⟩ := by decide +kernel
  have heb : ((trio.exec (trio.start fun _ => 0) oneProposal).node 1).log[1]?
      = some ⟨1, [97]⟩ := by decide +kernel
  have hled : (trio.exec (trio.start fun _ => 0) oneProposal).led = [(3, 1)] := by decide +kernel
  refine ⟨_, hea, _, heb, rfl, ?_⟩
  refine log_matching trio (fun _ => 0) oneProposal ?_ 3 1 (by decide) (by decide) 1 _ _ hea heb rfl
  intro a b t ha hb
  rw [hled, List.mem_singleton, Prod.mk.injEq] at ha hb
  rw [ha.1, hb.1]

end Raft
end KvJet
