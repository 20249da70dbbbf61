import KvJet.Raft.Threads

/-!
# The log file and the log

When does the file hold the log? Every entry that is pushed is appended to the disk buffer, by
the thread that pushed it and not always at once; a truncated log is written anew. The invariant
(`Tracks`) is that what is in the file, in the stream and in the disk buffer, and then what the
open proposals have still to append, are together the lines of the log.

Four things break it, and the results exclude them: proposals that append in another order than
they pushed; a message that adds to the log while a pushed entry is still to be appended
(`Ordered`); a rewrite while lines are on their way to the file, which are then in it twice; and a
flush that finds `diskBuf_` empty and returns although the stream holds something (`Gentle`).
-/

namespace KvJet
namespace Raft

/-! ## What a message does to log and file

A message that only adds appends each entry to log and file alike; one that cuts the log has the
file written anew at its end. In between the file is behind, so the two are compared at the end of
the handler. -/

/-- Log and file calls go together: either everything appended to one is appended to the other,
or the whole log is written in the end. -/
def Logged (n n' : RaftNode) : Prop :=
  ∃ es : List LogEntry,
    (n'.log = n.log ++ es ∧ n'.disk = n.disk ++ es.map .append) ∨
    n'.disk = n.disk ++ es.map .append ++ [.rewrite n'.log]

/-- What a message with these commands does to a node. -/
structure Writes (n n' : RaftNode) (cmds : List Bytes) : Prop where
  logged : Logged n n'
  nonempty : n.log ≠ [] → n'.log ≠ []
  entries : ∀ e ∈ n'.log, e ∈ n.log ∨ e.term < 2 ^ 64 ∧ e.command ∈ cmds
  term : n.currentTerm < 2 ^ 64 → n'.currentTerm < 2 ^ 64

variable {n n' : RaftNode} {cmds : List Bytes}

theorem Writes.of_same (hlog : n'.log = n.log) (hdisk : n'.disk = n.disk)
    (hterm : n.currentTerm < 2 ^ 64 → n'.currentTerm < 2 ^ 64) : Writes n n' cmds where
  logged := ⟨[], Or.inl ⟨by simp [hlog], by simp [hdisk]⟩⟩
  nonempty := by rw [hlog]; exact id
  entries := by rw [hlog]; exact fun e he => Or.inl he
  term := hterm

/-- Before and after a message's work on the log, log and file calls may not change. -/
theorem Writes.congr {m m' : RaftNode} (h : Writes m m' cmds) (hlog : m.log = n.log)
    (hdisk : m.disk = n.disk) (hterm : n.currentTerm < 2 ^ 64 → m.currentTerm < 2 ^ 64)
    (hlog' : n'.log = m'.log) (hdisk' : n'.disk = m'.disk)
    (hterm' : n'.currentTerm = m'.currentTerm) : Writes n n' cmds where
  logged := by
    obtain ⟨es, h⟩ := h.logged
    rw [hlog, hdisk, ← hlog', ← hdisk'] at h
    exact ⟨es, h⟩
  nonempty := by
    have := h.nonempty
    rwa [hlog, ← hlog'] at this
  entries := by
    have := h.entries
    rwa [hlog, ← hlog'] at this
  term := fun hn => by
    rw [hterm']
    exact h.term (hterm hn)

namespace RaftNode

/-- One command of the loop. -/
def appendOne (term idx : Nat) (cmd : Bytes) (n : RaftNode) : RaftNode × Bool :=
  let stale := (n.log[idx]?.map fun e => decide (e.term ≠ term)).getD false
  let n := if stale then { n with log := n.log.take idx } else n
  (if idx ≥ n.log.length then
    ({ n with log := n.log ++ [⟨term, cmd⟩] } : RaftNode).record (.append ⟨term, cmd⟩)
  else n, stale)

theorem appendLoop_cons (term idx : Nat) (cmd : Bytes) (cmds : List Bytes) (n : RaftNode)
    (truncated : Bool) :
    appendLoop term idx (cmd :: cmds) (n, truncated)
      = appendLoop term (idx + 1) cmds
          ((appendOne term idx cmd n).1, truncated || (appendOne term idx cmd n).2) := rfl

/-- Log and file calls after part of the loop. -/
structure Looped (n : RaftNode) (truncated : Bool) (cmds : List Bytes) (term : Nat)
    (r : RaftNode × Bool) : Prop where
  logged : ∃ es : List LogEntry, r.1.disk = n.disk ++ es.map .append ∧
    (r.2 = false → truncated = false ∧ r.1.log = n.log ++ es)
  nonempty : n.log ≠ [] → r.1.log ≠ []
  entries : ∀ e ∈ r.1.log, e ∈ n.log ∨ e.term = term ∧ e.command ∈ cmds
  currentTerm : r.1.currentTerm = n.currentTerm

/-- The entry is cut off, and with it gone the command is appended; or the log ends before the
command and it is appended; or the command is there already. -/
theorem appendOne_cases (n : RaftNode) (term idx : Nat) (cmd : Bytes) :
    appendOne term idx cmd n
        = (({ n with log := n.log.take idx ++ [⟨term, cmd⟩] } : RaftNode).record
            (.append ⟨term, cmd⟩), true) ∨
      appendOne term idx cmd n
        = (({ n with log := n.log ++ [⟨term, cmd⟩] } : RaftNode).record
            (.append ⟨term, cmd⟩), false) ∨
      appendOne term idx cmd n = (n, false) := by
  by_cases hge : n.log.length ≤ idx
  · exact Or.inr (Or.inl (by simp [appendOne, hge]))
  · have hlt : idx < n.log.length := Nat.lt_of_not_le hge
    by_cases hterm : n.log[idx].term = term
    · exact Or.inr (Or.inr (by simp [appendOne, hlt, hterm]))
    · exact Or.inl (by simp [appendOne, hlt, hterm])

theorem mem_appended {l l' : List LogEntry} {term : Nat} {cmd : Bytes} (h : l ⊆ l') :
    ∀ e ∈ l ++ [⟨term, cmd⟩], e ∈ l' ∨ e.term = term ∧ e.command ∈ [cmd] := by
  intro e he
  rcases List.mem_append.mp he with hold | hnew
  · exact Or.inl (h hold)
  · rw [List.mem_singleton.mp hnew]
    exact Or.inr ⟨rfl, List.mem_singleton_self _⟩

theorem appendOne_looped (n : RaftNode) (term idx : Nat) (cmd : Bytes) (truncated : Bool) :
    Looped n truncated [cmd] term
      ((appendOne term idx cmd n).1, truncated || (appendOne term idx cmd n).2) := by
  rcases n.appendOne_cases term idx cmd with h | h | h
  · rw [h]
    exact ⟨⟨[⟨term, cmd⟩], rfl, by simp⟩, by simp [record],
      mem_appended (List.take_subset _ _), rfl⟩
  · rw [h, Bool.or_false]
    exact ⟨⟨[⟨term, cmd⟩], rfl, fun h => ⟨h, rfl⟩⟩, by simp [record],
      mem_appended (List.Subset.refl _), rfl⟩
  · rw [h, Bool.or_false]
    exact ⟨⟨[], by simp, fun h => ⟨h, by simp⟩⟩, id, fun e he => Or.inl he, rfl⟩

theorem Looped.trans {n m : RaftNode} {t₀ t₁ : Bool} {cmds₀ cmds₁ : List Bytes} {term : Nat}
    {r : RaftNode × Bool} (h₀ : Looped n t₀ cmds₀ term (m, t₁)) (h₁ : Looped m t₁ cmds₁ term r) :
    Looped n t₀ (cmds₀ ++ cmds₁) term r where
  logged := by
    obtain ⟨es₀, hdisk₀, hlog₀⟩ := h₀.logged
    obtain ⟨es₁, hdisk₁, hlog₁⟩ := h₁.logged
    refine ⟨es₀ ++ es₁, ?_, fun hr => ?_⟩
    · rw [hdisk₁, hdisk₀, List.map_append, List.append_assoc]
    · obtain ⟨ht₁, hl₁⟩ := hlog₁ hr
      obtain ⟨ht₀, hl₀⟩ := hlog₀ ht₁
      exact ⟨ht₀, by rw [hl₁, hl₀, List.append_assoc]⟩
  nonempty := fun h => h₁.nonempty (h₀.nonempty h)
  entries := by
    intro e he
    rcases h₁.entries e he with hold | ⟨hterm, hcmd⟩
    · exact (h₀.entries e hold).imp_right fun h => ⟨h.1, List.mem_append_left _ h.2⟩
    · exact Or.inr ⟨hterm, List.mem_append_right _ hcmd⟩
  currentTerm := h₁.currentTerm.trans h₀.currentTerm

theorem appendLoop_looped (term : Nat) : ∀ (cmds : List Bytes) (idx : Nat) (n : RaftNode)
    (truncated : Bool), Looped n truncated cmds term (appendLoop term idx cmds (n, truncated)) := by
  intro cmds
  induction cmds with
  | nil =>
    intro idx n truncated
    exact ⟨⟨[], by simp [appendLoop], fun h => ⟨h, by simp [appendLoop]⟩⟩, id,
      fun e he => Or.inl he, rfl⟩
  | cons cmd cmds ih =>
    intro idx n truncated
    rw [appendLoop_cons]
    exact (appendOne_looped n term idx cmd truncated).trans (ih (idx + 1) _ _)

theorem appendEntries_writes (n : RaftNode) {term : Nat} (hterm : term < 2 ^ 64) (prevIdx : Nat)
    (cmds : List Bytes) : Writes n (n.appendEntries term prevIdx cmds) cmds := by
  have h := appendLoop_looped term cmds (prevIdx + 1) n false
  unfold appendEntries
  generalize appendLoop term (prevIdx + 1) cmds (n, false) = r at h
  obtain ⟨m, truncated⟩ := r
  obtain ⟨es, hdisk, hlog⟩ := h.logged
  have hentries : ∀ e ∈ m.log, e ∈ n.log ∨ e.term < 2 ^ 64 ∧ e.command ∈ cmds := fun e he =>
    (h.entries e he).imp_right fun ⟨ht, hc⟩ => ⟨ht ▸ hterm, hc⟩
  have hcurrent : n.currentTerm < 2 ^ 64 → m.currentTerm < 2 ^ 64 := fun hn => by
    rw [show m.currentTerm = n.currentTerm from h.currentTerm]
    exact hn
  cases truncated with
  | false => exact ⟨⟨es, Or.inl ⟨(hlog rfl).2, hdisk⟩⟩, h.nonempty, hentries, hcurrent⟩
  | true =>
    refine ⟨⟨es, Or.inr ?_⟩, h.nonempty, hentries, hcurrent⟩
    show m.disk ++ [_] = _
    rw [hdisk]
    rfl

theorem receiveEntries_writes (n : RaftNode) (fromPeer : Uuid) {term : Nat}
    (hterm : term < 2 ^ 64) (prevIdx prevTerm leaderCommit : Nat) (cmds : List Bytes) :
    Writes n (n.receiveEntries fromPeer term prevIdx prevTerm leaderCommit cmds).1 cmds := by
  unfold receiveEntries
  split
  · exact .of_same rfl rfl id
  · refine (n.appendEntries_writes hterm prevIdx cmds).congr rfl rfl id ?_ ?_ ?_
    · dsimp only
      split <;> rfl
    · dsimp only
      split <;> rfl
    · dsimp only
      split <;> rfl

theorem follow_log (n : RaftNode) (term rand : Nat) : (n.follow term rand).log = n.log := by
  unfold follow
  split <;> rfl

theorem follow_disk (n : RaftNode) (term rand : Nat) : (n.follow term rand).disk = n.disk := by
  unfold follow
  split <;> rfl

theorem follow_term (n : RaftNode) {term : Nat} (hterm : term < 2 ^ 64) (rand : Nat)
    (hn : n.currentTerm < 2 ^ 64) : (n.follow term rand).currentTerm < 2 ^ 64 := by
  unfold follow
  split
  · exact hterm
  · exact hn

theorem considerVote_same (n : RaftNode) (fromPeer : Uuid) (lastIdx lastTerm rand : Nat) :
    (n.considerVote fromPeer lastIdx lastTerm rand).1.log = n.log ∧
      (n.considerVote fromPeer lastIdx lastTerm rand).1.disk = n.disk ∧
      (n.considerVote fromPeer lastIdx lastTerm rand).1.currentTerm = n.currentTerm := by
  unfold considerVote
  split <;> exact ⟨rfl, rfl, rfl⟩

theorem step_writes (n : RaftNode) (fromPeer : Uuid) (rand stray : Nat) {payload : Payload}
    (hfits : payload.Fits) :
    Writes n (n.step fromPeer payload rand stray).1 payload.commands := by
  cases payload with
  | appendEntries term prevIdx prevTerm leaderCommit cmds =>
    show Writes n
      (n.handleAppendEntries fromPeer term prevIdx prevTerm leaderCommit cmds rand).1 cmds
    rw [handleAppendEntries_eq]
    split
    · exact .of_same rfl rfl id
    · exact (receiveEntries_writes _ fromPeer hfits.1 prevIdx prevTerm leaderCommit cmds).congr
        (n.follow_log term rand) (n.follow_disk term rand) (n.follow_term hfits.1 rand) rfl rfl rfl
  | appendEntriesReply term success matchIdx =>
    show Writes n (n.handleAppendEntriesReply fromPeer term success matchIdx rand stray).1 _
    unfold handleAppendEntriesReply
    split
    · exact .of_same rfl rfl id
    split
    · exact .of_same rfl rfl fun _ => hfits.1
    dsimp only
    split
    · exact .of_same rfl rfl id
    split
    · unfold advanceCommitIndex
      dsimp only
      split <;> exact .of_same rfl rfl id
    · split <;> exact .of_same rfl rfl id
  | requestVote term lastIdx lastTerm =>
    show Writes n (n.handleRequestVote fromPeer term lastIdx lastTerm rand).1 _
    unfold handleRequestVote
    split
    · exact .of_same rfl rfl id
    · obtain ⟨hlog, hdisk, hcurrent⟩ := considerVote_same
        (if term > n.currentTerm then n.becomeFollower term rand else n) fromPeer lastIdx lastTerm
        rand
      refine .of_same ?_ ?_ fun hn => ?_
      · rw [hlog]
        split <;> rfl
      · rw [hdisk]
        split <;> rfl
      · rw [hcurrent]
        split
        · exact hfits.1
        · exact hn
  | requestVoteReply term granted =>
    show Writes n (n.handleRequestVoteReply term granted rand) _
    unfold handleRequestVoteReply
    split
    · exact .of_same rfl rfl id
    · split
      · exact .of_same rfl rfl fun _ => hfits
      · split
        · dsimp only
          split <;> exact .of_same rfl rfl id
        · exact .of_same rfl rfl id

/-- The clock does not touch the log, and flushes first. -/
theorem tick64_same (n : RaftNode) (rand : Nat) :
    (n.tick64 rand).1.log = n.log ∧ (n.tick64 rand).1.disk = n.disk ++ [.flush] ∧
      (n.tick64 rand).1.currentTerm < 2 ^ 64 := by
  have htick : (n.tick rand).1.log = n.log ∧ (n.tick rand).1.disk = n.disk ++ [.flush] := by
    unfold tick
    dsimp only
    split
    · split <;> exact ⟨rfl, rfl⟩
    · split <;> exact ⟨rfl, rfl⟩
  unfold tick64
  split
  · rename_i hlt
    exact ⟨htick.1, htick.2, hlt⟩
  · exact ⟨htick.1, htick.2, by simp⟩

end RaftNode

theorem Writes.mono {cmds' : List Bytes} (h : Writes n n' cmds) (hsub : cmds ⊆ cmds') :
    Writes n n' cmds' :=
  { h with entries := fun e he => (h.entries e he).imp_right fun h => ⟨h.1, hsub h.2⟩ }

theorem Heard.writes {fromPeer : Uuid} {parts : List Bytes} {rand stray : Nat}
    {outcome : Except Fault (List RaftMessage)} (h : Heard n fromPeer parts rand stray (outcome, n')) :
    Writes n n' (parts.drop 7) := by
  cases h with
  | ignored => exact .of_same rfl rfl id
  | unreadable fault => exact .of_same rfl rfl id
  | message payload hfits hcmds => exact (n.step_writes _ _ _ hfits).mono hcmds
  | broken term hfits hterm fault =>
    exact .of_same (n.follow_log term rand) (n.follow_disk term rand) (n.follow_term hfits rand)

/-! ## The invariant

The file alone cannot be compared with the log, since lines are under way. So everything that is
under way is counted with it, in the order in which it will get there. -/

/-- No command comes with a newline in it. -/
def Act.NewlineFree : Act → Prop
  | .push cmd => lf ∉ cmd
  | .step _ raw _ _ => ∀ cmd ∈ (parseParts raw).drop 7, lf ∉ cmd
  | .tick .. | .take | .write .. | .send .. => True

instance : DecidablePred Act.NewlineFree
  | .push cmd => inferInstanceAs (Decidable (lf ∉ cmd))
  | .step _ raw _ _ => inferInstanceAs (Decidable (∀ cmd ∈ (parseParts raw).drop 7, lf ∉ cmd))
  | .tick .. | .take | .write .. | .send .. => inferInstanceAs (Decidable True)

namespace Threads

/-- The entries that are pushed and not yet appended to the disk buffer. -/
def pending (s : Threads) : List LogEntry := (s.calls.filter fun c => !c.written).map Call.entry

/-- Entries get to the disk buffer in the order of the log: proposals append in the order in which
they pushed, and a message makes the node append only when no proposal has still to. -/
def Ordered (s : Threads) : Act → Prop
  | .write i => ∀ c ∈ s.calls.take i, c.written
  | .step fromPeer raw rand stray =>
    s.pending = [] ∨ (s.step (.step fromPeer raw rand stray)).node.disk = s.node.disk
  | .tick .. | .take | .push .. | .send .. => True

instance (s : Threads) : DecidablePred s.Ordered
  | .write i => inferInstanceAs (Decidable (∀ c ∈ s.calls.take i, c.written))
  | .step .. => inferInstanceAs (Decidable (_ ∨ _))
  | .tick .. | .take | .push .. | .send .. => inferInstanceAs (Decidable True)

/-- File, buffers and open proposals hold the log. -/
structure Tracks (spill : Nat → Nat) (s : Threads) : Prop where
  nonempty : s.node.log ≠ []
  storable : ∀ e ∈ s.node.log, e.Storable
  term : s.node.currentTerm < 2 ^ 64
  contents : (Disk.after spill s.node.disk).contents ++ s.pending.flatMap line
    = (s.node.log.drop 1).flatMap line

variable {spill : Nat → Nat} {s : Threads}

theorem drop_append_of_ne_nil {α : Type} {l : List α} (h : l ≠ []) (l' : List α) :
    (l ++ l').drop 1 = l.drop 1 ++ l' := by
  cases l with
  | nil => exact absurd rfl h
  | cons a l => rfl

theorem Tracks.write {i : Nat} {entry : LogEntry} (h : Tracks spill s)
    (hcall : s.calls[i]? = some ⟨entry, false⟩) (hfirst : ∀ c ∈ s.calls.take i, c.written) :
    Tracks spill { s.become (s.node.record (.append entry)) with
      calls := s.calls.set i ⟨entry, true⟩ } := by
  obtain ⟨hlt, hget⟩ := List.getElem?_eq_some_iff.mp hcall
  have hnone : (s.calls.take i).filter (fun c => !c.written) = [] := by
    rw [List.filter_eq_nil_iff]
    intro c hc
    simp [hfirst c hc]
  have hpending : s.pending
      = entry :: ((s.calls.drop (i + 1)).filter fun c => !c.written).map Call.entry := by
    unfold pending
    conv => lhs; rw [← List.take_append_drop i s.calls, List.drop_eq_getElem_cons hlt, hget]
    rw [List.filter_append, hnone]
    rfl
  have hrest : ((s.calls.set i ⟨entry, true⟩).filter fun c => !c.written)
      = (s.calls.drop (i + 1)).filter fun c => !c.written := by
    rw [List.set_eq_take_append_cons_drop, if_pos hlt, List.filter_append, hnone]
    rfl
  have hafter := Disk.after_appends_contents spill s.node.disk [entry]
  have hcontents := h.contents
  rw [hpending] at hcontents
  refine ⟨h.nonempty, h.storable, h.term, ?_⟩
  unfold pending
  show (Disk.after spill (s.node.disk ++ [.append entry])).contents
    ++ (((s.calls.set i ⟨entry, true⟩).filter _).map _).flatMap line = _
  rw [hrest]
  simp only [List.map_cons, List.map_nil] at hafter
  rw [hafter]
  simp only [List.flatMap_cons, List.flatMap_nil, List.append_nil, List.append_assoc] at hcontents ⊢
  exact hcontents

theorem Tracks.push {cmd : Bytes} {n' : RaftNode} {entry : LogEntry} (h : Tracks spill s)
    (hcmd : lf ∉ cmd) (hpush : s.node.push cmd = some (n', entry)) :
    Tracks spill { s.become n' with calls := s.calls ++ [⟨entry, false⟩] } := by
  obtain ⟨-, hentry, hlog, hdisk, hterm⟩ := RaftNode.push_eq_some hpush
  refine ⟨?_, ?_, ?_, ?_⟩
  · show n'.log ≠ []
    simp [hlog]
  · intro e he
    rcases List.mem_append.mp (hlog ▸ he) with hold | hnew
    · exact h.storable e hold
    · rw [List.mem_singleton.mp hnew, hentry]
      exact ⟨h.term, hcmd⟩
  · show n'.currentTerm < _
    rw [hterm]
    exact h.term
  · show (Disk.after spill n'.disk).contents ++ _ = (n'.log.drop 1).flatMap line
    have hpending : (({ s.become n' with calls := s.calls ++ [⟨entry, false⟩] } : Threads)).pending
        = s.pending ++ [entry] := by
      simp [pending]
    rw [hpending, hdisk, hlog, drop_append_of_ne_nil h.nonempty, List.flatMap_append,
      List.flatMap_append, ← List.append_assoc, h.contents]

theorem Tracks.message {n' : RaftNode} {cmds : List Bytes} (h : Tracks spill s)
    (hw : Writes s.node n' cmds) (hcmds : ∀ cmd ∈ cmds, lf ∉ cmd)
    (hgentle : Disk.Gentle spill n'.disk)
    (hordered : s.pending = [] ∨ n'.disk = s.node.disk) : Tracks spill (s.become n') := by
  refine ⟨hw.nonempty h.nonempty, ?_, hw.term h.term, ?_⟩
  · intro e he
    rcases hw.entries e he with hold | ⟨hterm, hcmd⟩
    · exact h.storable e hold
    · exact ⟨hterm, hcmds _ hcmd⟩
  show (Disk.after spill n'.disk).contents ++ s.pending.flatMap line = (n'.log.drop 1).flatMap line
  have hcontents := h.contents
  obtain ⟨es, ⟨hlog, hdisk⟩ | hdisk⟩ := hw.logged
  · rcases hordered with hnone | hsame
    · rw [hnone] at hcontents ⊢
      rw [hdisk, Disk.after_appends_contents, hlog, drop_append_of_ne_nil h.nonempty,
        List.flatMap_append, ← hcontents]
      simp
    · have hes : es = [] := by
        rw [hsame] at hdisk
        have := List.self_eq_append_right.mp hdisk
        simpa using this
      rw [hsame, hlog, hes, List.append_nil]
      exact hcontents
  · rcases hordered with hnone | hsame
    · rw [hnone, hdisk]
      rw [hdisk] at hgentle
      rw [Disk.contents_rewrite hgentle]
      simp
    · rw [hsame, List.append_assoc] at hdisk
      have := List.self_eq_append_right.mp hdisk
      simp at this

theorem Tracks.tick {rand : Nat} (h : Tracks spill s) :
    Tracks spill (s.become (s.node.tick64 rand).1) := by
  obtain ⟨hlog, hdisk, hterm⟩ := s.node.tick64_same rand
  have hflush : (Disk.after spill (s.node.disk ++ [.flush])).contents
      = (Disk.after spill s.node.disk).contents := by
    rw [Disk.after_append]
    exact Disk.flushDisk_contents _
  refine ⟨?_, ?_, hterm, ?_⟩
  · show (s.node.tick64 rand).1.log ≠ []
    rw [hlog]
    exact h.nonempty
  · show ∀ e ∈ (s.node.tick64 rand).1.log, _
    rw [hlog]
    exact h.storable
  · show (Disk.after spill (s.node.tick64 rand).1.disk).contents ++ s.pending.flatMap line
      = ((s.node.tick64 rand).1.log.drop 1).flatMap line
    rw [hlog, hdisk, hflush]
    exact h.contents

theorem Tracks.send {i : Nat} {entry : LogEntry} (h : Tracks spill s)
    (hcall : s.calls[i]? = some ⟨entry, true⟩) :
    Tracks spill { s with calls := s.calls.eraseIdx i } := by
  obtain ⟨hlt, hget⟩ := List.getElem?_eq_some_iff.mp hcall
  have hpending : (({ s with calls := s.calls.eraseIdx i } : Threads)).pending = s.pending := by
    unfold pending
    conv => rhs; rw [← List.take_append_drop i s.calls, List.drop_eq_getElem_cons hlt, hget]
    rw [List.eraseIdx_eq_take_drop_succ]
    simp
  refine ⟨h.nonempty, h.storable, h.term, ?_⟩
  rw [hpending]
  exact h.contents

theorem Tracks.step {a : Act} (h : Tracks spill s) (hlines : a.NewlineFree) (hord : s.Ordered a)
    (hgentle : Disk.Gentle spill (s.step a).node.disk) : Tracks spill (s.step a) := by
  cases a with
  | tick rand => exact h.tick
  | step fromPeer raw rand stray =>
    exact h.message (RaftNode.stepText_heard raw).writes hlines hgentle hord
  | take => exact ⟨h.nonempty, h.storable, h.term, h.contents⟩
  | push cmd =>
    unfold Threads.step act
    dsimp only
    split
    · exact h
    · rename_i n' entry hpush
      exact h.push hlines hpush
  | write i =>
    unfold Threads.step act
    dsimp only
    split
    · rename_i entry hcall
      exact h.write hcall hord
    · exact h
  | send i =>
    unfold Threads.step act
    dsimp only
    split
    · rename_i entry hcall
      exact h.send hcall
    · exact h

/-- Calls on the file are never forgotten. -/
theorem disk_step (s : Threads) (a : Act) : s.node.disk <+: (s.step a).node.disk := by
  cases a with
  | tick rand =>
    show s.node.disk <+: (s.node.tick64 rand).1.disk
    rw [(s.node.tick64_same rand).2.1]
    exact List.prefix_append _ _
  | step fromPeer raw rand stray =>
    have hheard : Heard s.node fromPeer (parseParts raw) rand stray
      ((RaftNode.stepText fromPeer raw rand stray).call s.node) := RaftNode.stepText_heard raw
    obtain ⟨es, ⟨-, hdisk⟩ | hdisk⟩ := hheard.writes.logged
    · exact ⟨_, hdisk.symm⟩
    · rw [List.append_assoc] at hdisk
      exact ⟨_, hdisk.symm⟩
  | take => exact List.prefix_refl _
  | push cmd =>
    unfold Threads.step act
    dsimp only
    split
    · exact List.prefix_refl _
    · rename_i n' entry hpush
      obtain ⟨-, -, -, hdisk, -⟩ := RaftNode.push_eq_some hpush
      exact ⟨[], by rw [List.append_nil]; exact hdisk.symm⟩
  | write i =>
    unfold Threads.step act
    dsimp only
    split
    · exact List.prefix_append _ _
    · exact List.prefix_refl _
  | send i =>
    unfold Threads.step act
    dsimp only
    split <;> exact List.prefix_refl _

theorem disk_exec (s : Threads) (acts : List Act) :
    s.node.disk <+: (Run.exec Threads.step s acts).node.disk := by
  induction acts generalizing s with
  | nil => exact List.prefix_refl _
  | cons a acts ih => exact (disk_step s a).trans (ih _)

/-- What every act keeps, a run keeps: the calls on the file up to any of its states are among
those up to its last. -/
theorem Tracks.exec (acts : List Act) (h : Tracks spill s) (hlines : ∀ a ∈ acts, a.NewlineFree)
    (hord : Run.Along Threads.step Ordered s acts)
    (hgentle : Disk.Gentle spill (Run.exec Threads.step s acts).node.disk) :
    Tracks spill (Run.exec Threads.step s acts) := by
  induction acts generalizing s with
  | nil => exact h
  | cons a acts ih =>
    obtain ⟨hfirst, hrest⟩ := hord
    obtain ⟨later, hlater⟩ := disk_exec (s.step a) acts
    have hall : Disk.Gentle spill ((s.step a).node.disk ++ later) := by
      rw [hlater]
      exact hgentle
    exact ih (h.step (hlines a List.mem_cons_self) hfirst hall.of_append)
      (fun b hb => hlines b (List.mem_cons_of_mem _ hb)) hrest hgentle

theorem tracks_start (groupId : Nat) (selfId : Uuid) (peers : List Uuid) (rand : Nat) :
    Tracks spill (start (.construct groupId selfId peers rand)) := by
  have hlog : (RaftNode.construct groupId selfId peers rand).log = [sentinel] ∧
      (RaftNode.construct groupId selfId peers rand).disk = [] ∧
      (RaftNode.construct groupId selfId peers rand).currentTerm = 0 := by
    unfold RaftNode.construct
    dsimp only
    split <;> exact ⟨rfl, rfl, rfl⟩
  obtain ⟨hlog, hdisk, hterm⟩ := hlog
  refine ⟨?_, ?_, ?_, ?_⟩
  · show (RaftNode.construct groupId selfId peers rand).log ≠ []
    simp [hlog]
  · show ∀ e ∈ (RaftNode.construct groupId selfId peers rand).log, _
    rw [hlog]
    intro e he
    rw [List.mem_singleton.mp he]
    exact ⟨by decide, by decide⟩
  · show (RaftNode.construct groupId selfId peers rand).currentTerm < _
    simp [hterm]
  · show (Disk.after spill (RaftNode.construct groupId selfId peers rand).disk).contents ++ _
      = ((RaftNode.construct groupId selfId peers rand).log.drop 1).flatMap line
    rw [hlog, hdisk]
    rfl

/-- **The log file.** After a tick with no proposal between its push and its disk append, the file
reads back as the log, if nothing in the run disturbs the order of the entries or the buffers.

Every line of the log is in one of four places: in the file, in the stream, in the disk buffer, or
still with the proposal that has pushed its entry. In this order they are the log, and each act
moves lines from one place to the next (`Tracks`). At the end no proposal is open, and the flush of
a tick moves everything into the file. -/
theorem file_holds_log (spill : Nat → Nat) (groupId : Nat) (selfId : Uuid) (peers : List Uuid)
    (rand rand' : Nat) (acts : List Act) (hlines : ∀ a ∈ acts, a.NewlineFree)
    (hord : Run.Along Threads.step Ordered (start (.construct groupId selfId peers rand)) acts)
    (hgentle : Disk.Gentle spill (Run.exec Threads.step
      (start (.construct groupId selfId peers rand)) (acts ++ [.tick rand'])).node.disk)
    (hdone : (Run.exec Threads.step
      (start (.construct groupId selfId peers rand)) acts).pending = []) :
    let s := Run.exec Threads.step (start (.construct groupId selfId peers rand))
      (acts ++ [.tick rand'])
    loadFromDisk (Disk.after spill s.node.disk).file = .ok (s.node.log.drop 1) := by
  intro s
  have hs : s = (Run.exec Threads.step (start (.construct groupId selfId peers rand)) acts).step
      (.tick rand') := Run.exec_append _ _ _ _
  generalize hmid : Run.exec Threads.step (start (.construct groupId selfId peers rand)) acts
    = mid at hs hdone
  obtain ⟨hlog, hdisk, -⟩ := mid.node.tick64_same rand'
  have hsdisk : s.node.disk = mid.node.disk ++ [.flush] := by rw [hs]; exact hdisk
  have hslog : s.node.log = mid.node.log := by rw [hs]; exact hlog
  have hgentle : Disk.Gentle spill (mid.node.disk ++ [.flush]) := hsdisk ▸ hgentle
  have htracks : Tracks spill mid := by
    rw [← hmid]
    refine Tracks.exec acts (tracks_start groupId selfId peers rand) hlines hord ?_
    rw [hmid]
    exact hgentle.of_append
  have hfile := htracks.contents
  rw [hdone, List.flatMap_nil, List.append_nil] at hfile
  rw [hsdisk, hslog, Disk.file_flush hgentle, hfile]
  exact loadFromDisk_lines fun e he => htracks.storable e (List.mem_of_mem_drop he)

/-- Two proposals at once to a node without peers. -/
theorem file_holds_log_proposals :
    let acts : List Act := [.push (ascii "SET a 1"), .push (ascii "SET b 2"), .write 0, .write 1]
    let s := Run.exec Threads.step (start (.construct 0 1 [] 0)) (acts ++ [.tick 0])
    s.node.log.length = 3 ∧
      loadFromDisk (Disk.after (fun _ => 0) s.node.disk).file = .ok (s.node.log.drop 1) := by
  refine ⟨by decide +kernel, ?_⟩
  exact file_holds_log (fun _ => 0) 0 1 [] 0 0
    [.push (ascii "SET a 1"), .push (ascii "SET b 2"), .write 0, .write 1]
    (by decide +kernel) (by decide +kernel) (by decide +kernel) (by decide +kernel)

/-- A leader of term 1 appends `a`, and the leader of term 2 puts `b` in its place. -/
def replaced : List Act :=
  [.step 2 (ascii "*8\r\n+RAFT_AE\r\n+0\r\n+1\r\n+0\r\n+0\r\n+0\r\n+1\r\n+a\r\n") 0 0,
   .step 2 (ascii "*8\r\n+RAFT_AE\r\n+0\r\n+2\r\n+0\r\n+0\r\n+0\r\n+1\r\n+b\r\n") 0 0]

/-- The log is then `b`, and the file reads as `b`, `a`, `b`. -/
theorem replaced_entry_comes_back :
    let s := Run.exec Threads.step (start (.construct 0 1 [2] 0)) (replaced ++ [.tick 0])
    (∀ a ∈ replaced, a.NewlineFree) ∧ s.pending = [] ∧
      loadFromDisk (Disk.after (fun _ => 0) s.node.disk).file
        = .ok [⟨2, ascii "b"⟩, ⟨1, ascii "a"⟩, ⟨2, ascii "b"⟩] ∧
      loadFromDisk (Disk.after (fun _ => 0) s.node.disk).file ≠ .ok (s.node.log.drop 1) := by
  refine ⟨by decide +kernel, by decide +kernel, by decide +kernel, by decide +kernel⟩

end Threads
end Raft
end KvJet
