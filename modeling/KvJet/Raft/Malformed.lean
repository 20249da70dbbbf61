import KvJet.Raft.Bounds
import KvJet.Raft.LogFile
import KvJet.Raft.RequestCodec

/-!
# Any text, from anyone

Whatever text comes to `RaftNode::step`, no subscript should go out of range, and a text that is
no message should leave the node as it was. `step_safe_iff` says when this fails.

* A leader asks for four fields of an `AppendEntriesReply` and reads the fifth (`ShortReply`).
* A reply makes a leader look past its log (`Overreaching`).
* A text that is no message (`WellFormed`) moves the node (`Moves`): `step` does not look at all
  fields, `std::stoull` takes `3x` and `-1` for numbers, and a node has gone over to the term of an
  `AppendEntries` before it reads the count of the commands.

What is a message is said by the fields alone, and not by what the handlers make of them.
-/

namespace KvJet
namespace Raft

/-! ## Messages

By the fields alone: how many there are, which are numbers, and whether there are as many commands
as the count says. What a handler makes of other fields plays no part. -/

/-- A decimal number that a `uint64_t` can hold. The encoders write a flag with a plus sign in front
of its digit, so one is allowed. -/
def numberOf (field : Bytes) : Option Nat :=
  let digits := if field.head? = some plus then field.tail else field
  if digits ≠ [] ∧ digits.all (Numeral.IsDigit ·) ∧ Numeral.value digits < 2 ^ 64 then
    some (Numeral.value digits)
  else none

def IsNumber (field : Bytes) : Prop := (numberOf field).isSome = true

instance : DecidablePred IsNumber := fun _ => inferInstanceAs (Decidable (_ = _))

/-- A flag is zero or one. -/
def IsFlag (field : Bytes) : Prop := numberOf field = some 0 ∨ numberOf field = some 1

instance : DecidablePred IsFlag := fun _ => inferInstanceAs (Decidable (_ ∨ _))

/-- No commands, or a count and at least as many commands as it says. -/
def Counted : List Bytes → Prop
  | [] => True
  | count :: commands => ∃ k ∈ numberOf count, k ≤ commands.length

instance : DecidablePred Counted
  | [] => inferInstanceAs (Decidable True)
  | _ :: _ => inferInstanceAs (Decidable (∃ k ∈ numberOf _, _))

/-- What follows the group and the term in an `AppendEntries`. -/
def EntriesFields : List Bytes → Prop
  | prevIdx :: prevTerm :: leaderCommit :: rest =>
    IsNumber prevIdx ∧ IsNumber prevTerm ∧ IsNumber leaderCommit ∧ Counted rest
  | _ => False

instance : DecidablePred EntriesFields
  | _ :: _ :: _ :: _ => inferInstanceAs (Decidable (_ ∧ _))
  | [] | [_] | [_, _] => inferInstanceAs (Decidable False)

def ReplyFields : List Bytes → Prop
  | success :: matchIdx :: _ => IsFlag success ∧ IsNumber matchIdx
  | _ => False

instance : DecidablePred ReplyFields
  | _ :: _ :: _ => inferInstanceAs (Decidable (_ ∧ _))
  | [] | [_] => inferInstanceAs (Decidable False)

def VoteFields : List Bytes → Prop
  | lastIdx :: lastTerm :: _ => IsNumber lastIdx ∧ IsNumber lastTerm
  | _ => False

instance : DecidablePred VoteFields
  | _ :: _ :: _ => inferInstanceAs (Decidable (_ ∧ _))
  | [] | [_] => inferInstanceAs (Decidable False)

def VoteReplyFields : List Bytes → Prop
  | granted :: _ => IsFlag granted
  | [] => False

instance : DecidablePred VoteReplyFields
  | _ :: _ => inferInstanceAs (Decidable (IsFlag _))
  | [] => inferInstanceAs (Decidable False)

/-- The fields of one of the four messages: none missing, and no number that is not one or is out of
range. -/
def WellFormed : List Bytes → Prop
  | name :: gid :: term :: fields =>
    IsNumber gid ∧ IsNumber term ∧
      (name = ascii "RAFT_AE" ∧ EntriesFields fields ∨
        name = ascii "RAFT_AER" ∧ ReplyFields fields ∨
        name = ascii "RAFT_RV" ∧ VoteFields fields ∨
        name = ascii "RAFT_RVR" ∧ VoteReplyFields fields)
  | _ => False

instance : DecidablePred WellFormed
  | _ :: _ :: _ :: _ => inferInstanceAs (Decidable (_ ∧ _))
  | [] | [_] | [_, _] => inferInstanceAs (Decidable False)

theorem numberOf_toString {k : Nat} (h : k < 2 ^ 64) : numberOf (toString k) = some k := by
  have hdigits : (toString k).all (Numeral.IsDigit ·) = true :=
    List.all_eq_true.mpr fun c hin => decide_eq_true (Numeral.isDigit_of_mem_render hin)
  have hplus : ¬ (toString k).head? = some plus := fun hhead =>
    not_mem_toString (by decide) k (List.mem_of_mem_head? hhead)
  have hvalue : Numeral.value (toString k) = k := Numeral.value_render k
  unfold numberOf
  rw [if_neg hplus]
  dsimp only
  rw [hvalue, if_pos ⟨Numeral.render_ne_nil k, hdigits, h⟩]

theorem isNumber_toString (x : UInt64) : IsNumber (toString x.toNat) := by
  unfold IsNumber
  rw [numberOf_toString x.toNat_lt]
  rfl

theorem isFlag_flagField (flag : Bool) : IsFlag (flagField flag) := by
  cases flag with
  | false => exact Or.inl (by decide +kernel)
  | true => exact Or.inr (by decide +kernel)

/-- What the four encoders send are messages. -/
theorem wellFormed_encoded (gid term : UInt64) :
    (∀ (prevIdx prevTerm leaderCommit : UInt64) (cmds : List Bytes), cmds.length < 2 ^ 31 - 7 →
      WellFormed (appendEntriesFields gid term prevIdx prevTerm leaderCommit cmds)) ∧
    (∀ (success : Bool) (matchIdx : UInt64),
      WellFormed [ascii "RAFT_AER", toString gid.toNat, toString term.toNat, flagField success,
        toString matchIdx.toNat]) ∧
    (∀ lastIdx lastTerm : UInt64, WellFormed (requestVoteFields gid term lastIdx lastTerm)) ∧
    ∀ granted : Bool,
      WellFormed [ascii "RAFT_RVR", toString gid.toNat, toString term.toNat, flagField granted] := by
  have hgid := isNumber_toString gid
  have hterm := isNumber_toString term
  refine ⟨fun prevIdx prevTerm leaderCommit cmds hlen => ⟨hgid, hterm, Or.inl ⟨rfl, ?_⟩⟩,
    fun success matchIdx => ⟨hgid, hterm, Or.inr (Or.inl ⟨rfl, ?_⟩)⟩,
    fun lastIdx lastTerm => ⟨hgid, hterm, Or.inr (Or.inr (Or.inl ⟨rfl, ?_⟩))⟩,
    fun granted => ⟨hgid, hterm, Or.inr (Or.inr (Or.inr ⟨rfl, isFlag_flagField granted⟩))⟩⟩
  · have hcount : Counted (toString cmds.length :: cmds) :=
      ⟨cmds.length, numberOf_toString (by omega), Nat.le_refl _⟩
    exact ⟨isNumber_toString prevIdx, isNumber_toString prevTerm, isNumber_toString leaderCommit,
      hcount⟩
  · exact ⟨isFlag_flagField success, isNumber_toString matchIdx⟩
  · exact ⟨isNumber_toString lastIdx, isNumber_toString lastTerm⟩

/-- A call did nothing undefined. -/
def InBounds (out : Except Fault (List RaftMessage) × RaftNode) : Prop :=
  ∀ what, out.1 ≠ .error (.undefined what)

namespace RaftNode

/-- Term, role, vote, log, commit index and the arrays of a leader are the same. -/
structure Kept (n n' : RaftNode) : Prop where
  currentTerm : n'.currentTerm = n.currentTerm
  state : n'.state = n.state
  votedFor : n'.votedFor = n.votedFor
  log : n'.log = n.log
  commitIndex : n'.commitIndex = n.commitIndex
  nextIndex : n'.nextIndex = n.nextIndex
  matchIndex : n'.matchIndex = n.matchIndex

theorem Kept.refl (n : RaftNode) : Kept n n := ⟨rfl, rfl, rfl, rfl, rfl, rfl, rfl⟩

def StepSafe (n : RaftNode) (fromPeer : Uuid) (raw : Bytes) (rand : Nat) : Prop :=
  let out := (Checked.stepText none fromPeer raw rand).call n
  InBounds out ∧ (¬ WellFormed (parseParts raw) → Kept n out.2)

/-- A reply without its last field, whose term can be read. -/
def ShortReply (n : RaftNode) (parts : List Bytes) : Prop :=
  parts.head? = some (ascii "RAFT_AER") ∧ n.state = .leader ∧ parts.length = 4 ∧
    (numberAt parts 2).isOk = true

/-! ## Texts that move a node

For each kind of message, when the handler changes the term, the vote, the role, the log or the
indexes. This is what a text that is no message must not do, and it is stated by the values that the
handler reads, as it reads them. -/

/-- The numbers of the text are taken for numbers, the term is not an old one, and it is new, or
the node stands for election, or the node has not taken in yet what the text carries. -/
def EntriesMove (n : RaftNode) (parts : List Bytes) : Prop :=
  6 ≤ parts.length ∧ ∃ term prevIdx prevTerm leaderCommit,
    numberAt parts 2 = .ok term ∧ numberAt parts 3 = .ok prevIdx ∧ numberAt parts 4 = .ok prevTerm ∧
      numberAt parts 5 = .ok leaderCommit ∧ n.currentTerm ≤ term ∧
      (n.currentTerm < term ∨ n.state = .candidate ∨
        ¬ n.Mismatch prevIdx prevTerm ∧ ∃ cmds, commandsOf parts = .ok cmds ∧
          ¬ n.Settled term prevIdx prevTerm leaderCommit cmds)

/-- The match indexes reach an entry of the node's own term that is not committed yet. -/
def Commits (n : RaftNode) : Prop :=
  let newCommit := n.sortedMatch.getD (n.quorum - 1) 0
  n.commitIndex < newCommit ∧ stampAt n.log newCommit = some n.currentTerm

/-- A leader hears of a newer term, or what a peer has now differs from what the arrays have, or
the arrays commit something, or a peer that has refused is not offered the first entry yet. -/
def ReplyMoves (n : RaftNode) (fromPeer : Uuid) (parts : List Bytes) : Prop :=
  n.state = .leader ∧ 4 ≤ parts.length ∧ ∃ term success matchIdx,
    readReply parts = .ok (.appendEntriesReply term success matchIdx) ∧
      (n.currentTerm < term ∨
        fromPeer ∈ n.peers ∧
          let pi := n.peerIndex fromPeer
          if success = true then
            n.nextIndex[pi]? ≠ some (up64 matchIdx) ∨ n.matchIndex[pi]? ≠ some matchIdx ∨ n.Commits
          else 1 < n.nextIndex.getD pi 1)

/-- The term is new, or the node votes. -/
def VoteMoves (n : RaftNode) (parts : List Bytes) : Prop :=
  5 ≤ parts.length ∧ ∃ term lastIdx lastTerm,
    readVote parts = .ok (.requestVote term lastIdx lastTerm) ∧
      (n.currentTerm < term ∨
        n.currentTerm = term ∧ n.votedFor = none ∧ n.logOk lastIdx lastTerm)

/-- A candidate hears of a newer term, or this is the vote that makes it the leader. -/
def VoteReplyMoves (n : RaftNode) (parts : List Bytes) : Prop :=
  n.state = .candidate ∧ 4 ≤ parts.length ∧ ∃ term granted,
    readVoteReply parts = .ok (.requestVoteReply term granted) ∧
      (n.currentTerm < term ∨ granted = true ∧ n.quorum ≤ n.voteCount + 1)

/-- What the text says is news to the node. -/
def Moves (n : RaftNode) (fromPeer : Uuid) (parts : List Bytes) : Prop :=
  match parts with
  | [] => False
  | name :: _ =>
    if name = ascii "RAFT_AE" then n.EntriesMove parts
    else if name = ascii "RAFT_AER" then n.ReplyMoves fromPeer parts
    else if name = ascii "RAFT_RV" then n.VoteMoves parts
    else if name = ascii "RAFT_RVR" then n.VoteReplyMoves parts
    else False

variable {n : RaftNode} {fromPeer : Uuid} {parts : List Bytes} {rand stray : Nat}

/-! ## Reading the fields

The readers fail in two ways: a field that is not there is undefined, and a field that is no number
throws. Only the first one is a subscript. -/

theorem partAt_of_lt {i : Nat} (h : i < parts.length) : partAt parts i = .ok parts[i] := by
  unfold partAt
  rw [List.getElem?_eq_getElem h]

theorem stoull_inBounds (s : Bytes) (what : String) : stoull s ≠ .error (.undefined what) := by
  unfold stoull
  dsimp only
  generalize List.takeWhile _ _ = digits
  split <;> simp

theorem numberAt_inBounds {i : Nat} (h : i < parts.length) (what : String) :
    numberAt parts i ≠ .error (.undefined what) := by
  unfold numberAt
  rw [partAt_of_lt h]
  exact Except.bind_ne_error nofun fun _ =>
    Except.bind_ne_error (stoull_inBounds _ what) fun _ => nofun

theorem commandsOf_inBounds (what : String) : commandsOf parts ≠ .error (.undefined what) := by
  unfold commandsOf
  split
  · rename_i hlen
    exact Except.bind_ne_error (numberAt_inBounds hlen what) fun _ => nofun
  · nofun

/-- Of the fields of a reply only the last can be missing. -/
theorem readReply_undefined_iff (hlen : 4 ≤ parts.length) :
    (∃ what, readReply parts = .error (.undefined what)) ↔
      parts.length = 4 ∧ (numberAt parts 2).isOk = true := by
  unfold readReply
  cases hterm : numberAt parts 2 with
  | error e =>
    have hin := numberAt_inBounds (i := 2) (by omega : 2 < parts.length)
    constructor
    · rintro ⟨what, ⟨rfl⟩⟩
      exact absurd hterm (hin what)
    · exact fun h => absurd h.2 Bool.false_ne_true
  | ok term =>
    rw [partAt_of_lt (by omega : 3 < parts.length)]
    by_cases hfour : parts.length = 4
    · have hmissing : numberAt parts 4 = .error (.undefined "parts out of range") := by
        unfold numberAt partAt
        rw [List.getElem?_eq_none (Nat.le_of_eq hfour)]
        rfl
      rw [hmissing]
      exact ⟨fun _ => ⟨hfour, rfl⟩, fun _ => ⟨_, rfl⟩⟩
    · have hin := numberAt_inBounds (i := 4) (by omega : 4 < parts.length)
      refine ⟨?_, fun h => absurd h.1 hfour⟩
      rintro ⟨what, h⟩
      cases hidx : numberAt parts 4 with
      | error e =>
        rw [hidx] at h
        cases h
        exact absurd hidx (hin what)
      | ok matchIdx =>
        rw [hidx] at h
        cases h

theorem readVote_inBounds (hlen : 5 ≤ parts.length) (what : String) :
    readVote parts ≠ .error (.undefined what) := by
  have hin : ∀ i, i < 5 → numberAt parts i ≠ .error (.undefined what) := fun i hi =>
    numberAt_inBounds (Nat.lt_of_lt_of_le hi hlen) what
  exact Except.bind_ne_error (hin 2 (by decide)) fun _ =>
    Except.bind_ne_error (hin 3 (by decide)) fun _ =>
      Except.bind_ne_error (hin 4 (by decide)) fun _ => nofun

theorem readVoteReply_inBounds (hlen : 4 ≤ parts.length) (what : String) :
    readVoteReply parts ≠ .error (.undefined what) := by
  unfold readVoteReply
  rw [partAt_of_lt (Nat.lt_of_lt_of_le (by decide : 3 < 4) hlen)]
  exact Except.bind_ne_error
    (numberAt_inBounds (Nat.lt_of_lt_of_le (by decide : 2 < 4) hlen) what) fun _ => nofun

/-! ## Handler by handler

Two questions for each: whether a subscript goes out of range, and whether the node is moved. The
second is only asked where the first has the answer no. -/

theorem handleAppendEntriesText_inBounds :
    InBounds ((handleAppendEntriesText fromPeer parts rand).call n) := by
  unfold handleAppendEntriesText
  by_cases hlen : parts.length < 6
  · rw [if_pos hlen]
    exact fun _ => nofun
  have hin : ∀ {i : Nat} {e : Fault}, i < 6 → numberAt parts i = .error e → ∀ m,
      InBounds (.error e, m) := by
    rintro i e hi he m what ⟨rfl⟩
    exact numberAt_inBounds (by omega) what he
  rw [if_neg hlen]
  refine Method.call_bind_lift (fun e he => hin (by decide) he _) fun term _ => ?_
  refine Method.call_bind_lift (fun e he => hin (by decide) he _) fun prevIdx _ => ?_
  refine Method.call_bind_lift (fun e he => hin (by decide) he _) fun prevTerm _ => ?_
  refine Method.call_bind_lift (fun e he => hin (by decide) he _) fun leaderCommit _ => ?_
  rw [Method.call_bind_ok (Method.call_get n)]
  by_cases hold : term < n.currentTerm
  · rw [if_pos hold]
    exact fun _ => nofun
  rw [if_neg hold, Method.call_bind_ok (Method.call_set _ n)]
  by_cases hmis : (n.follow term rand).Mismatch prevIdx prevTerm
  · rw [if_pos hmis]
    exact fun _ => nofun
  rw [if_neg hmis]
  refine Method.call_bind_lift (fun e he => ?_) fun cmds _ => fun _ => nofun
  rintro what ⟨rfl⟩
  exact commandsOf_inBounds what he

/-- A later term, or a candidate's own: the node is not what it was, whatever else it takes in. -/
theorem not_kept_of_follow {term : Nat} (h : n.currentTerm ≤ term)
    (hchange : n.currentTerm < term ∨ n.state = .candidate) {m : RaftNode}
    (hterm : m.currentTerm = (n.follow term rand).currentTerm)
    (hstate : m.state = (n.follow term rand).state) : ¬ Kept n m := by
  intro hkept
  rcases hchange with hlt | hcand
  · exact Nat.ne_of_gt hlt ((follow_currentTerm h rand).symm.trans
      (hterm.symm.trans hkept.currentTerm))
  · exact n.follow_state term rand (hstate.symm.trans (hkept.state.trans hcand))

/-- The timer is not among what is kept. -/
theorem kept_resetElectionTimer {m : RaftNode} :
    Kept (n.resetElectionTimer rand) m ↔ Kept n m :=
  ⟨fun h => ⟨h.1, h.2, h.3, h.4, h.5, h.6, h.7⟩, fun h => ⟨h.1, h.2, h.3, h.4, h.5, h.6, h.7⟩⟩

theorem settled_resetElectionTimer {term prevIdx prevTerm leaderCommit : Nat} {cmds : List Bytes} :
    (n.resetElectionTimer rand).Settled term prevIdx prevTerm leaderCommit cmds ↔
      n.Settled term prevIdx prevTerm leaderCommit cmds :=
  ⟨fun h => ⟨h.1, h.2, h.3⟩, fun h => ⟨h.1, h.2, h.3⟩⟩

/-- Behind the consistency check nothing changes exactly if the node has it all already: entries
that are written carry the message's term where the old ones do not. -/
theorem receiveEntries_kept_iff (hlog : 0 < n.log.length) {prevIdx prevTerm : Nat}
    (hmis : ¬ n.Mismatch prevIdx prevTerm) (term leaderCommit : Nat) (cmds : List Bytes) :
    Kept n (n.receiveEntries fromPeer term prevIdx prevTerm leaderCommit cmds).1 ↔
      n.Settled term prevIdx prevTerm leaderCommit cmds := by
  constructor
  · obtain ⟨m, heq, -, hsame⟩ := receiveEntries_accepted hmis fromPeer term leaderCommit cmds
    rw [heq]
    intro hkept
    have hprev : prevIdx < n.log.length := by
      rcases not_mismatch_iff.mp hmis with rfl | hstamp
      · exact hlog
      · exact lt_length_of_stampAt hstamp
    have hsplice : splice term (prevIdx + 1) cmds n.log = n.log := hsame.log.symm.trans hkept.log
    obtain ⟨hcovered, -⟩ := splice_covered term cmds hprev
    rw [hsplice] at hcovered
    refine ⟨hmis, hcovered, fun hlc => ?_⟩
    have hcommit := hsame.commitIndex.symm.trans hkept.commitIndex
    dsimp only at hcommit
    rwa [if_pos hlc, hsplice] at hcommit
  · intro hsettled
    rw [receiveEntries_settled hsettled]
    exact Kept.refl n

theorem handleAppendEntriesText_kept_iff (hlog : 0 < n.log.length) :
    Kept n ((handleAppendEntriesText fromPeer parts rand).call n).2 ↔ ¬ n.EntriesMove parts := by
  let Q := fun out : Except Fault (List RaftMessage) × RaftNode =>
    Kept n out.2 ↔ ¬ n.EntriesMove parts
  show Q _
  unfold handleAppendEntriesText
  by_cases hshort : parts.length < 6
  · rw [if_pos hshort]
    exact iff_of_true (Kept.refl n) fun h => Nat.not_le.mpr hshort h.1
  rw [if_neg hshort]
  refine Method.call_bind_lift (fun e he => ?_) fun term hterm => ?_
  · refine iff_of_true (Kept.refl n) ?_
    rintro ⟨-, t, -, -, -, hok, -⟩
    exact nomatch he.symm.trans hok
  refine Method.call_bind_lift (fun e he => ?_) fun prevIdx hprev => ?_
  · refine iff_of_true (Kept.refl n) ?_
    rintro ⟨-, -, p, -, -, -, hok, -⟩
    exact nomatch he.symm.trans hok
  refine Method.call_bind_lift (fun e he => ?_) fun prevTerm hlast => ?_
  · refine iff_of_true (Kept.refl n) ?_
    rintro ⟨-, -, -, p, -, -, -, hok, -⟩
    exact nomatch he.symm.trans hok
  refine Method.call_bind_lift (fun e he => ?_) fun leaderCommit hcommit => ?_
  · refine iff_of_true (Kept.refl n) ?_
    rintro ⟨-, -, -, -, c, -, -, -, hok, -⟩
    exact nomatch he.symm.trans hok
  have hmove : n.EntriesMove parts ↔ n.currentTerm ≤ term ∧
      (n.currentTerm < term ∨ n.state = .candidate ∨
        ¬ n.Mismatch prevIdx prevTerm ∧ ∃ cmds, commandsOf parts = .ok cmds ∧
          ¬ n.Settled term prevIdx prevTerm leaderCommit cmds) := by
    constructor
    · rintro ⟨-, t, p, q, c, ht, hp, hq, hc, hmoves⟩
      cases hterm.symm.trans ht
      cases hprev.symm.trans hp
      cases hlast.symm.trans hq
      cases hcommit.symm.trans hc
      exact hmoves
    · exact fun hmoves => ⟨Nat.le_of_not_lt hshort, term, prevIdx, prevTerm, leaderCommit, hterm,
        hprev, hlast, hcommit, hmoves⟩
  rw [Method.call_bind_ok (Method.call_get n)]
  by_cases hold : term < n.currentTerm
  · rw [if_pos hold]
    exact iff_of_true (Kept.refl n) fun h => Nat.not_le.mpr hold (hmove.mp h).1
  have hle := Nat.le_of_not_lt hold
  rw [if_neg hold, Method.call_bind_ok (Method.call_set _ n)]
  by_cases hchange : n.currentTerm < term ∨ n.state = .candidate
  · -- the node follows the sender, and no later step takes that back
    have hmoves : n.EntriesMove parts :=
      hmove.mpr ⟨hle, hchange.imp_right fun hcand => Or.inl hcand⟩
    have hfar : ∀ m : RaftNode, m.currentTerm = (n.follow term rand).currentTerm →
        m.state = (n.follow term rand).state → ∀ r, Q (r, m) := fun m ht hs _ =>
      iff_of_false (not_kept_of_follow hle hchange ht hs) (not_not.mpr hmoves)
    by_cases hmis : (n.follow term rand).Mismatch prevIdx prevTerm
    · rw [if_pos hmis]
      exact hfar _ rfl rfl _
    rw [if_neg hmis]
    refine Method.call_bind_lift (fun e _ => hfar _ rfl rfl _) fun cmds _ => ?_
    obtain ⟨m, heq, -, hsame⟩ := receiveEntries_accepted hmis fromPeer term leaderCommit cmds
    rw [heq]
    exact hfar m hsame.currentTerm hsame.state _
  · -- the node is where it was, and what counts is what it takes in
    obtain ⟨hnlt, hncand⟩ := not_or.mp hchange
    rw [follow_again (Nat.le_antisymm hle (Nat.le_of_not_lt hnlt)) hncand]
    have hmoves : n.EntriesMove parts ↔ ¬ n.Mismatch prevIdx prevTerm ∧
        ∃ cmds, commandsOf parts = .ok cmds ∧
          ¬ n.Settled term prevIdx prevTerm leaderCommit cmds := by
      rw [hmove, or_iff_right hnlt, or_iff_right hncand, and_iff_right hle]
    have hstay : ∀ r, ¬ n.EntriesMove parts → Q (r, n.resetElectionTimer rand) := fun _ hnot =>
      iff_of_true (kept_resetElectionTimer.mp (Kept.refl _)) hnot
    by_cases hmis : n.Mismatch prevIdx prevTerm
    · rw [if_pos (show (n.resetElectionTimer rand).Mismatch prevIdx prevTerm from hmis)]
      exact hstay _ fun h => (hmoves.mp h).1 hmis
    rw [if_neg (show ¬ (n.resetElectionTimer rand).Mismatch prevIdx prevTerm from hmis)]
    refine Method.call_bind_lift (fun e he => hstay _ fun h => ?_) fun cmds hcmds => ?_
    · obtain ⟨-, cmds, hok, -⟩ := hmoves.mp h
      exact nomatch he.symm.trans hok
    · have hkept : Kept (n.resetElectionTimer rand)
          ((n.resetElectionTimer rand).receiveEntries fromPeer term prevIdx prevTerm leaderCommit
            cmds).1 ↔ _ :=
        receiveEntries_kept_iff (n := n.resetElectionTimer rand) hlog hmis term leaderCommit cmds
      rw [kept_resetElectionTimer, settled_resetElectionTimer] at hkept
      refine hkept.trans ?_
      rw [hmoves, not_and, not_exists]
      constructor
      · rintro hsettled - cmds' ⟨hok, hnot⟩
        cases hcmds.symm.trans hok
        exact hnot hsettled
      · exact fun hnone => not_not.mp fun hnot => hnone hmis cmds ⟨hcmds, hnot⟩

theorem handleText_call {least : Nat} {ready : RaftNode → Prop} [DecidablePred ready]
    (read : List Bytes → Except Fault Payload) :
    (handleText least ready read fromPeer parts rand stray).call n
      = if ¬ ready n ∨ parts.length < least then (.ok [], n)
        else match read parts with
          | .error e => (.error e, n)
          | .ok payload => (.ok (n.step fromPeer payload rand stray).2,
              (n.step fromPeer payload rand stray).1) := by
  unfold handleText
  rw [Method.call_bind_ok (Method.call_get n)]
  split
  · rfl
  · cases read parts <;> rfl

theorem handleText_inBounds_iff {least : Nat} {ready : RaftNode → Prop} [DecidablePred ready]
    (read : List Bytes → Except Fault Payload) :
    InBounds ((handleText least ready read fromPeer parts rand stray).call n) ↔
      ¬ (ready n ∧ least ≤ parts.length ∧ ∃ what, read parts = .error (.undefined what)) := by
  rw [handleText_call]
  by_cases hskip : ¬ ready n ∨ parts.length < least
  · rw [if_pos hskip]
    refine ⟨fun _ ⟨hready, hlen, _⟩ => ?_, fun _ _ => nofun⟩
    rcases hskip with hnot | hshort
    · exact hnot hready
    · exact Nat.not_lt.mpr hlen hshort
  · rw [if_neg hskip]
    obtain ⟨hready, hlen⟩ := not_or.mp hskip
    have hready := not_not.mp hready
    have hlen := Nat.le_of_not_lt hlen
    cases read parts with
    | ok payload => exact ⟨fun _ ⟨_, _, _, h⟩ => (nomatch h), fun _ _ => nofun⟩
    | error e =>
      constructor
      · rintro hin ⟨-, -, what, ⟨rfl⟩⟩
        exact hin what rfl
      · rintro hnot what ⟨rfl⟩
        exact hnot ⟨hready, hlen, what, rfl⟩

theorem overreaching_iff (hhead : parts.head? = some (ascii "RAFT_AER")) (hlen : 4 ≤ parts.length)
    {term matchIdx : Nat} {success : Bool}
    (hread : readReply parts = .ok (.appendEntriesReply term success matchIdx)) :
    n.Overreaching fromPeer parts ↔ n.Overreached fromPeer term success matchIdx := by
  obtain ⟨t, flag, k, ht, hflag, hk, hpayload⟩ := readReply_eq_ok_iff.mp hread
  cases hpayload
  constructor
  · rintro ⟨-, -, t', flag', k', ht', hflag', hk', hreach⟩
    cases ht.symm.trans ht'
    cases hflag.symm.trans hflag'
    cases hk.symm.trans hk'
    exact hreach
  · exact fun hreach => ⟨hhead, hlen, _, flag, _, ht, hflag, hk, hreach⟩

theorem handleAppendEntriesReplyText_inBounds_iff (h : n.state = .leader → n.Slotted)
    (hhead : parts.head? = some (ascii "RAFT_AER")) :
    InBounds ((Checked.handleAppendEntriesReplyText none fromPeer parts rand).call n) ↔
      ¬ n.ShortReply parts ∧ ¬ n.Overreaching fromPeer parts := by
  have hreplied : RepliedText none n fromPeer parts rand _ :=
    Checked.handleAppendEntriesReplyText_replied none h
  generalize (Checked.handleAppendEntriesReplyText none fromPeer parts rand).call n = out at hreplied
  have hread_short : ∀ {payload}, readReply parts = .ok payload → ¬ n.ShortReply parts := by
    rintro payload hread ⟨-, -, hlen, hterm⟩
    obtain ⟨what, hmissing⟩ := (readReply_undefined_iff (Nat.le_of_eq hlen.symm)).mpr ⟨hlen, hterm⟩
    exact nomatch hread.symm.trans hmissing
  cases hreplied with
  | ignored hskip =>
    refine iff_of_true (fun _ => nofun) ⟨?_, ?_⟩
    · rintro ⟨-, hlead, hlen, -⟩
      rcases hskip with hnot | hlt
      · exact hnot hlead
      · omega
    · rintro ⟨-, hlen, _, _, _, -, -, -, hlead, -⟩
      rcases hskip with hnot | hlt
      · exact hnot hlead
      · omega
  | unreadable hlead hlen fault hread =>
    have hnot : ¬ n.Overreaching fromPeer parts := by
      rintro ⟨-, -, t, flag, k, ht, hflag, hk, -⟩
      have hok := readReply_eq_ok_iff.mpr ⟨t, flag, k, ht, hflag, hk, rfl⟩
      exact nomatch hread.symm.trans hok
    rw [and_iff_left hnot]
    constructor
    · rintro hin ⟨-, -, hshort, hterm⟩
      obtain ⟨what, hmissing⟩ := (readReply_undefined_iff hlen).mpr ⟨hshort, hterm⟩
      cases hread.symm.trans hmissing
      exact hin what rfl
    · rintro hnot what ⟨rfl⟩
      obtain ⟨hshort, hterm⟩ := (readReply_undefined_iff hlen).mp ⟨what, hread⟩
      exact hnot ⟨hhead, hlead, hshort, hterm⟩
  | strayed hlead hlen hread fault hreplied =>
    have hreach := Checked.overreached_iff hlead (h hlead) hreplied
    cases Checked.fault_eq (h hlead) hreplied
    rw [overreaching_iff hhead hlen hread, hreach]
    exact iff_of_false (fun hin => hin _ rfl) fun hnot => hnot.2 rfl
  | replied hlead hlen hread hreplied =>
    have hreach := Checked.overreached_iff hlead (h hlead) hreplied
    rw [overreaching_iff hhead hlen hread, hreach]
    exact iff_of_true (fun _ => nofun) ⟨hread_short hread, nofun⟩

theorem set_eq_self_iff {xs : List Nat} {i : Nat} (h : i < xs.length) (x : Nat) :
    xs.set i x = xs ↔ xs[i]? = some x := by
  constructor
  · intro heq
    rw [← heq, List.getElem?_set_self h]
  · intro hget
    rw [List.getElem?_eq_getElem h, Option.some.injEq] at hget
    rw [← hget, List.set_getElem_self]

/-- An acknowledgement that leaves both cells as they were is no change at all. -/
theorem acknowledge64_eq {pi matchIdx : Nat} (hnext : n.nextIndex.set pi (up64 matchIdx) = n.nextIndex)
    (hmatch : n.matchIndex.set pi matchIdx = n.matchIndex) :
    n.acknowledge64 pi matchIdx = n := by
  unfold acknowledge64
  rw [hnext, hmatch]

/-- What is committed is in the log, unless a quorum has reported more than that. -/
theorem advanceCommitIndex_kept_iff (hlen : n.matchIndex.length = n.peers.length)
    (hin : ¬ n.quorum ≤ n.matchIndex.countP (max n.commitIndex n.lastLogIndex < ·)) (stray : Nat) :
    (n.advanceCommitIndex stray).commitIndex = n.commitIndex ↔ ¬ n.Commits := by
  rw [← Checked.lt_newCommit_iff hlen (Nat.le_max_right n.commitIndex n.lastLogIndex)] at hin
  unfold RaftNode.advanceCommitIndex Commits
  dsimp only
  generalize n.sortedMatch.getD (n.quorum - 1) 0 = newCommit at hin
  by_cases hcommit : n.commitIndex < newCommit
  · have hlt : newCommit < n.log.length := by
      unfold lastLogIndex at hin
      omega
    have hstamp : stampAt n.log newCommit = some n.log[newCommit].term := by
      unfold stampAt
      rw [List.getElem?_eq_getElem hlt]
      rfl
    rw [hstamp, List.getElem?_eq_getElem hlt, Option.some.injEq]
    by_cases hterm : n.log[newCommit].term = n.currentTerm
    · rw [if_pos ⟨hcommit, hterm⟩]
      exact iff_of_false (Nat.ne_of_gt hcommit) fun hnot => hnot ⟨hcommit, hterm⟩
    · rw [if_neg fun h => hterm h.2]
      exact iff_of_true rfl fun h => hterm h.2
  · rw [if_neg fun h => hcommit h.1]
    exact iff_of_true rfl fun h => hcommit h.1

theorem acknowledged_kept_iff (h : n.Slotted) (hpeer : fromPeer ∈ n.peers) {matchIdx : Nat}
    (hin : ¬ n.quorum ≤ (n.matchIndex.set (n.peerIndex fromPeer) matchIdx).countP
      (max n.commitIndex n.lastLogIndex < ·)) :
    Kept n ((n.acknowledge64 (n.peerIndex fromPeer) matchIdx).advanceCommitIndex 0) ↔
      ¬ (n.nextIndex[n.peerIndex fromPeer]? ≠ some (up64 matchIdx) ∨
        n.matchIndex[n.peerIndex fromPeer]? ≠ some matchIdx ∨ n.Commits) := by
  have hpi : n.peerIndex fromPeer < n.peers.length := List.idxOf_lt_length_iff.mpr hpeer
  have hnext := set_eq_self_iff (h.nextIndex ▸ hpi) (up64 matchIdx)
  have hmatch := set_eq_self_iff (h.matchIndex ▸ hpi) matchIdx
  rw [not_or, not_or, not_ne_iff, not_ne_iff, ← hnext, ← hmatch, advanceCommitIndex_same]
  constructor
  · intro hkept
    have hnext' : n.nextIndex.set _ (up64 matchIdx) = n.nextIndex := hkept.nextIndex
    have hmatch' : n.matchIndex.set _ matchIdx = n.matchIndex := hkept.matchIndex
    have hcommit := hkept.commitIndex
    rw [hmatch'] at hin
    rw [acknowledge64_eq hnext' hmatch'] at hcommit
    exact ⟨hnext', hmatch', (advanceCommitIndex_kept_iff h.matchIndex hin 0).mp hcommit⟩
  · rintro ⟨hnext', hmatch', hnot⟩
    rw [hmatch'] at hin
    rw [acknowledge64_eq hnext' hmatch']
    exact ⟨rfl, rfl, rfl, rfl, (advanceCommitIndex_kept_iff h.matchIndex hin 0).mpr hnot, rfl, rfl⟩

theorem backOff_kept_iff {pi : Nat} (hpi : pi < n.nextIndex.length) :
    Kept n (n.backOff pi) ↔ ¬ 1 < n.nextIndex.getD pi 1 := by
  unfold backOff
  have hget : n.nextIndex.getD pi 1 = n.nextIndex[pi] := by
    rw [List.getD_eq_getElem?_getD, List.getElem?_eq_getElem hpi, Option.getD_some]
  rw [hget]
  dsimp only
  by_cases hone : n.nextIndex[pi] > 1
  · rw [if_pos hone]
    refine iff_of_false (fun hkept => ?_) (not_not.mpr hone)
    have hsame := (set_eq_self_iff hpi _).mp hkept.nextIndex
    rw [List.getElem?_eq_getElem hpi, Option.some.injEq] at hsame
    omega
  · rw [if_neg hone]
    exact iff_of_true (Kept.refl n) hone

theorem handleAppendEntriesReplyText_kept_iff (h : n.state = .leader → n.Slotted)
    (hhead : parts.head? = some (ascii "RAFT_AER")) (hreach : ¬ n.Overreaching fromPeer parts) :
    Kept n ((Checked.handleAppendEntriesReplyText none fromPeer parts rand).call n).2 ↔
      ¬ n.ReplyMoves fromPeer parts := by
  have hreplied : RepliedText none n fromPeer parts rand _ :=
    Checked.handleAppendEntriesReplyText_replied none h
  generalize (Checked.handleAppendEntriesReplyText none fromPeer parts rand).call n = out at hreplied
  cases hreplied with
  | ignored hskip =>
    refine iff_of_true (Kept.refl n) ?_
    rintro ⟨hlead, hlen, -⟩
    rcases hskip with hnot | hlt
    · exact hnot hlead
    · exact Nat.not_le.mpr hlt hlen
  | unreadable hlead hlen fault hread =>
    refine iff_of_true (Kept.refl n) ?_
    rintro ⟨-, -, _, _, _, hok, -⟩
    exact nomatch hread.symm.trans hok
  | strayed hlead hlen hread fault hreplied =>
    cases Checked.fault_eq (h hlead) hreplied
    have hover := (Checked.overreached_iff hlead (h hlead) hreplied).mpr rfl
    exact absurd ((overreaching_iff hhead hlen hread).mpr hover) hreach
  | @replied hlead hlen term matchIdx success hread m msgs hreplied =>
    have hslots := h hlead
    have hmoves : n.ReplyMoves fromPeer parts ↔ n.currentTerm < term ∨ fromPeer ∈ n.peers ∧
        if success = true then
          n.nextIndex[n.peerIndex fromPeer]? ≠ some (up64 matchIdx) ∨
            n.matchIndex[n.peerIndex fromPeer]? ≠ some matchIdx ∨ n.Commits
        else 1 < n.nextIndex.getD (n.peerIndex fromPeer) 1 := by
      constructor
      · rintro ⟨-, -, t, s, k, hok, hmoves⟩
        cases hread.symm.trans hok
        exact hmoves
      · exact fun hmoves => ⟨hlead, hlen, term, success, matchIdx, hread, hmoves⟩
    rw [hmoves]
    cases hreplied with
    | newer hnewer =>
      exact iff_of_false (fun hkept => Nat.ne_of_gt hnewer hkept.currentTerm)
        (not_not.mpr (Or.inl hnewer))
    | unknown hterm hpeer =>
      refine iff_of_true (Kept.refl n) ?_
      rintro (hnewer | ⟨hmem, -⟩)
      · exact Nat.not_le.mpr hnewer hterm
      · exact hpeer hmem
    | acknowledged hterm hpeer hsuccess hadvance =>
      rw [or_iff_right (Nat.not_lt.mpr hterm), and_iff_right hpeer, if_pos hsuccess]
      rw [Checked.advance_acknowledge_eq hslots _ _ 0] at hadvance
      split at hadvance
      · exact nomatch hadvance
      · rename_i hin
        cases hadvance
        exact acknowledged_kept_iff hslots hpeer hin
    | refused hterm hpeer hsuccess =>
      have hpi : n.peerIndex fromPeer < n.peers.length := List.idxOf_lt_length_iff.mpr hpeer
      rw [or_iff_right (Nat.not_lt.mpr hterm), and_iff_right hpeer, hsuccess,
        if_neg Bool.false_ne_true]
      exact backOff_kept_iff (hslots.nextIndex ▸ hpi)

theorem handleText_kept_iff {least : Nat} {ready : RaftNode → Prop} [DecidablePred ready]
    {read : List Bytes → Except Fault Payload} (moves : Payload → Prop)
    (hstep : ∀ payload, read parts = .ok payload → ready n →
      (Kept n (n.step fromPeer payload rand stray).1 ↔ ¬ moves payload)) :
    Kept n ((handleText least ready read fromPeer parts rand stray).call n).2 ↔
      ¬ (ready n ∧ least ≤ parts.length ∧ ∃ payload, read parts = .ok payload ∧ moves payload) := by
  rw [handleText_call]
  by_cases hskip : ¬ ready n ∨ parts.length < least
  · rw [if_pos hskip]
    refine iff_of_true (Kept.refl n) ?_
    rintro ⟨hready, hlen, -⟩
    rcases hskip with hnot | hlt
    · exact hnot hready
    · exact Nat.not_le.mpr hlt hlen
  · rw [if_neg hskip]
    obtain ⟨hready, hlen⟩ := not_or.mp hskip
    have hready := not_not.mp hready
    cases hread : read parts with
    | error e =>
      refine iff_of_true (Kept.refl n) ?_
      rintro ⟨-, -, payload, hok, -⟩
      exact nomatch hok
    | ok payload =>
      refine (hstep payload hread hready).trans (not_congr ?_)
      constructor
      · exact fun hmoves => ⟨hready, Nat.le_of_not_lt hlen, payload, rfl, hmoves⟩
      · rintro ⟨-, -, _, ⟨rfl⟩, hmoves⟩
        exact hmoves

theorem requestVote_kept_iff (term lastIdx lastTerm : Nat) :
    Kept n (n.handleRequestVote fromPeer term lastIdx lastTerm rand).1 ↔
      ¬ (n.currentTerm < term ∨
        n.currentTerm = term ∧ n.votedFor = none ∧ n.logOk lastIdx lastTerm) := by
  unfold handleRequestVote
  by_cases hold : term < n.currentTerm
  · rw [if_pos hold]
    exact iff_of_true (Kept.refl n) (by omega)
  rw [if_neg hold]
  by_cases hnewer : term > n.currentTerm
  · rw [if_pos hnewer]
    refine iff_of_false (fun hkept => ?_) (not_not.mpr (Or.inl hnewer))
    have hterm : ((n.becomeFollower term rand).considerVote fromPeer lastIdx lastTerm
        rand).1.currentTerm = term := by
      unfold considerVote
      split <;> rfl
    exact Nat.ne_of_gt hnewer (hterm.symm.trans hkept.currentTerm)
  have hterm : n.currentTerm = term := by omega
  rw [if_neg hnewer, or_iff_right hnewer, and_iff_right hterm]
  unfold considerVote
  by_cases hvote : n.canVote fromPeer ∧ n.logOk lastIdx lastTerm
  · rw [if_pos hvote]
    constructor
    · rintro hkept ⟨hnone, -⟩
      exact nomatch hkept.votedFor.trans hnone
    · intro hnot
      have hsome : n.votedFor = some fromPeer :=
        hvote.1.resolve_left fun hnone => hnot ⟨hnone, hvote.2⟩
      exact ⟨rfl, rfl, hsome.symm, rfl, rfl, rfl, rfl⟩
  · rw [if_neg hvote]
    exact iff_of_true (Kept.refl n) fun h => hvote ⟨Or.inl h.1, h.2⟩

/-- What a `RequestVote` does to a node that has read its fields. -/
def VoteMoved (n : RaftNode) : Payload → Prop
  | .requestVote term lastIdx lastTerm => n.currentTerm < term ∨
      n.currentTerm = term ∧ n.votedFor = none ∧ n.logOk lastIdx lastTerm
  | _ => False

theorem requestVoteText_kept_iff :
    Kept n ((handleText 5 (fun _ => True) readVote fromPeer parts rand stray).call n).2 ↔
      ¬ n.VoteMoves parts := by
  refine (handleText_kept_iff n.VoteMoved ?_).trans (not_congr ⟨?_, ?_⟩)
  · intro payload hread _
    obtain ⟨term, -, hread⟩ := Except.of_bind_eq_ok hread
    obtain ⟨lastIdx, -, hread⟩ := Except.of_bind_eq_ok hread
    obtain ⟨lastTerm, -, hread⟩ := Except.of_bind_eq_ok hread
    cases hread
    exact requestVote_kept_iff term lastIdx lastTerm
  · rintro ⟨-, hlen, payload, hread, hmoves⟩
    cases payload with
    | requestVote term lastIdx lastTerm => exact ⟨hlen, term, lastIdx, lastTerm, hread, hmoves⟩
    | appendEntries | appendEntriesReply | requestVoteReply => exact hmoves.elim
  · rintro ⟨hlen, term, lastIdx, lastTerm, hread, hmoves⟩
    exact ⟨trivial, hlen, _, hread, hmoves⟩

theorem requestVoteReply_kept_iff (hcand : n.state = .candidate) (term : Nat) (granted : Bool) :
    Kept n (n.handleRequestVoteReply term granted rand) ↔
      ¬ (n.currentTerm < term ∨ granted = true ∧ n.quorum ≤ n.voteCount + 1) := by
  unfold handleRequestVoteReply
  rw [if_neg (not_not.mpr hcand)]
  by_cases hnewer : term > n.currentTerm
  · rw [if_pos hnewer]
    exact iff_of_false (fun hkept => Nat.ne_of_gt hnewer hkept.currentTerm)
      (not_not.mpr (Or.inl hnewer))
  rw [if_neg hnewer, or_iff_right hnewer]
  by_cases hgranted : granted = true
  · rw [if_pos hgranted, and_iff_right hgranted]
    dsimp only
    by_cases hwins : n.voteCount + 1 ≥ n.quorum
    · rw [if_pos (show ({ n with voteCount := n.voteCount + 1 } : RaftNode).voteCount
        ≥ ({ n with voteCount := n.voteCount + 1 } : RaftNode).quorum from hwins)]
      exact iff_of_false (fun hkept => nomatch hcand.symm.trans hkept.state.symm)
        (not_not.mpr hwins)
    · rw [if_neg (show ¬ ({ n with voteCount := n.voteCount + 1 } : RaftNode).voteCount
        ≥ ({ n with voteCount := n.voteCount + 1 } : RaftNode).quorum from hwins)]
      exact iff_of_true ⟨rfl, rfl, rfl, rfl, rfl, rfl, rfl⟩ hwins
  · rw [if_neg hgranted]
    exact iff_of_true (Kept.refl n) fun h => hgranted h.1

/-- What a `RequestVoteReply` does to a candidate that has read its fields. -/
def VoteReplyMoved (n : RaftNode) : Payload → Prop
  | .requestVoteReply term granted => n.currentTerm < term ∨
      granted = true ∧ n.quorum ≤ n.voteCount + 1
  | _ => False

theorem requestVoteReplyText_kept_iff :
    Kept n ((handleText 4 (·.state = .candidate) readVoteReply fromPeer parts rand stray).call n).2 ↔
      ¬ n.VoteReplyMoves parts := by
  refine (handleText_kept_iff n.VoteReplyMoved ?_).trans (not_congr ⟨?_, ?_⟩)
  · intro payload hread hcand
    obtain ⟨term, -, hread⟩ := Except.of_bind_eq_ok hread
    obtain ⟨flag, -, hread⟩ := Except.of_bind_eq_ok hread
    cases hread
    exact requestVoteReply_kept_iff hcand term (flag == ascii "1")
  · rintro ⟨hcand, hlen, payload, hread, hmoves⟩
    cases payload with
    | requestVoteReply term granted => exact ⟨hcand, hlen, term, granted, hread, hmoves⟩
    | appendEntries | appendEntriesReply | requestVote => exact hmoves.elim
  · rintro ⟨hcand, hlen, term, granted, hread, hmoves⟩
    exact ⟨hcand, hlen, _, hread, hmoves⟩

/-! ## Every text

`stepText` goes by the first field, so a text is one of four kinds or is ignored. -/

theorem inBounds_handleText {least : Nat} {ready : RaftNode → Prop} [DecidablePred ready]
    {read : List Bytes → Except Fault Payload}
    (hread : least ≤ parts.length → ∀ what, read parts ≠ .error (.undefined what)) :
    InBounds ((handleText least ready read fromPeer parts rand stray).call n) :=
  (handleText_inBounds_iff read).mpr fun ⟨_, hlen, what, he⟩ => hread hlen what he

theorem head?_ne {name other : Bytes} {fields : List Bytes} (h : name ≠ other) :
    (name :: fields).head? ≠ some other := fun hhead => h (Option.some.inj hhead)

/-- **When a text is undefined for a node.** -/
theorem stepText_inBounds_iff (h : n.state = .leader → n.Slotted) (raw : Bytes) :
    InBounds ((Checked.stepText none fromPeer raw rand).call n) ↔
      ¬ n.ShortReply (parseParts raw) ∧ ¬ n.Overreaching fromPeer (parseParts raw) := by
  unfold Checked.stepText
  generalize parseParts raw = parts
  cases parts with
  | nil => exact iff_of_true (fun _ => nofun) ⟨nofun, nofun⟩
  | cons name fields =>
    dsimp only
    by_cases hreply : name = ascii "RAFT_AER"
    · subst hreply
      rw [if_neg (by decide : ascii "RAFT_AER" ≠ ascii "RAFT_AE"), if_pos rfl]
      exact handleAppendEntriesReplyText_inBounds_iff h rfl
    refine iff_of_true ?_ ⟨fun h => head?_ne hreply h.1, fun h => head?_ne hreply h.1⟩
    by_cases hentries : name = ascii "RAFT_AE"
    · rw [if_pos hentries, Checked.handleAppendEntriesText_eq]
      exact handleAppendEntriesText_inBounds
    rw [if_neg hentries, if_neg hreply]
    by_cases hvote : name = ascii "RAFT_RV"
    · rw [if_pos hvote]
      exact inBounds_handleText readVote_inBounds
    rw [if_neg hvote]
    by_cases hgrant : name = ascii "RAFT_RVR"
    · rw [if_pos hgrant]
      exact inBounds_handleText readVoteReply_inBounds
    · rw [if_neg hgrant]
      exact fun _ => nofun

/-- **When a text moves a node**, if it is not undefined. -/
theorem stepText_kept_iff (h : n.state = .leader → n.Slotted) (hlog : 0 < n.log.length)
    (raw : Bytes) (hreach : ¬ n.Overreaching fromPeer (parseParts raw)) :
    Kept n ((Checked.stepText none fromPeer raw rand).call n).2 ↔
      ¬ n.Moves fromPeer (parseParts raw) := by
  unfold Checked.stepText
  generalize parseParts raw = parts at hreach
  cases parts with
  | nil => exact iff_of_true (Kept.refl n) nofun
  | cons name fields =>
    dsimp only [Moves]
    by_cases hentries : name = ascii "RAFT_AE"
    · rw [if_pos hentries, if_pos hentries, Checked.handleAppendEntriesText_eq]
      exact handleAppendEntriesText_kept_iff hlog
    rw [if_neg hentries, if_neg hentries]
    by_cases hreply : name = ascii "RAFT_AER"
    · subst hreply
      rw [if_pos rfl, if_pos rfl]
      exact handleAppendEntriesReplyText_kept_iff h rfl hreach
    rw [if_neg hreply, if_neg hreply]
    by_cases hvote : name = ascii "RAFT_RV"
    · rw [if_pos hvote, if_pos hvote]
      exact requestVoteText_kept_iff
    rw [if_neg hvote, if_neg hvote]
    by_cases hgrant : name = ascii "RAFT_RVR"
    · rw [if_pos hgrant, if_pos hgrant]
      exact requestVoteReplyText_kept_iff
    · rw [if_neg hgrant, if_neg hgrant]
      exact iff_of_true (Kept.refl n) id

/-- **When a text is safe for a node**, whatever the state of the node but for the arrays of a
leader and the sentinel: nothing is undefined, and the text is a message or no news. -/
theorem stepSafe_iff (h : n.state = .leader → n.Slotted) (hlog : 0 < n.log.length)
    (fromPeer : Uuid) (raw : Bytes) (rand : Nat) :
    n.StepSafe fromPeer raw rand ↔
      ¬ n.ShortReply (parseParts raw) ∧ ¬ n.Overreaching fromPeer (parseParts raw) ∧
        (WellFormed (parseParts raw) ∨ ¬ n.Moves fromPeer (parseParts raw)) := by
  have hin : InBounds ((Checked.stepText none fromPeer raw rand).call n) ↔ _ :=
    stepText_inBounds_iff h raw
  unfold StepSafe
  dsimp only
  rw [hin, and_assoc]
  refine and_congr_right fun _ => and_congr_right fun hreach => ?_
  rw [stepText_kept_iff h hlog raw hreach, or_iff_not_imp_left]

/-! ## Every reachable node

What has been assumed of the node so far holds of every node that has come up from a file, however
it has been called since. -/

/-- In a message other than an `AppendEntriesReply` there is no look past the log. -/
theorem stepText_heard_or_replied (stray : Option Nat) (h : n.state = .leader → n.Slotted)
    (raw : Bytes) :
    Heard n fromPeer (parseParts raw) rand 0 ((Checked.stepText stray fromPeer raw rand).call n) ∨
      RepliedText stray n fromPeer (parseParts raw) rand
        ((Checked.stepText stray fromPeer raw rand).call n) := by
  have hheard : Heard n fromPeer (parseParts raw) rand 0 ((stepText fromPeer raw rand 0).call n) :=
    stepText_heard raw
  unfold stepText at hheard
  unfold Checked.stepText
  cases hparts : parseParts raw with
  | nil => exact Or.inl .ignored
  | cons name fields =>
    rw [hparts] at hheard
    dsimp only at hheard ⊢
    by_cases hentries : name = ascii "RAFT_AE"
    · rw [if_pos hentries] at hheard ⊢
      rw [Checked.handleAppendEntriesText_eq]
      exact Or.inl hheard
    rw [if_neg hentries] at hheard ⊢
    by_cases hreply : name = ascii "RAFT_AER"
    · rw [if_pos hreply]
      exact Or.inr (Checked.handleAppendEntriesReplyText_replied stray h)
    rw [if_neg hreply] at hheard ⊢
    exact Or.inl hheard

/-- A reply leaves the log and its file alone, and the arrays of a leader in shape. -/
theorem RepliedText.same {stray : Option Nat} {out : Except Fault (List RaftMessage) × RaftNode}
    (h : n.state = .leader → n.Slotted) (hreplied : RepliedText stray n fromPeer parts rand out) :
    out.2.log = n.log ∧ out.2.disk = n.disk ∧ Refits n out.2 := by
  have hsame : n.log = n.log ∧ n.disk = n.disk ∧ Refits n n :=
    ⟨rfl, rfl, Refits.of_same rfl rfl rfl id⟩
  cases hreplied with
  | ignored | unreadable | strayed => exact hsame
  | replied hlead _ _ hreplied =>
    cases hreplied with
    | newer => exact ⟨rfl, rfl, Refits.of_same rfl rfl rfl nofun⟩
    | unknown => exact hsame
    | acknowledged _ _ _ hadvance =>
      have hslots := (h hlead).acknowledge64 (n.peerIndex fromPeer)
      rw [Checked.advanceCommitIndex_same (hslots _).matchIndex hadvance]
      exact ⟨rfl, rfl, rfl, fun _ => ⟨(hslots _).nextIndex, (hslots _).matchIndex⟩,
        fun _ => Or.inl hlead⟩
    | refused =>
      obtain ⟨hlen, hsame⟩ := n.backOff_same (n.peerIndex fromPeer)
      rw [hsame]
      exact ⟨rfl, rfl, rfl, fun h => ⟨hlen.trans h.nextIndex, h.matchIndex⟩, fun _ => Or.inl hlead⟩

/-- What every node has that has come up: a leader's arrays fit, and the log has its sentinel. -/
structure Sturdy (n : RaftNode) : Prop where
  slotted : n.state = .leader → n.Slotted
  rooted : 0 < n.log.length

theorem Sturdy.of_refits {m : RaftNode} (h : n.Sturdy) (hrefits : Refits n m)
    (hlog : 0 < m.log.length) : m.Sturdy := by
  refine ⟨fun hlead => ?_, hlog⟩
  rcases hrefits.leads hlead with hled | hslots
  · exact hrefits.stays (h.slotted hled)
  · exact hslots

theorem length_pos_of_advance {m : RaftNode} (h : Advance n m) (hlog : 0 < n.log.length) :
    0 < m.log.length := by
  cases h with
  | keep hsame => rwa [hsame]
  | push cmd hpush =>
    rw [hpush, List.length_append]
    exact Nat.lt_add_right _ hlog
  | splice prevIdx prevTerm cmds _ hprev hsplice =>
    have hlt : prevIdx < n.log.length := by
      rcases hprev with rfl | hstamp
      · exact hlog
      · exact lt_length_of_stampAt hstamp
    obtain ⟨c, hpc, hold, -⟩ := stampAt_splice m.currentTerm cmds hlt
    have hzero := hold 0 (by omega)
    rw [List.getElem?_eq_getElem hlog] at hzero
    rw [hsplice]
    exact (List.getElem?_eq_some_iff.mp hzero).1

theorem Sturdy.heard (h : n.Sturdy) {out : Except Fault (List RaftMessage) × RaftNode}
    (hheard : Heard n fromPeer parts rand stray out) : out.2.Sturdy := by
  cases hheard with
  | ignored | unreadable => exact h
  | message payload =>
    obtain ⟨hadvance, hrefits⟩ := n.advance_receive (.step fromPeer payload rand stray)
    exact h.of_refits hrefits (length_pos_of_advance hadvance h.rooted)
  | broken term =>
    obtain ⟨hlog, hrefits⟩ := n.follow_same term rand
    exact h.of_refits hrefits (by rw [hlog]; exact h.rooted)

theorem Sturdy.stepText (h : n.Sturdy) (stray : Option Nat) (fromPeer : Uuid) (raw : Bytes)
    (rand : Nat) : ((Checked.stepText stray fromPeer raw rand).call n).2.Sturdy := by
  rcases stepText_heard_or_replied stray h.slotted raw with hheard | hreplied
  · exact h.heard hheard
  · obtain ⟨hlog, -, hrefits⟩ := RepliedText.same h.slotted hreplied
    exact h.of_refits hrefits (by rw [hlog]; exact h.rooted)

theorem Sturdy.tick64 (h : n.Sturdy) (rand : Nat) : (n.tick64 rand).1.Sturdy := by
  obtain ⟨hadvance, hrefits⟩ := n.advance_tick rand
  have htick : (n.tick rand).1.Sturdy := h.of_refits hrefits (length_pos_of_advance hadvance h.rooted)
  unfold RaftNode.tick64
  split
  · exact htick
  · refine ⟨fun hlead => ?_, htick.rooted⟩
    have hslots := htick.slotted hlead
    exact ⟨hslots.nextIndex, hslots.matchIndex⟩

theorem Sturdy.propose (h : n.Sturdy) (cmd : Bytes) : (n.propose cmd).1.Sturdy := by
  obtain ⟨hadvance, hrefits⟩ := n.advance_propose cmd
  exact h.of_refits hrefits (length_pos_of_advance hadvance h.rooted)

/-- A text that cannot be read leaves the log and its file as they were. -/
theorem stepText_throws (h : n.state = .leader → n.Slotted) {raw : Bytes} {what : String}
    (he : ((Checked.stepText none fromPeer raw rand).call n).1 = .error (.exception what)) :
    ((Checked.stepText none fromPeer raw rand).call n).2.log = n.log ∧
      ((Checked.stepText none fromPeer raw rand).call n).2.disk = n.disk := by
  have hcases : Heard n fromPeer (parseParts raw) rand 0 _ ∨ _ :=
    stepText_heard_or_replied none h raw
  generalize (Checked.stepText none fromPeer raw rand).call n = out at hcases he
  rcases hcases with hheard | hreplied
  · cases hheard with
    | ignored => exact nomatch he
    | unreadable fault => exact ⟨rfl, rfl⟩
    | message payload => exact nomatch he
    | broken term => exact ⟨n.follow_log term rand, n.follow_disk term rand⟩
  · obtain ⟨hlog, hdisk, -⟩ := RepliedText.same h hreplied
    exact ⟨hlog, hdisk⟩

end RaftNode

/-- A read past the log gives `stray`. -/
inductive NodeCall where
  | tick (rand : Nat)
  | propose (cmd : Bytes)
  | step (fromPeer : Uuid) (raw : Bytes) (rand stray : Nat)

namespace RaftNode

def called (n : RaftNode) : NodeCall → RaftNode
  | .tick rand => (n.tick64 rand).1
  | .propose cmd => (n.propose cmd).1
  | .step fromPeer raw rand stray => ((Checked.stepText (some stray) fromPeer raw rand).call n).2

theorem sturdy_called (n : RaftNode) (c : NodeCall) (h : n.Sturdy) : (n.called c).Sturdy := by
  cases c with
  | tick rand => exact h.tick64 rand
  | propose cmd => exact h.propose cmd
  | step fromPeer raw rand stray => exact h.stepText (some stray) fromPeer raw rand

theorem sturdy_restore {groupId : Nat} {selfId : Uuid} {peers : List Uuid} {file : Bytes}
    {rand : Nat} (h : restore groupId selfId peers file rand = .ok n) : n.Sturdy := by
  obtain ⟨entries, -, h⟩ := Except.of_bind_eq_ok h
  dsimp only at h
  split at h
  · cases h
    exact ⟨fun _ => slotted_becomeLeader _, Nat.succ_pos _⟩
  · cases h
    exact ⟨nofun, Nat.succ_pos _⟩

open Run (exec)

/-- **When a text is safe for a node that has come up**, with any log file, and has been called in
any way. The fields of a text that is no message still move a node where `step` takes them for
numbers, or does not look at them, and what they say is news to it.

What a handler does before it has read all fields stays done when a later one throws, and it reads
as many fields as it asks for, not as many as the message has. So the texts are sorted by what each
handler does with the fields that it does read (`Moves`). In what the node has come to, the log has
its sentinel and a leader its arrays (`Sturdy`), so the reported index is the only one that can lie
outside. -/
theorem step_safe_iff {groupId : Nat} {selfId : Uuid} {peers : List Uuid} {file : Bytes}
    {seed : Nat} {start : RaftNode} (hstart : restore groupId selfId peers file seed = .ok start)
    (calls : List NodeCall) (fromPeer : Uuid) (raw : Bytes) (rand : Nat) :
    let n := exec called start calls
    let parts := parseParts raw
    n.StepSafe fromPeer raw rand ↔
      ¬ n.ShortReply parts ∧ ¬ n.Overreaching fromPeer parts ∧
        (WellFormed parts ∨ ¬ n.Moves fromPeer parts) := by
  have hsturdy : (exec called start calls).Sturdy :=
    Run.keeps_exec sturdy_called calls (sturdy_restore hstart)
  exact stepSafe_iff hsturdy.slotted hsturdy.rooted fromPeer raw rand

/-- A follower that gets an `AppendEntries` of a later term with one command and the count one. -/
theorem step_safe_iff_counted :
    let raw := ascii "*8\r\n+RAFT_AE\r\n+0\r\n+3\r\n+0\r\n+0\r\n+0\r\n+1\r\n+*1\r\n"
    let n := exec called (construct 0 1 [2, 3] 0) [.tick 0]
    let parts := parseParts raw
    n.StepSafe 2 raw 0 ↔
      ¬ n.ShortReply parts ∧ ¬ n.Overreaching 2 parts ∧ (WellFormed parts ∨ ¬ n.Moves 2 parts) :=
  step_safe_iff (restore_nil 0 1 [2, 3] 0) [.tick 0] 2 _ 0

/-- The leader of a group of two. -/
def leaderOfTwo : RaftNode :=
  exec called (construct 0 1 [2] 0) (List.replicate 150 (.tick 0) ++
    [.step 2 (ascii "*4\r\n+RAFT_RVR\r\n+0\r\n+1\r\n+1\r\n") 0 0])

/-- A reply without its last field, a reply past the log, a count that is no number, and requests
for a vote with a term that is none (`3x`, `-1`) or a group that is none (`abc`). -/
theorem step_unsafe :
    ¬ (construct 0 1 [] 0).StepSafe 2 (ascii "*4\r\n+RAFT_AER\r\n+0\r\n+1\r\n+1\r\n") 0 ∧
    ¬ leaderOfTwo.StepSafe 2 (ascii "*5\r\n+RAFT_AER\r\n+0\r\n+1\r\n+1\r\n+5\r\n") 0 ∧
    ¬ (construct 0 1 [2] 0).StepSafe 2
      (ascii "*7\r\n+RAFT_AE\r\n+0\r\n+3\r\n+0\r\n+0\r\n+0\r\n+x\r\n") 0 ∧
    ¬ (construct 0 1 [2] 0).StepSafe 2
      (ascii "*5\r\n+RAFT_RV\r\n+0\r\n+3x\r\n+0\r\n+0\r\n") 0 ∧
    ¬ (construct 0 1 [2] 0).StepSafe 2
      (ascii "*5\r\n+RAFT_RV\r\n+0\r\n+-1\r\n+0\r\n+0\r\n") 0 ∧
    ¬ (construct 0 1 [2] 0).StepSafe 2
      (ascii "*5\r\n+RAFT_RV\r\n+abc\r\n+3\r\n+0\r\n+0\r\n") 0 := by
  have hmoved : ∀ raw : Bytes, ¬ WellFormed (parseParts raw) →
      ((Checked.stepText none 2 raw 0).call (construct 0 1 [2] 0)).2.currentTerm ≠ 0 →
      ¬ (construct 0 1 [2] 0).StepSafe 2 raw 0 :=
    fun raw hbad hterm h => hterm (h.2 hbad).currentTerm
  exact ⟨fun h => h.1 "parts out of range" (by decide +kernel),
    fun h => h.1 "subscript out of range" (by decide +kernel),
    hmoved _ (by decide +kernel) (by decide +kernel),
    hmoved _ (by decide +kernel) (by decide +kernel),
    hmoved _ (by decide +kernel) (by decide +kernel),
    hmoved _ (by decide +kernel) (by decide +kernel)⟩

end RaftNode
end Raft
end KvJet
