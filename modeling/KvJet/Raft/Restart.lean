import KvJet.Raft.Group
import KvJet.Raft.Lines
import KvJet.Raft.Log
import KvJet.Raft.RequestCodec
import KvJet.Raft.Threads

/-!
# Restarts

A group whose members crash and are constructed again from their log files. What the members send
are the bytes that the code writes, and they hear what `relay` and `stepText` make of these bytes.

Entries are in the file as soon as they are appended and flushed, and `loadFromDisk` sets
`commitIndex` to the last of them: a restart hands out every command of the file. That it hands out
committed commands only (`restart_applies_committed`) has two reasons, one for each kind of group.

* In a group of several nobody ever leads, because a granted vote is not read as one: the flag
  arrives as `"+1"` (`Mute`). So there is no entry in any log, and no line in any file.
* The one member of a group leads from its construction and commits what it appends (`Sole`). Its
  file has the commands of its log, unless something is read as another command than was written:
  one with a newline in it, or the last one, if the crash has torn its line.
-/

namespace KvJet
namespace Raft

/-- The bytes that the code writes for a message. No bytes if it has too many commands. -/
def Payload.text (gid : UInt64) : Payload → Option Bytes
  | .appendEntries term prevIdx prevTerm leaderCommit cmds =>
    (encodeAppendEntries gid (.ofNat term) (.ofNat prevIdx) (.ofNat prevTerm) (.ofNat leaderCommit)
      (cmds.map fun cmd => ⟨term, cmd⟩)).toOption
  | .appendEntriesReply term success matchIdx =>
    some (encodeAppendEntriesReply gid (.ofNat term) success (.ofNat matchIdx))
  | .requestVote term lastIdx lastTerm =>
    some (encodeRequestVote gid (.ofNat term) (.ofNat lastIdx) (.ofNat lastTerm))
  | .requestVoteReply term granted => some (encodeRequestVoteReply gid (.ofNat term) granted)

structure Parcel where
  src : Uuid
  dst : Uuid
  bytes : Bytes
deriving DecidableEq

/-- The members as they are now, all they have ever sent, and where their present lives began. -/
structure Machines where
  node : Uuid → RaftNode
  sent : List Parcel := []
  /-- The commands handed out by `takePendingApply` so far. -/
  applied : Uuid → List Bytes := fun _ => []
  /-- The log file a member came up with. -/
  base : Uuid → Bytes := fun _ => []
  /-- Their constructor has thrown: they stay away. -/
  down : List Uuid := []

inductive Happening where
  | tick (x : Uuid) (rand : Nat)
  /-- The parcel number `k` of those sent so far reaches its target. -/
  | deliver (k rand stray : Nat)
  | propose (x : Uuid) (cmd : Bytes)
  | apply (x : Uuid)
  /-- Member `x` dies and is constructed again. In the life that ends `logFile_` passed its bytes
  on as `spill` says, and `k` of those it still held reach the file. -/
  | crash (x : Uuid) (spill : Nat → Nat) (k rand : Nat)

namespace Machines

/-- The disk of `x` in its present life. -/
def disk (s : Machines) (x : Uuid) (spill : Nat → Nat) : Disk :=
  Disk.onto spill (s.base x) (s.node x).disk

/-- What a crash leaves of `x`: its log file. -/
def logFile (s : Machines) (x : Uuid) (spill : Nat → Nat) (k : Nat) : Bytes :=
  (s.disk x spill).file ++ (s.disk x spill).stream.take k

/-- What was written and does not reach the file. -/
def lost (s : Machines) (x : Uuid) (spill : Nat → Nat) (k : Nat) : Bytes :=
  (s.disk x spill).stream.drop k ++ (s.disk x spill).diskBuf

end Machines

namespace Group

variable (g : Group)

def gid : UInt64 := .ofNat g.groupId

/-- The parser of a connection and `Handler::handleRaft` hand the requests for the group to
`RaftNode::step`. -/
def hear (n : RaftNode) (src : Uuid) (bytes : Bytes) (rand stray : Nat) :
    RaftNode × List RaftMessage :=
  match relay bytes with
  | .error _ => (n, [])
  | .ok requests => requests.foldl (fun r request =>
      match request with
      | none => r
      | some (gid, raw) =>
        if gid = g.gid then
          let out := (RaftNode.stepText src raw rand stray).call r.1
          (out.2, r.2 ++ out.1.toOption.getD [])
        else r) (n, [])

/-- Member `x` has become `r.1` and sent `r.2`. -/
def act (s : Machines) (x : Uuid) (r : RaftNode × List RaftMessage) : Machines :=
  { s with
    node := Function.update s.node x r.1
    sent := s.sent ++ r.2.filterMap fun m =>
      (m.payload.text g.gid).map fun bytes => ⟨x, m.target, bytes⟩ }

def Up (s : Machines) (x : Uuid) : Prop := x ∈ g.members ∧ x ∉ s.down

instance (s : Machines) (x : Uuid) : Decidable (g.Up s x) := inferInstanceAs (Decidable (_ ∧ _))

def happen (s : Machines) : Happening → Machines
  | .tick x rand => if g.Up s x then g.act s x ((s.node x).tick64 rand) else s
  | .deliver k rand stray =>
    match s.sent[k]? with
    | none => s
    | some m =>
      if g.Up s m.dst then g.act s m.dst (g.hear (s.node m.dst) m.src m.bytes rand stray) else s
  | .propose x cmd => if g.Up s x then g.act s x ((s.node x).propose cmd) else s
  | .apply x =>
    if g.Up s x then
      let r := (s.node x).takePendingApply
      { g.act s x (r.1, []) with
        applied := Function.update s.applied x (s.applied x ++ r.2.map LogEntry.command) }
    else s
  | .crash x spill k rand =>
    if g.Up s x then
      let file := s.logFile x spill k
      match RaftNode.restore g.groupId x (g.peersOf x) file rand with
      | .error _ => { s with down := x :: s.down }
      | .ok n => { g.act s x (n, []) with base := Function.update s.base x file }
    else s

/-- The group as it is constructed, with no log files. -/
def built (draw : Uuid → Nat) : Machines where
  node x := RaftNode.construct g.groupId x (g.peersOf x) (draw x)

/-- The machines after `hs`. -/
def machines (draw : Uuid → Nat) (hs : List Happening) : Machines :=
  Run.exec g.happen (g.built draw) hs

/-- At some moment of the run a member had the command at index `i` and its `commitIndex` there or
beyond. -/
def Committed (draw : Uuid → Nat) (hs : List Happening) (i : Nat) (cmd : Bytes) : Prop :=
  ∃ before, before <+: hs ∧ ∃ m ∈ g.members,
    i ≤ ((g.machines draw before).node m).commitIndex ∧
      cmdAt ((g.machines draw before).node m).log i = some cmd

/-- The commands that `x` has handed out since `hs` when `later` has happened too. -/
def handedOut (draw : Uuid → Nat) (x : Uuid) (hs later : List Happening) : List Bytes :=
  ((g.machines draw (hs ++ later)).applied x).drop ((g.machines draw hs).applied x).length

/-- What the one member of a group is to append goes into a line of its own, and no crash tears the
last of its lines. -/
def Unbroken (s : Machines) : Happening → Prop
  | .tick _ _ | .deliver _ _ _ | .apply _ => True
  | .propose x cmd => g.peersOf x = [] → lf ∉ cmd ∧ space ∉ lastLine (s.base x)
  | .crash x spill k _ => g.peersOf x = [] → ¬ Torn (s.logFile x spill k) (s.lost x spill k)

instance (s : Machines) : DecidablePred (g.Unbroken s)
  | .tick _ _ | .deliver _ _ _ | .apply _ => inferInstanceAs (Decidable True)
  | .propose _ _ => inferInstanceAs (Decidable (_ → _))
  | .crash _ _ _ _ => inferInstanceAs (Decidable (_ → _))

end Group

/-- Nothing that reaches member `x` from outside: no message and no proposal. And it stays up. -/
def Quiet (x : Uuid) (s : Machines) : Happening → Prop
  | .tick _ _ | .apply _ => True
  | .deliver k _ _ => ∀ m ∈ s.sent[k]?, m.dst ≠ x
  | .propose y _ => y ≠ x
  | .crash y _ _ _ => y ≠ x

section Act

variable {g : Group} {s : Machines} {x y : Uuid} {r : RaftNode × List RaftMessage}

theorem Group.act_node_self : (g.act s x r).node x = r.1 := Function.update_self ..

theorem Group.act_node_of_ne (h : y ≠ x) : (g.act s x r).node y = s.node y :=
  Function.update_of_ne h ..

variable {spill : Nat → Nat} {k rand : Nat}

theorem Group.happen_crash_ok (hup : g.Up s x) {n : RaftNode}
    (h : RaftNode.restore g.groupId x (g.peersOf x) (s.logFile x spill k) rand = .ok n) :
    g.happen s (.crash x spill k rand)
      = { g.act s x (n, []) with base := Function.update s.base x (s.logFile x spill k) } := by
  simp only [Group.happen, if_pos hup, h]

/-- What can happen to the machines, and what becomes of them. -/
inductive Group.Happened (g : Group) (s : Machines) : Happening → Machines → Prop where
  /-- To a member that is away, or a parcel that was not sent. -/
  | nothing (e : Happening) : Happened g s e s
  | tick {x : Uuid} (hup : g.Up s x) (rand : Nat) :
    Happened g s (.tick x rand) (g.act s x ((s.node x).tick64 rand))
  | deliver {k : Nat} {m : Parcel} (hsent : s.sent[k]? = some m) (hup : g.Up s m.dst)
      (rand stray : Nat) :
    Happened g s (.deliver k rand stray)
      (g.act s m.dst (g.hear (s.node m.dst) m.src m.bytes rand stray))
  | propose {x : Uuid} (hup : g.Up s x) (cmd : Bytes) :
    Happened g s (.propose x cmd) (g.act s x ((s.node x).propose cmd))
  | apply {x : Uuid} (hup : g.Up s x) :
    Happened g s (.apply x) { g.act s x ((s.node x).takePendingApply.1, []) with
      applied := Function.update s.applied x
        (s.applied x ++ (s.node x).takePendingApply.2.map LogEntry.command) }
  | restart {x : Uuid} (hup : g.Up s x) {spill : Nat → Nat} {k rand : Nat} {n : RaftNode}
      (hrestore : RaftNode.restore g.groupId x (g.peersOf x) (s.logFile x spill k) rand = .ok n) :
    Happened g s (.crash x spill k rand)
      { g.act s x (n, []) with base := Function.update s.base x (s.logFile x spill k) }
  /-- The constructor throws. -/
  | lose {x : Uuid} (hup : g.Up s x) {spill : Nat → Nat} {k rand : Nat} :
    Happened g s (.crash x spill k rand) { s with down := x :: s.down }

theorem Group.happened (g : Group) (s : Machines) (e : Happening) :
    g.Happened s e (g.happen s e) := by
  cases e with
  | tick x rand =>
    by_cases hup : g.Up s x
    · simp only [Group.happen, if_pos hup]
      exact .tick hup rand
    · simp only [Group.happen, if_neg hup]
      exact .nothing _
  | deliver k rand stray =>
    cases hsent : s.sent[k]? with
    | none =>
      simp only [Group.happen, hsent]
      exact .nothing _
    | some m =>
      by_cases hup : g.Up s m.dst
      · simp only [Group.happen, hsent, if_pos hup]
        exact .deliver hsent hup rand stray
      · simp only [Group.happen, hsent, if_neg hup]
        exact .nothing _
  | propose x cmd =>
    by_cases hup : g.Up s x
    · simp only [Group.happen, if_pos hup]
      exact .propose hup cmd
    · simp only [Group.happen, if_neg hup]
      exact .nothing _
  | apply x =>
    by_cases hup : g.Up s x
    · simp only [Group.happen, if_pos hup]
      exact .apply hup
    · simp only [Group.happen, if_neg hup]
      exact .nothing _
  | crash x spill k rand =>
    by_cases hup : g.Up s x
    · cases hrestore : RaftNode.restore g.groupId x (g.peersOf x) (s.logFile x spill k) rand with
      | error fault =>
        simp only [Group.happen, if_pos hup, hrestore]
        exact .lose hup
      | ok n =>
        rw [Group.happen_crash_ok hup hrestore]
        exact .restart hup hrestore
    · simp only [Group.happen, if_neg hup]
      exact .nothing _

/-- The file and what is lost are what was written. -/
theorem Machines.logFile_append_lost : s.logFile x spill k ++ s.lost x spill k
    = (s.disk x spill).contents := by
  unfold logFile lost Disk.contents
  rw [List.append_assoc, ← List.append_assoc (List.take ..), List.take_append_drop,
    ← List.append_assoc]

end Act

/-! ## The replay

What a member hands out after a restart is decided when it comes up. So the commands are compared
with the file, and the file with what was committed. -/

/-- Member `x` has come up with `entries`, has heard of nothing since and has handed out the first
`lastApplied` of them after the commands `old` of its earlier lives. -/
structure Replaying (x : Uuid) (entries : List LogEntry) (old : List Bytes) (s : Machines) :
    Prop where
  up : x ∉ s.down
  log : (s.node x).log = sentinel :: entries
  commitIndex : (s.node x).commitIndex = entries.length
  le : (s.node x).lastApplied ≤ entries.length
  applied : s.applied x = old ++ (entries.take (s.node x).lastApplied).map LogEntry.command

section Replay

variable {g : Group} {x : Uuid} {entries : List LogEntry} {old : List Bytes} {s : Machines}

/-- Another member does something. -/
theorem Replaying.act_other (h : Replaying x entries old s) {y : Uuid} (hy : x ≠ y)
    (r : RaftNode × List RaftMessage) : Replaying x entries old (g.act s y r) := by
  have hnode : (g.act s y r).node x = s.node x := Group.act_node_of_ne hy
  refine ⟨h.up, ?_, ?_, ?_, ?_⟩
  · rw [hnode]
    exact h.log
  · rw [hnode]
    exact h.commitIndex
  · rw [hnode]
    exact h.le
  · rw [hnode]
    exact h.applied

/-- The clock changes nothing of the log. -/
theorem Replaying.tick (h : Replaying x entries old s) (rand : Nat) :
    Replaying x entries old (g.act s x ((s.node x).tick64 rand)) := by
  obtain ⟨hlog, hcommit, hlast⟩ := (s.node x).tick64_keeps rand
  refine ⟨h.up, ?_, ?_, ?_, ?_⟩
  · rw [Group.act_node_self, hlog]
    exact h.log
  · rw [Group.act_node_self, hcommit]
    exact h.commitIndex
  · rw [Group.act_node_self, hlast]
    exact h.le
  · rw [Group.act_node_self, hlast]
    exact h.applied

/-- `takePendingApply` hands out the rest. -/
theorem Replaying.apply (h : Replaying x entries old s) :
    Replaying x entries old
      { g.act s x ((s.node x).takePendingApply.1, []) with
        applied := Function.update s.applied x
          (s.applied x ++ (s.node x).takePendingApply.2.map LogEntry.command) } := by
  have hle := h.le
  have hmax : max (s.node x).lastApplied (s.node x).commitIndex = entries.length := by
    rw [h.commitIndex]
    exact Nat.max_eq_right hle
  have hout : (s.node x).takePendingApply.2 = entries.drop (s.node x).lastApplied := by
    rw [RaftNode.takePendingApply_snd (by rw [h.commitIndex, h.log]; exact Nat.lt_succ_self _)
      (by rw [h.commitIndex]; exact hle), h.log, h.commitIndex, List.drop_succ_cons]
    exact List.take_of_length_le (Nat.le_of_eq List.length_drop)
  have hnode : (g.act s x ((s.node x).takePendingApply.1, [])).node x
      = (s.node x).takePendingApply.1 := Group.act_node_self
  refine ⟨h.up, ?_, ?_, ?_, ?_⟩
  · show ((g.act s x _).node x).log = _
    rw [hnode]
    exact h.log
  · show ((g.act s x _).node x).commitIndex = _
    rw [hnode]
    exact h.commitIndex
  · show ((g.act s x _).node x).lastApplied ≤ _
    rw [hnode]
    exact Nat.le_of_eq hmax
  · show Function.update s.applied x _ x
      = old ++ (entries.take ((g.act s x _).node x).lastApplied).map _
    rw [hnode, Function.update_self, hout, h.applied]
    show _ = old ++ (entries.take (max _ _)).map _
    rw [hmax, List.take_length, List.append_assoc, ← List.map_append, List.take_append_drop]

/-- One step of the others, or of its own clock, or handing out. -/
theorem Replaying.happen (h : Replaying x entries old s) (e : Happening) (hquiet : Quiet x s e) :
    Replaying x entries old (g.happen s e) := by
  have hstep := g.happened s e
  generalize g.happen s e = s' at hstep ⊢
  cases hstep with
  | nothing => exact h
  | @tick y hup rand =>
    by_cases hy : x = y
    · subst hy
      exact h.tick rand
    · exact h.act_other hy _
  | deliver hsent hup rand stray => exact h.act_other (Ne.symm (hquiet _ hsent)) _
  | propose hup cmd => exact h.act_other (Ne.symm hquiet) _
  | @apply y hup =>
    by_cases hy : x = y
    · subst hy
      exact h.apply
    · have hother := h.act_other (g := g) hy
        ((s.node y).takePendingApply.1, ([] : List RaftMessage))
      refine ⟨hother.up, hother.log, hother.commitIndex, hother.le, ?_⟩
      show Function.update s.applied y _ x = _
      rw [Function.update_of_ne hy]
      exact hother.applied
  | @restart y hup _ _ _ n hrestore =>
    have hother := h.act_other (g := g) (Ne.symm hquiet) (n, ([] : List RaftMessage))
    exact ⟨hother.up, hother.log, hother.commitIndex, hother.le, hother.applied⟩
  | lose hup =>
    refine ⟨fun hx => ?_, h.log, h.commitIndex, h.le, h.applied⟩
    rcases List.mem_cons.mp hx with rfl | hx
    · exact hquiet rfl
    · exact h.up hx

/-- The state right after the restart. -/
theorem Replaying.of_crash {spill : Nat → Nat} {k rand : Nat} {n : RaftNode} (hup : g.Up s x)
    (h : RaftNode.restore g.groupId x (g.peersOf x) (s.logFile x spill k) rand = .ok n)
    (hload : loadFromDisk (s.logFile x spill k) = .ok entries) :
    Replaying x entries (s.applied x) (g.happen s (.crash x spill k rand)) := by
  obtain ⟨entries', hload', hlog, hcommit, hlast⟩ := RaftNode.restore_eq_ok h
  rw [hload] at hload'
  cases hload'
  rw [Group.happen_crash_ok hup h]
  have hnode : (g.act s x (n, ([] : List RaftMessage))).node x = n := Group.act_node_self
  refine ⟨hup.2, ?_, ?_, ?_, ?_⟩
  · show ((g.act s x _).node x).log = _
    rw [hnode, hlog]
  · show ((g.act s x _).node x).commitIndex = _
    rw [hnode, hcommit]
  · show ((g.act s x _).node x).lastApplied ≤ _
    rw [hnode, hlast]
    exact Nat.zero_le _
  · show s.applied x = _ ++ (List.take ((g.act s x _).node x).lastApplied _).map _
    rw [hnode, hlast]
    exact (List.append_nil _).symm

end Replay

/-- **A restart hands out the log file**: the first of its commands, in their order, and nothing
else for as long as nothing reaches the node. -/
theorem handedOut_prefix {g : Group} {draw : Uuid → Nat} {hs : List Happening} {x : Uuid}
    {spill : Nat → Nat} {k rand : Nat} {n : RaftNode} (hup : g.Up (g.machines draw hs) x)
    (hrestore : RaftNode.restore g.groupId x (g.peersOf x)
      ((g.machines draw hs).logFile x spill k) rand = .ok n) {later : List Happening}
    (hquiet : Run.Along g.happen (Quiet x) (g.machines draw (hs ++ [.crash x spill k rand]))
      later) :
    g.handedOut draw x hs (.crash x spill k rand :: later)
      <+: fileCommands ((g.machines draw hs).logFile x spill k) := by
  obtain ⟨entries, hload, -⟩ := RaftNode.restore_eq_ok hrestore
  have hstart := Replaying.of_crash hup hrestore hload
  have hmachines : g.machines draw (hs ++ [.crash x spill k rand])
      = g.happen (g.machines draw hs) (.crash x spill k rand) := Run.exec_append ..
  have hlater : g.machines draw (hs ++ .crash x spill k rand :: later)
      = Run.exec g.happen (g.happen (g.machines draw hs) (.crash x spill k rand)) later :=
    Run.exec_append ..
  rw [hmachines] at hquiet
  have hend : Replaying x entries _ _ :=
    Run.Along.invariant (fun s e he hs => hs.happen e he) hquiet hstart
  unfold Group.handedOut
  rw [← loadFromDisk_commands hload, hlater, hend.applied, List.drop_left]
  exact (List.take_prefix _ _).map _

/-! ## Several members

Each handler by itself, for a node that has nothing in its log and is no leader. It can stand for
election, and be asked for its vote, but a vote that it hears of is read as refused. -/

/-- A request for a vote, or the answer to one. -/
def Payload.Ballot : Payload → Prop
  | .requestVote .. | .requestVoteReply .. => True
  | .appendEntries .. | .appendEntriesReply .. => False

/-- A node that has never led: it has appended nothing, in this life or in one before. -/
structure Mute (peers : List Uuid) (n : RaftNode) (base : Bytes) : Prop where
  follows : n.state ≠ .leader
  peers : n.peers = peers
  flushes : ∀ op ∈ n.disk, op = .flush
  base : base = []

section Ballots

variable {n : RaftNode} {src : Uuid} {raw : Bytes} {rand stray : Nat} {peers : List Uuid}
  {base : Bytes}

/-- What a ballot does to a node: its clock, its term and its vote may change. -/
theorem Mute.of_same (h : Mute peers n base) {n' : RaftNode} (hstate : n'.state ≠ .leader)
    (hpeers : n'.peers = n.peers) (hdisk : n'.disk = n.disk) : Mute peers n' base where
  follows := hstate
  peers := hpeers.trans h.peers
  flushes := by
    rw [hdisk]
    exact h.flushes
  base := h.base

theorem ballot_of_mem_sendRequestVote {m : RaftMessage} (hm : m ∈ n.sendRequestVote) :
    m.target ∈ n.peers ∧ m.payload.Ballot := by
  obtain ⟨peer, hpeer, rfl⟩ := List.mem_map.mp hm
  exact ⟨hpeer, trivial⟩

theorem Mute.record_flush (h : Mute peers n base) : Mute peers (n.record .flush) base where
  follows := h.follows
  peers := h.peers
  flushes op hop := by
    rcases List.mem_append.mp hop with hold | hnew
    · exact h.flushes op hold
    · exact List.mem_singleton.mp hnew
  base := h.base

/-- A tick may make it a candidate. -/
theorem Mute.tick (h : Mute peers n base) (rand : Nat) :
    Mute peers (n.tick rand).1 base ∧
      ∀ m ∈ (n.tick rand).2, m.target ∈ peers ∧ m.payload.Ballot := by
  have hflushed := h.record_flush
  unfold RaftNode.tick
  dsimp only
  rw [if_neg hflushed.follows]
  split
  · have hcand : Mute peers (RaftNode.becomeCandidate
        { n.record .flush with electionTimer := (n.record .flush).electionTimer - 1 } rand) base :=
      hflushed.of_same (by simp [RaftNode.becomeCandidate, RaftNode.resetElectionTimer]) rfl rfl
    refine ⟨hcand, fun m hm => ?_⟩
    obtain ⟨htarget, hballot⟩ := ballot_of_mem_sendRequestVote hm
    exact ⟨hcand.peers ▸ htarget, hballot⟩
  · exact ⟨hflushed.of_same hflushed.follows rfl rfl, fun m hm => absurd hm List.not_mem_nil⟩

theorem Mute.tick64 (h : Mute peers n base) (rand : Nat) :
    Mute peers (n.tick64 rand).1 base ∧
      ∀ m ∈ (n.tick64 rand).2, m.target ∈ peers ∧ m.payload.Ballot := by
  have htick := h.tick rand
  unfold RaftNode.tick64
  split
  · exact htick
  · have hwrapped : Mute peers { (n.tick rand).1 with currentTerm := 0 } base :=
      htick.1.of_same htick.1.follows rfl rfl
    refine ⟨hwrapped, fun m hm => ?_⟩
    obtain ⟨htarget, hballot⟩ := ballot_of_mem_sendRequestVote hm
    exact ⟨hwrapped.peers ▸ htarget, hballot⟩

theorem Mute.handleRequestVote (h : Mute peers n base) (src : Uuid)
    (term lastIdx lastTerm rand : Nat) :
    Mute peers (n.handleRequestVote src term lastIdx lastTerm rand).1 base ∧
      ∀ m ∈ (n.handleRequestVote src term lastIdx lastTerm rand).2,
        m.target = src ∧ m.payload.Ballot := by
  have hconsider : ∀ n : RaftNode, Mute peers n base →
      Mute peers (n.considerVote src lastIdx lastTerm rand).1 base ∧
        ∀ m ∈ (n.considerVote src lastIdx lastTerm rand).2, m.target = src ∧ m.payload.Ballot := by
    intro n hn
    unfold RaftNode.considerVote
    split
    · refine ⟨hn.of_same hn.follows rfl rfl, fun m hm => ?_⟩
      rw [List.mem_singleton.mp hm]
      exact ⟨rfl, trivial⟩
    · refine ⟨hn, fun m hm => ?_⟩
      rw [List.mem_singleton.mp hm]
      exact ⟨rfl, trivial⟩
  unfold RaftNode.handleRequestVote
  split
  · refine ⟨h, fun m hm => ?_⟩
    rw [List.mem_singleton.mp hm]
    exact ⟨rfl, trivial⟩
  · dsimp only
    split
    · exact hconsider _ (h.of_same (by simp [RaftNode.becomeFollower,
        RaftNode.resetElectionTimer]) rfl rfl)
    · exact hconsider n h

/-- An answer that is read as a refusal makes nobody the leader. -/
theorem Mute.refused (h : Mute peers n base) (term rand : Nat) :
    Mute peers (n.handleRequestVoteReply term false rand) base := by
  unfold RaftNode.handleRequestVoteReply
  split
  · exact h
  split
  · exact h.of_same (by simp [RaftNode.becomeFollower, RaftNode.resetElectionTimer]) rfl rfl
  · exact h

theorem call_stepText_requestVote {gid term lastIdx lastTerm : UInt64}
    (hparts : parseParts raw = requestVoteFields gid term lastIdx lastTerm) :
    (RaftNode.stepText src raw rand stray).call n
      = (.ok (n.handleRequestVote src term.toNat lastIdx.toNat lastTerm.toNat rand).2,
          (n.handleRequestVote src term.toNat lastIdx.toNat lastTerm.toNat rand).1) := by
  have hread : RaftNode.readVote (requestVoteFields gid term lastIdx lastTerm)
      = .ok (.requestVote term.toNat lastIdx.toNat lastTerm.toNat) := by
    rw [RaftNode.readVote, numberAt_toString (i := 2) rfl, numberAt_toString (i := 3) rfl,
      numberAt_toString (i := 4) rfl]
    rfl
  have hname : parseParts raw
      = ascii "RAFT_RV" :: (requestVoteFields gid term lastIdx lastTerm).tail := hparts
  unfold RaftNode.stepText
  rw [hname]
  dsimp only
  rw [if_neg (by decide), if_neg (by decide), if_pos rfl]
  unfold RaftNode.handleText
  rw [Method.call_bind_ok (Method.call_get n), if_neg (by simp [requestVoteFields]),
    show ascii "RAFT_RV" :: (requestVoteFields gid term lastIdx lastTerm).tail
      = requestVoteFields gid term lastIdx lastTerm from rfl, hread,
    Method.call_bind_ok (Method.call_lift _ n)]
  rfl

/-- Whether the vote was granted or not. -/
theorem call_stepText_requestVoteReply {gid term : UInt64} {granted : Bool}
    (hparts : parseParts raw
      = [ascii "RAFT_RVR", toString gid.toNat, toString term.toNat, flagField granted]) :
    (RaftNode.stepText src raw rand stray).call n
      = (.ok [], n.handleRequestVoteReply term.toNat false rand) := by
  have hread : RaftNode.readVoteReply
      [ascii "RAFT_RVR", toString gid.toNat, toString term.toNat, flagField granted]
        = .ok (.requestVoteReply term.toNat false) := by
    rw [RaftNode.readVoteReply, numberAt_toString (i := 2) rfl]
    simp [partAt, flagField_ne_one, bind, Except.bind, pure, Except.pure]
  unfold RaftNode.stepText
  rw [hparts]
  dsimp only
  rw [if_neg (by decide), if_neg (by decide), if_neg (by decide), if_pos rfl]
  unfold RaftNode.handleText
  rw [Method.call_bind_ok (Method.call_get n)]
  by_cases hcand : n.state = .candidate
  · rw [if_neg (by simp [hcand]), hread, Method.call_bind_ok (Method.call_lift _ n)]
    rfl
  · rw [if_pos (Or.inl hcand)]
    unfold RaftNode.handleRequestVoteReply
    rw [if_pos hcand]
    rfl

/-- A ballot goes through parser and handler, and leaves a node that has never led as one. -/
theorem Mute.hear {g : Group} (h : Mute peers n base) {payload : Payload} (hballot : payload.Ballot)
    {bytes : Bytes} (hbytes : payload.text g.gid = some bytes) (src : Uuid) (rand stray : Nat) :
    Mute peers (g.hear n src bytes rand stray).1 base ∧
      ∀ m ∈ (g.hear n src bytes rand stray).2, m.target = src ∧ m.payload.Ballot := by
  have hone : ∀ {raw : Bytes} {out : Except Fault (List RaftMessage) × RaftNode},
      relay bytes = .ok [some (g.gid, raw)] →
      (RaftNode.stepText src raw rand stray).call n = out →
        g.hear n src bytes rand stray = (out.2, out.1.toOption.getD []) := by
    intro raw out hrelay hcall
    simp only [Group.hear, hrelay, List.foldl_cons, List.foldl_nil, if_true, hcall, List.nil_append]
  cases payload with
  | appendEntries | appendEntriesReply => exact hballot.elim
  | requestVote term lastIdx lastTerm =>
    obtain rfl := Option.some.inj hbytes
    have hfields := cr_not_mem_requestVoteFields g.gid (.ofNat term) (.ofNat lastIdx)
      (.ofNat lastTerm)
    have hrelay := relay_message (ascii "RAFT_RV") g.gid _ hfields (by simp)
    rw [hone (by rw [encodeRequestVote_eq]; exact hrelay)
      (call_stepText_requestVote (parseParts_message _ hfields))]
    exact h.handleRequestVote src _ _ _ rand
  | requestVoteReply term granted =>
    obtain rfl := Option.some.inj hbytes
    have hfields : ∀ f ∈ [ascii "RAFT_RVR", toString g.gid.toNat,
        toString (UInt64.ofNat term).toNat, flagField granted], cr ∉ f := by
      simp only [List.forall_mem_cons]
      exact ⟨by decide, cr_not_mem_toString _, cr_not_mem_toString _, cr_not_mem_flagField _,
        by simp⟩
    have hrelay := relay_message (ascii "RAFT_RVR") g.gid _ hfields (by simp)
    rw [hone (by rw [encodeRequestVoteReply_eq]; exact hrelay)
      (call_stepText_requestVoteReply (parseParts_message _ hfields))]
    exact ⟨h.refused _ rand, fun m hm => absurd hm List.not_mem_nil⟩

/-- It comes up with no log file, and leaves none. -/
theorem Mute.logFile_eq_nil {s : Machines} {x : Uuid} (h : Mute peers (s.node x) (s.base x))
    (spill : Nat → Nat) (k : Nat) : s.logFile x spill k = [] := by
  have hnothing : (s.node x).disk.filterMap DiskOp.entry? = [] := by
    rw [List.filterMap_eq_nil_iff]
    intro op hop
    rw [h.flushes op hop]
    rfl
  have hcontents : (s.disk x spill).contents = [] := by
    rw [Machines.disk, Disk.onto_contents spill (s.base x) fun log hmem =>
      absurd (h.flushes _ hmem) (by simp), hnothing, h.base]
    rfl
  rw [← Machines.logFile_append_lost (k := k)] at hcontents
  exact (List.append_eq_nil_iff.mp hcontents).1

theorem mute_construct (hpeers : peers ≠ []) (groupId : Nat) (selfId : Uuid) (rand : Nat) :
    Mute peers (RaftNode.construct groupId selfId peers rand) [] := by
  have hsome : ¬ peers.isEmpty = true := by simpa using hpeers
  unfold RaftNode.construct
  rw [if_neg hsome]
  exact ⟨by simp [RaftNode.resetElectionTimer], rfl, fun op hop => absurd hop List.not_mem_nil, rfl⟩

end Ballots

/-! ## One member

It has nobody to hear from, so its log grows by what is proposed to it, and each of these commands
is committed in the same call. -/

/-- All that a node has appended, behind the file it came up with. -/
def RaftNode.written (n : RaftNode) (base : Bytes) : Bytes :=
  base ++ (n.disk.filterMap DiskOp.entry?).flatMap line

theorem RaftNode.written_flush (n : RaftNode) (base : Bytes) :
    (n.record .flush).written base = n.written base := by
  show base ++ ((n.disk ++ [DiskOp.flush]).filterMap DiskOp.entry?).flatMap line = _
  rw [List.filterMap_append]
  exact congrArg (base ++ List.flatMap line ·) (List.append_nil _)

theorem RaftNode.written_append (n : RaftNode) (base : Bytes) (e : LogEntry) :
    (n.record (.append e)).written base = n.written base ++ line e := by
  show base ++ ((n.disk ++ [DiskOp.append e]).filterMap DiskOp.entry?).flatMap line = _
  rw [List.filterMap_append, List.flatMap_append, ← List.append_assoc]
  exact congrArg (n.written base ++ ·) (List.append_nil _)

/-- The only member of its group: it leads, and is its own majority, so that it has committed
whatever it has. No other leader makes it cut its log, so what it has written are the commands of
the log; and once it has appended something, the last of its lines is finished. -/
structure Sole (n : RaftNode) (base : Bytes) : Prop where
  leads : n.state = .leader
  peers : n.peers = []
  rooted : n.log ≠ []
  commitIndex : n.commitIndex = n.lastLogIndex
  appends : ∀ log, .rewrite log ∉ n.disk
  commands : fileCommands (n.written base) = (n.log.drop 1).map LogEntry.command
  finished : space ∉ lastLine base → space ∉ lastLine (n.written base)

namespace Sole

variable {n : RaftNode} {base : Bytes}

theorem of_same (h : Sole n base) {n' : RaftNode} (hstate : n'.state = n.state)
    (hpeers : n'.peers = n.peers) (hlog : n'.log = n.log) (hcommit : n'.commitIndex = n.commitIndex)
    (hdisk : n'.disk = n.disk) : Sole n' base where
  leads := hstate.trans h.leads
  peers := hpeers.trans h.peers
  rooted := by
    rw [hlog]
    exact h.rooted
  commitIndex := by
    rw [hcommit, RaftNode.lastLogIndex, hlog]
    exact h.commitIndex
  appends := by
    rw [hdisk]
    exact h.appends
  commands := by
    rw [RaftNode.written, hdisk, hlog]
    exact h.commands
  finished := by
    rw [RaftNode.written, hdisk]
    exact h.finished

theorem record_flush (h : Sole n base) : Sole (n.record .flush) base where
  leads := h.leads
  peers := h.peers
  rooted := h.rooted
  commitIndex := h.commitIndex
  appends log hmem := by
    rcases List.mem_append.mp hmem with hold | hnew
    · exact h.appends log hold
    · exact absurd (List.mem_singleton.mp hnew) (by simp)
  commands := by
    rw [RaftNode.written_flush]
    exact h.commands
  finished := by
    rw [RaftNode.written_flush]
    exact h.finished

/-- There is nobody to send anything to. -/
theorem tick (h : Sole n base) (rand : Nat) :
    Sole (n.tick rand).1 base ∧ (n.tick rand).2 = [] := by
  have hflushed := h.record_flush
  unfold RaftNode.tick
  dsimp only
  rw [if_pos hflushed.leads]
  split
  · refine ⟨hflushed.of_same rfl rfl rfl rfl rfl, ?_⟩
    show n.peers.flatMap _ = []
    rw [h.peers]
    rfl
  · exact ⟨hflushed.of_same rfl rfl rfl rfl rfl, rfl⟩

theorem tick64 (h : Sole n base) (rand : Nat) :
    Sole (n.tick64 rand).1 base ∧ (n.tick64 rand).2 = [] := by
  have htick := h.tick rand
  unfold RaftNode.tick64
  split
  · exact htick
  · refine ⟨htick.1.of_same rfl rfl rfl rfl rfl, ?_⟩
    show (n.tick rand).1.peers.map _ = []
    rw [htick.1.peers]
    rfl

/-- The new entry is committed at once, and its line is read as its command. -/
theorem propose (h : Sole n base) {cmd : Bytes} (hcmd : lf ∉ cmd) (hbase : space ∉ lastLine base) :
    Sole (n.propose cmd).1 base ∧ (n.propose cmd).2 = [] := by
  have hempty : n.peers.isEmpty = true := by
    rw [h.peers]
    rfl
  unfold RaftNode.propose
  rw [if_neg (not_not.mpr h.leads)]
  dsimp only
  rw [if_pos hempty]
  refine ⟨⟨h.leads, h.peers, ?_, rfl, fun log hmem => ?_, ?_, fun _ => ?_⟩, ?_⟩
  · exact List.append_ne_nil_of_left_ne_nil h.rooted _
  · rcases List.mem_append.mp hmem with hold | hnew
    · exact h.appends log hold
    · exact absurd (List.mem_singleton.mp hnew) (by simp)
  · rw [RaftNode.written_append]
    show fileCommands (n.written base ++ line ⟨n.currentTerm, cmd⟩)
      = (List.drop 1 (n.log ++ [⟨n.currentTerm, cmd⟩])).map _
    rw [fileCommands_append_line (h.finished hbase) hcmd, h.commands,
      List.drop_append_of_le_length (List.length_pos_iff.mpr h.rooted), List.map_append]
    rfl
  · rw [RaftNode.written_append, lastLine_append_line]
    exact List.not_mem_nil
  · show n.peers.flatMap _ = []
    rw [h.peers]
    rfl

/-- It comes up with what its file says. -/
theorem restored {groupId : Nat} {selfId : Uuid} {file : Bytes} {rand : Nat}
    (h : RaftNode.restore groupId selfId [] file rand = .ok n) : Sole n file := by
  obtain ⟨entries, hload, hn⟩ := Except.of_bind_eq_ok h
  cases hn
  refine ⟨rfl, rfl, by simp [RaftNode.becomeLeader], rfl, by simp [RaftNode.becomeLeader], ?_, ?_⟩
  · show fileCommands (file ++ []) = (List.drop 1 (sentinel :: entries)).map _
    rw [List.append_nil, ← loadFromDisk_commands hload]
    rfl
  · show _ → space ∉ lastLine (file ++ [])
    rw [List.append_nil]
    exact id

/-- What a crash leaves of its file has the first of its commands, unless the crash tears a line. -/
theorem fileCommands_prefix_log {s : Machines} {x : Uuid} (h : Sole (s.node x) (s.base x))
    {spill : Nat → Nat} {k : Nat} (hwhole : ¬ Torn (s.logFile x spill k) (s.lost x spill k)) :
    fileCommands (s.logFile x spill k) <+: ((s.node x).log.drop 1).map LogEntry.command := by
  have hprefix := fileCommands_prefix hwhole
  have hcontents : (s.disk x spill).contents = (s.node x).written (s.base x) :=
    Disk.onto_contents spill (s.base x) h.appends
  rwa [Machines.logFile_append_lost, hcontents, h.commands] at hprefix

end Sole

/-! ## Every run

The two cases put together. A crash takes from a machine everything but its file. -/

namespace Group

variable {g : Group} {s : Machines} {x y : Uuid}

/-- A member of its kind. -/
structure Member (g : Group) (x : Uuid) (n : RaftNode) (base : Bytes) : Prop where
  sole : g.peersOf x = [] → Sole n base
  mute : g.peersOf x ≠ [] → Mute (g.peersOf x) n base

/-- A ballot from one member to another. -/
structure Posted (g : Group) (m : Parcel) : Prop where
  src : m.src ∈ g.members
  dst : m.dst ∈ g.peersOf m.src
  ballot : ∃ payload : Payload, payload.Ballot ∧ payload.text g.gid = some m.bytes

structure Orderly (g : Group) (s : Machines) : Prop where
  member : ∀ x ∈ g.members, g.Member x (s.node x) (s.base x)
  sent : ∀ m ∈ s.sent, g.Posted m

theorem Orderly.act (h : g.Orderly s) (hx : x ∈ g.members) {r : RaftNode × List RaftMessage}
    (hnode : g.Member x r.1 (s.base x))
    (hsent : ∀ m ∈ r.2, m.target ∈ g.peersOf x ∧ m.payload.Ballot) : g.Orderly (g.act s x r) where
  member y hy := by
    by_cases hyx : y = x
    · subst hyx
      rw [act_node_self]
      exact hnode
    · rw [act_node_of_ne hyx]
      exact h.member y hy
  sent m hm := by
    rcases List.mem_append.mp hm with hold | hnew
    · exact h.sent m hold
    · obtain ⟨msg, hmsg, hbytes⟩ := List.mem_filterMap.mp hnew
      obtain ⟨bytes, htext, rfl⟩ := Option.map_eq_some_iff.mp hbytes
      obtain ⟨htarget, hballot⟩ := hsent msg hmsg
      exact ⟨hx, htarget, msg.payload, hballot, htext⟩

theorem Orderly.tick (h : g.Orderly s) (hx : x ∈ g.members) (rand : Nat) :
    g.Orderly (g.act s x ((s.node x).tick64 rand)) := by
  have hmember := h.member x hx
  by_cases hpeers : g.peersOf x = []
  · obtain ⟨hsole, hnone⟩ := (hmember.sole hpeers).tick64 rand
    refine h.act hx ⟨fun _ => hsole, fun hne => absurd hpeers hne⟩ fun m hm => ?_
    rw [hnone] at hm
    exact absurd hm List.not_mem_nil
  · obtain ⟨hmute, hsent⟩ := (hmember.mute hpeers).tick64 rand
    exact h.act hx ⟨fun hnil => absurd hnil hpeers, fun _ => hmute⟩ hsent

theorem Orderly.deliver (h : g.Orderly s) {m : Parcel} (hm : m ∈ s.sent) (hdst : m.dst ∈ g.members)
    (rand stray : Nat) :
    g.Orderly (g.act s m.dst (g.hear (s.node m.dst) m.src m.bytes rand stray)) := by
  obtain ⟨hsrc, hto, payload, hballot, hbytes⟩ := h.sent m hm
  have hback : m.src ∈ g.peersOf m.dst := peersOf_symm hsrc hto
  have hpeers : g.peersOf m.dst ≠ [] := List.ne_nil_of_mem hback
  obtain ⟨hmute, hsent⟩ :=
    ((h.member m.dst hdst).mute hpeers).hear hballot hbytes m.src rand stray
  refine h.act hdst ⟨fun hnil => absurd hnil hpeers, fun _ => hmute⟩ fun reply hreply => ?_
  obtain ⟨htarget, hreplied⟩ := hsent reply hreply
  exact ⟨htarget ▸ hback, hreplied⟩

theorem Orderly.propose (h : g.Orderly s) (hx : x ∈ g.members) {cmd : Bytes}
    (hunbroken : g.Unbroken s (.propose x cmd)) :
    g.Orderly (g.act s x ((s.node x).propose cmd)) := by
  have hmember := h.member x hx
  by_cases hpeers : g.peersOf x = []
  · obtain ⟨hcmd, hbase⟩ := hunbroken hpeers
    obtain ⟨hsole, hnone⟩ := (hmember.sole hpeers).propose hcmd hbase
    refine h.act hx ⟨fun _ => hsole, fun hne => absurd hpeers hne⟩ fun m hm => ?_
    rw [hnone] at hm
    exact absurd hm List.not_mem_nil
  · -- it does not lead
    have hrefused : (s.node x).propose cmd = (s.node x, []) := if_pos (hmember.mute hpeers).follows
    rw [hrefused]
    exact h.act hx hmember fun m hm => absurd hm List.not_mem_nil

theorem Orderly.apply (h : g.Orderly s) (hx : x ∈ g.members) :
    g.Orderly (g.act s x ((s.node x).takePendingApply.1, [])) := by
  have hmember := h.member x hx
  refine h.act hx ⟨fun hnil => ?_, fun hne => ?_⟩ fun m hm => absurd hm List.not_mem_nil
  · exact (hmember.sole hnil).of_same rfl rfl rfl rfl rfl
  · exact (hmember.mute hne).of_same (hmember.mute hne).follows rfl rfl

theorem Orderly.restart (h : g.Orderly s) (hx : x ∈ g.members) {spill : Nat → Nat} {k rand : Nat}
    {n : RaftNode}
    (hrestore : RaftNode.restore g.groupId x (g.peersOf x) (s.logFile x spill k) rand = .ok n) :
    g.Orderly
      { g.act s x (n, []) with base := Function.update s.base x (s.logFile x spill k) } where
  member y hy := by
    show g.Member y ((g.act s x (n, [])).node y) (Function.update s.base x _ y)
    by_cases hyx : y = x
    · subst hyx
      rw [act_node_self, Function.update_self]
      refine ⟨fun hnil => ?_, fun hne => ?_⟩
      · rw [hnil] at hrestore
        exact Sole.restored hrestore
      · rw [((h.member y hx).mute hne).logFile_eq_nil, RaftNode.restore_nil] at hrestore
        cases hrestore
        rw [((h.member y hx).mute hne).logFile_eq_nil]
        exact mute_construct hne g.groupId y rand
    · rw [act_node_of_ne hyx, Function.update_of_ne hyx]
      exact h.member y hy
  sent m hm := h.sent m (by simpa [Group.act] using hm)

theorem Orderly.happen (h : g.Orderly s) (e : Happening) (hunbroken : g.Unbroken s e) :
    g.Orderly (g.happen s e) := by
  have hstep := g.happened s e
  generalize g.happen s e = s' at hstep ⊢
  cases hstep with
  | nothing => exact h
  | tick hup rand => exact h.tick hup.1 rand
  | deliver hsent hup rand stray => exact h.deliver (List.mem_of_getElem? hsent) hup.1 rand stray
  | propose hup cmd => exact h.propose hup.1 hunbroken
  | apply hup =>
    have hact := h.apply hup.1
    exact ⟨hact.member, hact.sent⟩
  | restart hup hrestore => exact h.restart hup.1 hrestore
  | lose hup => exact ⟨h.member, h.sent⟩

theorem orderly_built (g : Group) (draw : Uuid → Nat) : g.Orderly (g.built draw) where
  member x _ := by
    refine ⟨fun hnil => ?_, fun hne => mute_construct hne g.groupId x (draw x)⟩
    have hrestore : RaftNode.restore g.groupId x [] [] (draw x) = .ok ((g.built draw).node x) := by
      rw [RaftNode.restore_nil, ← hnil]
      rfl
    exact Sole.restored hrestore
  sent m hm := absurd hm List.not_mem_nil

end Group

/-- **A restart applies only committed entries**, in every run in which the one member of a group
appends lines that are read as they were written.

A restart counts every line of the file as committed. In a group of several no line ever gets there,
since no one is elected: a granted vote is sent as `+1` and read as none (`Mute`). In a group of one
the leader's own word is a majority, so what it appends it commits at once (`Sole`), and a restart
hands out what it had committed; it does so unless a line is read back as another command than was
appended (`twoLines_applies`). -/
theorem restart_applies_committed (g : Group) (draw : Uuid → Nat) (hs : List Happening) (x : Uuid)
    (spill : Nat → Nat) (k rand : Nat) (n : RaftNode) (hup : g.Up (g.machines draw hs) x)
    (hrestore : RaftNode.restore g.groupId x (g.peersOf x)
      ((g.machines draw hs).logFile x spill k) rand = .ok n)
    (hunbroken : Run.Along g.happen g.Unbroken (g.built draw) (hs ++ [.crash x spill k rand]))
    (later : List Happening)
    (hquiet : Run.Along g.happen (Quiet x) (g.machines draw (hs ++ [.crash x spill k rand]))
      later) :
    ∀ i cmd, (g.handedOut draw x hs (.crash x spill k rand :: later))[i]? = some cmd →
      g.Committed draw hs (i + 1) cmd := by
  intro i cmd hcmd
  obtain ⟨hbefore, hcrash, -⟩ := hunbroken.append
  have horderly : g.Orderly (g.machines draw hs) :=
    Run.Along.invariant (fun s e he hs => hs.happen e he) hbefore (g.orderly_built draw)
  have hmember := horderly.member x hup.1
  obtain ⟨rest, hrest⟩ := handedOut_prefix hup hrestore hquiet
  have hfile : (fileCommands ((g.machines draw hs).logFile x spill k))[i]? = some cmd := by
    rw [← hrest, List.getElem?_append_left (List.getElem?_eq_some_iff.mp hcmd).1, hcmd]
  by_cases hpeers : g.peersOf x = []
  · -- the file has commands of the log, and all of these are committed
    have hsole := hmember.sole hpeers
    obtain ⟨more, hmore⟩ := hsole.fileCommands_prefix_log (hcrash hpeers)
    have hlog : ((((g.machines draw hs).node x).log.drop 1).map LogEntry.command)[i]?
        = some cmd := by
      rw [← hmore, List.getElem?_append_left (List.getElem?_eq_some_iff.mp hfile).1, hfile]
    obtain ⟨hi, -⟩ := List.getElem?_eq_some_iff.mp hlog
    rw [List.length_map, List.length_drop] at hi
    rw [List.getElem?_map, List.getElem?_drop, Nat.add_comm] at hlog
    refine ⟨hs, List.prefix_refl _, x, hup.1, ?_, hlog⟩
    rw [hsole.commitIndex]
    exact hi
  · -- there is no file
    rw [(hmember.mute hpeers).logFile_eq_nil, fileCommands_nil] at hfile
    exact absurd hfile (by simp)

/-- A group of one node. -/
def solo : Group := ⟨0, [1], by decide⟩

/-- The node takes a command, crashes after its next tick, and takes another one. -/
def twoLives : List Happening :=
  [.propose 1 (ascii "SET k a"), .tick 1 0, .crash 1 (fun _ => 0) 0 0,
    .propose 1 (ascii "SET k b"), .tick 1 0]

theorem restart_applies_committed_twoLives :
    let crash : Happening := .crash 1 (fun _ => 0) 0 0
    (solo.handedOut (fun _ => 0) 1 twoLives [crash, .apply 1]
      = [ascii "SET k a", ascii "SET k b"]) ∧
    ∀ i cmd, (solo.handedOut (fun _ => 0) 1 twoLives [crash, .apply 1])[i]? = some cmd →
      solo.Committed (fun _ => 0) twoLives (i + 1) cmd := by
  have hfile : (solo.machines (fun _ => 0) twoLives).logFile 1 (fun _ => 0) 0
      = [(⟨0, ascii "SET k a"⟩ : LogEntry), ⟨0, ascii "SET k b"⟩].flatMap line := by
    decide +kernel
  have hstorable : ∀ e ∈ [(⟨0, ascii "SET k a"⟩ : LogEntry), ⟨0, ascii "SET k b"⟩],
      e.Storable := by
    simp only [List.forall_mem_cons]
    exact ⟨⟨by decide, by decide⟩, ⟨by decide, by decide⟩, by simp⟩
  obtain ⟨n, hrestore, -⟩ :=
    RaftNode.restore_lines solo.groupId 1 (solo.peersOf 1) 0 hstorable
  rw [← hfile] at hrestore
  refine ⟨by decide +kernel, ?_⟩
  exact restart_applies_committed solo (fun _ => 0) twoLives 1 (fun _ => 0) 0 0 n (by decide +kernel)
    hrestore (by decide +kernel) [.apply 1] ⟨trivial, trivial⟩

/-- `SET k` with a value of two lines. -/
def twoLines : List Happening := [.propose 1 (ascii "SET k a\n0 b"), .tick 1 0]

/-- Its one command comes back as two that nobody has ever had. -/
theorem twoLines_applies :
    solo.handedOut (fun _ => 0) 1 twoLines [.crash 1 (fun _ => 0) 0 0, .apply 1]
      = [ascii "SET k a", ascii "b"] ∧
    ¬ solo.Committed (fun _ => 0) twoLines 1 (ascii "SET k a") := by
  have halong : Run.Along solo.happen
      (fun s _ => cmdAt (s.node 1).log 1 ≠ some (ascii "SET k a"))
      (solo.built fun _ => 0) twoLines := by decide +kernel
  have hend : cmdAt ((solo.machines (fun _ => 0) twoLines).node 1).log 1
      ≠ some (ascii "SET k a") := by decide +kernel
  refine ⟨by decide +kernel, ?_⟩
  rintro ⟨before, hbefore, m, hm, -, hcmd⟩
  obtain rfl : m = 1 := by simpa [solo] using hm
  exact halong.of_prefix (I := fun s : Machines => cmdAt (s.node 1).log 1 ≠ some (ascii "SET k a"))
    hend before hbefore hcmd

end Raft
end KvJet
