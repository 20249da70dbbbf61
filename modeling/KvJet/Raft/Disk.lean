import KvJet.Lib.Run
import KvJet.Raft.Node

/-!
# The log file

`appendToDisk`, `flushDisk`, `rewriteDisk` and `loadFromDisk` of `RaftNode.cpp`, on the calls
that a node has recorded in `RaftNode.disk`.

A line goes through two buffers on its way to the file: `diskBuf_`, and the one inside
`std::ofstream logFile_`. How much of what it holds a stream passes on before it is flushed is up
to the library: `spill k` bytes at the call number `k`, for any function `spill`.
-/

namespace KvJet
namespace Raft

/-- `' '`. -/
def space : UInt8 := 32

/-- A log entry, as a line of the file. -/
def line (e : LogEntry) : Bytes := toString e.term ++ space :: e.command ++ [lf]

structure Disk where
  file : Bytes := []
  /-- In the buffer of `logFile_`. -/
  stream : Bytes := []
  diskBuf : Bytes := []
deriving DecidableEq, Repr

namespace Disk

/-- `logFile_ << diskBuf_` and `diskBuf_.clear()`. -/
def write (d : Disk) (k : Nat) : Disk :=
  let stream := d.stream ++ d.diskBuf
  ⟨d.file ++ stream.take k, stream.drop k, []⟩

def appendToDisk (d : Disk) (e : LogEntry) (k : Nat) : Disk :=
  let d := { d with diskBuf := d.diskBuf ++ line e }
  if d.diskBuf.length ≥ 1024 then d.write k else d

def flushDisk (d : Disk) : Disk :=
  if d.diskBuf.isEmpty then d else ⟨d.file ++ d.stream ++ d.diskBuf, [], []⟩

/-- A stream of its own truncates the file and writes the log without the sentinel. Neither
buffer is looked at. -/
def rewriteDisk (d : Disk) (log : List LogEntry) : Disk :=
  { d with file := (log.drop 1).flatMap line }

def perform (d : Disk) (k : Nat) : DiskOp → Disk
  | .append e => d.appendToDisk e k
  | .flush => d.flushDisk
  | .rewrite log => d.rewriteDisk log

/-- One call, with its number. -/
def step (spill : Nat → Nat) (d : Disk) (op : DiskOp × Nat) : Disk := d.perform (spill op.2) op.1

/-- The disk after the calls `ops`, where there was no file before them. -/
def after (spill : Nat → Nat) (ops : List DiskOp) : Disk := Run.exec (step spill) {} ops.zipIdx

/-- The disk after the calls `ops` of a node that came up with `file`. -/
def onto (spill : Nat → Nat) (file : Bytes) (ops : List DiskOp) : Disk :=
  Run.exec (step spill) { file } ops.zipIdx

/-- The file when the node has been destroyed: the stream is closed, and what is in `diskBuf_` is
gone. -/
def close (d : Disk) : Bytes := d.file ++ d.stream

end Disk

/-! ## Reading it back -/

/-- One line: an empty one and one without a space are skipped. -/
def loadLine (l : Bytes) : Except Fault (List LogEntry) :=
  match l.dropWhile (· ≠ space) with
  | [] => .ok []
  | _ :: command => do return [⟨(← stoull (l.takeWhile (· ≠ space))).toNat, command⟩]

/-- What `loadFromDisk` puts behind the sentinel. -/
def loadFromDisk (file : Bytes) : Except Fault (List LogEntry) := do
  return (← (file.splitOn lf).mapM loadLine).flatten

/-- The constructor, where there is a log file. -/
def RaftNode.restore (groupId : Nat) (selfId : Uuid) (peers : List Uuid) (file : Bytes)
    (rand : Nat) : Except Fault RaftNode := do
  let entries ← loadFromDisk file
  let n : RaftNode :=
    { groupId, selfId, peers, log := sentinel :: entries, commitIndex := entries.length }
  return if peers.isEmpty then n.becomeLeader else n.resetElectionTimer rand

/-- An empty file is as good as none. -/
theorem RaftNode.restore_nil (groupId : Nat) (selfId : Uuid) (peers : List Uuid) (rand : Nat) :
    RaftNode.restore groupId selfId peers [] rand = .ok (.construct groupId selfId peers rand) :=
  rfl

/-- What can be read back from its line. -/
def LogEntry.Storable (e : LogEntry) : Prop := e.term < 2 ^ 64 ∧ lf ∉ e.command

theorem not_space_of_mem_toString {n : Nat} {b : UInt8} (hb : b ∈ toString n) : b ≠ space := by
  rintro rfl
  exact not_mem_toString (by decide) n hb

/-- The line of an entry is cut behind the term. -/
theorem dropWhile_entry (e : LogEntry) :
    (toString e.term ++ space :: e.command).dropWhile (· ≠ space) = space :: e.command := by
  have hdigits : ∀ b ∈ toString e.term, decide (b ≠ space) = true := fun b hb =>
    decide_eq_true (not_space_of_mem_toString hb)
  rw [List.dropWhile_append_of_pos hdigits, List.dropWhile_cons_of_neg (by simp)]

theorem takeWhile_entry (e : LogEntry) :
    (toString e.term ++ space :: e.command).takeWhile (· ≠ space) = toString e.term := by
  have hdigits : ∀ b ∈ toString e.term, decide (b ≠ space) = true := fun b hb =>
    decide_eq_true (not_space_of_mem_toString hb)
  rw [List.takeWhile_append_of_pos hdigits, List.takeWhile_cons_of_neg (by simp), List.append_nil]

theorem lf_not_mem_entry {e : LogEntry} (h : lf ∉ e.command) :
    lf ∉ toString e.term ++ space :: e.command := by
  simp only [List.mem_append, List.mem_cons, not_or]
  exact ⟨not_mem_toString (by decide) _, by decide, h⟩

theorem loadLine_line {e : LogEntry} (h : e.term < 2 ^ 64) :
    loadLine (toString e.term ++ space :: e.command) = .ok [e] := by
  have hterm : stoull (toString e.term) = .ok (UInt64.ofNat e.term) := by
    have hread := stoull_toString (UInt64.ofNat e.term)
    rwa [UInt64.toNat_ofNat_of_lt' h] at hread
  unfold loadLine
  rw [dropWhile_entry, takeWhile_entry, hterm]
  simp [bind, Except.bind, pure, Except.pure, UInt64.toNat_ofNat_of_lt' h]

/-- **Lines are read back as the entries they were written for.** -/
theorem loadFromDisk_lines {es : List LogEntry} (h : ∀ e ∈ es, e.Storable) :
    loadFromDisk (es.flatMap line) = .ok es := by
  have hlines : ∀ es : List LogEntry, (∀ e ∈ es, e.Storable) →
      ((es.flatMap line).splitOn lf).mapM loadLine = .ok (es.map ([·]) ++ [[]]) := by
    intro es
    induction es with
    | nil => intro _; rfl
    | cons e es ih =>
      intro hes
      obtain ⟨hterm, hcmd⟩ := hes e List.mem_cons_self
      have hsplit : (((e :: es).flatMap line).splitOn lf)
          = (toString e.term ++ space :: e.command) :: (es.flatMap line).splitOn lf := by
        rw [← List.splitOn_append_cons_self_of_not_mem (lf_not_mem_entry hcmd)]
        simp [line]
      rw [hsplit, List.mapM_cons, loadLine_line hterm,
        ih fun e' he' => hes e' (List.mem_cons_of_mem _ he')]
      rfl
  have hflat : (es.map ([·]) ++ [[]]).flatten = es := by
    rw [List.flatten_append, ← List.flatMap_def, List.flatMap_singleton']
    simp
  unfold loadFromDisk
  rw [hlines es h]
  exact congrArg Except.ok hflat

/-- A restart finds its entries in the file and takes all of them for committed. Term and vote are
those of a new node. -/
theorem RaftNode.restore_lines (groupId : Nat) (selfId : Uuid) (peers : List Uuid) (rand : Nat)
    {es : List LogEntry} (h : ∀ e ∈ es, e.Storable) :
    ∃ n, RaftNode.restore groupId selfId peers (es.flatMap line) rand = .ok n ∧
      n.log = sentinel :: es ∧ n.commitIndex = es.length ∧ n.currentTerm = 0 ∧
      n.votedFor = none := by
  unfold RaftNode.restore
  rw [loadFromDisk_lines h]
  refine ⟨_, rfl, ?_⟩
  split <;> exact ⟨rfl, rfl, rfl, rfl⟩

/-! ## What is written -/

namespace Disk

/-- All that has been written and not been cut off, wherever it is by now. -/
def contents (d : Disk) : Bytes := d.file ++ d.stream ++ d.diskBuf

theorem write_contents (d : Disk) (k : Nat) : (d.write k).contents = d.contents := by
  simp [write, contents]

theorem appendToDisk_contents (d : Disk) (e : LogEntry) (k : Nat) :
    (d.appendToDisk e k).contents = d.contents ++ line e := by
  unfold appendToDisk
  dsimp only
  split
  · rw [write_contents]
    simp [contents]
  · simp [contents]

theorem flushDisk_contents (d : Disk) : d.flushDisk.contents = d.contents := by
  unfold flushDisk
  split
  · rfl
  · simp [contents]

theorem after_append (spill : Nat → Nat) (ops ops' : List DiskOp) :
    after spill (ops ++ ops')
      = Run.exec (step spill) (after spill ops) (ops'.zipIdx ops.length) := by
  unfold after
  rw [List.zipIdx_append, Run.exec_append, Nat.zero_add]

theorem after_appends_contents (spill : Nat → Nat) (ops : List DiskOp) (es : List LogEntry) :
    (after spill (ops ++ es.map .append)).contents
      = (after spill ops).contents ++ es.flatMap line := by
  rw [after_append]
  generalize after spill ops = d
  generalize ops.length = k
  induction es generalizing d k with
  | nil => simp
  | cons e es ih =>
    rw [List.map_cons, List.zipIdx_cons, Run.exec_cons, ih]
    show (d.appendToDisk e _).contents ++ _ = _
    rw [appendToDisk_contents, List.append_assoc]
    rfl

/-- A call that leaves nothing behind: a flush with an empty buffer finds the stream empty, and a
rewrite finds both empty. -/
def Ready (d : Disk) (op : DiskOp × Nat) : Prop :=
  match op.1 with
  | .append _ => True
  | .flush => d.diskBuf = [] → d.stream = []
  | .rewrite _ => d.diskBuf = [] ∧ d.stream = []

instance (d : Disk) : DecidablePred d.Ready
  | (.append _, _) => inferInstanceAs (Decidable True)
  | (.flush, _) => inferInstanceAs (Decidable (_ → _))
  | (.rewrite _, _) => inferInstanceAs (Decidable (_ ∧ _))

/-- All calls are. -/
def Gentle (spill : Nat → Nat) (ops : List DiskOp) : Prop :=
  Run.Along (step spill) Ready {} ops.zipIdx

instance (spill : Nat → Nat) : DecidablePred (Gentle spill) := fun _ =>
  inferInstanceAs (Decidable (Run.Along _ _ _ _))

theorem Gentle.of_append {spill : Nat → Nat} {ops ops' : List DiskOp}
    (h : Gentle spill (ops ++ ops')) : Gentle spill ops := by
  unfold Gentle at h
  rw [List.zipIdx_append] at h
  exact h.append.1

theorem Gentle.last {spill : Nat → Nat} {ops : List DiskOp} {op : DiskOp}
    (h : Gentle spill (ops ++ [op])) : ∃ k, (after spill ops).Ready (op, k) := by
  unfold Gentle at h
  rw [List.zipIdx_append] at h
  exact ⟨_, h.append.2.1⟩

/-- A flush that leaves nothing behind brings everything to the file. -/
theorem file_flush {spill : Nat → Nat} {ops : List DiskOp} (h : Gentle spill (ops ++ [.flush])) :
    (after spill (ops ++ [.flush])).file = (after spill ops).contents := by
  obtain ⟨_, hready⟩ := h.last
  rw [after_append]
  show (flushDisk _).file = _
  generalize after spill ops = d at hready
  have hstream : d.diskBuf = [] → d.stream = [] := hready
  unfold flushDisk
  cases hbuf : d.diskBuf with
  | nil => simp [contents, hbuf, hstream hbuf]
  | cons b bs => simp [contents, hbuf]

/-- After a rewrite that leaves nothing behind, what is written is the log. -/
theorem contents_rewrite {spill : Nat → Nat} {ops : List DiskOp} {log : List LogEntry}
    (h : Gentle spill (ops ++ [.rewrite log])) :
    (after spill (ops ++ [.rewrite log])).contents = (log.drop 1).flatMap line := by
  obtain ⟨_, hbuf, hstream⟩ := h.last
  rw [after_append]
  show (rewriteDisk _ log).contents = _
  simp [contents, rewriteDisk, hbuf, hstream]

end Disk
end Raft
end KvJet
