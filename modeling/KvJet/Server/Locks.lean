import KvJet.Lib.Locks
import KvJet.Raft.Threads
import KvJet.Server.Dispatch

/-!
# Locks of the server

Who takes `queueMutex`, the `mtx_` of the Raft groups, the locks of the shards and
`connections_lock`, and in what order: the main loop (thread 0) in `epoll_step` and
`gracefulShutdown`, the heartbeat thread (thread 1), and the threads of the pool. Each function of
the source is its script of these locks. A script is made of what the function comes upon while
it runs, which others may change between any two of its steps: the node of a group as it is when
the call has its lock, and the map of connections at each look into it (`seen`). An exception may
end a script anywhere. The other locks are held only while a container or a file is read or written.

Everybody but the main loop takes `queueMutex` last. The main loop takes it first, and under it
calls what takes it again: `sendCb` for each Raft message of a `tick` or a `step` that goes to a
connected node, and the failure callback for each dead node. It also waits under it for the lock
of a group, a shard or the connections, which a thread may hold that waits for `queueMutex`
(`deadlocks`). `no_deadlock` is about the runs in which neither happens.
-/

namespace KvJet
namespace Server
namespace Locking

open Locks Resp Store
open Raft (RaftNode RaftMessage LogEntry Uuid)

inductive Lock where
  | queueMutex
  | mtx (gid : Nat)
  | shard (i : Nat)
  | connectionsLock
deriving DecidableEq, Repr

abbrev Script := List (Op Lock)

/-! ## The cluster -/

def getConnection : Script := locked .connectionsLock .shared []

def getConnections : Script := locked .connectionsLock .shared []

def addConnection : Script := locked .connectionsLock .exclusive []

def delConnection : Script :=
  locked .connectionsLock .shared [] ++ locked .connectionsLock .exclusive []

def delTopoNode : Script := delConnection

/-! ## The message queue -/

/-- An `emplace` on `message_queue`. -/
def enqueue : Script := locked .queueMutex .exclusive []

/-- What `makeRaftSendCb` makes. -/
def sendCb (c : Cluster) (msg : RaftMessage) : Script :=
  getConnection ++ if c.getConnection msg.target = -1 then [] else enqueue

def sendAll (seen : Nat → Cluster) (msgs : List RaftMessage) : Script :=
  msgs.zipIdx.flatMap fun (msg, i) => sendCb (seen i) msg

def sendHeartbeats (connections : List (Uuid × Int)) : Script :=
  locked .connectionsLock .shared
    (connections.flatMap fun (_, fd) => if fd = -1 then [] else enqueue)

/-- What the constructor sets as the failure callback. -/
def failureCb : Script := enqueue

def checkTimeouts (dead : List Uuid) : Script := dead.flatMap fun _ => delTopoNode ++ failureCb

/-- One round of it. -/
def heartbeatLoop (connections : List (Uuid × Int)) (dead : List Uuid) : Script :=
  sendHeartbeats connections ++ checkTimeouts dead

/-! ## Raft -/

/-- A critical section of a group. -/
def critical (gid : Nat) (seen : Nat → Cluster) (msgs : List RaftMessage) : Script :=
  locked (.mtx gid) .exclusive (sendAll seen msgs)

def tick (n : RaftNode) (rand : Nat) (seen : Nat → Cluster) : Script :=
  critical n.groupId seen (n.tick rand).2

/-- What `step` sends. -/
def answers (n : RaftNode) (fromPeer : Uuid) (raw : Bytes) (rand stray : Nat) : List RaftMessage :=
  ((RaftNode.stepText fromPeer raw rand stray).call n).1.toOption.getD []

def step (n : RaftNode) (fromPeer : Uuid) (raw : Bytes) (rand stray : Nat)
    (seen : Nat → Cluster) : Script :=
  critical n.groupId seen (answers n fromPeer raw rand stray)

/-- The second critical section finds the node as `later`. -/
def propose (n later : RaftNode) (cmd : Bytes) (seen : Nat → Cluster) : Script :=
  locked (.mtx n.groupId) .exclusive [] ++
    if (n.push cmd).isSome then critical n.groupId seen later.broadcast else []

def takePendingApply (n : RaftNode) : Script := locked (.mtx n.groupId) .exclusive []

/-! ## The store -/

/-- `set`, `get`, `getValue` and `del`. -/
def onShard (key : Bytes) : Script :=
  locked (.shard ((HashTable.gethash key).toNat % shardCount)) .exclusive []

/-- With the keys that are found in each shard. -/
def forEach (keys : List (List Bytes)) (callback : Bytes → Script) : Script :=
  keys.zipIdx.flatMap fun (keys, i) => locked (.shard i) .shared (keys.flatMap callback)

def sendDataToNode (c : Cluster) (target : Uuid) (keys : List (List Bytes)) : Script :=
  getConnection ++
    if c.getConnection target = -1 then []
    else
      forEach keys (fun key => if (c.queryNode key).toOption = some target then enqueue else []) ++
        enqueue

/-! ## The handlers -/

/-- A Raft message, and what its handling comes upon. -/
structure Delivery where
  /-- What `getRaftGroup` finds. -/
  group : Option RaftNode
  sender : Uuid
  raw : Bytes
  rand : Nat
  stray : Nat
  seen : Nat → Cluster

def Delivery.answers (d : Delivery) : List RaftMessage :=
  match d.group with
  | none => []
  | some rn => Locking.answers rn d.sender d.raw d.rand d.stray

def handleRaft (d : Delivery) : Script :=
  match d.group with
  | none => []
  | some rn => step rn d.sender d.raw d.rand d.stray d.seen

/-- A `propose`, and what it comes upon. -/
structure Proposal where
  rn : RaftNode
  later : RaftNode
  seen : Nat → Cluster

/-- `SET` and `DEL`. -/
def handleWrite (c : Cluster) (w : Write) (p : Option Proposal) : Script :=
  match c.isMasterFor w.key, w.text with
  | .ok true, .ok text =>
    (match p with
      | none => []
      | some p => propose p.rn p.later text p.seen) ++ onShard w.key
  | _, _ => []

def SET (c : Cluster) (key : Bytes) (value : RespValue) (p : Option Proposal) : Script :=
  handleWrite c (.set key value) p

def DEL (c : Cluster) (key : Bytes) (p : Option Proposal) : Script := handleWrite c (.del key) p

def GET (key : Bytes) : Script := onShard key

def EXIST (key : Bytes) : Script := onShard key

def HELLO : Script := addConnection

/-- The broadcast of a gossip message that is new. -/
def broadcast (connections : List (Uuid × Int)) : Script :=
  getConnections ++ connections.flatMap fun _ => enqueue

/-- `sendDataToNode` finds the cluster as `later`. -/
def NODEIN (connections : List (Uuid × Int)) (c later : Cluster) (node : Uuid)
    (keys : List (List Bytes)) : Script :=
  broadcast connections ++ (getConnection ++
    if c.getConnection node = -1 then enqueue ++ enqueue
    else sendDataToNode later node keys ++ enqueue)

def NODEOUT (connections : List (Uuid × Int)) : Script :=
  broadcast connections ++ (delTopoNode ++ delConnection)

/-- With the reply of the handler. -/
def handleCommand (handler : Script) (message : Bytes) : Script :=
  handler ++ if message = [] then [] else enqueue

/-- What a thread of the pool does. -/
inductive Task where
  | SET (c : Cluster) (key : Bytes) (value : RespValue) (p : Option Proposal) (message : Bytes)
  | DEL (c : Cluster) (key : Bytes) (p : Option Proposal) (message : Bytes)
  | GET (key message : Bytes)
  | EXIST (key message : Bytes)
  | handleRaft (d : Delivery)
  | HELLO (message : Bytes)
  | NODEIN (connections : List (Uuid × Int)) (c later : Cluster) (node : Uuid)
      (keys : List (List Bytes))
  | NODEOUT (connections : List (Uuid × Int))
  | sendDataToNode (c : Cluster) (target : Uuid) (keys : List (List Bytes))
  /-- A handler that takes none of the locks. -/
  | other (message : Bytes)

def Task.script : Task → Script
  | SET c key value p message => handleCommand (Locking.SET c key value p) message
  | DEL c key p message => handleCommand (Locking.DEL c key p) message
  | GET key message => handleCommand (Locking.GET key) message
  | EXIST key message => handleCommand (Locking.EXIST key) message
  | handleRaft d => handleCommand (Locking.handleRaft d) []
  | HELLO message => handleCommand Locking.HELLO message
  | NODEIN connections c later node keys =>
    handleCommand (Locking.NODEIN connections c later node keys) []
  | NODEOUT connections => handleCommand (Locking.NODEOUT connections) []
  | sendDataToNode c target keys => Locking.sendDataToNode c target keys
  | other message => handleCommand [] message

/-! ## The main loop -/

/-- What `handle_noAOF` locks for an entry. -/
def applyEntry (entry : LogEntry) : Script :=
  match writeOf (makeCommand entry.command), readOf (makeCommand entry.command) with
  | some w, _ => onShard w.key
  | none, some key => onShard key
  | none, none => []

/-- The turn of a group: its node at the `tick`, and again, if `hasPendingApply`, at
`takePendingApply`. -/
structure Turn where
  rn : RaftNode
  rand : Nat
  seen : Nat → Cluster
  pending : Option RaftNode := none

def Turn.script (t : Turn) : Script :=
  tick t.rn t.rand t.seen ++
    match t.pending with
    | none => []
    | some rn => takePendingApply rn ++ rn.takePendingApply.2.flatMap applyEntry

/-- A message to -1 is for `connect`. -/
def handleMessage (message : Bytes × Int) : Script := if message.2 = -1 then addConnection else []

/-- What an iteration of the main loop comes upon. -/
structure Iteration where
  messageQueue : List (Bytes × Int) := []
  raftMsgQueue : List Delivery := []
  dead : List Uuid := []
  raftGroups : List Turn := []

def epollStep (it : Iteration) : Script :=
  locked .queueMutex .exclusive (it.messageQueue.flatMap handleMessage ++
    (it.raftMsgQueue.flatMap handleRaft ++ (getConnections ++ (checkTimeouts it.dead ++
      it.raftGroups.flatMap Turn.script))))

def gracefulShutdown (c : Cluster) (keys : List (List Bytes)) : Script :=
  getConnections ++ (delTopoNode ++ forEach keys fun key =>
    if (c.queryNode key).toOption = some c.selfNode.uuid then [] else getConnection)

/-! ## Runs -/

inductive Event where
  | epollStep (it : Iteration)
  | gracefulShutdown (c : Cluster) (keys : List (List Bytes))
  | heartbeat (connections : List (Uuid × Int)) (dead : List Uuid)
  /-- Thread `i` of the pool takes a task. -/
  | take (i : Nat) (t : Task)
  /-- The next step of a thread. -/
  | go (i : Nat)
  /-- An exception in a thread. -/
  | throws (i : Nat)

def Event.toLocks : Event → Locks.Event Lock
  | epollStep it => .start 0 (Locking.epollStep it)
  | gracefulShutdown c keys => .start 0 (Locking.gracefulShutdown c keys)
  | heartbeat connections dead => .start 1 (heartbeatLoop connections dead)
  | take i t => .start (i + 2) t.script
  | go i => .go i
  | throws i => .abort i

def move (s : List (Thread Lock)) (e : Event) : List (Thread Lock) := Locks.step s e.toLocks

/-- With this many threads in the pool. -/
def start (workers : Nat) : List (Thread Lock) := List.replicate (workers + 2) {}

/-! ## The order of the locks

There is one order for all threads but the main loop. It is nowhere written down; it is read off the
scripts. -/

def rank : Lock → Nat
  | .mtx _ => 0
  | .shard _ => 1
  | .connectionsLock => 2
  | .queueMutex => 3

/-- What the heartbeat thread and the pool ask for under another lock. -/
inductive May : Lock × Mode → Lock × Mode → Prop
  | sendCb (gid : Nat) : May (.mtx gid, .exclusive) (.connectionsLock, .shared)
  | queued (gid : Nat) : May (.mtx gid, .exclusive) (.queueMutex, .exclusive)
  | forEach (i : Nat) : May (.shard i, .shared) (.queueMutex, .exclusive)
  | heartbeat : May (.connectionsLock, .shared) (.queueMutex, .exclusive)

/-- What the main loop asks for under another lock. -/
inductive MayMain : Lock × Mode → Lock × Mode → Prop
  | epollStep {r : Lock × Mode} (hne : r.1 ≠ .queueMutex) : MayMain (.queueMutex, .exclusive) r
  | sendCb (gid : Nat) : MayMain (.mtx gid, .exclusive) (.connectionsLock, .shared)
  | forEach (i : Nat) : MayMain (.shard i, .shared) (.connectionsLock, .shared)

theorem discipline : Discipline May MayMain rank .queueMutex where
  up := by
    intro h r hmay
    cases hmay <;> simp [rank]
  hub_up := by
    intro h r hmay hne
    cases hmay with
    | epollStep _ => exact absurd rfl hne
    | sendCb _ => simp [rank]
    | forEach _ => simp [rank]
  hub_under := by
    intro h r hmay heq
    cases hmay with
    | epollStep hne => exact hne
    | sendCb gid => exact absurd heq (by simp)
    | forEach i => exact absurd heq (by simp)
  leaf := by
    intro h r x r' hmay hne hbars
    cases hmay with
    | sendCb gid =>
      -- whoever is in the way of a look at the connections has their lock exclusively
      obtain ⟨l, m⟩ := x
      obtain ⟨rfl, hconf⟩ : l = .connectionsLock ∧ m.Conflicts .shared := hbars
      obtain rfl : m = .exclusive := hconf.resolve_right (by simp)
      exact ⟨nofun, nofun⟩
    | queued _ => exact absurd rfl hne
    | forEach _ => exact absurd rfl hne
    | heartbeat => exact absurd rfl hne

/-! ## When `queueMutex` is not taken again

`std::mutex` is not recursive: to lock it twice is to wait for oneself. -/

/-- No node that a message goes to is connected. -/
def Unsent (seen : Nat → Cluster) (targets : List Uuid) : Prop :=
  ∀ target ∈ targets.zipIdx, (seen target.2).getConnection target.1 = -1

instance (seen : Nat → Cluster) (targets : List Uuid) : Decidable (Unsent seen targets) :=
  inferInstanceAs (Decidable (∀ target ∈ targets.zipIdx, _))

/-- The timer of the node runs out at its next `tick`. -/
def Due (rn : RaftNode) : Prop :=
  if rn.state = .leader then rn.heartbeatTimer ≤ 1 else rn.electionTimer ≤ 1

instance (rn : RaftNode) : Decidable (Due rn) := inferInstanceAs (Decidable
  (if rn.state = .leader then rn.heartbeatTimer ≤ 1 else rn.electionTimer ≤ 1))

/-- A timer runs out only of a node without a connected peer. -/
def Turn.Quiet (t : Turn) : Prop := Due t.rn → Unsent t.seen t.rn.peers

instance (t : Turn) : Decidable t.Quiet := inferInstanceAs (Decidable (_ → _))

/-- Nobody is sent a Raft message, and nobody has died. -/
structure Iteration.Quiet (it : Iteration) : Prop where
  dead : it.dead = []
  raftMsgQueue : ∀ d ∈ it.raftMsgQueue, Unsent d.seen (d.answers.map RaftMessage.target)
  raftGroups : ∀ t ∈ it.raftGroups, t.Quiet

instance (it : Iteration) : Decidable it.Quiet :=
  decidable_of_iff (it.dead = [] ∧
      (∀ d ∈ it.raftMsgQueue, Unsent d.seen (d.answers.map RaftMessage.target)) ∧
      ∀ t ∈ it.raftGroups, t.Quiet)
    ⟨fun h => ⟨h.1, h.2.1, h.2.2⟩, fun h => ⟨h.dead, h.raftMsgQueue, h.raftGroups⟩⟩

theorem targets_sendAppendEntries {rn : RaftNode} {peer : Uuid} (h : peer ∈ rn.peers) :
    (rn.sendAppendEntries peer).map RaftMessage.target = [peer] := by
  have hlt : rn.peerIndex peer < rn.peers.length := List.idxOf_lt_length_iff.mpr h
  unfold RaftNode.sendAppendEntries
  rw [if_neg (Nat.not_le_of_lt hlt)]
  rfl

theorem targets_broadcast {rn : RaftNode} : ∀ {peers : List Uuid}, peers ⊆ rn.peers →
    (peers.flatMap rn.sendAppendEntries).map RaftMessage.target = peers := by
  intro peers
  induction peers with
  | nil => intro _; rfl
  | cons peer peers ih =>
    intro hsub
    rw [List.flatMap_cons, List.map_append, ih fun p hp => hsub (List.mem_cons_of_mem _ hp),
      targets_sendAppendEntries (hsub List.mem_cons_self)]
    rfl

/-- **Whom a `tick` writes to.** -/
theorem targets_tick (rn : RaftNode) (rand : Nat) :
    (rn.tick rand).2.map RaftMessage.target = if Due rn then rn.peers else [] := by
  unfold RaftNode.tick RaftNode.record
  dsimp only
  by_cases hlead : rn.state = .leader
  · have hdue : Due rn ↔ rn.heartbeatTimer - 1 ≤ 0 := by
      rw [Due, if_pos hlead]
      omega
    rw [if_pos hlead]
    by_cases hover : rn.heartbeatTimer - 1 ≤ 0
    · rw [if_pos (hdue.mpr hover), if_pos hover]
      exact targets_broadcast fun _ h => h
    · rw [if_neg (mt hdue.mp hover), if_neg hover]
      rfl
  · have hdue : Due rn ↔ rn.electionTimer - 1 ≤ 0 := by
      rw [Due, if_neg hlead]
      omega
    rw [if_neg hlead]
    by_cases hover : rn.electionTimer - 1 ≤ 0
    · rw [if_pos (hdue.mpr hover), if_pos hover]
      show (rn.peers.map _).map RaftMessage.target = rn.peers
      rw [List.map_map]
      exact List.map_id _
    · rw [if_neg (mt hdue.mp hover), if_neg hover]
      rfl

theorem Turn.Quiet.unsent {t : Turn} (h : t.Quiet) :
    Unsent t.seen ((t.rn.tick t.rand).2.map RaftMessage.target) := by
  rw [targets_tick]
  split
  · rename_i hdue
    exact h hdue
  · exact fun _ hin => absurd hin (by simp)

/-! ## The scripts keep to the order -/

section Scripts

variable {may : Lock × Mode → Lock × Mode → Prop} {held : List (Lock × Mode)}

/-- A lock can be asked for next to what is held. -/
def Fits (may : Lock × Mode → Lock × Mode → Prop) (held : List (Lock × Mode)) (l : Lock)
    (m : Mode) : Prop := ∀ h ∈ held, may h (l, m) ∧ h.1 ≠ l

theorem fits_nil (l : Lock) (m : Mode) : Fits may [] l m := fun _ h => absurd h List.not_mem_nil

theorem Fits.cons {h : Lock × Mode} {l : Lock} {m : Mode} (hfits : Fits may held l m)
    (hmay : may h (l, m)) (hne : h.1 ≠ l) : Fits may (h :: held) l m :=
  List.forall_mem_cons.mpr ⟨⟨hmay, hne⟩, hfits⟩

theorem keeps_lookup (h : Fits may held .connectionsLock .shared) : Keeps may held getConnection :=
  Keeps.locked h keeps_nil

theorem keeps_enqueue (h : Fits may held .queueMutex .exclusive) : Keeps may held enqueue :=
  Keeps.locked h keeps_nil

theorem keeps_sendAll (hconn : Fits may held .connectionsLock .shared)
    (hqueue : Fits may held .queueMutex .exclusive) (seen : Nat → Cluster)
    (msgs : List RaftMessage) : Keeps may held (sendAll seen msgs) := by
  refine Keeps.flatMap fun (msg, i) _ => (keeps_lookup hconn).append ?_
  split
  · exact keeps_nil
  · exact keeps_enqueue hqueue

/-- Messages that go to nobody. -/
theorem keeps_unsent (hconn : Fits may held .connectionsLock .shared) {seen : Nat → Cluster}
    {msgs : List RaftMessage} (h : Unsent seen (msgs.map RaftMessage.target)) :
    Keeps may held (sendAll seen msgs) := by
  refine Keeps.flatMap fun (msg, i) hin => (keeps_lookup hconn).append ?_
  have hnone : (seen i).getConnection msg.target = -1 := by
    refine h (msg.target, i) ?_
    rw [List.zipIdx_map]
    exact List.mem_map_of_mem hin
  rw [if_pos hnone]
  exact keeps_nil

theorem keeps_delConnection (hlook : Fits may held .connectionsLock .shared)
    (hdel : Fits may held .connectionsLock .exclusive) : Keeps may held delConnection :=
  (keeps_lookup hlook).append (Keeps.locked hdel keeps_nil)

theorem keeps_forEach (hshard : ∀ i, Fits may held (.shard i) .shared) {callback : Bytes → Script}
    (h : ∀ i key, Keeps may ((.shard i, .shared) :: held) (callback key))
    (keys : List (List Bytes)) : Keeps may held (forEach keys callback) :=
  Keeps.flatMap fun (_, i) _ => Keeps.locked (hshard i) (Keeps.flatMap fun key _ => h i key)

end Scripts

/-! ## The pool and the heartbeat thread -/

theorem keeps_critical (gid : Nat) (seen : Nat → Cluster) (msgs : List RaftMessage) :
    Keeps May [] (critical gid seen msgs) :=
  Keeps.locked (fits_nil _ _) (keeps_sendAll ((fits_nil _ _).cons (.sendCb gid) (by simp))
    ((fits_nil _ _).cons (.queued gid) (by simp)) seen msgs)

theorem keeps_propose (n later : RaftNode) (cmd : Bytes) (seen : Nat → Cluster) :
    Keeps May [] (propose n later cmd seen) := by
  refine (Keeps.locked (fits_nil _ _) keeps_nil).append ?_
  split
  · exact keeps_critical _ _ _
  · exact keeps_nil

theorem keeps_onShard (key : Bytes) : Keeps May [] (onShard key) :=
  Keeps.locked (fits_nil _ _) keeps_nil

theorem keeps_handleWrite (c : Cluster) (w : Write) (p : Option Proposal) :
    Keeps May [] (handleWrite c w p) := by
  unfold handleWrite
  split
  · refine Keeps.append ?_ (keeps_onShard _)
    cases p with
    | none => exact keeps_nil
    | some p => exact keeps_propose _ _ _ _
  · exact keeps_nil

theorem keeps_handleRaft (d : Delivery) : Keeps May [] (handleRaft d) := by
  unfold handleRaft
  cases d.group with
  | none => exact keeps_nil
  | some rn => exact keeps_critical _ _ _

theorem keeps_sendDataToNode (c : Cluster) (target : Uuid) (keys : List (List Bytes)) :
    Keeps May [] (sendDataToNode c target keys) := by
  refine (keeps_lookup (fits_nil _ _)).append ?_
  split
  · exact keeps_nil
  · refine (keeps_forEach (fun i => fits_nil _ _) (fun i key => ?_) keys).append
      (keeps_enqueue (fits_nil _ _))
    split
    · exact keeps_enqueue ((fits_nil _ _).cons (.forEach i) (by simp))
    · exact keeps_nil

theorem keeps_broadcast (connections : List (Uuid × Int)) :
    Keeps May [] (broadcast connections) :=
  (keeps_lookup (fits_nil _ _)).append (Keeps.flatMap fun _ _ => keeps_enqueue (fits_nil _ _))

theorem keeps_NODEIN (connections : List (Uuid × Int)) (c later : Cluster) (node : Uuid)
    (keys : List (List Bytes)) : Keeps May [] (NODEIN connections c later node keys) := by
  have hqueue : Keeps May [] enqueue := keeps_enqueue (fits_nil _ _)
  refine (keeps_broadcast connections).append ((keeps_lookup (fits_nil _ _)).append ?_)
  split
  · exact hqueue.append hqueue
  · exact (keeps_sendDataToNode later node keys).append hqueue

theorem keeps_handleCommand {handler : Script} (h : Keeps May [] handler) (message : Bytes) :
    Keeps May [] (handleCommand handler message) := by
  refine h.append ?_
  split
  · exact keeps_nil
  · exact keeps_enqueue (fits_nil _ _)

theorem Task.keeps (t : Task) : Keeps May [] t.script := by
  have hdel : Keeps May [] delConnection := keeps_delConnection (fits_nil _ _) (fits_nil _ _)
  cases t with
  | SET c key value p message => exact keeps_handleCommand (keeps_handleWrite c _ p) message
  | DEL c key p message => exact keeps_handleCommand (keeps_handleWrite c _ p) message
  | GET key message => exact keeps_handleCommand (keeps_onShard key) message
  | EXIST key message => exact keeps_handleCommand (keeps_onShard key) message
  | handleRaft d => exact keeps_handleCommand (keeps_handleRaft d) []
  | HELLO message =>
    exact keeps_handleCommand (Keeps.locked (fits_nil _ _) keeps_nil) message
  | NODEIN connections c later node keys =>
    exact keeps_handleCommand (keeps_NODEIN connections c later node keys) []
  | NODEOUT connections =>
    exact keeps_handleCommand ((keeps_broadcast connections).append (hdel.append hdel)) []
  | sendDataToNode c target keys => exact keeps_sendDataToNode c target keys
  | other message => exact keeps_handleCommand keeps_nil message

theorem keeps_heartbeatLoop (connections : List (Uuid × Int)) (dead : List Uuid) :
    Keeps May [] (heartbeatLoop connections dead) := by
  refine Keeps.append (Keeps.locked (fits_nil _ _) (Keeps.flatMap fun peer _ => ?_))
    (Keeps.flatMap fun uuid _ => ?_)
  · show Keeps May _ (if peer.2 = -1 then [] else enqueue)
    split
    · exact keeps_nil
    · exact keeps_enqueue ((fits_nil _ _).cons .heartbeat (by simp))
  · exact (keeps_delConnection (fits_nil _ _) (fits_nil _ _)).append (keeps_enqueue (fits_nil _ _))

/-! ## The main loop -/

/-- What is held all along `epoll_step`. -/
abbrev queued : List (Lock × Mode) := [(.queueMutex, .exclusive)]

theorem fits_queued {l : Lock} (hne : l ≠ .queueMutex) (m : Mode) : Fits MayMain queued l m :=
  (fits_nil _ _).cons (.epollStep hne) hne.symm

theorem keeps_unsentCritical (gid : Nat) {seen : Nat → Cluster} {msgs : List RaftMessage}
    (h : Unsent seen (msgs.map RaftMessage.target)) :
    Keeps MayMain queued (critical gid seen msgs) :=
  Keeps.locked (fits_queued (by simp) _)
    (keeps_unsent ((fits_queued (by simp) _).cons (.sendCb gid) (by simp)) h)

theorem keeps_applyEntry (entry : LogEntry) : Keeps MayMain queued (applyEntry entry) := by
  unfold applyEntry onShard
  split
  · exact Keeps.locked (fits_queued (by simp) _) keeps_nil
  · exact Keeps.locked (fits_queued (by simp) _) keeps_nil
  · exact keeps_nil

theorem Turn.Quiet.keeps {t : Turn} (h : t.Quiet) : Keeps MayMain queued t.script := by
  refine (keeps_unsentCritical _ h.unsent).append ?_
  cases t.pending with
  | none => exact keeps_nil
  | some rn =>
    exact (Keeps.locked (fits_queued (by simp) _) keeps_nil).append
      (Keeps.flatMap fun entry _ => keeps_applyEntry entry)

theorem keeps_handleMessage (message : Bytes × Int) :
    Keeps MayMain queued (handleMessage message) := by
  unfold handleMessage
  split
  · exact Keeps.locked (fits_queued (by simp) _) keeps_nil
  · exact keeps_nil

theorem Iteration.Quiet.keeps {it : Iteration} (h : it.Quiet) :
    Keeps MayMain [] (epollStep it) := by
  refine Keeps.locked (fits_nil _ _) ?_
  refine (Keeps.flatMap fun message _ => keeps_handleMessage message).append ?_
  refine (Keeps.flatMap fun d hd => ?_).append ?_
  · have hunsent := h.raftMsgQueue d hd
    unfold Delivery.answers at hunsent
    unfold handleRaft
    cases hgroup : d.group with
    | none => exact keeps_nil
    | some rn =>
      rw [hgroup] at hunsent
      exact keeps_unsentCritical rn.groupId hunsent
  · refine (keeps_lookup (fits_queued (by simp) _)).append ?_
    rw [h.dead]
    exact keeps_nil.append (Keeps.flatMap fun t ht => (h.raftGroups t ht).keeps)

theorem keeps_gracefulShutdown (c : Cluster) (keys : List (List Bytes)) :
    Keeps MayMain [] (gracefulShutdown c keys) := by
  refine (keeps_lookup (fits_nil _ _)).append
    ((keeps_delConnection (fits_nil _ _) (fits_nil _ _)).append
      (keeps_forEach (fun i => fits_nil _ _) (fun i key => ?_) keys))
  split
  · exact keeps_nil
  · exact keeps_lookup ((fits_nil _ _).cons (.forEach i) (by simp))

/-! ## No deadlock -/

open Relation in
/-- A thread requests a lock that it holds, or threads wait for each other in a circle. -/
def Deadlock (s : List (Thread Lock)) : Prop :=
  SelfRequest s ∨ ∃ i, TransGen (WaitsFor s) i i

/-- Under `queueMutex` the main loop sends no Raft message and finds nobody dead. -/
def Event.Quiet : Event → Prop
  | epollStep it => it.Quiet
  | gracefulShutdown .. | heartbeat .. | take .. | go _ | throws _ => True

instance : DecidablePred Event.Quiet
  | .epollStep it => inferInstanceAs (Decidable it.Quiet)
  | .gracefulShutdown .. | .heartbeat .. | .take .. | .go _ | .throws _ =>
    inferInstanceAs (Decidable True)

/-- Also, of the locks that the main loop asks for under `queueMutex`, it asks for none that a
thread has which still has something for the queue, and none gets to such a thread while it
waits. -/
def Calm (s : List (Thread Lock)) (e : Event) : Prop :=
  e.Quiet ∧ Careful .queueMutex s e.toLocks

instance (s : List (Thread Lock)) (e : Event) : Decidable (Calm s e) :=
  inferInstanceAs (Decidable (_ ∧ _))

theorem Event.Quiet.scripted {e : Event} (h : e.Quiet) : Scripted May MayMain e.toLocks := by
  cases e with
  | epollStep it => exact (Iteration.Quiet.keeps h).nests
  | gracefulShutdown c keys => exact (keeps_gracefulShutdown c keys).nests
  | heartbeat connections dead => exact (keeps_heartbeatLoop connections dead).nests
  | take i t => exact t.keeps.nests
  | go i => trivial
  | throws i => trivial

/-- The run, as the library has it. -/
theorem exec_toLocks (es : List Event) (s : List (Thread Lock)) :
    Run.exec move s es = Run.exec Locks.step s (es.map Event.toLocks) :=
  (Run.exec_map Event.toLocks s es).symm

theorem along_toLocks {es : List Event} {s : List (Thread Lock)} (h : Run.Along move Calm s es) :
    Run.Along Locks.step (fun s e => Careful .queueMutex s e ∧ Scripted May MayMain e) s
      (es.map Event.toLocks) :=
  Run.Along.map (h.imp fun _ _ ⟨hquiet, hcareful⟩ => ⟨hcareful, hquiet.scripted⟩)

/-- **No deadlock** at any time in a run that stays calm.

Everybody asks for locks in one order, of which `queueMutex` is the last, but for the main loop,
which has it first and asks for others under it. In a calm run those it waits for then do not ask
for `queueMutex` any more. So they wait only for each other, in the order of the locks, and the last
of them can go on. -/
theorem no_deadlock (workers : Nat) (es : List Event)
    (h : Run.Along move Calm (start workers) es) (pre : List Event) (hpre : pre <+: es) :
    ¬ Deadlock (Run.exec move (start workers) pre) := by
  obtain ⟨rest, rfl⟩ := hpre
  rw [exec_toLocks]
  obtain ⟨hself, hcircle⟩ := Locks.deadlock_free discipline (along_toLocks h.append.1)
  rintro (hd | ⟨i, hd⟩)
  · exact hself hd
  · exact hcircle i hd

/-! ## Two nodes -/

/-- Node 1, connected to node 2. -/
def peered : Cluster where
  selfNode := ⟨ascii "127.0.0.1", 6379, 1⟩
  connections := [(2, 7)]

/-- A follower whose timer runs out after so many ticks. -/
def follower (electionTimer : Int) : RaftNode :=
  { groupId := 0, selfId := 1, peers := [2], electionTimer }

def iteration (electionTimer : Int) : Event :=
  .epollStep { raftGroups := [{ rn := follower electionTimer, rand := 0, seen := fun _ => peered }] }

/-- Node 2 asks for a vote. -/
def voteRequest : Event := .take 0 (.handleRaft {
  group := some (follower 100), sender := 2, rand := 0, stray := 0, seen := fun _ => peered
  raw := ascii "*5\r\n+RAFT_RV\r\n+0\r\n+1\r\n+0\r\n+0\r\n" })

def times (n : Nat) (i : Nat) : List Event := List.replicate n (.go i)

/-- The vote is on the queue before the main loop comes, and the heartbeat waits while it is
there. -/
def calmRun : List Event :=
  voteRequest :: times 9 2 ++ iteration 100 :: times 2 0 ++ .heartbeat [(2, 7)] [] :: times 3 1 ++
    times 7 0 ++ times 3 1

theorem no_deadlock_calmRun : ¬ Deadlock (Run.exec move (start 1) calmRun) :=
  no_deadlock 1 calmRun (by decide +kernel) calmRun (List.prefix_refl calmRun)

/-- The timer of the group runs out. -/
def candidacy : List Event := iteration 1 :: times 11 0

/-- The vote request has the lock of the group when the main loop comes to that group. -/
def crossing : List Event :=
  voteRequest :: times 5 2 ++ iteration 100 :: times 6 0 ++ times 1 2

open Relation in
/-- **The main loop asks for `queueMutex` under `queueMutex`**, or waits under it for a thread that
waits for it. -/
theorem deadlocks :
    SelfRequest (Run.exec move (start 0) candidacy) ∧
      ∃ i, TransGen (WaitsFor (Run.exec move (start 1) crossing)) i i := by
  have hto : WaitsFor (Run.exec move (start 1) crossing) 0 2 := by decide +kernel
  have hback : WaitsFor (Run.exec move (start 1) crossing) 2 0 := by decide +kernel
  exact ⟨by decide +kernel, 0, (TransGen.single hto).tail hback⟩

end Locking
end Server
end KvJet
