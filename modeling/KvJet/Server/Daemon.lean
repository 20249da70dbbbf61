import KvJet.Raft.Malformed
import KvJet.Server.Groups
import KvJet.Server.Join
import KvJet.Server.Membership

/-!
# The whole server

All that `Handler::handle` reads and writes, and all of its commands. The commands on data are those
of `Handler.lean`; `NODEIN` and `NODEOUT` are once more those of `Membership.lean`, here with the
heartbeat table and with what `sendDataToNode` puts on the queue (`NODEIN_simulates`,
`NODEOUT_simulates`).

There is one queue for everything that goes out: the messages of Raft, and the texts of the
handlers.
-/

namespace KvJet
namespace Server

open Resp Store
open Raft (RaftNode RaftMessage Payload Uuid)

/-- What a call is told by the clock and by the random numbers. -/
structure Reading where
  now : UInt64
  /-- More than `AOF_FSYNC_TIME_MS` have passed since the last flush. -/
  due : Bool
  rand : Nat

inductive Outgoing where
  | raft (payload : Payload)
  | text (bytes : Bytes)

structure Daemon where
  kvstore : KVStore RespValue := {}
  aof : AOF := {}
  cluster : Cluster
  /-- `fd_to_uuid` of `Cluster`. -/
  fdToUuid : List (Int × Uuid) := []
  gossip : GossipCache := []
  heartbeatTime : List (Uuid × UInt64) := []
  raftGroups : List (Nat × RaftNode) := []
  masterToGroup : List (Uuid × Nat) := []
  /-- `groupMembers_`. -/
  groupMembers : List (UInt64 × List Uuid) := []
  messageQueue : List (Outgoing × Int) := []
  syncing : Bool := false
  pendingSyncNodes : Int32 := 0

abbrev DaemonM := Method Fault Daemon

namespace Daemon

/-! ## Its parts -/

/-- What the handlers of the commands on data reach. They only add to the queue. -/
def server (d : Daemon) : ServerState where
  kvstore := d.kvstore
  aof := d.aof
  cluster := d.cluster
  raftGroups := d.raftGroups
  masterToGroup := d.masterToGroup

def withServer (s : ServerState) (d : Daemon) : Daemon :=
  { d with
    kvstore := s.kvstore
    aof := s.aof
    cluster := s.cluster
    raftGroups := s.raftGroups
    masterToGroup := s.masterToGroup
    messageQueue := d.messageQueue ++ s.messageQueue.map fun one => (.raft one.1, one.2) }

def onServer {α : Type} (m : ServerM α) : DaemonM α := Method.part server withServer m

/-- The two connection maps. -/
def peers (d : Daemon) : Peers := ⟨d.cluster.connections, d.fdToUuid⟩

def withPeers (p : Peers) (d : Daemon) : Daemon :=
  { d with
    cluster := { d.cluster with connections := p.connections }
    fdToUuid := p.fdToUuid }

def push (d : Daemon) (text : Bytes) (fd : Int) : Daemon :=
  { d with messageQueue := d.messageQueue ++ [(.text text, fd)] }

def pushAll (out : Outbox) (d : Daemon) : Daemon :=
  { d with messageQueue := d.messageQueue ++ out.map fun one => (.text one.1, one.2) }

/-! ## What the handlers call -/

/-- A descriptor that no node has greeted on is not noted. -/
def updateHeartbeat (d : Daemon) (fd : Int) (now : UInt64) : Daemon :=
  match d.fdToUuid.lookup fd with
  | none => d
  | some uuid => { d with heartbeatTime := assign uuid now d.heartbeatTime }

/-- The node's connection goes with it, and the time it was last heard of. -/
def delTopoNode (d : Daemon) (uuid : Uuid) : Daemon :=
  let d := d.withPeers (d.peers.delConnection uuid)
  { d with
    cluster := { d.cluster with topo := OrderedMap.erase uuid d.cluster.topo }
    heartbeatTime := OrderedMap.erase uuid d.heartbeatTime }

/-- The ring first, then the topology, each under its own lock. -/
def enter (d : Daemon) (node : ClusterNode) : Daemon :=
  { d with cluster := (d.cluster.addNodeToHash node.uuid).addTopoNode node }

/-- To every connected node. -/
def broadcast (d : Daemon) (text : Bytes) : Daemon :=
  d.pushAll (d.cluster.connections.map fun conn => (text, conn.2))

def sendDataToNode (target : Uuid) : DaemonM Unit := do
  let server := (← get).server
  Method.part (fun _ => ([] : Outbox)) pushAll (server.sendDataToNode target)

/-- `fetch_sub` gives the count before it. -/
def onSyncDone (d : Daemon) : Daemon :=
  { d with
    pendingSyncNodes := d.pendingSyncNodes - 1
    syncing := if d.pendingSyncNodes = 1 then false else d.syncing }

/-- `makeRaftSendCb`. -/
def sendCb (d : Daemon) (msg : RaftMessage) : Daemon :=
  let fd := d.cluster.getConnection msg.target
  if fd = -1 then d else { d with messageQueue := d.messageQueue ++ [(.raft msg.payload, fd)] }

/-! ## The handlers -/

/-- Both handlers of gossip begin so: whether the message is a new one, which is then in the
cache. -/
def firstSight (fault : String) (elements : Elements) (now : UInt64) : DaemonM Bool := do
  match ← Method.lift (deref elements 1) with
  | .simpleString uuid =>
    if (← get).gossip.findGossip (toUint64 uuid) then return false
    -- before the rest of the message is looked at
    modify fun d => { d with gossip := d.gossip.addGossip now (toUint64 uuid) }
    return true
  | _ => throw (.exception fault)

/-- `NODEIN` from where the node is known. -/
def join (node : ClusterNode) : DaemonM Unit := do
  if (← get).cluster.getConnection node.uuid ≠ -1 then
    modify fun d => d.enter node
    sendDataToNode node.uuid
    modify fun d => d.push (ascii "REBUILD_RAFTS") (-2)
  else
    -- -1 asks the main loop to dial the node, -2 to build the groups anew
    modify fun d => d.push (node.ip ++ ascii " " ++ toString node.port.toNat ++ ascii " "
      ++ toString node.uuid.toNat) (-1)
    modify fun d => (d.enter node).push (ascii "REBUILD_RAFTS") (-2)

/-- `NODEOUT` from where the node is known. -/
def leave (d : Daemon) (nodeId : Uuid) : Daemon :=
  let uuid := asInt nodeId
  let d := { d with cluster := d.cluster.delNodeToHash uuid }
  let d := d.delTopoNode uuid
  d.withPeers (d.peers.delConnection uuid)

/-- What the two handlers of gossip have in common. They differ in what they throw, and in what they
make of the third element (`own`), which neither looks at before the message is in the cache and on
its way to the others. -/
def relaying (arity fault : String) (own : RespValue → DaemonM Bytes) (request : RespValue)
    (now : UInt64) : DaemonM Bytes := do
  let elements ← Method.lift (Handler.elementsOf request)
  if elements.length ≠ 3 then throw (.exception arity)
  if !(← firstSight fault elements now) then return []
  let text ← Method.lift (encodeRequest elements)
  modify fun d => d.broadcast text
  own (← Method.lift (deref elements 2))

/-- `NODEIN`, once the message is known to be a new one. -/
def welcome (v : RespValue) : DaemonM Bytes := do
  let node ← Method.lift (getNode v)
  join node
  return []

/-- `NODEOUT`, once the message is known to be a new one. -/
def farewell (v : RespValue) : DaemonM Bytes := do
  match v with
  | .simpleString nodeId =>
    modify fun d => d.leave (toUint64 nodeId)
    return []
  | _ => throw (.exception "NODEOUT: node_id is not a SimpleString")

def NODEIN (request : RespValue) (r : Reading) : DaemonM Bytes :=
  relaying "NODEIN: Wrong number of arguments" "NODEIN: UUID is not a SimpleString" welcome request
    r.now

def NODEOUT (request : RespValue) (r : Reading) : DaemonM Bytes :=
  relaying "NODEOUT: Wrong number of arguments" "NODEOUT:UUID is not a SimpleString" farewell request
    r.now

/-- The number of the group, 0 where it is no simple string. -/
def groupOf : RespValue → UInt64
  | .simpleString gid => toUint64 gid
  | _ => 0

/-- The text is encoded anew from the elements, and it is this text that the node reads. -/
def handleRaft (request : RespValue) (fd : Int) (r : Reading) : DaemonM Bytes := do
  let elements ← Method.lift (Handler.elementsOf request)
  if elements.length < 2 then return []
  let gid := (groupOf (← Method.lift (deref elements 1))).toNat
  match (← get).raftGroups.lookup gid with
  | none => return []
  | some rn =>
    modify fun d => d.updateHeartbeat fd r.now
    let raw ← Method.lift (encodeRequest elements)
    let (result, rn) :=
      (RaftNode.Checked.stepText none ((← get).peers.getUuidByFd fd) raw r.rand).call rn
    -- the node keeps what it had done when the text turned out to be broken
    modify fun d => { d with
      raftGroups := d.raftGroups.map fun g => if g.1 = gid then (gid, rn) else g }
    let msgs ← Method.lift result
    modify fun d => msgs.foldl sendCb d
    return []

def SYNCDONE (request : RespValue) : DaemonM Bytes := do
  let elements ← Method.lift (Handler.elementsOf request)
  if elements.length < 2 then throw (.exception "SYNCDONE: missing node UUID")
  modify onSyncDone
  return []

def HELLO (request : RespValue) (fd : Int) : DaemonM Bytes := do
  let elements ← Method.lift (Handler.elementsOf request)
  if elements.length ≠ 2 then throw (.exception "HELLO: Wrong number of arguments")
  match ← Method.lift (deref elements 1) with
  | .simpleString uuid =>
    modify fun d => d.withPeers (d.peers.addConnection (toUint64 uuid) fd)
    return Handler.okReply
  | _ => throw (.exception "HELLO: UUID is not a SimpleString")

def raftCommands : List Bytes :=
  [ascii "RAFT_AE", ascii "RAFT_AER", ascii "RAFT_RV", ascii "RAFT_RVR"]

/-- The handler of each command, in the order in which `handle` asks for them. -/
def handleCommand (command : Bytes) (request : RespValue) (fd : Int) (r : Reading) :
    DaemonM Bytes := do
  if command = ascii "SYNCDONE" then SYNCDONE request
  else if command = ascii "HEARTBEAT" then
    modify fun d => d.updateHeartbeat fd r.now
    return []
  else if raftCommands.contains command then handleRaft request fd r
  else if (← get).syncing && Handler.dataCommands.contains command then return Handler.loadingReply
  else if command = ascii "GET" then onServer (Handler.GET request)
  else if command = ascii "SET" then onServer (Handler.SET request r.due)
  else if command = ascii "DEL" then onServer (Handler.DEL request r.due)
  else if command = ascii "EXIST" then onServer (Handler.EXIST request)
  else if command = ascii "NODEIN" then NODEIN request r
  else if command = ascii "NODEOUT" then NODEOUT request r
  else if command = ascii "GETNETWORK" then
    let d ← get
    return getNetwork d.cluster.topo d.groupMembers
  else if command = ascii "HELLO" then HELLO request fd
  else throw (.exception "Unknown request!!")

def handle (request : RespValue) (fd : Int) (r : Reading) : DaemonM Bytes := do
  match request with
  | .array none => throw (.undefined "size through an empty optional")
  | .array (some []) => throw (.exception "Empty request!!")
  | .array (some (.simpleString command :: _)) => handleCommand command request fd r
  | .array (some (_ :: _)) => throw (.exception "Command is not a SimpleString!!")
  | .simpleString text =>
    if text = ascii "OK" then return [] else throw (.exception "Unknown request!")
  | _ => throw (.exception "Unknown request!")

/-- `Server::handleCommand`: the reply, if there is one, goes to the queue. What is thrown does not get
out of the worker. -/
def serve (d : Daemon) (request : RespValue) (fd : Int) (r : Reading) : Daemon :=
  match (handle request fd r).call d with
  | (.ok [], d) => d
  | (.ok reply, d) => d.push reply fd
  | (.error _, d) => d

/-! ## What a request comes to

Every result about `handle` goes through its names once. So this is done here, and what follows is
by cases on the outcome. -/

/-- The names that `handle` asks for. -/
def commands : List Bytes :=
  [ascii "SYNCDONE", ascii "HEARTBEAT"] ++ raftCommands ++ Handler.dataCommands
    ++ [ascii "NODEIN", ascii "NODEOUT", ascii "GETNETWORK", ascii "HELLO"]

/-- A request by its command and the arguments. -/
def requestOf (command : Bytes) (args : List RespValue) : RespValue :=
  .array (some (.simpleString command :: args))

/-- What `handle` does with a request. -/
inductive Handled (d : Daemon) (fd : Int) (r : Reading) : RespValue → DaemonM Bytes → Prop
  | nil : Handled d fd r (.array none) (throw (.undefined "size through an empty optional"))
  | refused (request : RespValue) (what : String) (hnil : request ≠ .array none)
      (hname : ∀ command args, request = requestOf command args → command ∉ commands) :
      Handled d fd r request (throw (.exception what))
  | ok : Handled d fd r (.simpleString (ascii "OK")) (pure [])
  | syncdone (args : List RespValue) : Handled d fd r (requestOf (ascii "SYNCDONE") args)
      (SYNCDONE (requestOf (ascii "SYNCDONE") args))
  | heartbeat (args : List RespValue) : Handled d fd r (requestOf (ascii "HEARTBEAT") args)
      (do modify fun d => d.updateHeartbeat fd r.now; return [])
  | raft (command : Bytes) (args : List RespValue) (hraft : command ∈ raftCommands) :
      Handled d fd r (requestOf command args) (handleRaft (requestOf command args) fd r)
  | loading (command : Bytes) (args : List RespValue) (hsyncing : d.syncing = true)
      (hdata : command ∈ Handler.dataCommands) :
      Handled d fd r (requestOf command args) (pure Handler.loadingReply)
  | get (args : List RespValue) (hsyncing : d.syncing = false) :
      Handled d fd r (requestOf (ascii "GET") args)
        (onServer (Handler.GET (requestOf (ascii "GET") args)))
  | set (args : List RespValue) (hsyncing : d.syncing = false) :
      Handled d fd r (requestOf (ascii "SET") args)
        (onServer (Handler.SET (requestOf (ascii "SET") args) r.due))
  | del (args : List RespValue) (hsyncing : d.syncing = false) :
      Handled d fd r (requestOf (ascii "DEL") args)
        (onServer (Handler.DEL (requestOf (ascii "DEL") args) r.due))
  | exist (args : List RespValue) (hsyncing : d.syncing = false) :
      Handled d fd r (requestOf (ascii "EXIST") args)
        (onServer (Handler.EXIST (requestOf (ascii "EXIST") args)))
  | nodein (args : List RespValue) : Handled d fd r (requestOf (ascii "NODEIN") args)
      (NODEIN (requestOf (ascii "NODEIN") args) r)
  | nodeout (args : List RespValue) : Handled d fd r (requestOf (ascii "NODEOUT") args)
      (NODEOUT (requestOf (ascii "NODEOUT") args) r)
  | network (args : List RespValue) : Handled d fd r (requestOf (ascii "GETNETWORK") args)
      (pure (getNetwork d.cluster.topo d.groupMembers))
  | hello (args : List RespValue) : Handled d fd r (requestOf (ascii "HELLO") args)
      (HELLO (requestOf (ascii "HELLO") args) fd)

theorem call_handleCommand (command : Bytes) (args : List RespValue) (fd : Int) (r : Reading)
    (d : Daemon) :
    ∃ m, Handled d fd r (requestOf command args) m ∧
      (handleCommand command (requestOf command args) fd r).call d = m.call d := by
  unfold handleCommand
  -- one case for each name, in the order `handleCommand` asks for them
  by_cases hsyncdone : command = ascii "SYNCDONE"
  · subst hsyncdone
    exact ⟨_, .syncdone args, by rw [if_pos rfl]⟩
  rw [if_neg hsyncdone]
  by_cases hheartbeat : command = ascii "HEARTBEAT"
  · subst hheartbeat
    exact ⟨_, .heartbeat args, by rw [if_pos rfl]⟩
  rw [if_neg hheartbeat]
  by_cases hraft : command ∈ raftCommands
  · exact ⟨_, .raft command args hraft, by rw [if_pos (List.contains_iff_mem.mpr hraft)]⟩
  rw [if_neg (mt List.contains_iff_mem.mp hraft), Method.call_bind_ok (Method.call_get d)]
  by_cases hloading : (d.syncing && Handler.dataCommands.contains command) = true
  · obtain ⟨hsyncing, hdata⟩ := Bool.and_eq_true_iff.mp hloading
    exact ⟨_, .loading command args hsyncing (List.contains_iff_mem.mp hdata),
      by rw [if_pos hloading]⟩
  rw [if_neg hloading]
  have hdata : command ∈ Handler.dataCommands → d.syncing = false := by
    intro hin
    simpa [hin] using hloading
  by_cases hget : command = ascii "GET"
  · subst hget
    exact ⟨_, .get args (hdata (by decide)), by rw [if_pos rfl]⟩
  rw [if_neg hget]
  by_cases hset : command = ascii "SET"
  · subst hset
    exact ⟨_, .set args (hdata (by decide)), by rw [if_pos rfl]⟩
  rw [if_neg hset]
  by_cases hdel : command = ascii "DEL"
  · subst hdel
    exact ⟨_, .del args (hdata (by decide)), by rw [if_pos rfl]⟩
  rw [if_neg hdel]
  by_cases hexist : command = ascii "EXIST"
  · subst hexist
    exact ⟨_, .exist args (hdata (by decide)), by rw [if_pos rfl]⟩
  rw [if_neg hexist]
  by_cases hnodein : command = ascii "NODEIN"
  · subst hnodein
    exact ⟨_, .nodein args, by rw [if_pos rfl]⟩
  rw [if_neg hnodein]
  by_cases hnodeout : command = ascii "NODEOUT"
  · subst hnodeout
    exact ⟨_, .nodeout args, by rw [if_pos rfl]⟩
  rw [if_neg hnodeout]
  by_cases hnetwork : command = ascii "GETNETWORK"
  · subst hnetwork
    exact ⟨_, .network args, by rw [if_pos rfl]; rfl⟩
  rw [if_neg hnetwork]
  by_cases hhello : command = ascii "HELLO"
  · subst hhello
    exact ⟨_, .hello args, by rw [if_pos rfl]⟩
  rw [if_neg hhello]
  -- none of the names: nothing is left but to refuse
  refine ⟨_, .refused _ _ (by simp [requestOf]) ?_, rfl⟩
  rintro command' args' heq hin
  obtain ⟨rfl, rfl⟩ : command = command' ∧ args = args' := by simpa [requestOf] using heq
  simp only [commands, Handler.dataCommands, List.cons_append, List.nil_append, List.mem_append,
    List.mem_cons, List.not_mem_nil, or_false] at hin
  grind

/-- **What `handle` does** is one of these.

The names are asked for one after another, and `SYNCDONE`, `HEARTBEAT` and the messages of Raft
before the flag is looked at, which is why these get through while the node syncs. -/
theorem call_handle (request : RespValue) (fd : Int) (r : Reading) (d : Daemon) :
    ∃ m, Handled d fd r request m ∧ (handle request fd r).call d = m.call d := by
  have hrefused : ∀ what, (∀ elements, request ≠ .array elements) →
      Handled d fd r request (throw (.exception what)) := fun what hnot =>
    .refused request what (hnot none) fun command args heq => absurd heq (hnot _)
  cases request with
  | simpleString text =>
    by_cases hok : text = ascii "OK"
    · subst hok
      exact ⟨_, .ok, by rw [handle, if_pos rfl]⟩
    · exact ⟨_, hrefused _ nofun, by rw [handle, if_neg hok]⟩
  | error _ | integer _ | bulkString _ => exact ⟨_, hrefused _ nofun, rfl⟩
  | array elements =>
    rcases elements with _ | _ | ⟨first, args⟩
    · exact ⟨_, .nil, rfl⟩
    · exact ⟨_, .refused _ _ (by simp) (by simp [requestOf]), rfl⟩
    · cases first with
      | simpleString command => exact call_handleCommand command args fd r d
      | error _ | integer _ | bulkString _ | array _ =>
        exact ⟨_, .refused _ _ (by simp) (by simp [requestOf]), rfl⟩

/-! ## Raft -/

section Raft

variable {d : Daemon} {name : Bytes} {gid : RespValue}

theorem updateHeartbeat_eq (d : Daemon) (fd : Int) (now : UInt64) :
    ∃ times, d.updateHeartbeat fd now = { d with heartbeatTime := times } := by
  unfold updateHeartbeat
  split
  · exact ⟨_, rfl⟩
  · exact ⟨_, rfl⟩

/-- A group gets a new state of its node. -/
def withNode (d : Daemon) (gid : Nat) (rn : RaftNode) : Daemon :=
  { d with raftGroups := d.raftGroups.map fun g => if g.1 = gid then (gid, rn) else g }

theorem handleRaft_ignored (fd : Int) (r : Reading) {args : List RespValue}
    (h : ∀ gid ∈ args.head?, d.raftGroups.lookup (groupOf gid).toNat = none) :
    (handleRaft (requestOf name args) fd r).call d = (.ok [], d) := by
  cases args with
  | nil => rfl
  | cons gid rest =>
    unfold handleRaft
    rw [show Handler.elementsOf (requestOf name (gid :: rest)) = .ok _ from rfl,
      Method.call_bind_ok (Method.call_lift _ d), if_neg (by simp),
      show deref _ 1 = .ok gid from rfl, Method.call_bind_ok (Method.call_lift _ d),
      Method.call_bind_ok (Method.call_get d), h gid rfl]
    rfl

/-- **A message for a group of this node.**

The heartbeat is noted before the text is read, and what the node did before it found the text
broken stays; so the group is written back on both ways out. -/
theorem call_handleRaft (fd : Int) (r : Reading) {args : List RespValue} {rn : RaftNode}
    (h : d.raftGroups.lookup (groupOf gid).toNat = some rn) :
    let raw := encode (requestOf name (gid :: args))
    let out := (RaftNode.Checked.stepText none (d.peers.getUuidByFd fd) raw r.rand).call rn
    let d' := (d.updateHeartbeat fd r.now).withNode (groupOf gid).toNat out.2
    (handleRaft (requestOf name (gid :: args)) fd r).call d
      = (out.1.map fun _ => [], match out.1 with
          | .ok msgs => msgs.foldl sendCb d'
          | .error _ => d') := by
  obtain ⟨times, hbeat⟩ := d.updateHeartbeat_eq fd r.now
  unfold handleRaft
  rw [show Handler.elementsOf (requestOf name (gid :: args)) = .ok _ from rfl,
    Method.call_bind_ok (Method.call_lift _ d), if_neg (by simp),
    show deref _ 1 = .ok gid from rfl, Method.call_bind_ok (Method.call_lift _ d),
    Method.call_bind_ok (Method.call_get d), h]
  dsimp only
  rw [Method.call_bind_ok (Method.call_modify _ d), encodeRequest_whole,
    Method.call_bind_ok (Method.call_lift _ _), Method.call_bind_ok (Method.call_get _), hbeat]
  -- the heartbeat table is not asked who is on the connection
  have hpeers : ∀ fd, ({ d with heartbeatTime := times } : Daemon).peers.getUuidByFd fd
      = d.peers.getUuidByFd fd := fun _ => rfl
  rw [hpeers, show RespValue.array (some (.simpleString name :: gid :: args))
    = requestOf name (gid :: args) from rfl]
  cases hout : (RaftNode.Checked.stepText none (d.peers.getUuidByFd fd)
      (encode (requestOf name (gid :: args))) r.rand).call rn with
  | mk result rn' => cases result <;> rfl

end Raft

/-! ## Gossip

What both handlers do before they come to their own part, in each of the three ways it can go. -/

/-- A message is new: its id is put into the cache, and it goes to every connected node. -/
def relay (d : Daemon) (now : UInt64) (id : UInt64) (text : Bytes) : Daemon :=
  broadcast { d with gossip := d.gossip.addGossip now id } text

section Gossip

variable {d : Daemon} {name uuid : Bytes} {args : List RespValue}

theorem firstSight_known (fault : String) {elements : Elements} (now : UInt64)
    (helement : deref elements 1 = .ok (.simpleString uuid))
    (h : d.gossip.findGossip (toUint64 uuid) = true) :
    (firstSight fault elements now).call d = (.ok false, d) := by
  unfold firstSight
  rw [helement, Method.call_bind_ok (Method.call_lift _ d)]
  dsimp only
  rw [Method.call_bind_ok (Method.call_get d), h]
  rfl

theorem firstSight_new (fault : String) {elements : Elements} (now : UInt64)
    (helement : deref elements 1 = .ok (.simpleString uuid))
    (h : d.gossip.findGossip (toUint64 uuid) = false) :
    (firstSight fault elements now).call d
      = (.ok true, { d with gossip := d.gossip.addGossip now (toUint64 uuid) }) := by
  unfold firstSight
  rw [helement, Method.call_bind_ok (Method.call_lift _ d)]
  dsimp only
  rw [Method.call_bind_ok (Method.call_get d), h]
  rfl

variable {arity fault : String} {own : RespValue → DaemonM Bytes}

/-- The number of the elements and the kind of the id are looked at before anything is done. -/
theorem relaying_malformed (h : ∀ uuid v, args ≠ [.simpleString uuid, v]) (now : UInt64)
    (d : Daemon) : ∃ what,
      (relaying arity fault own (requestOf name args) now).call d = (.error (.exception what), d) := by
  rcases args with _ | ⟨id, _ | ⟨v, _ | ⟨x, rest⟩⟩⟩
  · exact ⟨_, rfl⟩
  · exact ⟨_, rfl⟩
  · cases id with
    | simpleString uuid => exact absurd rfl (h uuid v)
    | error _ | integer _ | bulkString _ | array _ => exact ⟨_, rfl⟩
  · exact ⟨_, rfl⟩

theorem relaying_known (h : d.gossip.findGossip (toUint64 uuid) = true) (v : RespValue)
    (now : UInt64) :
    (relaying arity fault own (requestOf name [.simpleString uuid, v]) now).call d
      = (.ok [], d) := by
  unfold relaying
  rw [show Handler.elementsOf (requestOf name [.simpleString uuid, v]) = .ok _ from rfl,
    Method.call_bind_ok (Method.call_lift _ d), if_neg (by simp),
    Method.call_bind_ok (firstSight_known _ now rfl h)]
  rfl

/-- **A message that is new** is in the cache and on the queue by the time the handler comes to what
is its own.

Nothing before this point looks at the third element. What `own` throws at it comes too late to take
anything back. -/
theorem relaying_new (h : d.gossip.findGossip (toUint64 uuid) = false) (v : RespValue)
    (now : UInt64) :
    (relaying arity fault own (requestOf name [.simpleString uuid, v]) now).call d
      = (own v).call
          (d.relay now (toUint64 uuid) (encode (requestOf name [.simpleString uuid, v]))) := by
  unfold relaying
  rw [show Handler.elementsOf (requestOf name [.simpleString uuid, v]) = .ok _ from rfl,
    Method.call_bind_ok (Method.call_lift _ d), if_neg (by simp),
    Method.call_bind_ok (firstSight_new _ now rfl h), if_neg (by simp), encodeRequest_whole,
    Method.call_bind_ok (Method.call_lift _ _), Method.call_bind_ok (Method.call_modify _ _)]
  rfl

end Gossip

/-! ## Joining

The handler goes through the store on a ring that already has the new node. -/

-- 160 points, which no proof here should compute
attribute [local irreducible] Cluster.addNodeToHash Cluster.delNodeToHash

variable {d : Daemon}

theorem withServer_server (d : Daemon) : d.withServer d.server = d := by
  simp [withServer, server]

theorem call_onServer {α : Type} (m : ServerM α) (d : Daemon) :
    (onServer m).call d = ((m.call d.server).1, d.withServer (m.call d.server).2) := rfl

/-- A server with a point on its ring goes through its store without a fault. -/
theorem call_sendDataToNode (hring : d.cluster.nodeHash ≠ []) (target : Uuid) :
    ∃ out, (sendDataToNode target).call d = (.ok (), d.pushAll out) := by
  have hquery : ∀ key, ∃ owner, d.server.cluster.queryNode key = .ok owner := by
    intro key
    obtain ⟨point, hpoint⟩ : ∃ p, OrderedMap.next (Cluster.hashString key) d.cluster.nodeHash
      = some p := OrderedMap.exists_next hring
    exact ⟨point.2, by rw [Cluster.queryNode_eq, show d.server.cluster = d.cluster from rfl, hpoint]⟩
  unfold sendDataToNode
  rw [Method.call_bind_ok (Method.call_get d), Method.call_part]
  by_cases hfd : d.server.cluster.getConnection target = -1
  · have hcall : (d.server.sendDataToNode target).call [] = (.ok (), []) := by
      unfold ServerState.sendDataToNode
      rw [if_pos hfd]
      rfl
    exact ⟨[], by rw [hcall]⟩
  · rw [ServerState.call_sendDataToNode rfl hfd hquery]
    exact ⟨_, rfl⟩

/-- The two servers are the same, but for what is on the queue and for the members of `Cluster`
that know the nodes. -/
structure Beside (d d' : Daemon) : Prop where
  kvstore : d'.kvstore = d.kvstore
  aof : d'.aof = d.aof
  raftGroups : d'.raftGroups = d.raftGroups
  gossip : d'.gossip = d.gossip
  fdToUuid : d'.fdToUuid = d.fdToUuid
  connections : d'.cluster.connections = d.cluster.connections

theorem beside_push (d : Daemon) (text : Bytes) (fd : Int) : Beside d (d.push text fd) :=
  ⟨rfl, rfl, rfl, rfl, rfl, rfl⟩

theorem beside_pushAll (d : Daemon) (out : Outbox) : Beside d (d.pushAll out) :=
  ⟨rfl, rfl, rfl, rfl, rfl, rfl⟩

theorem Beside.trans {d₁ d₂ d₃ : Daemon} (h : Beside d₁ d₂) (h' : Beside d₂ d₃) : Beside d₁ d₃ where
  kvstore := h'.kvstore.trans h.kvstore
  aof := h'.aof.trans h.aof
  raftGroups := h'.raftGroups.trans h.raftGroups
  gossip := h'.gossip.trans h.gossip
  fdToUuid := h'.fdToUuid.trans h.fdToUuid
  connections := h'.connections.trans h.connections

theorem beside_enter (d : Daemon) (node : ClusterNode) : Beside d (d.enter node) := by
  refine ⟨rfl, rfl, rfl, rfl, rfl, ?_⟩
  simp only [enter, Cluster.addTopoNode]
  unfold Cluster.addNodeToHash
  rfl

/-- **A node joins**: it is on the ring and in the topology.

`sendDataToNode` runs on the ring with the new node on it, so it finds an owner for every key, and
this branch cannot throw. Everything else only adds to the queue. -/
theorem call_join (node : ClusterNode) (d : Daemon) :
    ∃ d', (join node).call d = (.ok (), d') ∧ Beside d d' ∧
      d'.cluster = (d.cluster.addNodeToHash node.uuid).addTopoNode node := by
  have henter : ∀ d : Daemon,
      (d.enter node).cluster = (d.cluster.addNodeToHash node.uuid).addTopoNode node := fun _ => rfl
  have hring : (d.enter node).cluster.nodeHash ≠ [] := by
    rw [henter, Cluster.addTopoNode, Cluster.nodeHash_addNodeToHash]
    exact Cluster.addPoints_ne_nil (Or.inl (Cluster.pointsOf_ne_nil _))
  unfold join
  rw [Method.call_bind_ok (Method.call_get d)]
  split
  · obtain ⟨out, hsend⟩ := call_sendDataToNode hring node.uuid
    rw [Method.call_bind_ok (Method.call_modify _ d), Method.call_bind_ok hsend]
    refine ⟨_, rfl, ?_, henter d⟩
    exact ((beside_enter d node).trans (beside_pushAll _ out)).trans (beside_push _ _ _)
  · rw [Method.call_bind_ok (Method.call_modify _ d)]
    refine ⟨_, rfl, ?_, ?_⟩
    · exact ((beside_push d _ _).trans (beside_enter _ node)).trans (beside_push _ _ _)
    · exact henter (d.push _ _)

/-! ## The gossip of `Membership`

The other model has no queue and no heartbeat table, so it is one part of this one, and each handler
of the one is a handler of the other there. -/

/-- A server, and the part of it that `Membership.lean` is about. -/
structure Matches (d : Daemon) (m : Membership) : Prop where
  nodeHash : m.cluster.nodeHash = d.cluster.nodeHash
  topo : m.cluster.topo = d.cluster.topo
  peers : m.peers = d.peers
  gossip : m.gossip = d.gossip

theorem Matches.of_beside {d d' : Daemon} {m m' : Membership} (h : d.Matches m)
    (hbeside : Beside d d') (hpeers : m'.peers = m.peers) (hgossip : m'.gossip = m.gossip)
    (hring : m'.cluster.nodeHash = d'.cluster.nodeHash)
    (htopo : m'.cluster.topo = d'.cluster.topo) : d'.Matches m' where
  nodeHash := hring
  topo := htopo
  peers := by
    have hkept : d'.peers = d.peers := by
      simp only [Daemon.peers, hbeside.connections, hbeside.fdToUuid]
    exact hpeers.trans (h.peers.trans hkept.symm)
  gossip := by rw [hgossip, h.gossip, hbeside.gossip]

open Method (Simulates)

theorem firstSight_simulates (fault : String) (elements : Elements) (now : UInt64) :
    Simulates Matches (firstSight fault elements now) (Handler.firstSight fault elements now) := by
  unfold firstSight Handler.firstSight
  refine .bind (.lift _) fun v => ?_
  cases v with
  | simpleString uuid =>
    refine .get_bind fun d m h => ?_
    rw [h.gossip]
    refine .ite (.pure _) (.bind (.modify fun d m h => ?_) fun _ => .pure _)
    exact ⟨h.nodeHash, h.topo, h.peers, congrArg (GossipCache.addGossip · now _) h.gossip⟩
  | error _ | integer _ | bulkString _ | array _ => exact .throw _

theorem broadcast_matches {d : Daemon} {m : Membership} (h : d.Matches m) (text : Bytes) :
    (d.broadcast text).Matches (m.broadcast text) :=
  h.of_beside (beside_pushAll d _) rfl rfl h.nodeHash h.topo

theorem topo_joined (c : Cluster) (node : ClusterNode) :
    ((c.addNodeToHash node.uuid).addTopoNode node).topo = assign node.uuid node c.topo := by
  simp only [Cluster.addTopoNode]
  unfold Cluster.addNodeToHash
  rfl

theorem join_simulates (node : ClusterNode) :
    Simulates Matches (join node) (modify fun m => m.join node) := by
  intro d m h
  obtain ⟨d', hcall, hbeside, hcluster⟩ := call_join node d
  obtain ⟨hjoined, hgossip⟩ := m.join_keeps node
  have hpeers : (m.join node).peers = m.peers := by
    unfold Membership.join
    split <;> rfl
  rw [hcall, Method.call_modify]
  refine ⟨rfl, h.of_beside hbeside hpeers hgossip ?_ ?_⟩
  · rw [hjoined, hcluster, Cluster.addTopoNode, Cluster.addTopoNode,
      Cluster.nodeHash_addNodeToHash, Cluster.nodeHash_addNodeToHash, h.nodeHash]
  · rw [hjoined, hcluster, topo_joined, topo_joined, h.topo]

theorem topo_delNodeToHash (c : Cluster) (uuid : Uuid) : (c.delNodeToHash uuid).topo = c.topo := by
  unfold Cluster.delNodeToHash
  rfl

theorem leave_matches {d : Daemon} {m : Membership} (h : d.Matches m) (nodeId : Uuid) :
    (d.leave nodeId).Matches (m.leave nodeId) := by
  refine ⟨?_, ?_, ?_, h.gossip⟩
  · show (m.cluster.delNodeToHash (asInt nodeId)).nodeHash
      = (d.cluster.delNodeToHash (asInt nodeId)).nodeHash
    rw [Cluster.nodeHash_delNodeToHash, Cluster.nodeHash_delNodeToHash, h.nodeHash]
  · show OrderedMap.erase _ (m.cluster.delNodeToHash (asInt nodeId)).topo
      = OrderedMap.erase _ (d.cluster.delNodeToHash (asInt nodeId)).topo
    rw [topo_delNodeToHash, topo_delNodeToHash, h.topo]
  · have hconnections : (d.cluster.delNodeToHash (asInt nodeId)).connections
        = d.cluster.connections := by unfold Cluster.delNodeToHash; rfl
    show (m.peers.delConnection _).delConnection _
      = (Peers.mk (d.cluster.delNodeToHash (asInt nodeId)).connections d.fdToUuid
        |>.delConnection _ |>.delConnection _)
    rw [h.peers, hconnections]
    rfl

/-- `NODEIN` and `NODEOUT` are those of `Membership.lean`. -/
theorem NODEIN_simulates (request : RespValue) (r : Reading) :
    Simulates Matches (NODEIN request r) (Handler.NODEIN request r.now) := by
  unfold NODEIN relaying welcome Handler.NODEIN
  refine .bind (.lift _) fun elements => ?_
  refine .ite (.throw _) (.bind (firstSight_simulates _ _ _) fun isNew => .ite (.pure _) ?_)
  refine .bind (.lift _) fun text => .bind (.modify fun d m h => broadcast_matches h text) fun _ => ?_
  refine .bind (.lift _) fun v => .bind (.lift _) fun node => ?_
  exact .bind (join_simulates node) fun _ => .pure _

theorem NODEOUT_simulates (request : RespValue) (r : Reading) :
    Simulates Matches (NODEOUT request r) (Handler.NODEOUT request r.now) := by
  unfold NODEOUT relaying farewell Handler.NODEOUT
  refine .bind (.lift _) fun elements => ?_
  refine .ite (.throw _) (.bind (firstSight_simulates _ _ _) fun isNew => .ite (.pure _) ?_)
  refine .bind (.lift _) fun text => .bind (.modify fun d m h => broadcast_matches h text) fun _ => ?_
  refine .bind (.lift _) fun v => ?_
  cases v with
  | simpleString nodeId => exact .bind (.modify fun d m h => leave_matches h _) fun _ => .pure _
  | error _ | integer _ | bulkString _ | array _ => exact .throw _

end Daemon
end Server
end KvJet
