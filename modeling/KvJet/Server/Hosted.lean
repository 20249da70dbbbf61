import KvJet.Server.Daemon

/-!
# The clients of the whole server

`Dispatch.lean` and `Pool.lean` are about the part of a server that the commands of clients reach,
and have the handlers of the other commands as a parameter. Here this part is one of the whole
server (`host`), and the parameter what `Daemon.handle` does with the commands of nodes
(`peerHandlers`). Then the two models of `Handler::handle` come to the same, for every request
(`handle_host`), and what holds of a pool of workers holds of the workers of the whole server
(`clients_in_order`).
-/

namespace KvJet
namespace Server

open Resp Store Run

namespace Daemon

/-- What the commands of clients reach. -/
def host (d : Daemon) : Host where
  server := d.server
  syncing := d.syncing
  groupMembers := d.groupMembers.map fun group => (group.1.toNat, group.2)

def withHost (h : Host) (d : Daemon) : Daemon :=
  { d.withServer h.server with
    syncing := h.syncing
    groupMembers := h.groupMembers.map fun group => (.ofNat group.1, group.2) }

/-- The messages of Raft on the queue behind its first `n`. -/
def raftBehind (n : Nat) (d : Daemon) : List (Raft.Payload × Int) :=
  (d.messageQueue.drop n).filterMap fun
    | (.raft payload, fd) => some (payload, fd)
    | (.text _, _) => none

/-- That part once more, when something has been put on the queue. -/
def hostBehind (n : Nat) (d : Daemon) : Host :=
  { d.host with server := { d.server with messageQueue := d.raftBehind n } }

/-- What `Daemon.handle` does with a command, as far as that part goes. -/
def peerHandlers (d : Daemon) (r : Reading) (request : RespValue) (fd : Int) : HostM Bytes :=
  Method.part (fun h => d.withHost h) (fun d' _ => d'.hostBehind d.messageQueue.length)
    (handle request fd r)

/-! ## The reply of `GETNETWORK` -/

theorem encodeNode_eq (node : ClusterNode) : Handler.encodeNode node = encodeNode node := by
  have hhead : ascii "*3\r\n+" = star :: toString 3 ++ crlf ++ [plus] := by decide
  have hport : ascii "\r\n:" = crlf ++ [colon] := by decide
  have huuid : ascii "\r\n+" = crlf ++ [plus] := by decide
  unfold Handler.encodeNode encodeNode numberLine
  rw [hhead, hport, huuid]
  simp only [List.append_assoc, List.cons_append, List.nil_append]

theorem encodeGroup_eq (gid : UInt64) (members : List Raft.Uuid) :
    Handler.encodeGroup gid.toNat members = encodeGroup gid members := by
  have hhead : ascii "*4\r\n+" = star :: toString 4 ++ crlf ++ [plus] := by decide
  have hthree : List.range 3 = [0, 1, 2] := rfl
  unfold Handler.encodeGroup encodeGroup reportedMembers numberLine
  rw [hhead, hthree]
  simp only [List.flatMap_cons, List.flatMap_nil, List.append_assoc, List.cons_append,
    List.nil_append, List.append_nil]

theorem GETNETWORK_host (d : Daemon) :
    Handler.GETNETWORK d.host = getNetwork d.cluster.topo d.groupMembers := by
  have hhead : ascii "*2\r\n" = star :: toString 2 ++ crlf := by decide
  have htopo : Handler.encodeTopo d.cluster.topo = encodeTopo d.cluster.topo := by
    simp only [Handler.encodeTopo, encodeTopo, encodeNode_eq]
  unfold Handler.GETNETWORK getNetwork
  rw [hhead, show d.host.server.cluster.topo = d.cluster.topo from rfl, htopo]
  simp only [host, List.length_map, List.flatMap_map, encodeGroup_eq, List.append_assoc,
    List.cons_append]

/-! ## The part and the whole -/

variable {request : RespValue}

theorem withHost_server (s : ServerState) (d : Daemon) :
    d.withHost { d.host with server := s } = d.withServer s := by
  have hgroups : (d.host.groupMembers.map fun group => (UInt64.ofNat group.1, group.2))
      = d.groupMembers := by
    simp only [host, List.map_map]
    refine (List.map_congr_left fun group _ => ?_).trans (List.map_id _)
    simp
  unfold withHost
  rw [hgroups]
  rfl

theorem withHost_host (d : Daemon) : d.withHost d.host = d :=
  (withHost_server d.server d).trans (withServer_server d)

theorem hostBehind_withServer (s : ServerState) (d : Daemon) :
    (d.withServer s).hostBehind d.messageQueue.length = { d.host with server := s } := by
  have hqueue : (d.withServer s).raftBehind d.messageQueue.length = s.messageQueue := by
    unfold raftBehind withServer
    rw [List.drop_left, List.filterMap_map]
    exact (List.filterMap_congr fun one _ => rfl).trans List.filterMap_some
  unfold hostBehind
  rw [hqueue]
  rfl

/-! ## The two models of `handle` -/

/-- A reply that is there at once, or a fault. -/
theorem call_onServer_lift (x : Except Fault Bytes) (d : Daemon) :
    (onServer (Method.lift x)).call d = (x, d) := by
  refine Prod.ext rfl ?_
  unfold onServer
  rw [Method.call_part]
  exact withServer_server d

theorem dispatch_onServer {command : Bytes} (hpeer : command ∉ Handler.peerCommands)
    (peer : RespValue → Int → HostM Bytes) (args : List RespValue) (d : Daemon) (fd : Int)
    (r : Reading) :
    ∃ m : ServerM Bytes,
      (Handler.handle peer (requestOf command args) fd r.due).call d.host
        = (Server.onServer m).call d.host ∧
      (handleCommand command (requestOf command args) fd r).call d = (onServer m).call d := by
  have hne : ∀ name ∈ Handler.peerCommands, command ≠ name := fun name hin heq => hpeer (heq ▸ hin)
  have hraft : ¬ raftCommands.contains command = true := by
    intro hin
    have hall : ∀ name ∈ raftCommands, name ∈ Handler.peerCommands := by decide
    exact hpeer (hall command (List.contains_iff_mem.mp hin))
  unfold Handler.handle Handler.dispatch handleCommand requestOf
  simp only [if_neg hpeer]
  rw [if_neg (hne (ascii "SYNCDONE") (by decide)), if_neg (hne (ascii "HEARTBEAT") (by decide)),
    if_neg hraft, Method.call_bind_ok (Method.call_get d.host), Method.call_bind_ok (Method.call_get d),
    List.contains_eq_mem, show d.host.syncing = d.syncing from rfl]
  by_cases hloading : (d.syncing && decide (command ∈ Handler.dataCommands)) = true
  · rw [if_pos hloading, if_pos hloading]
    exact ⟨Method.lift (.ok Handler.loadingReply), rfl, (call_onServer_lift _ d).symm⟩
  rw [if_neg hloading, if_neg hloading]
  by_cases hget : command = ascii "GET"
  · rw [if_pos hget, if_pos hget]
    exact ⟨_, congrArg (Method.call · d.host) (bind_pure _), rfl⟩
  rw [if_neg hget, if_neg hget]
  by_cases hset : command = ascii "SET"
  · rw [if_pos hset, if_pos hset]
    exact ⟨_, rfl, rfl⟩
  rw [if_neg hset, if_neg hset]
  by_cases hdel : command = ascii "DEL"
  · rw [if_pos hdel, if_pos hdel]
    exact ⟨_, rfl, rfl⟩
  rw [if_neg hdel, if_neg hdel]
  by_cases hexist : command = ascii "EXIST"
  · rw [if_pos hexist, if_pos hexist]
    exact ⟨_, congrArg (Method.call · d.host) (bind_pure _), rfl⟩
  rw [if_neg hexist, if_neg hexist, if_neg (hne (ascii "NODEIN") (by decide)),
    if_neg (hne (ascii "NODEOUT") (by decide))]
  by_cases hnetwork : command = ascii "GETNETWORK"
  · rw [if_pos hnetwork, if_pos hnetwork]
    refine ⟨Method.lift (.ok (getNetwork d.cluster.topo d.groupMembers)), ?_,
      (call_onServer_lift _ d).symm⟩
    rw [Method.call_bind_ok (Method.call_get d.host), GETNETWORK_host]
    rfl
  · rw [if_neg hnetwork, if_neg hnetwork, if_neg (hne (ascii "HELLO") (by decide))]
    exact ⟨Method.lift (.error _), rfl, (call_onServer_lift _ d).symm⟩

/-- A command of clients is, in both, one and the same call on what its handlers reach. -/
theorem handle_onServer (hpeer : ¬ ForPeers request) (peer : RespValue → Int → HostM Bytes)
    (d : Daemon) (fd : Int) (r : Reading) :
    ∃ m : ServerM Bytes,
      (Handler.handle peer request fd r.due).call d.host = (Server.onServer m).call d.host ∧
      (handle request fd r).call d = (onServer m).call d := by
  have hfault : ∀ e : Fault, (throw e : DaemonM Bytes).call d
      = (onServer (Method.lift (.error e))).call d := fun e => (call_onServer_lift _ d).symm
  cases request with
  | simpleString text =>
    unfold Handler.handle Handler.dispatch handle
    dsimp only
    by_cases hok : text = ascii "OK"
    · rw [if_pos hok, if_pos hok]
      exact ⟨Method.lift (.ok []), rfl, (call_onServer_lift _ d).symm⟩
    · rw [if_neg hok, if_neg hok]
      exact ⟨_, rfl, hfault _⟩
  | error _ | integer _ | bulkString _ => exact ⟨_, rfl, hfault _⟩
  | array elements =>
    rcases elements with _ | _ | ⟨first, args⟩
    · exact ⟨_, rfl, hfault _⟩
    · exact ⟨_, rfl, hfault _⟩
    · cases first with
      | simpleString command =>
        exact dispatch_onServer (fun hin => hpeer ⟨command, rfl, hin⟩) peer args d fd r
      | error _ | integer _ | bulkString _ | array _ => exact ⟨_, rfl, hfault _⟩

theorem handle_peers (hpeer : ForPeers request) (peer : RespValue → Int → HostM Bytes) (h : Host)
    (fd : Int) (due : Bool) :
    (Handler.handle peer request fd due).call h = (peer request fd).call h := by
  obtain ⟨command, hname, hin⟩ := hpeer
  unfold nameOf at hname
  split at hname
  · obtain rfl := Option.some.inj hname
    unfold Handler.handle Handler.dispatch
    simp only [if_pos hin]
    exact congrArg (Method.call · h) (bind_pure _)
  · exact absurd hname (Option.not_mem_none _)

/-- **One `handle`.** With the commands of nodes put in, the handlers of `Dispatch.lean` do to what
they reach what those of the whole server do. The commands of clients are the same calls on both,
and what is put on the queue meanwhile is behind what was there. -/
theorem handle_host (d : Daemon) (request : RespValue) (fd : Int) (r : Reading) :
    (Handler.handle (d.peerHandlers r) request fd r.due).call d.host
      = (((handle request fd r).call d).1,
          ((handle request fd r).call d).2.hostBehind d.messageQueue.length) := by
  by_cases hpeer : ForPeers request
  · rw [handle_peers hpeer]
    unfold peerHandlers
    rw [Method.call_part, withHost_host]
  · obtain ⟨m, hhost, hwhole⟩ := handle_onServer hpeer (d.peerHandlers r) d fd r
    rw [hhost, hwhole, Server.call_onServer, call_onServer, hostBehind_withServer]
    rfl

/-- **A client of the whole server** that waits for each reply is answered in order, whatever the
other clients send: the handlers of the pool are here those of this server. -/
theorem clients_in_order (d : Daemon) (r : Reading) (threads : Nat) (fd : Int)
    (m : Bytes → Option RespValue) (h : d.server.Serves fd m) (es : List Pool.Event)
    (hserved : Along (Pool.step (d.peerHandlers r)) (Pool.Served fd) { host := d.host, threads } es)
    (hpatient : Along (Pool.step (d.peerHandlers r)) (Pool.Patient fd)
      { host := d.host, threads } es) :
    ∀ pre, pre <+: es →
      (exec (Pool.step (d.peerHandlers r)) { host := d.host, threads } pre).InOrder fd m :=
  Pool.patient_in_order (d.peerHandlers r) d.host threads fd m h es hserved hpatient

end Daemon
end Server
end KvJet
