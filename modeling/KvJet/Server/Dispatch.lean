import KvJet.Server.Workers

/-!
# From a command to its reply

`Handler::handle` calls the handler of a command by its name. A worker goes through it in steps:
the checks of its arguments, then, for a write that is accepted, the calls on Raft, on the
append-only file and on the store, and the reply. `handle_steps_eq` says that with nothing in
between the steps are the handler.

The commands the nodes send each other (`SYNCDONE`, `HEARTBEAT`, the four of Raft, `NODEIN`,
`NODEOUT`, `HELLO`) are those of `Daemon.lean`; here their handlers are the parameter `peer`.
-/

namespace KvJet
namespace Server

open Resp Store

/-- What `handle` reads of `Server`, beyond what the handlers of data commands do. -/
structure Host where
  server : ServerState
  syncing : Bool := false
  /-- `groupMembers_`. -/
  groupMembers : List (Nat × List Raft.Uuid) := []

abbrev HostM := Method Fault Host

def onServer {α : Type} (m : ServerM α) : HostM α :=
  Method.part Host.server (fun server h => { h with server }) m

namespace Handler

def encodeNode (node : ClusterNode) : Bytes :=
  ascii "*3\r\n+" ++ node.ip ++ ascii "\r\n:" ++ toString node.port.toNat ++ ascii "\r\n+" ++
    toString node.uuid.toNat ++ crlf

def encodeTopo (topo : List (Raft.Uuid × ClusterNode)) : Bytes :=
  star :: toString topo.length ++ crlf ++ topo.flatMap fun node => encodeNode node.2

/-- A group in the reply of `GETNETWORK`, always with three members. -/
def encodeGroup (gid : Nat) (members : List Raft.Uuid) : Bytes :=
  ascii "*4\r\n+" ++ toString gid ++ crlf ++
    (List.range 3).flatMap fun i => plus :: toString (members.getD i 0).toNat ++ crlf

def GETNETWORK (h : Host) : Bytes :=
  ascii "*2\r\n" ++ encodeTopo h.server.cluster.topo ++ star :: toString h.groupMembers.length ++
    crlf ++ h.groupMembers.flatMap fun group => encodeGroup group.1 group.2

/-- The commands that are for nodes, not for clients. -/
def peerCommands : List Bytes :=
  [ascii "SYNCDONE", ascii "HEARTBEAT", ascii "RAFT_AE", ascii "RAFT_AER", ascii "RAFT_RV",
    ascii "RAFT_RVR", ascii "NODEIN", ascii "NODEOUT", ascii "HELLO"]

/-- Those that are refused while the node takes over its data. -/
def dataCommands : List Bytes := [ascii "SET", ascii "GET", ascii "DEL", ascii "EXIST"]

def loadingReply : Bytes := encode (.error (ascii "LOADING server is syncing, please retry"))

/-- `handle`, where `answer` is made of a reply, and the two handlers that write are arguments. It
asks for the commands of nodes in two places; nothing between them has their names. -/
def dispatch {α : Type} (peer : RespValue → Int → HostM Bytes) (answer : Bytes → α)
    (SET DEL : RespValue → ServerM α) (request : RespValue) (fd : Int) : HostM α := do
  match request with
  | .array none => throw (.undefined "size through an empty optional")
  | .array (some []) => throw (.exception "Empty request!!")
  | .array (some (.simpleString command :: _)) =>
    if command ∈ peerCommands then return answer (← peer request fd)
    else if (← get).syncing && command ∈ dataCommands then return answer loadingReply
    else if command = ascii "GET" then return answer (← onServer (GET request))
    else if command = ascii "SET" then onServer (SET request)
    else if command = ascii "DEL" then onServer (DEL request)
    else if command = ascii "EXIST" then return answer (← onServer (EXIST request))
    else if command = ascii "GETNETWORK" then return answer (GETNETWORK (← get))
    else throw (.exception "Unknown request!!")
  | .array (some (_ :: _)) => throw (.exception "Command is not a SimpleString!!")
  | .simpleString text =>
    if text = ascii "OK" then return answer [] else throw (.exception "Unknown request!")
  | _ => throw (.exception "Unknown request!")

def handle (peer : RespValue → Int → HostM Bytes) (request : RespValue) (fd : Int) (due : Bool) :
    HostM Bytes :=
  dispatch peer id (SET · due) (DEL · due) request fd

end Handler

/-! ## The steps of a worker

Where one worker can be overtaken by another: between its checks and its first effect, and between
any two of its effects. -/

/-- How far a worker has come with its command. -/
inductive Progress where
  | fresh
  | push (w : Write)
  | log (w : Write)
  | store (w : Write)
  | reply (text : Bytes)

namespace Handler

/-- `SET` up to its first effect. -/
def beginSET (request : RespValue) : ServerM Progress := do
  let elements ← Method.lift (elementsOf request)
  if elements.length ≠ 3 then throw (.exception "SET: Wrong number of arguments")
  match ← Method.lift (deref elements 1) with
  | .simpleString key =>
    let c := (← get).cluster
    if !(← Method.lift (c.isMasterFor key)) then
      return .reply (movedReply c (← Method.lift (c.queryNode key)))
    return .push (.set key (← Method.lift (deref elements 2)))
  | _ => throw (.exception "SET: Key is not a SimpleString")

/-- `DEL` up to its first effect. -/
def beginDEL (request : RespValue) : ServerM Progress := do
  let elements ← Method.lift (elementsOf request)
  if elements.length ≠ 2 then throw (.exception "DEL: Usage: DEL key")
  match ← Method.lift (deref elements 1) with
  | .simpleString key =>
    let c := (← get).cluster
    if !(← Method.lift (c.isMasterFor key)) then
      return .reply (movedReply c (← Method.lift (c.queryNode key)))
    return .push (.del key)
  | _ => throw (.exception "DEL: Key is not a SimpleString")

/-- The first step: everything, for a command that writes nothing. -/
def enter (peer : RespValue → Int → HostM Bytes) (request : RespValue) (fd : Int) :
    HostM Progress :=
  dispatch peer .reply beginSET beginDEL request fd

end Handler

/-- The call on the store, and the reply it makes. -/
def Write.store : Write → ServerM Bytes
  | .set key value => do
    let _ ← onKVStore (KVStore.set key value)
    return Handler.okReply
  | .del key => do
    let ret ← onKVStore (KVStore.del key)
    return encode (.integer (if ret then 1 else 0))

/-- The steps after the first one. -/
def Progress.next (due : Bool) : Progress → ServerM Progress
  | .push w => do
    Handler.proposeFor w.key (← Method.lift w.text)
    return .log w
  | .log w => do
    onAOF (AOF.append w.logged due)
    return .store w
  | .store w => return .reply (← w.store)
  | .reply text => return .reply text
  | .fresh => return .fresh

/-- The reply, when it is there. -/
def Progress.text : Progress → Bytes
  | .reply text => text
  | _ => []

/-- The steps after the first one, with nothing in between. -/
def Progress.finish (due : Bool) (p : Progress) : ServerM Bytes := do
  let p ← p.next due
  let p ← p.next due
  let p ← p.next due
  return p.text

/-! ## The steps are the handler -/

theorem call_onServer {α : Type} (m : ServerM α) (h : Host) :
    (onServer m).call h = ((m.call h.server).1, { h with server := (m.call h.server).2 }) := rfl

theorem onServer_bind {α β : Type} (m : ServerM α) (f : α → ServerM β) :
    (onServer m >>= fun a => onServer (f a)) = onServer (m >>= f) := by
  funext h
  have hfirst := call_onServer m h
  refine Eq.trans ?_ (call_onServer (m >>= f) h).symm
  show Method.call _ h = _
  cases hm : m.call h.server with
  | mk outcome server =>
    rw [hm] at hfirst
    cases outcome with
    | ok a =>
      rw [Method.call_bind_ok hfirst, Method.call_bind_ok hm]
      rfl
    | error e => rw [Method.call_bind_error hfirst, Method.call_bind_error hm]

/-- What follows the checks of a write. -/
theorem finish_push (due : Bool) (w : Write) :
    (Progress.push w).finish due = (do
      Handler.proposeFor w.key (← Method.lift w.text)
      onAOF (AOF.append w.logged due)
      w.store) := by
  simp only [Progress.finish, Progress.next, Progress.text, bind_assoc, pure_bind, bind_pure]

namespace Handler

variable {s : ServerState}

/-- What the checks of an argument that is a key come to. -/
def checked (s : ServerState) (w : Write) : Except Fault Progress := do
  if ← s.cluster.isMasterFor w.key then return .push w
  else return .reply (movedReply s.cluster (← s.cluster.queryNode w.key))

theorem call_owned {α : Type} {w : Write} {f : Progress → ServerM α} {rest : ServerM α}
    (hrest : rest.call s = (f (.push w)).call s) :
    Method.call (Method.lift (s.cluster.isMasterFor w.key) >>= fun master =>
      if !master then
        Method.lift (s.cluster.queryNode w.key) >>= fun owner =>
          f (.reply (movedReply s.cluster owner))
      else rest) s = Method.call (Method.lift (checked s w) >>= f) s := by
  unfold checked
  cases hmaster : s.cluster.isMasterFor w.key with
  | error e => rfl
  | ok master =>
    cases master with
    | true => exact hrest
    | false => cases hquery : s.cluster.queryNode w.key <;> rfl

theorem call_beginSET (key : Bytes) (value : RespValue) :
    (beginSET (Write.set key value).request).call s = (checked s (.set key value), s) := by
  refine (call_owned (s := s) (w := .set key value) (f := pure) rfl).trans ?_
  cases checked s (.set key value) <;> rfl

theorem call_beginDEL (key : Bytes) :
    (beginDEL (Write.del key).request).call s = (checked s (.del key), s) := by
  refine (call_owned (s := s) (w := .del key) (f := pure) rfl).trans ?_
  cases checked s (.del key) <;> rfl

/-- The handlers of the two writes. -/
theorem call_handle (w : Write) (due : Bool) :
    (w.handle due).call s = Method.call (Method.lift (checked s w) >>= Progress.finish due) s := by
  cases w with
  | set key value =>
    refine call_owned (s := s) (w := .set key value) (f := Progress.finish due) ?_
    rw [finish_push, Write.text]
    show Method.call (Method.lift (valueText value) >>= _) s = _
    have htext : ∀ x : Except Fault Bytes,
        (Method.lift (do return ascii "SET " ++ key ++ ascii " " ++ (← x)) : ServerM Bytes).call s
          = (x.map fun val => ascii "SET " ++ key ++ ascii " " ++ val, s) := by
      intro x
      cases x <;> rfl
    have hlift := htext (valueText value)
    cases hval : valueText value with
    | error e =>
      rw [hval] at hlift
      rw [Method.call_bind_error (Method.call_lift _ s), Method.call_bind_error hlift]
    | ok val =>
      rw [hval] at hlift
      rw [Method.call_bind_ok (Method.call_lift _ s), Method.call_bind_ok hlift]
      rfl
  | del key =>
    refine call_owned (s := s) (w := .del key) (f := Progress.finish due) ?_
    rw [finish_push]
    rfl

/-- A handler that makes the checks is its checks and what follows. -/
theorem begin_finish {w : Write} {m : ServerM Progress}
    (hbegin : ∀ s, m.call s = (checked s w, s)) (due : Bool) :
    m >>= Progress.finish due = w.handle due := by
  funext s
  refine Eq.trans ?_ (call_handle (s := s) w due).symm
  have hcall := hbegin s
  cases hchecked : checked s w with
  | error e =>
    rw [hchecked] at hcall
    exact Method.call_bind_error hcall _
  | ok p =>
    rw [hchecked] at hcall
    exact Method.call_bind_ok hcall _

theorem beginSET_finish (args : List RespValue) (due : Bool) :
    beginSET (.array (some (.simpleString (ascii "SET") :: args))) >>= Progress.finish due
      = SET (.array (some (.simpleString (ascii "SET") :: args))) due := by
  rcases args with _ | ⟨key, _ | ⟨value, _ | ⟨x, rest⟩⟩⟩
  · rfl
  · rfl
  · cases key with
    | simpleString key => exact begin_finish (fun s => call_beginSET key value) due
    | error _ | integer _ | bulkString _ | array _ => rfl
  · rfl

theorem beginDEL_finish (args : List RespValue) (due : Bool) :
    beginDEL (.array (some (.simpleString (ascii "DEL") :: args))) >>= Progress.finish due
      = DEL (.array (some (.simpleString (ascii "DEL") :: args))) due := by
  rcases args with _ | ⟨key, _ | ⟨x, rest⟩⟩
  · rfl
  · cases key with
    | simpleString key => exact begin_finish (fun s => call_beginDEL key) due
    | error _ | integer _ | bulkString _ | array _ => rfl
  · rfl

/-- **With nothing in between** the steps of a worker are `handle`.

A handler that writes makes its checks first and changes nothing until they are through, so it can
be cut there; and behind the checks it is three calls, one after another. -/
theorem handle_steps_eq (peer : RespValue → Int → HostM Bytes) (request : RespValue) (fd : Int)
    (due : Bool) :
    (enter peer request fd >>= fun p => onServer (p.finish due))
      = handle peer request fd due := by
  unfold enter handle dispatch
  split
  · rfl
  · rfl
  · rename_i command args
    -- one case for each name, in the order `handle` asks for them
    by_cases hpeer : command ∈ peerCommands
    · simp only [if_pos hpeer, bind_assoc]
      rfl
    simp only [if_neg hpeer, bind_assoc]
    congr 1
    funext h
    by_cases hsyncing : (h.syncing && command ∈ dataCommands) = true
    · simp only [if_pos hsyncing]
      rfl
    simp only [if_neg hsyncing]
    by_cases hget : command = ascii "GET"
    · simp only [if_pos hget, bind_assoc]
      rfl
    simp only [if_neg hget]
    by_cases hset : command = ascii "SET"
    · simp only [if_pos hset]
      subst hset
      rw [onServer_bind, beginSET_finish]
    simp only [if_neg hset]
    by_cases hdel : command = ascii "DEL"
    · simp only [if_pos hdel]
      subst hdel
      rw [onServer_bind, beginDEL_finish]
    simp only [if_neg hdel]
    by_cases hexist : command = ascii "EXIST"
    · simp only [if_pos hexist, bind_assoc]
      rfl
    simp only [if_neg hexist]
    by_cases hnetwork : command = ascii "GETNETWORK"
    · simp only [if_pos hnetwork]
      rfl
    · simp only [if_neg hnetwork]
      rfl
  · rfl
  · split <;> rfl
  · rfl

end Handler

/-! ## What the steps do

Each step by itself, for any command, with what it needs of the server in order to come to an end.
-/

/-- The write a command asks for. -/
def writeOf : RespValue → Option Write
  | .array (some [.simpleString command, .simpleString key, value]) =>
    if command = ascii "SET" then some (.set key value) else none
  | .array (some [.simpleString command, .simpleString key]) =>
    if command = ascii "DEL" then some (.del key) else none
  | _ => none

/-- The key a command reads. -/
def readOf : RespValue → Option Bytes
  | .array (some [.simpleString command, .simpleString key]) =>
    if command = ascii "GET" ∨ command = ascii "EXIST" then some key else none
  | _ => none

/-- The name of a command. -/
def nameOf : RespValue → Option Bytes
  | .array (some (.simpleString command :: _)) => some command
  | _ => none

def ForPeers (request : RespValue) : Prop := ∃ name ∈ nameOf request, name ∈ Handler.peerCommands

instance : DecidablePred ForPeers :=
  fun request => inferInstanceAs (Decidable (∃ name ∈ nameOf request, _))

namespace Handler

/-- The commands, with their arguments, that come to a reply: not a `DEL` that this node is to
carry out. -/
def Answers (c : Cluster) (command : Bytes) : List RespValue → Prop
  | [.simpleString key] => command = ascii "GET" ∨ command = ascii "EXIST" ∨
      (command = ascii "DEL" ∧ c.isMasterFor key = .ok false)
  | [.simpleString key, _] => command = ascii "SET" ∧ (c.isMasterFor key).isOk
  | _ => False

instance (c : Cluster) (command : Bytes) : DecidablePred (Answers c command) := by
  intro args
  unfold Answers
  split <;> infer_instance

def Answerable (h : Host) : RespValue → Prop
  | .array (some (.simpleString command :: args)) =>
    (h.syncing = true ∧ command ∈ dataCommands) ∨ command = ascii "GETNETWORK" ∨
      Answers h.server.cluster command args
  | _ => False

instance (h : Host) : DecidablePred (Answerable h) := by
  intro request
  unfold Answerable
  split <;> infer_instance

end Handler

/-- A store that holds `m`, on a server with nothing queued for `fd` and no other node at it. -/
structure ServerState.Serves (s : ServerState) (fd : Int) (m : Bytes → Option RespValue) :
    Prop where
  contents : s.kvstore.Contents m
  stranger : ∀ node ∈ s.cluster.connections, node.2 ≠ fd
  silent : ∀ msg ∈ s.messageQueue, msg.2 ≠ fd

namespace ServerState.Serves

variable {s : ServerState} {fd : Int} {m : Bytes → Option RespValue}

theorem of_sendCb (h : s.Serves fd m) (msg : Raft.RaftMessage) : (s.sendCb msg).Serves fd m := by
  unfold ServerState.sendCb
  dsimp only
  split
  · exact h
  · rename_i hconnected
    refine ⟨h.contents, h.stranger, fun queued hqueued => ?_⟩
    rcases List.mem_append.mp hqueued with hold | hnew
    · exact h.silent queued hold
    · rw [List.mem_singleton] at hnew
      subst hnew
      cases hlookup : s.cluster.connections.lookup msg.target with
      | none => exact absurd (by rw [Cluster.getConnection, hlookup]; rfl) hconnected
      | some fd' =>
        have hin : (msg.target, fd') ∈ s.cluster.connections := by
          obtain ⟨before, after, hsplit, -⟩ := List.lookup_eq_some_iff.mp hlookup
          rw [hsplit]
          simp
        rw [Cluster.getConnection, hlookup]
        exact h.stranger _ hin

theorem of_sendAll : ∀ (msgs : List Raft.RaftMessage) {s : ServerState}, s.Serves fd m →
    (msgs.foldl ServerState.sendCb s).Serves fd m := by
  intro msgs
  induction msgs with
  | nil => exact fun h => h
  | cons msg msgs ih => exact fun h => ih (h.of_sendCb msg)

theorem of_propose (h : s.Serves fd m) (gid : Nat) (cmd : Bytes) :
    (s.propose gid cmd).Serves fd m := by
  unfold ServerState.propose
  cases s.raftGroups.lookup gid with
  | none => exact h
  | some rn => exact of_sendAll _ ⟨h.contents, h.stranger, h.silent⟩

theorem of_proposeFor (h : s.Serves fd m) (key cmd : Bytes) :
    ∃ r s', (Handler.proposeFor key cmd).call s = (r, s') ∧ s'.Serves fd m ∧
      ((s.cluster.queryNode key).isOk → r = .ok ()) := by
  rw [Handler.proposeFor, Method.call_bind_ok (Method.call_get s)]
  cases hquery : s.cluster.queryNode key with
  | error e =>
    have hgroup : s.getGroupForKey key = .error e := by
      rw [ServerState.getGroupForKey, hquery]
      rfl
    rw [hgroup, Method.call_bind_error (Method.call_lift _ s)]
    exact ⟨_, s, rfl, h, fun hok => absurd hok Bool.false_ne_true⟩
  | ok owner =>
    have hgroup : s.getGroupForKey key = .ok ((s.masterToGroup.lookup owner).filter
        fun gid => (s.raftGroups.lookup gid).isSome) := by
      rw [ServerState.getGroupForKey, hquery]
      rfl
    rw [hgroup, Method.call_bind_ok (Method.call_lift _ s)]
    cases (s.masterToGroup.lookup owner).filter fun gid => (s.raftGroups.lookup gid).isSome with
    | none => exact ⟨_, s, rfl, h, fun _ => rfl⟩
    | some gid => exact ⟨_, _, rfl, h.of_propose gid cmd, fun _ => rfl⟩

/-- **The call on Raft** queues nothing for `fd`, and returns when the value has a text. -/
theorem push_spec (h : s.Serves fd m) (w : Write) (due : Bool) :
    ∃ r s', ((Progress.push w).next due).call s = (r, s') ∧ s'.Serves fd m ∧
      (w.text.isOk → (s.cluster.queryNode w.key).isOk → r = .ok (.log w)) := by
  rw [Progress.next]
  cases htext : w.text with
  | error e =>
    rw [Method.call_bind_error (Method.call_lift _ s)]
    exact ⟨_, s, rfl, h, fun hok => absurd hok Bool.false_ne_true⟩
  | ok text =>
    rw [Method.call_bind_ok (Method.call_lift _ s)]
    obtain ⟨r, s', hcall, hserves, hok⟩ := h.of_proposeFor w.key text
    cases r with
    | error e =>
      rw [Method.call_bind_error hcall]
      exact ⟨_, s', rfl, hserves, fun _ hquery => absurd (hok hquery) (by simp)⟩
    | ok u =>
      rw [Method.call_bind_ok hcall]
      exact ⟨_, s', rfl, hserves, fun _ _ => rfl⟩

/-- **The call on the append-only file** returns for a request that has all its elements. -/
theorem log_spec (h : s.Serves fd m) (w : Write) (due : Bool) :
    ∃ r s', ((Progress.log w).next due).call s = (r, s') ∧ s'.Serves fd m ∧
      (w.logged.all Option.isSome → r = .ok (.store w)) := by
  cases w with
  | set key value =>
    obtain ⟨a, happ, -⟩ := call_append
      (encodeRequest_whole [.simpleString (ascii "SET"), .simpleString key, value]) due s.aof
    have hcall : (onAOF (AOF.append (Write.set key value).logged due)).call s
        = (.ok (), { s with aof := a }) := by
      rw [onAOF, Method.call_part]
      exact congrArg (fun r => (r.1, { s with aof := r.2 })) happ
    rw [Progress.next, Method.call_bind_ok hcall]
    exact ⟨_, _, rfl, ⟨h.contents, h.stranger, h.silent⟩, fun _ => rfl⟩
  | del key =>
    rw [Progress.next, Method.call_bind_error (call_log_del s key due)]
    exact ⟨_, s, rfl, h, fun hall => absurd hall (by simp [Write.logged])⟩

/-- **The call on the store**, when that has room. -/
theorem store_spec (h : s.Serves fd m) (w : Write) (due : Bool) (hroom : s.kvstore.Room w.key) :
    ∃ text s', ((Progress.store w).next due).call s = (.ok (.reply text), s') ∧ text ≠ [] ∧
      s'.Serves fd (Function.update m w.key w.effect) := by
  cases w with
  | set key value =>
    have hroom : s.kvstore.Room key := hroom
    obtain ⟨evicted, kv, hset, hcontents⟩ := KVStore.set_contents h.contents value hroom
    have hput : (onKVStore (KVStore.set key value)).call s
        = (.ok evicted, { s with kvstore := kv }) := by rw [onKVStore, Method.call_part, hset]
    have hstore : (Write.set key value).store.call s
        = (.ok Handler.okReply, { s with kvstore := kv }) := Method.call_bind_ok hput _
    exact ⟨_, _, Method.call_bind_ok hstore _, encode_ne_nil _, hcontents, h.stranger, h.silent⟩
  | del key =>
    have hroom : s.kvstore.Room key := hroom
    obtain ⟨kv, hdel, hcontents⟩ := KVStore.del_contents h.contents hroom
    have herase : (onKVStore (KVStore.del key)).call s
        = (.ok (m key).isSome, { s with kvstore := kv }) := by rw [onKVStore, Method.call_part, hdel]
    have hstore : (Write.del key).store.call s = (.ok (encode (.integer
        (if (m key).isSome then 1 else 0))), { s with kvstore := kv }) := Method.call_bind_ok herase _
    exact ⟨_, _, Method.call_bind_ok hstore _, encode_ne_nil _, hcontents, h.stranger, h.silent⟩

/-- `GET` and `EXIST` read a key that is the only argument, and throw for other arguments. -/
theorem of_read (h : s.Serves fd m) {read : RespValue → ServerM Bytes} {command : Bytes}
    (args : List RespValue)
    (hread : (command = ascii "GET" ∧ read = Handler.GET) ∨
      (command = ascii "EXIST" ∧ read = Handler.EXIST))
    (hroom : ∀ key, args = [.simpleString key] → s.kvstore.Room key) :
    ∃ r s', (read (.array (some (.simpleString command :: args)))).call s = (r, s') ∧
      s'.Serves fd m ∧ (∀ key, args = [.simpleString key] → ∃ text, r = .ok text ∧ text ≠ []) := by
  rcases args with _ | ⟨arg, _ | ⟨x, rest⟩⟩
  · rcases hread with ⟨-, rfl⟩ | ⟨-, rfl⟩ <;> exact ⟨_, s, rfl, h, by simp⟩
  · cases arg with
    | simpleString key =>
      have hroom := hroom key rfl
      rcases hread with ⟨rfl, rfl⟩ | ⟨rfl, rfl⟩
      · obtain ⟨kv, hcall, hcontents⟩ := call_GET_room h.contents hroom
        refine ⟨_, _, hcall, ⟨hcontents, h.stranger, h.silent⟩, fun _ _ => ⟨_, rfl, ?_⟩⟩
        cases m key with
        | none => exact encode_ne_nil _
        | some v => exact encode_ne_nil v
      · obtain ⟨kv, hget, hcontents⟩ := KVStore.get_contents h.contents hroom
        have hcall : (onKVStore (KVStore.get key)).call s
            = (.ok (m key), { s with kvstore := kv }) := by rw [onKVStore, Method.call_part, hget]
        exact ⟨_, _, Method.call_bind_ok hcall _, ⟨hcontents, h.stranger, h.silent⟩,
          fun _ _ => ⟨_, rfl, encode_ne_nil _⟩⟩
    | error _ | integer _ | bulkString _ | array _ =>
      rcases hread with ⟨-, rfl⟩ | ⟨-, rfl⟩ <;> exact ⟨_, s, rfl, h, by simp⟩
  · rcases hread with ⟨-, rfl⟩ | ⟨-, rfl⟩ <;> exact ⟨_, s, rfl, h, by simp⟩

end ServerState.Serves

/-- What a worker may have come to with this command. -/
def Progress.For (request : RespValue) : Progress → Prop
  | .fresh => True
  | .push w | .log w | .store w => writeOf request = some w
  | .reply text => text ≠ []

namespace Handler

variable {s : ServerState}

theorem movedReply_ne_nil (c : Cluster) (owner : Raft.Uuid) : movedReply c owner ≠ [] :=
  encode_ne_nil _

/-- A redirection, or the first call of the write on the way. -/
theorem checked_spec {request : RespValue} {w : Write} {master : Bool}
    (hmaster : s.cluster.isMasterFor w.key = .ok master)
    (hrequest : master = true → writeOf request = some w) :
    ∃ p, checked s w = .ok p ∧ p.For request := by
  obtain ⟨owner, howner, -⟩ := Except.of_bind_eq_ok hmaster
  rw [checked, hmaster]
  cases master with
  | true => exact ⟨_, rfl, hrequest rfl⟩
  | false =>
    exact ⟨.reply (movedReply s.cluster owner), by rw [howner]; rfl, movedReply_ne_nil _ owner⟩

/-- The checks of `SET` change nothing. -/
theorem beginSET_spec (args : List RespValue) :
    ∃ r, (beginSET (.array (some (.simpleString (ascii "SET") :: args)))).call s = (r, s) ∧
      (Answers s.cluster (ascii "SET") args →
        ∃ p, r = .ok p ∧ p.For (.array (some (.simpleString (ascii "SET") :: args)))) := by
  rcases args with _ | ⟨key, _ | ⟨value, _ | ⟨x, rest⟩⟩⟩
  · exact ⟨_, rfl, fun h => absurd h id⟩
  · exact ⟨_, rfl, fun h => by cases key <;> exact absurd h (by simp [Answers, ascii])⟩
  · cases key with
    | simpleString key =>
      refine ⟨_, call_beginSET key value, fun h => ?_⟩
      obtain ⟨master, hmaster⟩ := Except.exists_of_isOk h.2
      exact checked_spec (w := .set key value) hmaster fun _ => rfl
    | error _ | integer _ | bulkString _ | array _ => exact ⟨_, rfl, fun h => absurd h id⟩
  · exact ⟨_, rfl, fun h => by cases key <;> exact absurd h id⟩

theorem beginDEL_spec (args : List RespValue) :
    ∃ r, (beginDEL (.array (some (.simpleString (ascii "DEL") :: args)))).call s = (r, s) ∧
      (Answers s.cluster (ascii "DEL") args →
        ∃ p, r = .ok p ∧ p.For (.array (some (.simpleString (ascii "DEL") :: args)))) := by
  rcases args with _ | ⟨key, _ | ⟨x, rest⟩⟩
  · exact ⟨_, rfl, fun h => absurd h id⟩
  · cases key with
    | simpleString key =>
      refine ⟨_, call_beginDEL key, fun h => ?_⟩
      have hmaster : s.cluster.isMasterFor key = .ok false := by
        rcases h with h | h | h
        · exact absurd h (by decide)
        · exact absurd h (by decide)
        · exact h.2
      exact checked_spec (w := .del key) hmaster fun _ => rfl
    | error _ | integer _ | bulkString _ | array _ => exact ⟨_, rfl, fun h => absurd h id⟩
  · refine ⟨_, rfl, fun h => ?_⟩
    cases key <;> cases rest <;> first | exact absurd h id | exact absurd h.1 (by decide)

variable {host : Host} {fd : Int} {m : Bytes → Option RespValue}

theorem call_answer {α : Type} {mt : ServerM Bytes} {r : Except Fault Bytes} {s' : ServerState}
    (hcall : mt.call host.server = (r, s')) (answer : Bytes → α) :
    Method.call (do return answer (← onServer mt)) host
      = (r.map answer, { host with server := s' }) := by
  have honserver : (onServer mt).call host = (r, { host with server := s' }) := by
    rw [call_onServer, hcall]
  cases r with
  | ok text => exact Method.call_bind_ok honserver _
  | error e => exact Method.call_bind_error honserver _

theorem Answers.singleton {c : Cluster} {command : Bytes} {args : List RespValue}
    (h : Answers c command args) (hne : command ≠ ascii "SET") :
    ∃ key, args = [.simpleString key] := by
  unfold Answers at h
  split at h
  · exact ⟨_, rfl⟩
  · exact absurd h.1 hne
  · exact absurd h id

/-- A `GET` or an `EXIST` as the first step. -/
theorem read_spec {read : RespValue → ServerM Bytes} {command : Bytes} {args : List RespValue}
    (h : host.server.Serves fd m)
    (hread : (command = ascii "GET" ∧ read = GET) ∨ (command = ascii "EXIST" ∧ read = EXIST))
    (hroom : ∀ key ∈ readOf (.array (some (.simpleString command :: args))),
      host.server.kvstore.Room key) :
    ∃ r host', Method.call (do
        return Progress.reply (← onServer (read (.array (some (.simpleString command :: args))))))
          host = (r, host') ∧ host'.server.Serves fd m ∧
      (Answers host.server.cluster command args →
        ∃ p, r = .ok p ∧ p.For (.array (some (.simpleString command :: args)))) := by
  have hname : command = ascii "GET" ∨ command = ascii "EXIST" := hread.imp And.left And.left
  obtain ⟨r, s', hcall, hserves, hok⟩ := h.of_read args hread fun key hargs =>
    hroom key (by rw [hargs, readOf, if_pos hname]; rfl)
  refine ⟨_, _, call_answer hcall Progress.reply, hserves, fun hans => ?_⟩
  obtain ⟨key, hargs⟩ := hans.singleton (by rcases hname with rfl | rfl <;> decide)
  obtain ⟨text, rfl, hne⟩ := hok key hargs
  exact ⟨.reply text, rfl, hne⟩

/-- The checks of a write as the first step. -/
theorem write_spec {begins : ServerM Progress} {r : Except Fault Progress} {request : RespValue}
    {P : Prop} (h : host.server.Serves fd m) (hcall : begins.call host.server = (r, host.server))
    (hok : P → ∃ p, r = .ok p ∧ p.For request) :
    ∃ r host', (onServer begins).call host = (r, host') ∧ host'.server.Serves fd m ∧
      (P → ∃ p, r = .ok p ∧ p.For request) :=
  ⟨r, host, by rw [call_onServer, hcall], h, hok⟩

theorem enter_command (peer : RespValue → Int → HostM Bytes) {command : Bytes}
    {args : List RespValue} (h : host.server.Serves fd m) (hpeer : command ∉ peerCommands)
    (hroom : host.syncing = false → ∀ key ∈ readOf (.array (some (.simpleString command :: args))),
      host.server.kvstore.Room key) (client : Int) :
    ∃ r host', (enter peer (.array (some (.simpleString command :: args))) client).call host
        = (r, host') ∧ host'.server.Serves fd m ∧
      (Answerable host (.array (some (.simpleString command :: args))) →
        ∃ p, r = .ok p ∧ p.For (.array (some (.simpleString command :: args)))) := by
  unfold enter dispatch
  simp only [if_neg hpeer]
  rw [Method.call_bind_ok (Method.call_get host)]
  by_cases hloading : (host.syncing && command ∈ dataCommands) = true
  · rw [if_pos hloading]
    exact ⟨_, host, rfl, h, fun _ => ⟨.reply loadingReply, rfl, encode_ne_nil _⟩⟩
  rw [if_neg hloading]
  have hdata : command ∈ dataCommands → host.syncing = false := by
    intro hin
    simpa [hin] using hloading
  -- of what is answerable, only what its own arguments make so is left
  have hans : ∀ {P : Prop}, command ≠ ascii "GETNETWORK" →
      (Answers host.server.cluster command args → P) →
      Answerable host (.array (some (.simpleString command :: args))) → P := by
    intro P hne himp hanswerable
    rcases hanswerable with ⟨hsyncing, hin⟩ | hnetwork | hanswers
    · exact absurd hsyncing (by simp [hdata hin])
    · exact absurd hnetwork hne
    · exact himp hanswers
  by_cases hget : command = ascii "GET"
  · subst hget
    obtain ⟨r, host', hcall, hserves, hok⟩ :=
      read_spec h (Or.inl ⟨rfl, rfl⟩) (hroom (hdata (by simp [dataCommands])))
    exact ⟨r, host', hcall, hserves, hans (by decide) hok⟩
  rw [if_neg hget]
  by_cases hset : command = ascii "SET"
  · subst hset
    obtain ⟨r, hcall, hok⟩ := beginSET_spec (s := host.server) args
    obtain ⟨r, host', hcall, hserves, hok⟩ := write_spec h hcall hok
    exact ⟨r, host', hcall, hserves, hans (by decide) hok⟩
  rw [if_neg hset]
  by_cases hdel : command = ascii "DEL"
  · subst hdel
    obtain ⟨r, hcall, hok⟩ := beginDEL_spec (s := host.server) args
    obtain ⟨r, host', hcall, hserves, hok⟩ := write_spec h hcall hok
    exact ⟨r, host', hcall, hserves, hans (by decide) hok⟩
  rw [if_neg hdel]
  by_cases hexist : command = ascii "EXIST"
  · subst hexist
    obtain ⟨r, host', hcall, hserves, hok⟩ :=
      read_spec h (Or.inr ⟨rfl, rfl⟩) (hroom (hdata (by simp [dataCommands])))
    exact ⟨r, host', hcall, hserves, hans (by decide) hok⟩
  rw [if_neg hexist]
  by_cases hnetwork : command = ascii "GETNETWORK"
  · rw [if_pos hnetwork]
    exact ⟨_, host, rfl, h, fun _ => ⟨.reply (GETNETWORK host), rfl, by simp [Progress.For, GETNETWORK, ascii]⟩⟩
  · rw [if_neg hnetwork]
    refine ⟨_, host, rfl, h, hans hnetwork fun hanswers => ?_⟩
    unfold Answers at hanswers
    split at hanswers
    · rcases hanswers with hname | hname | hname
      · exact absurd hname hget
      · exact absurd hname hexist
      · exact absurd hname.1 hdel
    · exact absurd hanswers.1 hset
    · exact absurd hanswers id

/-- **The first step** keeps the store's bindings and queues nothing for `fd`; for an answerable
command it returns. -/
theorem enter_spec (peer : RespValue → Int → HostM Bytes) {request : RespValue}
    (h : host.server.Serves fd m) (hpeer : ¬ ForPeers request)
    (hroom : host.syncing = false → ∀ key ∈ readOf request, host.server.kvstore.Room key)
    (client : Int) :
    ∃ r host', (enter peer request client).call host = (r, host') ∧ host'.server.Serves fd m ∧
      (Answerable host request → ∃ p, r = .ok p ∧ p.For request) := by
  cases request with
  | simpleString text =>
    by_cases hok : text = ascii "OK"
    · exact ⟨_, host, by rw [enter, dispatch, if_pos hok]; rfl, h, fun hans => absurd hans id⟩
    · exact ⟨_, host, by rw [enter, dispatch, if_neg hok]; rfl, h, fun hans => absurd hans id⟩
  | error _ | integer _ | bulkString _ => exact ⟨_, host, rfl, h, fun hans => absurd hans id⟩
  | array elements =>
    rcases elements with _ | _ | ⟨first, args⟩
    · exact ⟨_, host, rfl, h, fun hans => absurd hans id⟩
    · exact ⟨_, host, rfl, h, fun hans => absurd hans id⟩
    · cases first with
      | simpleString command => exact enter_command peer h (fun hin => hpeer ⟨command, rfl, hin⟩) hroom client
      | error _ | integer _ | bulkString _ | array _ =>
        exact ⟨_, host, rfl, h, fun hans => absurd hans id⟩

end Handler

end Server
end KvJet
