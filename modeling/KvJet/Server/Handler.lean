import KvJet.Server.Cluster
import KvJet.Store.KVStore
import KvJet.Resp.Parser

/-!
# The request handlers

`Handler` (`Handler.cpp`) for the commands on data, `AOF` (`AOF.cpp`), and what they use of
`Server`.

A request is an array of `std::unique_ptr`s, and `std::move` of an element leaves a null pointer
in its place. A handler that takes an element out and then goes on with the request sees the
hole, so the elements of a request under way are `Option`s.

Whether more than `AOF_FSYNC_TIME_MS` have passed since the last flush is up to the clock: it is
the argument `due`.
-/

namespace KvJet
namespace Server

open Resp Store
open Raft (RaftNode RaftMessage Payload Uuid)

/-! ## The append-only file -/

/-- `Config::AOF_BUFFER_SIZE`. -/
def aofBufferSize : Nat := 1024 * 1024

/-- The file on disk and the buffer in front of it. -/
structure AOF where
  file : Bytes := []
  buffer : Bytes := []

/-- The elements of a request. -/
abbrev Elements := List (Option RespValue)

/-- `*p`. -/
def pointee : Option RespValue → Except Fault RespValue
  | some v => .ok v
  | none => .error (.undefined "read through a null pointer")

/-- `*elements[i]`. -/
def deref (elements : Elements) (i : Nat) : Except Fault RespValue :=
  match elements[i]? with
  | some p => pointee p
  | none => .error (.undefined "element out of range")

/-- `resp::encode` of a request, which reads through the pointer of every element. -/
def encodeRequest (elements : Elements) : Except Fault Bytes := do
  let texts ← elements.mapM fun p => return encode (← pointee p)
  return star :: toString elements.length ++ crlf ++ texts.flatten

namespace AOF

def flush (a : AOF) : AOF := ⟨a.file ++ a.buffer, []⟩

def append (elements : Elements) (due : Bool) : Method Fault AOF Unit := do
  let text ← Method.lift (encodeRequest elements)
  modify fun a => { a with buffer := a.buffer ++ text }
  if (← get).buffer.length > aofBufferSize || due then modify flush

end AOF

/-! ## The server -/

/-- The members of `Server` that the handlers of data commands reach. -/
structure ServerState where
  kvstore : KVStore RespValue := {}
  aof : AOF := {}
  cluster : Cluster
  /-- `raft_groups`. -/
  raftGroups : List (Nat × RaftNode) := []
  masterToGroup : List (Uuid × Nat) := []
  /-- What `sendCb` has put on `message_queue`. -/
  messageQueue : List (Payload × Int) := []

abbrev ServerM := Method Fault ServerState

def onKVStore {α : Type} (m : Method Fault (KVStore RespValue) α) : ServerM α :=
  Method.part ServerState.kvstore (fun kvstore s => { s with kvstore }) m

def onAOF {α : Type} (m : Method Fault AOF α) : ServerM α :=
  Method.part ServerState.aof (fun aof s => { s with aof }) m

/-- `makeRaftSendCb`: a message to a node that is not connected is dropped. -/
def ServerState.sendCb (s : ServerState) (msg : RaftMessage) : ServerState :=
  let fd := s.cluster.getConnection msg.target
  if fd = -1 then s else { s with messageQueue := s.messageQueue ++ [(msg.payload, fd)] }

/-- `getGroupForKey`: the group whose master owns the key, if this node is in it. -/
def ServerState.getGroupForKey (s : ServerState) (key : Bytes) : Except Fault (Option Nat) := do
  let owner ← s.cluster.queryNode key
  return (s.masterToGroup.lookup owner).filter fun gid => (s.raftGroups.lookup gid).isSome

/-- `rn->propose(cmd)` of the group `gid`. -/
def ServerState.propose (s : ServerState) (gid : Nat) (cmd : Bytes) : ServerState :=
  match s.raftGroups.lookup gid with
  | none => s
  | some rn =>
    let (rn, msgs) := rn.propose cmd
    let groups := s.raftGroups.map fun g => if g.1 = gid then (gid, rn) else g
    msgs.foldl ServerState.sendCb { s with raftGroups := groups }

namespace Handler

/-- The elements of a request; `SET` and the others are only called with an array. -/
def elementsOf : RespValue → Except Fault Elements
  | .array (some xs) => .ok (xs.map some)
  | .array none => .error (.undefined "size through an empty optional")
  | _ => .error (.undefined "size through a null pointer")

/-- The address of the master, in the reply of a node that is not. -/
def movedReply (c : Cluster) (master : Uuid) : Bytes :=
  let addr := match c.topo.lookup master with
    | some node => node.ip ++ [colon] ++ toString node.port.toNat
    | none => toString master.toNat
  encode (.error (ascii "MOVED " ++ addr))

/-- `val_str`: the text of the value in the Raft command. -/
def valueText : RespValue → Except Fault Bytes
  | .bulkString (some s) => .ok s
  | .bulkString none => .error (.undefined "value of an empty optional")
  | .simpleString s => .ok s
  | _ => .ok []

/-- `if (rn) rn->propose(cmd)` for the group of `key`. -/
def proposeFor (key cmd : Bytes) : ServerM Unit := do
  match ← Method.lift ((← get).getGroupForKey key) with
  | none => return
  | some gid => modify fun s => s.propose gid cmd

/-- `+OK`. -/
def okReply : Bytes := encode (.simpleString (ascii "OK"))

def SET (request : RespValue) (due : Bool) : ServerM Bytes := do
  let elements ← Method.lift (elementsOf request)
  if elements.length ≠ 3 then throw (.exception "SET: Wrong number of arguments")
  match ← Method.lift (deref elements 1) with
  | .simpleString key =>
    let c := (← get).cluster
    if !(← Method.lift (c.isMasterFor key)) then
      return movedReply c (← Method.lift (c.queryNode key))
    let val ← Method.lift (valueText (← Method.lift (deref elements 2)))
    proposeFor key (ascii "SET " ++ key ++ ascii " " ++ val)
    onAOF (AOF.append elements due)
    -- only now is the value taken out of the request
    let value ← Method.lift (deref elements 2)
    let _ ← onKVStore (KVStore.set key value)
    return okReply
  | _ => throw (.exception "SET: Key is not a SimpleString")

def DEL (request : RespValue) (due : Bool) : ServerM Bytes := do
  let elements ← Method.lift (elementsOf request)
  if elements.length ≠ 2 then throw (.exception "DEL: Usage: DEL key")
  let key ← Method.lift (deref elements 1)
  -- `std::move` of the key, before the request is logged
  let elements := elements.set 1 none
  match key with
  | .simpleString key =>
    let c := (← get).cluster
    if !(← Method.lift (c.isMasterFor key)) then
      return movedReply c (← Method.lift (c.queryNode key))
    proposeFor key (ascii "DEL " ++ key)
    onAOF (AOF.append elements due)
    let ret ← onKVStore (KVStore.del key)
    return encode (.integer (if ret then 1 else 0))
  | _ => throw (.exception "DEL: Key is not a SimpleString")

def SETNoAOF (request : RespValue) : ServerM Bytes := do
  let elements ← Method.lift (elementsOf request)
  if elements.length ≠ 3 then throw (.exception "SET: Wrong number of arguments")
  let key ← Method.lift (deref elements 1)
  let value ← Method.lift (deref elements 2)
  match key with
  | .simpleString key =>
    let _ ← onKVStore (KVStore.set key value)
    return okReply
  | _ => throw (.exception "SET: Key is not a SimpleString")

def DELNoAOF (request : RespValue) : ServerM Bytes := do
  let elements ← Method.lift (elementsOf request)
  if elements.length ≠ 2 then throw (.exception "DEL_noAOF: Usage: DEL key")
  match ← Method.lift (deref elements 1) with
  | .simpleString key =>
    let ret ← onKVStore (KVStore.del key)
    return encode (.integer (if ret then 1 else 0))
  | _ => throw (.exception "DEL_noAOF: Key is not a SimpleString")

def GET (request : RespValue) : ServerM Bytes := do
  let elements ← Method.lift (elementsOf request)
  if elements.length ≠ 2 then throw (.exception "GET: Wrong number of arguments")
  match ← Method.lift (deref elements 1) with
  | .simpleString key =>
    let result ← onKVStore (KVStore.getValue key)
    if result.isEmpty then return encode (.bulkString none) else return result
  | _ => throw (.exception "GET: Key is not a SimpleString")

def EXIST (request : RespValue) : ServerM Bytes := do
  let elements ← Method.lift (elementsOf request)
  if elements.length ≠ 2 then throw (.exception "EXIST: Usage: EXIST key")
  match ← Method.lift (deref elements 1) with
  | .simpleString key =>
    let ret ← onKVStore (KVStore.get key)
    return encode (.integer (if ret.isSome then 1 else 0))
  | _ => throw (.exception "EXIST: Key is not a SimpleString")

def handleNoAOF (request : RespValue) : ServerM Bytes := do
  match request with
  | .array none => throw (.undefined "size through an empty optional")
  | .array (some []) => throw (.exception "Empty request!!")
  | .array (some (.simpleString command :: _)) =>
    if command = ascii "GET" then GET request
    else if command = ascii "SET" then SETNoAOF request
    else if command = ascii "DEL" then DELNoAOF request
    else if command = ascii "EXIST" then EXIST request
    else throw (.exception "Unknown request!!")
  | .array (some (_ :: _)) => throw (.exception "Command is not a SimpleString!!")
  | _ => throw (.exception "Request is not an Array!!")

end Handler

/-! ## Recovery -/

namespace AOF

/-- The blocks `in.read` fills, the last one possibly not to the end. -/
def blocks : Nat → Bytes → List Bytes
  | 0, _ => []
  | fuel + 1, file =>
    if file.isEmpty then []
    else file.take aofBufferSize :: blocks fuel (file.drop aofBufferSize)

/-- One command of the file; the reply is dropped. -/
def replay (cmd : RespValue) : ServerM Unit := do
  let _ ← Handler.handleNoAOF cmd
  return

/-- The loop of `recover` over the blocks, with `getResult` until there is no result left. -/
def recoverLoop (parser : RespParser) : List Bytes → ServerM Unit
  | [] => return
  | block :: rest => do
    let parser ← Method.lift (parser.append block)
    forM parser.messageQueue replay
    recoverLoop { parser with messageQueue := [] } rest

/-- `AOF::recover` of a file with this content. -/
def recover (file : Bytes) : ServerM Unit := recoverLoop {} (blocks file.length file)

end AOF
end Server
end KvJet
