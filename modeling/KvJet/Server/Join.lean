import KvJet.Server.Command
import KvJet.Server.Pool

/-!
# A node joins

`Server::joinCluster` puts the new node into the syncing state and waits for as many `SYNCDONE`s as
there are nodes. Each of those goes through its store with `sendDataToNode`, sends a `SET` for every
key that the ring gives to the new node, and then `SYNCDONE`.

Until the last `SYNCDONE` is handled `Handler::handle` refuses every `SET`, and it cannot tell the
`SET`s of the nodes from those of the clients. So nothing of what is sent arrives
(`enter_syncing`), and the new node has, when it starts to serve, what it had before
(`migration_complete_iff`).

What the main loop and the handlers of the other commands of nodes do is a parameter: they reach
everything but the store, the flag and the counter. The one thing that does reach the store is the
main loop when it applies what Raft has committed.
-/

namespace KvJet
namespace Server

open Resp Store Run
open Raft (RaftNode Payload Uuid)

/-! ## What the others send

A `SET` for each key that the ring gives to the new node, and `SYNCDONE` at the end, on the same
connection. -/

/-- The messages of `message_queue`, each with its descriptor. -/
abbrev Outbox := List (Bytes × Int)

namespace Handler

/-- The `SET` for a pair of the store. -/
def migrateText (key : Bytes) (value : RespValue) : Bytes :=
  ascii "*3\r\n+SET\r\n+" ++ key ++ crlf ++ encode value

def syncDoneText (uuid : Uuid) : Bytes :=
  ascii "*2\r\n+SYNCDONE\r\n+" ++ toString uuid.toNat ++ crlf

end Handler

namespace ServerState

/-- What `sendDataToNode` does for one pair. -/
def migrate (s : ServerState) (target : Uuid) (fd : Int) (pair : Bytes × RespValue) :
    Method Fault Outbox Unit := do
  if (← Method.lift (s.cluster.queryNode pair.1)) = target then
    modify fun out => out ++ [(Handler.migrateText pair.1 pair.2, fd)]

def sendDataToNode (s : ServerState) (target : Uuid) : Method Fault Outbox Unit := do
  let fd := s.cluster.getConnection target
  if fd = -1 then return
  forM s.kvstore.forEach (s.migrate target fd)
  modify fun out => out ++ [(Handler.syncDoneText s.cluster.selfNode.uuid, fd)]

/-- The pairs it enumerates with `target` as the owner of the key. -/
def enumerated (s : ServerState) (target : Uuid) : List (Bytes × RespValue) :=
  if s.cluster.getConnection target = -1 then []
  else s.kvstore.forEach.filter fun pair => (s.cluster.queryNode pair.1).toOption = some target

theorem mem_enumerated {s : ServerState} {m : Bytes → Option RespValue} (h : s.kvstore.Contents m)
    {target : Uuid} (hfd : s.cluster.getConnection target ≠ -1) {key : Bytes} {value : RespValue} :
    (key, value) ∈ s.enumerated target ↔
      m key = some value ∧ s.cluster.queryNode key = .ok target := by
  rw [enumerated, if_neg hfd, List.mem_filter, KVStore.mem_forEach h]
  refine and_congr_right fun _ => ?_
  cases s.cluster.queryNode key <;> simp [Except.toOption]

theorem call_migrate {s : ServerState} {target owner : Uuid} {pair : Bytes × RespValue}
    (howner : s.cluster.queryNode pair.1 = .ok owner) (fd : Int) (out : Outbox) :
    (s.migrate target fd pair).call out = (.ok (), out ++
      if owner = target then [(Handler.migrateText pair.1 pair.2, fd)] else []) := by
  unfold migrate
  rw [howner, Method.call_bind_ok (Method.call_lift _ out)]
  by_cases heq : owner = target
  · rw [if_pos heq, if_pos heq, Method.call_modify]
  · rw [if_neg heq, if_neg heq, Method.call_pure, List.append_nil]

/-- The `SET`s, one for each pair that belongs to the new node. -/
theorem call_migrateAll {s : ServerState} {target : Uuid} {fd : Int} :
    ∀ (pairs : List (Bytes × RespValue)) (out : Outbox),
      (∀ pair ∈ pairs, ∃ owner, s.cluster.queryNode pair.1 = .ok owner) →
      (forM pairs (s.migrate target fd)).call out = (.ok (), out ++
        (pairs.filter fun pair => (s.cluster.queryNode pair.1).toOption = some target).map
          fun pair => (Handler.migrateText pair.1 pair.2, fd)) := by
  intro pairs
  induction pairs with
  | nil =>
    intro out _
    rw [List.filter_nil, List.map_nil, List.append_nil]
    rfl
  | cons pair pairs ih =>
    intro out hring
    obtain ⟨owner, howner⟩ := hring pair List.mem_cons_self
    rw [List.forM_cons, Method.call_bind_ok (call_migrate howner fd out),
      ih _ fun pair hin => hring pair (List.mem_cons_of_mem _ hin), List.append_assoc]
    by_cases heq : owner = target
    · simp [heq, howner, Except.toOption]
    · simp [heq, howner, Except.toOption]

/-- A node with a ring sends what it enumerates, and then `SYNCDONE`. -/
theorem call_sendDataToNode {s : ServerState} {target : Uuid} {fd : Int}
    (hfd : s.cluster.getConnection target = fd) (hconnected : fd ≠ -1)
    (hring : ∀ key, ∃ owner, s.cluster.queryNode key = .ok owner) (out : Outbox) :
    (s.sendDataToNode target).call out = (.ok (), out ++
      (s.enumerated target).map (fun pair => (Handler.migrateText pair.1 pair.2, fd)) ++
      [(Handler.syncDoneText s.cluster.selfNode.uuid, fd)]) := by
  unfold sendDataToNode enumerated
  simp only [hfd, if_neg hconnected]
  rw [Method.call_bind_ok (call_migrateAll _ out fun pair _ => hring pair.1), Method.call_modify]

end ServerState

/-! ## The new node -/

/-- What the main loop and the handlers of the other commands of nodes reach. -/
structure Surroundings where
  cluster : Cluster
  raftGroups : List (Nat × RaftNode)
  masterToGroup : List (Uuid × Nat)
  messageQueue : List (Payload × Int)
  groupMembers : List (Nat × List Uuid)

namespace Host

def surroundings (h : Host) : Surroundings :=
  ⟨h.server.cluster, h.server.raftGroups, h.server.masterToGroup, h.server.messageQueue,
    h.groupMembers⟩

def within (around : Surroundings) (h : Host) : Host :=
  { h with
    server := { h.server with
      cluster := around.cluster
      raftGroups := around.raftGroups
      masterToGroup := around.masterToGroup
      messageQueue := around.messageQueue }
    groupMembers := around.groupMembers }

end Host

/-- The handlers of the commands of nodes other than `SYNCDONE`. -/
abbrev PeerHandlers := RespValue → Int → Method Fault Surroundings Bytes

def PeerHandlers.onHost (peer : PeerHandlers) (request : RespValue) (fd : Int) : HostM Bytes :=
  Method.part Host.surroundings Host.within (peer request fd)

/-- A node that is there already. -/
structure Existing where
  server : ServerState
  /-- The new node's descriptor of the connection to it. -/
  fd : Int

/-- What it sends to the node `target`. -/
def Existing.sent (node : Existing) (target : Uuid) : Bytes :=
  (((node.server.sendDataToNode target).call []).2.map Prod.fst).flatten

namespace Newcomer

/-- A connection: what was sent on it and is not read yet, and the parser of what was. -/
structure Incoming where
  fd : Int
  unread : Bytes
  parser : RespParser := {}

/-- How far a worker has come. -/
inductive Handling where
  | handler (p : Progress)
  /-- `onSyncDone` has taken the counter to zero, and not yet cleared the flag. -/
  | clearing

structure Worker where
  fd : Int
  request : RespValue
  handling : Handling := .handler .fresh

end Newcomer

structure Newcomer where
  host : Host
  pendingSyncNodes : Int32 := 0
  incoming : List Newcomer.Incoming
  /-- `run` is in its loop. -/
  looping : Bool := true
  threads : Nat := threadCount
  /-- The queue of the thread pool. -/
  tasks : List (Int × RespValue) := []
  running : List Newcomer.Worker := []
  /-- What `handleCommand` has put on `message_queue`. -/
  answered : Outbox := []
  /-- The committed commands the main loop has applied. Nothing reads it. -/
  applied : List Bytes := []

namespace Newcomer

inductive Event where
  /-- The main loop reads up to `n` bytes from connection `i`. -/
  | read (i n : Nat)
  /-- An idle worker takes the next command. -/
  | take
  /-- Worker `i` takes its next step. -/
  | advance (i : Nat) (due : Bool)
  /-- The main loop applies a command that Raft has committed. -/
  | apply (command : Bytes)
  /-- Anything else that the main loop and the other threads do. -/
  | other (f : Surroundings → Surroundings)

/-- An exception of the parser leaves the loop. -/
def read (s : Newcomer) (i n : Nat) : Newcomer :=
  match s.incoming[i]? with
  | none => s
  | some c =>
    if s.looping then
      match c.parser.append (c.unread.take n) with
      | .ok p =>
        let c' := { c with unread := c.unread.drop n, parser := { p with messageQueue := [] } }
        { s with incoming := s.incoming.set i c'
                 tasks := s.tasks ++ p.messageQueue.map (c.fd, ·) }
      | .error _ => { s with looping := false }
    else s

def take (s : Newcomer) : Newcomer :=
  match s.tasks with
  | [] => s
  | (fd, request) :: tasks =>
    if s.running.length < s.threads then { s with tasks, running := s.running ++ [{ fd, request }] }
    else s

/-- The worker is idle again. -/
def idle (s : Newcomer) (i : Nat) : Newcomer := { s with running := s.running.eraseIdx i }

/-- `SYNCDONE` up to `fetch_sub`. -/
def syncDone (s : Newcomer) (i : Nat) (r : Worker) : Newcomer :=
  match r.request with
  | .array (some (_ :: _ :: _)) =>
    let s' := { s with pendingSyncNodes := s.pendingSyncNodes - 1 }
    if s.pendingSyncNodes = 1 then
      { s' with running := s.running.set i { r with handling := .clearing } }
    else s'.idle i
  | _ => s.idle i

/-- A step of a handler. What it throws ends its task. -/
def work (s : Newcomer) (i : Nat) (r : Worker) (m : HostM Progress) : Newcomer :=
  match m.call s.host with
  | (.ok p, host) => { s with host, running := s.running.set i { r with handling := .handler p } }
  | (.error _, host) => { s with host, running := s.running.eraseIdx i }

/-- The end of `handleCommand`. -/
def reply (s : Newcomer) (i : Nat) (fd : Int) (text : Bytes) : Newcomer :=
  { s.idle i with answered := if text.isEmpty then s.answered else s.answered ++ [(text, fd)] }

/-- `syncing.store(false)`. -/
def clear (s : Newcomer) (i : Nat) : Newcomer :=
  { s.idle i with host := { s.host with syncing := false } }

def IsSyncDone (request : RespValue) : Prop := nameOf request = some (ascii "SYNCDONE")

instance : DecidablePred IsSyncDone := fun request =>
  inferInstanceAs (Decidable (nameOf request = some _))

def advance (peer : PeerHandlers) (s : Newcomer) (i : Nat) (due : Bool) : Newcomer :=
  match s.running[i]? with
  | none => s
  | some r =>
    match r.handling with
    | .clearing => s.clear i
    | .handler (.reply text) => s.reply i r.fd text
    | .handler .fresh =>
      if IsSyncDone r.request then s.syncDone i r
      else s.work i r (Handler.enter peer.onHost r.request r.fd)
    | .handler p => s.work i r (onServer (p.next due))

/-- What the handler throws leaves the loop. -/
def apply (s : Newcomer) (command : Bytes) : Newcomer :=
  if s.looping then
    let (r, server) := (Handler.handleNoAOF (makeCommand command)).call s.host.server
    { s with host := { s.host with server }
             looping := r.isOk
             applied := s.applied ++ [command] }
  else s

def step (peer : PeerHandlers) (s : Newcomer) : Event → Newcomer
  | .read i n => s.read i n
  | .take => s.take
  | .advance i due => s.advance peer i due
  | .apply command => s.apply command
  | .other f => { s with host := s.host.within (f s.host.surroundings) }

def markSyncing (s : Newcomer) (expectedNodes : Nat) : Newcomer :=
  { s with pendingSyncNodes := Int32.ofNat expectedNodes
           host := { s.host with syncing := true } }

/-- The new node after `joinCluster`, connected to the nodes, and to others that send what they
like. -/
def joined (host : Host) (nodes : List Existing) (others : List Incoming) : Newcomer :=
  markSyncing
    { host
      incoming := nodes.map (fun node => { fd := node.fd
                                           unread := node.sent host.server.cluster.selfNode.uuid })
        ++ others }
    nodes.length

/-! ## What the store is made of -/

/-- A server on which only these commands are applied. -/
def replayed (s : ServerState) (commands : List Bytes) : ServerState :=
  commands.foldl (fun s command => ((Handler.handleNoAOF (makeCommand command)).call s).2) s

theorem replayed_concat (s : ServerState) (commands : List Bytes) (command : Bytes) :
    replayed s (commands ++ [command])
      = ((Handler.handleNoAOF (makeCommand command)).call (replayed s commands)).2 := by
  rw [replayed, List.foldl_append]
  rfl

end Newcomer

/-- A method that touches nothing but the store. -/
def StoreOnly {α : Type} (m : ServerM α) : Prop := ∃ f, m = onKVStore f

namespace StoreOnly

variable {α β : Type}

theorem lift (x : Except Fault α) : StoreOnly (Method.lift x) :=
  ⟨Method.lift x, (Method.part_lift (fun _ => rfl) x).symm⟩

theorem pure (a : α) : StoreOnly (pure a) := lift (.ok a)

theorem throw (e : Fault) : StoreOnly (throw e : ServerM α) := lift (.error e)

theorem onKVStore (f : Method Fault (KVStore RespValue) α) : StoreOnly (onKVStore f) := ⟨f, rfl⟩

theorem bind {m : ServerM α} {f : α → ServerM β} (hm : StoreOnly m) (hf : ∀ a, StoreOnly (f a)) :
    StoreOnly (m >>= f) := by
  obtain ⟨first, rfl⟩ := hm
  choose rest hrest using hf
  obtain rfl : f = fun a => Server.onKVStore (rest a) := funext hrest
  have hget : ∀ (kv : KVStore RespValue) (s : ServerState),
      ServerState.kvstore { s with kvstore := kv } = kv := fun _ _ => rfl
  exact ⟨first >>= rest, Method.part_bind hget (fun _ _ _ => rfl) first rest⟩

theorem ite {p : Prop} [Decidable p] {m m' : ServerM α} (h : StoreOnly m) (h' : StoreOnly m') :
    StoreOnly (if p then m else m') := by
  split
  · exact h
  · exact h'

/-- Its outcome depends on the store alone. -/
theorem kvstore_eq {m : ServerM α} (h : StoreOnly m) {s s' : ServerState}
    (hs : s.kvstore = s'.kvstore) : (m.call s).2.kvstore = (m.call s').2.kvstore := by
  obtain ⟨f, rfl⟩ := h
  show (f.call s.kvstore).2 = (f.call s'.kvstore).2
  rw [hs]

end StoreOnly

namespace Handler

/-- The shape of all handlers of data commands: checks of the arguments around one call. -/
theorem storeOnly_GET (request : RespValue) : StoreOnly (GET request) := by
  unfold GET
  refine .bind (.lift _) fun elements => ?_
  split
  · exact .throw _
  · refine .bind (.lift _) fun key => ?_
    split
    · refine .bind (.onKVStore _) fun result => ?_
      split
      · exact .pure _
      · exact .pure _
    · exact .throw _

theorem storeOnly_EXIST (request : RespValue) : StoreOnly (EXIST request) := by
  unfold EXIST
  refine .bind (.lift _) fun elements => ?_
  split
  · exact .throw _
  · refine .bind (.lift _) fun key => ?_
    split
    · exact .bind (.onKVStore _) fun ret => .pure _
    · exact .throw _

theorem storeOnly_SETNoAOF (request : RespValue) : StoreOnly (SETNoAOF request) := by
  unfold SETNoAOF
  refine .bind (.lift _) fun elements => ?_
  split
  · exact .throw _
  · refine .bind (.lift _) fun key => .bind (.lift _) fun value => ?_
    split
    · exact .bind (.onKVStore _) fun deleted => .pure _
    · exact .throw _

theorem storeOnly_DELNoAOF (request : RespValue) : StoreOnly (DELNoAOF request) := by
  unfold DELNoAOF
  refine .bind (.lift _) fun elements => ?_
  split
  · exact .throw _
  · refine .bind (.lift _) fun key => ?_
    split
    · exact .bind (.onKVStore _) fun ret => .pure _
    · exact .throw _

theorem storeOnly_handleNoAOF (request : RespValue) : StoreOnly (handleNoAOF request) := by
  unfold handleNoAOF
  split
  · exact .throw _
  · exact .throw _
  · refine .ite (storeOnly_GET _) (.ite (storeOnly_SETNoAOF _) ?_)
    exact .ite (storeOnly_DELNoAOF _) (.ite (storeOnly_EXIST _) (.throw _))
  · exact .throw _
  · exact .throw _

end Handler

/-! ## The gate

It stands in `handle`, and lets the commands of nodes through by their names; a migrating `SET` has
no name of its own. -/

/-- A method that leaves the flag alone. -/
def KeepsFlag {α : Type} (m : HostM α) : Prop := ∀ h, (m.call h).2.syncing = h.syncing

namespace KeepsFlag

variable {α β : Type}

theorem pure (a : α) : KeepsFlag (pure a) := fun _ => rfl

theorem throw (e : Fault) : KeepsFlag (throw e : HostM α) := fun _ => rfl

theorem get : KeepsFlag (get : HostM Host) := fun _ => rfl

theorem onServer (m : ServerM α) : KeepsFlag (onServer m) := fun _ => rfl

theorem peer (peer : PeerHandlers) (request : RespValue) (fd : Int) :
    KeepsFlag (peer.onHost request fd) := fun _ => rfl

theorem bind {m : HostM α} {f : α → HostM β} (hm : KeepsFlag m) (hf : ∀ a, KeepsFlag (f a)) :
    KeepsFlag (m >>= f) := by
  intro h
  cases hcall : m.call h with
  | mk r h' =>
    have hfirst : h'.syncing = h.syncing := by rw [← hm h, hcall]
    cases r with
    | ok a => rw [Method.call_bind_ok hcall, hf a h', hfirst]
    | error e => rw [Method.call_bind_error hcall, hfirst]

theorem ite {p : Prop} [Decidable p] {m m' : HostM α} (h : KeepsFlag m) (h' : KeepsFlag m') :
    KeepsFlag (if p then m else m') := by
  split
  · exact h
  · exact h'

theorem enter (peer : PeerHandlers) (request : RespValue) (fd : Int) :
    KeepsFlag (Handler.enter peer.onHost request fd) := by
  unfold Handler.enter Handler.dispatch
  split
  · exact .throw _
  · exact .throw _
  · refine .ite (.bind (.peer _ _ _) fun text => .pure _) (.bind .get fun h => .ite (.pure _) ?_)
    refine .ite (.bind (.onServer _) fun text => .pure _) (.ite (.onServer _) ?_)
    refine .ite (.onServer _) (.ite (.bind (.onServer _) fun text => .pure _) ?_)
    exact .ite (.bind .get fun h => .pure _) (.throw _)
  · exact .throw _
  · exact .ite (.pure _) (.throw _)
  · exact .throw _

end KeepsFlag

namespace Handler

/-- **Nothing passes the gate** while the node is syncing: whatever the command, its first step
leaves the store alone and, if it returns, comes to the reply.

The flag is asked before the command's own handler is called, and the names of the data commands are
the only ones whose handlers reach the store. -/
theorem enter_syncing (peer : PeerHandlers) (request : RespValue) (fd : Int) {h : Host}
    (hsyncing : h.syncing = true) :
    ∃ r h', (enter peer.onHost request fd).call h = (r, h') ∧
      h'.server.kvstore = h.server.kvstore ∧ ∀ p, r = .ok p → ∃ text, p = .reply text := by
  unfold enter dispatch
  split
  · exact ⟨_, h, rfl, rfl, by simp⟩
  · exact ⟨_, h, rfl, rfl, by simp⟩
  · rename_i command args
    by_cases hpeer : command ∈ peerCommands
    · rw [if_pos hpeer]
      have hcall := Method.call_part Host.surroundings Host.within
        (peer (.array (some (.simpleString command :: args))) fd) h
      cases hr : ((peer (.array (some (.simpleString command :: args))) fd).call h.surroundings).1 with
      | ok text =>
        rw [hr] at hcall
        exact ⟨_, _, Method.call_bind_ok hcall _, rfl, fun p hp => ⟨text, by simpa using hp.symm⟩⟩
      | error e =>
        rw [hr] at hcall
        exact ⟨_, _, Method.call_bind_error hcall _, rfl, by simp⟩
    rw [if_neg hpeer, Method.call_bind_ok (Method.call_get h)]
    by_cases hdata : command ∈ dataCommands
    · rw [if_pos (by simp [hsyncing, hdata])]
      exact ⟨_, h, rfl, rfl, fun p hp => ⟨loadingReply, by simpa using hp.symm⟩⟩
    rw [if_neg (by simp [hdata])]
    have hnames : command ≠ ascii "GET" ∧ command ≠ ascii "SET" ∧ command ≠ ascii "DEL" ∧
        command ≠ ascii "EXIST" := by
      refine ⟨?_, ?_, ?_, ?_⟩ <;> rintro rfl <;> exact hdata (by decide)
    rw [if_neg hnames.1, if_neg hnames.2.1, if_neg hnames.2.2.1, if_neg hnames.2.2.2]
    by_cases hnetwork : command = ascii "GETNETWORK"
    · rw [if_pos hnetwork]
      exact ⟨_, h, rfl, rfl, fun p hp => ⟨GETNETWORK h, by simpa using hp.symm⟩⟩
    · rw [if_neg hnetwork]
      exact ⟨_, h, rfl, rfl, by simp⟩
  · exact ⟨_, h, rfl, rfl, by simp⟩
  · rename_i text
    by_cases hok : text = ascii "OK"
    · rw [if_pos hok]
      exact ⟨_, h, rfl, rfl, fun p hp => ⟨[], by simpa using hp.symm⟩⟩
    · rw [if_neg hok]
      exact ⟨_, h, rfl, rfl, by simp⟩
  · exact ⟨_, h, rfl, rfl, by simp⟩

end Handler

namespace Newcomer

/-- The worker has not passed the gate. -/
def Held : Handling → Prop
  | .clearing | .handler .fresh | .handler (.reply _) => True
  | .handler (.push _) | .handler (.log _) | .handler (.store _) => False

/-- The store is what the applied commands have made of it, and while the node is syncing no
worker is past the gate. -/
structure Waiting (start : ServerState) (s : Newcomer) : Prop where
  store : s.host.server.kvstore = (replayed start s.applied).kvstore
  held : s.host.syncing = true → ∀ r ∈ s.running, Held r.handling

section Steps

variable {peer : PeerHandlers} {start : ServerState} {s : Newcomer}

/-- A step of a handler that leaves the flag alone. -/
theorem syncing_work {i : Nat} {r : Worker} {m : HostM Progress} (h : KeepsFlag m) :
    (s.work i r m).host.syncing = s.host.syncing := by
  unfold work
  have hflag := h s.host
  cases hcall : m.call s.host with
  | mk result host =>
    rw [hcall] at hflag
    cases result with
    | ok p => exact hflag
    | error e => exact hflag

/-- The flag changes only when a worker clears it, and nothing else changes then. -/
theorem advance_flag (i : Nat) (due : Bool) :
    (s.advance peer i due).host.syncing = s.host.syncing ∨
      s.advance peer i due = s.clear i := by
  unfold advance
  cases hr : s.running[i]? with
  | none => exact Or.inl rfl
  | some r =>
    cases hhandling : r.handling with
    | clearing => exact Or.inr (by simp only [hhandling])
    | handler p =>
      left
      cases p with
      | reply text => simp only [hhandling]; rfl
      | fresh =>
        simp only [hhandling]
        split
        · unfold syncDone
          split
          · dsimp only
            split <;> rfl
          · rfl
        · exact syncing_work (.enter _ _ _)
      | push w => simp only [hhandling]; exact syncing_work (.onServer _)
      | log w => simp only [hhandling]; exact syncing_work (.onServer _)
      | store w => simp only [hhandling]; exact syncing_work (.onServer _)

theorem read_host (i n : Nat) : (s.read i n).host = s.host ∧ (s.read i n).running = s.running ∧
    (s.read i n).applied = s.applied := by
  unfold read
  split
  · exact ⟨rfl, rfl, rfl⟩
  · split
    · split
      · exact ⟨rfl, rfl, rfl⟩
      · exact ⟨rfl, rfl, rfl⟩
    · exact ⟨rfl, rfl, rfl⟩

theorem take_host : s.take.host = s.host ∧ s.take.applied = s.applied := by
  unfold take
  split
  · exact ⟨rfl, rfl⟩
  · split
    · exact ⟨rfl, rfl⟩
    · exact ⟨rfl, rfl⟩

theorem step_flag (peer : PeerHandlers) (s : Newcomer) (e : Event) :
    (step peer s e).host.syncing = s.host.syncing ∨ ∃ i, step peer s e = s.clear i := by
  cases e with
  | read i n => exact Or.inl (by rw [step, (read_host i n).1])
  | take => exact Or.inl (by rw [step, take_host.1])
  | advance i due => exact (advance_flag i due).imp_right fun h => ⟨i, h⟩
  | apply command =>
    left
    rw [step, apply]
    split <;> rfl
  | other f => exact Or.inl rfl

/-- The flag never goes up again. -/
theorem syncing_of_step {e : Event} (h : (step peer s e).host.syncing = true) :
    s.host.syncing = true := by
  rcases step_flag peer s e with hflag | ⟨i, hclear⟩
  · exact hflag ▸ h
  · rw [hclear] at h
    exact absurd h Bool.false_ne_true

/-- A step of a handler that stays in front of the gate. -/
theorem Waiting.work (h : s.Waiting start) (hup : s.host.syncing = true) {i : Nat} {r : Worker}
    {m : HostM Progress} {result : Except Fault Progress} {host : Host}
    (hcall : m.call s.host = (result, host)) (hstore : host.server.kvstore = s.host.server.kvstore)
    (hheld : ∀ p, result = .ok p → Held (.handler p)) : (s.work i r m).Waiting start := by
  unfold Newcomer.work
  rw [hcall]
  cases result with
  | ok p =>
    refine ⟨hstore.trans h.store, fun _ r' hr' => ?_⟩
    rcases List.mem_or_eq_of_mem_set hr' with hold | rfl
    · exact h.held hup r' hold
    · exact hheld p rfl
  | error e =>
    exact ⟨hstore.trans h.store, fun _ r' hr' => h.held hup r' (List.mem_of_mem_eraseIdx hr')⟩

theorem Waiting.idle (h : s.Waiting start) (i : Nat) : (s.idle i).Waiting start where
  store := h.store
  held := fun hup r hr => h.held hup r (List.mem_of_mem_eraseIdx hr)

theorem Waiting.advance (h : s.Waiting start) (hup : s.host.syncing = true) (i : Nat)
    (due : Bool) : (s.advance peer i due).Waiting start := by
  unfold Newcomer.advance
  cases hr : s.running[i]? with
  | none => exact h
  | some r =>
    have hheld := h.held hup r (List.mem_of_getElem? hr)
    cases hhandling : r.handling with
    | clearing =>
      simp only [hhandling]
      exact ⟨h.store, fun hflag => absurd hflag Bool.false_ne_true⟩
    | handler p =>
      rw [hhandling] at hheld
      cases p with
      | push w | log w | store w => exact absurd hheld id
      | reply text =>
        simp only [hhandling]
        exact ⟨h.store, (h.idle i).held⟩
      | fresh =>
        simp only [hhandling]
        split
        · unfold syncDone
          split
          · dsimp only
            split
            · refine ⟨h.store, fun _ r' hr' => ?_⟩
              rcases List.mem_or_eq_of_mem_set hr' with hold | rfl
              · exact h.held hup r' hold
              · trivial
            · exact ⟨h.store, (h.idle i).held⟩
          · exact h.idle i
        · obtain ⟨result, host, hcall, hstore, hreply⟩ :=
            Handler.enter_syncing peer r.request r.fd hup
          refine h.work hup hcall hstore fun p hp => ?_
          obtain ⟨text, rfl⟩ := hreply p hp
          trivial

theorem Waiting.step (h : s.Waiting start) (hup : s.host.syncing = true) (e : Event) :
    (Newcomer.step peer s e).Waiting start := by
  cases e with
  | read i n =>
    obtain ⟨hhost, hrunning, happlied⟩ := read_host (s := s) i n
    exact ⟨by rw [Newcomer.step, hhost, happlied, h.store],
      fun _ => by rw [Newcomer.step, hrunning]; exact h.held hup⟩
  | take =>
    refine ⟨by rw [Newcomer.step, take_host.1, take_host.2, h.store], fun _ r hr => ?_⟩
    rw [Newcomer.step, take] at hr
    split at hr
    · exact h.held hup r hr
    · split at hr
      · rcases List.mem_append.mp hr with hold | hnew
        · exact h.held hup r hold
        · rw [List.mem_singleton.mp hnew]
          trivial
      · exact h.held hup r hr
  | advance i due => exact h.advance hup i due
  | apply command =>
    rw [Newcomer.step, apply]
    split
    · refine ⟨?_, fun _ => h.held hup⟩
      show (Method.call _ s.host.server).2.kvstore = _
      rw [replayed_concat]
      exact (Handler.storeOnly_handleNoAOF _).kvstore_eq h.store
    · exact h
  | other f => exact ⟨h.store, fun _ => h.held hup⟩

/-- As long as the flag is up it has always been up. -/
theorem along_syncing : ∀ {es : List Event} {s : Newcomer},
    (exec (step peer) s es).host.syncing = true →
      Along (step peer) (fun s _ => s.host.syncing = true) s es ∧ s.host.syncing = true := by
  intro es
  induction es with
  | nil => intro s h; exact ⟨trivial, h⟩
  | cons e es ih =>
    intro s h
    obtain ⟨hrest, hnext⟩ := ih h
    exact ⟨⟨syncing_of_step hnext, hrest⟩, syncing_of_step hnext⟩

end Steps

theorem waiting_joined (host : Host) (nodes : List Existing) (others : List Incoming) :
    (joined host nodes others).Waiting host.server where
  store := rfl
  held := fun _ _ hr => absurd hr List.not_mem_nil

/-- The store of a node whose flag has just been cleared. -/
theorem store_of_turned (peer : PeerHandlers) (host : Host) (nodes : List Existing)
    (others : List Incoming) {es : List Event} {e : Event}
    (hup : (exec (step peer) (joined host nodes others) es).host.syncing = true)
    (hturned : (exec (step peer) (joined host nodes others) (es ++ [e])).host.syncing = false) :
    (exec (step peer) (joined host nodes others) (es ++ [e])).host.server.kvstore
      = (replayed host.server (exec (step peer) (joined host nodes others) es).applied).kvstore := by
  have hwaiting : (exec (step peer) (joined host nodes others) es).Waiting host.server :=
    (along_syncing hup).1.invariant (fun s e hs hi => hi.step hs e)
      (waiting_joined host nodes others)
  rw [exec_append, exec_cons, exec_nil] at hturned ⊢
  rcases step_flag peer (exec (step peer) (joined host nodes others) es) e with
    hflag | ⟨i, hclear⟩
  · rw [hflag, hup] at hturned
    exact absurd hturned Bool.true_eq_false_eq_False
  · rw [hclear]
    exact hwaiting.store

end Newcomer

/-- Every pair that one of the nodes enumerates for `target` is in the store. -/
def Complete (nodes : List Existing) (target : Uuid) (kv : KVStore RespValue) : Prop :=
  ∀ node ∈ nodes, ∀ pair ∈ node.server.enumerated target, kv.lookup pair.1 = .ok (some pair.2)

namespace Newcomer

/-- **The migration is complete** when the flag turns false exactly if it was not needed: what the
node had when it started to sync, and what it has applied of Raft's commands since, already had
every key with the value that was sent.

While the flag is up `Handler::handle` refuses every `SET`, those of the nodes included, and the
flag only turns when the last node has sent all it had. So of what was sent nothing is stored, and
whether the node has it depends on what it had before and on what Raft applies. -/
theorem migration_complete_iff (peer : PeerHandlers) (host : Host) (nodes : List Existing)
    (others : List Incoming) (es : List Event) (e : Event)
    (hup : (exec (step peer) (joined host nodes others) es).host.syncing = true)
    (hturned : (exec (step peer) (joined host nodes others) (es ++ [e])).host.syncing = false) :
    Complete nodes host.server.cluster.selfNode.uuid
        (exec (step peer) (joined host nodes others) (es ++ [e])).host.server.kvstore ↔
      Complete nodes host.server.cluster.selfNode.uuid
        (replayed host.server (exec (step peer) (joined host nodes others) es).applied).kvstore := by
  rw [store_of_turned peer host nodes others hup hturned]

/-- A store that was given one key. -/
def oneKey : KVStore RespValue := ((KVStore.set (ascii "a") (.integer 1)).call {}).2

theorem contents_oneKey : oneKey.Contents
    (Function.update (fun _ => none) (ascii "a") (some (.integer 1))) := by
  obtain ⟨r, kv, hset, hcontents, -⟩ := KVStore.set_new (ascii "a") (RespValue.integer 1)
  unfold oneKey
  rw [hset]
  exact hcontents

/-- Node 0 has it, and the ring gives the key to node 1. -/
def nodeZero : Existing where
  server :=
    { kvstore := oneKey
      cluster :=
        { Cluster.addNodeToHash
            (Cluster.addNodeToHash { selfNode := ⟨ascii "127.0.0.1", 7800, 0⟩ } 0) 1 with
          connections := [(1, 5)] } }
  fd := 7

theorem enumerated_nodeZero {key : Bytes} {value : RespValue} :
    (key, value) ∈ nodeZero.server.enumerated 1 ↔ key = ascii "a" ∧ value = .integer 1 := by
  have howner : (nodeZero.server.cluster.queryNode (ascii "a")).toOption = some 1 := by
    decide +kernel
  have hquery : nodeZero.server.cluster.queryNode (ascii "a") = .ok 1 := by
    cases h : nodeZero.server.cluster.queryNode (ascii "a") with
    | error e => exact absurd (h ▸ howner) (by simp [Except.toOption])
    | ok owner => exact congrArg Except.ok (by simpa [h, Except.toOption] using howner)
  rw [ServerState.mem_enumerated (s := nodeZero.server) contents_oneKey (by decide)]
  constructor
  · rintro ⟨hkey, -⟩
    by_cases heq : key = ascii "a"
    · subst heq
      rw [Function.update_self] at hkey
      exact ⟨rfl, by simpa using hkey.symm⟩
    · rw [Function.update_of_ne heq] at hkey
      exact absurd hkey (by simp)
  · rintro ⟨rfl, rfl⟩
    exact ⟨Function.update_self .., hquery⟩

/-- Node 1, with this store. -/
def newHost (kvstore : KVStore RespValue) : Host :=
  { server := { kvstore, cluster := { selfNode := ⟨ascii "127.0.0.1", 7801, 1⟩ } } }

/-- Both messages are read and handled in the order in which they were sent. -/
def handleBoth : List Event :=
  [.read 0 64, .take, .take, .advance 0 false, .advance 0 false, .advance 0 false]

def silent : PeerHandlers := fun _ _ => pure []

theorem sent_nodeZero : nodeZero.sent 1
    = ascii "*3\r\n+SET\r\n+a\r\n:1\r\n*2\r\n+SYNCDONE\r\n+0\r\n" := by decide +kernel

/-- Node 1 with this store, and what node 0 has sent on its way. -/
def newNode (kvstore : KVStore RespValue) : Newcomer where
  host := { newHost kvstore with syncing := true }
  pendingSyncNodes := 1
  incoming := [⟨7, ascii "*3\r\n+SET\r\n+a\r\n:1\r\n*2\r\n+SYNCDONE\r\n+0\r\n", {}⟩]

theorem joined_nodeZero (kvstore : KVStore RespValue) :
    joined (newHost kvstore) [nodeZero] [] = newNode kvstore := by
  simp only [joined, newHost, List.map_cons, List.map_nil, sent_nodeZero]
  rfl

theorem syncing_handleBoth :
    (exec (step silent) (newNode {}) handleBoth).host.syncing = true ∧
    (exec (step silent) (newNode oneKey) handleBoth).host.syncing = true := by
  decide +kernel

theorem turned_handleBoth :
    (exec (step silent) (newNode {}) (handleBoth ++ [.advance 0 false])).host.syncing = false ∧
    (exec (step silent) (newNode oneKey) (handleBoth ++ [.advance 0 false])).host.syncing = false := by
  decide +kernel

theorem applied_handleBoth :
    (exec (step silent) (newNode {}) handleBoth).applied = [] ∧
    (exec (step silent) (newNode oneKey) handleBoth).applied = [] := by
  decide +kernel

/-- A node that has the key already. -/
theorem migration_complete_oneKey :
    Complete [nodeZero] 1 (exec (step silent) (joined (newHost oneKey) [nodeZero] [])
      (handleBoth ++ [.advance 0 false])).host.server.kvstore := by
  refine (migration_complete_iff silent (newHost oneKey) [nodeZero] [] handleBoth
    (.advance 0 false) ?_ ?_).mpr ?_
  · rw [joined_nodeZero]
    exact syncing_handleBoth.2
  · rw [joined_nodeZero]
    exact turned_handleBoth.2
  · rw [joined_nodeZero, applied_handleBoth.2]
    intro node hnode pair hpair
    rw [List.mem_singleton.mp hnode] at hpair
    obtain ⟨hkey, hvalue⟩ := enumerated_nodeZero.mp hpair
    rw [hkey, hvalue]
    exact KVStore.lookup_bound contents_oneKey (Function.update_self ..)

/-- A node that has not never gets it. -/
theorem oneKey_refused :
    (exec (step silent) (joined (newHost {}) [nodeZero] []) handleBoth).host.syncing = true ∧
    (exec (step silent) (joined (newHost {}) [nodeZero] [])
      (handleBoth ++ [.advance 0 false])).host.syncing = false ∧
    ¬ Complete [nodeZero] 1 (exec (step silent) (joined (newHost {}) [nodeZero] [])
      (handleBoth ++ [.advance 0 false])).host.server.kvstore := by
  rw [joined_nodeZero]
  refine ⟨syncing_handleBoth.1, turned_handleBoth.1, fun hcomplete => ?_⟩
  have hstore := @store_of_turned silent (newHost {}) [nodeZero] [] handleBoth (.advance 0 false)
    (by rw [joined_nodeZero]; exact syncing_handleBoth.1)
    (by rw [joined_nodeZero]; exact turned_handleBoth.1)
  rw [joined_nodeZero, applied_handleBoth.1] at hstore
  have hkey := hcomplete nodeZero (List.mem_singleton_self _) (ascii "a", .integer 1)
    (enumerated_nodeZero.mpr ⟨rfl, rfl⟩)
  rw [hstore] at hkey
  have hnone : (newHost {}).server.kvstore.lookup (ascii "a") = .ok none :=
    KVStore.lookup_room KVStore.contents_new (KVStore.room_new _)
  exact absurd (hnone.symm.trans hkey) (by simp)

end Newcomer

end Server
end KvJet
