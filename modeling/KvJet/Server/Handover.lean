import KvJet.Server.Shutdown

/-!
# A node hands over

The one that takes over reads the `NODEOUT` of a node that leaves before the `SET`s. But its workers
need not handle them in this order, and a `SET` that comes before the `NODEOUT` finds the old ring.
The `NODEOUT` names the node by an `int`. And what is read together with the end of the connection
is dropped.

`handover_keeps` says which keys arrive: those whose `SET` is handled while the ring of the heir
gives it the key. Where the number of the node survives the `int`, these are the `SET`s for keys
that were the heir's before, and those that are handled after the `NODEOUT` (`arrived_iff`).
-/

namespace KvJet
namespace Server

open Resp Store Run
open Raft (Uuid)

-- 160 points, which no proof here should compute
attribute [local irreducible] Cluster.delNodeToHash

/-- A server, and the connection on which another one leaves. -/
structure Heir where
  daemon : Daemon
  fd : Int
  /-- What has been sent and not been read. -/
  unread : Bytes
  parser : RespParser := {}
  /-- The main loop runs, and the connection is in its map. -/
  reading : Bool := true
  /-- Waiting for a worker, or with one that has not begun. -/
  pending : List RespValue := []
  /-- In the order in which the workers have handled them. -/
  handled : List RespValue := []

namespace Heir

inductive Event where
  /-- The main loop reads up to `n` bytes. -/
  | read (n : Nat)
  /-- It reads the rest and the end of the connection. -/
  | close
  /-- A worker handles one of the requests, in one step. -/
  | handle (i : Nat) (r : Reading)
  /-- A worker handles a request of another connection. -/
  | elsewhere (request : RespValue) (fd : Int) (r : Reading)
  /-- Whatever else the server does. -/
  | other (daemon : Daemon)

/-- An exception of the parser leaves the loop. -/
def read (s : Heir) (n : Nat) : Heir :=
  if s.reading then
    match s.parser.append (s.unread.take n) with
    | .ok p => { s with
        unread := s.unread.drop n
        parser := { p with messageQueue := [] }
        pending := s.pending ++ p.messageQueue }
    | .error _ => { s with reading := false }
  else s

/-- `recv` takes the connection out of the map, and the main loop does not find it there. -/
def close (s : Heir) : Heir :=
  { s with unread := [], reading := false }

/-- The `i`-th request is handled, and has made this of the server. -/
def finish (s : Heir) (i : Nat) (request : RespValue) (daemon : Daemon) : Heir :=
  { s with
    daemon
    pending := s.pending.eraseIdx i
    handled := s.handled ++ [request] }

/-- What the handler throws ends the task. -/
def handle (s : Heir) (i : Nat) (r : Reading) : Heir :=
  match s.pending[i]? with
  | none => s
  | some request => s.finish i request ((Daemon.handle request s.fd r).call s.daemon).2

def step (s : Heir) : Event → Heir
  | .read n => s.read n
  | .close => s.close
  | .handle i r => s.handle i r
  | .elsewhere request fd r =>
    { s with
      daemon := ((Daemon.handle request fd r).call s.daemon).2
      handled := s.handled ++ [request] }
  | .other daemon => { s with daemon }

/-- After these requests, the ring gives the key to `u`. -/
def Owns (gossip : UInt64) (d : Daemon) (u : Uuid) (handled : List RespValue) (key : Bytes) :
    Prop :=
  let goodbye := (Message.nodeOut gossip d.cluster.selfNode.uuid).request
  (goodbye ∈ handled →
      (d.cluster.delNodeToHash (asInt d.cluster.selfNode.uuid)).queryNode key = .ok u) ∧
    (goodbye ∉ handled → d.cluster.queryNode key = .ok u)

/-- The `SET` was handled at a moment when the heir took the key for its own. -/
def Arrived (gossip : UInt64) (d : Daemon) (u : Uuid) (s : Heir) (key : Bytes) (value : RespValue) :
    Prop :=
  ∃ before after, s.handled = before ++ (Write.set key value).request :: after ∧
    Owns gossip d u before key

/-- What else the server does is about other keys, other messages and not about its ring. -/
structure Aside (keys : List Bytes) (gossip : UInt64) (d d' : Daemon) : Prop where
  selfNode : d'.cluster.selfNode = d.cluster.selfNode
  nodeHash : d'.cluster.nodeHash = d.cluster.nodeHash
  syncing : d'.syncing = d.syncing
  gossip : d'.gossip.findGossip gossip = d.gossip.findGossip gossip
  kvstore : ∀ m, d.kvstore.Contents m →
    ∃ m', d'.kvstore.Contents m' ∧ ∀ key ∈ keys, m' key = m key

/-- The store has room for what is set, the `NODEOUT` may come from other nodes as well, and
everything else keeps out of the way. -/
def Calm (keys : List Bytes) (gossip : UInt64) (uuid : Uuid) (s : Heir) : Event → Prop
  | .read _ => True
  | .close => True
  | .handle i _ => ∀ key value, s.pending[i]? = some (Write.set key value).request →
      s.daemon.cluster.isMasterFor key = .ok true → s.daemon.kvstore.Room key
  | .elsewhere request _ _ => request = (Message.nodeOut gossip uuid).request
  | .other daemon => Aside keys gossip s.daemon daemon

/-! ## One request

At the heir. What the handlers need of it is its ring, its flag and its store, and what else happens
there leaves these alone. -/

theorem handle_eq {s : Heir} {i : Nat} {request : RespValue} (hi : s.pending[i]? = some request)
    (r : Reading) :
    s.handle i r = s.finish i request ((Daemon.handle request s.fd r).call s.daemon).2 := by
  unfold handle
  rw [hi]

theorem arrived_append {gossip : UInt64} {d : Daemon} {u : Uuid} {s s' : Heir}
    {request : RespValue} (h : s'.handled = s.handled ++ [request]) (key : Bytes)
    (value : RespValue) :
    s'.Arrived gossip d u key value ↔ s.Arrived gossip d u key value ∨
      ((Write.set key value).request = request ∧ Owns gossip d u s.handled key) := by
  unfold Arrived
  rw [h]
  constructor
  · rintro ⟨before, after, hsplit, howns⟩
    rcases List.eq_nil_or_concat after with rfl | ⟨after', last, rfl⟩
    · obtain ⟨rfl, hlast⟩ := List.append_inj' hsplit rfl
      exact Or.inr ⟨(List.singleton_inj.mp hlast).symm, howns⟩
    · rw [List.concat_eq_append, ← List.cons_append, ← List.append_assoc] at hsplit
      exact Or.inl ⟨before, after', (List.append_inj' hsplit rfl).1, howns⟩
  · rintro (⟨before, after, hsplit, howns⟩ | ⟨rfl, howns⟩)
    · exact ⟨before, after ++ [request], by rw [hsplit]; simp, howns⟩
    · exact ⟨s.handled, [], rfl, howns⟩

section Handlers

variable {d : Daemon} {key : Bytes} {value : RespValue}

theorem handle_set (hsyncing : d.syncing = false) (fd : Int) (r : Reading) :
    (Daemon.handle (Write.set key value).request fd r).call d
      = (Daemon.onServer ((Write.set key value).handle r.due)).call d := by
  show (Daemon.handleCommand (ascii "SET") (Write.set key value).request fd r).call d = _
  unfold Daemon.handleCommand
  -- none of the commands that `handle` asks for before
  rw [if_neg (by decide), if_neg (by decide), if_neg (by decide),
    Method.call_bind_ok (Method.call_get d), hsyncing, if_neg (by simp), if_neg (by decide),
    if_pos rfl]
  rfl

/-- A `SET` on the owner of its key is stored. -/
theorem handle_set_owner (hsyncing : d.syncing = false) (fd : Int) (r : Reading)
    (hmaster : d.cluster.isMasterFor key = .ok true) (hvalue : value ≠ .bulkString none)
    {m : Bytes → Option RespValue} (hm : d.kvstore.Contents m) (hroom : d.kvstore.Room key) :
    let d' := ((Daemon.handle (Write.set key value).request fd r).call d).2
    d'.kvstore.Contents (Function.update m key (some value)) ∧ d'.cluster = d.cluster ∧
      d'.gossip = d.gossip ∧ d'.syncing = d.syncing := by
  obtain ⟨s', hcall, hstore, -, hcluster⟩ :=
    call_set (s := d.server) key value hmaster hvalue r.due
  obtain ⟨old, kv, hkv, hcontents⟩ := KVStore.set_contents hm value hroom
  rw [handle_set hsyncing fd r, Daemon.call_onServer, hcall]
  refine ⟨?_, hcluster, rfl, rfl⟩
  show s'.kvstore.Contents _
  rw [hstore, show d.server.kvstore = d.kvstore from rfl, hkv]
  exact hcontents

/-- On another node it changes nothing. -/
theorem handle_set_other (hsyncing : d.syncing = false) (fd : Int) (r : Reading)
    (hmaster : d.cluster.isMasterFor key ≠ .ok true) :
    ((Daemon.handle (Write.set key value).request fd r).call d).2 = d := by
  rw [handle_set hsyncing fd r, Daemon.call_onServer]
  rcases write_cases (.set key value) r.due d.server with
    ⟨-, what, hcall⟩ | ⟨-, -, reply, hcall⟩ | ⟨-, howner⟩
  · rw [hcall]
    exact Daemon.withServer_server d
  · rw [hcall]
    exact Daemon.withServer_server d
  · exact absurd howner hmaster

/-- A `NODEOUT` is about the ring only, as far as the `SET`s go. -/
theorem handle_nodeOut (gossip : UInt64) (uuid : Uuid) (fd : Int) (r : Reading) :
    let d' := ((Daemon.handle (Message.nodeOut gossip uuid).request fd r).call d).2
    d'.kvstore = d.kvstore ∧ d'.syncing = d.syncing ∧
      d'.cluster.selfNode = d.cluster.selfNode ∧
      (d.gossip.findGossip gossip = true ∧ d'.cluster.nodeHash = d.cluster.nodeHash ∨
        d'.cluster.nodeHash
          = Cluster.delPoints (Cluster.pointsOf (asInt uuid)) d.cluster.nodeHash) := by
  have hcall : (Daemon.handle (Message.nodeOut gossip uuid).request fd r).call d
      = (Daemon.NODEOUT (Message.nodeOut gossip uuid).request r).call d := by
    show (Daemon.handleCommand (ascii "NODEOUT") _ fd r).call d = _
    have hdata : ascii "NODEOUT" ∉ Handler.dataCommands := by decide
    unfold Daemon.handleCommand
    rw [if_neg (by decide), if_neg (by decide), if_neg (by decide),
      Method.call_bind_ok (Method.call_get d), if_neg (by simp [hdata]), if_neg (by decide),
      if_neg (by decide), if_neg (by decide), if_neg (by decide), if_neg (by decide), if_pos rfl]
  rw [hcall]
  have hrequest : (Message.nodeOut gossip uuid).request = Daemon.requestOf (ascii "NODEOUT")
      [.simpleString (toString gossip.toNat), .simpleString (toString uuid.toNat)] := rfl
  rw [hrequest]
  cases hgossip : d.gossip.findGossip gossip with
  | true =>
    rw [Daemon.NODEOUT, Daemon.relaying_known (by rw [toUint64_toString]; exact hgossip)]
    exact ⟨rfl, rfl, rfl, Or.inl ⟨rfl, rfl⟩⟩
  | false =>
    rw [Daemon.NODEOUT, Daemon.relaying_new (by rw [toUint64_toString]; exact hgossip)]
    have hown : ∀ nodeId d, (Daemon.farewell (.simpleString nodeId)).call d
        = (.ok [], d.leave (toUint64 nodeId)) := fun _ _ => rfl
    rw [hown, toUint64_toString, toUint64_toString]
    refine ⟨rfl, rfl, ?_, Or.inr ?_⟩
    · show (d.cluster.delNodeToHash (asInt uuid)).selfNode = _
      unfold Cluster.delNodeToHash
      rfl
    · show (d.cluster.delNodeToHash (asInt uuid)).nodeHash = _
      rw [Cluster.nodeHash_delNodeToHash]

end Handlers

/-! ## The run

The order of the requests is the workers' choice, so what is carried along is what has been handled
by now, in the order in which it was. -/

section Run

variable {d : Daemon} {u : Uuid} {fd : Int} {gossip : UInt64} {s : Heir}
  {held m₀ : Bytes → Option RespValue}

/-- What has been read of the stream. -/
structure Reads (requests : List RespValue) (s : Heir) : Prop where
  parsed : s.reading = true → ∃ part j, part ++ s.unread = requests.flatMap encode ∧
    RespParser.append {} part = .ok (s.parser.behind (requests.take j)) ∧
    s.parser.messageQueue = [] ∧
    ∀ request ∈ requests.take j, request ∈ s.pending ∨ request ∈ s.handled
  within : ∀ request, request ∈ s.pending ∨ request ∈ s.handled → request ∈ requests

/-- What is kept on the way. -/
structure Kept (gossip : UInt64) (d : Daemon) (u : Uuid) (m₀ : Bytes → Option RespValue)
    (s : Heir) : Prop where
  reads : s.Reads (Leaver.farewell gossip d u)
  selfNode : s.daemon.cluster.selfNode.uuid = u
  syncing : s.daemon.syncing = false
  before : (Message.nodeOut gossip d.cluster.selfNode.uuid).request ∉ s.handled →
    s.daemon.cluster.nodeHash = d.cluster.nodeHash ∧ s.daemon.gossip.findGossip gossip = false
  behind : (Message.nodeOut gossip d.cluster.selfNode.uuid).request ∈ s.handled →
    s.daemon.cluster.nodeHash = Cluster.delPoints
      (Cluster.pointsOf (asInt d.cluster.selfNode.uuid)) d.cluster.nodeHash
  contents : ∃ m, s.daemon.kvstore.Contents m ∧ ∀ pair ∈ Leaver.inherited d u,
    (Arrived gossip d u s pair.1 pair.2 → m pair.1 = some pair.2) ∧
      (¬ Arrived gossip d u s pair.1 pair.2 → m pair.1 = m₀ pair.1)

theorem Reads.read {requests : List RespValue} (h : s.Reads requests)
    (hwire : ∀ request ∈ requests, request.Wire) (n : Nat) : (s.read n).Reads requests ∧
      (s.read n).daemon = s.daemon ∧ (s.read n).handled = s.handled := by
  unfold Heir.read
  by_cases hreading : s.reading = true
  swap
  · rw [if_neg hreading]
    exact ⟨h, rfl, rfl⟩
  rw [if_pos hreading]
  obtain ⟨part, j, hpart, hparsed, hqueue, hfound⟩ := h.parsed hreading
  have hprefix : part ++ s.unread.take n <+: requests.flatMap encode := by
    rw [← hpart, List.prefix_append_right_inj]
    exact List.take_prefix n s.unread
  obtain ⟨-, hparts⟩ := stream_round_trip requests hwire
  obtain ⟨q, j', hq, -, hq', -⟩ := hparts _ hprefix
  have hframe : RespParser.append {} (part ++ s.unread.take n)
      = (s.parser.append (s.unread.take n)).map (RespParser.behind (requests.take j)) := by
    unfold RespParser.append at hparsed ⊢
    rw [Stream.run_append_ok RespParser.feed hparsed,
      Stream.run_frame RespParser.feed (RespParser.feed_behind _)]
  rw [hq] at hframe
  cases hp : s.parser.append (s.unread.take n) with
  | error e =>
    rw [hp] at hframe
    exact absurd hframe (by simp [Except.map])
  | ok p =>
    rw [hp] at hframe
    obtain rfl : q = p.behind (requests.take j) := Except.ok.inj hframe
    have htake : requests.take j ++ p.messageQueue = requests.take j' := hq'
    refine ⟨⟨fun _ => ⟨part ++ s.unread.take n, j', ?_, ?_, rfl, ?_⟩, ?_⟩, rfl, rfl⟩
    · rw [List.append_assoc, List.take_append_drop, hpart]
    · rw [hq, ← htake]
      simp [RespParser.behind]
    · intro request hrequest
      rw [← htake, List.mem_append] at hrequest
      rcases hrequest with hold | hnew
      · exact (hfound request hold).imp_left (List.mem_append_left _)
      · exact Or.inl (List.mem_append_right _ hnew)
    · rintro request (hpending | hhandled)
      · rcases List.mem_append.mp hpending with hold | hnew
        · exact h.within request (Or.inl hold)
        · have hin : request ∈ requests.take j' := by
            rw [← htake]
            exact List.mem_append_right _ hnew
          exact List.mem_of_mem_take hin
      · exact h.within request (Or.inr hhandled)

theorem request_ne_nodeOut (uuid : Uuid) (key : Bytes) (value : RespValue) :
    (Write.set key value).request ≠ (Message.nodeOut gossip uuid).request := by
  intro heq
  exact absurd (Daemon.requestOf_inj (heq : Daemon.requestOf (ascii "SET") _
    = Daemon.requestOf (ascii "NODEOUT") _)).1 (by decide)

theorem Kept.owner_iff (h : Kept gossip d u m₀ s) (key : Bytes) :
    s.daemon.cluster.isMasterFor key = .ok true ↔ Owns gossip d u s.handled key := by
  rw [Cluster.isMasterFor_iff, h.selfNode]
  by_cases htold : (Message.nodeOut gossip d.cluster.selfNode.uuid).request ∈ s.handled
  · rw [Cluster.queryNode_congr ((h.behind htold).trans (Cluster.nodeHash_delNodeToHash _ _).symm)]
    exact ⟨fun howner => ⟨fun _ => howner, absurd htold⟩, fun howns => howns.1 htold⟩
  · rw [Cluster.queryNode_congr (h.before htold).1]
    exact ⟨fun howner => ⟨fun hin => absurd hin htold, fun _ => howner⟩,
      fun howns => howns.2 htold⟩

/-- A request of the stream is handled: what was read before stays either waiting or handled. -/
theorem Reads.handled {requests : List RespValue} (h : s.Reads requests) {s' : Heir}
    {request : RespValue} (hrequest : request ∈ requests) (hreading : s'.reading = s.reading)
    (hunread : s'.unread = s.unread) (hparser : s'.parser = s.parser)
    (hhandled : s'.handled = s.handled ++ [request])
    (hkeep : ∀ other ∈ s.pending, other = request ∨ other ∈ s'.pending)
    (hsub : ∀ other ∈ s'.pending, other ∈ s.pending) : s'.Reads requests := by
  have hnow : request ∈ s'.handled := by
    rw [hhandled]
    exact List.mem_append_right _ List.mem_cons_self
  have hbefore : ∀ other ∈ s.handled, other ∈ s'.handled := by
    intro other hother
    rw [hhandled]
    exact List.mem_append_left _ hother
  refine ⟨fun hread => ?_, ?_⟩
  · rw [hreading] at hread
    obtain ⟨part, j, hpart, hparsed, hqueue, hfound⟩ := h.parsed hread
    rw [hunread, hparser]
    refine ⟨part, j, hpart, hparsed, hqueue, fun other hother => ?_⟩
    rcases hfound other hother with hpending | hold
    · rcases hkeep other hpending with rfl | hrest
      · exact Or.inr hnow
      · exact Or.inl hrest
    · exact Or.inr (hbefore other hold)
  · rintro other (hpending | hin)
    · exact h.within other (Or.inl (hsub other hpending))
    · rw [hhandled] at hin
      rcases List.mem_append.mp hin with hold | hnew
      · exact h.within other (Or.inr hold)
      · rw [List.mem_singleton.mp hnew]
        exact hrequest

theorem Reads.finish {requests : List RespValue} (h : s.Reads requests) {i : Nat}
    {request : RespValue} (hi : s.pending[i]? = some request) (daemon : Daemon) :
    (s.finish i request daemon).Reads requests := by
  obtain ⟨hlt, hget⟩ := List.getElem?_eq_some_iff.mp hi
  have hrequest := h.within request (Or.inl (List.mem_of_getElem? hi))
  refine h.handled hrequest rfl rfl rfl rfl (fun other hother => ?_)
    fun other hother => List.mem_of_mem_eraseIdx hother
  rw [← hget]
  exact List.mem_cons.mp ((List.getElem_cons_eraseIdx_perm hlt).mem_iff.mpr hother)

theorem Reads.elsewhere {requests : List RespValue} (h : s.Reads requests) {request : RespValue}
    (hrequest : request ∈ requests) (daemon : Daemon) :
    ({ s with daemon, handled := s.handled ++ [request] } : Heir).Reads requests :=
  h.handled hrequest rfl rfl rfl rfl (fun _ hother => Or.inr hother) fun _ hother => hother

/-- The goodbye, on whatever connection it has come. -/
theorem Kept.nodeOut (h : Kept gossip d u m₀ s) (conn : Int) (r : Reading) {s' : Heir}
    (hreads : s'.Reads (Leaver.farewell gossip d u))
    (hdaemon : s'.daemon = ((Daemon.handle
      (Message.nodeOut gossip d.cluster.selfNode.uuid).request conn r).call s.daemon).2)
    (hhandled : s'.handled
      = s.handled ++ [(Message.nodeOut gossip d.cluster.selfNode.uuid).request]) :
    Kept gossip d u m₀ s' := by
  obtain ⟨hstore, hsyncing, hself, hring⟩ :=
    handle_nodeOut (d := s.daemon) gossip d.cluster.selfNode.uuid conn r
  obtain ⟨m, hm, hpairs⟩ := h.contents
  rw [← hdaemon] at hstore hsyncing hself hring
  refine ⟨hreads, ?_, hsyncing.trans h.syncing, fun hnot => ?_, fun _ => ?_, m, ?_, ?_⟩
  · rw [← h.selfNode, hself]
  · rw [hhandled] at hnot
    exact absurd (List.mem_append_right _ List.mem_cons_self) hnot
  · by_cases htold : (Message.nodeOut gossip d.cluster.selfNode.uuid).request ∈ s.handled
    · -- a second one takes away what is gone
      rcases hring with ⟨-, hsame⟩ | hgone
      · exact hsame.trans (h.behind htold)
      · rw [h.behind htold, Cluster.delPoints_twice] at hgone
        exact hgone
    · obtain ⟨hold, hfresh⟩ := h.before htold
      rcases hring with ⟨hknown, -⟩ | hgone
      · exact absurd hknown (by simp [hfresh])
      · rw [hold] at hgone
        exact hgone
  · rw [hstore]
    exact hm
  · intro pair hpair
    rw [arrived_append hhandled, or_iff_left fun hset => request_ne_nodeOut _ _ _ hset.1]
    exact hpairs pair hpair

/-- A `SET` is no goodbye. -/
theorem nodeOut_mem_finish {i : Nat} {uuid : Uuid} {key : Bytes} {value : RespValue}
    {daemon : Daemon} :
    (Message.nodeOut gossip uuid).request
        ∈ (s.finish i (Write.set key value).request daemon).handled ↔
      (Message.nodeOut gossip uuid).request ∈ s.handled := by
  rw [finish, List.mem_append, List.mem_singleton]
  exact or_iff_left fun heq => request_ne_nodeOut uuid key value heq.symm

theorem set_request_inj {key key' : Bytes} {value value' : RespValue}
    (h : (Write.set key value).request = (Write.set key' value').request) : key = key' := by
  simp only [Write.request, RespValue.array.injEq, Option.some.injEq, List.cons.injEq,
    RespValue.simpleString.injEq] at h
  exact h.2.1

/-- A step that is not about the ring and not about the goodbye. -/
theorem Kept.beside (h : Kept gossip d u m₀ s) {s' : Heir}
    (hreads : s'.Reads (Leaver.farewell gossip d u))
    (hself : s'.daemon.cluster.selfNode = s.daemon.cluster.selfNode)
    (hring : s'.daemon.cluster.nodeHash = s.daemon.cluster.nodeHash)
    (hsyncing : s'.daemon.syncing = s.daemon.syncing)
    (hgossip : s'.daemon.gossip.findGossip gossip = s.daemon.gossip.findGossip gossip)
    (htold : (Message.nodeOut gossip d.cluster.selfNode.uuid).request ∈ s'.handled ↔
      (Message.nodeOut gossip d.cluster.selfNode.uuid).request ∈ s.handled)
    (hcontents : ∃ m, s'.daemon.kvstore.Contents m ∧ ∀ pair ∈ Leaver.inherited d u,
      (Arrived gossip d u s' pair.1 pair.2 → m pair.1 = some pair.2) ∧
        (¬ Arrived gossip d u s' pair.1 pair.2 → m pair.1 = m₀ pair.1)) :
    Kept gossip d u m₀ s' where
  reads := hreads
  selfNode := by
    rw [hself]
    exact h.selfNode
  syncing := hsyncing.trans h.syncing
  before hnot := by
    obtain ⟨hold, hfresh⟩ := h.before (mt htold.mpr hnot)
    exact ⟨hring.trans hold, hgossip.trans hfresh⟩
  behind hin := hring.trans (h.behind (htold.mp hin))
  contents := hcontents

theorem Kept.set (h : Kept gossip d u m₀ s) (hheld : d.kvstore.Contents held) {i : Nat}
    (r : Reading) {pair : Bytes × RespValue} (hpair : pair ∈ Leaver.inherited d u)
    (hvalue : pair.2 ≠ .bulkString none)
    (hi : s.pending[i]? = some (Write.set pair.1 pair.2).request)
    (hroom : s.daemon.cluster.isMasterFor pair.1 = .ok true → s.daemon.kvstore.Room pair.1) :
    Kept gossip d u m₀ (s.handle i r) := by
  obtain ⟨m, hm, hpairs⟩ := h.contents
  -- a key has one value in the store of the node that leaves
  have hone : ∀ other ∈ Leaver.inherited d u, other.1 = pair.1 → other = pair := by
    intro other hother hkey
    have hvalue' := (KVStore.mem_forEach hheld other.2).mp (List.mem_of_mem_filter hother)
    have hvalue := (KVStore.mem_forEach hheld pair.2).mp (List.mem_of_mem_filter hpair)
    rw [hkey, hvalue] at hvalue'
    exact Prod.ext hkey (Option.some.inj hvalue').symm
  rw [handle_eq hi]
  by_cases hmaster : s.daemon.cluster.isMasterFor pair.1 = .ok true
  · obtain ⟨hstore, hcluster, hgossip, hsyncing⟩ :=
      handle_set_owner h.syncing s.fd r hmaster hvalue hm (hroom hmaster)
    refine h.beside (h.reads.finish hi _) (congrArg Cluster.selfNode hcluster)
      (congrArg Cluster.nodeHash hcluster) hsyncing
      (congrArg (GossipCache.findGossip · gossip) hgossip) nodeOut_mem_finish
      ⟨_, hstore, fun other hother => ?_⟩
    rw [arrived_append rfl]
    by_cases hkey : other.1 = pair.1
    · rw [hone other hother hkey, Function.update_self]
      have hin := (h.owner_iff pair.1).mp hmaster
      exact ⟨fun _ => rfl, fun hnot => absurd (Or.inr ⟨rfl, hin⟩) hnot⟩
    · rw [Function.update_of_ne hkey, or_iff_left fun hset => hkey (set_request_inj hset.1)]
      exact hpairs other hother
  · rw [handle_set_other h.syncing s.fd r hmaster]
    refine h.beside (h.reads.finish hi _) rfl rfl rfl rfl nodeOut_mem_finish
      ⟨m, hm, fun other hother => ?_⟩
    rw [arrived_append rfl, or_iff_left]
    · exact hpairs other hother
    · rintro ⟨hset, howner⟩
      rw [hone other hother (set_request_inj hset)] at howner
      exact hmaster ((h.owner_iff pair.1).mpr howner)

theorem Kept.handle (h : Kept gossip d u m₀ s) (hlinked : Leaver.Linked d u fd)
    (hheld : d.kvstore.Contents held) (i : Nat) (r : Reading)
    (hcalm : Calm ((Leaver.inherited d u).map Prod.fst) gossip d.cluster.selfNode.uuid s
      (.handle i r)) :
    Kept gossip d u m₀ (s.handle i r) := by
  cases hi : s.pending[i]? with
  | none =>
    unfold Heir.handle
    rw [hi]
    exact h
  | some request =>
    rcases List.mem_cons.mp (h.reads.within request (Or.inl (List.mem_of_getElem? hi))) with
      rfl | hset
    · rw [handle_eq hi]
      exact h.nodeOut s.fd r (h.reads.finish hi _) rfl rfl
    · obtain ⟨pair, hpair, rfl⟩ := List.mem_map.mp hset
      have hsendable := hlinked.sendable pair (List.mem_of_mem_filter hpair)
      exact h.set hheld r hpair hsendable.2.2 hi (hcalm _ _ hi)

theorem Kept.step (h : Kept gossip d u m₀ s) (hlinked : Leaver.Linked d u fd)
    (hheld : d.kvstore.Contents held) (e : Event)
    (hcalm : Calm ((Leaver.inherited d u).map Prod.fst) gossip d.cluster.selfNode.uuid s e) :
    Kept gossip d u m₀ (s.step e) := by
  cases e with
  | read n =>
    obtain ⟨hreads, hdaemon, hhandled⟩ := h.reads.read (hlinked.wire gossip) n
    have harrived : ∀ key value, Arrived gossip d u (s.read n) key value ↔
        Arrived gossip d u s key value := by
      intro key value
      unfold Arrived
      rw [hhandled]
    show Kept gossip d u m₀ (s.read n)
    refine h.beside hreads (by rw [hdaemon]) (by rw [hdaemon]) (by rw [hdaemon]) (by rw [hdaemon])
      (by rw [hhandled]) ?_
    rw [hdaemon]
    simp only [harrived]
    exact h.contents
  | close =>
    exact h.beside ⟨fun hreading => absurd hreading Bool.false_ne_true, h.reads.within⟩ rfl rfl rfl
      rfl Iff.rfl h.contents
  | handle i r => exact h.handle hlinked hheld i r hcalm
  | elsewhere request conn r =>
    obtain rfl : request = (Message.nodeOut gossip d.cluster.selfNode.uuid).request := hcalm
    exact h.nodeOut conn r (h.reads.elsewhere List.mem_cons_self _) rfl rfl
  | other daemon =>
    obtain ⟨m, hm, hpairs⟩ := h.contents
    obtain ⟨m', hm', hkeys⟩ := hcalm.kvstore m hm
    refine h.beside ⟨h.reads.parsed, h.reads.within⟩ hcalm.selfNode hcalm.nodeHash hcalm.syncing
      hcalm.gossip Iff.rfl ⟨m', hm', fun pair hpair => ?_⟩
    rw [hkeys pair.1 (List.mem_map_of_mem hpair)]
    exact hpairs pair hpair

/-- The one that takes over has the same ring, is in service, and has not heard the goodbye. -/
structure Awaits (heir d : Daemon) (u : Uuid) (gossip : UInt64) : Prop where
  selfNode : heir.cluster.selfNode.uuid = u
  nodeHash : heir.cluster.nodeHash = d.cluster.nodeHash
  syncing : heir.syncing = false
  gossip : heir.gossip.findGossip gossip = false

theorem Awaits.kept {heir : Daemon} (h : Awaits heir d u gossip)
    (hm₀ : heir.kvstore.Contents m₀) (heirFd : Int) : Kept gossip d u m₀ {
      daemon := heir
      fd := heirFd
      unread := (Leaver.farewell gossip d u).flatMap encode } where
  reads := {
    parsed _ := ⟨[], 0, rfl, rfl, rfl, fun _ hin => absurd hin List.not_mem_nil⟩
    within := fun _ hin => absurd hin (by simp) }
  selfNode := h.selfNode
  syncing := h.syncing
  before _ := ⟨h.nodeHash, h.gossip⟩
  behind hin := absurd hin List.not_mem_nil
  contents := by
    refine ⟨m₀, hm₀, fun pair _ => ⟨?_, fun _ => rfl⟩⟩
    rintro ⟨before, after, hsplit, -⟩
    exact absurd hsplit.symm (by simp)

/-- When everything has been read and handled, every request was. -/
theorem Reads.done {requests : List RespValue} (h : s.Reads requests)
    (hwire : ∀ request ∈ requests, request.Wire) (hreading : s.reading = true)
    (hunread : s.unread = []) (hpending : s.pending = []) :
    ∀ request ∈ requests, request ∈ s.handled := by
  obtain ⟨part, j, hpart, hparsed, hqueue, hfound⟩ := h.parsed hreading
  rw [hunread, List.append_nil] at hpart
  have hall := append_encodings requests hwire []
  rw [hpart] at hparsed
  have hsame := Except.ok.inj (hparsed.symm.trans hall)
  have htake : requests.take j = requests := by
    have hqueues := congrArg RespParser.messageQueue hsame
    simpa [RespParser.behind, hqueue, idle] using hqueues
  intro request hrequest
  rw [← htake] at hrequest
  rcases hfound request hrequest with hin | hin
  · rw [hpending] at hin
    exact absurd hin List.not_mem_nil
  · exact hin

/-- Where the goodbye names the node, an inherited key is the heir's from then on. -/
theorem owns_iff {key : Bytes} (hint : asInt d.cluster.selfNode.uuid = d.cluster.selfNode.uuid)
    (howner : (Leaver.remaining d).queryNode key = .ok u) (handled : List RespValue) :
    Owns gossip d u handled key ↔
      (Message.nodeOut gossip d.cluster.selfNode.uuid).request ∈ handled ∨
        d.cluster.queryNode key = .ok u := by
  have hleft : (d.cluster.delNodeToHash (asInt d.cluster.selfNode.uuid)).queryNode key
      = .ok u := by
    rw [hint, ← howner]
    refine Cluster.queryNode_congr ?_ key
    rw [Cluster.nodeHash_delNodeToHash, Leaver.nodeHash_remaining]
  constructor
  · intro howns
    by_cases htold : (Message.nodeOut gossip d.cluster.selfNode.uuid).request ∈ handled
    · exact Or.inl htold
    · exact Or.inr (howns.2 htold)
  · rintro (htold | hold)
    · exact ⟨fun _ => hleft, absurd htold⟩
    · exact ⟨fun _ => hleft, fun _ => hold⟩

/-- So it arrives if it was its own before, or with a `SET` after the goodbye. -/
theorem arrived_iff {key : Bytes} (hint : asInt d.cluster.selfNode.uuid = d.cluster.selfNode.uuid)
    (howner : (Leaver.remaining d).queryNode key = .ok u) (value : RespValue) :
    Arrived gossip d u s key value ↔
      ∃ before after, s.handled = before ++ (Write.set key value).request :: after ∧
        ((Message.nodeOut gossip d.cluster.selfNode.uuid).request ∈ before ∨
          d.cluster.queryNode key = .ok u) := by
  unfold Arrived
  simp only [owns_iff hint howner]

end Run

/-- **Which keys arrive at the heir**, at every moment of every run: in whatever pieces the stream
is read, in whatever order the requests are handled, and wherever the connection ends.

The connection was quiet before, and `::send` takes each message whole, so what is unread at first
is what the leaver has sent. The heir is not syncing, or it would refuse every `SET` (`Awaits`), and
it has room for the keys (`Calm`). A `SET` that comes when the ring gives the key to another node is
proposed nowhere and stored nowhere, which is why the ring at that moment decides. -/
theorem handover_keeps (d : Daemon) (u : Uuid) (fd : Int) (gossip now : UInt64)
    (hlinked : Leaver.Linked d u fd) (hring : (Leaver.remaining d).nodeHash ≠ [])
    (held : Bytes → Option RespValue) (hheld : d.kvstore.Contents held) (heir : Daemon)
    (heirFd : Int) (hawaits : Awaits heir d u gossip) (m₀ : Bytes → Option RespValue)
    (hm₀ : heir.kvstore.Contents m₀) (es : List Event) :
    ∃ d' sent, (Leaver.gracefulShutdown gossip now).call { daemon := d }
        = (.ok (), { daemon := d', sent }) ∧
      let start : Heir :=
        { daemon := heir, fd := heirFd, unread := (Sender.messagesFor fd sent).flatten }
      let s := exec step start es
      Along step (Calm ((Leaver.inherited d u).map Prod.fst) gossip d.cluster.selfNode.uuid)
        start es →
      ∃ m, s.daemon.kvstore.Contents m ∧ ∀ key value, held key = some value →
        (Leaver.remaining d).queryNode key = .ok u →
        (s.reading = true → s.unread = [] → s.pending = [] →
            (Write.set key value).request ∈ s.handled) ∧
          (s.Arrived gossip d u key value → m key = some value) ∧
          (¬ s.Arrived gossip d u key value → m key = m₀ key) := by
  obtain ⟨d', hcall, -, -⟩ := Leaver.call_gracefulShutdown d gossip now hring
  refine ⟨d', _, hcall, ?_⟩
  intro start s halong
  have hstart : Kept gossip d u m₀ start := by
    have hkept := hawaits.kept hm₀ heirFd
    rw [← hlinked.stream gossip] at hkept
    exact hkept
  have hkept : Kept gossip d u m₀ s :=
    halong.invariant (fun s e hcalm h => h.step hlinked hheld e hcalm) hstart
  obtain ⟨m, hm, hpairs⟩ := hkept.contents
  refine ⟨m, hm, fun key value hvalue howner => ?_⟩
  have hpair : (key, value) ∈ Leaver.inherited d u := by
    refine List.mem_filter.mpr ⟨(KVStore.mem_forEach hheld value).mpr hvalue, ?_⟩
    rw [howner]
    simp [Except.toOption]
  refine ⟨fun hreading hunread hpending => ?_, hpairs (key, value) hpair⟩
  exact hkept.reads.done (hlinked.wire gossip) hreading hunread hpending _
    (List.mem_cons_of_mem _ (List.mem_map_of_mem hpair))

/-- Node 1 goes, and has a key. -/
def going : Daemon where
  kvstore := Newcomer.oneKey
  cluster := { Newcomer.nodeZero.server.cluster with
    selfNode := ⟨ascii "127.0.0.1", 7801, 1⟩
    connections := [(0, 5)] }

/-- Node 0 stays. -/
def staying : Daemon where
  cluster := Newcomer.nodeZero.server.cluster

theorem nodeHash_going : going.cluster.nodeHash = Cluster.addPoints 1 (Cluster.pointsOf 1)
    (Cluster.addPoints 0 (Cluster.pointsOf 0) []) := by
  unfold going Newcomer.nodeZero
  dsimp only
  rw [Cluster.nodeHash_addNodeToHash, Cluster.nodeHash_addNodeToHash]

/-- The point of node 0 is left. -/
theorem mem_remaining_going {point : UInt64 × Uuid} :
    point ∈ (Leaver.remaining going).nodeHash ↔ point = (0, 0) := by
  obtain ⟨p, u⟩ := point
  have hzero : p ∈ Cluster.pointsOf 0 ↔ p = 0 := by
    refine ⟨Cluster.eq_zero_of_mem_pointsOf_zero p, ?_⟩
    rintro rfl
    obtain ⟨q, hq⟩ := List.exists_mem_of_ne_nil _ (Cluster.pointsOf_ne_nil 0)
    rw [Cluster.eq_zero_of_mem_pointsOf_zero q hq] at hq
    exact hq
  rw [Leaver.nodeHash_remaining, Cluster.mem_delPoints_iff, nodeHash_going,
    Cluster.mem_addPoints_iff (Cluster.ordered_addPoints OrderedMap.ordered_nil),
    Cluster.mem_addPoints_iff OrderedMap.ordered_nil, hzero]
  show _ ∧ p ∉ Cluster.pointsOf 1 ↔ _
  have hone := Cluster.zero_not_mem_pointsOf_one
  constructor
  · rintro ⟨⟨-, hin⟩ | ⟨⟨rfl, rfl⟩ | ⟨hnil, -⟩, -⟩, hout⟩
    · exact absurd hin hout
    · rfl
    · exact absurd hnil List.not_mem_nil
  · intro heq
    obtain ⟨rfl, rfl⟩ := Prod.mk.inj heq
    exact ⟨Or.inr ⟨Or.inl ⟨rfl, rfl⟩, hone⟩, hone⟩

theorem ring_going : (Leaver.remaining going).nodeHash ≠ [] :=
  List.ne_nil_of_mem (mem_remaining_going.mpr rfl)

theorem queryNode_going (key : Bytes) : (Leaver.remaining going).queryNode key = .ok 0 := by
  have halone := Cluster.isMasterFor_of_alone
    (c := { Leaver.remaining going with selfNode := ⟨ascii "127.0.0.1", 7800, 0⟩ }) ring_going
    (fun point hpoint => by rw [mem_remaining_going.mp hpoint]) key
  exact (Cluster.queryNode_congr rfl key).trans (Cluster.isMasterFor_iff.mp halone)

theorem forEach_going : going.kvstore.forEach = [(ascii "a", .integer 1)] := by rfl

theorem inherited_going : Leaver.inherited going 0 = [(ascii "a", .integer 1)] := by
  rw [Leaver.inherited, forEach_going]
  refine List.filter_cons_of_pos ?_
  dsimp only
  rw [queryNode_going]
  rfl

theorem linked_going : Leaver.Linked going 0 5 where
  ordered := List.pairwise_singleton _ _
  other := by decide
  connected := rfl
  real := by decide
  only := by decide
  sendable := by
    rw [forEach_going]
    intro pair hpair
    rw [List.mem_singleton.mp hpair]
    exact ⟨by decide, trivial, by simp⟩

/-- Both messages are read at once, and handled in the order in which they were sent. -/
def inOrder : List Event := [.read 100, .handle 0 ⟨0, false, 0⟩, .handle 0 ⟨0, false, 0⟩]

theorem awaits_staying : Awaits staying going 0 1 where
  selfNode := rfl
  nodeHash := by simp only [staying, going]
  syncing := rfl
  gossip := rfl

/-- The goodbye and the one `SET`. -/
theorem farewell_going : Leaver.farewell 1 going 0 = [(Message.nodeOut 1 1).request,
    (Write.set (ascii "a") (.integer 1)).request] := by
  rw [Leaver.farewell, inherited_going]
  rfl

theorem handover_keeps_going : ∃ d' sent,
    (Leaver.gracefulShutdown 1 0).call { daemon := going } = (.ok (), { daemon := d', sent }) ∧
      ∃ m, (exec step
          { daemon := staying, fd := 7, unread := (Sender.messagesFor 5 sent).flatten }
          inOrder).daemon.kvstore.Contents m ∧
        m (ascii "a") = some (.integer 1) := by
  obtain ⟨d', sent, hcall, hrun⟩ := handover_keeps going 0 5 1 0 linked_going ring_going
    _ Newcomer.contents_oneKey staying 7 awaits_staying _
    KVStore.contents_new inOrder
  refine ⟨d', sent, hcall, ?_⟩
  obtain ⟨d'', hsent, -⟩ := Leaver.call_gracefulShutdown going 1 0 ring_going
  obtain ⟨-, hsent⟩ := Prod.mk.inj (hcall.symm.trans hsent)
  have hunread : (Sender.messagesFor 5 sent).flatten
      = (Leaver.farewell 1 going 0).flatMap encode := by
    rw [← linked_going.stream 1]
    exact congrArg (fun s : Leaver => (Sender.messagesFor 5 s.sent).flatten) hsent
  -- the two requests are read
  have hread : (step { daemon := staying, fd := 7, unread := (Sender.messagesFor 5 sent).flatten }
      (.read 100)) = {
        daemon := staying
        fd := 7
        unread := []
        pending := Leaver.farewell 1 going 0 } := by
    have hlen : ((Leaver.farewell 1 going 0).flatMap encode).length ≤ 100 := by
      rw [farewell_going]
      decide +kernel
    have hparse : RespParser.append {} ((Leaver.farewell 1 going 0).flatMap encode)
        = .ok (idle [] (Leaver.farewell 1 going 0)) :=
      append_encodings _ (linked_going.wire 1) []
    unfold step Heir.read
    dsimp only
    rw [if_pos rfl, hunread, List.take_of_length_le hlen, List.drop_of_length_le hlen, hparse]
    rfl
  rw [farewell_going] at hread
  obtain ⟨hstore, -⟩ := handle_nodeOut (d := staying) 1 1 7 ⟨0, false, 0⟩
  have hpath : exec step
      { daemon := staying, fd := 7, unread := (Sender.messagesFor 5 sent).flatten } inOrder
      = step (step (step { daemon := staying, fd := 7, unread := _ } (.read 100))
        (.handle 0 ⟨0, false, 0⟩)) (.handle 0 ⟨0, false, 0⟩) := rfl
  rw [hread] at hpath
  have halong : Along step (Calm ((Leaver.inherited going 0).map Prod.fst) 1 1)
      { daemon := staying, fd := 7, unread := (Sender.messagesFor 5 sent).flatten } inOrder := by
    refine ⟨trivial, ?_, ?_, trivial⟩
    · rw [hread]
      intro key value hset
      exact absurd (Option.some.inj hset).symm (request_ne_nodeOut 1 key value)
    · rw [hread]
      intro key value _ _
      show ((Daemon.handle (Message.nodeOut 1 1).request 7 ⟨0, false, 0⟩).call
        staying).2.kvstore.Room key
      rw [hstore]
      exact KVStore.room_new key
  obtain ⟨m, hm, hkeys⟩ := hrun halong
  refine ⟨m, hm, (hkeys (ascii "a") (.integer 1) ?_ (queryNode_going _)).2.1 ?_⟩
  · exact Function.update_self ..
  · rw [hpath]
    exact (arrived_iff (by decide) (queryNode_going _) _).mpr
      ⟨[_], [], rfl, Or.inl List.mem_cons_self⟩

end Heir
end Server
end KvJet
