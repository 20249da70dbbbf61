import KvJet.Server.Leave
import KvJet.Server.Safe
import KvJet.Server.Sender

/-!
# Graceful shutdown

`Server::gracefulShutdown` tells every connected node that it leaves, takes itself off its ring, and
sends a `SET` for each key that it holds to the node that the ring now gives the key to, on the same
connection. Each `::send` is taken to write the whole of its message.
-/

namespace KvJet
namespace Server

open Resp Store Run
open Raft (Uuid)

-- 160 points, which no proof here should compute
attribute [local irreducible] Cluster.delNodeToHash

/-! ## The node that leaves -/

/-- A server that shuts down, and what it has passed to `::send` by itself, past the queue. -/
structure Leaver where
  daemon : Daemon
  sent : Outbox := []

namespace Leaver

/-- The callback for `KVStore::forEach`. -/
def handOver (pair : Bytes × RespValue) : Method Fault Leaver Unit := do
  let c := (← get).daemon.cluster
  let owner ← Method.lift (c.queryNode pair.1)
  if owner ≠ c.selfNode.uuid then
    let targetFd := c.getConnection owner
    if targetFd ≠ -1 then
      modify fun s => { s with sent := s.sent ++ [(Handler.migrateText pair.1 pair.2, targetFd)] }

def gracefulShutdown (gossip now : UInt64) : Method Fault Leaver Unit := do
  modify fun s =>
    { s with daemon := { s.daemon with gossip := s.daemon.gossip.addGossip now gossip } }
  let c := (← get).daemon.cluster
  let self := c.selfNode.uuid
  modify fun s => { s with
    sent := s.sent ++ (c.connections.filter (·.1 ≠ self)).map fun conn =>
      (nodeoutCmd gossip self, conn.2) }
  modify fun s =>
    { s with daemon := { s.daemon with cluster := s.daemon.cluster.delNodeToHash self } }
  modify fun s => { s with daemon := s.daemon.delTopoNode self }
  forM (← get).daemon.kvstore.forEach handOver

/-! ## What it sends -/

/-- Where a pair goes. -/
def destination (c : Cluster) (key : Bytes) : Option Int :=
  match c.queryNode key with
  | .ok owner =>
    if owner ≠ c.selfNode.uuid ∧ c.getConnection owner ≠ -1 then some (c.getConnection owner)
    else none
  | .error _ => none

/-- The `SET`s for the pairs, each with its descriptor. -/
def handedOver (c : Cluster) (pairs : List (Bytes × RespValue)) : Outbox :=
  pairs.filterMap fun pair =>
    (destination c pair.1).map fun fd => (Handler.migrateText pair.1 pair.2, fd)

/-- The cluster that is left of the node. -/
def remaining (d : Daemon) : Cluster :=
  (({ d with cluster := d.cluster.delNodeToHash d.cluster.selfNode.uuid } : Daemon).delTopoNode
    d.cluster.selfNode.uuid).cluster

theorem call_handOver {s : Leaver} {pair : Bytes × RespValue} {owner : Uuid}
    (howner : s.daemon.cluster.queryNode pair.1 = .ok owner) :
    (handOver pair).call s
      = (.ok (), { s with sent := s.sent ++ handedOver s.daemon.cluster [pair] }) := by
  unfold handOver
  rw [Method.call_bind_ok (Method.call_get s)]
  dsimp only
  rw [howner, Method.call_bind_ok (Method.call_lift _ s)]
  by_cases hself : owner = s.daemon.cluster.selfNode.uuid
  · simp [hself, handedOver, destination, howner]
  · by_cases hfd : s.daemon.cluster.getConnection owner = -1
    · simp [hself, hfd, handedOver, destination, howner]
    · simp [hself, hfd, handedOver, destination, howner]

theorem call_handOverAll : ∀ (pairs : List (Bytes × RespValue)) (s : Leaver),
    (∀ key, ∃ owner, s.daemon.cluster.queryNode key = .ok owner) →
    (forM pairs handOver).call s
      = (.ok (), { s with sent := s.sent ++ handedOver s.daemon.cluster pairs }) := by
  intro pairs
  induction pairs with
  | nil =>
    intro s _
    simp [handedOver]
  | cons pair pairs ih =>
    intro s hring
    obtain ⟨owner, howner⟩ := hring pair.1
    rw [List.forM_cons, Method.call_bind_ok (call_handOver howner)]
    rw [ih { s with sent := s.sent ++ handedOver s.daemon.cluster [pair] } hring]
    have hsplit : handedOver s.daemon.cluster (pair :: pairs)
        = handedOver s.daemon.cluster [pair] ++ handedOver s.daemon.cluster pairs := by
      rw [handedOver, handedOver, handedOver, ← List.filterMap_append]
      rfl
    rw [hsplit, List.append_assoc]

theorem queryNode_of_ring {c : Cluster} (h : c.nodeHash ≠ []) (key : Bytes) :
    ∃ owner, c.queryNode key = .ok owner := by
  obtain ⟨owner, howner, -⟩ := exists_isMasterFor h key
  exact ⟨owner, howner⟩

/-- **What a shutdown sends**, where the ring has points of other nodes. -/
theorem call_gracefulShutdown (d : Daemon) (gossip now : UInt64)
    (hring : (remaining d).nodeHash ≠ []) :
    ∃ d', (gracefulShutdown gossip now).call { daemon := d } = (.ok (), {
      daemon := d'
      sent := (d.cluster.connections.filter (·.1 ≠ d.cluster.selfNode.uuid)).map
        (fun conn => (nodeoutCmd gossip d.cluster.selfNode.uuid, conn.2))
        ++ handedOver (remaining d) d.kvstore.forEach }) ∧
      d'.cluster = remaining d ∧ d'.kvstore = d.kvstore := by
  unfold gracefulShutdown
  rw [Method.call_bind_ok (Method.call_modify _ _), Method.call_bind_ok (Method.call_get _),
    Method.call_bind_ok (Method.call_modify _ _), Method.call_bind_ok (Method.call_modify _ _),
    Method.call_bind_ok (Method.call_modify _ _), Method.call_bind_ok (Method.call_get _)]
  rw [call_handOverAll _ _ fun key => queryNode_of_ring hring key]
  exact ⟨_, rfl, rfl, rfl⟩

/-- The pairs whose keys belong to `u` without the node. -/
def inherited (d : Daemon) (u : Uuid) : List (Bytes × RespValue) :=
  d.kvstore.forEach.filter fun pair => ((remaining d).queryNode pair.1).toOption = some u

/-- The node that leaves is connected to `u`, on a descriptor that leads to `u` only, and can send
what it has got. -/
structure Linked (d : Daemon) (u : Uuid) (fd : Int) : Prop where
  ordered : OrderedMap.Ordered d.cluster.connections
  other : u ≠ d.cluster.selfNode.uuid
  connected : d.cluster.connections.lookup u = some fd
  real : fd ≠ -1
  only : ∀ conn ∈ d.cluster.connections, conn.2 = fd → conn.1 = u
  sendable : ∀ pair ∈ d.kvstore.forEach, (Write.set pair.1 pair.2).Sendable

theorem nodeHash_remaining (d : Daemon) : (remaining d).nodeHash
    = Cluster.delPoints (Cluster.pointsOf d.cluster.selfNode.uuid) d.cluster.nodeHash := by
  rw [← Cluster.nodeHash_delNodeToHash]
  rfl

theorem connections_remaining (d : Daemon) : (remaining d).connections
    = OrderedMap.erase d.cluster.selfNode.uuid d.cluster.connections := by
  show OrderedMap.erase _ (d.cluster.delNodeToHash d.cluster.selfNode.uuid).connections = _
  unfold Cluster.delNodeToHash
  rfl

theorem selfNode_remaining (d : Daemon) : (remaining d).selfNode = d.cluster.selfNode := by
  show (d.cluster.delNodeToHash d.cluster.selfNode.uuid).selfNode = _
  unfold Cluster.delNodeToHash
  rfl

section Linked

variable {d : Daemon} {u : Uuid} {fd : Int}

/-- The connection of the node is the one entry for the descriptor. -/
theorem Linked.goodbye (h : Linked d u fd) :
    (d.cluster.connections.filter (·.1 ≠ d.cluster.selfNode.uuid)).filter (·.2 = fd)
      = [(u, fd)] := by
  refine OrderedMap.Ordered.ext ((h.ordered.filter _).filter _) (List.pairwise_singleton _ _) ?_
  intro conn
  rw [List.mem_filter, List.mem_filter, List.mem_singleton]
  constructor
  · rintro ⟨⟨hconn, -⟩, hfd⟩
    have hfd : conn.2 = fd := by simpa using hfd
    exact Prod.ext (h.only conn hconn hfd) hfd
  · rintro rfl
    exact ⟨⟨h.ordered.lookup_eq_some.mp h.connected, by simpa using h.other⟩, by simp⟩

theorem Linked.getConnection (h : Linked d u fd) (v : Uuid) :
    (remaining d).getConnection v = fd ↔ v = u := by
  have hlookup : (remaining d).getConnection v = ((OrderedMap.erase d.cluster.selfNode.uuid
      d.cluster.connections).lookup v).getD (-1) := by
    rw [← connections_remaining]
    rfl
  rw [hlookup, OrderedMap.lookup_erase]
  constructor
  · intro hfd
    split at hfd
    · exact absurd hfd.symm h.real
    · cases hv : d.cluster.connections.lookup v with
      | none =>
        rw [hv] at hfd
        exact absurd hfd.symm h.real
      | some f =>
        rw [hv] at hfd
        exact h.only (v, f) (h.ordered.lookup_eq_some.mp hv) hfd
  · rintro rfl
    rw [if_neg h.other, h.connected]
    rfl

theorem Linked.destination_iff (h : Linked d u fd) (key : Bytes) :
    destination (remaining d) key = some fd ↔
      ((remaining d).queryNode key).toOption = some u := by
  unfold destination
  cases (remaining d).queryNode key with
  | error e => simp [Except.toOption]
  | ok owner =>
    have hu := h.getConnection owner
    by_cases howner : owner = u
    · subst howner
      simp [Except.toOption, hu.mpr rfl, selfNode_remaining, h.other, h.real]
    · have hne : (remaining d).getConnection owner ≠ fd := mt hu.mp howner
      simp [Except.toOption, howner, hne]

/-- The `SET`s on the descriptor. -/
theorem Linked.handedOver (h : Linked d u fd) : ∀ pairs : List (Bytes × RespValue),
    Sender.messagesFor fd (handedOver (remaining d) pairs)
      = (pairs.filter fun pair => ((remaining d).queryNode pair.1).toOption = some u).map
          fun pair => Handler.migrateText pair.1 pair.2 := by
  intro pairs
  induction pairs with
  | nil => rfl
  | cons pair pairs ih =>
    have hiff := h.destination_iff pair.1
    unfold Leaver.handedOver Sender.messagesFor at ih ⊢
    rw [List.filterMap_cons]
    cases hto : destination (remaining d) pair.1 with
    | none =>
      rw [hto] at hiff
      rw [List.filter_cons_of_neg (by simpa using hiff)]
      exact ih
    | some f =>
      rw [hto] at hiff
      by_cases hf : f = fd
      · subst hf
        rw [List.filter_cons_of_pos (by simpa using hiff)]
        simpa using ih
      · rw [List.filter_cons_of_neg (by simpa [hf] using hiff)]
        simpa [hf] using ih

/-- The `NODEOUT` and the `SET`s, as requests. -/
def farewell (gossip : UInt64) (d : Daemon) (u : Uuid) : List RespValue :=
  (Message.nodeOut gossip d.cluster.selfNode.uuid).request ::
    (inherited d u).map fun pair => (Write.set pair.1 pair.2).request

theorem encode_set (key : Bytes) (value : RespValue) :
    encode (Write.set key value).request = Handler.migrateText key value := by
  have hthree : toString 3 = ascii "3" := by decide
  simp [Handler.migrateText, Write.request, encode, encodeElements_eq_flatMap, encodeSimpleString,
    hthree, ascii, crlf, star, plus, cr, lf]

/-- **What comes on the connection** of `u`: the goodbye, and a `SET` for each pair it inherits. -/
theorem Linked.stream (h : Linked d u fd) (gossip : UInt64) :
    (Sender.messagesFor fd
      ((d.cluster.connections.filter (·.1 ≠ d.cluster.selfNode.uuid)).map
        (fun conn => (nodeoutCmd gossip d.cluster.selfNode.uuid, conn.2))
        ++ Leaver.handedOver (remaining d) d.kvstore.forEach)).flatten
      = (farewell gossip d u).flatMap encode := by
  have hbye : Sender.messagesFor fd
      ((d.cluster.connections.filter (·.1 ≠ d.cluster.selfNode.uuid)).map
        fun conn => (nodeoutCmd gossip d.cluster.selfNode.uuid, conn.2))
        = [nodeoutCmd gossip d.cluster.selfNode.uuid] := by
    unfold Sender.messagesFor
    rw [List.filter_map, List.map_map]
    have hfilter : (d.cluster.connections.filter (·.1 ≠ d.cluster.selfNode.uuid)).filter
        ((fun message : Bytes × Int => decide (message.2 = fd)) ∘ fun conn : Uuid × Int =>
          (nodeoutCmd gossip d.cluster.selfNode.uuid, conn.2)) = [(u, fd)] := h.goodbye
    rw [hfilter]
    rfl
  have hsplit : ∀ l l' : Outbox, Sender.messagesFor fd (l ++ l')
      = Sender.messagesFor fd l ++ Sender.messagesFor fd l' := by
    intro l l'
    simp [Sender.messagesFor]
  rw [hsplit, hbye, h.handedOver, farewell, List.flatMap_cons, encode_nodeOut, inherited]
  rw [List.flatten_append, List.flatMap_map]
  simp only [encode_set]
  rw [List.flatten_singleton, List.flatMap_def]

theorem Linked.wire (h : Linked d u fd) (gossip : UInt64) :
    ∀ request ∈ farewell gossip d u, request.Wire := by
  intro request hrequest
  rcases List.mem_cons.mp hrequest with rfl | hset
  · exact wire_nodeOut gossip _
  · obtain ⟨pair, hpair, rfl⟩ := List.mem_map.mp hset
    exact (h.sendable pair (List.mem_of_mem_filter hpair)).wire

end Linked

end Leaver

end Server
end KvJet
