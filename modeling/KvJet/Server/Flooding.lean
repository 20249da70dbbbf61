import KvJet.Lib.Flood
import KvJet.Resp.RoundTrip
import KvJet.Server.Command
import KvJet.Server.Groups
import KvJet.Server.Membership

/-!
# Gossip in a network

A cluster of servers whose workers handle `NODEIN` and `NODEOUT` at the same time, each in the steps
between which another worker can come: the duplicate check, `addGossip`, the copies for all
connected nodes, and the change of the topology. The copies wait on the queue of the main loop, are
sent as texts, and are parsed where they arrive. Meanwhile nodes are connected, greet each other,
and have other things to send.

`Serves` is what holds of one server, and `Kept` of the network, as long as the clocks show the
minute after the start and the caches have room: no `gossip_cache` forgets a message of the batch,
every text for another server is one as the code writes it, and connections stay. What comes of
it is in `Server/Reach.lean`.
-/

namespace KvJet
namespace Server

open OrderedMap (Ordered)
open Resp
open Raft (Uuid)

/-! ## Texts -/

namespace Message

/-- The message in a request, if it is one. -/
def read : RespValue → Option Message
  | .array (some [.simpleString command, .simpleString id, body]) =>
    if command = ascii "NODEIN" then (getNode body).toOption.map (nodeIn (toUint64 id))
    else if command = ascii "NODEOUT" then
      match body with
      | .simpleString nodeId => some (nodeOut (toUint64 id) (toUint64 nodeId))
      | _ => none
    else none
  | _ => none

def text (m : Message) : Bytes := encode m.request

/-- Its text can travel. -/
def Wire : Message → Prop
  | nodeIn _ node => cr ∉ node.ip
  | nodeOut _ _ => True

theorem read_request (m : Message) : read m.request = some m := by
  cases m with
  | nodeIn id node => simp [request, read, getNode_nodeValue, toUint64_toString, Except.toOption]
  | nodeOut id uuid =>
    have hname : ascii "NODEOUT" ≠ ascii "NODEIN" := by decide
    simp [request, read, hname, toUint64_toString]

theorem wire_request {m : Message} (h : m.Wire) : m.request.Wire := by
  cases m with
  | nodeIn id node =>
    have hname : cr ∉ ascii "NODEIN" := by decide
    have hip : cr ∉ node.ip := h
    simp [request, nodeValue, RespValue.Wire, WireAll, hname, hip, cr_not_mem_toString]
  | nodeOut id uuid =>
    have hname : cr ∉ ascii "NODEOUT" := by decide
    simp [request, RespValue.Wire, WireAll, hname, cr_not_mem_toString]

end Message

/-- The requests in a text that is read at once. What does not parse ends the main loop. -/
def requestsIn (text : Bytes) : List RespValue :=
  match RespParser.append {} text with
  | .ok p => p.messageQueue
  | .error _ => []

theorem requestsIn_text {m : Message} (h : m.Wire) : requestsIn m.text = [m.request] := by
  have happend := append_encodings [m.request] (by simpa using Message.wire_request h) []
  rw [List.flatMap_singleton] at happend
  unfold requestsIn Message.text
  rw [show RespParser.append {} (encode m.request) = _ from happend]
  rfl

/-- A text without gossip. -/
def Foreign (text : Bytes) : Prop := ∀ request ∈ requestsIn text, Message.read request = none

instance : DecidablePred Foreign := fun _ => List.decidableBAll _ _

/-! ## The steps of the handlers

The handlers of gossip once more, cut where another worker can come in. -/

namespace Membership

def note (s : Membership) (now : UInt64) (m : Message) : Membership :=
  { s with gossip := s.gossip.addGossip now m.id }

def settle (s : Membership) : Message → Membership
  | .nodeIn _ node => s.join node
  | .nodeOut _ uuid => s.leave uuid

/-- The two handlers do these steps one after the other. -/
theorem handle_eq (s : Membership) (now : UInt64) (m : Message) :
    s.handle (now, m) = if s.gossip.findGossip m.id then s
      else ((s.note now m).broadcast (encode m.request)).settle m := by
  cases h : s.gossip.findGossip m.id with
  | true => exact handle_known m h
  | false =>
    rw [if_neg (by simp)]
    cases m with
    | nodeIn id node =>
      show ((Handler.NODEIN _ now).call s).2 = _
      unfold Handler.NODEIN
      rw [show Handler.elementsOf (Message.nodeIn id node).request = .ok _ from rfl,
        Method.call_bind_ok (Method.call_lift _ s), if_neg (by simp),
        Method.call_bind_ok (firstSight_new rfl h), if_neg (by simp),
        show encodeRequest _ = .ok _ from rfl,
        Method.call_bind_ok (Method.call_lift _ _), Method.call_bind_ok (Method.call_modify _ _),
        show deref _ 2 = .ok (nodeValue node) from rfl, Method.call_bind_ok (Method.call_lift _ _),
        getNode_nodeValue, Method.call_bind_ok (Method.call_lift _ _),
        Method.call_bind_ok (Method.call_modify _ _)]
      refine (show _ = ((s.note now (.nodeIn id node)).broadcast _).settle (.nodeIn id node)
        from rfl).trans ?_
      simp [Message.request, encode, encodeElements]
    | nodeOut id uuid =>
      show ((Handler.NODEOUT _ now).call s).2 = _
      unfold Handler.NODEOUT
      rw [show Handler.elementsOf (Message.nodeOut id uuid).request = .ok _ from rfl,
        Method.call_bind_ok (Method.call_lift _ s), if_neg (by simp),
        Method.call_bind_ok (firstSight_new rfl h), if_neg (by simp),
        show encodeRequest _ = .ok _ from rfl,
        Method.call_bind_ok (Method.call_lift _ _), Method.call_bind_ok (Method.call_modify _ _),
        show deref _ 2 = .ok (.simpleString (toString uuid.toNat)) from rfl,
        Method.call_bind_ok (Method.call_lift _ _)]
      dsimp only
      rw [Method.call_bind_ok (Method.call_modify _ _), toUint64_toString]
      refine (show _ = ((s.note now (.nodeOut id uuid)).broadcast _).settle (.nodeOut id uuid)
        from rfl).trans ?_
      simp [Message.request, encode, encodeElements]

theorem join_parts (s : Membership) (node : ClusterNode) :
    ∃ calls : List (Bytes × Int), (∀ q ∈ calls, q.2 < 0) ∧ (s.join node).peers = s.peers ∧
      (s.join node).messageQueue = s.messageQueue ++ calls := by
  unfold join
  split
  · refine ⟨[(ascii "REBUILD_RAFTS", -2)], by simp, ?_, ?_⟩ <;> simp only [push, enter]
  · refine ⟨[(node.ip ++ ascii " " ++ toString node.port.toNat ++ ascii " "
      ++ toString node.uuid.toNat, -1), (ascii "REBUILD_RAFTS", -2)], by simp, ?_, ?_⟩
    · simp only [push, enter]
    · simp only [push, enter, List.append_assoc, List.cons_append, List.nil_append]

/-- The connection is deleted twice. -/
theorem leave_parts (s : Membership) (nodeId : Uuid) :
    (s.leave nodeId).gossip = s.gossip ∧ (s.leave nodeId).messageQueue = s.messageQueue ∧
      (s.leave nodeId).peers.connections = OrderedMap.erase (asInt nodeId) s.peers.connections := by
  simp only [leave, delTopoNode, Peers.delConnection, OrderedMap.erase, List.filter_filter,
    Bool.and_self, and_self]

/-- `initRaftGroups`, of which the groups are not here. -/
def rebuild (s : Membership) : Membership :=
  if s.cluster.topo.isEmpty then s
  else { s with cluster := s.cluster.nodeIds.foldl Cluster.addNodeToHash s.cluster }

end Membership

/-! ## The network -/

/-- A worker in one of the two handlers. -/
structure Relay where
  node : Uuid
  request : RespValue
  message : Message
  place : Flood.Place

def Relay.copy (r : Relay) : Flood.Copy Uuid Message := ⟨r.node, r.message, r.place⟩

structure Network where
  server : Uuid → Membership
  /-- What is sent to a server and not read yet. -/
  wire : List (Uuid × Bytes) := []
  relays : List Relay := []
  /-- Relays of a message whose copies are on the queue. -/
  closing : List (Uuid × Message) := []
  /-- How often a message was handed on. Nothing reads it. -/
  handedOn : Nat := 0

/-- The servers of a cluster, and where the descriptors of each lead to; the ones of clients lead
nowhere. -/
structure Wiring where
  members : Finset Uuid
  leads : Uuid → Int → Option Uuid
  inside : ∀ v fd u, leads v fd = some u → u ∈ members
  real : ∀ v fd u, leads v fd = some u → 0 ≤ fd

namespace Network

inductive Event where
  /-- The main loop of `v` takes the next text off its queue; a call gets the descriptor `fd`. -/
  | send (v : Uuid) (fd : Int)
  /-- A worker of `v` handles the `HELLO` of `uuid`. -/
  | hello (v uuid : Uuid) (fd : Int)
  /-- A worker of `v` has an answer or a migrated key for the queue. -/
  | other (v : Uuid) (text : Bytes) (fd : Int)
  /-- The main loop reads a text, and workers come to the duplicate check. -/
  | read (k : Nat)
  | note (k : Nat) (now : UInt64)
  | relay (k : Nat)
  | settle (k : Nat)

/-- The node in the text of a call. -/
def calledNode (text : Bytes) : Uuid := ((tokens text)[2]?.map toUint64).getD 0

def put (w : Network) (v : Uuid) (s : Membership) : Network :=
  { w with server := Function.update w.server v s }

/-- A call that gets no descriptor throws, and the main loop ends. -/
def send (g : Wiring) (w : Network) (v : Uuid) (fd : Int) : Network :=
  match (w.server v).messageQueue with
  | [] => w
  | (text, k) :: rest =>
    let s := { w.server v with messageQueue := rest }
    if k = -1 then
      if g.leads v fd = some (calledNode text) then
        w.put v { s with peers := s.peers.addConnection (calledNode text) fd }
      else w
    else if k = -2 then w.put v s.rebuild
    else
      match g.leads v k with
      | some u => { w.put v s with wire := w.wire ++ [(u, text)] }
      | none => w.put v s

/-- The workers that the requests of a text come to, as far as they are let through. -/
def letThrough (s : Membership) (u : Uuid) (text : Bytes) : List Relay :=
  (requestsIn text).filterMap fun request =>
    (Message.read request).bind fun m =>
      if s.gossip.findGossip m.id then none else some ⟨u, request, m, .checked⟩

def step (g : Wiring) (w : Network) : Event → Network
  | .send v fd => if v ∈ g.members then w.send g v fd else w
  | .hello v uuid fd =>
    if v ∈ g.members ∧ g.leads v fd = some uuid then
      w.put v { w.server v with peers := (w.server v).peers.addConnection uuid fd }
    else w
  | .other v text fd =>
    if v ∈ g.members ∧ Foreign text then w.put v ((w.server v).push text fd) else w
  | .read k =>
    match w.wire[k]? with
    | none => w
    | some (u, text) =>
      { w with
        wire := w.wire.eraseIdx k
        relays := w.relays ++ letThrough (w.server u) u text }
  | .note k now =>
    match w.relays[k]? with
    | some ⟨v, request, m, .checked⟩ =>
      { w.put v ((w.server v).note now m) with relays := w.relays.set k ⟨v, request, m, .marked⟩ }
    | some _ | none => w
  | .relay k =>
    match w.relays[k]? with
    | some ⟨v, request, m, .marked⟩ =>
      { w.put v ((w.server v).broadcast (encode request)) with
        relays := w.relays.eraseIdx k
        closing := w.closing ++ [(v, m)]
        handedOn := w.handedOn + 1 }
    | some _ | none => w
  | .settle k =>
    match w.closing[k]? with
    | some (v, m) => { w.put v ((w.server v).settle m) with closing := w.closing.eraseIdx k }
    | none => w

abbrev exec (g : Wiring) (w : Network) (evs : List Event) : Network := Run.exec (step g) w evs

/-- There is nothing left to do. -/
structure Still (g : Wiring) (w : Network) : Prop where
  queues : ∀ v ∈ g.members, (w.server v).messageQueue = []
  wire : w.wire = []
  relays : w.relays = []
  closing : w.closing = []

end Network

/-! ## One server

What a server does to its own part of the network, whoever else is at work. -/

/-- Either a text has no gossip, or it is a message of the batch as the code writes it. -/
def Batch.Proper (b : Batch) (text : Bytes) : Prop := Foreign text ∨ ∃ m ∈ b.messages, text = m.text

/-- The node is not one that a message of the batch takes out. -/
def Batch.Spares (b : Batch) (u : Uuid) : Prop :=
  ∀ id uuid, Message.nodeOut id uuid ∈ b.messages → asInt uuid ≠ u

/-- The server has a connection to the node. -/
def Wiring.Linked (g : Wiring) (v : Uuid) (s : Membership) (u : Uuid) : Prop :=
  ∃ fd, (u, fd) ∈ s.peers.connections ∧ g.leads v fd = some u

/-- What holds of the server `v`, which was in the state `s₀` when its clock showed `t₀`. -/
structure Serves (g : Wiring) (b : Batch) (t₀ : UInt64) (v : Uuid) (s₀ s : Membership) : Prop where
  ordered : Ordered s.gossip
  recent : ∀ entry ∈ s.gossip, (∃ m ∈ b.messages, m.id = entry.1) → t₀ ≤ entry.2
  noted : ∀ entry ∈ s.gossip, entry.1 ∈ s₀.gossip.map Prod.fst ∨ ∃ m ∈ b.messages, m.id = entry.1
  queued : ∀ q ∈ s.messageQueue, (g.leads v q.2).isSome → b.Proper q.1
  sorted : Ordered s.peers.connections
  partners : ∀ conn ∈ s.peers.connections,
    conn.1 ∈ s₀.peers.connections.map Prod.fst ∨ conn.1 ∈ g.members
  linked : ∀ u, b.Spares u → g.Linked v s₀ u → g.Linked v s u

namespace Serves

variable {g : Wiring} {b : Batch} {t₀ now : UInt64} {v u : Uuid} {s₀ s s' : Membership}
  {m m' : Message}

/-- A step that leaves the cache and the connections alone. -/
theorem of_same (h : Serves g b t₀ v s₀ s) (hgossip : s'.gossip = s.gossip)
    (hpeers : s'.peers = s.peers)
    (hqueue : ∀ q ∈ s'.messageQueue, q ∈ s.messageQueue ∨ ((g.leads v q.2).isSome → b.Proper q.1)) :
    Serves g b t₀ v s₀ s' where
  ordered := hgossip ▸ h.ordered
  recent := hgossip ▸ h.recent
  noted := hgossip ▸ h.noted
  queued q hq := (hqueue q hq).elim (h.queued q) id
  sorted := hpeers ▸ h.sorted
  partners := hpeers ▸ h.partners
  linked u hu hl := by
    have hlinked := h.linked u hu hl
    unfold Wiring.Linked at hlinked ⊢
    rw [hpeers]
    exact hlinked

/-- A step that changes the connections. -/
theorem of_connections (h : Serves g b t₀ v s₀ s) (hgossip : s'.gossip = s.gossip)
    (hqueue : s'.messageQueue = s.messageQueue) (hsorted : Ordered s'.peers.connections)
    (hpartners : ∀ conn ∈ s'.peers.connections, conn ∈ s.peers.connections ∨ conn.1 ∈ g.members)
    (hlinked : ∀ u, b.Spares u → g.Linked v s u → g.Linked v s' u) : Serves g b t₀ v s₀ s' where
  ordered := hgossip ▸ h.ordered
  recent := hgossip ▸ h.recent
  noted := hgossip ▸ h.noted
  queued := hqueue ▸ h.queued
  sorted := hsorted
  partners conn hconn := (hpartners conn hconn).elim (h.partners conn) Or.inr
  linked u hu hl := hlinked u hu (h.linked u hu hl)

theorem addConnection (h : Serves g b t₀ v s₀ s) {fd : Int} (hleads : g.leads v fd = some u) :
    Serves g b t₀ v s₀ { s with peers := s.peers.addConnection u fd } := by
  refine h.of_connections rfl rfl (h.sorted.insert u fd) (fun conn hconn => ?_)
    (fun u' hu' hl => ?_)
  · rcases (OrderedMap.mem_insert h.sorted).mp hconn with rfl | ⟨hold, -⟩
    · exact Or.inr (g.inside v fd u hleads)
    · exact Or.inl hold
  · obtain ⟨fd', hconn, hleads'⟩ := hl
    by_cases heq : u' = u
    · subst heq
      exact ⟨fd, (OrderedMap.mem_insert h.sorted).mpr (Or.inl rfl), hleads⟩
    · exact ⟨fd', (OrderedMap.mem_insert h.sorted).mpr (Or.inr ⟨hconn, heq⟩), hleads'⟩

theorem settle (h : Serves g b t₀ v s₀ s) (hm : m ∈ b.messages) :
    Serves g b t₀ v s₀ (s.settle m) := by
  cases m with
  | nodeIn id node =>
    obtain ⟨calls, hneg, hpeers, hqueue⟩ := s.join_parts node
    refine h.of_same (s.join_keeps node).2 hpeers fun q hq => ?_
    rw [show (s.settle (.nodeIn id node)).messageQueue = _ from hqueue] at hq
    refine (List.mem_append.mp hq).imp (fun hold => hold) fun hq hsome => ?_
    obtain ⟨u, hleads⟩ := Option.isSome_iff_exists.mp hsome
    exact absurd (g.real v q.2 u hleads) (Int.not_le.mpr (hneg q hq))
  | nodeOut id uuid =>
    obtain ⟨hgossip, hqueue, hconns⟩ := s.leave_parts uuid
    have hmem : ∀ conn, conn ∈ (s.settle (.nodeOut id uuid)).peers.connections ↔
        conn ∈ s.peers.connections ∧ conn.1 ≠ asInt uuid := by
      intro conn
      rw [show (s.settle (.nodeOut id uuid)).peers.connections = _ from hconns]
      exact OrderedMap.mem_erase
    refine h.of_connections hgossip hqueue ?_ (fun conn hconn => Or.inl ((hmem conn).mp hconn).1)
      (fun u' hu' hl => ?_)
    · rw [show (s.settle (.nodeOut id uuid)).peers.connections = _ from hconns]
      exact h.sorted.erase _
    · obtain ⟨fd, hconn, hleads⟩ := hl
      exact ⟨fd, (hmem _).mpr ⟨hconn, (hu' id uuid hm).symm⟩, hleads⟩

/-- With room for the batch, the size puts no id out of the cache. -/
theorem addGossip_eq (h : Serves g b t₀ v s₀ s) (hm : m ∈ b.messages)
    (hroom : s₀.gossip.length + b.messages.card ≤ gossipCacheSize) :
    s.gossip.addGossip now m.id = s.gossip.stamp now m.id := by
  have hsub : ((s.gossip.stamp now m.id).map Prod.fst).toFinset
      ⊆ (s₀.gossip.map Prod.fst).toFinset ∪ b.messages.image Message.id := by
    intro id hid
    obtain ⟨entry, hentry, rfl⟩ := List.mem_map.mp (List.mem_toFinset.mp hid)
    rw [Finset.mem_union, List.mem_toFinset, Finset.mem_image]
    rcases (GossipCache.mem_stamp h.ordered).mp hentry with rfl | ⟨hold, -⟩
    · exact Or.inr ⟨m, hm, rfl⟩
    · exact h.noted entry hold
  have hcard := Finset.card_le_card hsub
  rw [List.toFinset_card_of_nodup (GossipCache.ordered_stamp h.ordered).nodup_keys,
    List.length_map] at hcard
  have hold : (s₀.gossip.map Prod.fst).toFinset.card ≤ s₀.gossip.length :=
    Nat.le_trans (List.toFinset_card_le _) (Nat.le_of_eq (List.length_map ..))
  have hlength := Nat.le_trans hcard (Nat.le_trans (Finset.card_union_le _ _)
    (Nat.add_le_add hold Finset.card_image_le))
  exact if_neg (Nat.not_lt.mpr (Nat.le_trans hlength hroom))

theorem note (h : Serves g b t₀ v s₀ s) (hm : m ∈ b.messages) (hnow : t₀ ≤ now) :
    Serves g b t₀ v s₀ (s.note now m) where
  ordered := GossipCache.ordered_addGossip h.ordered
  recent entry hentry hid := by
    rcases (GossipCache.mem_stamp h.ordered).mp (GossipCache.mem_addGossip hentry) with
      rfl | ⟨hold, -⟩
    · exact hnow
    · exact h.recent entry hold hid
  noted entry hentry := by
    rcases (GossipCache.mem_stamp h.ordered).mp (GossipCache.mem_addGossip hentry) with
      rfl | ⟨hold, -⟩
    · exact Or.inr ⟨m, hm, rfl⟩
    · exact h.noted entry hold
  queued := h.queued
  sorted := h.sorted
  partners := h.partners
  linked := h.linked

/-- In the first minute, no message of the batch is forgotten. -/
theorem findGossip_note (h : Serves g b t₀ v s₀ s) (hm : m ∈ b.messages) (hm' : m' ∈ b.messages)
    (hroom : s₀.gossip.length + b.messages.card ≤ gossipCacheSize)
    (hminute : now.toNat ≤ t₀.toNat + gossipTimeoutMs.toNat)
    (hforth : ∀ entry ∈ s.gossip, entry.2 ≤ now) :
    (s.note now m).gossip.findGossip m'.id = true
      ↔ s.gossip.findGossip m'.id = true ∨ m' = m := by
  show (s.gossip.addGossip now m.id).findGossip m'.id = true ↔ _
  rw [h.addGossip_eq hm hroom, GossipCache.findGossip_eq_true (GossipCache.ordered_stamp h.ordered),
    GossipCache.findGossip_eq_true h.ordered]
  constructor
  · rintro ⟨time, hentry⟩
    rcases (GossipCache.mem_stamp h.ordered).mp hentry with heq | ⟨hold, -⟩
    · exact Or.inr (b.ids m' hm' m hm (Prod.mk.inj heq).1)
    · exact Or.inl ⟨time, hold⟩
  · rintro (⟨time, hold⟩ | rfl)
    · by_cases hid : m'.id = m.id
      · exact ⟨now, (GossipCache.mem_stamp h.ordered).mpr (Or.inl (by rw [hid]))⟩
      · refine ⟨time, (GossipCache.mem_stamp h.ordered).mpr (Or.inr ⟨hold, hid, ?_⟩)⟩
        have hearly : t₀ ≤ time := h.recent _ hold ⟨m', hm', rfl⟩
        have hlate : time ≤ now := hforth _ hold
        rw [GossipCache.expired, decide_eq_false_iff_not, gt_iff_lt, UInt64.lt_iff_toNat_lt,
          UInt64.toNat_sub_of_le _ _ hlate]
        rw [UInt64.le_iff_toNat_le] at hearly
        exact Nat.not_lt.mpr (Nat.sub_le_of_le_add (Nat.le_trans hminute
          (Nat.le_trans (Nat.add_le_add_right hearly _) (Nat.le_of_eq (Nat.add_comm _ _)))))
    · exact ⟨now, (GossipCache.mem_stamp h.ordered).mpr (Or.inl rfl)⟩

/-- A message is handed on to no more nodes than these. -/
theorem length_connections_le (h : Serves g b t₀ v s₀ s) :
    s.peers.connections.length ≤ s₀.peers.connections.length + g.members.card := by
  have hsub : (s.peers.connections.map Prod.fst).toFinset
      ⊆ (s₀.peers.connections.map Prod.fst).toFinset ∪ g.members := by
    intro uuid huuid
    obtain ⟨conn, hconn, rfl⟩ := List.mem_map.mp (List.mem_toFinset.mp huuid)
    rw [Finset.mem_union, List.mem_toFinset]
    exact h.partners conn hconn
  have hcard := Finset.card_le_card hsub
  rw [List.toFinset_card_of_nodup h.sorted.nodup_keys, List.length_map] at hcard
  refine Nat.le_trans hcard (Nat.le_trans (Finset.card_union_le _ _) ?_)
  refine Nat.add_le_add_right ?_ _
  exact Nat.le_trans (List.toFinset_card_le _) (Nat.le_of_eq (List.length_map ..))

end Serves

/-! ## The network -/

namespace Network

/-- A batch is on its way, and no server has seen any of it. -/
structure Launch (g : Wiring) (b : Batch) (w : Network) : Prop where
  texts : ∀ m ∈ b.messages, m.Wire
  fresh : ∀ v ∈ g.members, Ordered (w.server v).gossip ∧
    ∀ m ∈ b.messages, (w.server v).gossip.findGossip m.id = false
  room : ∀ v ∈ g.members, (w.server v).gossip.length + b.messages.card ≤ gossipCacheSize
  sorted : ∀ v ∈ g.members, Ordered (w.server v).peers.connections
  queued : ∀ v ∈ g.members, ∀ q ∈ (w.server v).messageQueue,
    (g.leads v q.2).isSome → b.Proper q.1
  wire : ∀ e ∈ w.wire, e.1 ∈ g.members ∧ b.Proper e.2
  idle : w.relays = [] ∧ w.closing = []

/-- The clocks show the minute after `t₀`, and none goes back. -/
def InMinute (t₀ : UInt64) (w : Network) : Event → Prop
  | .note k now => t₀ ≤ now ∧ now.toNat ≤ t₀.toNat + gossipTimeoutMs.toNat ∧
      ∀ r ∈ w.relays[k]?, ∀ entry ∈ (w.server r.node).gossip, entry.2 ≤ now
  | .send .. | .hello .. | .other .. | .read _ | .relay _ | .settle _ => True

instance (t₀ : UInt64) (w : Network) : DecidablePred (InMinute t₀ w)
  | .note _ now =>
    haveI : ∀ r : Relay, Decidable (∀ entry ∈ (w.server r.node).gossip, entry.2 ≤ now) :=
      fun _ => List.decidableBAll _ _
    inferInstanceAs (Decidable (_ ∧ _ ∧ _))
  | .send .. | .hello .. | .other .. | .read _ | .relay _ | .settle _ =>
    inferInstanceAs (Decidable True)

/-- What holds of the network, of its servers and of all that is on the way between them. A text on
the way to another server is one as the code writes it (`wire`), which is what its parser needs to
hand out the message again. -/
structure Kept (g : Wiring) (b : Batch) (t₀ : UInt64) (w₀ w : Network) : Prop where
  serves : ∀ v ∈ g.members, Serves g b t₀ v (w₀.server v) (w.server v)
  wire : ∀ e ∈ w.wire, e.1 ∈ g.members ∧ b.Proper e.2
  relays : ∀ r ∈ w.relays,
    r.node ∈ g.members ∧ r.message ∈ b.messages ∧ r.request = r.message.request
  closing : ∀ c ∈ w.closing, c.1 ∈ g.members ∧ c.2 ∈ b.messages

variable {g : Wiring} {b : Batch} {t₀ : UInt64} {w₀ w : Network}

theorem Launch.kept (h : Launch g b w₀) (t₀ : UInt64) : Kept g b t₀ w₀ w₀ where
  serves v hv := by
    obtain ⟨hordered, hunseen⟩ := h.fresh v hv
    refine ⟨hordered, fun entry hentry => ?_, fun entry hentry => ?_, h.queued v hv, h.sorted v hv,
      fun conn hconn => Or.inl (List.mem_map_of_mem hconn), fun _ _ hl => hl⟩
    · rintro ⟨m, hm, hid⟩
      have hfound := (GossipCache.findGossip_eq_true hordered).mpr
        ⟨entry.2, show (m.id, entry.2) ∈ _ by rw [hid]; exact hentry⟩
      rw [hunseen m hm] at hfound
      exact absurd hfound Bool.false_ne_true
    · exact Or.inl (List.mem_map_of_mem hentry)
  wire := h.wire
  relays r hr := absurd hr (h.idle.1 ▸ List.not_mem_nil)
  closing c hc := absurd hc (h.idle.2 ▸ List.not_mem_nil)

/-- One server has come to another state. -/
theorem Kept.put (h : Kept g b t₀ w₀ w) {v : Uuid} {s : Membership}
    (hs : v ∈ g.members → Serves g b t₀ v (w₀.server v) s) : Kept g b t₀ w₀ (w.put v s) where
  serves x hx := by
    show Serves g b t₀ x (w₀.server x) (Function.update w.server v s x)
    by_cases hxv : x = v
    · subst hxv
      rw [Function.update_self]
      exact hs hx
    · rw [Function.update_of_ne hxv]
      exact h.serves x hx
  wire := h.wire
  relays := h.relays
  closing := h.closing

theorem mem_letThrough {s : Membership} {u : Uuid} {text : Bytes} {r : Relay}
    (hr : r ∈ letThrough s u text) : r.node = u ∧ r.request ∈ requestsIn text ∧
      Message.read r.request = some r.message := by
  obtain ⟨request, hrequest, hbind⟩ := List.mem_filterMap.mp hr
  obtain ⟨m, hread, hm⟩ := Option.bind_eq_some_iff.mp hbind
  split at hm
  · exact absurd hm (by simp)
  · obtain rfl := Option.some.inj hm
    exact ⟨rfl, hrequest, hread⟩

theorem Kept.send (h : Kept g b t₀ w₀ w) {v : Uuid} (hv : v ∈ g.members) (fd : Int) :
    Kept g b t₀ w₀ (w.send g v fd) := by
  have hserves := h.serves v hv
  unfold Network.send
  cases hqueue : (w.server v).messageQueue with
  | nil => exact h
  | cons first rest =>
    obtain ⟨text, k⟩ := first
    have hrest : Serves g b t₀ v (w₀.server v) { w.server v with messageQueue := rest } :=
      hserves.of_same rfl rfl fun q hq => Or.inl (hqueue ▸ List.mem_cons_of_mem _ hq)
    dsimp only
    split
    · split
      · rename_i hleads
        exact h.put fun _ => hrest.addConnection hleads
      · exact h
    · split
      · refine h.put fun _ => ?_
        unfold Membership.rebuild
        split
        · exact hrest
        · exact hrest.of_same rfl rfl fun q hq => Or.inl hq
      · split
        · rename_i u hleads
          have hput := h.put (v := v) fun _ => hrest
          refine ⟨hput.serves, fun e he => ?_, hput.relays, hput.closing⟩
          rcases List.mem_append.mp he with hold | hnew
          · exact h.wire e hold
          · rw [List.mem_singleton.mp hnew]
            exact ⟨g.inside v k u hleads, hserves.queued (text, k) (hqueue ▸ List.mem_cons_self)
              (Option.isSome_iff_exists.mpr ⟨u, hleads⟩)⟩
        · exact h.put fun _ => hrest

theorem Kept.step (hlaunch : Launch g b w₀) (h : Kept g b t₀ w₀ w) {ev : Event}
    (hev : InMinute t₀ w ev) : Kept g b t₀ w₀ (Network.step g w ev) := by
  cases ev with
  | send v fd =>
    unfold Network.step
    dsimp only
    split
    · rename_i hv
      exact h.send hv fd
    · exact h
  | hello v uuid fd =>
    unfold Network.step
    dsimp only
    split
    · rename_i hleads
      exact h.put fun hv => (h.serves v hv).addConnection hleads.2
    · exact h
  | other v text fd =>
    unfold Network.step
    dsimp only
    split
    · rename_i hforeign
      refine h.put fun hv => (h.serves v hv).of_same rfl rfl fun q hq => ?_
      rcases List.mem_append.mp hq with hold | hnew
      · exact Or.inl hold
      · rw [List.mem_singleton.mp hnew]
        exact Or.inr fun _ => Or.inl hforeign.2
    · exact h
  | read k =>
    unfold Network.step
    dsimp only
    cases hk : w.wire[k]? with
    | none => exact h
    | some e =>
      obtain ⟨u, text⟩ := e
      obtain ⟨hu, hproper⟩ := h.wire _ (List.mem_of_getElem? hk)
      refine ⟨h.serves, fun e he => h.wire e (List.mem_of_mem_eraseIdx he), fun r hr => ?_,
        h.closing⟩
      rcases List.mem_append.mp hr with hold | hnew
      · exact h.relays r hold
      · obtain ⟨hnode, hrequest, hread⟩ := mem_letThrough hnew
        rcases hproper with hforeign | ⟨m, hm, rfl⟩
        · rw [hforeign _ hrequest] at hread
          exact absurd hread (by simp)
        · rw [requestsIn_text (hlaunch.texts m hm), List.mem_singleton] at hrequest
          rw [hrequest, Message.read_request] at hread
          obtain rfl := Option.some.inj hread
          exact ⟨hnode ▸ hu, hm, hrequest⟩
  | note k now =>
    unfold Network.step
    dsimp only
    split
    · rename_i v request m hk
      obtain ⟨hv, hm, hrequest⟩ := h.relays _ (List.mem_of_getElem? hk)
      have hput := h.put (v := v) fun hv =>
        show Serves g b t₀ v (w₀.server v) ((w.server v).note now m) from (h.serves v hv).note hm hev.1
      refine ⟨hput.serves, hput.wire, fun r hr => ?_, hput.closing⟩
      rcases List.mem_or_eq_of_mem_set hr with hold | rfl
      · exact h.relays r hold
      · exact ⟨hv, hm, hrequest⟩
    · exact h
    · exact h
  | relay k =>
    unfold Network.step
    dsimp only
    split
    · rename_i v request m hk
      obtain ⟨hv, hm, hrequest⟩ := h.relays _ (List.mem_of_getElem? hk)
      have hput := h.put (v := v) (s := (w.server v).broadcast (encode request)) fun hv =>
        (h.serves v hv).of_same rfl rfl fun q hq => by
          rcases List.mem_append.mp hq with hold | hnew
          · exact Or.inl hold
          · obtain ⟨conn, -, rfl⟩ := List.mem_map.mp hnew
            exact Or.inr fun _ => Or.inr ⟨m, hm, congrArg encode hrequest⟩
      refine ⟨hput.serves, hput.wire, fun r hr => h.relays r (List.mem_of_mem_eraseIdx hr), ?_⟩
      intro c hc
      rcases List.mem_append.mp hc with hold | hnew
      · exact h.closing c hold
      · rw [List.mem_singleton.mp hnew]
        exact ⟨hv, hm⟩
    · exact h
    · exact h
  | settle k =>
    unfold Network.step
    dsimp only
    split
    · rename_i v m hk
      obtain ⟨hv, hm⟩ := h.closing _ (List.mem_of_getElem? hk)
      have hput := h.put (v := v) fun hv => (h.serves v hv).settle hm
      exact ⟨hput.serves, hput.wire, hput.relays,
        fun c hc => h.closing c (List.mem_of_mem_eraseIdx hc)⟩
    · exact h

end Network

end Server
end KvJet
