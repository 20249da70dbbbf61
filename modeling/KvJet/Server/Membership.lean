import KvJet.Server.Connections
import KvJet.Server.Gossip
import KvJet.Server.Handler
import KvJet.Server.Network
import Mathlib.Data.Finset.Basic

/-!
# NODEIN and NODEOUT

`Handler::NODEIN` and `Handler::NODEOUT`, and what is left of a set of these messages on a server
that has handled all of them, in any order and with any duplicates: the topology, and the nodes
that are on the ring.

A node that leaves is taken out, and a node that joins is put in, so it matters which of the two is
handled last. And NODEOUT takes its node for an `int`: it takes out the node whose UUID has these
32 bits, if there is one, and not the one that leaves.
-/

namespace KvJet
namespace Server

open OrderedMap (Ordered)
open Resp
open Raft (Uuid)

/-- `int uuid = ...`, and where it is given to a parameter of type `uint64_t`. -/
def asInt (uuid : Uuid) : Uuid := uuid.toUInt32.toInt32.toInt64.toUInt64

/-- The members of `Server` and `Cluster` that the two handlers reach. -/
structure Membership where
  cluster : Cluster
  peers : Peers := {}
  gossip : GossipCache := []
  messageQueue : List (Bytes × Int) := []
  /-- The nodes that `sendDataToNode` has been called for. -/
  migrations : List Uuid := []

abbrev MembershipM := Method Fault Membership

namespace Membership

def push (s : Membership) (text : Bytes) (fd : Int) : Membership :=
  { s with messageQueue := s.messageQueue ++ [(text, fd)] }

/-- To every connected node. -/
def broadcast (s : Membership) (text : Bytes) : Membership :=
  { s with messageQueue := s.messageQueue ++ s.peers.connections.map fun conn => (text, conn.2) }

/-- `heartbeat_time`, which `delTopoNode` also changes, is not here. -/
def delTopoNode (s : Membership) (uuid : Uuid) : Membership :=
  { s with
    peers := s.peers.delConnection uuid
    cluster := { s.cluster with topo := OrderedMap.erase uuid s.cluster.topo } }

def enter (s : Membership) (node : ClusterNode) : Membership :=
  { s with cluster := (s.cluster.addNodeToHash node.uuid).addTopoNode node }

/-- `NODEIN` from where the node is known. -/
def join (s : Membership) (node : ClusterNode) : Membership :=
  if s.peers.getConnection node.uuid ≠ -1 then
    let s := s.enter node
    let s := { s with migrations := s.migrations ++ [node.uuid] }
    s.push (ascii "REBUILD_RAFTS") (-2)
  else
    let s := s.push (node.ip ++ ascii " " ++ toString node.port.toNat ++ ascii " "
      ++ toString node.uuid.toNat) (-1)
    (s.enter node).push (ascii "REBUILD_RAFTS") (-2)

/-- `NODEOUT` from where the node is known. -/
def leave (s : Membership) (nodeId : Uuid) : Membership :=
  let uuid := asInt nodeId
  let s := { s with cluster := s.cluster.delNodeToHash uuid }
  let s := s.delTopoNode uuid
  { s with peers := s.peers.delConnection uuid }

end Membership

namespace Handler

/-- Both handlers begin so: whether the message is a new one, which is then in the cache. -/
def firstSight (fault : String) (elements : Elements) (now : UInt64) : MembershipM Bool := do
  match ← Method.lift (deref elements 1) with
  | .simpleString uuid =>
    if (← get).gossip.findGossip (toUint64 uuid) then return false
    modify fun s => { s with gossip := s.gossip.addGossip now (toUint64 uuid) }
    return true
  | _ => throw (.exception fault)

def NODEIN (request : RespValue) (now : UInt64) : MembershipM Bytes := do
  let elements ← Method.lift (elementsOf request)
  if elements.length ≠ 3 then throw (.exception "NODEIN: Wrong number of arguments")
  if !(← firstSight "NODEIN: UUID is not a SimpleString" elements now) then return []
  let text ← Method.lift (encodeRequest elements)
  modify fun s => s.broadcast text
  let node ← Method.lift (getNode (← Method.lift (deref elements 2)))
  modify fun s => s.join node
  return []

def NODEOUT (request : RespValue) (now : UInt64) : MembershipM Bytes := do
  let elements ← Method.lift (elementsOf request)
  if elements.length ≠ 3 then throw (.exception "NODEOUT: Wrong number of arguments")
  if !(← firstSight "NODEOUT:UUID is not a SimpleString" elements now) then return []
  let text ← Method.lift (encodeRequest elements)
  modify fun s => s.broadcast text
  match ← Method.lift (deref elements 2) with
  | .simpleString nodeId =>
    modify fun s => s.leave (toUint64 nodeId)
    return []
  | _ => throw (.exception "NODEOUT: node_id is not a SimpleString")

end Handler

/-! ## Messages -/

/-- A gossip message, with its id. -/
inductive Message where
  | nodeIn (id : UInt64) (node : ClusterNode)
  | nodeOut (id : UInt64) (uuid : Uuid)
deriving DecidableEq, Repr

namespace Message

def id : Message → UInt64
  | nodeIn id _ | nodeOut id _ => id

/-- The node that a message puts in or takes out. -/
def target : Message → Uuid
  | nodeIn _ node => node.uuid
  | nodeOut _ uuid => asInt uuid

/-- The node that joins. -/
def joined : Message → Option Uuid
  | nodeIn _ node => some node.uuid
  | nodeOut _ _ => none

/-- As `joinCluster` and `gracefulShutdown` write it. -/
def request : Message → RespValue
  | nodeIn id node => .array (some [.simpleString (ascii "NODEIN"),
      .simpleString (toString id.toNat), nodeValue node])
  | nodeOut id uuid => .array (some [.simpleString (ascii "NODEOUT"),
      .simpleString (toString id.toNat), .simpleString (toString uuid.toNat)])

/-- What is left of a message in the cluster. -/
def effect (c : Cluster) : Message → Cluster
  | nodeIn _ node => (c.addNodeToHash node.uuid).addTopoNode node
  | nodeOut _ uuid =>
    let c := c.delNodeToHash (asInt uuid)
    { c with topo := OrderedMap.erase (asInt uuid) c.topo }

end Message

namespace Membership

/-- A worker handles a message when the clock shows `now`. -/
def handle (s : Membership) (one : UInt64 × Message) : Membership :=
  match one.2 with
  | .nodeIn _ _ => ((Handler.NODEIN one.2.request one.1).call s).2
  | .nodeOut _ _ => ((Handler.NODEOUT one.2.request one.1).call s).2

abbrev exec (s : Membership) (run : List (UInt64 × Message)) : Membership := Run.exec handle s run

section Handling

variable {s : Membership} {fault : String} {elements : Elements} {now id : UInt64}

theorem firstSight_new (helements : deref elements 1 = .ok (.simpleString (toString id.toNat)))
    (h : s.gossip.findGossip id = false) :
    (Handler.firstSight fault elements now).call s
      = (.ok true, { s with gossip := s.gossip.addGossip now id }) := by
  unfold Handler.firstSight
  rw [helements, Method.call_bind_ok (Method.call_lift _ s)]
  dsimp only
  rw [Method.call_bind_ok (Method.call_get s), toUint64_toString, h]
  rfl

theorem firstSight_known (helements : deref elements 1 = .ok (.simpleString (toString id.toNat)))
    (h : s.gossip.findGossip id = true) :
    (Handler.firstSight fault elements now).call s = (.ok false, s) := by
  unfold Handler.firstSight
  rw [helements, Method.call_bind_ok (Method.call_lift _ s)]
  dsimp only
  rw [Method.call_bind_ok (Method.call_get s), toUint64_toString, h]
  rfl

/-- A message whose id is in the cache changes nothing. -/
theorem handle_known (m : Message) (h : s.gossip.findGossip m.id = true) :
    s.handle (now, m) = s := by
  cases m with
  | nodeIn id node =>
    show ((Handler.NODEIN _ now).call s).2 = s
    unfold Handler.NODEIN
    rw [show Handler.elementsOf (Message.nodeIn id node).request = .ok _ from rfl,
      Method.call_bind_ok (Method.call_lift _ s), if_neg (by simp)]
    rw [Method.call_bind_ok (firstSight_known rfl h)]
    rfl
  | nodeOut id uuid =>
    show ((Handler.NODEOUT _ now).call s).2 = s
    unfold Handler.NODEOUT
    rw [show Handler.elementsOf (Message.nodeOut id uuid).request = .ok _ from rfl,
      Method.call_bind_ok (Method.call_lift _ s), if_neg (by simp)]
    rw [Method.call_bind_ok (firstSight_known rfl h)]
    rfl

theorem join_keeps (s : Membership) (node : ClusterNode) :
    (s.join node).cluster = (s.cluster.addNodeToHash node.uuid).addTopoNode node ∧
      (s.join node).gossip = s.gossip := by
  unfold join
  split <;> simp only [push, enter, and_self]

/-- Another one has its effect, and its id is put into the cache. -/
theorem handle_new (m : Message) (h : s.gossip.findGossip m.id = false) :
    (s.handle (now, m)).cluster = m.effect s.cluster ∧
      (s.handle (now, m)).gossip = s.gossip.addGossip now m.id := by
  cases m with
  | nodeIn id node =>
    show ((Handler.NODEIN _ now).call s).2.cluster = _ ∧ ((Handler.NODEIN _ now).call s).2.gossip = _
    unfold Handler.NODEIN
    rw [show Handler.elementsOf (Message.nodeIn id node).request = .ok _ from rfl,
      Method.call_bind_ok (Method.call_lift _ s), if_neg (by simp),
      Method.call_bind_ok (firstSight_new rfl h), if_neg (by simp),
      show encodeRequest _ = .ok _ from rfl,
      Method.call_bind_ok (Method.call_lift _ _), Method.call_bind_ok (Method.call_modify _ _),
      show deref _ 2 = .ok (nodeValue node) from rfl, Method.call_bind_ok (Method.call_lift _ _),
      getNode_nodeValue, Method.call_bind_ok (Method.call_lift _ _),
      Method.call_bind_ok (Method.call_modify _ _)]
    obtain ⟨hcluster, hgossip⟩ := join_keeps (broadcast { s with
      gossip := s.gossip.addGossip now id } _) node
    exact ⟨hcluster, hgossip⟩
  | nodeOut id uuid =>
    show ((Handler.NODEOUT _ now).call s).2.cluster = _ ∧ ((Handler.NODEOUT _ now).call s).2.gossip = _
    unfold Handler.NODEOUT
    rw [show Handler.elementsOf (Message.nodeOut id uuid).request = .ok _ from rfl,
      Method.call_bind_ok (Method.call_lift _ s), if_neg (by simp),
      Method.call_bind_ok (firstSight_new rfl h), if_neg (by simp),
      show encodeRequest _ = .ok _ from rfl,
      Method.call_bind_ok (Method.call_lift _ _), Method.call_bind_ok (Method.call_modify _ _),
      show deref _ 2 = .ok (.simpleString (toString uuid.toNat)) from rfl,
      Method.call_bind_ok (Method.call_lift _ _)]
    dsimp only
    rw [Method.call_bind_ok (Method.call_modify _ _), toUint64_toString]
    exact ⟨rfl, rfl⟩

end Handling

/-- **What a server makes of a run**: the effects of some of the messages it handles, in their
order, and of each that is not in its cache when it starts at least once.

A message that is in the cache already is dropped, and one that is not has its effect and is put
there. The cache may forget, so the same message can have its effect again; that it has it once at
least is all that can be said. -/
theorem exec_effects : ∀ (run : List (UInt64 × Message)) (s : Membership),
    (∀ m ∈ run.map Prod.snd, ∀ m' ∈ run.map Prod.snd, m.id = m'.id → m = m') →
    ∃ es : List Message, (s.exec run).cluster = Run.exec Message.effect s.cluster es ∧
      es.Sublist (run.map Prod.snd) ∧
      ∀ m ∈ run.map Prod.snd, s.gossip.findGossip m.id = false → m ∈ es := by
  intro run
  induction run with
  | nil =>
    intro s _
    exact ⟨[], rfl, List.Sublist.slnil, by simp⟩
  | cons one run ih =>
    intro s hids
    obtain ⟨now, m⟩ := one
    have htail : ∀ a ∈ run.map Prod.snd, ∀ b ∈ run.map Prod.snd, a.id = b.id → a = b :=
      fun a ha b hb => hids a (List.mem_cons_of_mem _ ha) b (List.mem_cons_of_mem _ hb)
    obtain ⟨es, hexec, hmem, hall⟩ := ih (s.handle (now, m)) htail
    rw [show s.exec ((now, m) :: run) = (s.handle (now, m)).exec run from rfl, hexec]
    cases hfind : s.gossip.findGossip m.id with
    | true =>
      rw [handle_known m hfind] at hall ⊢
      refine ⟨es, rfl, hmem.cons m, ?_⟩
      intro a ha hnew
      rcases List.mem_cons.mp ha with rfl | ha
      · rw [hfind] at hnew
        exact absurd hnew (by simp)
      · exact hall a ha hnew
    | false =>
      obtain ⟨hcluster, hgossip⟩ : (s.handle (now, m)).cluster = m.effect s.cluster ∧
          (s.handle (now, m)).gossip = s.gossip.addGossip now m.id := handle_new m hfind
      rw [hcluster]
      refine ⟨m :: es, rfl, hmem.cons_cons m, fun a ha hnew => ?_⟩
      by_cases hid : a.id = m.id
      · rw [hids a ha m List.mem_cons_self hid]
        exact List.mem_cons_self
      · refine List.mem_cons_of_mem _ (hall a ?_ ?_)
        · exact (List.mem_cons.mp ha).resolve_left fun h => hid (congrArg Message.id h)
        · rw [hgossip]
          exact GossipCache.findGossip_addGossip_of_ne hid hnew

end Membership

/-! ## Effects

What a message does to ring and topology, without the duplicate check. A run comes to a sequence of
such effects. -/

namespace Message

/-- Some point of every node that joins is touched by no other message of the set. -/
def Undisturbed (msgs : Finset Message) : Prop :=
  ∀ m ∈ msgs, ∀ u ∈ m.joined, ∃ p ∈ Cluster.pointsOf u,
    ∀ m' ∈ msgs, m' ≠ m → p ∉ Cluster.pointsOf m'.target

theorem nodeHash_effect (c : Cluster) (m : Message) :
    (m.effect c).nodeHash = if m.joined.isSome
      then Cluster.addPoints m.target (Cluster.pointsOf m.target) c.nodeHash
      else Cluster.delPoints (Cluster.pointsOf m.target) c.nodeHash := by
  cases m with
  | nodeIn id node =>
    simp only [effect, Cluster.addTopoNode, Cluster.nodeHash_addNodeToHash, joined, target,
      Option.isSome_some, if_true]
  | nodeOut id uuid =>
    simp only [effect, Cluster.nodeHash_delNodeToHash, joined, target, Option.isSome_none,
      Bool.false_eq_true, if_false]

theorem ordered_effect {c : Cluster} (h : Ordered c.nodeHash) (m : Message) :
    Ordered (m.effect c).nodeHash := by
  rw [nodeHash_effect]
  split
  · exact Cluster.ordered_addPoints h
  · exact Cluster.ordered_delPoints h

theorem ordered_effects {c : Cluster} (h : Ordered c.nodeHash) (es : List Message) :
    Ordered (Run.exec effect c es).nodeHash := by
  induction es generalizing c with
  | nil => exact h
  | cons m es ih => exact ih (ordered_effect h m)

/-- One message, point by point. -/
theorem mem_ring_effect {c : Cluster} (h : Ordered c.nodeHash) {m : Message} {p : UInt64}
    {u : Uuid} : (p, u) ∈ (m.effect c).nodeHash ↔
      (u ∈ m.joined ∧ p ∈ Cluster.pointsOf u) ∨
        ((p, u) ∈ c.nodeHash ∧ p ∉ Cluster.pointsOf m.target) := by
  rw [nodeHash_effect]
  cases m with
  | nodeIn id node =>
    rw [if_pos (by simp [joined]), Cluster.mem_addPoints_iff h]
    refine or_congr_left ⟨?_, ?_⟩
    · rintro ⟨rfl, hp⟩
      exact ⟨rfl, hp⟩
    · rintro ⟨hu, hp⟩
      obtain rfl : node.uuid = u := Option.some.inj hu
      exact ⟨rfl, hp⟩
  | nodeOut id uuid =>
    rw [if_neg (by simp [joined]), Cluster.mem_delPoints_iff]
    simp [joined]

/-- A point is the one of a node that has joined, or it has been there and is untouched. -/
theorem of_mem_ring {c : Cluster} (h : Ordered c.nodeHash) {p : UInt64} {u : Uuid} :
    ∀ {es : List Message}, (p, u) ∈ (Run.exec effect c es).nodeHash →
      (∃ m ∈ es, u ∈ m.joined) ∨
        ((p, u) ∈ c.nodeHash ∧ ∀ m ∈ es, p ∉ Cluster.pointsOf m.target) := by
  intro es
  induction es using List.reverseRecOn with
  | nil => exact fun hp => Or.inr ⟨hp, by simp⟩
  | append_singleton es m ih =>
    intro hp
    rw [Run.exec_append, Run.exec_cons, Run.exec_nil,
      mem_ring_effect (ordered_effects h es)] at hp
    rcases hp with ⟨hu, -⟩ | ⟨hp, hfree⟩
    · exact Or.inl ⟨m, by simp, hu⟩
    · rcases ih hp with ⟨m', hm', hu⟩ | ⟨hold, hes⟩
      · exact Or.inl ⟨m', List.mem_append_left _ hm', hu⟩
      · refine Or.inr ⟨hold, fun m' hm' => ?_⟩
        rcases List.mem_append.mp hm' with hm' | hm'
        · exact hes m' hm'
        · rw [List.mem_singleton.mp hm']
          exact hfree

/-- What has been there stays if it is untouched. -/
theorem mem_ring_of_untouched {c : Cluster} (h : Ordered c.nodeHash) {p : UInt64} {u : Uuid} :
    ∀ {es : List Message}, (p, u) ∈ c.nodeHash → (∀ m ∈ es, p ∉ Cluster.pointsOf m.target) →
      (p, u) ∈ (Run.exec effect c es).nodeHash := by
  intro es
  induction es using List.reverseRecOn with
  | nil => exact fun hp _ => hp
  | append_singleton es m ih =>
    intro hp hfree
    rw [Run.exec_append, Run.exec_cons, Run.exec_nil, mem_ring_effect (ordered_effects h es)]
    refine Or.inr ⟨ih hp fun m' hm' => hfree m' (List.mem_append_left _ hm'), ?_⟩
    exact hfree m (by simp)

/-- A node that has joined stays, if one of its points is touched by no other message. -/
theorem mem_ring_of_joined {c : Cluster} (h : Ordered c.nodeHash) {p : UInt64} {u : Uuid}
    {m : Message} (hu : u ∈ m.joined) (hp : p ∈ Cluster.pointsOf u) :
    ∀ {es : List Message}, m ∈ es → (∀ m' ∈ es, m' ≠ m → p ∉ Cluster.pointsOf m'.target) →
      (p, u) ∈ (Run.exec effect c es).nodeHash := by
  intro es
  induction es using List.reverseRecOn with
  | nil => exact fun hm => absurd hm List.not_mem_nil
  | append_singleton es last ih =>
    intro hm hfree
    rw [Run.exec_append, Run.exec_cons, Run.exec_nil, mem_ring_effect (ordered_effects h es)]
    by_cases hlast : last = m
    · subst hlast
      exact Or.inl ⟨hu, hp⟩
    · refine Or.inr ⟨ih ?_ fun m' hm' => hfree m' (List.mem_append_left _ hm'), ?_⟩
      · exact (List.mem_append.mp hm).resolve_right fun h =>
          hlast (List.mem_singleton.mp h).symm
      · exact hfree last (by simp) hlast

/-! ## The topology -/

theorem mem_topo_effect {c : Cluster} (h : Ordered c.topo) {m : Message} {u : Uuid}
    {node : ClusterNode} : (u, node) ∈ (m.effect c).topo ↔
      (∃ id, m = nodeIn id node ∧ node.uuid = u) ∨ ((u, node) ∈ c.topo ∧ u ≠ m.target) := by
  cases m with
  | nodeIn id node' =>
    have htopo : (effect c (nodeIn id node')).topo = OrderedMap.insert node'.uuid node' c.topo := by
      rw [← assign_eq_insert]
      simp only [effect, Cluster.addTopoNode, Cluster.addNodeToHash]
    rw [htopo, OrderedMap.mem_insert h]
    refine or_congr_left ⟨?_, ?_⟩
    · intro heq
      obtain ⟨rfl, rfl⟩ := Prod.mk.inj heq
      exact ⟨id, rfl, rfl⟩
    · rintro ⟨id', heq, rfl⟩
      rw [(nodeIn.inj heq).2]
  | nodeOut id uuid =>
    have htopo : (effect c (nodeOut id uuid)).topo = OrderedMap.erase (asInt uuid) c.topo := by
      simp only [effect, Cluster.delNodeToHash]
    rw [htopo, OrderedMap.mem_erase]
    simp [target]

theorem ordered_topo_effect {c : Cluster} (h : Ordered c.topo) (m : Message) :
    Ordered (m.effect c).topo := by
  cases m with
  | nodeIn id node =>
    simp only [effect, Cluster.addTopoNode, Cluster.addNodeToHash, assign_eq_insert]
    exact h.insert _ _
  | nodeOut id uuid =>
    simp only [effect, Cluster.delNodeToHash]
    exact h.erase _

theorem ordered_topo_effects {c : Cluster} (h : Ordered c.topo) (es : List Message) :
    Ordered (Run.exec effect c es).topo := by
  induction es generalizing c with
  | nil => exact h
  | cons m es ih => exact ih (ordered_topo_effect h m)

/-- Messages that target the node of a join do not come with it undisturbed. -/
theorem Undisturbed.target_ne {msgs : Finset Message} (h : Undisturbed msgs) {m m' : Message}
    {u : Uuid} (hm : m ∈ msgs) (hu : u ∈ m.joined) (hm' : m' ∈ msgs) (hne : m' ≠ m) :
    m'.target ≠ u := by
  obtain ⟨p, hp, hfree⟩ := h m hm u hu
  rintro rfl
  exact hfree m' hm' hne hp

/-- Undisturbed, the nodes that have joined are there, and those that have been there and are
nobody's target. -/
theorem mem_topo_effects {c : Cluster} (h : Ordered c.topo) {msgs : Finset Message}
    (hfree : Undisturbed msgs) {u : Uuid} {node : ClusterNode} :
    ∀ {es : List Message}, (∀ m ∈ es, m ∈ msgs) →
      ((u, node) ∈ (Run.exec effect c es).topo ↔
        (∃ id, nodeIn id node ∈ es ∧ node.uuid = u) ∨
          ((u, node) ∈ c.topo ∧ ∀ m ∈ es, u ≠ m.target)) := by
  intro es
  induction es using List.reverseRecOn with
  | nil => exact fun _ => by simp
  | append_singleton es m ih =>
    intro hes
    have ih := ih fun m' hm' => hes m' (List.mem_append_left _ hm')
    rw [Run.exec_append, Run.exec_cons, Run.exec_nil, mem_topo_effect (ordered_topo_effects h es),
      ih]
    constructor
    · rintro (⟨id, rfl, hu⟩ | ⟨⟨id, hid, hu⟩ | ⟨hin, hother⟩, hne⟩)
      · exact Or.inl ⟨id, by simp, hu⟩
      · exact Or.inl ⟨id, List.mem_append_left _ hid, hu⟩
      · refine Or.inr ⟨hin, fun m' hm' => ?_⟩
        rcases List.mem_append.mp hm' with hm' | hm'
        · exact hother m' hm'
        · rw [List.mem_singleton.mp hm']
          exact hne
    · rintro (⟨id, hid, hu⟩ | ⟨hin, hother⟩)
      · by_cases heq : m = nodeIn id node
        · exact Or.inl ⟨id, heq, hu⟩
        · have hold := (List.mem_append.mp hid).resolve_right fun h' =>
            heq (List.mem_singleton.mp h').symm
          refine Or.inr ⟨Or.inl ⟨id, hold, hu⟩, Ne.symm ?_⟩
          exact hfree.target_ne (hes _ hid) (congrArg some hu) (hes m (by simp)) heq
      · refine Or.inr ⟨Or.inr ⟨hin, fun m' hm' => hother m' (List.mem_append_left _ hm')⟩, ?_⟩
        exact hother m (by simp)

end Message

/-! ## Two servers

They handle the same set of messages, each in its own order and with its own duplicates. -/

/-- A set of messages with distinct ids, at most one NODEIN among them for each node. (There may be
several NODEOUTs for a node.) -/
structure Batch where
  messages : Finset Message
  ids : ∀ m ∈ messages, ∀ m' ∈ messages, m.id = m'.id → m = m'
  joins : ∀ m ∈ messages, ∀ m' ∈ messages, ∀ u ∈ m.joined, u ∈ m'.joined → m = m'

namespace Batch

variable (b : Batch) (c : Cluster)

/-- A server with this topology and ring that has seen none of the messages. -/
structure Fresh (s : Membership) : Prop where
  topo : s.cluster.topo = c.topo
  ring : s.cluster.nodeHash = c.nodeHash
  unseen : ∀ m ∈ b.messages, s.gossip.findGossip m.id = false

/-- All messages of the set and no others, in some order and with duplicates, at any times. -/
def Covers (run : List (UInt64 × Message)) : Prop := ∀ m, m ∈ run.map Prod.snd ↔ m ∈ b.messages

/-- Two servers that handle all of the messages end with the same topology and the same members. -/
def Converges : Prop :=
  ∀ s₁ s₂ run₁ run₂, b.Fresh c s₁ → b.Fresh c s₂ → b.Covers run₁ → b.Covers run₂ →
    (s₁.exec run₁).cluster.topo = (s₂.exec run₂).cluster.topo ∧
      ∀ u, (s₁.exec run₁).cluster.OnRing u ↔ (s₂.exec run₂).cluster.OnRing u

variable {b c}

/-- The effects of a run that covers the set are those of the set. -/
theorem Covers.effects {s : Membership} {run : List (UInt64 × Message)} (hrun : b.Covers run)
    (hs : b.Fresh c s) : ∃ es : List Message,
      (s.exec run).cluster = Run.exec Message.effect s.cluster es ∧
        es.Sublist (run.map Prod.snd) ∧ ∀ m, m ∈ es ↔ m ∈ b.messages := by
  obtain ⟨es, hexec, hsub, hall⟩ := Membership.exec_effects run s fun m hm m' hm' hid =>
    b.ids m ((hrun m).mp hm) m' ((hrun m').mp hm') hid
  refine ⟨es, hexec, hsub, fun m => ⟨fun hm => (hrun m).mp (hsub.subset hm), fun hm => ?_⟩⟩
  exact hall m ((hrun m).mpr hm) (hs.unseen m hm)

/-- Undisturbed, the members are those that have joined and those that have an untouched point. -/
theorem onRing_iff {s : Membership} {es : List Message} (hc : c.MapsOk) (hs : b.Fresh c s)
    (hfree : Message.Undisturbed b.messages) (hes : ∀ m, m ∈ es ↔ m ∈ b.messages) (u : Uuid) :
    (Run.exec Message.effect s.cluster es).OnRing u ↔
      (∃ m ∈ b.messages, u ∈ m.joined) ∨
        ∃ p, (p, u) ∈ c.nodeHash ∧ ∀ m ∈ b.messages, p ∉ Cluster.pointsOf m.target := by
  have hord : Ordered s.cluster.nodeHash := hs.ring ▸ hc.ring
  constructor
  · rintro ⟨p, hp⟩
    rcases Message.of_mem_ring hord hp with ⟨m, hm, hu⟩ | ⟨hold, hclear⟩
    · exact Or.inl ⟨m, (hes m).mp hm, hu⟩
    · exact Or.inr ⟨p, hs.ring ▸ hold, fun m hm => hclear m ((hes m).mpr hm)⟩
  · rintro (⟨m, hm, hu⟩ | ⟨p, hp, hclear⟩)
    · obtain ⟨p, hp, hclear⟩ := hfree m hm u hu
      exact ⟨p, Message.mem_ring_of_joined hord hu hp ((hes m).mpr hm)
        fun m' hm' => hclear m' ((hes m').mp hm')⟩
    · exact ⟨p, Message.mem_ring_of_untouched hord (hs.ring ▸ hp)
        fun m hm => hclear m ((hes m).mp hm)⟩

theorem converges_of_undisturbed (hc : c.MapsOk) (hfree : Message.Undisturbed b.messages) :
    b.Converges c := by
  intro s₁ s₂ run₁ run₂ hs₁ hs₂ hrun₁ hrun₂
  obtain ⟨es₁, hexec₁, -, hes₁⟩ := hrun₁.effects hs₁
  obtain ⟨es₂, hexec₂, -, hes₂⟩ := hrun₂.effects hs₂
  rw [hexec₁, hexec₂]
  constructor
  · have htopo₁ : Ordered s₁.cluster.topo := hs₁.topo ▸ hc.topo
    have htopo₂ : Ordered s₂.cluster.topo := hs₂.topo ▸ hc.topo
    refine (Message.ordered_topo_effects htopo₁ es₁).ext
      (Message.ordered_topo_effects htopo₂ es₂) fun ⟨u, node⟩ => ?_
    rw [Message.mem_topo_effects htopo₁ hfree fun m => (hes₁ m).mp,
      Message.mem_topo_effects htopo₂ hfree fun m => (hes₂ m).mp, hs₁.topo, hs₂.topo]
    simp only [hes₁, hes₂]
  · intro u
    rw [onRing_iff hc hs₁ hfree hes₁, onRing_iff hc hs₂ hfree hes₂]

/-- A run without duplicates has just its own effects. -/
theorem exec_of_nodup {s : Membership} {ms : List Message} (hs : b.Fresh c s) (hnodup : ms.Nodup)
    (hms : ∀ m, m ∈ ms ↔ m ∈ b.messages) :
    b.Covers (ms.map fun m => (0, m)) ∧
      (s.exec (ms.map fun m => (0, m))).cluster = Run.exec Message.effect s.cluster ms := by
  have hsnd : (ms.map fun m => ((0 : UInt64), m)).map Prod.snd = ms := by simp
  have hcovers : b.Covers (ms.map fun m => (0, m)) := by
    intro m
    rw [hsnd]
    exact hms m
  obtain ⟨es, hexec, hsub, hes⟩ := hcovers.effects hs
  rw [hsnd] at hsub
  have hlen : ms.length ≤ es.length :=
    (hnodup.subperm fun m hm => (hes m).mpr ((hms m).mp hm)).length_le
  rw [hexec, hsub.eq_of_length_le hlen]
  exact ⟨hcovers, rfl⟩

/-- **Membership converges** exactly if every node that joins has a point that no other message of
the set touches.

A message that takes a node out touches all its points. So where a node that joins has a point of
its own, no message takes it out, and the topology, which each message writes at its own node, comes
out the same in any order. The point is then the node's in any order, too; and a node without such a
point is on the ring or off it as the messages come, since the last one to touch a point has it. -/
theorem converges_iff (b : Batch) (c : Cluster) (hc : c.MapsOk) :
    b.Converges c ↔ Message.Undisturbed b.messages := by
  refine ⟨fun h => ?_, converges_of_undisturbed hc⟩
  by_contra hdisturbed
  unfold Message.Undisturbed at hdisturbed
  push Not at hdisturbed
  obtain ⟨m, hm, u, hu, htouched⟩ := hdisturbed
  -- the others first, and the others last
  have hs : b.Fresh c { cluster := c } := ⟨rfl, rfl, fun _ _ => rfl⟩
  have hnotin : m ∉ (b.messages.erase m).toList := by simp
  have hfirst : ∀ m', m' ∈ m :: (b.messages.erase m).toList ↔ m' ∈ b.messages := by
    intro m'
    by_cases heq : m' = m
    · simp [heq, hm]
    · simp [heq]
  have hlast : ∀ m', m' ∈ (b.messages.erase m).toList ++ [m] ↔ m' ∈ b.messages := by
    intro m'
    by_cases heq : m' = m
    · simp [heq, hm]
    · simp [heq]
  have hnodup := (b.messages.erase m).nodup_toList
  obtain ⟨hcover₁, hexec₁⟩ := exec_of_nodup hs (List.nodup_cons.mpr ⟨hnotin, hnodup⟩) hfirst
  obtain ⟨hcover₂, hexec₂⟩ := exec_of_nodup hs
    (List.nodup_append_comm.mp (List.nodup_cons.mpr ⟨hnotin, hnodup⟩)) hlast
  obtain ⟨-, hmembers⟩ := h _ _ _ _ hs hs hcover₁ hcover₂
  have hmembers := hmembers u
  rw [hexec₁, hexec₂] at hmembers
  have hin : (Run.exec Message.effect c ((b.messages.erase m).toList ++ [m])).OnRing u := by
    obtain ⟨p, hp⟩ := List.exists_mem_of_ne_nil _ (Cluster.pointsOf_ne_nil u)
    refine ⟨p, ?_⟩
    rw [Run.exec_append, Run.exec_cons, Run.exec_nil,
      Message.mem_ring_effect (Message.ordered_effects hc.ring _)]
    exact Or.inl ⟨hu, hp⟩
  obtain ⟨p, hp⟩ := hmembers.mpr hin
  rcases Message.of_mem_ring (Message.ordered_effect hc.ring m) hp with
    ⟨m', hm', hu'⟩ | ⟨hold, hclear⟩
  · have hm' := Finset.mem_erase.mp (Finset.mem_toList.mp hm')
    exact hm'.1 (b.joins m' hm'.2 m hm u hu' hu)
  · have hpoint : p ∈ Cluster.pointsOf u := by
      rcases (Message.mem_ring_effect hc.ring).mp hold with ⟨-, hp⟩ | ⟨hp, -⟩
      · exact hp
      · exact hc.own p u hp
    obtain ⟨m', hm', hne, htouch⟩ := htouched p hpoint
    exact hclear m' (Finset.mem_toList.mpr (Finset.mem_erase.mpr ⟨hne, hm'⟩)) htouch

/-- Node 1 joins, and node 2^32 leaves, which is node 0 as an `int`. -/
def oneComesOneGoes : Batch where
  messages := {.nodeIn 1 ⟨ascii "127.0.0.1", 7801, 1⟩, .nodeOut 2 4294967296}
  ids := by decide
  joins := by simp [Message.joined]

theorem converges_oneComesOneGoes :
    asInt 4294967296 = 0 ∧
      oneComesOneGoes.Converges { selfNode := ⟨ascii "127.0.0.1", 7800, 9⟩ } := by
  refine ⟨by decide, (converges_iff oneComesOneGoes _ ⟨?_, ?_, ?_⟩).mpr ?_⟩
  · exact OrderedMap.ordered_nil
  · exact OrderedMap.ordered_nil
  · intro p u hp
    exact absurd hp List.not_mem_nil
  · intro m hm u hu
    have hm : m = .nodeIn 1 ⟨ascii "127.0.0.1", 7801, 1⟩ ∨ m = .nodeOut 2 4294967296 := by
      simpa [oneComesOneGoes] using hm
    rcases hm with rfl | rfl
    · obtain rfl : 1 = u := Option.some.inj hu
      obtain ⟨p, hp⟩ := List.exists_mem_of_ne_nil _ (Cluster.pointsOf_ne_nil 1)
      refine ⟨p, hp, fun m' hm' hne hp' => ?_⟩
      obtain rfl : m' = .nodeOut 2 4294967296 := by
        simpa [oneComesOneGoes, hne] using hm'
      obtain rfl := Cluster.eq_zero_of_mem_pointsOf_zero p hp'
      exact Cluster.zero_not_mem_pointsOf_one hp
    · exact absurd hu (by simp [Message.joined])

/-- Node 5 joins and leaves. -/
def comesAndGoes : Batch where
  messages := {.nodeIn 1 ⟨ascii "127.0.0.1", 7805, 5⟩, .nodeOut 2 5}
  ids := by decide
  joins := by simp [Message.joined]

/-- It stays in the topology of the server that hears of its leaving first. -/
theorem comesAndGoes_diverges :
    ¬ comesAndGoes.Converges { selfNode := ⟨ascii "127.0.0.1", 7800, 9⟩ } := by
  intro h
  have hs : comesAndGoes.Fresh { selfNode := ⟨ascii "127.0.0.1", 7800, 9⟩ }
      { cluster := { selfNode := ⟨ascii "127.0.0.1", 7800, 9⟩ } } := ⟨rfl, rfl, fun _ _ => rfl⟩
  obtain ⟨htopo, -⟩ := h _ _
    [(0, .nodeIn 1 ⟨ascii "127.0.0.1", 7805, 5⟩), (0, .nodeOut 2 5)]
    [(0, .nodeOut 2 5), (0, .nodeIn 1 ⟨ascii "127.0.0.1", 7805, 5⟩)] hs hs
    (fun m => by simp [comesAndGoes]) (fun m => by simp [comesAndGoes, or_comm])
  exact absurd htopo (by decide +kernel)

end Batch
end Server
end KvJet
