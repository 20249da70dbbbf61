import KvJet.Resp.RoundTrip
import KvJet.Server.Membership

/-!
# A node that leaves

The way of a UUID out of the cluster: `gracefulShutdown` writes it in decimal, `RespParser` and
`to_uint64_t` read it back, and `NODEOUT` puts it into an `int` before it uses it as a key. What is
removed is then the node itself exactly if its UUID is the same 64 bits again after that; and all
of its entries go exactly if the two connection maps agree about it (`nodeOut_removes_iff`).
-/

namespace KvJet
namespace Server

open Resp
open Raft (Uuid)

/-- What `gracefulShutdown` sends to the other nodes. -/
def nodeoutCmd (gossip uuid : UInt64) : Bytes :=
  ascii "*3\r\n+NODEOUT\r\n+" ++ toString gossip.toNat ++ ascii "\r\n+" ++ toString uuid.toNat ++
    ascii "\r\n"

theorem encode_nodeOut (gossip uuid : UInt64) :
    encode (Message.nodeOut gossip uuid).request = nodeoutCmd gossip uuid := by
  have hthree : toString 3 = ascii "3" := by decide
  simp [nodeoutCmd, Message.request, encode, encodeElements, encodeSimpleString, hthree, ascii,
    crlf, star, plus, cr, lf]

theorem wire_nodeOut (gossip uuid : UInt64) : (Message.nodeOut gossip uuid).request.Wire := by
  have hname : cr ∉ ascii "NODEOUT" := by decide
  simp [Message.request, RespValue.Wire, WireAll, cr_not_mem_toString, hname]

/-- It arrives as the message of the node. -/
theorem append_nodeoutCmd (gossip uuid : UInt64) :
    RespParser.append {} (nodeoutCmd gossip uuid)
      = .ok (idle [] [(Message.nodeOut gossip uuid).request]) := by
  have happend := append_encodings [(Message.nodeOut gossip uuid).request]
    (by simpa using wire_nodeOut gossip uuid) []
  rw [List.flatMap_singleton, encode_nodeOut] at happend
  exact happend

/-! ## Sixty-four bits through an `int`

The lower half, with its sign carried up again. -/

theorem toInt_asInt (uuid : Uuid) :
    (asInt uuid).toInt64.toInt = (uuid.toNat : Int).bmod (2 ^ 32) := by
  have hlow : uuid.toUInt32.toBitVec.toNat = uuid.toNat % 2 ^ 32 := by
    rw [UInt32.toNat_toBitVec, UInt64.toNat_toUInt32]
  show uuid.toUInt32.toInt32.toInt64.toInt = _
  rw [Int32.toInt_toInt64]
  show uuid.toUInt32.toBitVec.toInt = _
  rw [BitVec.toInt_eq_toNat_bmod, hlow, Int.natCast_emod]
  exact Int.emod_bmod ..

/-- **What survives an `int`**: the small numbers, and those that are negative in 64 bits and
small. -/
theorem asInt_eq_self_iff (uuid : Uuid) :
    asInt uuid = uuid ↔ uuid.toNat < 2 ^ 31 ∨ 2 ^ 64 - 2 ^ 31 ≤ uuid.toNat := by
  have hself : uuid.toInt64.toInt = (uuid.toNat : Int).bmod (2 ^ 64) := by
    show uuid.toBitVec.toInt = _
    rw [BitVec.toInt_eq_toNat_bmod, UInt64.toNat_toBitVec]
  have hiff : asInt uuid = uuid ↔ (asInt uuid).toInt64.toInt = uuid.toInt64.toInt := by
    refine ⟨fun h => by rw [h], fun h => ?_⟩
    have heq := Int64.toInt_inj.mp h
    rw [← UInt64.toUInt64_toInt64 (asInt uuid), heq, UInt64.toUInt64_toInt64]
  have hlt := uuid.toNat_lt
  rw [hiff, toInt_asInt, hself, Int.bmod_def, Int.bmod_def]
  omega

/-! ## What is removed

Ring, topology and `connections` are asked by the node, and `fd_to_uuid` by the descriptor that
`connections` had for it. -/

namespace Membership

/-- A node that has its entries in all maps. -/
structure Present (s : Membership) (uuid : Uuid) : Prop where
  ring : s.cluster.OnRing uuid
  topo : s.cluster.topo.lookup uuid ≠ none
  connections : s.peers.connections.lookup uuid ≠ none
  fdToUuid : ∃ fd, s.peers.fdToUuid.lookup fd = some uuid

/-- The points on the ring are those of their owners, and `uuid` shares none with another one. -/
structure Separate (s : Membership) (uuid : Uuid) : Prop where
  own : ∀ p u, (p, u) ∈ s.cluster.nodeHash → p ∈ Cluster.pointsOf u
  apart : ∀ u, s.cluster.OnRing u → u ≠ uuid →
    ∀ p ∈ Cluster.pointsOf u, p ∉ Cluster.pointsOf uuid

/-- The entries of `uuid` are gone, and those of the other nodes are as they were. -/
structure Removed (s s' : Membership) (uuid : Uuid) : Prop where
  ring : ¬ s'.cluster.OnRing uuid
  topo : s'.cluster.topo.lookup uuid = none
  connections : s'.peers.connections.lookup uuid = none
  fdToUuid : ∀ fd, s'.peers.fdToUuid.lookup fd ≠ some uuid
  points : ∀ p u, u ≠ uuid → ((p, u) ∈ s'.cluster.nodeHash ↔ (p, u) ∈ s.cluster.nodeHash)
  nodes : ∀ u, u ≠ uuid → s'.cluster.topo.lookup u = s.cluster.topo.lookup u
  peers : ∀ u, u ≠ uuid → s'.peers.connections.lookup u = s.peers.connections.lookup u
  fds : ∀ fd u, u ≠ uuid →
    (s'.peers.fdToUuid.lookup fd = some u ↔ s.peers.fdToUuid.lookup fd = some u)

/-- The connection maps agree about a node: what leads to it is its connection. -/
def Matched (s : Membership) (uuid : Uuid) : Prop :=
  ∀ fd, s.peers.fdToUuid.lookup fd = some uuid →
    fd ≠ -1 ∧ s.peers.connections.lookup uuid = some fd

variable {s : Membership} {uuid : Uuid}

theorem nodeHash_leave (s : Membership) (uuid : Uuid) :
    (s.leave uuid).cluster.nodeHash
      = Cluster.delPoints (Cluster.pointsOf (asInt uuid)) s.cluster.nodeHash := by
  rw [← Cluster.nodeHash_delNodeToHash]
  simp only [leave, delTopoNode]

theorem topo_leave (s : Membership) (uuid : Uuid) :
    (s.leave uuid).cluster.topo = OrderedMap.erase (asInt uuid) s.cluster.topo := by
  simp only [leave, delTopoNode, Cluster.delNodeToHash]

/-- The second `delConnection` finds nothing. -/
theorem peers_leave (s : Membership) (uuid : Uuid) :
    (s.leave uuid).peers.connections = OrderedMap.erase (asInt uuid) s.peers.connections ∧
      (s.leave uuid).peers.fdToUuid = (s.peers.delConnection (asInt uuid)).fdToUuid := by
  have hgone : (s.peers.delConnection (asInt uuid)).getConnection (asInt uuid) = -1 := by
    show ((OrderedMap.erase (asInt uuid) s.peers.connections).lookup (asInt uuid)).getD (-1) = -1
    rw [OrderedMap.lookup_erase_self]
    rfl
  have htwice : (s.leave uuid).peers = (s.peers.delConnection (asInt uuid)).delConnection
      (asInt uuid) := by
    simp only [leave, delTopoNode]
  rw [htwice]
  constructor
  · show OrderedMap.erase (asInt uuid) (OrderedMap.erase (asInt uuid) s.peers.connections) = _
    unfold OrderedMap.erase
    rw [List.filter_filter]
    simp
  · show (if (s.peers.delConnection (asInt uuid)).getConnection (asInt uuid) ≠ -1 then _ else _) = _
    rw [hgone, if_neg (by simp)]

/-- The descriptor that `delConnection` takes out. -/
theorem fdToUuid_lookup_delConnection {c : Peers} {fd f : Int}
    (hfd : c.connections.lookup uuid = some fd) :
    (c.delConnection uuid).fdToUuid.lookup f
      = if fd ≠ -1 ∧ f = fd then none else c.fdToUuid.lookup f := by
  have hget : c.getConnection uuid = fd := by
    unfold Peers.getConnection
    rw [hfd]
    rfl
  show (if c.getConnection uuid ≠ -1 then OrderedMap.erase (c.getConnection uuid) c.fdToUuid
    else c.fdToUuid).lookup f = _
  rw [hget]
  by_cases hreal : fd = -1
  · simp [hreal]
  · by_cases hf : f = fd
    · simp [hreal, hf]
    · rw [if_pos hreal, if_neg fun h => hf h.2, OrderedMap.lookup_erase_of_ne hf]

/-- **A node that leaves** takes its own entries along, and only those, exactly if its UUID is the
same as an `int` and the connection maps agree about it. What else `s₁` has got is in none of the
maps. -/
theorem removed_leave_iff {s₁ : Membership} (hcluster : s₁.cluster = s.cluster)
    (hpeers : s₁.peers = s.peers) (hpresent : s.Present uuid) (hseparate : s.Separate uuid) :
    s.Removed (s₁.leave uuid) uuid ↔ asInt uuid = uuid ∧ s.Matched uuid := by
  obtain ⟨fd, hfd⟩ := Option.ne_none_iff_exists'.mp hpresent.connections
  obtain ⟨hconnections, hfds⟩ := peers_leave s₁ uuid
  have hnodes := topo_leave s₁ uuid
  have hpoints := nodeHash_leave s₁ uuid
  rw [hpeers] at hconnections hfds
  rw [hcluster] at hnodes hpoints
  constructor
  · intro h
    -- otherwise it is another node that is taken out of the topology
    have hsame : asInt uuid = uuid := by
      by_contra hne
      have htopo := h.topo
      rw [hnodes, OrderedMap.lookup_erase_of_ne (Ne.symm hne)] at htopo
      exact hpresent.topo htopo
    refine ⟨hsame, fun f hf => ?_⟩
    have hgone := h.fdToUuid f
    rw [hfds, hsame, fdToUuid_lookup_delConnection hfd] at hgone
    split at hgone
    · rename_i hout
      exact ⟨hout.2 ▸ hout.1, hout.2 ▸ hfd⟩
    · exact absurd hf hgone
  · rintro ⟨hsame, hmatched⟩
    rw [hsame] at hconnections hfds hnodes hpoints
    obtain ⟨f, hf⟩ := hpresent.fdToUuid
    obtain ⟨hreal, hback⟩ := hmatched f hf
    obtain rfl : fd = f := Option.some.inj (hfd.symm.trans hback)
    refine ⟨?_, ?_, ?_, ?_, ?_, ?_, ?_, ?_⟩
    · rintro ⟨p, hp⟩
      rw [hpoints, Cluster.mem_delPoints_iff] at hp
      exact hp.2 (hseparate.own p uuid hp.1)
    · rw [hnodes, OrderedMap.lookup_erase_self]
    · rw [hconnections, OrderedMap.lookup_erase_self]
    · -- a second descriptor would be left, but there is none
      intro g hg
      rw [hfds, fdToUuid_lookup_delConnection hfd] at hg
      split at hg
      · exact absurd hg (by simp)
      · rename_i hkept
        obtain ⟨-, hg'⟩ := hmatched g hg
        exact hkept ⟨hreal, (Option.some.inj (hfd.symm.trans hg')).symm⟩
    · intro p u hu
      rw [hpoints, Cluster.mem_delPoints_iff]
      refine ⟨And.left, fun hp => ⟨hp, ?_⟩⟩
      exact hseparate.apart u ⟨p, hp⟩ hu p (hseparate.own p u hp)
    · intro u hu
      rw [hnodes, OrderedMap.lookup_erase_of_ne hu]
    · intro u hu
      rw [hconnections, OrderedMap.lookup_erase_of_ne hu]
    · intro g u hu
      rw [hfds, fdToUuid_lookup_delConnection hfd]
      split
      · rename_i hout
        rw [hout.2, hf]
        refine iff_of_false (by simp) fun h => hu (Option.some.inj h).symm
      · exact Iff.rfl

/-! ## The message -/

theorem call_NODEOUT (uuid : Uuid) {id : UInt64} (now : UInt64)
    (hfresh : s.gossip.findGossip id = false) :
    ∃ text, (Handler.NODEOUT (Message.nodeOut id uuid).request now).call s
      = (.ok [], (broadcast { s with gossip := s.gossip.addGossip now id } text).leave uuid) := by
  unfold Handler.NODEOUT
  rw [show Handler.elementsOf (Message.nodeOut id uuid).request = .ok _ from rfl,
    Method.call_bind_ok (Method.call_lift _ s), if_neg (by simp),
    Method.call_bind_ok (firstSight_new rfl hfresh), if_neg (by simp),
    show encodeRequest _ = .ok _ from rfl,
    Method.call_bind_ok (Method.call_lift _ _), Method.call_bind_ok (Method.call_modify _ _),
    show deref _ 2 = .ok (.simpleString (toString uuid.toNat)) from rfl,
    Method.call_bind_ok (Method.call_lift _ _)]
  dsimp only
  rw [Method.call_bind_ok (Method.call_modify _ _), toUint64_toString]
  exact ⟨_, rfl⟩

/-- **NODEOUT removes exactly the leaving node** if and only if its UUID keeps its value as an
`int`, and every descriptor that leads to it is its connection.

The text keeps the UUID whole, and the `int` keeps it where its upper bits are those of its sign.
Everything after that is a matter of keys: ring, topology and `connections` are asked for the node,
while in `fd_to_uuid` only the descriptor is erased that `connections` has for it. -/
theorem nodeOut_removes_iff (id now : UInt64) (hpresent : s.Present uuid)
    (hseparate : s.Separate uuid) (hfresh : s.gossip.findGossip id = false) :
    ∃ value s', RespParser.append {} (nodeoutCmd id uuid) = .ok (idle [] [value]) ∧
      (Handler.NODEOUT value now).call s = (.ok [], s') ∧
      (s.Removed s' uuid ↔
        (uuid.toNat < 2 ^ 31 ∨ 2 ^ 64 - 2 ^ 31 ≤ uuid.toNat) ∧ s.Matched uuid) := by
  obtain ⟨text, hcall⟩ := call_NODEOUT uuid now hfresh
  refine ⟨_, _, append_nodeoutCmd id uuid, hcall, ?_⟩
  rw [← asInt_eq_self_iff]
  exact removed_leave_iff rfl rfl hpresent hseparate

/-- A node in a cluster of two, connected on descriptor 5. -/
def pairedWith (uuid : Uuid) : Membership where
  cluster := Cluster.addNodeToHash
    { selfNode := ⟨ascii "127.0.0.1", 7800, 9⟩
      topo := [(uuid, ⟨ascii "127.0.0.1", 7801, uuid⟩)] } uuid
  peers := { connections := [(uuid, 5)], fdToUuid := [(5, uuid)] }

theorem present_pairedWith (uuid : Uuid) : (pairedWith uuid).Present uuid := by
  obtain ⟨p, hp⟩ := List.exists_mem_of_ne_nil _ (Cluster.pointsOf_ne_nil uuid)
  refine ⟨⟨p, ?_⟩, by simp [pairedWith, Cluster.addNodeToHash], by simp [pairedWith],
    5, by simp [pairedWith]⟩
  rw [pairedWith, Cluster.nodeHash_addNodeToHash,
    Cluster.mem_addPoints_iff OrderedMap.ordered_nil]
  exact Or.inl ⟨rfl, hp⟩

theorem separate_pairedWith (uuid : Uuid) : (pairedWith uuid).Separate uuid := by
  have hring : ∀ {p u}, (p, u) ∈ (pairedWith uuid).cluster.nodeHash →
      u = uuid ∧ p ∈ Cluster.pointsOf uuid := by
    intro p u hp
    rw [pairedWith, Cluster.nodeHash_addNodeToHash,
      Cluster.mem_addPoints_iff OrderedMap.ordered_nil] at hp
    exact hp.resolve_right fun h => absurd h.1 List.not_mem_nil
  refine ⟨fun p u hp => ?_, fun u hu hne => ?_⟩
  · obtain ⟨rfl, hpoint⟩ := hring hp
    exact hpoint
  · obtain ⟨p, hp⟩ := hu
    exact absurd (hring hp).1 hne

/-- Node 7 leaves. -/
theorem nodeOut_removes_seven :
    ∃ value s', RespParser.append {} (nodeoutCmd 1 7) = .ok (idle [] [value]) ∧
      (Handler.NODEOUT value 0).call (pairedWith 7) = (.ok [], s') ∧
      (pairedWith 7).Removed s' 7 := by
  obtain ⟨value, s', hread, hcall, hiff⟩ := nodeOut_removes_iff 1 0
    (present_pairedWith 7) (separate_pairedWith 7) rfl
  refine ⟨value, s', hread, hcall, hiff.mpr ⟨by decide, fun fd hfd => ?_⟩⟩
  have hfive : fd = 5 := by
    by_contra hne
    have hnone : (pairedWith 7).peers.fdToUuid.lookup fd = none := by
      rw [pairedWith, List.lookup_cons, beq_false_of_ne hne]
      rfl
    rw [hnone] at hfd
    exact absurd hfd (by simp)
  subst hfive
  exact ⟨by decide, by simp [pairedWith]⟩

/-- Node 2^31 stays. -/
theorem nodeOut_leaves_large :
    (pairedWith 2147483648).Present 2147483648 ∧ (pairedWith 2147483648).Separate 2147483648 ∧
      ∃ value s', RespParser.append {} (nodeoutCmd 1 2147483648) = .ok (idle [] [value]) ∧
        (Handler.NODEOUT value 0).call (pairedWith 2147483648) = (.ok [], s') ∧
        ¬ (pairedWith 2147483648).Removed s' 2147483648 := by
  have hpresent := present_pairedWith 2147483648
  have hseparate := separate_pairedWith 2147483648
  have hfresh : (pairedWith 2147483648).gossip.findGossip 1 = false := rfl
  obtain ⟨text, hcall⟩ := call_NODEOUT 2147483648 0 hfresh
  refine ⟨hpresent, hseparate, _, _, append_nodeoutCmd 1 2147483648, hcall, fun h => ?_⟩
  have hsame : asInt 2147483648 = 2147483648 := by
    refine ((removed_leave_iff ?_ ?_ hpresent hseparate).mp h).1
    · rfl
    · rfl
  exact absurd hsame (by decide)

end Membership
end Server
end KvJet
