import KvJet.Lib.Method
import KvJet.Server.KeyHash
import KvJet.Server.Network
import KvJet.Server.Ring

/-!
# Refreshing the topology

`Client::refreshTopology` (`Client.cpp`) puts what a server reports into the ring and the group
table that the client has. It takes nothing out, so the client ends up with the view of the server
exactly if it had nothing beside it.
-/

namespace KvJet

open OrderedMap (Ordered)
open Resp Server
open Raft (Uuid)

structure Client where
  cluster : Cluster
  /-- `groups_`. -/
  groups : List (UInt64 × List Uuid) := []
  /-- The descriptors of `connections`. -/
  connections : List Int := []

namespace Client

def routeWrite (cl : Client) (key : Bytes) : Except Fault Uuid := cl.cluster.queryNode key

/-- The loop around `recv`, over what it returns one time after another. -/
def receive (p : RespParser) : List Bytes → Except Fault RespParser
  | [] => if p.hasResult then .ok p else .error (.exception "Failed to recv GETNETWORK")
  | chunk :: chunks => if p.hasResult then .ok p else do receive (← p.append chunk) chunks

/-- `addTopoNode` and `addNodeToHash` for one reported node. -/
def learn (c : Cluster) (node : ClusterNode) : Cluster :=
  (c.addTopoNode node).addNodeToHash node.uuid

/-- One turn of the loop that connects. -/
def connectNew (connect : ClusterNode → Except Fault Int) (cl : Client) (node : ClusterNode) :
    Except Fault Client :=
  if cl.connections.any fun fd => cl.cluster.getConnection node.uuid = fd then .ok cl
  else do
    let fd ← connect node
    return { cl with
      cluster := { cl.cluster with
        connections := OrderedMap.insert node.uuid fd cl.cluster.connections }
      connections := if fd ∈ cl.connections then cl.connections else cl.connections ++ [fd] }

/-- `refreshTopology`, when the server of the first connection answers with `chunks`. What it leaves
behind when it throws is not modelled. -/
def refreshTopology (cl : Client) (chunks : List Bytes)
    (connect : ClusterNode → Except Fault Int) : Except Fault Client := do
  if cl.connections.isEmpty then return cl
  -- `reset` makes a new parser of the one that the connection has
  match (← receive {} chunks).getResult.1 with
  | none => .error (.undefined "value of an empty optional")
  | some value =>
    let (nodes, groups) ← getTopoV2 value cl.groups
    nodes.foldlM (connectNew connect) { cl with cluster := nodes.foldl learn cl.cluster, groups }

/-! ## What is read -/

/-- **A reply is read whole**, however it is cut. -/
theorem receive_encode {v : RespValue} (hv : v.Wire) :
    ∀ (chunks : List Bytes) (part : Bytes) (p : RespParser), RespParser.append {} part = .ok p →
      part ++ chunks.flatten = encode v →
      ∃ p', receive p chunks = .ok p' ∧ p'.getResult.1 = some v := by
  obtain ⟨-, hparts⟩ := stream_round_trip [v] (by simpa using hv)
  have hpart : ∀ (part : Bytes) (p : RespParser), RespParser.append {} part = .ok p →
      part <+: encode v → p.messageQueue = if (encode v).length ≤ part.length then [v] else [] := by
    intro part p hp hprefix
    obtain ⟨p', j, hp', hj, hqueue, hlen⟩ := hparts part (by simpa using hprefix)
    rw [hp] at hp'
    cases hp'
    have hone := hlen 1 (Nat.le_refl 1)
    simp only [List.take_succ_cons, List.take_zero, List.flatMap_cons, List.flatMap_nil,
      List.append_nil] at hone
    rw [hqueue]
    by_cases hle : (encode v).length ≤ part.length
    · have hj1 : j = 1 := Nat.le_antisymm hj (hone.mp hle)
      rw [if_pos hle, hj1]
      rfl
    · have hj0 : j = 0 := Nat.lt_one_iff.mp (Nat.lt_of_not_le fun h => hle (hone.mpr h))
      rw [if_neg hle, hj0]
      rfl
  have hdone : ∀ p : RespParser, p.messageQueue = [v] →
      p.hasResult = true ∧ p.getResult.1 = some v := by
    intro p hqueue
    simp [RespParser.hasResult, RespParser.getResult, hqueue]
  intro chunks
  induction chunks with
  | nil =>
    intro part p hp hall
    rw [List.flatten_nil, List.append_nil] at hall
    have hqueue := hpart part p hp (hall ▸ List.prefix_refl _)
    rw [hall, if_pos (Nat.le_refl _)] at hqueue
    obtain ⟨hresult, hget⟩ := hdone p hqueue
    exact ⟨p, by rw [receive, if_pos hresult], hget⟩
  | cons chunk chunks ih =>
    intro part p hp hall
    have hqueue := hpart part p hp ⟨_, hall⟩
    by_cases hle : (encode v).length ≤ part.length
    · rw [if_pos hle] at hqueue
      obtain ⟨hresult, hget⟩ := hdone p hqueue
      exact ⟨p, by rw [receive, if_pos hresult], hget⟩
    · rw [if_neg hle] at hqueue
      have hresult : ¬ p.hasResult = true := by simp [RespParser.hasResult, hqueue]
      rw [List.flatten_cons, ← List.append_assoc] at hall
      obtain ⟨p', -, hp', -⟩ := hparts (part ++ chunk) (by simpa using ⟨_, hall⟩)
      have hnext : p.append chunk = .ok p' := by
        rw [← hp']
        exact (Stream.run_append_ok RespParser.feed hp chunk).symm
      obtain ⟨p'', hreceive, hget⟩ := ih (part ++ chunk) p' hp' hall
      refine ⟨p'', ?_, hget⟩
      rw [receive, if_neg hresult, hnext]
      exact hreceive

theorem nodeHash_learn (c : Cluster) (node : ClusterNode) :
    (learn c node).nodeHash = (c.addNodeToHash node.uuid).nodeHash := by
  rw [Cluster.nodeHash_addNodeToHash]
  simp only [learn, Cluster.addTopoNode, Cluster.addNodeToHash]

/-- The ring takes the nodes in one after another. -/
theorem nodeHash_learnAll (nodes : List ClusterNode) : ∀ c c' : Cluster,
    c.nodeHash = c'.nodeHash → (nodes.foldl learn c).nodeHash
      = (c'.exec ((nodes.map ClusterNode.uuid).map .addNodeToHash)).nodeHash := by
  induction nodes with
  | nil => exact fun _ _ h => h
  | cons node nodes ih =>
    intro c c' h
    have hnode : (learn c node).nodeHash = (c'.addNodeToHash node.uuid).nodeHash := by
      rw [nodeHash_learn, Cluster.nodeHash_addNodeToHash, Cluster.nodeHash_addNodeToHash, h]
    rw [List.foldl_cons, ih (learn c node) (c'.addNodeToHash node.uuid) hnode, List.map_cons,
      List.map_cons, Cluster.exec, Cluster.exec, Run.exec_cons, Cluster.call]

/-- Connecting changes neither the ring nor the groups. -/
theorem connectNew_keeps {connect : ClusterNode → Except Fault Int} {cl cl' : Client}
    {node : ClusterNode} (h : connectNew connect cl node = .ok cl') :
    cl'.cluster.nodeHash = cl.cluster.nodeHash ∧ cl'.groups = cl.groups := by
  unfold connectNew at h
  split at h
  · cases h
    exact ⟨rfl, rfl⟩
  · obtain ⟨fd, -, hcl⟩ := Except.of_bind_eq_ok h
    cases hcl
    exact ⟨rfl, rfl⟩

theorem connectAll_keeps {connect : ClusterNode → Except Fault Int} {nodes : List ClusterNode} :
    ∀ {cl cl' : Client}, nodes.foldlM (connectNew connect) cl = .ok cl' →
      cl'.cluster.nodeHash = cl.cluster.nodeHash ∧ cl'.groups = cl.groups := by
  induction nodes with
  | nil =>
    intro cl cl' h
    cases h
    exact ⟨rfl, rfl⟩
  | cons node nodes ih =>
    intro cl cl' h
    rw [List.foldlM_cons] at h
    obtain ⟨cl₁, hone, hrest⟩ := Except.of_bind_eq_ok h
    obtain ⟨hring, hgroups⟩ := connectNew_keeps hone
    obtain ⟨hring', hgroups'⟩ := ih hrest
    exact ⟨hring'.trans hring, hgroups'.trans hgroups⟩

end Client

/-! ## The server that answers

What it reports comes from its own maps, so nodes and groups are in the order of their numbers and
none comes twice. -/

/-- A server, as far as it reports. -/
structure Reporter where
  cluster : Cluster
  groupMembers : List (UInt64 × List Uuid) := []
  topoOrdered : Ordered cluster.topo
  groupsOrdered : Ordered groupMembers
  /-- `topo[node.UUID] = node`. -/
  keyed : ∀ entry ∈ cluster.topo, entry.1 = entry.2.uuid
  /-- The ring is built from the topology. -/
  built : cluster.nodeHash = (Cluster.exec { cluster with nodeHash := [] }
    ((cluster.topo.map Prod.fst).map .addNodeToHash)).nodeHash
  /-- Addresses are read from simple strings, and maps fit into memory. -/
  wire : (networkValue cluster.topo groupMembers).Wire

namespace Reporter

/-- One that knows the nodes of `topo` and no groups. -/
def ofTopo (self : ClusterNode) (topo : List (Uuid × ClusterNode)) (htopo : Ordered topo)
    (hkeyed : ∀ entry ∈ topo, entry.1 = entry.2.uuid) (hip : ∀ entry ∈ topo, cr ∉ entry.2.ip)
    (hsize : topo.length < 2 ^ 64) : Reporter where
  cluster := { selfNode := self, topo, nodeHash := (Cluster.exec { selfNode := self, topo }
    ((topo.map Prod.fst).map .addNodeToHash)).nodeHash }
  topoOrdered := htopo
  groupsOrdered := OrderedMap.ordered_nil
  keyed := hkeyed
  built := rfl
  wire := wire_networkValue hip hsize (by decide)

/-- The nodes it reports. -/
def nodes (r : Reporter) : List Uuid := r.cluster.topo.map Prod.fst

/-- The groups it reports. -/
def groupTable (r : Reporter) : List (UInt64 × List Uuid) :=
  r.groupMembers.map fun group => (group.1, Server.groupTable group.2)

theorem ordered_groupTable (r : Reporter) : Ordered r.groupTable :=
  List.pairwise_map.mpr r.groupsOrdered

theorem keys_groupTable (r : Reporter) :
    r.groupTable.map Prod.fst = r.groupMembers.map Prod.fst := by
  simp [groupTable]

theorem uuids_eq (r : Reporter) : (r.cluster.topo.map Prod.snd).map ClusterNode.uuid = r.nodes := by
  rw [nodes, List.map_map]
  exact List.map_congr_left fun entry hentry => (r.keyed entry hentry).symm

/-- What the client reads. -/
theorem getTopoV2_report (r : Reporter) (groups : List (UInt64 × List Uuid)) :
    getTopoV2 (networkValue r.cluster.topo r.groupMembers) groups
      = .ok (r.cluster.topo.map Prod.snd, OrderedMap.insertAll r.groupTable groups) := by
  rw [getTopoV2_networkValue, OrderedMap.insertAll, groupTable, List.foldl_map]
  simp only [assign_eq_insert]

end Reporter

namespace Client

/-- **What a refresh does**: the reported nodes are put into the ring, the reported groups into the
table. -/
theorem refreshTopology_spec {cl cl' : Client} {r : Reporter} {chunks : List Bytes}
    {connect : ClusterNode → Except Fault Int} (hsockets : cl.connections ≠ [])
    (hchunks : chunks.flatten = getNetwork r.cluster.topo r.groupMembers)
    (h : cl.refreshTopology chunks connect = .ok cl') :
    cl'.cluster.nodeHash = (cl.cluster.exec (r.nodes.map .addNodeToHash)).nodeHash ∧
      cl'.groups = OrderedMap.insertAll r.groupTable cl.groups := by
  obtain ⟨p, hreceive, hget⟩ := receive_encode r.wire chunks [] {} rfl
    (by rw [encode_networkValue, List.nil_append, hchunks])
  have hempty : ¬ cl.connections.isEmpty = true := by simpa using hsockets
  unfold refreshTopology at h
  rw [if_neg hempty, hreceive] at h
  simp only [bind, Except.bind, hget, r.getTopoV2_report] at h
  obtain ⟨hring, hgroups⟩ := connectAll_keeps h
  refine ⟨hring.trans ?_, hgroups⟩
  rw [nodeHash_learnAll _ _ _ rfl, r.uuids_eq]

section Agreement

variable {cl : Client} {r : Reporter}

/-- The client's ring and the server's, point by point. -/
theorem mem_server_ring (hapart : Cluster.Apart r.nodes) {p : UInt64} {u : Uuid} :
    (p, u) ∈ r.cluster.nodeHash ↔ u ∈ r.nodes ∧ p ∈ Cluster.pointsOf u := by
  rw [r.built]
  exact (Cluster.mem_exec_adds OrderedMap.ordered_nil hapart).trans (by simp)

theorem ordered_server_ring : Ordered r.cluster.nodeHash := by
  rw [r.built]
  exact Cluster.ordered_exec OrderedMap.ordered_nil _

/-- A client with no other nodes gets the ring of the server. -/
theorem ring_eq (hcl : cl.cluster.MapsOk) (hapart : Cluster.Apart r.nodes)
    (hall : ∀ u, cl.cluster.OnRing u → u ∈ r.nodes) :
    (cl.cluster.exec (r.nodes.map .addNodeToHash)).nodeHash = r.cluster.nodeHash := by
  refine (Cluster.ordered_exec hcl.ring _).ext ordered_server_ring fun ⟨p, u⟩ => ?_
  rw [Cluster.mem_exec_adds hcl.ring hapart, mem_server_ring hapart]
  refine ⟨?_, Or.inl⟩
  rintro (hin | ⟨hold, hclear⟩)
  · exact hin
  · have hu := hall u ⟨p, hold⟩
    exact absurd (hcl.own p u hold) (hclear u hu)

/-- A node that is left over gets the key that hashes to one of its points. -/
theorem exists_misrouted (hcl : cl.cluster.MapsOk)
    (hapart : Cluster.Apart (cl.cluster.nodeHash.map Prod.snd ++ r.nodes)) {u : Uuid}
    (hu : cl.cluster.OnRing u) (hnot : u ∉ r.nodes) :
    ∃ key, OrderedMap.next (Cluster.hashString key)
        (cl.cluster.exec (r.nodes.map .addNodeToHash)).nodeHash = some (Cluster.hashString key, u) ∧
      r.cluster.queryNode key ≠ .ok u := by
  obtain ⟨p, hp⟩ := hu
  obtain ⟨key, hkey⟩ := Cluster.hashString_surjective p
  have hnodes : Cluster.Apart r.nodes := hapart.subset (List.subset_append_right _ _)
  have hclear : ∀ v ∈ r.nodes, p ∉ Cluster.pointsOf v := fun v hv =>
    hapart u (List.mem_append_left _ (List.mem_map_of_mem hp)) v (List.mem_append_right _ hv)
      (fun huv => hnot (huv ▸ hv)) p (hcl.own p u hp)
  have hin : (p, u) ∈ (cl.cluster.exec (r.nodes.map .addNodeToHash)).nodeHash :=
    (Cluster.mem_exec_adds hcl.ring hnodes).mpr (Or.inr ⟨hp, hclear⟩)
  refine ⟨key, ?_, fun hquery => ?_⟩
  · rw [hkey]
    exact (Cluster.ordered_exec hcl.ring _).next_self hin
  · rw [Cluster.queryNode_eq] at hquery
    cases hnext : OrderedMap.next (Cluster.hashString key) r.cluster.nodeHash with
    | none =>
      rw [hnext] at hquery
      exact absurd hquery (by simp)
    | some point =>
      rw [hnext] at hquery
      obtain ⟨q, v⟩ := point
      obtain rfl : v = u := by simpa using hquery
      exact hnot ((mem_server_ring hnodes).mp (OrderedMap.mem_of_next hnext)).1

end Agreement

/-- **A refresh gives the client the view of the server** exactly if the client knew no node and no
group beside those that the server reports.

Each node that is reported is added to the ring and each group to the table, over what was there. So
after it the client has what the server reports, and beside it whatever else it had: a node that has
left stays on its ring. -/
theorem refresh_agrees_iff (cl cl' : Client) (r : Reporter) (chunks : List Bytes)
    (connect : ClusterNode → Except Fault Int) (hcl : cl.cluster.MapsOk)
    (hgroups : Ordered cl.groups) (hsockets : cl.connections ≠ [])
    (hapart : Cluster.Apart (cl.cluster.nodeHash.map Prod.snd ++ r.nodes))
    (hchunks : chunks.flatten = getNetwork r.cluster.topo r.groupMembers)
    (hrefresh : cl.refreshTopology chunks connect = .ok cl') :
    ((∀ key, cl'.routeWrite key = r.cluster.queryNode key) ∧ cl'.groups = r.groupTable) ↔
      (∀ u, cl.cluster.OnRing u → u ∈ r.nodes) ∧
        ∀ group ∈ cl.groups, group.1 ∈ r.groupMembers.map Prod.fst := by
  obtain ⟨hring, htable⟩ := refreshTopology_spec hsockets hchunks hrefresh
  have hnodes : Cluster.Apart r.nodes := hapart.subset (List.subset_append_right _ _)
  rw [htable, OrderedMap.insertAll_eq_self_iff r.ordered_groupTable hgroups, r.keys_groupTable]
  refine and_congr_left fun _ => ⟨fun hroute u hu => ?_, fun hall key => ?_⟩
  · by_contra hnot
    obtain ⟨key, hnext, hother⟩ := exists_misrouted hcl hapart hu hnot
    refine hother ?_
    rw [← hroute key, routeWrite, Cluster.queryNode_eq, hring, hnext]
  · rw [routeWrite, Cluster.queryNode_eq, Cluster.queryNode_eq, hring, ring_eq hcl hnodes hall]

/-- A refresh that can connect succeeds. -/
theorem refreshTopology_returns (cl : Client) (r : Reporter)
    (connect : ClusterNode → Except Fault Int) (hconnect : ∀ node, ∃ fd, connect node = .ok fd) :
    ∃ cl', cl.refreshTopology [getNetwork r.cluster.topo r.groupMembers] connect = .ok cl' := by
  have hone : ∀ (cl : Client) (node : ClusterNode), ∃ cl', connectNew connect cl node = .ok cl' := by
    intro cl node
    unfold connectNew
    split
    · exact ⟨_, rfl⟩
    · obtain ⟨fd, hfd⟩ := hconnect node
      rw [hfd]
      exact ⟨_, rfl⟩
  have hall : ∀ (nodes : List ClusterNode) (cl : Client),
      ∃ cl', nodes.foldlM (connectNew connect) cl = .ok cl' := by
    intro nodes
    induction nodes with
    | nil => exact fun cl => ⟨cl, rfl⟩
    | cons node nodes ih =>
      intro cl
      obtain ⟨cl₁, hcl₁⟩ := hone cl node
      rw [List.foldlM_cons, hcl₁]
      exact ih cl₁
  obtain ⟨p, hreceive, hget⟩ := receive_encode r.wire
    [getNetwork r.cluster.topo r.groupMembers] [] {} rfl
    (by rw [encode_networkValue, List.nil_append, List.flatten_singleton])
  unfold refreshTopology
  split
  · exact ⟨cl, rfl⟩
  · rw [hreceive]
    simp only [bind, Except.bind, hget, r.getTopoV2_report]
    exact hall _ _

/-- Two nodes. -/
def nodeZero : ClusterNode := ⟨ascii "127.0.0.1", 7800, 0⟩

def nodeOne : ClusterNode := ⟨ascii "127.0.0.1", 7801, 1⟩

/-- A client that knows node 1. -/
def knowsOne : Client where
  cluster := Cluster.addNodeToHash { selfNode := nodeZero } 1
  connections := [3]

theorem onRing_knowsOne {u : Uuid} : knowsOne.cluster.OnRing u ↔ u = 1 := by
  unfold Cluster.OnRing knowsOne
  dsimp only
  rw [Cluster.nodeHash_addNodeToHash]
  simp only [Cluster.mem_addPoints_iff OrderedMap.ordered_nil]
  constructor
  · rintro ⟨p, ⟨hu, -⟩ | ⟨hp, -⟩⟩
    · exact hu
    · exact absurd hp List.not_mem_nil
  · rintro rfl
    obtain ⟨p, hp⟩ := List.exists_mem_of_ne_nil _ (Cluster.pointsOf_ne_nil 1)
    exact ⟨p, Or.inl ⟨rfl, hp⟩⟩

theorem mapsOk_knowsOne : knowsOne.cluster.MapsOk := by
  have hstart : Cluster.MapsOk { selfNode := nodeZero } :=
    ⟨OrderedMap.ordered_nil, OrderedMap.ordered_nil, fun p u hp => absurd hp List.not_mem_nil⟩
  exact hstart.call (.addNodeToHash 1)

theorem apart_knowsOne {nodes : List Uuid} (h : ∀ u ∈ nodes, u = 0 ∨ u = 1) :
    Cluster.Apart (knowsOne.cluster.nodeHash.map Prod.snd ++ nodes) := by
  refine Cluster.apart_zero_one.subset fun u hu => ?_
  have hzeroOne : u = 0 ∨ u = 1 := by
    rcases List.mem_append.mp hu with hu | hu
    · obtain ⟨⟨p, v⟩, hp, rfl⟩ := List.mem_map.mp hu
      exact Or.inr (onRing_knowsOne.mp ⟨p, hp⟩)
    · exact h u hu
  rcases hzeroOne with rfl | rfl <;> decide

/-- It hears of node 0 beside it. -/
def bothNodes : Reporter :=
  Reporter.ofTopo nodeZero [(0, nodeZero), (1, nodeOne)] (by simp [Ordered]) (by decide)
    (by decide) (by decide)

theorem nodes_bothNodes : bothNodes.nodes = [0, 1] := rfl

theorem refresh_agrees_bothNodes :
    ∃ cl', knowsOne.refreshTopology [getNetwork bothNodes.cluster.topo bothNodes.groupMembers]
        (fun _ => .ok 4) = .ok cl' ∧
      (∀ key, cl'.routeWrite key = bothNodes.cluster.queryNode key) ∧
        cl'.groups = bothNodes.groupTable := by
  obtain ⟨cl', hcl'⟩ := refreshTopology_returns knowsOne bothNodes (fun _ => .ok 4)
    fun _ => ⟨4, rfl⟩
  refine ⟨cl', hcl', ?_⟩
  refine (refresh_agrees_iff knowsOne cl' bothNodes _ _ mapsOk_knowsOne OrderedMap.ordered_nil
    (by decide) (apart_knowsOne (by simp [nodes_bothNodes])) (List.flatten_singleton ..)
    hcl').mpr ⟨?_, ?_⟩
  · intro u hu
    rw [onRing_knowsOne.mp hu, nodes_bothNodes]
    decide
  · intro group hgroup
    exact absurd hgroup List.not_mem_nil

/-- It hears of node 0 only: node 1 has left. -/
def zeroAlone : Reporter :=
  Reporter.ofTopo nodeZero [(0, nodeZero)] (by simp [Ordered]) (by decide) (by decide) (by decide)

theorem nodes_zeroAlone : zeroAlone.nodes = [0] := rfl

/-- And still sends node 1 some keys. -/
theorem zeroAlone_misroutes :
    ∃ cl', knowsOne.refreshTopology [getNetwork zeroAlone.cluster.topo zeroAlone.groupMembers]
        (fun _ => .ok 4) = .ok cl' ∧
      ∃ key, cl'.routeWrite key = .ok 1 ∧ zeroAlone.cluster.queryNode key ≠ .ok 1 := by
  obtain ⟨cl', hcl'⟩ := refreshTopology_returns knowsOne zeroAlone (fun _ => .ok 4)
    fun _ => ⟨4, rfl⟩
  obtain ⟨hring, -⟩ := refreshTopology_spec (by decide) (List.flatten_singleton ..) hcl'
  obtain ⟨key, hnext, hother⟩ := exists_misrouted (r := zeroAlone) mapsOk_knowsOne
    (apart_knowsOne (by simp [nodes_zeroAlone])) (onRing_knowsOne.mpr rfl)
    (by simp [nodes_zeroAlone])
  refine ⟨cl', hcl', key, ?_, hother⟩
  rw [routeWrite, Cluster.queryNode_eq, hring, hnext]

end Client
end KvJet
