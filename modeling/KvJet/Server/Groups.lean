import Mathlib.Data.List.GetD
import KvJet.Server.Rebuild
import KvJet.Server.Replicas

/-!
# Which node is in which group

`initRaftGroups` with all that it writes down: the `RaftNode`s, the master of each group and the
members of each group. The numbers of the groups are computed in `size_t`, with offsets of type
`int` that are not positive.

A node builds the three groups that it is in, from the topology as it knows it. If all of them know
the same one, what they build fits together (`initRaftGroups_consistent`).
-/

namespace KvJet
namespace Server

open OrderedMap (Ordered)
open Raft (RaftNode Uuid)

/-- The members of `Server` that `initRaftGroups` writes. -/
structure Groups where
  site : Site
  /-- `groupMembers_`. -/
  groupMembers : List (UInt64 × List Uuid) := []

abbrev GroupsM := Method Fault Groups

namespace Cluster

/-- `N`. -/
def nodeCount (c : Cluster) : UInt64 := .ofNat c.nodeIds.length

/-- `(selfIdx + offset + N) % N`, where `offset` becomes unsigned before it is added. -/
def groupSlot (c : Cluster) (offset : Int32) : UInt64 :=
  (.ofNat c.selfIdx + offset.toInt64.toUInt64 + c.nodeCount) % c.nodeCount

/-- `members`, in which a node can be more than once. -/
def slotMembers (c : Cluster) (gi : UInt64) : List Uuid :=
  [0, 1, 2].map fun j => c.nodeIds.getD ((gi + j) % c.nodeCount).toNat 0

def slotPeers (c : Cluster) (gi : UInt64) : List Uuid :=
  ((c.slotMembers gi).filter (· ≠ c.selfNode.uuid)).eraseDups

end Cluster

namespace Groups

abbrev cluster (s : Groups) : Cluster := s.site.server.cluster

def restore (s : Groups) (rand : Nat → Nat) (gi : UInt64) : Except Fault RaftNode :=
  RaftNode.restore gi.toNat s.cluster.selfNode.uuid (s.cluster.slotPeers gi)
    (s.site.files gi.toNat) (rand gi.toNat)

/-- `raft_groups.emplace`, and the two maps beside it. -/
def addGroup (s : Groups) (gi : UInt64) (rn : RaftNode) : Groups where
  site := { s.site with
    server := { s.site.server with
      raftGroups := emplace gi.toNat rn s.site.server.raftGroups
      masterToGroup := assign (s.cluster.nodeIds.getD gi.toNat 0) gi.toNat
        s.site.server.masterToGroup } }
  groupMembers := assign gi (s.cluster.slotMembers gi).eraseDups s.groupMembers

def buildGroup (rand : Nat → Nat) (gi : UInt64) : GroupsM Unit := do
  let rn ← Method.lift ((← get).restore rand gi)
  modify fun s => s.addGroup gi rn

def clear (s : Groups) (spill : Nat → Nat → Nat) : Groups where
  site := s.site.clear spill
  groupMembers := []

def initRaftGroups (spill : Nat → Nat → Nat) (rand : Nat → Nat) : GroupsM Unit := do
  let c := (← get).cluster
  if c.topo.isEmpty then return
  modify fun s => s.clear spill
  forM ([0, -1, -2].map c.groupSlot) (buildGroup rand)

/-- This node has a `RaftNode` for group `g`. -/
def Hosts (s : Groups) (g : Nat) : Prop := (s.site.server.raftGroups.lookup g).isSome

end Groups

/-! ## What it is for -/

/-- The nodes of a cluster, as each of them knows them. -/
structure Topology where
  nodes : List (Uuid × ClusterNode)
  ordered : Ordered nodes
  nonempty : nodes ≠ []
  /-- No `std::map` has more entries, see `max_size`. -/
  size : nodes.length < 2 ^ 63

namespace Topology

variable (T : Topology)

def ids : List Uuid := T.nodes.map Prod.fst

def N : Nat := T.nodes.length

/-- The node with the number `i`. -/
def node (i : Nat) : Uuid := T.ids.getD i 0

/-- The members of group `g`, its master first, going around once at most. -/
def members (g : Nat) : List Uuid := (List.range (min 3 T.N)).map fun j => T.node ((g + j) % T.N)

/-- What the nodes have built is one assignment of groups. -/
structure Consistent (servers : Nat → Groups) : Prop where
  hosted : ∀ s < T.N, ∀ g, (servers s).Hosts g ↔ g < T.N ∧ ∃ j < 3, s = (g + j) % T.N
  recorded : ∀ s < T.N, ∀ g, (servers s).Hosts g →
    (servers s).groupMembers.lookup (.ofNat g) = some (T.members g)
  listed : ∀ g < T.N, (T.members g).head? = some (T.node g) ∧ (T.members g).Nodup ∧
    T.members g = [T.node g, T.node ((g + 1) % T.N), T.node ((g + 2) % T.N)].eraseDups
  peers : ∀ s < T.N, ∀ g rn, (servers s).site.server.raftGroups.lookup g = some rn →
    rn.groupId = g ∧ rn.selfId = T.node s ∧
      rn.peers = (T.members g).filter (· ≠ T.node s) ∧ rn.peers.Nodup
  /-- Where the ring has no other nodes, the owner of a key leads its group. -/
  owner : ∀ t < T.N, (∀ u, (servers t).cluster.OnRing u → u ∈ T.ids) → ∀ key, ∃ s < T.N,
    (servers t).cluster.queryNode key = .ok (T.node s) ∧
      ((servers s).cluster.nodeHash = (servers t).cluster.nodeHash → ∃ g,
        (servers s).site.server.getGroupForKey key = .ok (some g) ∧ (servers s).Hosts g ∧
          ∃ rest, (servers s).groupMembers.lookup (.ofNat g) = some (T.node s :: rest))

/-! ## The list of members -/

variable {T}

theorem length_ids : T.ids.length = T.N := List.length_map _

theorem N_pos : 0 < T.N := List.length_pos_of_ne_nil T.nonempty

theorem mem_ids {u : Uuid} : u ∈ T.ids ↔ ∃ s < T.N, T.node s = u := by
  rw [List.mem_iff_getElem]
  constructor
  · rintro ⟨s, hs, rfl⟩
    refine ⟨s, length_ids ▸ hs, ?_⟩
    rw [node, List.getD_eq_getElem _ _ hs]
  · rintro ⟨s, hs, rfl⟩
    rw [← length_ids] at hs
    exact ⟨s, hs, (List.getD_eq_getElem _ _ hs).symm⟩

theorem nodup_ids : T.ids.Nodup := T.ordered.nodup_keys

theorem node_inj {i j : Nat} (hi : i < T.N) (hj : j < T.N) (h : T.node i = T.node j) : i = j := by
  rw [← length_ids] at hi hj
  exact (List.getD_inj hi hj nodup_ids).mp h

/-- The places of a group, going around. -/
theorem place_inj {g i j : Nat} (hi : i < T.N) (hj : j < T.N)
    (h : T.node ((g + i) % T.N) = T.node ((g + j) % T.N)) : i = j := by
  have hplace : (g + i) % T.N = (g + j) % T.N :=
    node_inj (Nat.mod_lt _ N_pos) (Nat.mod_lt _ N_pos) h
  have hmod : i ≡ j [MOD T.N] := Nat.ModEq.add_left_cancel' g hplace
  exact Nat.ModEq.eq_of_lt_of_lt hmod hi hj

theorem members_eq_met (g : Nat) :
    T.members g = FirstMet.met (fun j => T.node ((g + j) % T.N)) 3 := by
  have hcircle : ∀ k, T.node ((g + (k + T.N)) % T.N) = T.node ((g + k) % T.N) := by
    intro k
    rw [← Nat.add_assoc, Nat.add_mod_right]
  rw [FirstMet.met_eq_map_min hcircle N_pos fun i hi j hj => place_inj hi hj, members]

theorem head?_members {g : Nat} (hg : g < T.N) : (T.members g).head? = some (T.node g) := by
  obtain ⟨k, hk⟩ : ∃ k, min 3 T.N = k + 1 := Nat.exists_eq_add_one.mpr (lt_min (by decide) N_pos)
  rw [members, hk, List.range_succ_eq_map, List.map_cons, List.head?_cons, Nat.add_zero,
    Nat.mod_eq_of_lt hg]

theorem nodup_members (g : Nat) : (T.members g).Nodup := by
  rw [members_eq_met]
  exact FirstMet.nodup_met

theorem members_eq_eraseDups {g : Nat} (hg : g < T.N) :
    T.members g = [T.node g, T.node ((g + 1) % T.N), T.node ((g + 2) % T.N)].eraseDups := by
  rw [members_eq_met]
  show [T.node (g % T.N), _, _].eraseDups = _
  rw [Nat.mod_eq_of_lt hg]

end Topology

/-! ## The numbers of the groups

In `size_t`, where a negative offset is a very large number, and the sum comes round again. -/

namespace Cluster

variable {c : Cluster}

theorem selfIdx_lt (hpos : 0 < c.nodeIds.length) : c.selfIdx < c.nodeIds.length := by
  unfold selfIdx
  cases hfind : c.nodeIds.idxOf? c.selfNode.uuid with
  | none => exact hpos
  | some i => exact (List.idxOf?_eq_some_iff.mp hfind).1

/-- Going back from this node, and going forth from the group. -/
theorem groupIndex_eq_iff (hpos : 0 < c.nodeIds.length) {j g : Nat} :
    c.groupIndex j = g ↔ g < c.nodeIds.length ∧ c.selfIdx = (g + j) % c.nodeIds.length := by
  have hself := selfIdx_lt hpos
  have hne : (c.nodeIds.length : Int) ≠ 0 := Int.natCast_ne_zero.mpr hpos.ne'
  generalize hN : c.nodeIds.length = N at *
  have hvalue : (c.groupIndex j : Int) = ((c.selfIdx : Int) - j + N) % N := by
    unfold groupIndex
    rw [hN, Int.toNat_of_nonneg (Int.emod_nonneg _ hne)]
  constructor
  · rintro rfl
    refine ⟨?_, ?_⟩
    · have hlt := Int.emod_lt_of_pos ((c.selfIdx : Int) - j + N) (Int.natCast_pos.mpr hpos)
      omega
    · have hback : ((c.groupIndex j : Int) + j) % N = c.selfIdx := by
        rw [hvalue, Int.emod_add_emod, sub_add_eq_add_sub, sub_add_cancel, Int.add_emod_right]
        exact Int.emod_eq_of_lt (Int.natCast_nonneg _) (Int.ofNat_lt.mpr hself)
      exact_mod_cast hback.symm
  · rintro ⟨hg, hs⟩
    have hforth : ((c.selfIdx : Int) - j + N) % N = g := by
      rw [hs, Int.natCast_mod, Nat.cast_add, Int.add_emod_right, Int.sub_emod, Int.emod_emod_of_dvd,
        ← Int.sub_emod, add_sub_cancel_right]
      · exact Int.emod_eq_of_lt (Int.natCast_nonneg _) (Int.ofNat_lt.mpr hg)
      · exact dvd_rfl
    exact_mod_cast hvalue.trans hforth

/-- The unsigned numbers do not go wrong. -/
theorem toNat_groupSlot (hpos : 0 < c.nodeIds.length) (hsize : c.nodeIds.length < 2 ^ 63) :
    ([0, -1, -2].map c.groupSlot).map UInt64.toNat = [0, 1, 2].map c.groupIndex := by
  have hself := selfIdx_lt hpos
  have hslot : ∀ (offset : Int32) (k : Nat), k ≤ 2 →
      offset.toInt64.toUInt64.toNat = (2 ^ 64 - k) % 2 ^ 64 →
      (c.groupSlot offset).toNat = c.groupIndex k := by
    intro offset k hk hoffset
    symm
    rw [groupIndex_eq_iff hpos]
    unfold groupSlot nodeCount
    rw [UInt64.toNat_mod, UInt64.toNat_add, UInt64.toNat_add, hoffset, UInt64.toNat_ofNat',
      UInt64.toNat_ofNat', Nat.mod_eq_of_lt (a := c.nodeIds.length) (by omega),
      Nat.mod_eq_of_lt (a := c.selfIdx) (by omega)]
    refine ⟨Nat.mod_lt _ hpos, ?_⟩
    by_cases hreach : k ≤ c.selfIdx + c.nodeIds.length
    · have hsum : ((c.selfIdx + (2 ^ 64 - k) % 2 ^ 64) % 2 ^ 64 + c.nodeIds.length) % 2 ^ 64
          = c.selfIdx + c.nodeIds.length - k := by
        omega
      rw [hsum, Nat.mod_add_mod, Nat.sub_add_cancel hreach, Nat.add_mod_right,
        Nat.mod_eq_of_lt hself]
    · -- a node that is alone, going back by two: 2^64 - 1 is as good as any number
      have hone : c.nodeIds.length = 1 := by omega
      rw [hone, Nat.mod_one]
      omega
  simp only [List.map_cons, List.map_nil]
  rw [hslot 0 0 (by decide) (by decide), hslot (-1) 1 (by decide) (by decide),
    hslot (-2) 2 (by decide) (by decide)]

theorem toNat_nodeCount (hsize : c.nodeIds.length < 2 ^ 63) :
    c.nodeCount.toNat = c.nodeIds.length := by
  rw [nodeCount, UInt64.toNat_ofNat', Nat.mod_eq_of_lt (by omega)]

theorem slotMembers_eq (hsize : c.nodeIds.length < 2 ^ 63) {gi : UInt64}
    (hgi : gi.toNat < c.nodeIds.length) : c.slotMembers gi = c.members gi.toNat := by
  have hplace : ∀ j : UInt64, j.toNat ≤ 2 →
      ((gi + j) % c.nodeCount).toNat = (gi.toNat + j.toNat) % c.nodeIds.length := by
    intro j hj
    rw [UInt64.toNat_mod, UInt64.toNat_add, toNat_nodeCount hsize,
      Nat.mod_eq_of_lt (a := gi.toNat + j.toNat) (by omega)]
  simp only [slotMembers, members, List.map_cons, List.map_nil]
  rw [hplace 0 (by decide), hplace 1 (by decide), hplace 2 (by decide)]
  rfl

theorem slotPeers_eq (hsize : c.nodeIds.length < 2 ^ 63) {gi : UInt64}
    (hgi : gi.toNat < c.nodeIds.length) : c.slotPeers gi = c.peersOf gi.toNat := by
  rw [slotPeers, peersOf, slotMembers_eq hsize hgi]

end Cluster

/-! ## The groups that are built

Three offsets, and each of them may name a group that is there already: in a topology of one or two
nodes. -/

theorem Cluster.keeps_addNodeToHash (us : List Uuid) : ∀ c : Cluster,
    (us.foldl Cluster.addNodeToHash c).topo = c.topo ∧
      (us.foldl Cluster.addNodeToHash c).selfNode = c.selfNode := by
  induction us with
  | nil => intro c; exact ⟨rfl, rfl⟩
  | cons u us ih =>
    intro c
    have hone : (c.addNodeToHash u).topo = c.topo ∧ (c.addNodeToHash u).selfNode = c.selfNode := by
      simp only [addNodeToHash, and_self]
    obtain ⟨htopo, hself⟩ := ih (c.addNodeToHash u)
    rw [List.foldl_cons]
    exact ⟨htopo.trans hone.1, hself.trans hone.2⟩

theorem Cluster.nodeHash_addAll (us : List Uuid) (c : Cluster) :
    us.foldl Cluster.addNodeToHash c = c.exec (us.map .addNodeToHash) := by
  unfold exec Run.exec
  rw [List.foldl_map]
  rfl

theorem Cluster.lookup_groupIds {α : Type} (c : Cluster) (f : Nat → α) (g : Nat) :
    (c.groupIds.map fun gid => (gid, f gid)).lookup g
      = if g ∈ c.groupIds then some (f g) else none := by
  induction c.groupIds with
  | nil => rfl
  | cons gid gids ih =>
    rw [List.map_cons, List.lookup_cons]
    by_cases hg : g = gid
    · subst hg
      simp
    · rw [beq_false_of_ne hg, ih]
      simp only [List.mem_cons, hg, false_or]

namespace Groups

variable {s s' : Groups} {rand : Nat → Nat}

theorem call_buildGroup (s : Groups) (rand : Nat → Nat) (gi : UInt64) :
    (buildGroup rand gi).call s = match s.restore rand gi with
      | .ok rn => (.ok (), s.addGroup gi rn)
      | .error e => (.error e, s) := by
  unfold buildGroup
  rw [Method.call_bind_ok (Method.call_get s)]
  cases s.restore rand gi with
  | ok rn => rfl
  | error e => rfl

theorem call_initRaftGroups (hne : s.cluster.topo ≠ []) (spill : Nat → Nat → Nat)
    (rand : Nat → Nat) :
    (initRaftGroups spill rand).call s = Method.call
      (forM ([0, -1, -2].map s.cluster.groupSlot) (buildGroup rand)) (s.clear spill) := by
  have hempty : s.cluster.topo.isEmpty = false := by simpa using hne
  unfold initRaftGroups
  rw [Method.call_bind_ok (Method.call_get s)]
  dsimp only
  rw [hempty, if_neg Bool.false_ne_true, Method.call_bind_ok (Method.call_modify _ s)]

/-- The members of a group are written down for nobody: without them it is the rebuild of
`Site`. -/
theorem site_buildGroups {c : Cluster} (hsize : c.nodeIds.length < 2 ^ 63) (rand : Nat → Nat) :
    ∀ {gis : List UInt64} {s : Groups}, s.cluster = c →
      (∀ gi ∈ gis, gi.toNat < c.nodeIds.length) →
      let after := (forM gis (buildGroup rand)).call s
      (after.1, after.2.site)
        = (forM (gis.map UInt64.toNat) (Site.buildGroup rand)).call s.site := by
  intro gis
  induction gis with
  | nil => intro s _ _; rfl
  | cons gi gis ih =>
    intro s hc hlt
    have hrestore : s.restore rand gi = s.site.restore rand gi.toNat := by
      unfold restore Site.restore
      dsimp only
      rw [hc, Cluster.slotPeers_eq hsize (hlt gi List.mem_cons_self), ← hc]
    have hfirst := call_buildGroup s rand gi
    have hsite := Site.call_buildGroup s.site rand gi.toNat
    rw [hrestore] at hfirst
    dsimp only
    rw [List.map_cons, List.forM_cons, List.forM_cons]
    -- both stop at the first log that cannot be read
    cases hrn : s.site.restore rand gi.toNat with
    | error e =>
      rw [hrn] at hfirst hsite
      rw [Method.call_bind_error hfirst, Method.call_bind_error hsite]
    | ok rn =>
      rw [hrn] at hfirst hsite
      rw [Method.call_bind_ok hfirst, Method.call_bind_ok hsite]
      exact ih (s := s.addGroup gi rn) hc fun gi' hgi' => hlt gi' (List.mem_cons_of_mem _ hgi')

theorem slots_lt {c : Cluster} (hpos : 0 < c.nodeIds.length) (hsize : c.nodeIds.length < 2 ^ 63) :
    ∀ gi ∈ [0, -1, -2].map c.groupSlot, gi.toNat < c.nodeIds.length := by
  intro gi hgi
  obtain ⟨offset, -, rfl⟩ := List.mem_map.mp hgi
  unfold Cluster.groupSlot
  rw [UInt64.toNat_mod, Cluster.toNat_nodeCount hsize]
  exact Nat.mod_lt _ hpos

/-- A server that has its nodes on the ring, and no groups. -/
theorem clear_spec (s : Groups) (spill : Nat → Nat → Nat) :
    (s.clear spill).cluster.nodeIds = s.cluster.nodeIds ∧
      (s.clear spill).cluster.selfNode = s.cluster.selfNode ∧
      (s.clear spill).cluster.groupSlot = s.cluster.groupSlot := by
  obtain ⟨htopo, hself⟩ := Cluster.keeps_addNodeToHash s.cluster.nodeIds s.cluster
  have hids : (s.clear spill).cluster.nodeIds = s.cluster.nodeIds := congrArg (List.map _) htopo
  refine ⟨hids, hself, funext fun offset => ?_⟩
  have hidx : (s.clear spill).cluster.selfIdx = s.cluster.selfIdx := by
    unfold Cluster.selfIdx
    rw [hids, show (s.clear spill).cluster.selfNode = s.cluster.selfNode from hself]
  unfold Cluster.groupSlot Cluster.nodeCount
  rw [hids, hidx]

/-- **The rebuild of `Site`** is this one, as far as it goes. -/
theorem site_initRaftGroups (hne : s.cluster.topo ≠ []) (hsize : s.cluster.topo.length < 2 ^ 63)
    (spill : Nat → Nat → Nat) (rand : Nat → Nat) :
    let after := (initRaftGroups spill rand).call s
    (after.1, after.2.site) = (Site.initRaftGroups spill rand).call s.site := by
  have hlength : s.cluster.nodeIds.length = s.cluster.topo.length := List.length_map _
  have hpos : 0 < s.cluster.nodeIds.length := hlength ▸ List.length_pos_of_ne_nil hne
  rw [← hlength] at hsize
  obtain ⟨hids, -, -⟩ := s.clear_spec spill
  dsimp only
  rw [call_initRaftGroups hne, Site.call_initRaftGroups hne, ← Cluster.toNat_groupSlot hpos hsize]
  refine site_buildGroups (c := (s.clear spill).cluster) (by rwa [hids]) rand rfl ?_
  rw [hids]
  exact slots_lt hpos hsize

/-- The groups, one after the other. -/
theorem buildGroups_eq : ∀ {gis : List UInt64} {s s' : Groups},
    (forM gis (buildGroup rand)).call s = (.ok (), s') →
    ∃ node : UInt64 → RaftNode, (∀ gi ∈ gis, s.restore rand gi = .ok (node gi)) ∧
      s' = gis.foldl (fun s gi => s.addGroup gi (node gi)) s := by
  intro gis s s' hcall
  refine ⟨fun gi => (s.restore rand gi).toOption.getD (.construct 0 0 [] 0), ?_⟩
  generalize hnode : (fun gi => (s.restore rand gi).toOption.getD (.construct 0 0 [] 0)) = node
  have hrestore : ∀ gi rn, s.restore rand gi = .ok rn → node gi = rn := by
    intro gi rn hrn
    rw [← hnode]
    dsimp only
    rw [hrn]
    rfl
  clear hnode
  induction gis generalizing s with
  | nil => exact ⟨fun gi hgi => absurd hgi List.not_mem_nil, (Prod.mk.inj hcall).2.symm⟩
  | cons gi gis ih =>
    rw [List.forM_cons] at hcall
    obtain ⟨⟨⟩, s₁, hfirst, hrest⟩ := Method.bind_eq_ok hcall
    rw [call_buildGroup] at hfirst
    cases hrn : s.restore rand gi with
    | error e =>
      rw [hrn] at hfirst
      exact absurd hfirst (by simp)
    | ok rn =>
      rw [hrn] at hfirst
      obtain rfl : s.addGroup gi rn = s₁ := (Prod.mk.inj hfirst).2
      -- what is restored does not depend on the groups that are there
      obtain ⟨hnodes, hafter⟩ := ih hrest hrestore
      refine ⟨?_, ?_⟩
      · intro gi' hgi'
        rcases List.mem_cons.mp hgi' with rfl | hin
        · rw [hrestore gi' rn hrn, hrn]
        · exact hnodes gi' hin
      · rw [hafter, List.foldl_cons, hrestore gi rn hrn]

theorem foldl_addGroup (node : UInt64 → RaftNode) : ∀ (gis : List UInt64) (s : Groups),
    let after := gis.foldl (fun s gi => s.addGroup gi (node gi)) s
    let gids := gis.map UInt64.toNat
    after.cluster = s.cluster ∧
      after.site.server.raftGroups = gids.foldl
        (fun groups gid => emplace gid (node (.ofNat gid)) groups) s.site.server.raftGroups ∧
      after.site.server.masterToGroup = OrderedMap.insertAll
        (gids.map fun gid => (s.cluster.nodeIds.getD gid 0, gid)) s.site.server.masterToGroup ∧
      after.groupMembers = OrderedMap.insertAll
        (gis.map fun gi => (gi, (s.cluster.slotMembers gi).eraseDups)) s.groupMembers := by
  intro gis
  induction gis with
  | nil => intro s; exact ⟨rfl, rfl, rfl, rfl⟩
  | cons gi gis ih =>
    intro s
    obtain ⟨hcluster, hgroups, hmasters, hmembers⟩ := ih (s.addGroup gi (node gi))
    refine ⟨hcluster, hgroups.trans ?_, hmasters.trans ?_, hmembers.trans ?_⟩
    · rw [List.map_cons, List.foldl_cons, UInt64.ofNat_toNat]
      rfl
    · simp only [OrderedMap.insertAll, List.map_cons, List.foldl_cons, ← assign_eq_insert]
      rfl
    · simp only [OrderedMap.insertAll, List.map_cons, List.foldl_cons, ← assign_eq_insert]
      rfl

/-- What a rebuild has built. -/
structure Built (s : Groups) : Prop where
  hosts : ∀ g, s.Hosts g ↔ g ∈ s.cluster.groupIds
  nodes : ∀ g rn, s.site.server.raftGroups.lookup g = some rn → rn.groupId = g ∧
    rn.selfId = s.cluster.selfNode.uuid ∧ rn.peers = s.cluster.peersOf g
  masters : ∀ g ∈ s.cluster.groupIds,
    s.site.server.masterToGroup.lookup (s.cluster.nodeIds.getD g 0) = some g
  recorded : ∀ g ∈ s.cluster.groupIds,
    s.groupMembers.lookup (.ofNat g) = some (s.cluster.members g).eraseDups

theorem restore_spec {groupId : Nat} {selfId : Uuid} {peers : List Uuid} {file : Bytes}
    {rand : Nat} {rn : RaftNode} (h : RaftNode.restore groupId selfId peers file rand = .ok rn) :
    rn.groupId = groupId ∧ rn.selfId = selfId ∧ rn.peers = peers := by
  unfold RaftNode.restore at h
  cases hload : Raft.loadFromDisk file with
  | error e =>
    rw [hload] at h
    exact absurd h (by simp [bind, Except.bind])
  | ok entries =>
    rw [hload] at h
    obtain rfl := Except.ok.inj h
    split
    · exact ⟨rfl, rfl, rfl⟩
    · exact ⟨rfl, rfl, rfl⟩

theorem built_buildGroups (hordered : Ordered s.cluster.topo) (hne : s.cluster.topo ≠ [])
    (hsize : s.cluster.topo.length < 2 ^ 63) (hgroups : s.site.server.raftGroups = [])
    (hmasters : s.site.server.masterToGroup = []) (hmembers : s.groupMembers = [])
    (hcall : (forM ([0, -1, -2].map s.cluster.groupSlot) (buildGroup rand)).call s = (.ok (), s')) :
    s'.cluster = s.cluster ∧ s'.Built := by
  have hlength : s.cluster.nodeIds.length = s.cluster.topo.length := List.length_map _
  have hpos : 0 < s.cluster.nodeIds.length := hlength ▸ List.length_pos_of_ne_nil hne
  rw [← hlength] at hsize
  have hlt := slots_lt hpos hsize
  obtain ⟨node, hrestore, hafter⟩ := buildGroups_eq hcall
  obtain ⟨hcluster, hgroups', hmasters', hmembers'⟩ :=
    foldl_addGroup node ([0, -1, -2].map s.cluster.groupSlot) s
  rw [← hafter] at hcluster hgroups' hmasters' hmembers'
  rw [hgroups, Cluster.toNat_groupSlot hpos hsize, Site.emplaced_eq hne] at hgroups'
  rw [hmasters] at hmasters'
  rw [hmembers] at hmembers'
  -- the numbers of the groups, as they are and as they are computed
  have hslots : ∀ g ∈ s.cluster.groupIds, ∃ gi ∈ [0, -1, -2].map s.cluster.groupSlot,
      gi.toNat = g := by
    intro g hg
    rw [Cluster.mem_groupIds hne, ← Cluster.toNat_groupSlot hpos hsize] at hg
    exact List.mem_map.mp hg
  have hlookup : ∀ g, s'.site.server.raftGroups.lookup g
      = if g ∈ s.cluster.groupIds then some (node (.ofNat g)) else none := by
    intro g
    rw [hgroups']
    exact Cluster.lookup_groupIds _ _ g
  refine ⟨hcluster, ⟨fun g => ?_, fun g rn hrn => ?_, fun g hg => ?_, fun g hg => ?_⟩⟩
  · rw [hcluster, Hosts, hlookup]
    by_cases hg : g ∈ s.cluster.groupIds
    · simp [hg]
    · simp [hg]
  · rw [hlookup] at hrn
    split at hrn
    · rename_i hg
      obtain ⟨gi, hgi, rfl⟩ := hslots g hg
      rw [UInt64.ofNat_toNat] at hrn
      rw [← Option.some.inj hrn, hcluster, ← Cluster.slotPeers_eq hsize (hlt gi hgi)]
      exact restore_spec (hrestore gi hgi)
    · exact absurd hrn (by simp)
  · rw [hcluster] at hg ⊢
    obtain ⟨gi, hgi, rfl⟩ := hslots g hg
    -- a group has one master, and no other group has it
    have hagree : ∀ e ∈ (([0, -1, -2].map s.cluster.groupSlot).map UInt64.toNat).map
        (fun gid => (s.cluster.nodeIds.getD gid 0, gid)), ∀ e' ∈ (([0, -1, -2].map
          s.cluster.groupSlot).map UInt64.toNat).map
          (fun gid => (s.cluster.nodeIds.getD gid 0, gid)) ++ [], e.1 = e'.1 → e = e' := by
      rw [List.append_nil, List.map_map]
      intro e he e' he' hkey
      obtain ⟨gj, hgj, rfl⟩ := List.mem_map.mp he
      obtain ⟨gk, hgk, rfl⟩ := List.mem_map.mp he'
      have hsame : gj.toNat = gk.toNat :=
        (List.getD_inj (hlt gj hgj) (hlt gk hgk) hordered.nodup_keys).mp hkey
      exact Prod.ext hkey hsame
    rw [hmasters', (OrderedMap.ordered_nil.insertAll _).lookup_eq_some,
      OrderedMap.mem_insertAll_of_agree OrderedMap.ordered_nil hagree]
    exact Or.inl (List.mem_map.mpr ⟨gi.toNat, List.mem_map.mpr ⟨gi, hgi, rfl⟩, rfl⟩)
  · rw [hcluster] at hg ⊢
    obtain ⟨gi, hgi, rfl⟩ := hslots g hg
    have hagree : ∀ e ∈ ([0, -1, -2].map s.cluster.groupSlot).map
        (fun gi => (gi, (s.cluster.slotMembers gi).eraseDups)), ∀ e' ∈ ([0, -1, -2].map
          s.cluster.groupSlot).map (fun gi => (gi, (s.cluster.slotMembers gi).eraseDups)) ++ [],
        e.1 = e'.1 → e = e' := by
      rw [List.append_nil]
      intro e he e' he' hkey
      obtain ⟨gj, -, rfl⟩ := List.mem_map.mp he
      obtain ⟨gk, -, rfl⟩ := List.mem_map.mp he'
      have hkey : gj = gk := hkey
      rw [hkey]
    rw [hmembers', (OrderedMap.ordered_nil.insertAll _).lookup_eq_some,
      OrderedMap.mem_insertAll_of_agree OrderedMap.ordered_nil hagree, UInt64.ofNat_toNat,
      ← Cluster.slotMembers_eq hsize (hlt gi hgi)]
    exact Or.inl (List.mem_map.mpr ⟨gi, hgi, rfl⟩)

theorem built_initRaftGroups (hordered : Ordered s.cluster.topo) (hne : s.cluster.topo ≠ [])
    (hsize : s.cluster.topo.length < 2 ^ 63) {spill : Nat → Nat → Nat}
    (hcall : (initRaftGroups spill rand).call s = (.ok (), s')) :
    s'.cluster = s.cluster.nodeIds.foldl Cluster.addNodeToHash s.cluster ∧ s'.Built := by
  obtain ⟨-, -, hslot⟩ := s.clear_spec spill
  have htopo : (s.clear spill).cluster.topo = s.cluster.topo :=
    (Cluster.keeps_addNodeToHash _ _).1
  rw [call_initRaftGroups hne, ← hslot] at hcall
  refine built_buildGroups ?_ ?_ ?_ rfl rfl rfl hcall
  · rw [htopo]
    exact hordered
  · rw [htopo]
    exact hne
  · rw [htopo]
    exact hsize

/-- With files that can be read the groups are built. -/
theorem initRaftGroups_returns (hne : s.cluster.topo ≠ []) (hsize : s.cluster.topo.length < 2 ^ 63)
    (spill : Nat → Nat → Nat) (rand : Nat → Nat)
    (hload : ∀ gid ∈ s.cluster.groupIds, Raft.Readable (s.site.closed spill gid)) :
    ∃ s', (initRaftGroups spill rand).call s = (.ok (), s') := by
  obtain ⟨s₁, hcall, -⟩ := Site.initRaftGroups_spec hne rand hload
  have hsite := site_initRaftGroups hne hsize spill rand
  dsimp only at hsite
  rw [hcall] at hsite
  exact ⟨_, Prod.ext (Prod.mk.inj hsite).1 rfl⟩

end Groups

/-! ## The nodes together

Each node has built its groups alone. That they are the same groups follows from the same topology,
and from nothing that the nodes tell each other. -/

namespace Topology

open Groups (initRaftGroups)

variable {T : Topology} {c : Cluster}

theorem selfIdx_eq {s : Nat} (htopo : c.topo = T.nodes) (hself : c.selfNode.uuid = T.node s)
    (hs : s < T.N) : c.selfIdx = s := by
  have hids : c.nodeIds = T.ids := congrArg (List.map _) htopo
  have hlt : s < T.ids.length := length_ids ▸ hs
  have hhere : T.ids[s] = T.node s := (List.getD_eq_getElem _ _ hlt).symm
  have hidx : c.nodeIds.idxOf? c.selfNode.uuid = some s := by
    rw [hids, hself, List.idxOf?_eq_some_iff]
    refine ⟨hlt, hhere, fun j hj heq => ?_⟩
    have hsame : j = s := nodup_ids.getElem_inj_iff.mp (heq.trans hhere.symm)
    exact absurd hj (hsame ▸ lt_irrefl _)
  rw [Cluster.selfIdx, hidx, Option.getD_some]

/-- The groups of a node, going back from it, and its groups in the topology. -/
theorem mem_groupIds_iff {s g : Nat} (htopo : c.topo = T.nodes)
    (hself : c.selfNode.uuid = T.node s) (hs : s < T.N) :
    g ∈ c.groupIds ↔ g < T.N ∧ ∃ j < 3, s = (g + j) % T.N := by
  have hlength : c.nodeIds.length = T.N := by
    rw [Cluster.nodeIds, htopo]
    exact length_ids
  have hpos : 0 < c.nodeIds.length := hlength ▸ N_pos
  rw [Cluster.mem_groupIds (htopo ▸ T.nonempty), List.mem_map]
  have hone : ∀ j, c.groupIndex j = g ↔ g < T.N ∧ s = (g + j) % T.N := by
    intro j
    rw [Cluster.groupIndex_eq_iff hpos, hlength, selfIdx_eq htopo hself hs]
  constructor
  · rintro ⟨j, hj, hg⟩
    obtain ⟨hlt, hplace⟩ := (hone j).mp hg
    refine ⟨hlt, j, ?_, hplace⟩
    simp only [List.mem_cons, List.not_mem_nil, or_false] at hj
    omega
  · rintro ⟨hlt, j, hj, hplace⟩
    refine ⟨j, ?_, (hone j).mpr ⟨hlt, hplace⟩⟩
    simp only [List.mem_cons, List.not_mem_nil, or_false]
    omega

theorem eraseDups_members (htopo : c.topo = T.nodes) (g : Nat) :
    (c.members g).eraseDups = T.members g := by
  have hids : c.nodeIds = T.ids := congrArg (List.map _) htopo
  rw [members_eq_met, FirstMet.met, Cluster.members, hids, length_ids]
  rfl

theorem peersOf_eq {s : Nat} (htopo : c.topo = T.nodes) (hself : c.selfNode.uuid = T.node s)
    (g : Nat) : c.peersOf g = (T.members g).filter (· ≠ T.node s) := by
  rw [Cluster.peersOf, FirstMet.eraseDups_filter, eraseDups_members htopo, hself]

/-- Someone of the topology owns the key. -/
theorem exists_owner (hne : c.nodeHash ≠ []) (hring : ∀ u, c.OnRing u → u ∈ T.ids) (key : Bytes) :
    ∃ s < T.N, c.queryNode key = .ok (T.node s) := by
  obtain ⟨point, hpoint⟩ : ∃ p, OrderedMap.next (Cluster.hashString key) c.nodeHash = some p :=
    OrderedMap.exists_next hne
  have honring : c.OnRing point.2 := ⟨point.1, OrderedMap.mem_of_next hpoint⟩
  obtain ⟨s, hs, hnode⟩ := mem_ids.mp (hring _ honring)
  refine ⟨s, hs, ?_⟩
  rw [Cluster.queryNode_eq, hpoint, hnode]

/-- **Group assignment is consistent.**

Every node computes from its place `s` among the `N` nodes which groups it is in: those of `s` and
of the two places before it. All know the same places, so `g` is a group of the nodes at `g`, `g +
1` and `g + 2` modulo `N`, whoever computes it, and its first member is the node that the ring gives
the keys to. The offsets are not positive; in `size_t` the sum with `N` comes out right all the
same, and where `N` is 1 it does not matter. -/
theorem initRaftGroups_consistent (T : Topology) {before after : Nat → Groups}
    (spill : Nat → Nat → Nat → Nat) (rand : Nat → Nat → Nat)
    (hknown : ∀ s < T.N, (before s).cluster.topo = T.nodes)
    (hself : ∀ s < T.N, (before s).cluster.selfNode.uuid = T.node s)
    (hcall : ∀ s < T.N, (initRaftGroups (spill s) (rand s)).call (before s) = (.ok (), after s)) :
    T.Consistent after := by
  have hbuilt : ∀ s < T.N, (after s).Built ∧ (after s).cluster.topo = T.nodes ∧
      (after s).cluster.selfNode.uuid = T.node s ∧ (after s).cluster.nodeHash ≠ [] := by
    intro s hs
    have hcluster := Groups.built_initRaftGroups (hknown s hs ▸ T.ordered)
      (hknown s hs ▸ T.nonempty) (hknown s hs ▸ T.size) (hcall s hs)
    obtain ⟨hring, hbuilt⟩ := hcluster
    obtain ⟨htopo, hnode⟩ :=
      Cluster.keeps_addNodeToHash (before s).cluster.nodeIds (before s).cluster
    have hids : (before s).cluster.nodeIds ≠ [] := by
      rw [Cluster.nodeIds, hknown s hs]
      exact fun h => T.nonempty (List.map_eq_nil_iff.mp h)
    refine ⟨hbuilt, ?_, ?_, ?_⟩
    · rw [hring, htopo, hknown s hs]
    · rw [hring, hnode, hself s hs]
    · rw [hring, Cluster.nodeHash_addAll]
      exact Cluster.nodeHash_exec_adds_ne_nil hids
  have hhosts : ∀ s < T.N, ∀ g, (after s).Hosts g ↔ g < T.N ∧ ∃ j < 3, s = (g + j) % T.N := by
    intro s hs g
    obtain ⟨hb, htopo, hnode, -⟩ := hbuilt s hs
    rw [hb.hosts, mem_groupIds_iff htopo hnode hs]
  have hrecorded : ∀ s < T.N, ∀ g, (after s).Hosts g →
      (after s).groupMembers.lookup (.ofNat g) = some (T.members g) := by
    intro s hs g hg
    obtain ⟨hb, htopo, -⟩ := hbuilt s hs
    rw [hb.recorded g ((hb.hosts g).mp hg), eraseDups_members htopo]
  refine ⟨hhosts, hrecorded, fun g hg => ?_, fun s hs g rn hrn => ?_, fun t ht hring key => ?_⟩
  · exact ⟨head?_members hg, nodup_members g, members_eq_eraseDups hg⟩
  · obtain ⟨hb, htopo, hnode, -⟩ := hbuilt s hs
    obtain ⟨hgroup, hrnself, hpeers⟩ := hb.nodes g rn hrn
    rw [peersOf_eq htopo hnode] at hpeers
    refine ⟨hgroup, hrnself.trans hnode, hpeers, ?_⟩
    rw [hpeers]
    exact (nodup_members g).filter _
  · obtain ⟨-, -, -, hne⟩ := hbuilt t ht
    obtain ⟨s, hs, howner⟩ := exists_owner hne hring key
    refine ⟨s, hs, howner, fun hsame => ?_⟩
    obtain ⟨hb, htopo, hnode, -⟩ := hbuilt s hs
    -- the first of its groups is the one it leads
    have hhost : (after s).Hosts s := by
      rw [hhosts s hs]
      exact ⟨hs, 0, by decide, by rw [Nat.add_zero, Nat.mod_eq_of_lt hs]⟩
    have hmaster := hb.masters s ((hb.hosts s).mp hhost)
    have hplace : (after s).cluster.nodeIds.getD s 0 = T.node s := by
      rw [Cluster.nodeIds, htopo]
      rfl
    rw [hplace] at hmaster
    have hquery : (after s).cluster.queryNode key = .ok (T.node s) := by
      rw [Cluster.queryNode_congr hsame, howner]
    refine ⟨s, ?_, hhost, ?_⟩
    · unfold ServerState.getGroupForKey
      rw [hquery]
      show Except.ok _ = _
      rw [hmaster, Option.filter_some]
      exact congrArg Except.ok (if_pos hhost)
    · obtain ⟨rest, hrest⟩ := List.head?_eq_some_iff.mp (head?_members hs)
      exact ⟨rest, by rw [hrecorded s hs s hhost, hrest]⟩

/-- Two nodes, each of which knows the other. -/
def pair : Topology where
  nodes := [(3, ⟨[], 7803, 3⟩), (5, ⟨[], 7805, 5⟩)]
  ordered := (OrderedMap.ordered_nil.insert 5 _).insert 3 _
  nonempty := by simp
  size := by decide

/-- Node `s` of the two, before it has any groups. -/
def pairMember (s : Nat) : Groups where
  site := {
    server := { cluster := { selfNode := ⟨[], 7800, pair.node s⟩, topo := pair.nodes } }
    files := fun _ => [] }

/-- Their groups have two members. -/
theorem initRaftGroups_consistent_pair :
    ∃ after, (∀ s < pair.N, (initRaftGroups (fun _ _ => 0) fun _ => 0).call (pairMember s)
      = (.ok (), after s)) ∧ pair.Consistent after := by
  have hrun : ∀ s, ∃ s', (initRaftGroups (fun _ _ => 0) fun _ => 0).call (pairMember s)
      = (.ok (), s') := by
    intro s
    refine Groups.initRaftGroups_returns pair.nonempty pair.size _ _ fun gid _ => ?_
    exact Raft.loadFromDisk_isOk.mp rfl
  choose after hafter using hrun
  exact ⟨after, fun s _ => hafter s, initRaftGroups_consistent pair (fun _ _ _ => 0) (fun _ _ => 0)
    (fun _ _ => rfl) (fun _ _ => rfl) fun s _ => hafter s⟩

end Topology
end Server
end KvJet
