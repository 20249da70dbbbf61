import KvJet.Lib.OrderedMap
import KvJet.Lib.Run
import KvJet.Server.Cluster

/-!
# The ring over its history

`delNodeToHash`, and the ring that any calls of `addNodeToHash` and `delNodeToHash` leave behind.
Adding a node overwrites the points it shares with another one, and removing it erases them, so
the ring says who is a member only where no two nodes share a point (`Apart`).
-/

namespace KvJet
namespace Server

open OrderedMap (Ordered)
open Raft (Uuid)

theorem assign_eq_insert {α : Type} (key : UInt64) (value : α) (m : List (UInt64 × α)) :
    assign key value m = OrderedMap.insert key value m := by
  induction m with
  | nil => rfl
  | cons p rest ih =>
    unfold assign OrderedMap.insert
    split
    · rfl
    · split
      · rfl
      · rw [ih]

namespace Cluster

/-- The loop of `delNodeToHash`. -/
def delPoints (points : List UInt64) (ring : List (UInt64 × Uuid)) : List (UInt64 × Uuid) :=
  points.foldl (fun ring point => OrderedMap.erase point ring) ring

def addTopoNode (c : Cluster) (node : ClusterNode) : Cluster :=
  { c with topo := assign node.uuid node c.topo }

def delNodeToHash (c : Cluster) (nodeId : Uuid) : Cluster :=
  { c with nodeHash := delPoints (pointsOf nodeId) c.nodeHash }

/-! ## One call -/

theorem ordered_addPoints {nodeId : Uuid} : ∀ {points : List UInt64} {ring : List (UInt64 × Uuid)},
    Ordered ring → Ordered (addPoints nodeId points ring) := by
  intro points
  induction points with
  | nil => intro ring h; exact h
  | cons point points ih =>
    intro ring h
    have hone : Ordered (assign point nodeId ring) := by
      rw [assign_eq_insert]
      exact h.insert point nodeId
    exact ih hone

/-- A node takes over the points it shares with another one. -/
theorem mem_addPoints_iff {nodeId u : Uuid} {p : UInt64} :
    ∀ {points : List UInt64} {ring : List (UInt64 × Uuid)}, Ordered ring →
      ((p, u) ∈ addPoints nodeId points ring ↔
        (u = nodeId ∧ p ∈ points) ∨ ((p, u) ∈ ring ∧ p ∉ points)) := by
  intro points
  induction points with
  | nil => intro ring _; simp [addPoints]
  | cons point points ih =>
    intro ring h
    have hone : Ordered (assign point nodeId ring) := by
      rw [assign_eq_insert]
      exact h.insert point nodeId
    refine (ih hone).trans ?_
    rw [assign_eq_insert, OrderedMap.mem_insert h, Prod.mk.injEq]
    by_cases hp : p = point
    · subst hp
      simp only [List.mem_cons, true_or, not_true, and_false, or_false, and_true]
      tauto
    · simp [hp]

theorem delPoints_eq_filter : ∀ (points : List UInt64) (ring : List (UInt64 × Uuid)),
    delPoints points ring = ring.filter (·.1 ∉ points) := by
  intro points
  induction points with
  | nil =>
    intro ring
    simp [delPoints]
  | cons point points ih =>
    intro ring
    show delPoints points (OrderedMap.erase point ring) = _
    rw [ih, OrderedMap.erase, List.filter_filter]
    refine List.filter_congr fun q _ => ?_
    simp [Bool.and_comm]

theorem ordered_delPoints {points : List UInt64} {ring : List (UInt64 × Uuid)} (h : Ordered ring) :
    Ordered (delPoints points ring) := by
  rw [delPoints_eq_filter]
  exact h.filter _

theorem mem_delPoints_iff {q : UInt64 × Uuid} {points : List UInt64}
    {ring : List (UInt64 × Uuid)} :
    q ∈ delPoints points ring ↔ q ∈ ring ∧ q.1 ∉ points := by
  rw [delPoints_eq_filter, List.mem_filter, decide_eq_true_iff]

/-- Nobody goes twice. -/
theorem delPoints_twice (points : List UInt64) (ring : List (UInt64 × Uuid)) :
    delPoints points (delPoints points ring) = delPoints points ring := by
  rw [delPoints_eq_filter, delPoints_eq_filter, List.filter_filter]
  simp

/-- Who owns a key is asked of the ring alone. -/
theorem queryNode_eq (c : Cluster) (key : Bytes) :
    c.queryNode key = match OrderedMap.next (hashString key) c.nodeHash with
      | some point => .ok point.2
      | none => .error (.undefined "begin of an empty map") := by
  unfold queryNode OrderedMap.next
  cases hfind : c.nodeHash.find? fun point => hashString key ≤ point.1 with
  | some point => rfl
  | none =>
    cases hring : c.nodeHash with
    | nil => rfl
    | cons point rest => rfl

theorem queryNode_congr {c c' : Cluster} (h : c.nodeHash = c'.nodeHash) (key : Bytes) :
    c.queryNode key = c'.queryNode key := by
  rw [queryNode_eq, queryNode_eq, h]

/-! ## All calls

A point has one node, the one that was last put there. Where no two nodes share a point, that says
which calls were the last. -/

inductive RingCall where
  | addNodeToHash (nodeId : Uuid)
  | delNodeToHash (nodeId : Uuid)
deriving DecidableEq, Repr

namespace RingCall

def nodeId : RingCall → Uuid
  | addNodeToHash nodeId | delNodeToHash nodeId => nodeId

def isAdd : RingCall → Bool
  | addNodeToHash _ => true
  | delNodeToHash _ => false

end RingCall

def call (c : Cluster) : RingCall → Cluster
  | .addNodeToHash nodeId => c.addNodeToHash nodeId
  | .delNodeToHash nodeId => c.delNodeToHash nodeId

theorem nodeHash_delNodeToHash (c : Cluster) (nodeId : Uuid) :
    (c.delNodeToHash nodeId).nodeHash = delPoints (pointsOf nodeId) c.nodeHash := by
  simp only [delNodeToHash]

abbrev exec (c : Cluster) (calls : List RingCall) : Cluster := Run.exec call c calls

/-- The last call for `u`, if there is one, was an `addNodeToHash`. -/
def Member (u : Uuid) (calls : List RingCall) : Prop :=
  (calls.reverse.find? fun call => call.nodeId = u).any RingCall.isAdd = true

instance (u : Uuid) (calls : List RingCall) : Decidable (Member u calls) :=
  inferInstanceAs (Decidable (_ = true))

/-- No two of the nodes share a point. -/
def Apart (nodes : List Uuid) : Prop :=
  ∀ u ∈ nodes, ∀ v ∈ nodes, u ≠ v → ∀ p ∈ pointsOf u, p ∉ pointsOf v

instance (nodes : List Uuid) : Decidable (Apart nodes) :=
  inferInstanceAs (Decidable (∀ u ∈ nodes, ∀ v ∈ nodes, u ≠ v → ∀ p ∈ pointsOf u, p ∉ pointsOf v))

theorem Apart.subset {nodes nodes' : List Uuid} (h : Apart nodes) (hsub : nodes' ⊆ nodes) :
    Apart nodes' :=
  fun u hu v hv => h u (hsub hu) v (hsub hv)

theorem member_concat_self {calls : List RingCall} {last : RingCall} :
    Member last.nodeId (calls ++ [last]) ↔ last.isAdd = true := by
  unfold Member
  rw [List.reverse_concat, List.find?_cons_of_pos (by simp)]
  rfl

theorem member_concat_of_ne {u : Uuid} {calls : List RingCall} {last : RingCall}
    (h : last.nodeId ≠ u) : Member u (calls ++ [last]) ↔ Member u calls := by
  unfold Member
  rw [List.reverse_concat, List.find?_cons_of_neg (by simpa using h)]

theorem Member.mem {u : Uuid} {calls : List RingCall} (h : Member u calls) :
    u ∈ calls.map RingCall.nodeId := by
  obtain ⟨call, hfind, -⟩ := (Option.any_eq_true _ _).mp h
  have hcall : call.nodeId = u := by simpa using List.find?_some hfind
  rw [← hcall]
  exact List.mem_map_of_mem (List.mem_reverse.mp (List.mem_of_find?_eq_some hfind))

theorem ordered_call {c : Cluster} (h : Ordered c.nodeHash) (one : RingCall) :
    Ordered (c.call one).nodeHash := by
  cases one with
  | addNodeToHash nodeId =>
    rw [call, nodeHash_addNodeToHash]
    exact ordered_addPoints h
  | delNodeToHash nodeId =>
    rw [call, nodeHash_delNodeToHash]
    exact ordered_delPoints h

theorem ordered_exec {c : Cluster} (h : Ordered c.nodeHash) (calls : List RingCall) :
    Ordered (c.exec calls).nodeHash := by
  induction calls generalizing c with
  | nil => exact h
  | cons first calls ih => exact ih (ordered_call h first)

section Ring

variable {c : Cluster} {calls : List RingCall}

/-- The ring after all calls, by the last of them. -/
theorem mem_ring_iff (hstart : c.nodeHash = []) (hapart : Apart (calls.map RingCall.nodeId))
    {p : UInt64} {u : Uuid} :
    (p, u) ∈ (c.exec calls).nodeHash ↔ Member u calls ∧ p ∈ pointsOf u := by
  induction calls using List.reverseRecOn with
  | nil => simp [hstart, Member]
  | append_singleton calls last ih =>
    rw [List.map_append] at hapart
    have hord : Ordered (c.exec calls).nodeHash :=
      ordered_exec (hstart ▸ OrderedMap.ordered_nil) calls
    have ih := ih (hapart.subset (List.subset_append_left _ _))
    rw [exec, Run.exec_append, Run.exec_cons, Run.exec_nil]
    by_cases hlast : last.nodeId = u
    · subst hlast
      rw [member_concat_self]
      cases last with
      | addNodeToHash nodeId =>
        rw [call, nodeHash_addNodeToHash, mem_addPoints_iff hord]
        simp only [RingCall.nodeId, RingCall.isAdd, true_and]
        exact ⟨fun h => h.elim id fun hold => (ih.mp hold.1).2, Or.inl⟩
      | delNodeToHash nodeId =>
        rw [call, nodeHash_delNodeToHash, mem_delPoints_iff, ih]
        simp [RingCall.nodeId, RingCall.isAdd]
    · -- a member other than the node of the last call shares no point with it
      have hother : Member u calls ∧ p ∈ pointsOf u → p ∉ pointsOf last.nodeId := fun hu =>
        hapart u (List.mem_append_left _ hu.1.mem) _
          (List.mem_append_right _ List.mem_cons_self) (Ne.symm hlast) p hu.2
      rw [member_concat_of_ne hlast]
      cases last with
      | addNodeToHash nodeId =>
        rw [call, nodeHash_addNodeToHash, mem_addPoints_iff hord, ih]
        refine ⟨fun h => ?_, fun h => Or.inr ⟨h, hother h⟩⟩
        rcases h with ⟨hu, -⟩ | ⟨h, -⟩
        · exact absurd hu.symm hlast
        · exact h
      | delNodeToHash nodeId =>
        rw [call, nodeHash_delNodeToHash, mem_delPoints_iff, ih]
        exact ⟨And.left, fun h => ⟨h, hother h⟩⟩

theorem ordered_ring (hstart : c.nodeHash = []) (calls : List RingCall) :
    Ordered (c.exec calls).nodeHash :=
  ordered_exec (hstart ▸ OrderedMap.ordered_nil) calls

/-- Clusters with the same members have the same ring. -/
theorem ring_eq {c' : Cluster} {calls' : List RingCall} (hstart : c.nodeHash = [])
    (hstart' : c'.nodeHash = [])
    (hapart : Apart (calls.map RingCall.nodeId)) (hapart' : Apart (calls'.map RingCall.nodeId))
    (hmembers : ∀ u, Member u calls' ↔ Member u calls) :
    (c'.exec calls').nodeHash = (c.exec calls).nodeHash := by
  refine (ordered_ring hstart' calls').ext (ordered_ring hstart calls) fun ⟨p, u⟩ => ?_
  rw [mem_ring_iff hstart' hapart', mem_ring_iff hstart hapart, hmembers u]

end Ring

/-! ## Rings in general

Two rings compared, whatever calls they come from. -/

/-- A node is a member of the ring while it has a point there. -/
def OnRing (c : Cluster) (u : Uuid) : Prop := ∃ p, (p, u) ∈ c.nodeHash

/-- What the maps of every cluster are. -/
structure MapsOk (c : Cluster) : Prop where
  topo : Ordered c.topo
  ring : Ordered c.nodeHash
  own : ∀ p u, (p, u) ∈ c.nodeHash → p ∈ pointsOf u

theorem MapsOk.call {c : Cluster} (h : c.MapsOk) (one : RingCall) : (c.call one).MapsOk := by
  refine ⟨?_, ordered_call h.ring one, fun p u hp => ?_⟩
  · have htopo : (c.call one).topo = c.topo := by
      cases one with
      | addNodeToHash nodeId => simp only [Cluster.call, addNodeToHash]
      | delNodeToHash nodeId => simp only [Cluster.call, delNodeToHash]
    rw [htopo]
    exact h.topo
  · cases one with
    | addNodeToHash nodeId =>
      rw [Cluster.call, nodeHash_addNodeToHash, mem_addPoints_iff h.ring] at hp
      rcases hp with ⟨rfl, hp⟩ | ⟨hp, -⟩
      · exact hp
      · exact h.own p u hp
    | delNodeToHash nodeId =>
      rw [Cluster.call, nodeHash_delNodeToHash, mem_delPoints_iff] at hp
      exact h.own p u hp.1

/-- Nodes that come to any ring take their points, and leave the others. -/
theorem mem_exec_adds {c : Cluster} (h : Ordered c.nodeHash) {p : UInt64} {u : Uuid} :
    ∀ {nodes : List Uuid}, Apart nodes →
      ((p, u) ∈ (c.exec (nodes.map .addNodeToHash)).nodeHash ↔
        (u ∈ nodes ∧ p ∈ pointsOf u) ∨ ((p, u) ∈ c.nodeHash ∧ ∀ v ∈ nodes, p ∉ pointsOf v)) := by
  intro nodes
  induction nodes using List.reverseRecOn with
  | nil => exact fun _ => by simp
  | append_singleton nodes last ih =>
    intro hapart
    have ih := ih (hapart.subset (List.subset_append_left _ _))
    rw [List.map_append, List.map_singleton, exec, Run.exec_append, Run.exec_cons, Run.exec_nil,
      call, nodeHash_addNodeToHash, mem_addPoints_iff (ordered_exec h _), ih]
    constructor
    · rintro (⟨rfl, hp⟩ | ⟨⟨hu, hp⟩ | ⟨hold, hclear⟩, hlast⟩)
      · exact Or.inl ⟨by simp, hp⟩
      · exact Or.inl ⟨List.mem_append_left _ hu, hp⟩
      · refine Or.inr ⟨hold, fun v hv => ?_⟩
        rcases List.mem_append.mp hv with hv | hv
        · exact hclear v hv
        · rw [List.mem_singleton.mp hv]
          exact hlast
    · rintro (⟨hu, hp⟩ | ⟨hold, hclear⟩)
      · by_cases hlast : u = last
        · exact Or.inl ⟨hlast, hlast ▸ hp⟩
        · have hu' := (List.mem_append.mp hu).resolve_right fun h' =>
            hlast (List.mem_singleton.mp h')
          exact Or.inr ⟨Or.inl ⟨hu', hp⟩, hapart u hu last (by simp) hlast p hp⟩
      · refine Or.inr ⟨Or.inr ⟨hold, fun v hv => hclear v (List.mem_append_left _ hv)⟩, ?_⟩
        exact hclear last (by simp)

theorem pointsOf_ne_nil (u : Uuid) : pointsOf u ≠ [] := by
  rw [pointsOf, virtualReplicas, List.iterate]
  exact List.cons_ne_nil _ _

/-- A ring that grows answers from its new points, or as before. -/
theorem queryNode_of_subset {c c' : Cluster} {n : Uuid} (h : Ordered c.nodeHash)
    (h' : Ordered c'.nodeHash) (hne : c'.nodeHash ≠ []) (hsub : c.nodeHash ⊆ c'.nodeHash)
    (hnew : ∀ point ∈ c'.nodeHash, point ∈ c.nodeHash ∨ point.2 = n) (key : Bytes) :
    c'.queryNode key = .ok n ∨ c'.queryNode key = c.queryNode key := by
  have hnext : ∃ p, OrderedMap.next (hashString key) c'.nodeHash = some p :=
    OrderedMap.exists_next hne
  obtain ⟨point, hpoint⟩ := hnext
  rw [queryNode_eq c', queryNode_eq c, hpoint]
  rcases hnew point (OrderedMap.mem_of_next hpoint) with hold | hn
  · rw [OrderedMap.next_of_subset h h' hsub hpoint hold]
    exact Or.inr rfl
  · exact Or.inl (congrArg Except.ok hn)

/-- **The ring is a function of the member set.** It holds the points of the nodes whose last call
was an `addNodeToHash`; two clusters with the same members answer alike; a node that comes takes
keys only for itself, and one that goes gives away only its own.

Where no two nodes share a point, adding a node puts in its own points and takes out nobody's, and
removing it takes out these. So the ring is made of the points of those that are on it, whatever
happened before (`mem_ring_iff`). A key goes to the next point, and with more points the next one is
the same or one of the new ones. -/
theorem ring_of_members (c : Cluster) (hstart : c.nodeHash = []) (calls : List RingCall)
    (hapart : Apart (calls.map RingCall.nodeId)) :
    (∀ p u, (p, u) ∈ (c.exec calls).nodeHash ↔ Member u calls ∧ p ∈ pointsOf u) ∧
      (∀ (c' : Cluster) (calls' : List RingCall), c'.nodeHash = [] →
        Apart (calls'.map RingCall.nodeId) → (∀ u, Member u calls' ↔ Member u calls) →
        ∀ key, (c'.exec calls').queryNode key = (c.exec calls).queryNode key) ∧
      (∀ n, Apart (n :: calls.map RingCall.nodeId) → (c.exec calls).nodeHash ≠ [] → ∀ key,
        ((c.exec calls).addNodeToHash n).queryNode key = .ok n ∨
          ((c.exec calls).addNodeToHash n).queryNode key = (c.exec calls).queryNode key) ∧
      (∀ n, Apart (n :: calls.map RingCall.nodeId) → (∃ u, u ≠ n ∧ Member u calls) → ∀ key,
        (c.exec calls).queryNode key = .ok n ∨
          (c.exec calls).queryNode key = ((c.exec calls).delNodeToHash n).queryNode key) := by
  have hord := ordered_ring hstart calls
  have hmem : ∀ p u, (p, u) ∈ (c.exec calls).nodeHash ↔ Member u calls ∧ p ∈ pointsOf u :=
    fun p u => mem_ring_iff hstart hapart
  refine ⟨hmem, ?_, ?_, ?_⟩
  · intro c' calls' hstart' hapart' hmembers key
    rw [queryNode_congr (ring_eq hstart hstart' hapart hapart' hmembers)]
  · intro n hn hne key
    have hadd : ∀ p u, (p, u) ∈ ((c.exec calls).addNodeToHash n).nodeHash ↔
        (u = n ∧ p ∈ pointsOf n) ∨ ((p, u) ∈ (c.exec calls).nodeHash ∧ p ∉ pointsOf n) := by
      intro p u
      rw [nodeHash_addNodeToHash, mem_addPoints_iff hord]
    have hsub : (c.exec calls).nodeHash ⊆ ((c.exec calls).addNodeToHash n).nodeHash := by
      rintro ⟨p, u⟩ hp
      obtain ⟨hu, hpu⟩ := (hmem p u).mp hp
      by_cases hun : u = n
      · subst hun
        exact (hadd p u).mpr (Or.inl ⟨rfl, hpu⟩)
      · refine (hadd p u).mpr (Or.inr ⟨hp, ?_⟩)
        exact hn u (List.mem_cons_of_mem _ hu.mem) n List.mem_cons_self hun p hpu
    refine queryNode_of_subset hord ?_ ?_ hsub ?_ key
    · exact ordered_call hord (.addNodeToHash n)
    · exact List.ne_nil_of_mem (hsub (List.head_mem hne))
    · rintro ⟨p, u⟩ hp
      exact ((hadd p u).mp hp).symm.imp And.left And.left
  · rintro n hn ⟨u, hun, hu⟩ key
    have hdel : ∀ q, q ∈ ((c.exec calls).delNodeToHash n).nodeHash ↔
        q ∈ (c.exec calls).nodeHash ∧ q.1 ∉ pointsOf n := by
      intro q
      rw [nodeHash_delNodeToHash, mem_delPoints_iff]
    obtain ⟨p, hp⟩ : ∃ p, p ∈ pointsOf u := List.exists_mem_of_ne_nil _ (pointsOf_ne_nil u)
    refine queryNode_of_subset ?_ hord ?_ (fun q hq => ((hdel q).mp hq).1) ?_ key
    · exact ordered_call hord (.delNodeToHash n)
    · exact List.ne_nil_of_mem ((hmem p u).mpr ⟨hu, hp⟩)
    · rintro ⟨q, v⟩ hq
      by_cases hvn : v = n
      · exact Or.inr hvn
      · obtain ⟨hv, hqv⟩ := (hmem q v).mp hq
        refine Or.inl ((hdel _).mpr ⟨hq, ?_⟩)
        exact hn v (List.mem_cons_of_mem _ hv.mem) n List.mem_cons_self hvn q hqv

/-! ## Nodes without a common point

That two nodes share no point is a matter of their 160 points each, so it is computed, once for each
pair. -/

/-- Points are compared as numbers, which is fast where there are many of them. -/
theorem disjoint_of_all {u v : Uuid}
    (h : ((pointsOf u).all fun p => (pointsOf v).all fun q => !Nat.beq p.toNat q.toNat) = true) :
    ∀ p ∈ pointsOf u, p ∉ pointsOf v := by
  intro p hp hq
  have hne := List.all_eq_true.mp (List.all_eq_true.mp h p hp) p hq
  simp at hne

theorem apart_of_pairwise {nodes : List Uuid}
    (h : nodes.Pairwise fun u v => ∀ p ∈ pointsOf u, p ∉ pointsOf v) : Apart nodes := by
  induction nodes with
  | nil => exact fun u hu => absurd hu List.not_mem_nil
  | cons n nodes ih =>
    obtain ⟨hfirst, hrest⟩ := List.pairwise_cons.mp h
    intro u hu v hv hne p hp hq
    rcases List.mem_cons.mp hu with rfl | hold <;> rcases List.mem_cons.mp hv with rfl | hold'
    · exact hne rfl
    · exact hfirst v hold' p hp hq
    · exact hfirst u hold p hq hp
    · exact ih hrest u hold v hold' hne p hp hq

/-- All points of node 0 are 0. -/
theorem eq_zero_of_mem_pointsOf_zero : ∀ p ∈ pointsOf 0, p = 0 := by
  have hall : ((pointsOf 0).all fun p => p = 0) = true := by decide +kernel
  intro p hp
  simpa using List.all_eq_true.mp hall p hp

theorem zero_not_mem_pointsOf_one : (0 : UInt64) ∉ pointsOf 1 := by decide +kernel

theorem apart_zero_one : Apart [0, 1] := by
  refine apart_of_pairwise (List.Pairwise.cons ?_ (List.pairwise_singleton _ _))
  intro v hv p hp hq
  rw [List.mem_singleton.mp hv] at hq
  exact zero_not_mem_pointsOf_one (eq_zero_of_mem_pointsOf_zero p hp ▸ hq)

theorem apart_one_two_three : Apart [1, 2, 3] := by
  have honeTwo : ∀ p ∈ pointsOf 1, p ∉ pointsOf 2 := disjoint_of_all (by decide +kernel)
  have honeThree : ∀ p ∈ pointsOf 1, p ∉ pointsOf 3 := disjoint_of_all (by decide +kernel)
  have htwoThree : ∀ p ∈ pointsOf 2, p ∉ pointsOf 3 := disjoint_of_all (by decide +kernel)
  refine apart_of_pairwise (List.Pairwise.cons ?_ (List.Pairwise.cons ?_
    (List.pairwise_singleton _ _)))
  · intro v hv
    simp only [List.mem_cons, List.not_mem_nil, or_false] at hv
    rcases hv with rfl | rfl
    · exact honeTwo
    · exact honeThree
  · intro v hv
    rw [List.mem_singleton.mp hv]
    exact htwoThree

/-- The ring that nodes without a common point come onto. -/
theorem mem_ring_adds {c : Cluster} (hstart : c.nodeHash = []) {nodes : List Uuid}
    (hapart : Apart nodes) {p : UInt64} {u : Uuid} :
    (p, u) ∈ (c.exec (nodes.map .addNodeToHash)).nodeHash ↔ u ∈ nodes ∧ p ∈ pointsOf u := by
  have hnames : (nodes.map RingCall.addNodeToHash).map RingCall.nodeId = nodes := by
    rw [List.map_map]
    exact List.map_id nodes
  rw [mem_ring_iff hstart (hnames.symm ▸ hapart)]
  refine and_congr_left fun _ => ⟨fun h => hnames ▸ h.mem, fun hu => ?_⟩
  unfold Member
  cases hfind : (nodes.map RingCall.addNodeToHash).reverse.find? fun call => call.nodeId = u with
  | none =>
    have hcall : RingCall.addNodeToHash u ∈ (nodes.map RingCall.addNodeToHash).reverse :=
      List.mem_reverse.mpr (List.mem_map_of_mem hu)
    exact absurd (decide_eq_true rfl) (List.find?_eq_none.mp hfind _ hcall)
  | some call =>
    obtain ⟨v, -, rfl⟩ := List.mem_map.mp (List.mem_reverse.mp (List.mem_of_find?_eq_some hfind))
    rfl

/-- Three nodes come and the first one goes. -/
def comeAndGo : List RingCall :=
  [.addNodeToHash 1, .addNodeToHash 2, .addNodeToHash 3, .delNodeToHash 1]

theorem ring_of_comeAndGo :
    Member 2 comeAndGo ∧ ¬ Member 1 comeAndGo ∧
      (exec { selfNode := ⟨[], 7800, 9⟩ } ([3, 2].map .addNodeToHash)).queryNode (ascii "key")
        = (exec { selfNode := ⟨[], 7800, 1⟩ } comeAndGo).queryNode (ascii "key") := by
  have hmembers : ∀ u, Member u ([3, 2].map .addNodeToHash) ↔ Member u comeAndGo := by
    intro u
    by_cases h1 : (1 : Uuid) = u
    · subst h1
      decide
    by_cases h2 : (2 : Uuid) = u
    · subst h2
      decide
    by_cases h3 : (3 : Uuid) = u
    · subst h3
      decide
    · simp [Member, comeAndGo, RingCall.nodeId, h1, h2, h3]
  have hapart : Apart (comeAndGo.map RingCall.nodeId) := apart_one_two_three.subset (by decide)
  obtain ⟨-, hsame, -⟩ :=
    ring_of_members { selfNode := ⟨[], 7800, 1⟩ } rfl comeAndGo hapart
  have hsame := hsame { selfNode := ⟨[], 7800, 9⟩ } ([3, 2].map .addNodeToHash) rfl
    (hapart.subset (by decide)) hmembers
  exact ⟨by decide, by decide, hsame (ascii "key")⟩

end Cluster
end Server
end KvJet
