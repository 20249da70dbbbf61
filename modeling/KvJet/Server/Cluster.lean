import KvJet.Raft.Node

/-!
# The ring

The part of `Cluster` (`Cluster.h`, `Cluster.cpp`) that says which node owns a key: every node
puts 160 points on a ring of 64-bit numbers, and a key belongs to the node of the first point
at or after its hash.

A `std::map` is the list of its pairs in the order of the keys.
-/

namespace KvJet
namespace Server

open Raft (Uuid)

/-- `Cluster::Node`. -/
structure ClusterNode where
  ip : Bytes
  port : UInt16
  uuid : Uuid
deriving DecidableEq, Repr

/-- `m[key] = value`. -/
def assign {α : Type} (key : UInt64) (value : α) : List (UInt64 × α) → List (UInt64 × α)
  | [] => [(key, value)]
  | (k, v) :: rest =>
    if key < k then (key, value) :: (k, v) :: rest
    else if key = k then (key, value) :: rest
    else (k, v) :: assign key value rest

structure Cluster where
  selfNode : ClusterNode
  /-- `node_hash`: the points of the ring. -/
  nodeHash : List (UInt64 × Uuid) := []
  topo : List (Uuid × ClusterNode) := []
  /-- The descriptor of the connection to each node. -/
  connections : List (Uuid × Int) := []

namespace Cluster

/-- `Config::VIRTUAL_REPLICAS`. -/
def virtualReplicas : Nat := 160

/-- `hash(uint64_t)`. -/
def hash (x : UInt64) : UInt64 :=
  let x := (x ^^^ (x >>> 30)) * 0xbf58476d1ce4e5b9
  let x := (x ^^^ (x >>> 27)) * 0x94d049bb133111eb
  x ^^^ (x >>> 31)

/-- `hash(const std::string &)`, over `unsigned char`s. -/
def hashString (str : Bytes) : UInt64 :=
  str.foldl (fun h c => (h ^^^ c.toUInt64) * 0x100000001b3) 0xcbf29ce484222325

/-- The points of a node: its hash, the hash of that, and so on. -/
def pointsOf (nodeId : Uuid) : List UInt64 := List.iterate hash (hash nodeId) virtualReplicas

/-- The loop of `addNodeToHash`. -/
def addPoints (nodeId : Uuid) (points : List UInt64) (ring : List (UInt64 × Uuid)) :
    List (UInt64 × Uuid) :=
  points.foldl (fun ring point => assign point nodeId ring) ring

def addNodeToHash (c : Cluster) (nodeId : Uuid) : Cluster :=
  { c with nodeHash := addPoints nodeId (pointsOf nodeId) c.nodeHash }

/-- `lower_bound`, and around the end to `begin`, which an empty map does not have. -/
def queryNode (c : Cluster) (str : Bytes) : Except Fault Uuid :=
  match c.nodeHash.find? fun point => hashString str ≤ point.1 with
  | some point => .ok point.2
  | none =>
    match c.nodeHash with
    | [] => .error (.undefined "begin of an empty map")
    | point :: _ => .ok point.2

def isMasterFor (c : Cluster) (key : Bytes) : Except Fault Bool := do
  return (← c.queryNode key) == c.selfNode.uuid

theorem isMasterFor_iff {c : Cluster} {key : Bytes} :
    c.isMasterFor key = .ok true ↔ c.queryNode key = .ok c.selfNode.uuid := by
  unfold isMasterFor
  cases c.queryNode key with
  | error e => simp [bind, Except.bind]
  | ok owner => simp [bind, Except.bind, pure, Except.pure]

theorem mem_assign {α : Type} {key : UInt64} {value : α} {p : UInt64 × α} :
    ∀ {m : List (UInt64 × α)}, p ∈ assign key value m → p = (key, value) ∨ p ∈ m := by
  intro m
  induction m with
  | nil => intro h; exact Or.inl (List.mem_singleton.mp h)
  | cons q rest ih =>
    intro h
    unfold assign at h
    split at h
    · exact List.mem_cons.mp h
    · split at h
      · rcases List.mem_cons.mp h with rfl | hin
        · exact Or.inl rfl
        · exact Or.inr (List.mem_cons_of_mem _ hin)
      · rcases List.mem_cons.mp h with rfl | hin
        · exact Or.inr List.mem_cons_self
        · exact (ih hin).imp_right (List.mem_cons_of_mem _)

theorem assign_ne_nil {α : Type} (key : UInt64) (value : α) (m : List (UInt64 × α)) :
    assign key value m ≠ [] := by
  cases m with
  | nil => simp [assign]
  | cons q rest =>
    unfold assign
    split
    · simp
    · split <;> simp

/-- A node with the ring to itself is the master of every key. -/
theorem isMasterFor_of_alone {c : Cluster} (hne : c.nodeHash ≠ [])
    (hall : ∀ point ∈ c.nodeHash, point.2 = c.selfNode.uuid) (key : Bytes) :
    c.isMasterFor key = .ok true := by
  have hquery : c.queryNode key = .ok c.selfNode.uuid := by
    unfold queryNode
    split
    · rename_i point hfind
      rw [hall point (List.mem_of_find?_eq_some hfind)]
    · cases hring : c.nodeHash with
      | nil => exact absurd hring hne
      | cons point rest =>
        show Except.ok point.2 = _
        rw [hall point (by simp [hring])]
  rw [isMasterFor, hquery]
  simp [bind, Except.bind, pure, Except.pure]

theorem mem_addPoints {nodeId : Uuid} {p : UInt64 × Uuid} :
    ∀ {points : List UInt64} {ring : List (UInt64 × Uuid)},
      p ∈ addPoints nodeId points ring → p.2 = nodeId ∨ p ∈ ring := by
  intro points
  induction points with
  | nil => intro ring h; exact Or.inr h
  | cons point points ih =>
    intro ring h
    rcases ih h with hid | hin
    · exact Or.inl hid
    · exact (mem_assign hin).imp_left fun h => by rw [h]

theorem addPoints_ne_nil {nodeId : Uuid} : ∀ {points : List UInt64} {ring : List (UInt64 × Uuid)},
    points ≠ [] ∨ ring ≠ [] → addPoints nodeId points ring ≠ [] := by
  intro points
  induction points with
  | nil => intro ring h; exact h.resolve_left (by simp)
  | cons point points ih => intro ring _; exact ih (Or.inr (assign_ne_nil _ _ _))

theorem nodeHash_addNodeToHash (c : Cluster) (nodeId : Uuid) :
    (c.addNodeToHash nodeId).nodeHash = addPoints nodeId (pointsOf nodeId) c.nodeHash := by
  simp only [addNodeToHash]

/-- A node that has just started is alone. -/
theorem isMasterFor_started (node : ClusterNode) (topo : List (Uuid × ClusterNode)) (key : Bytes) :
    (addNodeToHash { selfNode := node, topo } node.uuid).isMasterFor key = .ok true := by
  have hpoints : pointsOf node.uuid ≠ [] := by
    rw [pointsOf, virtualReplicas, List.iterate]
    exact List.cons_ne_nil _ _
  refine isMasterFor_of_alone ?_ ?_ key
  · rw [nodeHash_addNodeToHash]
    exact addPoints_ne_nil (Or.inl hpoints)
  · intro point hp
    rw [nodeHash_addNodeToHash] at hp
    exact (mem_addPoints hp).resolve_right (by simp)

/-- -1 where there is none. -/
def getConnection (c : Cluster) (uuid : Uuid) : Int := (c.connections.lookup uuid).getD (-1)

end Cluster
end Server
end KvJet
