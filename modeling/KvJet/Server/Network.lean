import KvJet.Resp.RoundTrip
import KvJet.Server.Cluster

/-!
# The texts about the network

`encodeNode` and `encodeTopo` of `RespEncoder.cpp`, `Handler::GETNETWORK`, and the functions of
`Utils.cpp` that read these texts back.

A group has three members. Its report has room for three, and what is missing is a 0, which the
reader leaves out again.
-/

namespace KvJet
namespace Server

open Resp
open Raft (Uuid)

/-- `+`, an unsigned number, end of line. -/
def numberLine (n : UInt64) : Bytes := plus :: toString n.toNat ++ crlf

def encodeNode (node : ClusterNode) : Bytes :=
  star :: toString 3 ++ crlf ++ (plus :: node.ip ++ crlf)
    ++ (colon :: toString node.port.toNat ++ crlf) ++ numberLine node.uuid

def encodeTopo (topo : List (Uuid × ClusterNode)) : Bytes :=
  star :: toString topo.length ++ crlf ++ topo.flatMap fun entry => encodeNode entry.2

/-- The three members that `GETNETWORK` reports. -/
def reportedMembers (members : List Uuid) : List Uuid :=
  [members.getD 0 0, members.getD 1 0, members.getD 2 0]

/-- One group of `GETNETWORK`. -/
def encodeGroup (gid : UInt64) (members : List Uuid) : Bytes :=
  star :: toString 4 ++ crlf ++ numberLine gid ++ (reportedMembers members).flatMap numberLine

def getNetwork (topo : List (Uuid × ClusterNode)) (groupMembers : List (UInt64 × List Uuid)) :
    Bytes :=
  star :: toString 2 ++ crlf ++ encodeTopo topo
    ++ (star :: toString groupMembers.length ++ crlf)
    ++ groupMembers.flatMap fun group => encodeGroup group.1 group.2

/-! ## Reading them -/

/-- `Utils::getNode`. -/
def getNode : RespValue → Except Fault ClusterNode
  | .array (some [.simpleString ip, .integer port, .simpleString uuid]) =>
    .ok ⟨ip, port.toUInt64.toUInt16, toUint64 uuid⟩
  | .array (some [_, _, _]) => .error (.exception "getNode: Invalid node element types")
  | _ => .error (.exception "getNode: Invalid node format, expected Array of 3 elements")

/-- `Utils::getTopo`. -/
def getTopo : RespValue → Except Fault (List ClusterNode)
  | .array (some nodes) => nodes.mapM getNode
  | _ => .error (.exception "getTopo: Invalid topo format, expected Array")

/-- A member of a group is a simple string other than 0. -/
def getMember : RespValue → Option Uuid
  | .simpleString s => if toUint64 s ≠ 0 then some (toUint64 s) else none
  | _ => none

/-- One turn of the loop over the groups. An id that is no simple string is read through a null
pointer. -/
def getGroup (groups : List (UInt64 × List Uuid)) :
    RespValue → Except Fault (List (UInt64 × List Uuid))
  | .array (some (gid :: first :: rest)) =>
    match gid with
    | .simpleString gid => .ok (assign (toUint64 gid) ((first :: rest).filterMap getMember) groups)
    | _ => .error (.undefined "read through a null pointer")
  | _ => .ok groups

/-- `Utils::getTopoV2`, which puts the groups into the map it is given. -/
def getTopoV2 (value : RespValue) (groups : List (UInt64 × List Uuid)) :
    Except Fault (List ClusterNode × List (UInt64 × List Uuid)) := do
  match value with
  | .array (some (topo :: rest)) =>
    let nodes ← getTopo topo
    match rest with
    | .array (some values) :: _ => return (nodes, ← values.foldlM getGroup groups)
    | _ => return (nodes, groups)
  | _ => .error (.exception "getTopoV2: Invalid format")

/-! ## The round trip -/

/-- The node of a text. -/
def nodeValue (node : ClusterNode) : RespValue :=
  .array (some [.simpleString node.ip, .integer node.port.toUInt64.toInt64,
    .simpleString (toString node.uuid.toNat)])

def groupValue (gid : UInt64) (members : List Uuid) : RespValue :=
  .array (some (.simpleString (toString gid.toNat)
    :: (reportedMembers members).map fun uuid => .simpleString (toString uuid.toNat)))

def networkValue (topo : List (Uuid × ClusterNode)) (groupMembers : List (UInt64 × List Uuid)) :
    RespValue :=
  .array (some [.array (some (topo.map fun entry => nodeValue entry.2)),
    .array (some (groupMembers.map fun group => groupValue group.1 group.2))])

theorem toInt_port (port : UInt16) : port.toUInt64.toInt64.toInt = (port.toNat : Int) := by
  have hlt := port.toNat_lt
  have hnat : port.toUInt64.toBitVec.toNat = port.toNat := by
    rw [UInt64.toNat_toBitVec, UInt16.toNat_toUInt64]
  show port.toUInt64.toBitVec.toInt = _
  rw [BitVec.toInt_eq_toNat_of_lt (by rw [hnat]; omega), hnat]

theorem encode_nodeValue (node : ClusterNode) : encode (nodeValue node) = encodeNode node := by
  have hport : encodeInteger node.port.toUInt64.toInt64
      = colon :: toString node.port.toNat ++ crlf := by
    unfold encodeInteger toStringInt
    rw [toInt_port, if_neg (by omega)]
    rfl
  simp [nodeValue, encode, encodeElements, hport, encodeNode, encodeSimpleString, numberLine]

theorem encode_groupValue (gid : UInt64) (members : List Uuid) :
    encode (groupValue gid members) = encodeGroup gid members := by
  simp [groupValue, encode, encodeElements, encodeGroup, encodeSimpleString, numberLine,
    reportedMembers]

/-- **What `GETNETWORK` writes is the encoding of the network.** -/
theorem encode_networkValue (topo : List (Uuid × ClusterNode))
    (groupMembers : List (UInt64 × List Uuid)) :
    encode (networkValue topo groupMembers) = getNetwork topo groupMembers := by
  simp [networkValue, encode, encodeElements, encodeElements_eq_flatMap, getNetwork, encodeTopo,
    List.flatMap_map, encode_nodeValue, encode_groupValue]

theorem getNode_nodeValue (node : ClusterNode) : getNode (nodeValue node) = .ok node := by
  simp [nodeValue, getNode, toUint64_toString]

theorem getTopo_nodes (nodes : List ClusterNode) :
    getTopo (.array (some (nodes.map nodeValue))) = .ok nodes := by
  show (nodes.map nodeValue).mapM getNode = _
  induction nodes with
  | nil => rfl
  | cons node nodes ih =>
    rw [List.map_cons, List.mapM_cons, ih, getNode_nodeValue]
    rfl

/-- What the reader makes of the reported members. -/
def groupTable (members : List Uuid) : List Uuid := (reportedMembers members).filter (· ≠ 0)

theorem getMember_text (uuid : Uuid) :
    getMember (.simpleString (toString uuid.toNat)) = if uuid ≠ 0 then some uuid else none := by
  simp only [getMember, toUint64_toString]

theorem filterMap_getMember (members : List Uuid) :
    ((reportedMembers members).map fun uuid => RespValue.simpleString (toString uuid.toNat)).filterMap
      getMember = groupTable members := by
  unfold groupTable
  induction reportedMembers members with
  | nil => rfl
  | cons uuid uuids ih =>
    rw [List.map_cons, List.filterMap_cons, getMember_text, List.filter_cons, ih]
    by_cases h : uuid = 0
    · simp [h]
    · simp [h]

theorem getGroup_groupValue (groups : List (UInt64 × List Uuid)) (gid : UInt64)
    (members : List Uuid) :
    getGroup groups (groupValue gid members) = .ok (assign gid (groupTable members) groups) := by
  rw [← filterMap_getMember]
  show Except.ok (assign (toUint64 (toString gid.toNat)) _ groups) = _
  rw [toUint64_toString]
  rfl

/-- **What `getTopoV2` reads in it**: the nodes, and the groups put into the map one by one. -/
theorem getTopoV2_networkValue (topo : List (Uuid × ClusterNode))
    (groupMembers groups : List (UInt64 × List Uuid)) :
    getTopoV2 (networkValue topo groupMembers) groups
      = .ok (topo.map Prod.snd,
          groupMembers.foldl (fun m group => assign group.1 (groupTable group.2) m) groups) := by
  have hnodes : getTopo (.array (some (topo.map fun entry => nodeValue entry.2)))
      = .ok (topo.map Prod.snd) := by
    have h := getTopo_nodes (topo.map Prod.snd)
    rwa [List.map_map] at h
  have hgroups : ∀ groups, (groupMembers.map fun group => groupValue group.1 group.2).foldlM
        getGroup groups
      = Except.ok
          (groupMembers.foldl (fun m group => assign group.1 (groupTable group.2) m) groups) := by
    induction groupMembers with
    | nil => intro groups; rfl
    | cons group rest ih =>
      intro groups
      rw [List.map_cons, List.foldlM_cons, getGroup_groupValue]
      exact ih _
  simp only [networkValue, getTopoV2, hnodes, hgroups]
  rfl

/-- The text of a network can travel if the addresses can and the maps are of a size that is one. -/
theorem wire_networkValue {topo : List (Uuid × ClusterNode)}
    {groupMembers : List (UInt64 × List Uuid)} (hip : ∀ entry ∈ topo, cr ∉ entry.2.ip)
    (htopo : topo.length < 2 ^ 64) (hgroups : groupMembers.length < 2 ^ 64) :
    (networkValue topo groupMembers).Wire := by
  have hnode : ∀ node : ClusterNode, cr ∉ node.ip → (nodeValue node).Wire := by
    intro node hnode
    simp [nodeValue, RespValue.Wire, WireAll, hnode, cr_not_mem_toString]
  have hgroup : ∀ gid members, (groupValue gid members).Wire := by
    intro gid members
    simp [groupValue, reportedMembers, RespValue.Wire, WireAll, cr_not_mem_toString]
  have hnodes : WireAll (topo.map fun entry => nodeValue entry.2) := by
    rw [wireAll_iff]
    intro v hv
    obtain ⟨entry, hentry, rfl⟩ := List.mem_map.mp hv
    exact hnode entry.2 (hip entry hentry)
  have hall : WireAll (groupMembers.map fun group => groupValue group.1 group.2) := by
    rw [wireAll_iff]
    intro v hv
    obtain ⟨group, -, rfl⟩ := List.mem_map.mp hv
    exact hgroup group.1 group.2
  simp only [networkValue, RespValue.Wire, WireAll, List.length_map, List.length_cons,
    List.length_nil]
  exact ⟨by decide, ⟨htopo, hnodes⟩, ⟨hgroups, hall⟩, trivial⟩

end Server
end KvJet
