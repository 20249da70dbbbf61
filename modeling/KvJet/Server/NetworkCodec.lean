import KvJet.Server.Network
import KvJet.Server.Ring

/-!
# The text about the network arrives

What `Handler::GETNETWORK` writes goes through `RespParser` and `Utils::getTopoV2` as it was: the
nodes in the order of the map they come from, and the groups with their members (`network_codec`).

The report of a group has three places. Members that fill them from the left, none of them the 0
that stands for a free place, are what the reader makes of the report.
-/

namespace KvJet
namespace Server

open Resp
open OrderedMap (Ordered)
open Raft (Uuid)

/-- A map whose keys are 64-bit numbers other than 0 has a size that is one. -/
theorem length_lt_of_ordered {α : Type} {m : List (UInt64 × α)} (h : Ordered m)
    (hne : ∀ entry ∈ m, entry.1 ≠ 0) : m.length < 2 ^ 64 := by
  have hnodup : (m.map fun entry => entry.1.toNat).Nodup := by
    refine List.pairwise_map.mpr (h.imp fun hlt => ?_)
    have := UInt64.lt_iff_toNat_lt.mp hlt
    omega
  have hsub : (m.map fun entry => entry.1.toNat) ⊆ List.range' 1 (2 ^ 64 - 1) := by
    intro k hk
    obtain ⟨entry, hentry, rfl⟩ := List.mem_map.mp hk
    have hpos : entry.1.toNat ≠ 0 := fun h0 => hne entry hentry (UInt64.toNat_inj.mp h0)
    have hlt := entry.1.toNat_lt
    rw [List.mem_range'_1]
    omega
  have hle := (List.subperm_of_subset hnodup hsub).length_le
  rw [List.length_map, List.length_range'] at hle
  omega

theorem groupTable_of_fits {members : List Uuid} (hlen : members.length ≤ 3)
    (hne : ∀ uuid ∈ members, uuid ≠ 0) : groupTable members = members := by
  rcases members with _ | ⟨a, _ | ⟨b, _ | ⟨c, _ | ⟨d, rest⟩⟩⟩⟩
  · rfl
  · simp at hne
    simp [groupTable, reportedMembers, hne]
  · simp at hne
    simp [groupTable, reportedMembers, hne]
  · simp at hne
    simp [groupTable, reportedMembers, hne]
  · rw [List.length_cons, List.length_cons, List.length_cons, List.length_cons] at hlen
    omega

/-- The groups come into an empty table as they are. -/
theorem insertAll_fits {groupMembers : List (UInt64 × List Uuid)} (h : Ordered groupMembers)
    (hfits : ∀ group ∈ groupMembers, group.2.length ≤ 3 ∧ ∀ uuid ∈ group.2, uuid ≠ 0) :
    groupMembers.foldl (fun m group => assign group.1 (groupTable group.2) m) [] = groupMembers := by
  have hread : ∀ m : List (UInt64 × List Uuid),
      groupMembers.foldl (fun m group => assign group.1 (groupTable group.2) m) m
        = OrderedMap.insertAll groupMembers m := by
    intro m
    refine List.foldl_ext _ _ _ fun m group hgroup => ?_
    obtain ⟨hlen, hne⟩ := hfits group hgroup
    rw [groupTable_of_fits hlen hne, assign_eq_insert]
  rw [hread]
  exact (OrderedMap.insertAll_eq_self_iff h OrderedMap.ordered_nil).mpr (by simp)

/-- **The topology codec.** `chunks` is the way the bytes are cut on their way. The size of a map
is a `size_t`.

The text is the encoding of a value, so it comes through the parser however it is cut
(`stream_round_trip`). Then the reader has to undo what `GETNETWORK` did to the maps: it puts each
group at its number, and drops the zeros that filled up a group. -/
theorem network_codec {topo : List (Uuid × ClusterNode)}
    {groupMembers : List (UInt64 × List Uuid)} {chunks : List Bytes} (htopo : Ordered topo)
    (hnodes : ∀ entry ∈ topo, entry.1 = entry.2.uuid ∧ entry.2.uuid ≠ 0 ∧ cr ∉ entry.2.ip)
    (hgroups : Ordered groupMembers) (hsize : groupMembers.length < 2 ^ 64)
    (hmembers : ∀ group ∈ groupMembers, group.2.length ≤ 3 ∧ ∀ uuid ∈ group.2, uuid ≠ 0)
    (hchunks : chunks.flatten = getNetwork topo groupMembers) :
    ∃ p value nodes, RespParser.appendAll {} chunks = .ok p ∧ p.messageQueue = [value] ∧
      p.state = .waitType ∧ p.stateStack = [] ∧
      getTopoV2 value [] = .ok (nodes, groupMembers) ∧ nodes = topo.map Prod.snd ∧
      nodes.Pairwise fun node node' => node.uuid < node'.uuid := by
  have hlen : topo.length < 2 ^ 64 := length_lt_of_ordered htopo fun entry hentry => by
    obtain ⟨hkey, hne, -⟩ := hnodes entry hentry
    exact hkey ▸ hne
  have hwire : (networkValue topo groupMembers).Wire :=
    wire_networkValue (fun entry hentry => (hnodes entry hentry).2.2) hlen hsize
  obtain ⟨p, hread, hqueue, hstate, hstack⟩ :=
    (stream_round_trip [networkValue topo groupMembers] (by simpa using hwire)).1 chunks
      (by simpa [encode_networkValue] using hchunks)
  have hvalue := getTopoV2_networkValue topo groupMembers []
  rw [insertAll_fits hgroups hmembers] at hvalue
  refine ⟨p, _, _, hread, hqueue, hstate, hstack, hvalue, rfl, ?_⟩
  refine List.pairwise_map.mpr (htopo.imp_of_mem fun {entry entry'} hentry hentry' hlt => ?_)
  rw [← (hnodes entry hentry).1, ← (hnodes entry' hentry').1]
  exact hlt

/-- Two nodes, one of them with the largest port and id there is, a group of both and one of none,
in a single chunk. -/
theorem network_codec_pair :
    let topo : List (Uuid × ClusterNode) := [(1, ⟨ascii "::1", 0, 1⟩),
      (18446744073709551615, ⟨[], 65535, 18446744073709551615⟩)]
    let groupMembers : List (UInt64 × List Uuid) := [(0, [18446744073709551615, 1]), (7, [])]
    ∃ p value nodes, RespParser.appendAll {} [getNetwork topo groupMembers] = .ok p ∧
      p.messageQueue = [value] ∧ p.state = .waitType ∧ p.stateStack = [] ∧
      getTopoV2 value [] = .ok (nodes, groupMembers) ∧ nodes = topo.map Prod.snd ∧
      nodes.Pairwise fun node node' => node.uuid < node'.uuid := by
  intro topo groupMembers
  have htopo : Ordered topo := by
    unfold Ordered
    decide
  have hgroups : Ordered groupMembers := by
    unfold Ordered
    decide
  have hmembers : ∀ group ∈ groupMembers, group.2.length ≤ 3 ∧ ∀ uuid ∈ group.2, uuid ≠ 0 := by
    simp [groupMembers]
  exact network_codec htopo (by decide) hgroups (by decide) hmembers (by simp)

end Server
end KvJet
