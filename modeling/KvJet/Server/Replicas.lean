import KvJet.Lib.FirstMet
import KvJet.Server.Ring

/-!
# The replicas of a key

`Cluster::queryReplicas` walks around the ring from the hash of the key and collects the nodes it
meets, until it has as many as it was asked for. Its second exit compares the number of nodes seen
with the number of points on the ring, of which a node has 160, so on a ring with too few nodes the
walk goes on forever (`queryReplicas_diverges`).

The walk is given a number of turns; `none` says that it is not over after them.
-/

namespace KvJet
namespace Server

open OrderedMap (Ordered)
open Raft (Uuid)
open FirstMet (met collect)

namespace Cluster

/-- `static_cast<size_t>(N)`. -/
def sizeOfInt (N : Int32) : Nat := (N.toInt % 2 ^ 64).toNat

/-- The loop of `queryReplicas`, from the point with the number `it`. -/
def replicasLoop (ring : List (UInt64 × Uuid)) (wanted : Nat) :
    Nat → Nat → Finset Uuid → List Uuid → Option (Except Fault (List Uuid))
  | 0, _, _, _ => none
  | turns + 1, it, seen, result =>
    if result.length < wanted ∧ ring ≠ [] then
      match ring[it]? with
      | none => some (.error (.undefined "read through the end of a map"))
      | some point =>
        let result := if point.2 ∈ seen then result else result ++ [point.2]
        let seen := insert point.2 seen
        let it := if it + 1 = ring.length then 0 else it + 1
        if ring.length ≤ seen.card then some (.ok result)
        else replicasLoop ring wanted turns it seen result
    else some (.ok result)

/-- `lower_bound`, and around the end to `begin`. -/
def lowerBound (c : Cluster) (key : Bytes) : Nat :=
  let it := c.nodeHash.findIdx fun point => hashString key ≤ point.1
  if it = c.nodeHash.length then 0 else it

def queryReplicas (c : Cluster) (key : Bytes) (N : Int32) (turns : Nat) :
    Option (Except Fault (List Uuid)) :=
  if c.nodeHash = [] then some (.ok [c.selfNode.uuid])
  else replicasLoop c.nodeHash (sizeOfInt N) turns (c.lowerBound key) ∅ []

/-! ## What it is for -/

/-- The owners of the points, going clockwise from the hash of the key. -/
def clockwise (c : Cluster) (key : Bytes) : List Uuid :=
  (c.nodeHash.filter (fun point => hashString key ≤ point.1)
    ++ c.nodeHash.filter fun point => point.1 < hashString key).map Prod.snd

/-- The number of nodes on the ring. -/
def distinctNodes (c : Cluster) : Nat := (c.nodeHash.map Prod.snd).toFinset.card

/-- The first `N` nodes in the order in which they are met, the first of them the owner of the
key. -/
structure Replicas (c : Cluster) (key : Bytes) (N : Int32) (r : List Uuid) : Prop where
  met : r = (c.clockwise key).eraseDups.take N.toInt.toNat
  nodup : r.Nodup
  length : r.length = min N.toInt.toNat c.distinctNodes
  owner : ∀ first, r.head? = some first → c.queryNode key = .ok first

/-! ## The walk as a sequence of places

Around the ring from the hash of the key, again and again: place `i` is the point at `i` modulo
their number. -/

/-- The owner of the point `k` places after `start`. -/
def ownerAt (ring : List (UInt64 × Uuid)) (start k : Nat) : Uuid :=
  ((ring[(k + start) % ring.length]?).map Prod.snd).getD 0

section Walk

variable {ring : List (UInt64 × Uuid)} {start wanted : Nat}

theorem ownerAt_circle (k : Nat) :
    ownerAt ring start (k + ring.length) = ownerAt ring start k := by
  unfold ownerAt
  rw [Nat.add_right_comm, Nat.add_mod_right]

theorem ownerAt_eq {k : Nat} {point : UInt64 × Uuid}
    (h : ring[(k + start) % ring.length]? = some point) : ownerAt ring start k = point.2 := by
  rw [ownerAt, h]
  rfl

/-- The next point, around the end to the first one. -/
theorem next_place {n k : Nat} (hpos : 0 < n) :
    (if (k + start) % n + 1 = n then 0 else (k + start) % n + 1) = (k + 1 + start) % n := by
  have hlt : (k + start) % n < n := Nat.mod_lt _ hpos
  have hnext : (k + 1 + start) % n = ((k + start) % n + 1) % n := by
    rw [Nat.mod_add_mod]
    congr 1
    omega
  rw [hnext]
  split
  · rename_i hend
    rw [hend, Nat.mod_self]
  · exact (Nat.mod_eq_of_lt (by omega)).symm

/-- One turn of the loop is one place of the walk. -/
theorem replicasLoop_succ (hpos : 0 < ring.length) (turns k : Nat) :
    let f := ownerAt ring start
    replicasLoop ring wanted (turns + 1) ((k + start) % ring.length) (met f k).toFinset (met f k)
      = if (met f k).length < wanted then
          if ring.length ≤ (met f (k + 1)).length then some (.ok (met f (k + 1)))
          else replicasLoop ring wanted turns ((k + 1 + start) % ring.length)
            (met f (k + 1)).toFinset (met f (k + 1))
        else some (.ok (met f k)) := by
  intro f
  have hne : ring ≠ [] := List.ne_nil_of_length_pos hpos
  have hlt : (k + start) % ring.length < ring.length := Nat.mod_lt _ hpos
  obtain ⟨point, hpoint⟩ : ∃ point, ring[(k + start) % ring.length]? = some point :=
    ⟨_, List.getElem?_eq_getElem hlt⟩
  have howner : point.2 = f k := (ownerAt_eq hpoint).symm
  have hresult : (if point.2 ∈ (met f k).toFinset then met f k else met f k ++ [point.2])
      = met f (k + 1) := by
    rw [FirstMet.met_succ, howner]
    simp only [List.mem_toFinset]
  have hseen : insert point.2 (met f k).toFinset = (met f (k + 1)).toFinset := by
    rw [FirstMet.met_succ, howner]
    split
    · rename_i hin
      exact Finset.insert_eq_self.mpr (List.mem_toFinset.mpr hin)
    · rw [List.toFinset_append, Finset.union_comm]
      rfl
  have hcard : (met f (k + 1)).toFinset.card = (met f (k + 1)).length :=
    List.toFinset_card_of_nodup FirstMet.nodup_met
  conv_lhs => unfold replicasLoop
  simp only [hpoint, hresult, hseen, hcard, next_place hpos, hne, ne_eq, not_false_eq_true,
    and_true]

/-- While there are fewer nodes than points the two exits are one. -/
theorem bound_le_iff {k : Nat} (hk : k < ring.length) :
    min wanted ring.length ≤ k ↔ ¬ k < wanted := by
  omega

theorem collect_of_replicasLoop (hpos : 0 < ring.length) {r : List Uuid} :
    ∀ {turns k : Nat}, (met (ownerAt ring start) k).length < ring.length →
      replicasLoop ring wanted turns ((k + start) % ring.length)
        (met (ownerAt ring start) k).toFinset (met (ownerAt ring start) k) = some (.ok r) →
      ∃ turns, collect (ownerAt ring start) (min wanted ring.length) turns k = some r := by
  intro turns
  induction turns with
  | zero => intro k _ h; exact absurd h (by simp [replicasLoop])
  | succ turns ih =>
    intro k hk h
    rw [replicasLoop_succ hpos] at h
    split at h
    · rename_i hlt
      have hturn : ¬ min wanted ring.length ≤ (met (ownerAt ring start) k).length :=
        fun hle => (bound_le_iff hk).mp hle hlt
      split at h
      · -- the exit in the middle of a turn is the one at the head of the next
        rename_i hfull
        refine ⟨2, ?_⟩
        rw [collect, if_neg hturn, collect,
          if_pos ((min_le_right wanted ring.length).trans hfull)]
        exact congrArg some (Except.ok.inj (Option.some.inj h))
      · rename_i hfree
        obtain ⟨turns', hcollect⟩ := ih (Nat.lt_of_not_le hfree) h
        refine ⟨turns' + 1, ?_⟩
        rw [collect, if_neg hturn]
        exact hcollect
    · rename_i hge
      refine ⟨1, ?_⟩
      rw [collect, if_pos ((bound_le_iff hk).mpr hge)]
      exact congrArg some (Except.ok.inj (Option.some.inj h))

theorem replicasLoop_of_collect (hpos : 0 < ring.length) {r : List Uuid} :
    ∀ {turns k : Nat}, (met (ownerAt ring start) k).length < ring.length →
      collect (ownerAt ring start) (min wanted ring.length) turns k = some r →
      ∃ turns, replicasLoop ring wanted turns ((k + start) % ring.length)
        (met (ownerAt ring start) k).toFinset (met (ownerAt ring start) k) = some (.ok r) := by
  intro turns
  induction turns with
  | zero => intro k _ h; exact absurd h (by simp [collect])
  | succ turns ih =>
    intro k hk h
    unfold collect at h
    split at h
    · rename_i hge
      refine ⟨1, ?_⟩
      rw [replicasLoop_succ hpos, if_neg ((bound_le_iff hk).mp hge), Option.some.inj h]
    · rename_i hturn
      have hlt : (met (ownerAt ring start) k).length < wanted := by
        by_contra hge
        exact hturn ((bound_le_iff hk).mpr hge)
      by_cases hfull : ring.length ≤ (met (ownerAt ring start) (k + 1)).length
      · -- the loop leaves in the middle of this turn, the search at the head of the next
        refine ⟨1, ?_⟩
        rw [replicasLoop_succ hpos, if_pos hlt, if_pos hfull]
        cases turns with
        | zero => exact absurd h (by simp [collect])
        | succ turns =>
          rw [collect, if_pos ((min_le_right wanted ring.length).trans hfull)] at h
          rw [Option.some.inj h]
      · obtain ⟨turns', hloop⟩ := ih (Nat.lt_of_not_le hfull) h
        refine ⟨turns' + 1, ?_⟩
        rw [replicasLoop_succ hpos, if_pos hlt, if_neg hfull]
        exact hloop

/-- **The loop collects** until it has as many nodes as it was asked for, or as there are
points. -/
theorem replicasLoop_iff (hstart : start < ring.length) {r : List Uuid} :
    (∃ turns, replicasLoop ring wanted turns start ∅ [] = some (.ok r)) ↔
      ∃ turns, collect (ownerAt ring start) (min wanted ring.length) turns 0 = some r := by
  have hpos : 0 < ring.length := by omega
  have hplace : (0 + start) % ring.length = start := by
    rw [Nat.zero_add, Nat.mod_eq_of_lt hstart]
  have hstate : ∀ turns, replicasLoop ring wanted turns start ∅ []
      = replicasLoop ring wanted turns ((0 + start) % ring.length)
          (met (ownerAt ring start) 0).toFinset (met (ownerAt ring start) 0) := by
    intro turns
    rw [hplace, FirstMet.met_zero]
    rfl
  constructor
  · rintro ⟨turns, h⟩
    exact collect_of_replicasLoop (k := 0) hpos hpos (hstate turns ▸ h)
  · rintro ⟨turns, h⟩
    obtain ⟨turns', hloop⟩ := replicasLoop_of_collect (k := 0) hpos hpos h
    exact ⟨turns', (hstate turns').trans hloop⟩

/-- The walk meets only nodes, so it never ends with a fault. -/
theorem replicasLoop_ne_error (hpos : 0 < ring.length) {e : Fault} : ∀ {turns k : Nat},
    replicasLoop ring wanted turns ((k + start) % ring.length)
      (met (ownerAt ring start) k).toFinset (met (ownerAt ring start) k) ≠ some (.error e) := by
  intro turns
  induction turns with
  | zero => intro k; simp [replicasLoop]
  | succ turns ih =>
    intro k
    rw [replicasLoop_succ hpos]
    split
    · split
      · simp
      · exact ih
    · simp

end Walk

/-! ## The order of the walk

That is what a client relies on: the owner first, and then those that would come after it. -/

/-- Cut at the first pair that is not before the key, an ordered map falls into its two halves. -/
theorem halves_of_ordered {α : Type} {m : List (UInt64 × α)} (h : Ordered m) (key : UInt64) :
    m.drop (m.findIdx fun p => key ≤ p.1) = m.filter (fun p => key ≤ p.1) ∧
      m.take (m.findIdx fun p => key ≤ p.1) = m.filter fun p => p.1 < key := by
  induction m with
  | nil => exact ⟨rfl, rfl⟩
  | cons p rest ih =>
    obtain ⟨hdrop, htake⟩ := ih h.tail
    by_cases hp : key ≤ p.1
    · have hrest : ∀ q ∈ p :: rest, key ≤ q.1 := by
        intro q hq
        rcases List.mem_cons.mp hq with rfl | hq
        · exact hp
        · exact hp.trans (h.head_lt hq).le
      rw [List.findIdx_cons, decide_eq_true hp]
      refine ⟨(List.filter_eq_self.mpr (by simpa using hrest)).symm, ?_⟩
      refine (List.filter_eq_nil_iff.mpr fun q hq => ?_).symm
      simpa using hrest q hq
    · rw [List.findIdx_cons, decide_eq_false hp, List.filter_cons_of_neg (by simpa using hp),
        List.filter_cons_of_pos (by simpa using hp)]
      exact ⟨hdrop, congrArg (p :: ·) htake⟩

section Key

variable {c : Cluster} {key : Bytes}

theorem lowerBound_lt (hne : c.nodeHash ≠ []) (key : Bytes) : c.lowerBound key < c.nodeHash.length := by
  have hpos : 0 < c.nodeHash.length := List.length_pos_iff.mpr hne
  unfold lowerBound
  dsimp only
  split
  · exact hpos
  · rename_i hlt
    exact Nat.lt_of_le_of_ne List.findIdx_le_length hlt

/-- The walk starts at the lower bound, and goes clockwise. -/
theorem clockwise_eq (h : Ordered c.nodeHash) (key : Bytes) :
    c.clockwise key = (c.nodeHash.rotate (c.lowerBound key)).map Prod.snd := by
  obtain ⟨hdrop, htake⟩ := halves_of_ordered h (hashString key)
  unfold clockwise lowerBound
  rw [← hdrop, ← htake]
  dsimp only
  split
  · rename_i hend
    rw [hend, List.drop_length, List.take_length, List.rotate_zero, List.nil_append]
  · rw [List.rotate_eq_drop_append_take List.findIdx_le_length]

theorem map_ownerAt (h : Ordered c.nodeHash) (key : Bytes) :
    (List.range c.nodeHash.length).map (ownerAt c.nodeHash (c.lowerBound key))
      = c.clockwise key := by
  rw [clockwise_eq h]
  refine List.ext_getElem? fun i => ?_
  by_cases hi : i < c.nodeHash.length
  · rw [List.getElem?_map, List.getElem?_range hi, List.getElem?_map,
      List.getElem?_rotate hi]
    have hlt : (i + c.lowerBound key) % c.nodeHash.length < c.nodeHash.length :=
      Nat.mod_lt _ (by omega)
    simp [ownerAt, List.getElem?_eq_getElem hlt]
  · rw [List.getElem?_eq_none (by simpa using hi), List.getElem?_eq_none (by simpa using hi)]

/-- What a round meets. -/
theorem met_round (h : Ordered c.nodeHash) (key : Bytes) :
    met (ownerAt c.nodeHash (c.lowerBound key)) c.nodeHash.length
      = (c.clockwise key).eraseDups := by
  rw [met, map_ownerAt h]

theorem length_round (h : Ordered c.nodeHash) (key : Bytes) :
    (c.clockwise key).eraseDups.length = c.distinctNodes := by
  have hnodup : (c.clockwise key).eraseDups.Nodup := by
    rw [← met_round h]
    exact FirstMet.nodup_met
  rw [← List.toFinset_card_of_nodup hnodup, distinctNodes]
  congr 1
  ext u
  rw [List.mem_toFinset, List.mem_toFinset, List.mem_eraseDups, clockwise_eq h, List.mem_map,
    List.mem_map]
  simp only [List.mem_rotate]

/-- The first node of the walk is the owner of the key. -/
theorem head_clockwise (c : Cluster) (key : Bytes) :
    (c.clockwise key).head? = (OrderedMap.next (hashString key) c.nodeHash).map Prod.snd := by
  rw [clockwise, List.head?_map, List.head?_append, List.head?_filter, OrderedMap.next]
  cases hfind : c.nodeHash.find? fun point => hashString key ≤ point.1 with
  | some point => rfl
  | none =>
    have hall : (c.nodeHash.filter fun point => point.1 < hashString key) = c.nodeHash := by
      rw [List.filter_eq_self]
      intro point hpoint
      have hnot := List.find?_eq_none.mp hfind point hpoint
      simpa using hnot
    rw [hall]

theorem head_eraseDups {α : Type} [DecidableEq α] (l : List α) : l.eraseDups.head? = l.head? := by
  cases l with
  | nil => rfl
  | cons a l => rw [List.eraseDups_cons, List.head?_cons, List.head?_cons]

theorem sizeOfInt_eq {N : Int32} (hN : 0 ≤ N) : sizeOfInt N = N.toInt.toNat := by
  have hlow : 0 ≤ N.toInt := Int32.le_iff_toInt_le.mp hN
  have hhigh : N.toInt < 2 ^ 31 := N.toInt_lt
  rw [sizeOfInt, Int.emod_eq_of_lt hlow (by omega)]

/-- **What the walk ends with.** -/
theorem replicas_of_take (h : Ordered c.nodeHash) (key : Bytes) (N : Int32) :
    c.Replicas key N
      ((c.clockwise key).eraseDups.take (min N.toInt.toNat c.nodeHash.length)) := by
  have hlen := length_round h key
  have htake : (c.clockwise key).eraseDups.take (min N.toInt.toNat c.nodeHash.length)
      = (c.clockwise key).eraseDups.take N.toInt.toNat := by
    rcases Nat.le_total N.toInt.toNat c.nodeHash.length with hle | hge
    · rw [Nat.min_eq_left hle]
    · have hle : (c.clockwise key).eraseDups.length ≤ c.nodeHash.length := by
        rw [hlen, distinctNodes]
        exact (List.toFinset_card_le _).trans (List.length_map _).le
      rw [Nat.min_eq_right hge, List.take_of_length_le hle,
        List.take_of_length_le (hle.trans hge)]
  refine ⟨htake, ?_, ?_, ?_⟩
  · rw [← met_round h]
    exact FirstMet.nodup_met.sublist (List.take_sublist _ _)
  · rw [htake, List.length_take, hlen]
  · intro first hfirst
    rw [List.head?_take, head_eraseDups, head_clockwise] at hfirst
    split at hfirst
    · exact absurd hfirst (by simp)
    · obtain ⟨point, hpoint, rfl⟩ := Option.map_eq_some_iff.mp hfirst
      rw [queryNode_eq, hpoint]

theorem exists_queryReplicas_iff (h : Ordered c.nodeHash) (hne : c.nodeHash ≠ []) (key : Bytes)
    {N : Int32} (hN : 0 ≤ N) {r : List Uuid} :
    (∃ turns, c.queryReplicas key N turns = some (.ok r)) ↔
      (N.toInt.toNat ≤ c.distinctNodes ∨ c.distinctNodes = c.nodeHash.length) ∧
        r = (c.clockwise key).eraseDups.take (min N.toInt.toNat c.nodeHash.length) := by
  have hstart := lowerBound_lt hne key
  have hpos : 0 < c.nodeHash.length := by omega
  have hdistinct : c.distinctNodes ≤ c.nodeHash.length :=
    (List.toFinset_card_le _).trans (List.length_map _).le
  have hbound : min N.toInt.toNat c.nodeHash.length ≤ c.distinctNodes ↔
      (N.toInt.toNat ≤ c.distinctNodes ∨ c.distinctNodes = c.nodeHash.length) := by omega
  have hround : (met (ownerAt c.nodeHash (c.lowerBound key)) c.nodeHash.length).length
      = c.distinctNodes := by rw [met_round h, length_round h]
  have hends := FirstMet.exists_collect_iff (f := ownerAt c.nodeHash (c.lowerBound key))
    ownerAt_circle (min N.toInt.toNat c.nodeHash.length) hpos
  rw [hround, hbound] at hends
  simp only [queryReplicas, if_neg hne, sizeOfInt_eq hN]
  rw [replicasLoop_iff hstart, ← hends]
  constructor
  · rintro ⟨turns, hcollect⟩
    refine ⟨⟨turns, r, hcollect⟩, ?_⟩
    rw [← met_round h]
    exact (FirstMet.collect_eq_some ownerAt_circle hpos (Nat.zero_le _) hcollect).2
  · rintro ⟨⟨turns, r', hcollect⟩, rfl⟩
    refine ⟨turns, hcollect.trans (congrArg some ?_)⟩
    rw [← met_round h]
    exact (FirstMet.collect_eq_some ownerAt_circle hpos (Nat.zero_le _) hcollect).2

end Key

/-! ## Rings that are built -/

theorem nodeHash_exec_adds_ne_nil {c : Cluster} {nodes : List Uuid} (hnodes : nodes ≠ []) :
    (c.exec (nodes.map .addNodeToHash)).nodeHash ≠ [] := by
  induction nodes using List.reverseRecOn with
  | nil => exact absurd rfl hnodes
  | append_singleton nodes last _ =>
    rw [List.map_append, List.map_singleton, exec, Run.exec_append, Run.exec_cons, Run.exec_nil,
      call, nodeHash_addNodeToHash]
    exact addPoints_ne_nil (Or.inl (pointsOf_ne_nil last))

/-- **`queryReplicas` ends with the right nodes** exactly if the ring has as many nodes as it was
asked for, or a point for each node only.

The walk meets the nodes of the ring again and again in the order of their points, so it has as many
as were asked for after a round, if the ring has that many. If it has fewer it goes on until its
second exit, which compares the nodes met with the points: they are as many only where each node has
one point. -/
theorem queryReplicas_right_iff {c : Cluster} (hstart : c.nodeHash = []) {nodes : List Uuid}
    (hnodes : nodes ≠ []) (key : Bytes) {N : Int32} (hN : 0 ≤ N) :
    let c := c.exec (nodes.map .addNodeToHash)
    (∃ turns r, c.queryReplicas key N turns = some (.ok r) ∧ c.Replicas key N r) ↔
      N.toInt.toNat ≤ c.distinctNodes ∨ c.distinctNodes = c.nodeHash.length := by
  intro c
  have h : Ordered c.nodeHash := ordered_ring hstart _
  have hne : c.nodeHash ≠ [] := nodeHash_exec_adds_ne_nil hnodes
  constructor
  · rintro ⟨turns, r, hr, -⟩
    exact ((exists_queryReplicas_iff h hne key hN).mp ⟨turns, hr⟩).1
  · intro hbound
    obtain ⟨turns, hr⟩ := (exists_queryReplicas_iff h hne key hN).mpr ⟨hbound, rfl⟩
    exact ⟨turns, _, hr, replicas_of_take h key N⟩

/-- A ring has as many nodes as have come, if no two of them share a point. -/
theorem length_le_distinctNodes {c : Cluster} (hstart : c.nodeHash = []) {nodes : List Uuid}
    (hapart : Apart nodes) (hnodup : nodes.Nodup) :
    nodes.length ≤ (c.exec (nodes.map .addNodeToHash)).distinctNodes := by
  rw [← List.toFinset_card_of_nodup hnodup]
  refine Finset.card_le_card fun u hu => ?_
  obtain ⟨p, hp⟩ := List.exists_mem_of_ne_nil _ (pointsOf_ne_nil u)
  have hring := (mem_ring_adds hstart hapart).mpr ⟨List.mem_toFinset.mp hu, hp⟩
  exact List.mem_toFinset.mpr (List.mem_map.mpr ⟨_, hring, rfl⟩)

/-- A ring of three nodes gives a key two of them. -/
theorem queryReplicas_two :
    let c := exec { selfNode := ⟨[], 0, 1⟩ } ([1, 2, 3].map .addNodeToHash)
    ∃ turns r, c.queryReplicas (ascii "a") 2 turns = some (.ok r) ∧ c.Replicas (ascii "a") 2 r := by
  have hthree := length_le_distinctNodes (c := { selfNode := ⟨[], 0, 1⟩ }) rfl apart_one_two_three
    (by decide)
  exact (queryReplicas_right_iff (c := { selfNode := ⟨[], 0, 1⟩ }) rfl (List.cons_ne_nil 1 [2, 3])
    (ascii "a") (N := 2) (by decide)).mpr (Or.inl (Nat.le_of_succ_le hthree))

/-- On a ring of one node a key is never given two, which is what a client asks for. -/
theorem queryReplicas_alone_two :
    ¬ ∃ turns r, (addNodeToHash { selfNode := ⟨[], 0, 1⟩ } 1).queryReplicas (ascii "a") 2 turns
        = some (.ok r) ∧ (addNodeToHash { selfNode := ⟨[], 0, 1⟩ } 1).Replicas (ascii "a") 2 r := by
  rintro ⟨turns, r, hr, -⟩
  have hord : Ordered (addNodeToHash { selfNode := ⟨[], 0, 1⟩ } 1).nodeHash :=
    ordered_ring (c := { selfNode := ⟨[], 0, 1⟩ }) rfl [.addNodeToHash 1]
  have hone : (addNodeToHash { selfNode := ⟨[], 0, 1⟩ } 1).distinctNodes = 1 := by decide +kernel
  have hmany : (addNodeToHash { selfNode := ⟨[], 0, 1⟩ } 1).nodeHash.length = 160 := by
    decide +kernel
  have hbound := ((exists_queryReplicas_iff hord (List.ne_nil_of_length_eq_add_one hmany)
    (ascii "a") (by decide)).mp ⟨turns, hr⟩).1
  rw [hone, hmany] at hbound
  exact absurd hbound (by decide)

/-- With too few nodes, and more points than nodes, the walk goes on forever. -/
theorem queryReplicas_diverges {c : Cluster} (h : Ordered c.nodeHash) (hne : c.nodeHash ≠ [])
    (key : Bytes) {N : Int32} (hN : 0 ≤ N) (hfew : c.distinctNodes < N.toInt.toNat)
    (hmany : c.distinctNodes ≠ c.nodeHash.length) (turns : Nat) :
    c.queryReplicas key N turns = none := by
  cases hr : c.queryReplicas key N turns with
  | none => rfl
  | some x =>
    cases x with
    | ok r =>
      have hbound := ((exists_queryReplicas_iff h hne key hN).mp ⟨turns, hr⟩).1
      omega
    | error e =>
      have hlt := lowerBound_lt hne key
      -- the walk is inside the ring from its first place on
      have hplace : (0 + c.lowerBound key) % c.nodeHash.length = c.lowerBound key := by
        rw [Nat.zero_add, Nat.mod_eq_of_lt hlt]
      have hpos : 0 < c.nodeHash.length := by omega
      rw [queryReplicas, if_neg hne, ← hplace] at hr
      exact absurd hr (replicasLoop_ne_error (k := 0) hpos)

end Cluster
end Server
end KvJet
