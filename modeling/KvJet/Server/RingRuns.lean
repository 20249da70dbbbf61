import KvJet.Server.Groups
import KvJet.Server.Membership

/-!
# Who asks an empty ring

`queryNode` takes the first point of the ring where none comes after the hash, and does not look
whether there is one. The workers, the heartbeat thread and the main loop all change the ring, each
call in several critical sections, so what matters is the order in which these come.

A call that goes on to ask the ring before it puts a node there is `Hungry`. Nobody asks an empty
ring in a run where nothing takes the last points away while a call under way is hungry, and no
hungry call begins on an empty ring (`never_asked_empty`). A server that is alone takes its own
points away when it shuts down, and then asks for each key it has (`shutdown_asks_empty`).
-/

namespace KvJet
namespace Server

open Raft (Uuid)

/-- What a call does to the ring and to the topology, one critical section each. -/
inductive RingAction where
  | queryNode (key : Bytes)
  | addNodeToHash (nodeId : Uuid)
  | delNodeToHash (nodeId : Uuid)
  | addTopoNode (node : ClusterNode)
  | delTopoNode (nodeId : Uuid)
deriving DecidableEq, Repr

/-- The calls that come to the ring. The keys are those that `KVStore::forEach` goes through. -/
inductive RingTask where
  /-- `SET` and `DEL` of a key. -/
  | command (key : Bytes)
  /-- `NODEIN`, with the keys for `sendDataToNode`: none unless the node is connected. -/
  | nodeIn (node : ClusterNode) (keys : List Bytes)
  | nodeOut (nodeId : Uuid)
  /-- `sendDataToNode`, after `connect`. -/
  | sendData (keys : List Bytes)
  /-- `checkTimeouts`, with the nodes of the table that have been silent for too long. -/
  | checkTimeouts (silent : List Uuid)
  /-- `REBUILD_RAFTS`. -/
  | initRaftGroups
  | gracefulShutdown (keys : List Bytes)
deriving DecidableEq, Repr

/-- The cluster, and of each call under way what it has left to do. -/
structure Ringing where
  cluster : Cluster
  calls : List (List RingAction) := []

namespace RingAction

def perform (c : Cluster) : RingAction → Cluster
  | queryNode _ => c
  | addNodeToHash nodeId => c.addNodeToHash nodeId
  | delNodeToHash nodeId => c.delNodeToHash nodeId
  | addTopoNode node => c.addTopoNode node
  | delTopoNode nodeId => { c with topo := OrderedMap.erase nodeId c.topo }

end RingAction

namespace RingTask

open RingAction

def actions (c : Cluster) : RingTask → List RingAction
  -- `isMasterFor`; then `getGroupForKey` on the master, `queryNode` for the reply of another node
  | command key => [queryNode key, queryNode key]
  | nodeIn node keys => addNodeToHash node.uuid :: addTopoNode node :: keys.map queryNode
  -- `int uuid`
  | nodeOut nodeId => [delNodeToHash (asInt nodeId), delTopoNode (asInt nodeId)]
  | sendData keys => keys.map queryNode
  | checkTimeouts silent => (silent.filter (· ≠ c.selfNode.uuid)).flatMap fun nodeId =>
      [delNodeToHash nodeId, delTopoNode nodeId]
  | initRaftGroups => c.nodeIds.map addNodeToHash
  | gracefulShutdown keys =>
    delNodeToHash c.selfNode.uuid :: delTopoNode c.selfNode.uuid :: keys.map queryNode

end RingTask

namespace Ringing

inductive Event where
  /-- A thread begins a call. -/
  | begin (task : RingTask)
  /-- The `i`-th call comes to its next critical section. -/
  | go (i : Nat)
  /-- It throws, and is over. -/
  | throw (i : Nat)
deriving DecidableEq, Repr

def step (s : Ringing) : Event → Ringing
  | .begin task => { s with calls := s.calls ++ [task.actions s.cluster] }
  | .go i =>
    match s.calls[i]? with
    | some (action :: rest) =>
      { cluster := action.perform s.cluster, calls := s.calls.set i rest }
    | _ => s
  | .throw i => { s with calls := s.calls.eraseIdx i }

abbrev exec (s : Ringing) (es : List Event) : Ringing := Run.exec step s es

/-- `Server::run`, when it comes to its loop. -/
def started (c : Cluster) : Ringing where
  cluster := c.nodeIds.foldl Cluster.addNodeToHash c

/-- The event is a `queryNode`. -/
def Asks (s : Ringing) (e : Event) : Prop :=
  ∃ i key rest, e = .go i ∧ s.calls[i]? = some (.queryNode key :: rest)

/-- A `queryNode` finds at least one point. -/
def Answered (s : Ringing) (e : Event) : Prop := s.Asks e → s.cluster.nodeHash ≠ []

end Ringing

/-- What is left of the call comes to a `queryNode` before any `addNodeToHash`. -/
def Hungry : List RingAction → Prop
  | [] => False
  | .queryNode _ :: _ => True
  | .addNodeToHash _ :: _ => False
  | _ :: rest => Hungry rest

def Hungry.decide : (actions : List RingAction) → Decidable (Hungry actions)
  | [] => isFalse id
  | .queryNode _ :: _ => isTrue trivial
  | .addNodeToHash _ :: _ => isFalse id
  | .delNodeToHash _ :: rest => Hungry.decide rest
  | .addTopoNode _ :: rest => Hungry.decide rest
  | .delTopoNode _ :: rest => Hungry.decide rest

instance : DecidablePred Hungry := Hungry.decide

namespace Ringing

/-- Some call is hungry. -/
def Waits (calls : List (List RingAction)) : Prop := ∃ actions ∈ calls, Hungry actions

/-- No call that is hungry begins on an empty ring, and `delNodeToHash` leaves a point that is not
one of its node, unless no call is hungry after it. -/
def Orderly (s : Ringing) : Event → Prop
  | .begin task => Hungry (task.actions s.cluster) → s.cluster.nodeHash ≠ []
  | .go i => ∀ nodeId rest, s.calls[i]? = some (.delNodeToHash nodeId :: rest) →
      Waits (s.calls.set i rest) → ∃ point ∈ s.cluster.nodeHash,
        point.1 ∉ Cluster.pointsOf nodeId
  | .throw _ => True

/-- Nobody waits for a node on an empty ring. -/
def Fed (s : Ringing) : Prop := s.cluster.nodeHash = [] → ¬ Waits s.calls

/-! ## One event

For each event, who is hungry after it, and whether there are points left. -/

variable {s : Ringing} {e : Event}

theorem step_go {i : Nat} {action : RingAction} {rest : List RingAction}
    (h : s.calls[i]? = some (action :: rest)) :
    s.step (.go i) = { cluster := action.perform s.cluster, calls := s.calls.set i rest } := by
  unfold step
  dsimp only
  rw [h]

theorem waits_of_getElem? {calls : List (List RingAction)} {i : Nat} {actions : List RingAction}
    (h : calls[i]? = some actions) (hungry : Hungry actions) : Waits calls :=
  ⟨actions, List.mem_of_getElem? h, hungry⟩

/-- A call that was not hungry is not so after an action on the topology. -/
theorem waits_of_set {calls : List (List RingAction)} {i : Nat} {action : RingAction}
    {rest : List RingAction} (h : calls[i]? = some (action :: rest))
    (hrest : Hungry rest → Hungry (action :: rest)) (hwaits : Waits (calls.set i rest)) :
    Waits calls := by
  obtain ⟨actions, hin, hungry⟩ := hwaits
  rcases List.mem_or_eq_of_mem_set hin with hold | rfl
  · exact ⟨actions, hold, hungry⟩
  · exact waits_of_getElem? h (hrest hungry)

/-- **One event**: while it is orderly nobody comes to wait on an empty ring.

A point that is taken away can only hurt those who are still to ask and do not put one there
themselves; an orderly event that takes the last points away finds none of these. -/
theorem Fed.step (h : s.Fed) (ho : s.Orderly e) : (s.step e).Fed := by
  cases e with
  | begin task =>
    rintro hempty ⟨actions, hin, hungry⟩
    rcases List.mem_append.mp hin with hold | hnew
    · exact h hempty ⟨actions, hold, hungry⟩
    · rw [List.mem_singleton] at hnew
      subst hnew
      exact ho hungry hempty
  | throw i =>
    rintro hempty ⟨actions, hin, hungry⟩
    exact h hempty ⟨actions, List.mem_of_mem_eraseIdx hin, hungry⟩
  | go i =>
    rcases hcall : s.calls[i]? with _ | _ | ⟨action, rest⟩
    · unfold Ringing.step
      dsimp only
      rw [hcall]
      exact h
    · unfold Ringing.step
      dsimp only
      rw [hcall]
      exact h
    · rw [step_go hcall]
      intro hempty hwaits
      cases action with
      | queryNode key =>
        -- whoever asks was waiting
        exact h hempty (waits_of_getElem? hcall trivial)
      | addNodeToHash nodeId =>
        have hadded : (s.cluster.addNodeToHash nodeId).nodeHash ≠ [] := by
          rw [Cluster.nodeHash_addNodeToHash]
          exact Cluster.addPoints_ne_nil (Or.inl (Cluster.pointsOf_ne_nil nodeId))
        exact hadded hempty
      | delNodeToHash nodeId =>
        -- with somebody waiting, an orderly removal leaves a point of another node
        obtain ⟨point, hpoint, hother⟩ := ho nodeId rest hcall hwaits
        have hleft : point ∈ (s.cluster.delNodeToHash nodeId).nodeHash := by
          rw [Cluster.nodeHash_delNodeToHash, Cluster.mem_delPoints_iff]
          exact ⟨hpoint, hother⟩
        rw [show (s.cluster.delNodeToHash nodeId).nodeHash = [] from hempty] at hleft
        exact absurd hleft List.not_mem_nil
      | addTopoNode node => exact h hempty (waits_of_set hcall id hwaits)
      | delTopoNode nodeId => exact h hempty (waits_of_set hcall id hwaits)

theorem Fed.answered (h : s.Fed) (e : Event) : s.Answered e := by
  rintro ⟨i, key, rest, rfl, hcall⟩ hempty
  exact h hempty (waits_of_getElem? hcall trivial)

/-- A call that is hungry asks, if it is the only one to go on. -/
theorem asks_of_hungry {i : Nat} : ∀ {actions : List RingAction} {s : Ringing},
    s.cluster.nodeHash = [] → s.calls[i]? = some actions → Hungry actions →
    ∃ n, ¬ (s.exec (.replicate n (.go i))).Answered (.go i) := by
  intro actions
  induction actions with
  | nil => intro s _ _ hungry; exact absurd hungry id
  | cons action rest ih =>
    intro s hempty hcall hungry
    have hafter : (s.calls.set i rest)[i]? = some rest :=
      List.getElem?_set_self (List.getElem?_eq_some_iff.mp hcall).1
    -- nothing comes onto the ring until it asks
    have hnext : (action.perform s.cluster).nodeHash = [] → Hungry rest →
        ∃ n, ¬ (s.exec (.replicate n (.go i))).Answered (.go i) := by
      intro hempty' hungry'
      obtain ⟨n, hn⟩ := ih (s := ⟨action.perform s.cluster, s.calls.set i rest⟩) hempty' hafter
        hungry'
      refine ⟨n + 1, ?_⟩
      rw [List.replicate_succ, exec, Run.exec_cons, step_go hcall]
      exact hn
    cases action with
    | queryNode key => exact ⟨0, fun h => h ⟨i, key, rest, rfl, hcall⟩ hempty⟩
    | addNodeToHash nodeId => exact absurd hungry id
    | delNodeToHash nodeId =>
      refine hnext ?_ hungry
      show (s.cluster.delNodeToHash nodeId).nodeHash = []
      rw [Cluster.nodeHash_delNodeToHash, List.eq_nil_iff_forall_not_mem]
      intro point hpoint
      rw [Cluster.mem_delPoints_iff, hempty] at hpoint
      exact absurd hpoint.1 List.not_mem_nil
    | addTopoNode node => exact hnext hempty hungry
    | delTopoNode nodeId => exact hnext hempty hungry

/-- An event that is not orderly leaves somebody waiting on an empty ring. -/
theorem not_fed_of_not_orderly (ho : ¬ s.Orderly e) :
    (s.step e).cluster.nodeHash = [] ∧ Waits (s.step e).calls := by
  cases e with
  | begin task =>
    obtain ⟨hungry, hempty⟩ := Classical.not_imp.mp ho
    refine ⟨not_not.mp hempty, task.actions s.cluster, ?_, hungry⟩
    exact List.mem_append_right _ (List.mem_singleton.mpr rfl)
  | throw i => exact absurd trivial ho
  | go i =>
    unfold Orderly at ho
    push Not at ho
    obtain ⟨nodeId, rest, hcall, hwaits, hall⟩ := ho
    rw [step_go hcall]
    refine ⟨?_, hwaits⟩
    show (s.cluster.delNodeToHash nodeId).nodeHash = []
    rw [Cluster.nodeHash_delNodeToHash, List.eq_nil_iff_forall_not_mem]
    intro point hpoint
    rw [Cluster.mem_delPoints_iff] at hpoint
    exact hpoint.2 (hall point hpoint.1)

/-! ## Runs -/

theorem Fed.along {es : List Event} {s : Ringing} (h : s.Fed)
    (horderly : Run.Along Ringing.step Orderly s es) : Run.Along Ringing.step Answered s es := by
  have hfed := horderly.keeping (I := Fed) (fun _ _ ho hs => hs.step ho) h
  exact hfed.imp fun _ e ⟨_, hs⟩ => hs.answered e

/-- `initRaftGroups` has put the nodes of the topology on the ring. -/
theorem fed_started {c : Cluster} (htopo : c.topo ≠ []) : (started c).Fed := by
  intro hempty
  have hids : c.nodeIds ≠ [] := fun h => htopo (List.map_eq_nil_iff.mp h)
  have hring : (started c).cluster.nodeHash ≠ [] := by
    rw [started, Cluster.nodeHash_addAll]
    exact Cluster.nodeHash_exec_adds_ne_nil hids
  exact absurd hempty hring

/-- **The ring is never asked while it is empty** in a run whose events are all orderly, and an
event that is not can be followed by a `queryNode` on the empty ring.

A call that has put a node on the ring may ask, unless somebody takes the last points away in
between; so what has to hold is that whoever is still to ask finds a point there or puts one there
first (`Hungry`). The second half says that nothing less will do: after an event that is not orderly
the call that goes on alone comes to ask the empty ring. -/
theorem never_asked_empty {c : Cluster} (htopo : c.topo ≠ []) (events : List Event) :
    (Run.Along step Orderly (started c) events → Run.Along step Answered (started c) events) ∧
      ∀ e, ¬ ((started c).exec events).Orderly e →
        ∃ next e', ¬ ((started c).exec (events ++ e :: next)).Answered e' := by
  refine ⟨(fed_started htopo).along, fun e ho => ?_⟩
  obtain ⟨hempty, actions, hin, hungry⟩ := not_fed_of_not_orderly ho
  obtain ⟨i, hi⟩ := List.mem_iff_getElem?.mp hin
  obtain ⟨n, hn⟩ := asks_of_hungry hempty hi hungry
  refine ⟨.replicate n (.go i), .go i, ?_⟩
  rw [exec, Run.exec_append, Run.exec_cons]
  exact hn

/-- A node without peers. -/
def peerless : Cluster where
  selfNode := ⟨[], 7800, 7⟩
  topo := [(7, ⟨[], 7800, 7⟩)]

theorem nodeHash_peerless : (started peerless).cluster.nodeHash ≠ [] ∧
    ((started peerless).cluster.delNodeToHash 7).nodeHash = [] := by
  have hone : (started peerless).cluster = peerless.addNodeToHash 7 := rfl
  have hnone : peerless.nodeHash = [] := rfl
  rw [hone, Cluster.nodeHash_delNodeToHash, Cluster.nodeHash_addNodeToHash, hnone]
  refine ⟨Cluster.addPoints_ne_nil (Or.inl (Cluster.pointsOf_ne_nil 7)), ?_⟩
  rw [List.eq_nil_iff_forall_not_mem]
  rintro ⟨p, u⟩ hp
  rw [Cluster.mem_delPoints_iff, Cluster.mem_addPoints_iff OrderedMap.ordered_nil] at hp
  obtain ⟨⟨-, hpoint⟩ | ⟨hold, -⟩, hout⟩ := hp
  · exact hout hpoint
  · exact List.not_mem_nil hold

theorem nodeHash_delTopoNode (c : Cluster) (nodeId : Uuid) :
    ((RingAction.delTopoNode nodeId).perform c).nodeHash = c.nodeHash := rfl

/-- A shutdown, up to its first `queryNode`. -/
theorem exec_gracefulShutdown (c : Cluster) (keys : List Bytes) :
    exec { cluster := c } [.begin (.gracefulShutdown keys), .go 0, .go 0] = {
      cluster := (RingAction.delTopoNode c.selfNode.uuid).perform
        (c.delNodeToHash c.selfNode.uuid)
      calls := [keys.map .queryNode] } := rfl

/-- It answers a command, and may shut down if it has nothing to pass on. -/
theorem never_asked_empty_peerless :
    Run.Along step Answered (started peerless) [.begin (.command (ascii "key")), .go 0, .go 0,
      .begin (.gracefulShutdown []), .go 1, .go 1] := by
  refine (never_asked_empty (c := peerless) (by decide) _).1
    ⟨fun _ => nodeHash_peerless.1, ?_, ?_, ?_, ?_, ?_, trivial⟩
  · rintro nodeId rest hcall -
    exact absurd (List.cons.inj (Option.some.inj hcall)).1 (by simp)
  · rintro nodeId rest hcall -
    exact absurd (List.cons.inj (Option.some.inj hcall)).1 (by simp)
  · intro hungry
    exact absurd hungry id
  · rintro nodeId rest hcall ⟨actions, hin, hungry⟩
    obtain ⟨-, rfl⟩ := List.cons.inj (Option.some.inj hcall)
    rcases List.mem_cons.mp hin with rfl | hlast
    · exact absurd hungry id
    · rw [show actions = _ from List.mem_singleton.mp hlast] at hungry
      exact absurd hungry id
  · rintro nodeId rest hcall -
    exact absurd (List.cons.inj (Option.some.inj hcall)).1 (by simp)

/-- It asks an empty ring when it shuts down with a key. -/
theorem shutdown_asks_empty :
    peerless.topo ≠ [] ∧ ¬ Run.Along step Answered (started peerless)
      [.begin (.gracefulShutdown [ascii "key"]), .go 0, .go 0, .go 0] := by
  refine ⟨by decide, fun h => ?_⟩
  have hruns : Run.Along step Answered (started peerless)
    ([.begin (.gracefulShutdown [ascii "key"]), .go 0, .go 0] ++ [.go 0]) := h
  obtain ⟨-, hask, -⟩ := hruns.append
  have hself : (started peerless).cluster.selfNode.uuid = 7 := rfl
  have hexec := exec_gracefulShutdown (started peerless).cluster [ascii "key"]
  rw [hself] at hexec
  rw [show Run.exec step (started peerless) _ = _ from hexec] at hask
  exact hask ⟨0, ascii "key", [], rfl, rfl⟩ ((nodeHash_delTopoNode _ 7).trans nodeHash_peerless.2)

end Ringing
end Server
end KvJet
