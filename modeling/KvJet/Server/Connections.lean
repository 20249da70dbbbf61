import KvJet.Lib.OrderedMap
import KvJet.Lib.Run
import KvJet.Server.Cluster

/-!
# The connection maps

`addConnection`, `delConnection`, `getConnection` and `getUuidByFd` of `Cluster.cpp`, in runs with
the sockets of the server. A `HELLO` is read by the main loop and handled by a worker some time
later, under the number of the descriptor it came from. The operating system gives a new
connection any descriptor that is not open.

Nothing but `delConnection` ever takes an entry out of the maps. So they are right for as long as
no connection is closed that is still in them, and no node and no descriptor changes its partner
(`truthful_iff_clean`).
-/

namespace KvJet
namespace Server

open Raft (Uuid)

/-- `connections` and `fd_to_uuid` of `Cluster`. -/
structure Peers where
  connections : List (Uuid × Int) := []
  fdToUuid : List (Int × Uuid) := []
deriving DecidableEq, Repr

namespace Peers

/-- -1 where there is none. -/
def getConnection (c : Peers) (uuid : Uuid) : Int := (c.connections.lookup uuid).getD (-1)

/-- 0 where there is none. -/
def getUuidByFd (c : Peers) (fd : Int) : Uuid := (c.fdToUuid.lookup fd).getD 0

def addConnection (c : Peers) (uuid : Uuid) (fd : Int) : Peers where
  connections := OrderedMap.insert uuid fd c.connections
  fdToUuid := OrderedMap.insert fd uuid c.fdToUuid

def delConnection (c : Peers) (uuid : Uuid) : Peers :=
  let fd := c.getConnection uuid
  { connections := OrderedMap.erase uuid c.connections
    fdToUuid := if fd ≠ -1 then OrderedMap.erase fd c.fdToUuid else c.fdToUuid }

end Peers

/-- The maps, and the sockets of the server. -/
structure Sockets where
  peers : Peers := {}
  /-- The open descriptors, each with the nodes that the connection is known to lead to: those that
  said `HELLO` on it, or the one the server has called. -/
  opened : List (Int × List Uuid) := []
  /-- Each `HELLO` that no worker has handled yet. -/
  waiting : List (Uuid × Int) := []
deriving DecidableEq, Repr

namespace Sockets

inductive Event where
  | accept (fd : Nat)
  /-- `Server::connect`, or the connection that `joinCluster` opens. -/
  | connect (uuid : Uuid) (fd : Nat)
  /-- The main loop reads `HELLO uuid`. -/
  | read (uuid : Uuid) (fd : Nat)
  /-- A worker handles the `HELLO` at a position of `waiting`. -/
  | HELLO (i : Nat)
  /-- Also by way of `delTopoNode`. -/
  | delConnection (uuid : Uuid)
  /-- `recv` or `send` finds the connection closed, and closes the descriptor. -/
  | disconnect (fd : Nat)
deriving DecidableEq, Repr

/-- A descriptor that is open is not given away, and nothing is read from one that is not. -/
def step (s : Sockets) : Event → Sockets
  | .accept fd =>
    match s.opened.lookup (fd : Int) with
    | none => { s with opened := OrderedMap.insert (fd : Int) [] s.opened }
    | some _ => s
  | .connect uuid fd =>
    match s.opened.lookup (fd : Int) with
    | none => { s with
        opened := OrderedMap.insert (fd : Int) [uuid] s.opened
        peers := s.peers.addConnection uuid fd }
    | some _ => s
  | .read uuid fd =>
    match s.opened.lookup (fd : Int) with
    | none => s
    | some said => { s with
        opened := OrderedMap.insert (fd : Int) (said ++ [uuid]) s.opened
        waiting := s.waiting ++ [(uuid, (fd : Int))] }
  | .HELLO i =>
    match s.waiting[i]? with
    | none => s
    | some (uuid, fd) => { s with
        waiting := s.waiting.eraseIdx i
        peers := s.peers.addConnection uuid fd }
  | .delConnection uuid => { s with peers := s.peers.delConnection uuid }
  | .disconnect fd => { s with opened := OrderedMap.erase (fd : Int) s.opened }

/-- The connection that is open on `fd` leads to `uuid`. -/
def LeadsTo (s : Sockets) (fd : Int) (uuid : Uuid) : Prop :=
  ∃ said, s.opened.lookup fd = some said ∧ uuid ∈ said

/-- The maps say the same, and say what is so. An answer 0 of `getUuidByFd` counts only for a
descriptor that it knows. -/
def Truthful (s : Sockets) : Prop :=
  ∀ (uuid : Uuid) (fd : Int), fd ≠ -1 →
    (s.peers.getConnection uuid = fd ↔
      (s.peers.fdToUuid.lookup fd).isSome ∧ s.peers.getUuidByFd fd = uuid) ∧
    (s.peers.getConnection uuid = fd → s.LeadsTo fd uuid)

/-- A connection that the server opens goes to a node it has none to; a `HELLO` that is handled
was said on the connection that is open there, and neither of the two has another partner; and a
connection that is closed is in neither map. -/
def Clean (s : Sockets) : Event → Prop
  | .connect uuid fd => s.opened.lookup (fd : Int) = none → s.peers.getConnection uuid = -1
  | .HELLO i =>
    ∀ uuid fd, s.waiting[i]? = some (uuid, fd) → s.LeadsTo fd uuid ∧
      (s.peers.connections.lookup uuid = none ∨ s.peers.connections.lookup uuid = some fd) ∧
      (s.peers.fdToUuid.lookup fd = none ∨ s.peers.fdToUuid.lookup fd = some uuid)
  | .disconnect fd => s.peers.fdToUuid.lookup (fd : Int) = none
  | .accept _ | .read .. | .delConnection _ => True

/-! ## The maps, entry by entry -/

/-- What `Truthful` says, of the entries. -/
structure Linked (s : Sockets) : Prop where
  both : ∀ uuid fd, s.peers.connections.lookup uuid = some fd ↔
    s.peers.fdToUuid.lookup fd = some uuid
  leads : ∀ uuid fd, s.peers.connections.lookup uuid = some fd → s.LeadsTo fd uuid

/-- No descriptor is -1. -/
structure Real (s : Sockets) : Prop where
  connections : ∀ uuid fd, s.peers.connections.lookup uuid = some fd → fd ≠ -1
  fdToUuid : s.peers.fdToUuid.lookup (-1) = none
  waiting : ∀ uuid fd, (uuid, fd) ∈ s.waiting → fd ≠ -1

variable {s : Sockets}

theorem getConnection_iff {uuid : Uuid} {fd : Int} (hfd : fd ≠ -1) :
    s.peers.getConnection uuid = fd ↔ s.peers.connections.lookup uuid = some fd := by
  unfold Peers.getConnection
  cases s.peers.connections.lookup uuid with
  | none => simpa using hfd.symm
  | some fd' => simp

theorem getUuidByFd_iff {uuid : Uuid} {fd : Int} :
    (s.peers.fdToUuid.lookup fd).isSome ∧ s.peers.getUuidByFd fd = uuid ↔
      s.peers.fdToUuid.lookup fd = some uuid := by
  unfold Peers.getUuidByFd
  cases s.peers.fdToUuid.lookup fd with
  | none => simp
  | some uuid' => simp

theorem Real.getConnection_none (h : s.Real) {uuid : Uuid} :
    s.peers.getConnection uuid = -1 ↔ s.peers.connections.lookup uuid = none := by
  unfold Peers.getConnection
  cases hlookup : s.peers.connections.lookup uuid with
  | none => simp
  | some fd => simpa using h.connections uuid fd hlookup

theorem truthful_iff_linked (h : s.Real) : s.Truthful ↔ s.Linked := by
  have hone : ∀ uuid fd, fd ≠ -1 →
      ((s.peers.getConnection uuid = fd ↔
          (s.peers.fdToUuid.lookup fd).isSome ∧ s.peers.getUuidByFd fd = uuid) ∧
        (s.peers.getConnection uuid = fd → s.LeadsTo fd uuid) ↔
      (s.peers.connections.lookup uuid = some fd ↔ s.peers.fdToUuid.lookup fd = some uuid) ∧
        (s.peers.connections.lookup uuid = some fd → s.LeadsTo fd uuid)) := by
    intro uuid fd hfd
    rw [getConnection_iff hfd, getUuidByFd_iff]
  constructor
  · intro htrue
    refine ⟨fun uuid fd => ?_, fun uuid fd hc => ?_⟩
    · by_cases hfd : fd = -1
      · subst hfd
        rw [h.fdToUuid]
        exact ⟨fun hc => absurd rfl (h.connections uuid _ hc), fun hf => absurd hf (by simp)⟩
      · exact ((hone uuid fd hfd).mp (htrue uuid fd hfd)).1
    · have hfd := h.connections uuid fd hc
      exact ((hone uuid fd hfd).mp (htrue uuid fd hfd)).2 hc
  · intro hlinked uuid fd hfd
    exact (hone uuid fd hfd).mpr ⟨hlinked.both uuid fd, hlinked.leads uuid fd⟩

/-! ## One event

For each event, what it does to the entries of its own node and its own descriptor; all others are
left alone. -/

section Peers

variable {c : Peers} {uuid u : Uuid} {fd f : Int}

@[simp] theorem connections_addConnection :
    (c.addConnection uuid fd).connections = OrderedMap.insert uuid fd c.connections := rfl

@[simp] theorem fdToUuid_addConnection :
    (c.addConnection uuid fd).fdToUuid = OrderedMap.insert fd uuid c.fdToUuid := rfl

theorem connections_lookup_addConnection :
    (c.addConnection uuid fd).connections.lookup u
      = if u = uuid then some fd else c.connections.lookup u := by
  split
  · rename_i hu
    rw [hu, connections_addConnection, OrderedMap.lookup_insert_self]
  · rename_i hu
    rw [connections_addConnection, OrderedMap.lookup_insert_of_ne hu]

theorem fdToUuid_lookup_addConnection :
    (c.addConnection uuid fd).fdToUuid.lookup f
      = if f = fd then some uuid else c.fdToUuid.lookup f := by
  split
  · rename_i hf
    rw [hf, fdToUuid_addConnection, OrderedMap.lookup_insert_self]
  · rename_i hf
    rw [fdToUuid_addConnection, OrderedMap.lookup_insert_of_ne hf]

end Peers

/-- A new pair keeps the maps linked exactly if it is so and parts no other pair. -/
theorem Linked.addConnection_iff {s' : Sockets} {uuid : Uuid} {fd : Int} (h : s.Linked)
    (hpeers : s'.peers = s.peers.addConnection uuid fd)
    (hleads : ∀ f u, s.LeadsTo f u → s'.LeadsTo f u) :
    s'.Linked ↔ s'.LeadsTo fd uuid ∧
      (s.peers.connections.lookup uuid = none ∨ s.peers.connections.lookup uuid = some fd) ∧
      (s.peers.fdToUuid.lookup fd = none ∨ s.peers.fdToUuid.lookup fd = some uuid) := by
  have hc : ∀ u, s'.peers.connections.lookup u
      = if u = uuid then some fd else s.peers.connections.lookup u := by
    intro u
    rw [hpeers, connections_lookup_addConnection]
  have hf : ∀ f, s'.peers.fdToUuid.lookup f
      = if f = fd then some uuid else s.peers.fdToUuid.lookup f := by
    intro f
    rw [hpeers, fdToUuid_lookup_addConnection]
  constructor
  · intro h'
    refine ⟨h'.leads uuid fd (by rw [hc, if_pos rfl]), ?_, ?_⟩
    · cases hold : s.peers.connections.lookup uuid with
      | none => exact Or.inl rfl
      | some fd' =>
        by_cases hfd : fd' = fd
        · exact Or.inr (congrArg some hfd)
        · -- the old descriptor would still be the node's
          have hback : s'.peers.fdToUuid.lookup fd' = some uuid := by
            rw [hf, if_neg hfd]
            exact (h.both uuid fd').mp hold
          have hforth := (h'.both uuid fd').mpr hback
          rw [hc, if_pos rfl] at hforth
          exact absurd (Option.some.inj hforth).symm hfd
    · cases hold : s.peers.fdToUuid.lookup fd with
      | none => exact Or.inl rfl
      | some u =>
        by_cases hu : u = uuid
        · exact Or.inr (congrArg some hu)
        · -- the old node would still have the descriptor
          have hforth : s'.peers.connections.lookup u = some fd := by
            rw [hc, if_neg hu]
            exact (h.both u fd).mpr hold
          have hback := (h'.both u fd).mp hforth
          rw [hf, if_pos rfl] at hback
          exact absurd (Option.some.inj hback).symm hu
  · rintro ⟨hnew, huuid, hfd⟩
    refine ⟨fun u f => ?_, fun u f hu => ?_⟩
    · rw [hc, hf]
      by_cases hu : u = uuid
      · subst hu
        rw [if_pos rfl]
        by_cases hf' : f = fd
        · rw [hf', if_pos rfl]
          exact ⟨fun _ => rfl, fun _ => rfl⟩
        · rw [if_neg hf']
          refine ⟨fun heq => absurd (Option.some.inj heq).symm hf', fun hold => ?_⟩
          rcases huuid with hnone | hsome
          · rw [(h.both u f).mpr hold] at hnone
            exact absurd hnone (by simp)
          · rw [← hsome]
            exact (h.both u f).mpr hold
      · rw [if_neg hu]
        by_cases hf' : f = fd
        · subst hf'
          rw [if_pos rfl]
          refine ⟨fun hold => ?_, fun heq => absurd (Option.some.inj heq).symm hu⟩
          rcases hfd with hnone | hsome
          · rw [(h.both u f).mp hold] at hnone
            exact absurd hnone (by simp)
          · rw [← hsome]
            exact (h.both u f).mp hold
        · rw [if_neg hf']
          exact h.both u f
    · rw [hc] at hu
      split at hu
      · rename_i hu'
        subst hu'
        obtain rfl := Option.some.inj hu
        exact hnew
      · exact hleads f u (h.leads u f hu)

theorem Linked.delConnection {s' : Sockets} {uuid : Uuid} (h : s.Linked) (hreal : s.Real)
    (hpeers : s'.peers = s.peers.delConnection uuid) (hopened : s'.opened = s.opened) :
    s'.Linked := by
  have hleads : ∀ u f, s.peers.connections.lookup u = some f → s'.LeadsTo f u := by
    intro u f hu
    unfold LeadsTo
    rw [hopened]
    exact h.leads u f hu
  cases hold : s.peers.connections.lookup uuid with
  | none =>
    have hsame : s'.peers.fdToUuid = s.peers.fdToUuid := by
      rw [hpeers, Peers.delConnection, hreal.getConnection_none.mpr hold]
      rfl
    have hc : ∀ u, s'.peers.connections.lookup u = s.peers.connections.lookup u := by
      intro u
      rw [hpeers]
      by_cases hu : u = uuid
      · rw [hu, hold]
        exact OrderedMap.lookup_erase_self _ _
      · exact OrderedMap.lookup_erase_of_ne hu _
    refine ⟨fun u f => ?_, fun u f hu => hleads u f (hc u ▸ hu)⟩
    rw [hc, hsame]
    exact h.both u f
  | some fd =>
    have hfd := hreal.connections uuid fd hold
    have hget : s.peers.getConnection uuid = fd := (getConnection_iff hfd).mpr hold
    have hf : s'.peers.fdToUuid = OrderedMap.erase fd s.peers.fdToUuid := by
      rw [hpeers, Peers.delConnection, hget]
      exact if_pos hfd
    have hc : s'.peers.connections = OrderedMap.erase uuid s.peers.connections := by
      rw [hpeers]
      rfl
    have hcs : ∀ u f, s'.peers.connections.lookup u = some f ↔
        u ≠ uuid ∧ s.peers.connections.lookup u = some f := by
      intro u f
      rw [hc]
      by_cases hu : u = uuid
      · subst hu
        simp
      · rw [OrderedMap.lookup_erase_of_ne hu]
        simp [hu]
    have hfs : ∀ u f, s'.peers.fdToUuid.lookup f = some u ↔
        f ≠ fd ∧ s.peers.fdToUuid.lookup f = some u := by
      intro u f
      rw [hf]
      by_cases hf' : f = fd
      · subst hf'
        simp
      · rw [OrderedMap.lookup_erase_of_ne hf']
        simp [hf']
    refine ⟨fun u f => ?_, fun u f hu => hleads u f ((hcs u f).mp hu).2⟩
    rw [hcs, hfs, h.both u f, and_congr_left_iff]
    intro hback
    -- the erased pair has no other partner
    refine not_congr ⟨fun hu => ?_, fun hf' => ?_⟩
    · subst hu
      exact Option.some.inj (((h.both u f).mpr hback).symm.trans hold)
    · subst hf'
      exact Option.some.inj (hback.symm.trans ((h.both uuid f).mp hold))

theorem Real.step (h : s.Real) (ev : Event) : (s.step ev).Real := by
  have hadd : ∀ {s' : Sockets} {uuid : Uuid} {fd : Int}, fd ≠ -1 →
      s'.peers = s.peers.addConnection uuid fd → s'.waiting ⊆ s.waiting → s'.Real := by
    intro s' uuid fd hfd hpeers hwaiting
    refine ⟨fun u f hu => ?_, ?_, fun u f hu => h.waiting u f (hwaiting hu)⟩
    · rw [hpeers, connections_lookup_addConnection] at hu
      split at hu
      · exact Option.some.inj hu ▸ hfd
      · exact h.connections u f hu
    · rw [hpeers, fdToUuid_lookup_addConnection, if_neg hfd.symm]
      exact h.fdToUuid
  cases ev with
  | accept fd =>
    unfold Sockets.step
    dsimp only
    split
    · exact ⟨h.connections, h.fdToUuid, h.waiting⟩
    · exact h
  | connect uuid fd =>
    unfold Sockets.step
    dsimp only
    split
    · exact hadd (by omega) rfl (List.Subset.refl _)
    · exact h
  | read uuid fd =>
    unfold Sockets.step
    dsimp only
    split
    · exact h
    · refine ⟨h.connections, h.fdToUuid, fun u f hu => ?_⟩
      rcases List.mem_append.mp hu with hu | hu
      · exact h.waiting u f hu
      · rw [(Prod.mk.inj (List.mem_singleton.mp hu)).2]
        omega
  | HELLO i =>
    unfold Sockets.step
    dsimp only
    split
    · exact h
    · rename_i uuid fd hi
      exact hadd (h.waiting uuid fd (List.mem_of_getElem? hi)) rfl (List.eraseIdx_subset)
  | delConnection uuid =>
    refine ⟨fun u f hu => ?_, ?_, h.waiting⟩
    · have hsub : s.peers.connections.lookup u = some f := by
        by_cases hne : u = uuid
        · subst hne
          exact absurd hu (by simp [Sockets.step, Peers.delConnection])
        · rw [← hu]
          exact (OrderedMap.lookup_erase_of_ne hne _).symm
      exact h.connections u f hsub
    · have hnone := h.fdToUuid
      unfold Sockets.step Peers.delConnection
      dsimp only
      split
      · rename_i hfd
        rw [OrderedMap.lookup_erase_of_ne (Ne.symm hfd)]
        exact hnone
      · exact hnone
  | disconnect fd => exact ⟨h.connections, h.fdToUuid, h.waiting⟩

theorem leadsTo_insert {s' : Sockets} {fd : Int} {said : List Uuid}
    (h : s'.opened = OrderedMap.insert fd said s.opened) (f : Int) (u : Uuid) :
    s'.LeadsTo f u ↔ if f = fd then u ∈ said else s.LeadsTo f u := by
  unfold LeadsTo
  rw [h]
  split
  · rename_i hf
    subst hf
    simp
  · rename_i hf
    rw [OrderedMap.lookup_insert_of_ne hf]

/-- **One event** keeps the maps linked exactly if it is clean.

The maps are asked and changed by key. An event that meets an entry of somebody else leaves that one
in one map and not in the other, or leading to a closed descriptor; and it does so at once. -/
theorem Linked.step_iff (h : s.Linked) (hreal : s.Real) (ev : Event) :
    (s.step ev).Linked ↔ s.Clean ev := by
  -- what is in the maps is open, so a descriptor that is not open is in neither
  have hclosed : ∀ fd, s.opened.lookup fd = none → s.peers.fdToUuid.lookup fd = none := by
    intro fd hfd
    cases hold : s.peers.fdToUuid.lookup fd with
    | none => rfl
    | some u =>
      obtain ⟨said, hsaid, -⟩ := h.leads u fd ((h.both u fd).mpr hold)
      rw [hfd] at hsaid
      exact absurd hsaid (by simp)
  cases ev with
  | accept fd =>
    refine ⟨fun _ => trivial, fun _ => ?_⟩
    unfold Sockets.step
    dsimp only
    split
    · rename_i hfd
      refine ⟨h.both, fun u f hu => (leadsTo_insert rfl f u).mpr ?_⟩
      split
      · rename_i hf
        have hknown := (h.both u f).mp hu
        rw [hf, hclosed _ hfd] at hknown
        exact absurd hknown (by simp)
      · exact h.leads u f hu
    · exact h
  | connect uuid fd =>
    unfold Sockets.step Clean
    dsimp only
    split
    · rename_i hfd
      have hunknown := hclosed _ hfd
      have hleads : ∀ f u, s.LeadsTo f u → LeadsTo { s with
          opened := OrderedMap.insert (fd : Int) [uuid] s.opened
          peers := s.peers.addConnection uuid fd } f u := by
        intro f u hu
        refine (leadsTo_insert rfl f u).mpr ?_
        split
        · rename_i hf
          obtain ⟨said, hsaid, -⟩ := hu
          rw [hf, hfd] at hsaid
          exact absurd hsaid (by simp)
        · exact hu
      rw [h.addConnection_iff rfl hleads, leadsTo_insert rfl, if_pos rfl, hreal.getConnection_none]
      constructor
      · rintro ⟨-, huuid, -⟩ -
        refine huuid.resolve_right fun hold => ?_
        rw [(h.both _ _).mp hold] at hunknown
        exact absurd hunknown (by simp)
      · intro huuid
        exact ⟨List.mem_cons_self, Or.inl (huuid hfd), Or.inl hunknown⟩
    · rename_i said hfd
      exact ⟨fun _ hnone => absurd hnone (by simp [hfd]), fun _ => h⟩
  | read uuid fd =>
    refine ⟨fun _ => trivial, fun _ => ?_⟩
    unfold Sockets.step
    dsimp only
    split
    · exact h
    · rename_i said hfd
      refine ⟨h.both, fun u f hu => (leadsTo_insert rfl f u).mpr ?_⟩
      split
      · rename_i hf
        obtain ⟨said', hsaid, hin⟩ := h.leads u f hu
        rw [hf, hfd] at hsaid
        rw [Option.some.inj hsaid]
        exact List.mem_append_left _ hin
      · exact h.leads u f hu
  | HELLO i =>
    unfold Sockets.step Clean
    dsimp only
    split
    · rename_i hi
      exact ⟨fun _ uuid fd hsome => absurd (hi ▸ hsome) (by simp), fun _ => h⟩
    · rename_i uuid fd hi
      have hiff : Linked { s with
          waiting := s.waiting.eraseIdx i
          peers := s.peers.addConnection uuid fd } ↔ _ :=
        h.addConnection_iff rfl fun _ _ hu => hu
      refine hiff.trans ⟨?_, fun hclean => ?_⟩
      · intro hclean uuid' fd' hsame
        obtain ⟨rfl, rfl⟩ := Prod.mk.inj (Option.some.inj (hi.symm.trans hsame))
        exact hclean
      · exact hclean uuid fd hi
  | delConnection uuid => exact ⟨fun _ => trivial, fun _ => h.delConnection hreal rfl rfl⟩
  | disconnect fd =>
    constructor
    · intro h'
      cases hold : s.peers.fdToUuid.lookup (fd : Int) with
      | none => exact hold
      | some u =>
        obtain ⟨said, hsaid, -⟩ := h'.leads u fd ((h.both u fd).mpr hold)
        exact absurd hsaid (by simp [Sockets.step])
    · intro hunknown
      refine ⟨h.both, fun u f hu => ?_⟩
      have hf : f ≠ fd := by
        rintro rfl
        have hknown := (h.both u _).mp hu
        rw [hunknown] at hknown
        exact absurd hknown (by simp)
      obtain ⟨said, hsaid, hin⟩ := h.leads u f hu
      exact ⟨said, (OrderedMap.lookup_erase_of_ne hf _).trans hsaid, hin⟩

/-- **When the maps are truthful.** In every run they say the same and what is so, after every
event, exactly if every event is clean.

The maps are written when a `HELLO` is handled and when a node is taken out, and sockets are opened
and closed at other times. So they say what is so exactly as long as each of these events finds the
maps as they have to be for it. One that does not makes them wrong at once, so the condition is
exact, event by event. -/
theorem truthful_iff_clean (evs : List Event) :
    (∀ pre, pre <+: evs → (Run.exec step {} pre).Truthful) ↔ Run.Along step Clean {} evs := by
  have hstart : Linked {} ∧ Real {} := by
    refine ⟨⟨fun _ _ => ?_, fun _ _ hu => ?_⟩, ⟨fun _ _ hu => ?_, rfl, fun _ _ hu => ?_⟩⟩
    · exact ⟨fun hc => absurd hc (by simp), fun hf => absurd hf (by simp)⟩
    · exact absurd hu (by simp)
    · exact absurd hu (by simp)
    · exact absurd hu (by simp)
  have hgood : ∀ s : Sockets, s.Linked ∧ s.Real → s.Truthful := fun s hs =>
    (truthful_iff_linked hs.2).mpr hs.1
  have hstep : ∀ (s : Sockets) (ev : Event), True → s.Linked ∧ s.Real →
      ((s.step ev).Truthful → s.Clean ev) ∧
        (s.Clean ev → (s.step ev).Linked ∧ (s.step ev).Real) := by
    intro s ev _ ⟨hlinked, hreal⟩
    have hreal' := hreal.step ev
    refine ⟨fun htrue => ?_, fun hclean => ⟨?_, hreal'⟩⟩
    · exact (hlinked.step_iff hreal ev).mp ((truthful_iff_linked hreal').mp htrue)
    · exact (hlinked.step_iff hreal ev).mpr hclean
  exact Run.forall_prefix_iff_along hgood hstep (Run.along_of_forall (fun _ _ => trivial) evs _)
    hstart

/-- Node 7 says `HELLO` and goes; the next client gets its descriptor. -/
def recycled : List Event := [.accept 5, .read 7 5, .HELLO 0, .disconnect 5, .accept 5]

/-- Its messages count as those of node 7. -/
theorem recycled_untruthful :
    (Run.exec step {} recycled).peers.getUuidByFd 5 = 7 ∧
      (Run.exec step {} recycled).opened = [(5, [])] ∧
      ¬ (Run.exec step {} recycled).Truthful := by
  refine ⟨rfl, rfl, fun htrue => ?_⟩
  obtain ⟨said, hsaid, hin⟩ := (htrue 7 5 (by decide)).2 rfl
  have hnil : said = [] := (Option.some.inj hsaid).symm
  rw [hnil] at hin
  exact absurd hin List.not_mem_nil

end Sockets
end Server
end KvJet
