import KvJet.Server.Connections
import KvJet.Server.Ring

/-!
# Failure detection

`Cluster::checkTimeouts`, with any number of calls of `Cluster::updateHeartbeat` going on in other
threads. The clock is read before the table is locked, so a heartbeat can be recorded in between,
and its time is then later than the one it is compared with. The difference of the two is one of
unsigned numbers, so such a peer counts as one that has been silent for very long.

Once the table is read, the peers that are found silent are removed one after the other, each in
several critical sections. Nothing that `updateHeartbeat` does is about what they change, the
heartbeat table apart, so the outcome is that of removing them at once (`tables_exec`).
-/

namespace KvJet
namespace Server

open OrderedMap (Ordered)
open Raft (Uuid)

/-- `Config::HEARTBEAT_TIMEOUT_MS`. -/
def heartbeatTimeoutMs : UInt64 := 3000

/-- `now - ts > Config::HEARTBEAT_TIMEOUT_MS`, where `now` is signed and `ts` is not. -/
def silent (now : Int64) (ts : UInt64) : Bool := now.toUInt64 - ts > heartbeatTimeoutMs

/-- What `checkTimeouts` removes a peer from, and the peers that `failure_cb` was called for. -/
structure Tables where
  cluster : Cluster
  peers : Peers := {}
  failures : List Uuid := []

/-- The critical sections in which a peer is removed. -/
inductive Part where
  /-- `delNodeToHash`. -/
  | ring
  /-- `fd_to_uuid.erase`, in `delConnection`. No other thread writes `connections`. -/
  | fd
  | connection
  | topo
  | heartbeat
  /-- `failure_cb`. -/
  | failure
deriving DecidableEq, Repr

namespace Part

/-- `delNodeToHash`, `delTopoNode` and `failure_cb`. -/
def all : List Part := [ring, fd, connection, topo, heartbeat, failure]

def perform (uuid : Uuid) (t : Tables) : Part → Tables
  | ring => { t with cluster := t.cluster.delNodeToHash uuid }
  | fd =>
    let fd := t.peers.getConnection uuid
    if fd ≠ -1 then
      { t with peers := { t.peers with fdToUuid := OrderedMap.erase fd t.peers.fdToUuid } }
    else t
  | connection =>
    { t with peers := { t.peers with connections := OrderedMap.erase uuid t.peers.connections } }
  | topo => { t with cluster := { t.cluster with topo := OrderedMap.erase uuid t.cluster.topo } }
  | heartbeat => t
  | failure => { t with failures := t.failures ++ [uuid] }

end Part

/-- A call of `updateHeartbeat` that is under way: it knows the peer, and then the time. -/
inductive Beat where
  | found (uuid : Uuid)
  | timed (uuid : Uuid) (now : Int64)
deriving DecidableEq, Repr

/-- How far the call of `checkTimeouts` has come. -/
inductive Check where
  | entered
  | sampled (now : Int64)
  /-- The table is read; these sections are left. -/
  | removing (todo : List (Uuid × Part))
deriving DecidableEq, Repr

structure Detector where
  tables : Tables
  heartbeatTime : List (Uuid × UInt64) := []
  check : Check := .entered
  beats : List Beat := []

namespace Detector

/-- The peers that the loop of `checkTimeouts` over the table finds. -/
def dead (s : Detector) (now : Int64) : List Uuid :=
  (s.heartbeatTime.filter fun entry =>
    entry.1 ≠ s.tables.cluster.selfNode.uuid ∧ silent now entry.2 = true).map Prod.fst

inductive Event where
  /-- A new call of `updateHeartbeat` looks up its peer. -/
  | lookup (fd : Int)
  /-- The `i`-th one reads the clock. -/
  | clock (i : Nat) (now : Int64)
  /-- It records the time, and is over. -/
  | store (i : Nat)
  /-- `checkTimeouts` reads the clock. -/
  | sample (now : Int64)
  /-- The next critical section of `checkTimeouts`. -/
  | check
deriving DecidableEq, Repr

def step (s : Detector) : Event → Detector
  | .lookup fd =>
    match s.tables.peers.fdToUuid.lookup fd with
    | none => s
    | some uuid => { s with beats := s.beats ++ [.found uuid] }
  | .clock i now =>
    match s.beats[i]? with
    | some (.found uuid) => { s with beats := s.beats.set i (.timed uuid now) }
    | _ => s
  | .store i =>
    match s.beats[i]? with
    | some (.timed uuid now) => { s with
        beats := s.beats.eraseIdx i
        heartbeatTime := assign uuid now.toUInt64 s.heartbeatTime }
    | _ => s
  | .sample now =>
    match s.check with
    | .entered => { s with check := .sampled now }
    | _ => s
  | .check =>
    match s.check with
    | .entered => s
    | .sampled now => { s with
        check := .removing ((s.dead now).flatMap fun uuid => Part.all.map fun part => (uuid, part)) }
    | .removing [] => s
    | .removing ((uuid, part) :: todo) => { s with
        tables := part.perform uuid s.tables
        -- a heartbeat that is recorded after this makes a new entry
        heartbeatTime := if part = .heartbeat then OrderedMap.erase uuid s.heartbeatTime
          else s.heartbeatTime
        check := .removing todo }

abbrev exec (s : Detector) (es : List Event) : Detector := Run.exec step s es

/-! ## What it is for -/

/-- More than the timeout ago, as integers. -/
def Late (now : Int64) (ts : UInt64) : Prop := 3000 < now.toInt - (ts.toNat : Int)

/-- A peer that the table says is silent. -/
def Missing (s : Detector) (now : Int64) (uuid : Uuid) : Prop :=
  uuid ≠ s.tables.cluster.selfNode.uuid ∧ ∃ ts, (uuid, ts) ∈ s.heartbeatTime ∧ Late now ts

/-- From the table of `s` to the state `s'` the missing peers are removed, and the others have the
entries they had. -/
structure Exact (now : Int64) (s s' : Detector) : Prop where
  verdict : ∀ u, u ∈ s'.tables.failures ↔ s.Missing now u
  gone : ∀ u ∈ s'.tables.failures, ¬ s'.tables.cluster.OnRing u ∧
    s'.tables.cluster.topo.lookup u = none ∧ s'.tables.peers.connections.lookup u = none
  kept : ∀ u ∉ s'.tables.failures,
    (∀ p, (p, u) ∈ s'.tables.cluster.nodeHash ↔ (p, u) ∈ s.tables.cluster.nodeHash) ∧
    s'.tables.cluster.topo.lookup u = s.tables.cluster.topo.lookup u ∧
    s'.tables.peers.connections.lookup u = s.tables.peers.connections.lookup u ∧
    ∀ fd, s'.tables.peers.fdToUuid.lookup fd = some u ↔ s.tables.peers.fdToUuid.lookup fd = some u

/-- No time in the table is later than `now`, or it is by about 2^64. -/
def InStep (now : Int64) (ts : UInt64) : Prop :=
  (ts.toNat : Int) ≤ now.toInt ∨
    now.toInt + 2 ^ 64 - 3000 ≤ (ts.toNat : Int) ∧ (ts.toNat : Int) ≤ now.toInt + 2 ^ 64

/-- What a missing peer takes along belongs to missing peers. -/
def Apart (s : Detector) (now : Int64) : Prop :=
  ∀ u, s.Missing now u →
    (∀ p w, (p, w) ∈ s.tables.cluster.nodeHash → p ∈ Cluster.pointsOf u → s.Missing now w) ∧
    ∀ fd w, s.tables.peers.connections.lookup u = some fd → fd ≠ -1 →
      s.tables.peers.fdToUuid.lookup fd = some w → s.Missing now w

/-! ## The arithmetic

The difference is computed without a sign, and compared with a number that has none. -/

/-- **Unsigned and signed** lateness are the same exactly for times that are in step. -/
theorem silent_iff_late (now : Int64) (ts : UInt64) :
    (silent now ts = true ↔ Late now ts) ↔ InStep now ts := by
  have hnow : now.toInt = (now.toUInt64.toNat : Int).bmod (2 ^ 64) :=
    BitVec.toInt_eq_toNat_bmod now.toBitVec
  have hdiff : (now.toUInt64 - ts).toNat = ((now.toInt - (ts.toNat : Int)) % 2 ^ 64).toNat := by
    have hbits := now.toUInt64.toNat_lt
    have hts := ts.toNat_lt
    rw [UInt64.toNat_sub, hnow, Int.bmod_def]
    omega
  have hlow := now.le_toInt
  have hhigh := now.toInt_lt
  have hts := ts.toNat_lt
  unfold silent Late InStep
  rw [decide_eq_true_iff, gt_iff_lt, UInt64.lt_iff_toNat_lt, hdiff]
  have hlimit : heartbeatTimeoutMs.toNat = 3000 := rfl
  rw [hlimit]
  omega

end Detector

/-! ## Removing peers one after the other

Each removal is several critical sections, and the heartbeats that come in between do not meet them.
-/

namespace Tables

/-- All sections for one peer. -/
def remove (t : Tables) (uuid : Uuid) : Tables :=
  Part.all.foldl (fun t part => part.perform uuid t) t

def removeAll (t : Tables) (uuids : List Uuid) : Tables := uuids.foldl remove t

def performAll (t : Tables) (todo : List (Uuid × Part)) : Tables :=
  todo.foldl (fun t one => one.2.perform one.1 t) t

theorem performAll_append (t : Tables) (done todo : List (Uuid × Part)) :
    t.performAll (done ++ todo) = (t.performAll done).performAll todo := List.foldl_append

theorem performAll_sections (t : Tables) (uuids : List Uuid) :
    t.performAll (uuids.flatMap fun uuid => Part.all.map fun part => (uuid, part))
      = t.removeAll uuids := by
  induction uuids generalizing t with
  | nil => rfl
  | cons uuid uuids ih =>
    rw [List.flatMap_cons, performAll_append, ih]
    rw [performAll, List.foldl_map]
    rfl

variable {t : Tables} {u w : Uuid}

theorem nodeHash_remove (t : Tables) (u : Uuid) :
    (t.remove u).cluster.nodeHash
      = Cluster.delPoints (Cluster.pointsOf u) t.cluster.nodeHash := by
  rw [← Cluster.nodeHash_delNodeToHash]
  simp only [remove, Part.all, List.foldl, Part.perform]
  split <;> rfl

theorem topo_remove (t : Tables) (u : Uuid) :
    (t.remove u).cluster.topo = OrderedMap.erase u t.cluster.topo := by
  simp only [remove, Part.all, List.foldl, Part.perform, Cluster.delNodeToHash]
  split <;> rfl

theorem connections_remove (t : Tables) (u : Uuid) :
    (t.remove u).peers.connections = OrderedMap.erase u t.peers.connections := by
  simp only [remove, Part.all, List.foldl, Part.perform]
  split <;> rfl

theorem failures_remove (t : Tables) (u : Uuid) : (t.remove u).failures = t.failures ++ [u] := by
  simp only [remove, Part.all, List.foldl, Part.perform]
  split <;> rfl

theorem fdToUuid_remove (t : Tables) (u : Uuid) (f : Int) :
    (t.remove u).peers.fdToUuid.lookup f
      = if t.peers.connections.lookup u = some f ∧ f ≠ -1 then none
        else t.peers.fdToUuid.lookup f := by
  have hmap : (t.remove u).peers.fdToUuid
      = if t.peers.getConnection u ≠ -1 then
          OrderedMap.erase (t.peers.getConnection u) t.peers.fdToUuid
        else t.peers.fdToUuid := by
    simp only [remove, Part.all, List.foldl, Part.perform]
    split <;> rfl
  rw [hmap]
  unfold Peers.getConnection
  cases hconn : t.peers.connections.lookup u with
  | none => simp
  | some fd =>
    by_cases hf : fd = f
    · subst hf
      by_cases hreal : fd = -1
      · simp [hreal]
      · simp [hreal]
    · have hother : ¬ (some fd = some f ∧ f ≠ -1) := fun h => hf (Option.some.inj h.1)
      rw [if_neg hother, Option.getD_some]
      split
      · exact OrderedMap.lookup_erase_of_ne (Ne.symm hf) _
      · rfl

/-! Over a whole list of peers. -/

theorem mem_nodeHash_removeAll {p : UInt64} : ∀ {us : List Uuid} {t : Tables},
    (p, w) ∈ (t.removeAll us).cluster.nodeHash ↔
      (p, w) ∈ t.cluster.nodeHash ∧ ∀ u ∈ us, p ∉ Cluster.pointsOf u := by
  intro us
  induction us with
  | nil => intro t; simp [removeAll]
  | cons u us ih =>
    intro t
    rw [List.forall_mem_cons, ← and_assoc]
    refine ih.trans (and_congr_left' ?_)
    rw [nodeHash_remove, Cluster.mem_delPoints_iff]

/-- A map from which `remove` takes the peer. -/
theorem lookup_removeAll {β : Type} (map : Tables → List (Uuid × β))
    (hmap : ∀ t u, map (t.remove u) = OrderedMap.erase u (map t)) : ∀ {us : List Uuid} {t : Tables},
    (map (t.removeAll us)).lookup w = if w ∈ us then none else (map t).lookup w := by
  intro us
  induction us with
  | nil => intro t; simp [removeAll]
  | cons u us ih =>
    intro t
    refine ih.trans ?_
    rw [hmap, OrderedMap.lookup_erase]
    by_cases hu : w = u
    · simp [hu]
    · simp [hu]

theorem topo_removeAll {us : List Uuid} {t : Tables} :
    (t.removeAll us).cluster.topo.lookup w
      = if w ∈ us then none else t.cluster.topo.lookup w :=
  lookup_removeAll (fun t => t.cluster.topo) topo_remove

theorem connections_removeAll {us : List Uuid} {t : Tables} :
    (t.removeAll us).peers.connections.lookup w
      = if w ∈ us then none else t.peers.connections.lookup w :=
  lookup_removeAll (fun t => t.peers.connections) connections_remove

theorem failures_removeAll : ∀ {us : List Uuid} {t : Tables},
    (t.removeAll us).failures = t.failures ++ us := by
  intro us
  induction us with
  | nil => intro t; simp [removeAll]
  | cons u us ih =>
    intro t
    refine ih.trans ?_
    rw [failures_remove, List.append_assoc, List.singleton_append]

/-- The descriptors that go are those of the removed peers. -/
theorem fdToUuid_removeAll {f : Int} : ∀ {us : List Uuid} {t : Tables},
    (t.removeAll us).peers.fdToUuid.lookup f
      = if f ≠ -1 ∧ ∃ u ∈ us, t.peers.connections.lookup u = some f then none
        else t.peers.fdToUuid.lookup f := by
  intro us
  induction us with
  | nil => intro t; simp [removeAll]
  | cons u us ih =>
    intro t
    have hconn : ∀ v, (t.remove u).peers.connections.lookup v = some f ↔
        v ≠ u ∧ t.peers.connections.lookup v = some f := by
      intro v
      rw [connections_remove]
      by_cases hv : v = u
      · simp [hv]
      · simp [hv, OrderedMap.lookup_erase_of_ne hv]
    refine ih.trans ?_
    rw [fdToUuid_remove]
    simp only [hconn]
    by_cases hreal : f = -1
    · simp [hreal]
    · by_cases hu : t.peers.connections.lookup u = some f
      · simp [hreal, hu]
      · -- the first peer has another descriptor, so it may be left out on both sides
        have hothers : (∃ v ∈ us, v ≠ u ∧ t.peers.connections.lookup v = some f) ↔
            ∃ v ∈ u :: us, t.peers.connections.lookup v = some f := by
          constructor
          · rintro ⟨v, hv, -, hvf⟩
            exact ⟨v, List.mem_cons_of_mem _ hv, hvf⟩
          · rintro ⟨v, hv, hvf⟩
            have hne : v ≠ u := fun h => hu (h ▸ hvf)
            exact ⟨v, (List.mem_cons.mp hv).resolve_left hne, hne, hvf⟩
        simp only [hothers, hu, false_and, if_false]

end Tables

/-! ## Runs -/

namespace Detector

/-- The sections of `all` that are over have been performed on `t`, one after the other. -/
structure Under (t : Tables) (all : List (Uuid × Part)) (s : Detector) : Prop where
  progress : ∃ done todo, all = done ++ todo ∧ s.check = .removing todo ∧
    s.tables = t.performAll done

theorem step_beats (s : Detector) (e : Event) (he : e ≠ .check) (hs : ∀ now, e ≠ .sample now) :
    (s.step e).tables = s.tables ∧ (s.step e).check = s.check := by
  cases e with
  | lookup fd =>
    unfold step
    dsimp only
    split <;> exact ⟨rfl, rfl⟩
  | clock i now =>
    unfold step
    dsimp only
    split <;> exact ⟨rfl, rfl⟩
  | store i =>
    unfold step
    dsimp only
    split <;> exact ⟨rfl, rfl⟩
  | sample now => exact absurd rfl (hs now)
  | check => exact absurd rfl he

/-- **One event**: a section is over, or nothing about the tables has changed. -/
theorem Under.step {t : Tables} {all : List (Uuid × Part)} {s : Detector} (h : Under t all s)
    (e : Event) : Under t all (s.step e) := by
  obtain ⟨done, todo, hall, hcheck, htables⟩ := h.progress
  have hsame : (s.step e).tables = s.tables ∧ (s.step e).check = s.check → Under t all (s.step e) :=
    fun ⟨ht, hc⟩ => ⟨done, todo, hall, hc.trans hcheck, ht.trans htables⟩
  cases e with
  | lookup fd => exact hsame (step_beats s _ (by simp) (by simp))
  | clock i now => exact hsame (step_beats s _ (by simp) (by simp))
  | store i => exact hsame (step_beats s _ (by simp) (by simp))
  | sample now =>
    -- a call is under way, so this is no beginning of one
    apply hsame
    unfold Detector.step
    rw [hcheck]
    exact ⟨rfl, hcheck⟩
  | check =>
    cases todo with
    | nil =>
      apply hsame
      unfold Detector.step
      rw [hcheck]
      exact ⟨rfl, hcheck⟩
    | cons one todo =>
      obtain ⟨uuid, part⟩ := one
      refine ⟨done ++ [(uuid, part)], todo, by rw [hall, List.append_assoc]; rfl, ?_, ?_⟩
      · unfold Detector.step
        rw [hcheck]
      · unfold Detector.step
        rw [hcheck, Tables.performAll_append, ← htables]
        rfl

theorem Under.exec {t : Tables} {all : List (Uuid × Part)} {es : List Event} {s : Detector}
    (h : Under t all s) : Under t all (s.exec es) :=
  Run.keeps_exec (fun _ e h => h.step e) es h

/-- The table is read. -/
theorem step_read {s : Detector} {now : Int64} (hs : s.check = .sampled now) :
    s.step .check = { s with
      check := .removing ((s.dead now).flatMap fun uuid =>
        Part.all.map fun part => (uuid, part)) } := by
  unfold step
  dsimp only
  rw [hs]

/-- **However the heartbeats come in between**, the call ends as if it had removed the peers at
once.

A heartbeat writes its own cell of the heartbeat table and nothing else, and once the table has been
read the removals do not look at it again. -/
theorem tables_exec {s : Detector} {now : Int64} {es : List Event} (hs : s.check = .sampled now)
    (hend : (s.exec (.check :: es)).check = .removing []) :
    (s.exec (.check :: es)).tables = s.tables.removeAll (s.dead now) := by
  -- who is dead is settled by the first section, and no heartbeat after it matters
  have hread : Under s.tables ((s.dead now).flatMap fun uuid =>
      Part.all.map fun part => (uuid, part)) (s.step .check) := by
    rw [step_read hs]
    exact ⟨[], _, rfl, rfl, rfl⟩
  have hrun : Under s.tables _ ((s.step .check).exec es) := hread.exec
  obtain ⟨done, todo, hall, hcheck, htables⟩ := hrun.progress
  rw [show s.exec (.check :: es) = (s.step .check).exec es from rfl, hcheck] at hend
  obtain rfl : todo = [] := Check.removing.inj hend
  rw [List.append_nil] at hall
  rw [show s.exec (.check :: es) = (s.step .check).exec es from rfl, htables, ← hall,
    Tables.performAll_sections]

/-- The table of heartbeats stays a map, and nothing is removed before it is read. -/
structure Waiting (t : Tables) (s : Detector) : Prop where
  ordered : Ordered s.heartbeatTime
  tables : (∃ todo, s.check = .removing todo) ∨ s.tables = t

theorem Waiting.step {t : Tables} {s : Detector} (h : s.Waiting t) (e : Event) :
    (s.step e).Waiting t := by
  cases e with
  | lookup fd =>
    unfold Detector.step
    dsimp only
    split
    · exact h
    · exact ⟨h.ordered, h.tables⟩
  | clock i now =>
    unfold Detector.step
    dsimp only
    split
    · exact ⟨h.ordered, h.tables⟩
    · exact h
  | store i =>
    unfold Detector.step
    dsimp only
    split
    · refine ⟨?_, h.tables⟩
      rw [assign_eq_insert]
      exact h.ordered.insert _ _
    · exact h
  | sample now =>
    unfold Detector.step
    dsimp only
    split
    · -- the clock is read before anything is removed
      rename_i hentered
      refine ⟨h.ordered, Or.inr (h.tables.resolve_left ?_)⟩
      rintro ⟨todo, htodo⟩
      exact absurd (hentered.symm.trans htodo) (by simp)
    · exact h
  | check =>
    unfold Detector.step
    dsimp only
    split
    · exact h
    · exact ⟨h.ordered, Or.inl ⟨_, rfl⟩⟩
    · exact h
    · refine ⟨?_, Or.inl ⟨_, rfl⟩⟩
      split
      · exact h.ordered.erase _
      · exact h.ordered

theorem Waiting.exec {t : Tables} {es : List Event} {s : Detector} (h : s.Waiting t) :
    (s.exec es).Waiting t :=
  Run.keeps_exec (fun _ e h => h.step e) es h

/-! ## The verdict -/

section Verdict

variable {s s' : Detector} {now : Int64}

theorem mem_dead {u : Uuid} : u ∈ s.dead now ↔
    u ≠ s.tables.cluster.selfNode.uuid ∧ ∃ ts, (u, ts) ∈ s.heartbeatTime ∧ silent now ts = true := by
  unfold dead
  rw [List.mem_map]
  constructor
  · rintro ⟨⟨v, ts⟩, hin, rfl⟩
    obtain ⟨htable, hp⟩ := List.mem_filter.mp hin
    obtain ⟨hself, hsilent⟩ := of_decide_eq_true hp
    exact ⟨hself, ts, htable, hsilent⟩
  · rintro ⟨hself, ts, htable, hsilent⟩
    exact ⟨(u, ts), List.mem_filter.mpr ⟨htable, decide_eq_true ⟨hself, hsilent⟩⟩, rfl⟩

/-- The peers that are found are the missing ones, exactly if all times are in step. -/
theorem dead_iff_missing (htable : Ordered s.heartbeatTime) :
    (∀ u, u ∈ s.dead now ↔ s.Missing now u) ↔
      ∀ u ts, (u, ts) ∈ s.heartbeatTime → u ≠ s.tables.cluster.selfNode.uuid → InStep now ts := by
  constructor
  · intro hall u ts hin hself
    rw [← silent_iff_late]
    have honly : ∀ ts', (u, ts') ∈ s.heartbeatTime → ts' = ts :=
      fun ts' hin' => htable.value_unique hin' hin
    have hu := hall u
    rw [mem_dead] at hu
    constructor
    · intro hsilent
      obtain ⟨-, ts', hin', hlate⟩ := hu.mp ⟨hself, ts, hin, hsilent⟩
      exact honly ts' hin' ▸ hlate
    · intro hlate
      obtain ⟨-, ts', hin', hsilent⟩ := hu.mpr ⟨hself, ts, hin, hlate⟩
      exact honly ts' hin' ▸ hsilent
  · intro hall u
    rw [mem_dead]
    refine and_congr_right fun hself => exists_congr fun ts => and_congr_right fun hin => ?_
    exact (silent_iff_late now ts).mpr (hall u ts hin hself)

theorem exact_removeAll_iff (htable : Ordered s.heartbeatTime)
    (hown : ∀ p u, (p, u) ∈ s.tables.cluster.nodeHash → p ∈ Cluster.pointsOf u)
    (hfailures : s.tables.failures = [])
    (htables : s'.tables = s.tables.removeAll (s.dead now)) :
    Exact now s s' ↔
      (∀ u ts, (u, ts) ∈ s.heartbeatTime → u ≠ s.tables.cluster.selfNode.uuid → InStep now ts) ∧
        s.Apart now := by
  have hfailed : s'.tables.failures = s.dead now := by
    rw [htables, Tables.failures_removeAll, hfailures, List.nil_append]
  rw [← dead_iff_missing htable]
  constructor
  · intro h
    have hdead : ∀ u, u ∈ s.dead now ↔ s.Missing now u := by
      intro u
      rw [← hfailed]
      exact h.verdict u
    refine ⟨hdead, fun u hu => ⟨fun p w hp hpu => ?_, fun fd w hconn hreal hfd => ?_⟩⟩
    · by_contra hw
      have hkept := (h.kept w (by rwa [hfailed, hdead])).1 p
      rw [htables, Tables.mem_nodeHash_removeAll] at hkept
      exact (hkept.mpr hp).2 u ((hdead u).mpr hu) hpu
    · by_contra hw
      have hkept := (h.kept w (by rwa [hfailed, hdead])).2.2.2 fd
      rw [htables, Tables.fdToUuid_removeAll,
        if_pos ⟨hreal, u, (hdead u).mpr hu, hconn⟩] at hkept
      exact absurd (hkept.mpr hfd) (by simp)
  · rintro ⟨hdead, hapart⟩
    refine ⟨fun u => ?_, fun u hu => ?_, fun w hw => ⟨fun p => ?_, ?_, ?_, fun fd => ?_⟩⟩
    · rw [hfailed]
      exact hdead u
    · rw [hfailed] at hu
      refine ⟨?_, ?_, ?_⟩
      · rintro ⟨p, hp⟩
        rw [htables, Tables.mem_nodeHash_removeAll] at hp
        exact hp.2 u hu (hown p u hp.1)
      · rw [htables, Tables.topo_removeAll, if_pos hu]
      · rw [htables, Tables.connections_removeAll, if_pos hu]
    · rw [hfailed] at hw
      rw [htables, Tables.mem_nodeHash_removeAll]
      refine ⟨And.left, fun hp => ⟨hp, fun u hu hpu => hw ?_⟩⟩
      exact (hdead w).mpr ((hapart u ((hdead u).mp hu)).1 p w hp hpu)
    · rw [hfailed] at hw
      rw [htables, Tables.topo_removeAll, if_neg hw]
    · rw [hfailed] at hw
      rw [htables, Tables.connections_removeAll, if_neg hw]
    · rw [hfailed] at hw
      rw [htables, Tables.fdToUuid_removeAll]
      split
      · rename_i hgone
        obtain ⟨hreal, u, hu, hconn⟩ := hgone
        refine iff_of_false (by simp) fun hfd => hw ?_
        exact (hdead w).mpr ((hapart u ((hdead u).mp hu)).2 fd w hconn hreal hfd)
      · exact Iff.rfl

/-- **Failure detection is exact** if and only if no time in the table it reads is later than the
time it has sampled, and what a missing peer takes along belongs to missing peers.

`now - ts` is an unsigned difference, which is right where the time in the table is not later than
`now`, and very large where it is. `now` is read before the table is locked, so a heartbeat in
between is later. What a silent peer takes along is erased by value, from the ring and from the
descriptors, so it is its own only where it shares none with a peer that is there. -/
theorem timeouts_exact_iff {before after : List Event} (htable : Ordered s.heartbeatTime)
    (hown : ∀ p u, (p, u) ∈ s.tables.cluster.nodeHash → p ∈ Cluster.pointsOf u)
    (hnew : s.tables.failures = []) (hsampled : (s.exec before).check = .sampled now)
    (hreturned : (s.exec (before ++ .check :: after)).check = .removing []) :
    let read := s.exec before
    Exact now read (s.exec (before ++ .check :: after)) ↔
      (∀ u ts, (u, ts) ∈ read.heartbeatTime → u ≠ read.tables.cluster.selfNode.uuid →
        InStep now ts) ∧ read.Apart now := by
  intro read
  have hwaiting : read.Waiting s.tables := Waiting.exec ⟨htable, Or.inr rfl⟩
  have hsame : read.tables = s.tables := by
    refine hwaiting.tables.resolve_left ?_
    rintro ⟨todo, htodo⟩
    exact absurd (hsampled.symm.trans htodo) (by simp)
  rw [exec, Run.exec_append] at hreturned ⊢
  refine exact_removeAll_iff hwaiting.ordered ?_ ?_ (tables_exec hsampled hreturned)
  · rw [hsame]
    exact hown
  · rw [hsame]
    exact hnew

end Verdict

/-- Node 1 is connected to node 2 by descriptor 5, knows node 3 no more than by name, and has the
points of all three on its ring. -/
def surrounded (heartbeatTime : List (Uuid × UInt64)) : Detector where
  tables := {
    cluster := Cluster.exec
      { selfNode := ⟨[], 7800, 1⟩
        topo := [(1, ⟨[], 7800, 1⟩), (2, ⟨[], 7801, 2⟩), (3, ⟨[], 7802, 3⟩)] }
      ([1, 2, 3].map .addNodeToHash)
    peers := {
      connections := [(2, 5)]
      fdToUuid := [(5, 2)] } }
  heartbeatTime

/-- Node 3 has been silent for four seconds when node 2 is heard of. -/
theorem timeouts_remove_three :
    let read := (surrounded [(2, 4000), (3, 1000)]).exec [.sample 5000, .lookup 5, .clock 0 4900,
      .store 0]
    Exact 5000 read ((surrounded [(2, 4000), (3, 1000)]).exec ([.sample 5000, .lookup 5,
      .clock 0 4900, .store 0] ++ .check :: .replicate 6 .check)) := by
  have hring : ∀ p u, (p, u) ∈ (surrounded []).tables.cluster.nodeHash ↔
      u ∈ [(1 : Uuid), 2, 3] ∧ p ∈ Cluster.pointsOf u := fun p u =>
    Cluster.mem_ring_adds rfl Cluster.apart_one_two_three
  refine (timeouts_exact_iff (s := surrounded [(2, 4000), (3, 1000)]) ?_ ?_ rfl rfl rfl).mpr
    ⟨?_, ?_⟩
  · exact (OrderedMap.ordered_nil.insert 3 1000).insert 2 4000
  · exact fun p u hp => ((hring p u).mp hp).2
  · intro u ts hin _
    have htable : (u, ts) ∈ [((2 : Uuid), (4900 : UInt64)), (3, 1000)] := hin
    simp only [List.mem_cons, Prod.mk.injEq, List.not_mem_nil, or_false] at htable
    obtain ⟨-, rfl⟩ | ⟨-, rfl⟩ := htable
    · exact Or.inl (by decide)
    · exact Or.inl (by decide)
  · intro u hu
    refine ⟨fun p w hp hpu => ?_, fun fd w hconn _ hfd => ?_⟩
    · -- a point belongs to one node only
      obtain ⟨hw, hpw⟩ := (hring p w).mp hp
      obtain rfl : u = w := by
        by_contra hne
        obtain ⟨hother, ts, hin, -⟩ := hu
        have htable : (u, ts) ∈ [((2 : Uuid), (4900 : UInt64)), (3, 1000)] := hin
        have hu : u ∈ [(1 : Uuid), 2, 3] := by
          simp only [List.mem_cons, Prod.mk.injEq, List.not_mem_nil, or_false] at htable
          rcases htable with ⟨rfl, -⟩ | ⟨rfl, -⟩ <;> simp
        exact Cluster.apart_one_two_three u hu w hw hne p hpu hpw
      exact hu
    · -- the only descriptor is the one of node 2, and it leads there
      have hpair : [((2 : Uuid), (5 : Int))].lookup u = some fd := hconn
      have hback : [((5 : Int), (2 : Uuid))].lookup fd = some w := hfd
      obtain rfl : u = 2 := by
        by_contra hne
        rw [List.lookup_cons, beq_false_of_ne hne] at hpair
        exact absurd hpair (by simp)
      obtain rfl : (5 : Int) = fd := Option.some.inj hpair
      obtain rfl : (2 : Uuid) = w := Option.some.inj hback
      exact hu

/-- Node 9 is connected to node 7 by descriptor 5, and knows node 8 no more than by name. -/
def watching (heartbeatTime : List (Uuid × UInt64)) : Detector where
  tables := {
    cluster := {
      selfNode := ⟨[], 7800, 9⟩
      topo := [(7, ⟨[], 7801, 7⟩), (8, ⟨[], 7802, 8⟩), (9, ⟨[], 7800, 9⟩)] }
    peers := {
      connections := [(7, 5)]
      fdToUuid := [(5, 7)] } }
  heartbeatTime

/-- Node 7 is heard of one millisecond after the clock is read, and removed. -/
theorem timeouts_remove_heard :
    ∃ before after, ((watching [(7, 1000)]).exec before).check = .sampled 1000 ∧
      (7, (1001 : UInt64)) ∈ ((watching [(7, 1000)]).exec before).heartbeatTime ∧
      ((watching [(7, 1000)]).exec (before ++ .check :: after)).check = .removing [] ∧
      7 ∈ ((watching [(7, 1000)]).exec (before ++ .check :: after)).tables.failures ∧
      ¬ Exact 1000 ((watching [(7, 1000)]).exec before)
        ((watching [(7, 1000)]).exec (before ++ .check :: after)) := by
  have hfailed : 7 ∈ ((watching [(7, 1000)]).exec ([.sample 1000, .lookup 5, .clock 0 1001,
      .store 0] ++ .check :: .replicate 6 .check)).tables.failures := List.mem_singleton.mpr rfl
  refine ⟨[.sample 1000, .lookup 5, .clock 0 1001, .store 0], .replicate 6 .check, rfl,
    List.mem_singleton.mpr rfl, rfl, hfailed, fun h => ?_⟩
  obtain ⟨-, ts, hin, hlate⟩ := (h.verdict 7).mp hfailed
  obtain rfl : ts = 1001 := congrArg Prod.snd (List.mem_singleton.mp hin)
  exact absurd hlate (by unfold Late; decide)

end Detector
end Server
end KvJet
