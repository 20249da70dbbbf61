import KvJet.Lib.OrderedMap
import KvJet.Raft.Lines
import KvJet.Raft.Log
import KvJet.Raft.Text
import KvJet.Raft.Threads
import KvJet.Server.Applied
import KvJet.Server.Ring

/-!
# Rebuilding the Raft groups

When a node joins or leaves, the main loop gets a `REBUILD_RAFTS` and calls `initRaftGroups`: the
`RaftNode`s are destroyed with whatever they have not written yet, and new ones come up from the
files of `RAFT_LOG_DIR`. A file belongs to the number of a group, and the number to a place in the
topology. What a new node finds in its file it takes for committed, so the apply loop runs all
of it over the store once more.

The store gets the value of the last command of each key in these files. Nothing but its own history
makes that the value it has, and it need not be (`rebuild_keeps_iff`): a write that this node
stored and did not log, for want of being the leader of the group, is undone.
-/

namespace KvJet
namespace Server

open Resp Store
open OrderedMap (Ordered)
open Raft (Disk LogEntry RaftMessage RaftNode Uuid)

/-- A server, with the files of its Raft groups. -/
structure Site where
  server : ServerState
  /-- `group_<gid>.log`, as it was when the groups were last built. -/
  files : Nat → Bytes
  /-- What the main loop has taken from a group and not applied yet. -/
  pending : List LogEntry := []

abbrev SiteM := Method Fault Site

/-! ## `initRaftGroups` -/

namespace Cluster

/-- `nodeIds`: the nodes, in the order of their UUIDs. -/
def nodeIds (c : Cluster) : List Uuid := c.topo.map Prod.fst

/-- `selfIdx`, which is 0 where the node itself is not among them. -/
def selfIdx (c : Cluster) : Nat := (c.nodeIds.idxOf? c.selfNode.uuid).getD 0

/-- `gi`: the place of this node, or one or two before it. -/
def groupIndex (c : Cluster) (offset : Nat) : Nat :=
  (((c.selfIdx : Int) - offset + c.nodeIds.length) % c.nodeIds.length).toNat

def members (c : Cluster) (gi : Nat) : List Uuid :=
  (List.range 3).map fun j => c.nodeIds.getD ((gi + j) % c.nodeIds.length) 0

/-- The others of the group, each once. -/
def peersOf (c : Cluster) (gi : Nat) : List Uuid :=
  ((c.members gi).filter (· ≠ c.selfNode.uuid)).eraseDups

end Cluster

/-- `emplace`, which keeps what is there. -/
def emplace (gid : Nat) (rn : RaftNode) (groups : List (Nat × RaftNode)) : List (Nat × RaftNode) :=
  if (groups.lookup gid).isSome then groups else OrderedMap.insert gid rn groups

def ServerState.setGroup (s : ServerState) (gid : Nat) (rn : RaftNode) : ServerState :=
  { s with raftGroups := s.raftGroups.map fun g => if g.1 = gid then (gid, rn) else g }

namespace Site

/-- The files when the `RaftNode`s have been destroyed. -/
def closed (s : Site) (spill : Nat → Nat → Nat) (gid : Nat) : Bytes :=
  match s.server.raftGroups.lookup gid with
  | some rn => (Disk.onto (spill gid) (s.files gid) rn.disk).close
  | none => s.files gid

/-- `raft_groups.clear()`, and every node is on the ring. -/
def clear (s : Site) (spill : Nat → Nat → Nat) : Site :=
  { s with
    files := s.closed spill
    server := { s.server with
      cluster := s.server.cluster.nodeIds.foldl Cluster.addNodeToHash s.server.cluster
      raftGroups := []
      masterToGroup := [] } }

/-- The `RaftNode` of group `gi`, as its file has it. -/
def restore (s : Site) (rand : Nat → Nat) (gi : Nat) : Except Fault RaftNode :=
  let c := s.server.cluster
  RaftNode.restore gi c.selfNode.uuid (c.peersOf gi) (s.files gi) (rand gi)

def addGroup (s : Site) (gi : Nat) (rn : RaftNode) : Site :=
  { s with server := { s.server with
      raftGroups := emplace gi rn s.server.raftGroups
      masterToGroup := assign (s.server.cluster.nodeIds.getD gi 0) gi s.server.masterToGroup } }

def buildGroup (rand : Nat → Nat) (gi : Nat) : SiteM Unit := do
  let rn ← Method.lift ((← get).restore rand gi)
  modify fun s => s.addGroup gi rn

/-- `groupMembers_` is not here. -/
def initRaftGroups (spill : Nat → Nat → Nat) (rand : Nat → Nat) : SiteM Unit := do
  let c := (← get).server.cluster
  if c.topo.isEmpty then return
  modify fun s => s.clear spill
  forM ([0, 1, 2].map c.groupIndex) (buildGroup rand)

/-! ## The apply loop -/

def onServer {α : Type} (m : ServerM α) : SiteM α :=
  Method.part Site.server (fun server s => { s with server }) m

/-- `rn.tick()`. -/
def tick (s : Site) (gid rand : Nat) : Site :=
  match s.server.raftGroups.lookup gid with
  | none => s
  | some rn =>
    let (rn, msgs) := rn.tick64 rand
    { s with server := msgs.foldl ServerState.sendCb (s.server.setGroup gid rn) }

/-- `rn.takePendingApply()`. -/
def take (s : Site) (gid : Nat) : Site :=
  match s.server.raftGroups.lookup gid with
  | none => s
  | some rn =>
    if rn.hasPendingApply then
      let (rn, entries) := rn.takePendingApply
      { s with server := s.server.setGroup gid rn, pending := entries }
    else s

def applyNext : SiteM Unit := do
  match (← get).pending with
  | [] => return
  | entry :: rest =>
    modify fun s => { s with pending := rest }
    onServer (applyCommand entry.command)

def applyGroup (rand : Nat → Nat) (gid : Nat) : SiteM Unit := do
  modify fun s => (s.tick gid (rand gid)).take gid
  forM (← get).pending fun _ => applyNext

/-- What `epoll_step` does at its end. -/
def applyLoop (rand : Nat → Nat) : SiteM Unit := do
  forM ((← get).server.raftGroups.map Prod.fst) (applyGroup rand)

/-! ## What may happen in a server

Anything that reaches the store, the logs or the topology, in any order; so the store is whatever
these have made it. -/

/-- `rn->step(sender, raw)`. -/
def receive (gid : Nat) (fromPeer : Uuid) (raw : Bytes) (rand stray : Nat) : SiteM Unit := do
  match (← get).server.raftGroups.lookup gid with
  | none => return
  | some rn =>
    let (result, rn) := (RaftNode.stepText fromPeer raw rand stray).call rn
    modify fun s => { s with server := s.server.setGroup gid rn }
    let msgs ← Method.lift result
    modify fun s => { s with server := msgs.foldl ServerState.sendCb s.server }

inductive Event where
  /-- A thread makes the next call of a handler of `SET` or `DEL`. -/
  | handler (t : Task)
  | get (request : RespValue)
  | exist (request : RespValue)
  /-- A message of Raft. -/
  | receive (gid : Nat) (fromPeer : Uuid) (raw : Bytes) (rand stray : Nat)
  | tick (gid rand : Nat)
  /-- `takePendingApply`, when everything taken before is applied. -/
  | take (gid : Nat)
  | applyNext
  /-- What gossip and timeouts make of the view of the cluster. -/
  | topology (cluster : Cluster)
  /-- `REBUILD_RAFTS`. -/
  | rebuild (spill : Nat → Nat → Nat) (rand : Nat → Nat)

/-- What a thread throws is lost; what the main loop throws would be its end. -/
def step (s : Site) : Event → Site
  | .handler t => ((onServer t.method).call s).2
  | .get request => ((onServer (Handler.GET request)).call s).2
  | .exist request => ((onServer (Handler.EXIST request)).call s).2
  | .receive gid fromPeer raw rand stray => ((receive gid fromPeer raw rand stray).call s).2
  | .tick gid rand => s.tick gid rand
  | .take gid => if s.pending = [] then s.take gid else s
  | .applyNext => (applyNext.call s).2
  | .topology cluster => { s with server := { s.server with cluster } }
  | .rebuild spill rand => if s.pending = [] then ((initRaftGroups spill rand).call s).2 else s

/-- No entry is pending application. -/
def Quiet (s : Site) : Prop :=
  s.pending = [] ∧ ∀ g ∈ s.server.raftGroups, g.2.hasPendingApply = false

instance (s : Site) : Decidable s.Quiet := inferInstanceAs (Decidable (_ ∧ _))

/-- A rebuild, and the apply loop until nothing is pending, leave the map of the store as it is. -/
def KeepsData (s : Site) (spill : Nat → Nat → Nat) (rand rand' : Nat → Nat) : Prop :=
  ∃ s', Method.call (do initRaftGroups spill rand; applyLoop rand') s = (.ok (), s') ∧ s'.Quiet ∧
    ∀ m, s.server.kvstore.Contents m → s'.server.kvstore.Contents m

/-! ## When the files are up to date

The files say nothing of when a command was written, so all that can be asked is what they come to
at the end. -/

end Site

/-- The numbers of the groups that this node is in, each once, in the order of `raft_groups`. -/
def Cluster.groupIds (c : Cluster) : List Nat :=
  (List.range c.nodeIds.length).filter (· ∈ [0, 1, 2].map c.groupIndex)

namespace Site

/-- The files of the groups to be built can be read, the store has room for their commands, one
after another, and the last write of each key among them is of the value that the store has. -/
def UpToDate (s : Site) (spill : Nat → Nat → Nat) : Prop :=
  let gids := s.server.cluster.groupIds
  let cmds := gids.flatMap fun gid => Raft.fileCommands (s.closed spill gid)
  s.server.cluster.topo = [] ∨
    (∀ gid ∈ gids, Raft.Readable (s.closed spill gid)) ∧
    CanApplyAll s.server.kvstore cmds ∧
    ∀ us w vs, cmds.filterMap asks = us ++ w :: vs → (∀ w' ∈ vs, w'.key ≠ w.key) →
      ∀ m, s.server.kvstore.Contents m → m w.key = w.effect

variable {s s' : Site}

/-! ## The apply loop, step by step -/

theorem call_onServer {α : Type} (mt : ServerM α) (s : Site) :
    (onServer mt).call s = ((mt.call s.server).1, { s with server := (mt.call s.server).2 }) := rfl

/-- The store of a site, replaced. -/
def withStore (s : Site) (kvstore : KVStore RespValue) : Site :=
  { s with server := { s.server with kvstore } }

theorem call_applyNext {entry : LogEntry} {rest : List LogEntry}
    (h : s.pending = entry :: rest) :
    applyNext.call s = (((perform entry.command).call s.server.kvstore).1,
      ({ s with pending := rest } : Site).withStore
        ((perform entry.command).call s.server.kvstore).2) := by
  unfold applyNext
  rw [Method.call_bind_ok (Method.call_get s), h]
  dsimp only
  rw [Method.call_bind_ok (Method.call_modify _ s), call_onServer, call_applyCommand]
  rfl

/-- The entries that were taken, one after another. -/
theorem call_applyPending : ∀ {es : List LogEntry} {s : Site}, s.pending = es →
    let result := (forM (es.map LogEntry.command) perform).call s.server.kvstore
    let after := (forM es fun _ => applyNext).call s
    after.1 = result.1 ∧
      (result.1 = .ok () → after.2 = ({ s with pending := [] } : Site).withStore result.2) := by
  intro es
  induction es with
  | nil =>
    intro s h
    refine ⟨rfl, fun _ => ?_⟩
    obtain ⟨server, files, pending⟩ := s
    cases h
    rfl
  | cons entry es ih =>
    intro s h
    have hnext := call_applyNext h
    rw [List.map_cons, List.forM_cons, List.forM_cons]
    cases hperform : (perform entry.command).call s.server.kvstore with
    | mk r kv =>
      rw [hperform] at hnext
      cases r with
      | error e =>
        rw [Method.call_bind_error hnext, Method.call_bind_error hperform]
        exact ⟨rfl, nofun⟩
      | ok u =>
        rw [Method.call_bind_ok hnext, Method.call_bind_ok hperform]
        exact ih rfl

/-! ### One group -/

theorem replace_replace {α : Type} (gid : Nat) (a b : α) (groups : List (Nat × α)) :
    ((groups.map fun g => if g.1 = gid then (gid, a) else g).map
      fun g => if g.1 = gid then (gid, b) else g)
      = groups.map fun g => if g.1 = gid then (gid, b) else g := by
  rw [List.map_map]
  refine List.map_congr_left fun g _ => ?_
  by_cases hg : g.1 = gid
  · simp [hg]
  · simp [hg]

theorem takePendingApply_congr {n n' : RaftNode} (hlog : n'.log = n.log)
    (hcommit : n'.commitIndex = n.commitIndex) (hlast : n'.lastApplied = n.lastApplied) :
    n'.takePendingApply.2 = n.takePendingApply.2 := by
  unfold RaftNode.takePendingApply
  rw [hlog, hcommit, hlast]

theorem takePendingApply_nil {n : RaftNode} (h : n.hasPendingApply = false) :
    n.takePendingApply.2 = [] := by
  have hle : n.commitIndex ≤ n.lastApplied := by simpa [RaftNode.hasPendingApply] using h
  unfold RaftNode.takePendingApply
  rw [Nat.sub_eq_zero_of_le hle]
  rfl

theorem hasPendingApply_taken (n : RaftNode) : n.takePendingApply.1.hasPendingApply = false := by
  unfold RaftNode.takePendingApply RaftNode.hasPendingApply
  simp

/-- What `tick` and `takePendingApply` change. -/
theorem tick_take {gid : Nat} {rn : RaftNode} (hpending : s.pending = [])
    (hrn : s.server.raftGroups.lookup gid = some rn) (rand : Nat) :
    let t := (s.tick gid rand).take gid
    t.pending = rn.takePendingApply.2 ∧ t.server.kvstore = s.server.kvstore ∧
      ∃ rn', rn'.hasPendingApply = false ∧
        t.server.raftGroups = (s.server.setGroup gid rn').raftGroups := by
  obtain ⟨hlog, hcommit, hlast⟩ := rn.tick64_keeps rand
  have htick : s.tick gid rand = { s with
      server :=
        (rn.tick64 rand).2.foldl ServerState.sendCb (s.server.setGroup gid (rn.tick64 rand).1) } := by
    unfold tick
    rw [hrn]
  have hgroups : (s.tick gid rand).server.raftGroups
      = (s.server.setGroup gid (rn.tick64 rand).1).raftGroups := by
    rw [htick]
    exact sendAll_raftGroups _ _
  have hstore : (s.tick gid rand).server.kvstore = s.server.kvstore := by
    rw [htick]
    exact (sameStore_sendAll _ _).1
  have hsame : (s.tick gid rand).pending = [] := by
    rw [htick]
    exact hpending
  have hlookup : (s.tick gid rand).server.raftGroups.lookup gid = some (rn.tick64 rand).1 := by
    rw [hgroups]
    refine (lookup_replaced gid gid _ _).trans ?_
    rw [if_pos rfl, hrn]
    rfl
  have htaken := takePendingApply_congr hlog hcommit hlast
  dsimp only
  unfold take
  rw [hlookup]
  dsimp only
  by_cases hp : (rn.tick64 rand).1.hasPendingApply = true
  · rw [if_pos hp]
    refine ⟨htaken, hstore, (rn.tick64 rand).1.takePendingApply.1, hasPendingApply_taken _, ?_⟩
    show ((s.tick gid rand).server.raftGroups.map _) = _
    rw [hgroups]
    exact replace_replace gid _ _ _
  · rw [if_neg hp]
    have hp := Bool.eq_false_of_not_eq_true hp
    refine ⟨?_, hstore, _, hp, hgroups⟩
    rw [hsame, ← htaken, takePendingApply_nil hp]

theorem call_applyGroup {gid : Nat} {rn : RaftNode} (hpending : s.pending = [])
    (hrn : s.server.raftGroups.lookup gid = some rn) (rand : Nat → Nat) :
    let result := (forM (rn.takePendingApply.2.map LogEntry.command) perform).call s.server.kvstore
    let after := (applyGroup rand gid).call s
    after.1 = result.1 ∧ (result.1 = .ok () → ∃ t : Site, after.2 = t.withStore result.2 ∧
      t.pending = [] ∧ ∃ rn', rn'.hasPendingApply = false ∧
        t.server.raftGroups = (s.server.setGroup gid rn').raftGroups) := by
  obtain ⟨htaken, hstore, hgroups⟩ := tick_take hpending hrn (rand gid)
  have hentries := call_applyPending htaken
  have hcall : (applyGroup rand gid).call s = Method.call
      (forM ((s.tick gid (rand gid)).take gid).pending fun _ => applyNext)
      ((s.tick gid (rand gid)).take gid) := by
    unfold applyGroup
    rw [Method.call_bind_ok (Method.call_modify _ s), Method.call_bind_ok (Method.call_get _)]
  dsimp only at hentries htaken hstore ⊢
  rw [hstore] at hentries
  rw [hcall, htaken]
  refine ⟨hentries.1, fun hok => ⟨_, hentries.2 hok, rfl, hgroups⟩⟩

/-! ### All groups -/

/-- The loop over the groups `gids`, each of which has the commands `cmds gid` pending, runs all of
these commands over the store. -/
theorem call_applyGroups (cmds : Nat → List Bytes) (rand : Nat → Nat) :
    ∀ {gids : List Nat} {s : Site}, s.pending = [] → gids.Nodup →
      (∀ gid ∈ gids, ∃ rn, s.server.raftGroups.lookup gid = some rn ∧
        rn.takePendingApply.2.map LogEntry.command = cmds gid) →
      (∀ g ∈ s.server.raftGroups, g.1 ∈ gids ∨ g.2.hasPendingApply = false) →
      let result := (forM (gids.flatMap cmds) perform).call s.server.kvstore
      let after := (forM gids (applyGroup rand)).call s
      after.1 = result.1 ∧
        (result.1 = .ok () → after.2.Quiet ∧ after.2.server.kvstore = result.2) := by
  intro gids
  induction gids with
  | nil =>
    intro s hpending _ _ hquiet
    exact ⟨rfl, fun _ => ⟨⟨hpending, fun g hg => (hquiet g hg).resolve_left List.not_mem_nil⟩, rfl⟩⟩
  | cons gid gids ih =>
    intro s hpending hnodup hgroups hquiet
    obtain ⟨hnot, hnodup⟩ := List.nodup_cons.mp hnodup
    obtain ⟨rn, hrn, hcmds⟩ := hgroups gid List.mem_cons_self
    have hturn := call_applyGroup hpending hrn rand
    dsimp only at hturn ⊢
    rw [hcmds] at hturn
    obtain ⟨hresult, hafter⟩ := hturn
    rw [List.flatMap_cons, List.forM_append, List.forM_cons]
    cases hperform : (forM (cmds gid) perform).call s.server.kvstore with
    | mk r kv =>
      rw [hperform] at hresult hafter
      cases hcall : (applyGroup rand gid).call s with
      | mk r' s₁ =>
        rw [hcall] at hresult hafter
        have hr : r' = r := hresult
        subst hr
        cases r' with
        | error e =>
          rw [Method.call_bind_error hcall, Method.call_bind_error hperform]
          exact ⟨rfl, nofun⟩
        | ok u =>
          obtain ⟨t, hs₁, htpending, rn', hrn', htgroups⟩ := hafter rfl
          have hs₁ : s₁ = t.withStore kv := hs₁
          subst hs₁
          rw [Method.call_bind_ok hcall, Method.call_bind_ok hperform]
          refine ih htpending hnodup (fun gid' hgid' => ?_) fun g hg => ?_
          · obtain ⟨rn₂, hrn₂, hcmds₂⟩ := hgroups gid' (List.mem_cons_of_mem _ hgid')
            have hne : gid' ≠ gid := fun heq => hnot (heq ▸ hgid')
            refine ⟨rn₂, ?_, hcmds₂⟩
            show t.server.raftGroups.lookup gid' = _
            rw [htgroups]
            refine (lookup_replaced gid gid' rn' _).trans ?_
            rw [if_neg hne]
            exact hrn₂
          · have hg : g ∈ t.server.raftGroups := hg
            rw [htgroups] at hg
            obtain ⟨g₀, hg₀, rfl⟩ := List.mem_map.mp hg
            split
            · exact Or.inr hrn'
            · rename_i hne
              exact (hquiet g₀ hg₀).imp_left fun hin => (List.mem_cons.mp hin).resolve_left hne

/-- Where nothing is pending the loop leaves the store alone. -/
theorem call_applyGroups_quiet (rand : Nat → Nat) : ∀ {gids : List Nat} {s : Site}, s.Quiet →
    ∃ s', (forM gids (applyGroup rand)).call s = (.ok (), s') ∧ s'.Quiet ∧
      s'.server.kvstore = s.server.kvstore := by
  intro gids
  induction gids with
  | nil => exact fun h => ⟨_, rfl, h, rfl⟩
  | cons gid gids ih =>
    intro s h
    obtain ⟨s₁, hcall, hquiet, hstore⟩ : ∃ s₁, (applyGroup rand gid).call s = (.ok (), s₁) ∧
        s₁.Quiet ∧ s₁.server.kvstore = s.server.kvstore := by
      cases hrn : s.server.raftGroups.lookup gid with
      | none =>
        have hsame : (s.tick gid (rand gid)).take gid = s := by
          unfold tick
          rw [hrn]
          dsimp only
          unfold take
          rw [hrn]
        refine ⟨s, ?_, h, rfl⟩
        unfold applyGroup
        rw [Method.call_bind_ok (Method.call_modify _ s), hsame, Method.call_bind_ok
          (Method.call_get s), h.1]
        rfl
      | some rn =>
        have hmem : (gid, rn) ∈ s.server.raftGroups := by
          obtain ⟨l₁, l₂, hsplit, -⟩ := List.lookup_eq_some_iff.mp hrn
          rw [hsplit]
          exact List.mem_append_right _ List.mem_cons_self
        have hturn := call_applyGroup h.1 hrn rand
        rw [takePendingApply_nil (h.2 _ hmem)] at hturn
        obtain ⟨hresult, hafter⟩ := hturn
        obtain ⟨t, hs₁, htpending, rn', hrn', htgroups⟩ := hafter rfl
        refine ⟨t.withStore s.server.kvstore, Prod.ext hresult hs₁,
          ⟨htpending, fun g hg => ?_⟩, rfl⟩
        have hg : g ∈ t.server.raftGroups := hg
        rw [htgroups] at hg
        obtain ⟨g₀, hg₀, rfl⟩ := List.mem_map.mp hg
        split
        · exact hrn'
        · exact h.2 g₀ hg₀
    obtain ⟨s', hrest, hquiet', hstore'⟩ := ih hquiet
    exact ⟨s', by rw [List.forM_cons, Method.call_bind_ok hcall]; exact hrest, hquiet',
      hstore'.trans hstore⟩

/-! ## The groups that are built

Which files are read depends on the topology alone, and each group is built once. -/

end Site

theorem Cluster.mem_groupIds {c : Cluster} (hne : c.topo ≠ []) {gid : Nat} :
    gid ∈ c.groupIds ↔ gid ∈ [0, 1, 2].map c.groupIndex := by
  have hpos : 0 < c.nodeIds.length := by
    unfold nodeIds
    rw [List.length_map]
    exact List.length_pos_of_ne_nil hne
  have hlt : ∀ offset, c.groupIndex offset < c.nodeIds.length := by
    intro offset
    have hmod := Int.emod_lt_of_pos ((c.selfIdx : Int) - offset + c.nodeIds.length)
      (Int.natCast_pos.mpr hpos)
    unfold groupIndex
    omega
  unfold groupIds
  rw [List.mem_filter, List.mem_range, decide_eq_true_eq]
  refine ⟨And.right, fun h => ⟨?_, h⟩⟩
  obtain ⟨offset, -, rfl⟩ := List.mem_map.mp h
  exact hlt offset

namespace Site

variable {s s' : Site}

theorem mem_emplace {gid : Nat} {rn : RaftNode} {groups : List (Nat × RaftNode)}
    (h : Ordered groups) (hsame : ∀ rn', (gid, rn') ∈ groups → rn' = rn) :
    Ordered (emplace gid rn groups) ∧
      ∀ p, p ∈ emplace gid rn groups ↔ p ∈ groups ∨ p = (gid, rn) := by
  unfold emplace
  cases hlookup : groups.lookup gid with
  | some rn' =>
    have hin : (gid, rn') ∈ groups := h.lookup_eq_some.mp hlookup
    refine ⟨h, fun p => ⟨Or.inl, ?_⟩⟩
    rintro (hp | rfl)
    · exact hp
    · rw [← hsame rn' hin]
      exact hin
  | none =>
    refine ⟨h.insert gid rn, fun p => (OrderedMap.mem_insert h).trans ⟨?_, ?_⟩⟩
    · rintro (rfl | ⟨hp, -⟩)
      · exact Or.inr rfl
      · exact Or.inl hp
    · rintro (hp | rfl)
      · refine Or.inr ⟨hp, fun hkey => ?_⟩
        have hlookup' := h.lookup_eq_some.mpr (show (gid, p.2) ∈ groups from hkey ▸ hp)
        rw [hlookup] at hlookup'
        exact nomatch hlookup'
      · exact Or.inl rfl

theorem mem_emplaced {node : Nat → RaftNode} : ∀ {gids : List Nat}
    {groups : List (Nat × RaftNode)}, Ordered groups → (∀ p ∈ groups, p.2 = node p.1) →
    let after := gids.foldl (fun groups gid => emplace gid (node gid) groups) groups
    Ordered after ∧ ∀ p, p ∈ after ↔ p ∈ groups ∨ (p.1 ∈ gids ∧ p.2 = node p.1) := by
  intro gids
  induction gids with
  | nil => exact fun h _ => ⟨h, fun p => ⟨Or.inl, fun hp => hp.resolve_right (by simp)⟩⟩
  | cons gid gids ih =>
    intro groups h hsame
    have hgid : ∀ rn', (gid, rn') ∈ groups → rn' = node gid := fun rn' hrn' => hsame _ hrn'
    obtain ⟨hord, hmem⟩ := mem_emplace h hgid
    obtain ⟨hord', hmem'⟩ := ih hord fun p hp => by
      rcases (hmem p).mp hp with hp | rfl
      · exact hsame p hp
      · rfl
    refine ⟨hord', fun p => (hmem' p).trans ?_⟩
    rw [hmem p, List.mem_cons, or_assoc]
    refine or_congr_right ⟨?_, ?_⟩
    · rintro (rfl | ⟨hin, hp⟩)
      · exact ⟨Or.inl rfl, rfl⟩
      · exact ⟨Or.inr hin, hp⟩
    · rintro ⟨rfl | hin, hp⟩
      · exact Or.inl (Prod.ext rfl hp)
      · exact Or.inr ⟨hin, hp⟩

/-- `raft_groups` when it is built: one node for each group, in order. -/
theorem emplaced_eq {c : Cluster} (hne : c.topo ≠ []) (node : Nat → RaftNode) :
    ([0, 1, 2].map c.groupIndex).foldl (fun groups gid => emplace gid (node gid) groups) []
      = c.groupIds.map fun gid => (gid, node gid) := by
  have hnone : ∀ p ∈ ([] : List (Nat × RaftNode)), p.2 = node p.1 := fun p hp =>
    absurd hp List.not_mem_nil
  obtain ⟨hord, hmem⟩ :=
    @mem_emplaced node ([0, 1, 2].map c.groupIndex) [] OrderedMap.ordered_nil hnone
  have hsorted : Ordered (c.groupIds.map fun gid => (gid, node gid)) :=
    List.pairwise_map.mpr (List.pairwise_lt_range.filter _)
  refine hord.ext hsorted fun p => (hmem p).trans ?_
  constructor
  · rintro (hp | ⟨hin, hp⟩)
    · exact absurd hp List.not_mem_nil
    · exact List.mem_map.mpr ⟨p.1, (Cluster.mem_groupIds hne).mpr hin, Prod.ext rfl hp.symm⟩
  · intro hp
    obtain ⟨gid, hin, rfl⟩ := List.mem_map.mp hp
    exact Or.inr ⟨(Cluster.mem_groupIds hne).mp hin, rfl⟩

theorem call_buildGroup (s : Site) (rand : Nat → Nat) (gi : Nat) :
    (buildGroup rand gi).call s = match s.restore rand gi with
      | .ok rn => (.ok (), s.addGroup gi rn)
      | .error e => (.error e, s) := by
  unfold buildGroup
  rw [Method.call_bind_ok (Method.call_get s)]
  cases s.restore rand gi with
  | ok rn => rfl
  | error e => rfl

theorem call_buildGroups {rand : Nat → Nat} {node : Nat → RaftNode} :
    ∀ {gids : List Nat} {s : Site}, (∀ gid ∈ gids, s.restore rand gid = .ok (node gid)) →
    ∃ s', (forM gids (buildGroup rand)).call s = (.ok (), s') ∧
      s'.server.kvstore = s.server.kvstore ∧ s'.pending = s.pending ∧
      s'.server.raftGroups
        = gids.foldl (fun groups gid => emplace gid (node gid) groups) s.server.raftGroups := by
  intro gids
  induction gids with
  | nil => exact fun _ => ⟨_, rfl, rfl, rfl, rfl⟩
  | cons gid gids ih =>
    intro s h
    have hfirst := call_buildGroup s rand gid
    rw [h gid List.mem_cons_self] at hfirst
    obtain ⟨s', hrest, hstore, hpending, hgroups⟩ := ih (s := s.addGroup gid (node gid))
      fun gid' hgid' => h gid' (List.mem_cons_of_mem _ hgid')
    exact ⟨s', by rw [List.forM_cons, Method.call_bind_ok hfirst]; exact hrest, hstore, hpending,
      hgroups⟩

theorem buildGroups_returned {rand : Nat → Nat} : ∀ {gids : List Nat} {s s' : Site},
    (forM gids (buildGroup rand)).call s = (.ok (), s') →
    ∀ gid ∈ gids, ∃ rn, s.restore rand gid = .ok rn := by
  intro gids
  induction gids with
  | nil => exact fun _ gid hgid => absurd hgid List.not_mem_nil
  | cons gid gids ih =>
    intro s s' hcall
    rw [List.forM_cons] at hcall
    obtain ⟨⟨⟩, s₁, hfirst, hrest⟩ := Method.bind_eq_ok hcall
    rw [call_buildGroup] at hfirst
    cases hrestore : s.restore rand gid with
    | error e =>
      rw [hrestore] at hfirst
      exact absurd hfirst (by simp)
    | ok rn =>
      rw [hrestore] at hfirst
      have hs₁ : s.addGroup gid rn = s₁ := (Prod.mk.inj hfirst).2
      subst hs₁
      intro gid' hgid'
      rcases List.mem_cons.mp hgid' with rfl | hin
      · exact ⟨rn, hrestore⟩
      · exact ih hrest gid' hin

/-- All that a new node has it takes for committed and not applied. -/
theorem restore_pending {rand : Nat → Nat} {gid : Nat} {rn : RaftNode}
    (h : s.restore rand gid = .ok rn) : Raft.Readable (s.files gid) ∧
      rn.takePendingApply.2.map LogEntry.command = Raft.fileCommands (s.files gid) := by
  obtain ⟨entries, hload, hlog, hcommit, hlast⟩ := RaftNode.restore_eq_ok h
  have htaken : rn.takePendingApply.2 = entries := by
    rw [RaftNode.takePendingApply_snd (by rw [hlog, hcommit]; exact Nat.lt_succ_self _)
      (by rw [hlast]; exact Nat.zero_le _), hlog, hcommit, hlast]
    exact List.take_length
  rw [htaken, Raft.loadFromDisk_commands hload]
  exact ⟨Raft.loadFromDisk_isOk.mp (by rw [hload]; rfl), rfl⟩

theorem exists_restore {rand : Nat → Nat} {gid : Nat}
    (h : Raft.Readable (s.files gid)) : ∃ rn, s.restore rand gid = .ok rn := by
  obtain ⟨entries, hload⟩ := Except.exists_of_isOk (Raft.loadFromDisk_isOk.mpr h)
  unfold restore RaftNode.restore
  rw [hload]
  exact ⟨_, rfl⟩

theorem call_initRaftGroups (hne : s.server.cluster.topo ≠ []) (spill : Nat → Nat → Nat)
    (rand : Nat → Nat) :
    (initRaftGroups spill rand).call s = Method.call
      (forM ([0, 1, 2].map s.server.cluster.groupIndex) (buildGroup rand)) (s.clear spill) := by
  have hempty : s.server.cluster.topo.isEmpty = false := by simpa using hne
  unfold initRaftGroups
  rw [Method.call_bind_ok (Method.call_get s)]
  dsimp only
  rw [hempty, if_neg Bool.false_ne_true, Method.call_bind_ok (Method.call_modify _ s)]

/-- A rebuild, up to the apply loop. -/
structure Rebuilt (s : Site) (spill : Nat → Nat → Nat) (s₁ : Site) : Prop where
  store : s₁.server.kvstore = s.server.kvstore
  pending : s₁.pending = s.pending
  gids : s₁.server.raftGroups.map Prod.fst = s.server.cluster.groupIds
  nodes : ∀ gid ∈ s.server.cluster.groupIds, ∃ rn, s₁.server.raftGroups.lookup gid = some rn ∧
    rn.takePendingApply.2.map LogEntry.command = Raft.fileCommands (s.closed spill gid)

theorem initRaftGroups_spec (hne : s.server.cluster.topo ≠ []) {spill : Nat → Nat → Nat}
    (rand : Nat → Nat) (hload : ∀ gid ∈ s.server.cluster.groupIds,
      Raft.Readable (s.closed spill gid)) :
    ∃ s₁, (initRaftGroups spill rand).call s = (.ok (), s₁) ∧ s.Rebuilt spill s₁ := by
  have hrestore : ∀ gid ∈ s.server.cluster.groupIds,
      ∃ rn, (s.clear spill).restore rand gid = .ok rn := fun gid hgid => exists_restore (s := s.clear spill) (hload gid hgid)
  have : Nonempty RaftNode := ⟨.construct 0 0 [] 0⟩
  choose! node hnode using hrestore
  obtain ⟨s₁, hcall, hstore, hpending, hgroups⟩ := call_buildGroups (s := s.clear spill)
    fun gid hgid => hnode gid ((Cluster.mem_groupIds hne).mpr hgid)
  have hgroups : s₁.server.raftGroups = s.server.cluster.groupIds.map fun gid => (gid, node gid) :=
    hgroups.trans (emplaced_eq hne node)
  have hsorted : Ordered (s.server.cluster.groupIds.map fun gid => (gid, node gid)) :=
    List.pairwise_map.mpr (List.pairwise_lt_range.filter _)
  refine ⟨s₁, (call_initRaftGroups hne spill rand).trans hcall, hstore, hpending, ?_,
    fun gid hgid => ⟨node gid, ?_, ?_⟩⟩
  · rw [hgroups, List.map_map]
    exact List.map_id _
  · rw [hgroups]
    exact hsorted.lookup_eq_some.mpr (List.mem_map.mpr ⟨gid, hgid, rfl⟩)
  · exact (restore_pending (s := s.clear spill) (hnode gid hgid)).2

theorem initRaftGroups_returned (hne : s.server.cluster.topo ≠ []) {spill : Nat → Nat → Nat}
    {rand : Nat → Nat} {s₁ : Site} (hcall : (initRaftGroups spill rand).call s = (.ok (), s₁)) :
    ∀ gid ∈ s.server.cluster.groupIds, Raft.Readable (s.closed spill gid) := by
  intro gid hgid
  rw [call_initRaftGroups hne] at hcall
  obtain ⟨rn, hrn⟩ := buildGroups_returned hcall gid ((Cluster.mem_groupIds hne).mp hgid)
  exact (restore_pending (s := s.clear spill) hrn).1

/-- The apply loop of a server whose groups were just built runs over the files. -/
theorem Rebuilt.applyLoop {spill : Nat → Nat → Nat} {s₁ : Site} (h : s.Rebuilt spill s₁)
    (hpending : s.pending = []) (rand : Nat → Nat) :
    let cmds := s.server.cluster.groupIds.flatMap fun gid => Raft.fileCommands (s.closed spill gid)
    let result := (forM cmds perform).call s.server.kvstore
    let after := (Site.applyLoop rand).call s₁
    after.1 = result.1 ∧
      (result.1 = .ok () → after.2.Quiet ∧ after.2.server.kvstore = result.2) := by
  have hnodup : s.server.cluster.groupIds.Nodup := List.nodup_range.filter _
  have hgroups := call_applyGroups (fun gid => Raft.fileCommands (s.closed spill gid)) rand
    (h.pending.trans hpending) hnodup h.nodes
    fun g hg => Or.inl (h.gids ▸ List.mem_map.mpr ⟨g, hg, rfl⟩)
  have hcall : (Site.applyLoop rand).call s₁
      = (forM s.server.cluster.groupIds (applyGroup rand)).call s₁ := by
    unfold Site.applyLoop
    rw [Method.call_bind_ok (Method.call_get s₁), h.gids]
  dsimp only at hgroups ⊢
  rw [h.store] at hgroups
  rw [hcall]
  exact hgroups

/-- **When a rebuild keeps the data**, whatever the state of the server.

The rebuild itself does not touch the store. Then the apply loop hands out every command of every
file, once and in order, so the last one of each key decides. -/
theorem keepsData_iff {m : Bytes → Option RespValue} (h : s.server.kvstore.Contents m)
    (hquiet : s.Quiet) (spill : Nat → Nat → Nat) (rand rand' : Nat → Nat) :
    s.KeepsData spill rand rand' ↔ s.UpToDate spill := by
  by_cases hne : s.server.cluster.topo = []
  · have hinit : (initRaftGroups spill rand).call s = (.ok (), s) := by
      unfold initRaftGroups
      rw [Method.call_bind_ok (Method.call_get s)]
      dsimp only
      rw [hne]
      rfl
    obtain ⟨s', hcall, hquiet', hstore⟩ :=
      @call_applyGroups_quiet rand' (s.server.raftGroups.map Prod.fst) s hquiet
    refine iff_of_true ⟨s', ?_, hquiet', fun m hm => hstore ▸ hm⟩ (Or.inl hne)
    rw [Method.call_bind_ok hinit]
    unfold applyLoop
    rw [Method.call_bind_ok (Method.call_get s)]
    exact hcall
  constructor
  · rintro ⟨s', hcall, -, hkept⟩
    obtain ⟨⟨⟩, s₁, hinit, hloop⟩ := Method.bind_eq_ok hcall
    have hload := initRaftGroups_returned hne hinit
    obtain ⟨s₂, hinit', hrebuilt⟩ := initRaftGroups_spec hne rand hload
    rw [hinit] at hinit'
    cases (Prod.mk.inj hinit').2
    obtain ⟨hresult, hafter⟩ := hrebuilt.applyLoop hquiet.1 rand'
    rw [hloop] at hresult hafter
    have hall := performAll_returned h (Prod.ext hresult.symm rfl)
    obtain ⟨kv', hperform, hcontents⟩ := performAll_spec h hall
    refine Or.inr ⟨hload, hall, fun us w vs hsplit hlast m' hm' => ?_⟩
    have hstore := (hafter hresult.symm).2
    rw [hperform] at hstore
    have hstore : s'.server.kvstore = kv' := hstore
    have hsame : effects m _ = m := hcontents.unique (hstore ▸ hkept m h)
    rw [hm'.unique h]
    exact effects_eq_iff.mp hsame us w vs hsplit hlast
  · rintro (htopo | ⟨hload, hall, hlast⟩)
    · exact absurd htopo hne
    obtain ⟨s₁, hinit, hrebuilt⟩ := initRaftGroups_spec hne rand hload
    obtain ⟨kv', hperform, hcontents⟩ := performAll_spec h hall
    obtain ⟨hresult, hafter⟩ := hrebuilt.applyLoop hquiet.1 rand'
    rw [hperform] at hresult hafter
    obtain ⟨hquiet', hstore⟩ := hafter rfl
    have hsame : effects m _ = m := effects_eq_iff.mpr fun us w vs hsplit hkeys =>
      hlast us w vs hsplit hkeys m h
    rw [hsame] at hcontents
    refine ⟨_, ?_, hquiet', fun m' hm' => ?_⟩
    · rw [Method.call_bind_ok hinit]
      exact Prod.ext hresult rfl
    · rw [hm'.unique h, hstore]
      exact hcontents

/-! ## Every reachable server -/

/-- The store holds a map, whatever has happened. -/
def Stored (server : ServerState) : Prop := ∃ m, server.kvstore.Contents m

theorem Stored.of_store {server server' : ServerState} (h : Stored server)
    (heq : server'.kvstore = server.kvstore) : Stored server' := by
  obtain ⟨m, hm⟩ := h
  exact ⟨m, heq ▸ hm⟩

theorem keeps_onKVStore {α : Type} {mk : Method Fault (KVStore RespValue) α}
    (h : ∀ kv m, kv.Contents m → ∃ m', (mk.call kv).2.Contents m') :
    Method.Keeps Stored (onKVStore mk) := fun server ⟨m, hm⟩ => h server.kvstore m hm

theorem keeps_GET (request : RespValue) : Method.Keeps Stored (Handler.GET request) := by
  unfold Handler.GET
  refine .bind (.lift _) fun elements => .ite (.throw _) (.bind (.lift _) fun key => ?_)
  split
  · exact .bind (keeps_onKVStore fun kv m hm => hm.after_getValue _) fun result =>
      .ite (.pure _) (.pure _)
  · exact .throw _

theorem keeps_EXIST (request : RespValue) : Method.Keeps Stored (Handler.EXIST request) := by
  unfold Handler.EXIST
  refine .bind (.lift _) fun elements => .ite (.throw _) (.bind (.lift _) fun key => ?_)
  split
  · exact .bind (keeps_onKVStore fun kv m hm => hm.after_get _) fun ret => .pure _
  · exact .throw _

theorem keeps_method (t : Task) : Method.Keeps Stored t.method := by
  unfold Task.method
  split
  · refine .bind (.lift _) fun text => .bind .get fun server => .bind (.lift _) fun gid => ?_
    split
    · exact .pure _
    · exact .modify fun server h => h.of_store (sameStore_propose server _ _).1
  · exact fun server h => h
  · refine keeps_onKVStore fun kv m hm => ?_
    cases t.write with
    | set key value =>
      obtain ⟨m', hm'⟩ := hm.after_set key value
      refine ⟨m', ?_⟩
      rw [show (Write.set key value).apply = (do let _ ← KVStore.set key value) from rfl,
        call_dropped_snd]
      exact hm'
    | del key =>
      obtain ⟨m', hm'⟩ := hm.after_del key
      refine ⟨m', ?_⟩
      rw [show (Write.del key).apply = (do let _ ← KVStore.del key) from rfl, call_dropped_snd]
      exact hm'
  · exact .pure _
  · exact .pure _
  · exact .pure _

theorem keeps_applyCommand (cmd : Bytes) : Method.Keeps Stored (applyCommand cmd) := by
  intro server h
  rw [call_applyCommand]
  exact keeps_onKVStore (fun kv m hm => perform_contents hm cmd) server h

theorem keeps_onServer {α : Type} {mt : ServerM α} (h : Method.Keeps Stored mt) :
    Method.Keeps (fun s : Site => Stored s.server) (onServer mt) := fun s hs => h s.server hs

theorem stored_tick (s : Site) (gid rand : Nat) :
    (s.tick gid rand).server.kvstore = s.server.kvstore := by
  unfold tick
  split
  · rfl
  · exact (sameStore_sendAll _ _).1

theorem stored_take (s : Site) (gid : Nat) : (s.take gid).server.kvstore = s.server.kvstore := by
  unfold take
  split
  · rfl
  · split <;> rfl

theorem keeps_receive (gid : Nat) (fromPeer : Uuid) (raw : Bytes) (rand stray : Nat) :
    Method.Keeps (fun s : Site => Stored s.server) (receive gid fromPeer raw rand stray) := by
  unfold receive
  refine .bind .get fun s => ?_
  split
  · exact .pure _
  · dsimp only
    refine .bind (.modify fun s h => h) fun _ => .bind (.lift _) fun msgs => .modify fun s h => ?_
    exact h.of_store (sameStore_sendAll _ _).1

theorem keeps_initRaftGroups (spill : Nat → Nat → Nat) (rand : Nat → Nat) :
    Method.Keeps (fun s : Site => Stored s.server) (initRaftGroups spill rand) := by
  unfold initRaftGroups
  refine .bind .get fun s => .ite (.pure _) (.bind (.modify fun s h => h) fun _ => .forM ?_ _)
  exact fun gi => .bind .get fun s => .bind (.lift _) fun rn => .modify fun s h => h

theorem stored_step (s : Site) (e : Event) (h : Stored s.server) : Stored (s.step e).server := by
  cases e with
  | handler t => exact keeps_onServer (keeps_method t) s h
  | get request => exact keeps_onServer (keeps_GET request) s h
  | exist request => exact keeps_onServer (keeps_EXIST request) s h
  | receive gid fromPeer raw rand stray => exact keeps_receive gid fromPeer raw rand stray s h
  | tick gid rand => exact h.of_store (s.stored_tick gid rand)
  | take gid =>
    show Stored (if s.pending = [] then s.take gid else s).server
    split
    · exact h.of_store (s.stored_take gid)
    · exact h
  | applyNext =>
    have hkeeps : Method.Keeps (fun s : Site => Stored s.server) applyNext := by
      refine .bind .get fun s => ?_
      split
      · exact .pure _
      · exact .bind (.modify fun s h => h) fun _ => keeps_onServer (keeps_applyCommand _)
    exact hkeeps s h
  | topology cluster => exact h
  | rebuild spill rand =>
    show Stored (if s.pending = [] then ((initRaftGroups spill rand).call s).2 else s).server
    split
    · exact keeps_initRaftGroups spill rand s h
    · exact h

open Run (exec)

theorem stored_exec {start : Site} (h : Stored start.server) (events : List Event) :
    Stored (exec step start events).server :=
  Run.keeps_exec (I := fun s : Site => Stored s.server) stored_step events h

/-- **When a rebuild keeps the data.**

The new nodes take all that is in their files for committed, and the apply loop sets each of these
commands once more. After it the store has, for each key of the files, the value of its last command
there, and for each other key what it had. So the data are kept exactly if that value is the one
that the store has (`UpToDate`), and the files can be read and applied at all. -/
theorem rebuild_keeps_iff {start : Site} {m₀ : Bytes → Option RespValue}
    (hstart : start.server.kvstore.Contents m₀) (events : List Event) :
    let s := exec step start events
    s.Quiet → ∀ spill rand rand', s.KeepsData spill rand rand' ↔ s.UpToDate spill := by
  dsimp only
  intro hquiet spill rand rand'
  obtain ⟨m, hm⟩ := stored_exec ⟨m₀, hstart⟩ events
  exact keepsData_iff hm hquiet spill rand rand'

/-- A node that has just started, with no files. -/
def started : Site := ⟨alone, fun _ => [], []⟩

/-- The calls of a handler that sets `key`. -/
def setting (value : Bytes) : List Event :=
  [.push, .log, .store].map fun stage =>
    .handler ⟨.set (ascii "key") (.simpleString value), false, stage, true⟩

/-- The main loop, when one entry is pending. -/
def looping : List Event := [.tick 0 0, .take 0, .applyNext]

theorem rebuild_keeps_iff_setting :
    let s := exec step started (setting (ascii "1") ++ looping)
    s.KeepsData (fun _ _ => 0) (fun _ => 0) (fun _ => 0) ↔ s.UpToDate fun _ _ => 0 :=
  have hstart : started.server.kvstore.Contents fun _ => none := KVStore.contents_new
  rebuild_keeps_iff hstart (setting (ascii "1") ++ looping) (by decide +kernel) (fun _ _ => 0)
    (fun _ => 0) (fun _ => 0)

/-- Node 9 has joined. -/
def joined : Cluster :=
  (alone.cluster.addTopoNode ⟨ascii "127.0.0.1", 7801, 9⟩).addNodeToHash 9

/-- `key` is set to 1, node 9 joins, and `key` is set to 2 while its group has no leader. -/
def overwritten : Site :=
  exec step started (setting (ascii "1") ++ looping ++
    [.topology joined, .rebuild (fun _ _ => 0) fun _ => 0] ++ looping ++ setting (ascii "2"))

def Reads (s : Site) (value : Bytes) : Prop :=
  s.server.kvstore.Room (ascii "key") ∧
    (s.server.kvstore.lookup (ascii "key")).map (Option.map encode)
      = .ok (some (encode (.simpleString value)))

instance (s : Site) (value : Bytes) : Decidable (s.Reads value) :=
  inferInstanceAs (Decidable (_ ∧ _))

theorem Reads.contents {value : Bytes} {m : Bytes → Option RespValue} (h : s.Reads value)
    (hm : s.server.kvstore.Contents m) :
    (m (ascii "key")).map encode = some (encode (.simpleString value)) := by
  obtain ⟨hroom, hvalue⟩ := h
  rw [KVStore.lookup_room hm hroom] at hvalue
  exact Except.ok.inj hvalue

/-- The next rebuild puts 1 back. -/
theorem rebuild_undoes_set :
    overwritten.Quiet ∧ ¬ overwritten.KeepsData (fun _ _ => 0) (fun _ => 0) (fun _ => 0) := by
  have hrun : overwritten.Quiet ∧ overwritten.Reads (ascii "2") ∧
      (Method.call (do initRaftGroups (fun _ _ => 0) (fun _ => 0)
                       applyLoop fun _ => 0) overwritten).2.Reads (ascii "1") := by
    decide +kernel
  obtain ⟨hquiet, htwo, hone⟩ := hrun
  refine ⟨hquiet, fun ⟨s', hcall, _, hkept⟩ => ?_⟩
  obtain ⟨m, hm⟩ : Stored overwritten.server := stored_exec ⟨_, KVStore.contents_new⟩ _
  rw [hcall] at hone
  have hsame := (htwo.contents hm).symm.trans (hone.contents (hkept m hm))
  exact absurd hsame (by decide)

end Site
end Server
end KvJet
