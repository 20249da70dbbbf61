import KvJet.Server.Daemon
import KvJet.Store.Usable

/-!
# What the handlers keep

The handlers rely on things that no request is checked for: each table of the store has a bucket,
each LRU list knows its nodes, a leader has its two arrays, and the gossip cache is a map. It is so
on every server that is reached (`sound_exec`), whatever snapshot it has come up with and whatever
has been thrown on the way.

Nothing is asked of what the tables stand for. A snapshot may have left keys behind a gap, and no
handler looks whether it has.
-/

namespace KvJet
namespace Server

open Resp Store
open Raft (RaftNode Uuid)

/-- What the handlers rely on, and keep. -/
structure ServerState.Sound (s : ServerState) : Prop where
  kvstore : s.kvstore.Usable
  sturdy : ∀ g ∈ s.raftGroups, g.2.Sturdy

/-- The same of the whole server, whose gossip cache is a map as well: `findGossip` is asked whether
an id is there, and `addGossip` puts out the smallest one. -/
structure Daemon.Sound (d : Daemon) : Prop where
  server : d.server.Sound
  gossip : OrderedMap.Ordered d.gossip

/-! ## The handlers of data -/

section Keeping

variable {s : ServerState}

theorem ServerState.Sound.sturdy_of_lookup (h : s.Sound) {gid : Nat} {rn : RaftNode}
    (hlookup : s.raftGroups.lookup gid = some rn) : rn.Sturdy := by
  obtain ⟨before, after, hsplit, -⟩ := List.lookup_eq_some_iff.mp hlookup
  exact h.sturdy (gid, rn) (by rw [hsplit]; simp)

theorem ServerState.Sound.of_same {s' : ServerState} (h : s.Sound)
    (hstore : s'.kvstore = s.kvstore) (hgroups : s'.raftGroups = s.raftGroups) : s'.Sound where
  kvstore := hstore ▸ h.kvstore
  sturdy := hgroups ▸ h.sturdy

theorem keeps_onShard {α : Type} {key : Bytes} {mt : Method Fault (Shard RespValue) α}
    (hmt : Shard.Behaves mt) :
    Method.Keeps ServerState.Sound (onKVStore (KVStore.onShard key mt)) :=
  fun s h => ⟨KVStore.usable_onShard hmt s.kvstore h.kvstore, h.sturdy⟩

/-- The nodes of the groups after one of them has got a new state. -/
theorem sturdy_replaced {groups : List (Nat × RaftNode)} {gid : Nat} {rn : RaftNode}
    (h : ∀ g ∈ groups, g.2.Sturdy) (hrn : rn.Sturdy) :
    ∀ g ∈ groups.map fun g => if g.1 = gid then (gid, rn) else g, g.2.Sturdy := by
  intro g hg
  obtain ⟨g', hin, rfl⟩ := List.mem_map.mp hg
  split
  · exact hrn
  · exact h g' hin

theorem sound_propose (h : s.Sound) (gid : Nat) (cmd : Bytes) : (s.propose gid cmd).Sound := by
  unfold ServerState.propose
  cases hlookup : s.raftGroups.lookup gid with
  | none => exact h
  | some rn =>
    have hsturdy : (rn.propose cmd).1.Sturdy := (h.sturdy_of_lookup hlookup).propose cmd
    refine ServerState.Sound.of_same (s := { s with raftGroups := _ }) ?_
      (sameStore_sendAll (rn.propose cmd).2 _).kvstore (sendAll_raftGroups _ _)
    exact ⟨h.kvstore, sturdy_replaced h.sturdy hsturdy⟩

theorem keeps_proposeFor (key cmd : Bytes) :
    Method.Keeps ServerState.Sound (Handler.proposeFor key cmd) := by
  unfold Handler.proposeFor
  refine .bind .get fun s => .bind (.lift _) fun gid => ?_
  split
  · exact .pure _
  · exact .modify fun s h => sound_propose h _ cmd

theorem keeps_SET (request : RespValue) (due : Bool) :
    Method.Keeps ServerState.Sound (Handler.SET request due) := by
  unfold Handler.SET
  refine .bind (.lift _) fun elements => .ite (.throw _) (.bind (.lift _) fun key => ?_)
  split
  · rename_i key
    refine .bind .get fun s => .bind (.lift _) fun master => .ite (.bind (.lift _) fun _ => .pure _) ?_
    refine .bind (.lift _) fun value => .bind (.lift _) fun val => ?_
    refine .bind (keeps_proposeFor key _) fun _ => .bind ?_ fun _ => .bind (.lift _) fun value => ?_
    · exact fun s h => h.of_same rfl rfl
    · exact .bind (keeps_onShard (Shard.behaves_set key value)) fun _ => .pure _
  · exact .throw _

theorem keeps_DEL (request : RespValue) (due : Bool) :
    Method.Keeps ServerState.Sound (Handler.DEL request due) := by
  unfold Handler.DEL
  refine .bind (.lift _) fun elements => .ite (.throw _) (.bind (.lift _) fun key => ?_)
  dsimp only
  split
  · rename_i key
    refine .bind .get fun s => .bind (.lift _) fun master => .ite (.bind (.lift _) fun _ => .pure _) ?_
    refine .bind (keeps_proposeFor key _) fun _ => .bind ?_ fun _ => ?_
    · exact fun s h => h.of_same rfl rfl
    · exact .bind (keeps_onShard (Shard.behaves_del key)) fun _ => .pure _
  · exact .throw _

theorem keepsSound_GET (request : RespValue) :
    Method.Keeps ServerState.Sound (Handler.GET request) := by
  unfold Handler.GET
  refine .bind (.lift _) fun elements => .ite (.throw _) (.bind (.lift _) fun key => ?_)
  split
  · exact .bind (keeps_onShard (Shard.read_getValue _).1) fun result => .ite (.pure _) (.pure _)
  · exact .throw _

theorem keepsSound_EXIST (request : RespValue) :
    Method.Keeps ServerState.Sound (Handler.EXIST request) := by
  unfold Handler.EXIST
  refine .bind (.lift _) fun elements => .ite (.throw _) (.bind (.lift _) fun key => ?_)
  split
  · exact .bind (keeps_onShard (Shard.read_get _).1) fun ret => .pure _
  · exact .throw _

theorem keeps_handleNoAOF (request : RespValue) :
    Method.Keeps ServerState.Sound (Handler.handleNoAOF request) := by
  unfold Handler.handleNoAOF
  split
  · exact .throw _
  · exact .throw _
  · refine .ite (keepsSound_GET _) (.ite ?_ (.ite ?_ (.ite (keepsSound_EXIST _) (.throw _))))
    · unfold Handler.SETNoAOF
      refine .bind (.lift _) fun elements => .ite (.throw _) (.bind (.lift _) fun key => ?_)
      refine .bind (.lift _) fun value => ?_
      split
      · exact .bind (keeps_onShard (Shard.behaves_set _ value)) fun _ => .pure _
      · exact .throw _
    · unfold Handler.DELNoAOF
      refine .bind (.lift _) fun elements => .ite (.throw _) (.bind (.lift _) fun key => ?_)
      split
      · exact .bind (keeps_onShard (Shard.behaves_del _)) fun _ => .pure _
      · exact .throw _
  · exact .throw _
  · exact .throw _

end Keeping

namespace Daemon

variable {d : Daemon}

/-! ## All handlers

Each handler is made of calls that keep what is asked for, so it keeps it, wherever it stops. -/

-- 160 points once more
attribute [local irreducible] Cluster.addNodeToHash Cluster.delNodeToHash

theorem Sound.of_same {d' : Daemon} (h : d.Sound) (hstore : d'.kvstore = d.kvstore)
    (hgroups : d'.raftGroups = d.raftGroups) (hgossip : d'.gossip = d.gossip) : d'.Sound :=
  ⟨h.server.of_same hstore hgroups, hgossip ▸ h.gossip⟩

theorem Sound.of_beside {d' : Daemon} (h : d.Sound) (hbeside : Beside d d') : d'.Sound :=
  h.of_same hbeside.kvstore hbeside.raftGroups hbeside.gossip

theorem Sound.addGossip (h : d.Sound) (now id : UInt64) :
    Sound { d with gossip := d.gossip.addGossip now id } :=
  ⟨h.server.of_same rfl rfl, GossipCache.ordered_addGossip h.gossip⟩

/-- The node of a group is another one. -/
theorem Sound.withNode (h : d.Sound) {gid : Nat} {rn : RaftNode}
    (hrn : rn.Sturdy) : (d.withNode gid rn).Sound :=
  ⟨⟨h.server.kvstore, sturdy_replaced h.server.sturdy hrn⟩, h.gossip⟩

theorem keeps_onServer {α : Type} {m : ServerM α} (hm : Method.Keeps ServerState.Sound m) :
    Method.Keeps Sound (onServer m) := by
  intro d h
  exact ⟨(hm d.server h.server).of_same rfl rfl, h.gossip⟩

theorem keeps_join (node : ClusterNode) : Method.Keeps Sound (join node) := by
  intro d h
  obtain ⟨d', hcall, hbeside, -⟩ := call_join node d
  rw [hcall]
  exact h.of_beside hbeside

theorem keeps_firstSight (fault : String) (elements : Elements) (now : UInt64) :
    Method.Keeps Sound (firstSight fault elements now) := by
  unfold firstSight
  refine .bind (.lift _) fun id => ?_
  split
  · exact .bind .get fun d => .ite (.pure _) (.bind (.modify fun d h => h.addGossip now _) fun _ =>
      .pure _)
  · exact .throw _

theorem keeps_relaying {arity fault : String} {own : RespValue → DaemonM Bytes}
    (hown : ∀ v, Method.Keeps Sound (own v)) (request : RespValue) (now : UInt64) :
    Method.Keeps Sound (relaying arity fault own request now) := by
  unfold relaying
  refine .bind (.lift _) fun elements => .ite (.throw _) ?_
  refine .bind (keeps_firstSight _ elements now) fun isNew => .ite (.pure _) ?_
  refine .bind (.lift _) fun text => .bind ?_ fun _ => .bind (.lift _) hown
  exact .modify fun d h => h.of_beside (beside_pushAll d _)

theorem keeps_welcome (v : RespValue) : Method.Keeps Sound (welcome v) :=
  .bind (.lift _) fun node => .bind (keeps_join node) fun _ => .pure _

theorem keeps_farewell (v : RespValue) : Method.Keeps Sound (farewell v) := by
  unfold farewell
  split
  · exact .bind (.modify fun d h => h.of_same rfl rfl rfl) fun _ => .pure _
  · exact .throw _

theorem beside_sendAll (msgs : List Raft.RaftMessage) : ∀ d : Daemon,
    Beside d (msgs.foldl sendCb d) := by
  induction msgs with
  | nil => exact fun d => ⟨rfl, rfl, rfl, rfl, rfl, rfl⟩
  | cons msg msgs ih =>
    intro d
    have hone : Beside d (d.sendCb msg) := by
      unfold sendCb
      dsimp only
      split <;> exact ⟨rfl, rfl, rfl, rfl, rfl, rfl⟩
    exact hone.trans (ih (d.sendCb msg))

theorem keeps_handleRaft (name : Bytes) (args : List RespValue) (fd : Int) (r : Reading) :
    Method.Keeps Sound (handleRaft (requestOf name args) fd r) := by
  intro d h
  by_cases hgroup : ∀ gid ∈ args.head?, d.raftGroups.lookup (groupOf gid).toNat = none
  · rw [handleRaft_ignored fd r hgroup]
    exact h
  · cases args with
    | nil => exact absurd nofun hgroup
    | cons gid args =>
      have hsome : d.raftGroups.lookup (groupOf gid).toNat ≠ none := by simpa using hgroup
      obtain ⟨rn, hlookup⟩ := Option.ne_none_iff_exists'.mp hsome
      obtain ⟨times, hbeat⟩ := d.updateHeartbeat_eq fd r.now
      rw [call_handleRaft fd r hlookup, hbeat]
      have hbeaten : Sound { d with heartbeatTime := times } := h.of_same rfl rfl rfl
      -- a broken text may have changed the node as well, so both outcomes need its arrays
      have hsturdy := (h.server.sturdy_of_lookup hlookup).stepText none
        (d.peers.getUuidByFd fd) (encode (requestOf name (gid :: args))) r.rand
      dsimp only
      split
      · rename_i msgs _
        exact (hbeaten.withNode hsturdy).of_beside (beside_sendAll msgs _)
      · exact hbeaten.withNode hsturdy

theorem sound_handle (h : d.Sound) (request : RespValue) (fd : Int) (r : Reading) :
    ((handle request fd r).call d).2.Sound := by
  obtain ⟨m, hm, hcall⟩ := call_handle request fd r d
  rw [hcall]
  -- the first five do not touch the server
  cases hm with
  | nil | refused _ _ _ _ | ok | loading _ _ _ _ | network _ => exact h
  | syncdone args =>
    cases args with
    | nil => exact h
    | cons x rest => exact h.of_same rfl rfl rfl
  | heartbeat args =>
    obtain ⟨times, hbeat⟩ := d.updateHeartbeat_eq fd r.now
    show (d.updateHeartbeat fd r.now).Sound
    rw [hbeat]
    exact h.of_same rfl rfl rfl
  | raft name args _ => exact keeps_handleRaft name args fd r d h
  | get args _ => exact keeps_onServer (keepsSound_GET _) d h
  | set args _ => exact keeps_onServer (keeps_SET _ _) d h
  | del args _ => exact keeps_onServer (keeps_DEL _ _) d h
  | exist args _ => exact keeps_onServer (keepsSound_EXIST _) d h
  | nodein args => exact keeps_relaying keeps_welcome _ r.now d h
  | nodeout args => exact keeps_relaying keeps_farewell _ r.now d h
  | hello args =>
    rcases args with _ | ⟨x, _ | ⟨y, rest⟩⟩
    · exact h
    · cases x with
      | simpleString uuid => exact h.of_same rfl rfl rfl
      | error _ | integer _ | bulkString _ | array _ => exact h
    · exact h

/-! ## Every reachable server -/

/-- A node of Raft that has just come up, with any log file. -/
def Restored (rn : RaftNode) : Prop :=
  ∃ groupId selfId peers file rand, RaftNode.restore groupId selfId peers file rand = .ok rn

/-- The constructor has read the snapshot, and is about to read the append-only file. The snapshot
may be of any server, and may have been cut off, as long as the read returns. That no file is one
of a table without buckets is what `KVStore.Usable.bucketed` says of every file that a server has
written. -/
structure Started (d : Daemon) : Prop where
  kvstore : ∃ n maxsz dir, n ≠ 0 ∧ KVStore.Bucketed dir ∧
    (KVStore.readfromfile dir).call (KVStore.withCapacity n maxsz) = (.ok (), d.kvstore)
  raftGroups : d.raftGroups = []
  gossip : d.gossip = []

inductive Event where
  /-- A worker handles a request. -/
  | handle (request : RespValue) (fd : Int) (r : Reading)
  /-- A command of the append-only file, or of a log. -/
  | handleNoAOF (request : RespValue)
  | tick (gid rand : Nat)
  | takePendingApply (gid : Nat)
  | initRaftGroups (groups : List (Nat × RaftNode)) (hgroups : ∀ g ∈ groups, Restored g.2)
      (masterToGroup : List (Uuid × Nat)) (groupMembers : List (UInt64 × List Uuid))
  /-- The id of a message of its own. -/
  | addGossip (now id : UInt64)
  /-- A worker sends a node that has just been dialled what belongs to it. -/
  | sendDataToNode (target : Uuid)
  /-- The main loop takes the first message off the queue. -/
  | pop
  /-- What connections and timeouts make of the view of the cluster, and joining of the flag and its
  count. -/
  | topology (cluster : Cluster) (fdToUuid : List (Int × Uuid))
      (heartbeatTime : List (Uuid × UInt64)) (syncing : Bool) (pendingSyncNodes : Int32)

def step (d : Daemon) : Event → Daemon
  | .handle request fd r => d.serve request fd r
  | .handleNoAOF request => ((onServer (Handler.handleNoAOF request)).call d).2
  | .tick gid rand =>
    match d.raftGroups.lookup gid with
    | none => d
    | some rn => (rn.tick64 rand).2.foldl sendCb (d.withNode gid (rn.tick64 rand).1)
  | .takePendingApply gid =>
    match d.raftGroups.lookup gid with
    | none => d
    | some rn => d.withNode gid rn.takePendingApply.1
  | .initRaftGroups groups _ masterToGroup groupMembers =>
    { d with raftGroups := groups, masterToGroup, groupMembers }
  | .addGossip now id => { d with gossip := d.gossip.addGossip now id }
  | .sendDataToNode target => ((sendDataToNode target).call d).2
  | .pop => { d with messageQueue := d.messageQueue.tail }
  | .topology cluster fdToUuid heartbeatTime syncing pendingSyncNodes =>
    { d with cluster, fdToUuid, heartbeatTime, syncing, pendingSyncNodes }

theorem Started.sound (h : d.Started) : d.Sound := by
  obtain ⟨n, maxsz, dir, hn, hdir, hread⟩ := h.kvstore
  refine ⟨⟨KVStore.usable_readfromfile hn hdir hread, fun g hg => ?_⟩, ?_⟩
  · rw [show d.server.raftGroups = d.raftGroups from rfl, h.raftGroups] at hg
    exact absurd hg List.not_mem_nil
  · rw [h.gossip]
    exact OrderedMap.ordered_nil

theorem sound_serve (h : d.Sound) (request : RespValue) (fd : Int) (r : Reading) :
    (d.serve request fd r).Sound := by
  have hkept := sound_handle h request fd r
  unfold serve
  split
  · rename_i hcall
    rwa [hcall] at hkept
  · rename_i hcall
    rw [hcall] at hkept
    exact hkept.of_beside (beside_push _ _ _)
  · rename_i hcall
    rwa [hcall] at hkept

theorem sound_step (h : d.Sound) (e : Event) : (d.step e).Sound := by
  cases e with
  | handle request fd r => exact sound_serve h request fd r
  | handleNoAOF request => exact keeps_onServer (keeps_handleNoAOF request) d h
  | tick gid rand =>
    unfold step
    dsimp only
    split
    · exact h
    · rename_i rn hlookup
      have hsturdy := (h.server.sturdy_of_lookup hlookup).tick64 rand
      exact (h.withNode hsturdy).of_beside (beside_sendAll _ _)
  | takePendingApply gid =>
    unfold step
    dsimp only
    split
    · exact h
    · rename_i rn hlookup
      -- only `lastApplied` is written
      have hsturdy := h.server.sturdy_of_lookup hlookup
      refine h.withNode ⟨fun hlead => ?_, hsturdy.rooted⟩
      exact ⟨(hsturdy.slotted hlead).nextIndex, (hsturdy.slotted hlead).matchIndex⟩
  | initRaftGroups groups hgroups masterToGroup groupMembers =>
    refine ⟨⟨h.server.kvstore, fun g hg => ?_⟩, h.gossip⟩
    obtain ⟨groupId, selfId, peers, file, rand, hrestore⟩ := hgroups g hg
    exact RaftNode.sturdy_restore hrestore
  | addGossip now id => exact h.addGossip now id
  | sendDataToNode target =>
    -- whether it gets through the store or not, it only adds to the queue
    exact h.of_beside (beside_pushAll d _)
  | pop => exact h.of_same rfl rfl rfl
  | topology cluster fdToUuid heartbeatTime syncing pendingSyncNodes => exact h.of_same rfl rfl rfl

/-- **Every server that is reached** is sound: `Started` is, and no event takes away a bucket, an
entry of an index or the arrays of a leader.

What a handler has done when it throws stays, so each is taken apart into its calls, and each call
keeps what it needs itself: the tables are only ever replaced bucket by bucket or by larger ones,
and a leader's arrays are made when it comes to lead. -/
theorem sound_exec (h : d.Sound) (es : List Event) : (Run.exec step d es).Sound :=
  Run.keeps_exec (I := Sound) (fun _ e h => sound_step h e) es h

end Daemon
end Server
end KvJet
