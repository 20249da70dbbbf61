import KvJet.Server.Safe

/-!
# A request that fails

A request that is answered with an exception should have changed nothing: the store, the buffer of
the append-only file, the logs of Raft, the gossip cache, the ring, the topology, the connections
and the queue are what they were. Of a request that does something undefined nothing can be said, so
those go first (`Harmless`). Of the others two kinds are not so (`failing_unchanged_iff`).

* A `NODEIN` or a `NODEOUT` is put into the cache and sent on before what it says of the node is
  looked at (`Forwarded`).
* A `SET` is given to Raft, logged, and put into the table of its shard before it turns out that
  there is no room for the key (`HalfSet`).

Every other handler looks at all of its arguments before its first effect, and a message of Raft
that cannot be read moves at most the term, the vote and the role of its node.
-/

namespace KvJet
namespace Server

open Resp Store
open OrderedMap (Ordered)
open Raft (RaftNode Uuid)

/-! ## An id that is put out at once

A full cache puts out its smallest id, which may be the one that has just come in. Then the message
leaves no trace in the cache. -/

namespace GossipCache

variable {cache : GossipCache} {now id : UInt64}

/-- The cache is full of later ids that are not old. -/
def PutsOut (cache : GossipCache) (now id : UInt64) : Prop :=
  gossipCacheSize ≤ cache.length ∧ ∀ entry ∈ cache, id < entry.1 ∧ expired now entry = false

theorem stamp_eq_cons (h : ∀ entry ∈ cache, id < entry.1 ∧ expired now entry = false) :
    cache.stamp now id = (id, now) :: cache := by
  have hassign : assign id now cache = (id, now) :: cache := by
    cases cache with
    | nil => rfl
    | cons entry rest => exact if_pos (h entry List.mem_cons_self).1
  unfold stamp
  rw [hassign, List.filter_eq_self.mpr]
  intro entry hentry
  rcases List.mem_cons.mp hentry with rfl | hold
  · simp [expired]
  · simp [(h entry hold).2]

/-- A new id leaves the cache as it was if it is put out at once, and only then. -/
theorem addGossip_eq_self_iff (h : Ordered cache) (hnew : cache.findGossip id = false) :
    cache.addGossip now id = cache ↔ cache.PutsOut now id := by
  constructor
  · intro hsame
    have hin : (id, now) ∈ cache.stamp now id := (mem_stamp h).mpr (Or.inl rfl)
    have hout : (id, now) ∉ cache := fun hold => by
      rw [(findGossip_eq_true h).mpr ⟨now, hold⟩] at hnew
      exact nomatch hnew
    unfold addGossip at hsame
    dsimp only at hsame
    split at hsame
    · -- the oldest id went out, and the new one must have been it
      rename_i hsize
      have hordered : Ordered (cache.stamp now id) := ordered_stamp h
      have hkept : ∀ entry ∈ cache, entry ∈ cache.stamp now id := fun entry hentry =>
        List.mem_of_mem_tail (by rwa [hsame])
      cases hstamp : cache.stamp now id with
      | nil =>
        rw [hstamp] at hin
        exact absurd hin List.not_mem_nil
      | cons first rest =>
        rw [hstamp] at hsame hin hsize hordered
        obtain rfl : rest = cache := hsame
        obtain rfl : first = (id, now) := ((List.mem_cons.mp hin).resolve_right hout).symm
        refine ⟨Nat.le_of_lt_succ hsize, fun entry hentry => ⟨?_, ?_⟩⟩
        · exact (List.pairwise_cons.mp hordered).1 entry hentry
        · rcases (mem_stamp h).mp (hkept entry hentry) with rfl | ⟨-, -, hfresh⟩
          · exact absurd hentry hout
          · exact hfresh
    · rw [hsame] at hin
      exact absurd hin hout
  · rintro ⟨hsize, hlater⟩
    unfold addGossip
    rw [stamp_eq_cons hlater]
    exact if_pos (Nat.lt_succ_of_le hsize)

end GossipCache

namespace Daemon

/-! ## What may not have changed -/

structure Unchanged (d d' : Daemon) : Prop where
  kvstore : d'.kvstore = d.kvstore
  buffer : d'.aof.buffer = d.aof.buffer
  /-- Of every group, the log and what has been written to its file. -/
  logs : ∀ gid, (d'.raftGroups.lookup gid).map (fun rn => (rn.log, rn.disk))
    = (d.raftGroups.lookup gid).map fun rn => (rn.log, rn.disk)
  gossip : d'.gossip = d.gossip
  nodeHash : d'.cluster.nodeHash = d.cluster.nodeHash
  topo : d'.cluster.topo = d.cluster.topo
  peers : d'.peers = d.peers
  messageQueue : d'.messageQueue = d.messageQueue

theorem Unchanged.refl (d : Daemon) : Unchanged d d :=
  ⟨rfl, rfl, fun _ => rfl, rfl, rfl, rfl, rfl, rfl⟩

/-- Where the call throws, it has changed nothing of this. -/
def Atomic (m : DaemonM Bytes) (d : Daemon) : Prop :=
  ∀ what, (m.call d).1 = .error (.exception what) → Unchanged d (m.call d).2

variable {d : Daemon}

theorem atomic_of_inert {m : DaemonM Bytes} (h : Inert m d) : Atomic m d := by
  intro what he
  rw [(h _ he).2]
  exact Unchanged.refl d

theorem atomic_of_ok {m : DaemonM Bytes} {reply : Bytes} (h : (m.call d).1 = .ok reply) :
    Atomic m d := by
  intro what he
  exact nomatch h.symm.trans he

theorem atomic_of_refused {m : DaemonM Bytes} {what : String}
    (h : m.call d = (.error (.exception what), d)) : Atomic m d := by
  intro _ _
  rw [h]
  exact Unchanged.refl d

/-! ## Gossip -/

/-- The third element of a message of gossip is not what its handler takes it for. -/
inductive Unreadable : Bytes → RespValue → Prop
  | node (v : RespValue) (h : ¬ IsNode v) : Unreadable (ascii "NODEIN") v
  | uuid (v : RespValue) (h : ∀ nodeId, v ≠ .simpleString nodeId) : Unreadable (ascii "NODEOUT") v

/-- A message about a node that cannot be read is in the cache and on its way to the others. -/
def Forwarded (d : Daemon) (r : Reading) (request : RespValue) : Prop :=
  ∃ name uuid v, request = requestOf name [.simpleString uuid, v] ∧ Unreadable name v ∧
    d.gossip.findGossip (toUint64 uuid) = false ∧
    (d.cluster.connections ≠ [] ∨ ¬ d.gossip.PutsOut r.now (toUint64 uuid))

theorem unchanged_relay_iff (h : Ordered d.gossip) {now id : UInt64} (text : Bytes)
    (hnew : d.gossip.findGossip id = false) :
    Unchanged d (d.relay now id text) ↔
      d.cluster.connections = [] ∧ d.gossip.PutsOut now id := by
  rw [← GossipCache.addGossip_eq_self_iff h hnew]
  constructor
  · intro hsame
    refine ⟨?_, hsame.gossip⟩
    have hqueue : d.messageQueue ++ _ = d.messageQueue := hsame.messageQueue
    simpa using hqueue
  · rintro ⟨hnone, hcache⟩
    refine ⟨rfl, rfl, fun _ => rfl, hcache, rfl, rfl, rfl, ?_⟩
    show d.messageQueue ++ _ = d.messageQueue
    simp [hnone]

/-- The message has been sent on when it throws. -/
theorem atomic_iff_of_relay {m : DaemonM Bytes} {r : Reading} {uuid text : Bytes} {what : String}
    (h : Ordered d.gossip) (hnew : d.gossip.findGossip (toUint64 uuid) = false)
    (hcall : m.call d = (.error (.exception what), d.relay r.now (toUint64 uuid) text)) :
    Atomic m d ↔
      ¬ (d.cluster.connections ≠ [] ∨ ¬ d.gossip.PutsOut r.now (toUint64 uuid)) := by
  rw [not_or, not_not, not_not, ← unchanged_relay_iff h text hnew]
  unfold Atomic
  rw [hcall]
  exact ⟨fun hall => hall what rfl, fun hsame _ _ => hsame⟩

/-- What is a handler's own returns where the third element can be read, and throws at once where it
cannot. -/
structure Reads (name : Bytes) (own : RespValue → DaemonM Bytes) : Prop where
  readable : ∀ v, ¬ Unreadable name v → ∀ d, ∃ d', (own v).call d = (.ok [], d')
  unreadable : ∀ v, Unreadable name v → ∃ what, ∀ d, (own v).call d = (.error (.exception what), d)

theorem atomic_relaying_iff {name : Bytes} {arity fault : String} {own : RespValue → DaemonM Bytes}
    (hown : Reads name own) (h : Ordered d.gossip) (args : List RespValue) (r : Reading) :
    Atomic (relaying arity fault own (requestOf name args) r.now) d ↔
      ¬ d.Forwarded r (requestOf name args) := by
  by_cases hform : ∃ uuid v, args = [.simpleString uuid, v]
  · obtain ⟨uuid, v, rfl⟩ := hform
    have hforwarded : d.Forwarded r (requestOf name [.simpleString uuid, v]) ↔
        Unreadable name v ∧ d.gossip.findGossip (toUint64 uuid) = false ∧
          (d.cluster.connections ≠ [] ∨ ¬ d.gossip.PutsOut r.now (toUint64 uuid)) := by
      constructor
      · rintro ⟨name', uuid', v', heq, hbroken, hnew, hleft⟩
        obtain ⟨rfl, ⟨rfl⟩, rfl, -⟩ :
            name = name' ∧ RespValue.simpleString uuid = .simpleString uuid' ∧ v = v' ∧ True := by
          simpa [requestOf] using heq
        exact ⟨hbroken, hnew, hleft⟩
      · rintro ⟨hbroken, hnew, hleft⟩
        exact ⟨name, uuid, v, rfl, hbroken, hnew, hleft⟩
    rw [hforwarded]
    cases hfind : d.gossip.findGossip (toUint64 uuid) with
    | true =>
      refine iff_of_true (atomic_of_ok (congrArg Prod.fst (relaying_known hfind v r.now))) ?_
      exact fun hleft => Bool.noConfusion hleft.2.1
    | false =>
      by_cases hbroken : Unreadable name v
      · obtain ⟨what, hthrows⟩ := hown.unreadable v hbroken
        have hcall : (relaying arity fault own (requestOf name [.simpleString uuid, v]) r.now).call d
            = (own v).call (d.relay r.now (toUint64 uuid) (encode (requestOf name _))) :=
          relaying_new hfind v r.now
        rw [hthrows] at hcall
        refine (atomic_iff_of_relay h hfind hcall).trans (not_congr ?_)
        exact ⟨fun hleft => ⟨hbroken, rfl, hleft⟩, fun hleft => hleft.2.2⟩
      · obtain ⟨d', hreturns⟩ := hown.readable v hbroken
          (d.relay r.now (toUint64 uuid) (encode (requestOf name [.simpleString uuid, v])))
        have hcall : (relaying arity fault own (requestOf name [.simpleString uuid, v]) r.now).call d
            = (own v).call (d.relay r.now (toUint64 uuid) (encode (requestOf name _))) :=
          relaying_new hfind v r.now
        rw [hreturns] at hcall
        refine iff_of_true (atomic_of_ok (congrArg Prod.fst hcall)) ?_
        exact fun hleft => hbroken hleft.1
  · obtain ⟨what, hcall⟩ : ∃ what,
        (relaying arity fault own (requestOf name args) r.now).call d = _ :=
      relaying_malformed (fun uuid v heq => hform ⟨uuid, v, heq⟩) r.now d
    refine iff_of_true (atomic_of_refused hcall) ?_
    rintro ⟨name', uuid, v, heq, -⟩
    exact hform ⟨uuid, v, (requestOf_inj heq).2⟩

theorem reads_welcome : Reads (ascii "NODEIN") welcome where
  readable v hyes d := by
    have hok := (getNode_isOk_iff v).mpr (not_not.mp fun hnot => hyes (.node v hnot))
    obtain ⟨node, hnode⟩ := Except.exists_of_isOk hok
    obtain ⟨d', hjoin, -⟩ := call_join node d
    refine ⟨d', ?_⟩
    rw [welcome, hnode, Method.call_bind_ok (Method.call_lift _ d), Method.call_bind_ok hjoin]
    rfl
  unreadable v hbroken := by
    have hnot : ¬ IsNode v := by
      generalize hname : ascii "NODEIN" = name at hbroken
      cases hbroken with
      | node _ hnot => exact hnot
      | uuid _ _ => exact absurd hname (by decide)
    cases hread : getNode v with
    | ok node => exact absurd ((getNode_isOk_iff v).mp (by rw [hread]; rfl)) hnot
    | error e =>
      cases e with
      | undefined what => exact absurd trivial (safe_getNode v _ hread)
      | exception what =>
        refine ⟨what, fun d => ?_⟩
        rw [welcome, hread, Method.call_bind_error (Method.call_lift _ d)]

theorem reads_farewell : Reads (ascii "NODEOUT") farewell where
  readable v hyes d := by
    cases v with
    | simpleString nodeId => exact ⟨_, rfl⟩
    | error _ | integer _ | bulkString _ | array _ => exact absurd (.uuid _ nofun) hyes
  unreadable v hbroken := by
    have hnot : ∀ nodeId, v ≠ .simpleString nodeId := by
      generalize hname : ascii "NODEOUT" = name at hbroken
      cases hbroken with
      | node _ _ => exact absurd hname (by decide)
      | uuid _ hnot => exact hnot
    cases v with
    | simpleString nodeId => exact absurd rfl (hnot nodeId)
    | error _ | integer _ | bulkString _ | array _ => exact ⟨_, fun d => rfl⟩

end Daemon

/-! ## `SET`

The one handler with several effects and a last one that can throw. -/

/-- The group of the key is on this node, and this node leads it. -/
def ServerState.Leads (s : ServerState) (key : Bytes) : Prop :=
  ∃ gid rn, s.getGroupForKey key = .ok (some gid) ∧ s.raftGroups.lookup gid = some rn ∧
    rn.state = .leader

/-- A text goes through the empty buffer, straight to the file. -/
def AOF.PassesOn (a : AOF) (text : Bytes) (due : Bool) : Prop :=
  a.buffer = [] ∧ (due = true ∨ aofBufferSize < text.length)

section Set

variable {s : ServerState}

/-- Where this node does not lead the group of the key, nothing is proposed. -/
theorem propose_not_leader {gid : Nat} {rn : RaftNode} (hlookup : s.raftGroups.lookup gid = some rn)
    (hstate : rn.state ≠ .leader) (cmd : Bytes) :
    (s.propose gid cmd).messageQueue = s.messageQueue ∧
      ∀ k, (s.propose gid cmd).raftGroups.lookup k = s.raftGroups.lookup k := by
  have hpropose : rn.propose cmd = (rn, []) := if_pos hstate
  unfold ServerState.propose
  rw [hlookup]
  dsimp only
  rw [hpropose]
  refine ⟨rfl, fun k => (lookup_replaced gid k rn s.raftGroups).trans ?_⟩
  split
  · rename_i hk
    rw [hk, hlookup]
    rfl
  · rfl

theorem call_proposeFor_cases {key : Bytes} {owner : Uuid}
    (howner : s.cluster.queryNode key = .ok owner) (cmd : Bytes) :
    ∃ s', (Handler.proposeFor key cmd).call s = (.ok (), s') ∧ SameStore s s' ∧
      (¬ s.Leads key → s'.messageQueue = s.messageQueue ∧
        ∀ k, s'.raftGroups.lookup k = s.raftGroups.lookup k) ∧
      (s.Leads key → ∃ gid rn rn', s.raftGroups.lookup gid = some rn ∧
        s'.raftGroups.lookup gid = some rn' ∧ rn'.log ≠ rn.log) := by
  cases hgroup : s.getGroupForKey key with
  | error e =>
    rw [ServerState.getGroupForKey, howner] at hgroup
    exact absurd hgroup (by simp [bind, Except.bind, pure, Except.pure])
  | ok group =>
    cases group with
    | none =>
      refine ⟨s, ?_, ⟨rfl, rfl, rfl⟩, fun _ => ⟨rfl, fun _ => rfl⟩, ?_⟩
      · rw [Handler.proposeFor, Method.call_bind_ok (Method.call_get s), hgroup,
          Method.call_bind_ok (Method.call_lift _ s)]
        rfl
      · rintro ⟨gid, rn, hgid, -⟩
        exact absurd (hgroup.symm.trans hgid) (by simp)
    | some gid =>
      refine ⟨_, call_proposeFor_group hgroup cmd, sameStore_propose s gid cmd, ?_, ?_⟩
      · intro hnot
        cases hlookup : s.raftGroups.lookup gid with
        | none =>
          unfold ServerState.propose
          rw [hlookup]
          exact ⟨rfl, fun _ => rfl⟩
        | some rn =>
          exact propose_not_leader hlookup (fun hlead => hnot ⟨gid, rn, hgroup, hlookup, hlead⟩) cmd
      · rintro ⟨gid', rn, hgid, hlookup, hlead⟩
        obtain rfl : gid = gid' := Option.some.inj (Except.ok.inj (hgroup.symm.trans hgid))
        refine ⟨gid, rn, _, hlookup, propose_raftGroups hlookup cmd, ?_⟩
        rw [(propose_leader hlead cmd).1]
        simp

theorem call_append_buffer {elements : Elements} {text : Bytes}
    (h : encodeRequest elements = .ok text) (htext : text ≠ []) (due : Bool) (a : AOF) :
    ∃ a', (AOF.append elements due).call a = (.ok (), a') ∧
      (a'.buffer = a.buffer ↔ a.PassesOn text due) := by
  rw [AOF.append, h, Method.call_bind_ok (Method.call_lift _ a),
    Method.call_bind_ok (Method.call_modify _ a), Method.call_bind_ok (Method.call_get _)]
  have hflush : a.buffer = [] →
      (((a.buffer ++ text).length > aofBufferSize || due) = true ↔
        due = true ∨ aofBufferSize < text.length) := by
    intro hempty
    rw [hempty, List.nil_append, Bool.or_eq_true, decide_eq_true_eq, or_comm]
  split
  · rename_i hyes
    refine ⟨_, rfl, fun hsame => ⟨hsame.symm, (hflush hsame.symm).mp hyes⟩, fun h => h.1.symm⟩
  · rename_i hno
    refine ⟨_, rfl, fun hsame => absurd ?_ htext, fun h => absurd ((hflush h.1).mpr h.2) hno⟩
    exact List.append_right_eq_self.mp hsame

/-- **`SET` on the master**, part by part. -/
theorem call_set_parts (key : Bytes) (value : RespValue)
    (hmaster : s.cluster.isMasterFor key = .ok true) (hvalue : value ≠ .bulkString none)
    (due : Bool) :
    ∃ s' a, ((Write.set key value).handle due).call s
        = (((KVStore.set key value).call s.kvstore).1.map fun _ => Handler.okReply,
            { s' with aof := a, kvstore := ((KVStore.set key value).call s.kvstore).2 }) ∧
      SameStore s s' ∧
      (¬ s.Leads key → s'.messageQueue = s.messageQueue ∧
        ∀ k, s'.raftGroups.lookup k = s.raftGroups.lookup k) ∧
      (s.Leads key → ∃ gid rn rn', s.raftGroups.lookup gid = some rn ∧
        s'.raftGroups.lookup gid = some rn' ∧ rn'.log ≠ rn.log) ∧
      (a.buffer = s.aof.buffer ↔ s.aof.PassesOn (encode (Write.set key value).request) due) := by
  obtain ⟨owner, howner⟩ := queryNode_of_isMasterFor hmaster
  obtain ⟨text, htext⟩ := Write.exists_text key hvalue
  obtain ⟨s₁, hprop, hsame, hquiet, hloud⟩ := call_proposeFor_cases howner text
  obtain ⟨a, happ, hbuffer⟩ := call_append_buffer
    (encodeRequest_whole [.simpleString (ascii "SET"), .simpleString key, value])
    (encode_ne_nil _) due s.aof
  refine ⟨s₁, a, ?_, hsame, hquiet, hloud, hbuffer⟩
  have hlogged : (onAOF (AOF.append (Write.set key value).logged due)).call s₁
      = (.ok (), { s₁ with aof := a }) := by
    rw [onAOF, Method.call_part, hsame.aof]
    exact congrArg (fun out => (out.1, { s₁ with aof := out.2 })) happ
  rw [handle_set key value hmaster htext, Method.call_bind_ok hprop, Method.call_bind_ok hlogged,
    call_onKVStore, hsame.kvstore]

end Set

namespace Daemon

variable {d : Daemon}

/-- A `SET` that finds no room for its key, and has left something behind. -/
def HalfSet (d : Daemon) (r : Reading) (request : RespValue) : Prop :=
  ∃ key value, request = (Write.set key value).request ∧ d.syncing = false ∧
    d.cluster.isMasterFor key = .ok true ∧ value ≠ .bulkString none ∧ d.kvstore.Misses key ∧
    (d.server.Leads key ∨ ¬ d.aof.PassesOn (encode request) r.due ∨ ¬ d.kvstore.Spared key value)

/-- What `SET` on the master has done when the store throws. -/
theorem atomic_set_iff (h : d.server.Sound) (key : Bytes) (value : RespValue) (due : Bool)
    (hmaster : d.cluster.isMasterFor key = .ok true) (hvalue : value ≠ .bulkString none) :
    Atomic (onServer ((Write.set key value).handle due)) d ↔
      ¬ (d.kvstore.Misses key ∧ (d.server.Leads key ∨
        ¬ d.aof.PassesOn (encode (Write.set key value).request) due ∨
        ¬ d.kvstore.Spared key value)) := by
  obtain ⟨s₁, a, hcall, hsame, hquiet, hloud, hbuffer⟩ :=
    call_set_parts (s := d.server) key value hmaster hvalue due
  rw [show d.server.kvstore = d.kvstore from rfl] at hcall
  have hthrows : (∃ e, ((KVStore.set key value).call d.kvstore).1 = .error e) ↔
      d.kvstore.Misses key := h.kvstore.set_throws_iff value
  unfold Atomic
  rw [call_onServer, hcall]
  cases hset : ((KVStore.set key value).call d.kvstore).1 with
  | ok r =>
    refine iff_of_true (fun what he => nomatch he) fun hhalf => ?_
    obtain ⟨e, he⟩ := hthrows.mpr hhalf.1
    exact nomatch hset.symm.trans he
  | error e =>
    have hspared : ((KVStore.set key value).call d.kvstore).2 = d.kvstore ↔
        d.kvstore.Spared key value := h.kvstore.set_unchanged_iff hset
    obtain rfl : e = HashTable.notFound :=
      h.kvstore.throws (Shard.behaves_set key value) hset
    rw [and_iff_right (hthrows.mp ⟨_, hset⟩)]
    constructor
    · rintro hall (hlead | hbuffered | hpart)
      · -- the leader has the command in its log
        obtain ⟨gid, rn, rn', hold, hnew, hlog⟩ := hloud hlead
        have hlogs : (s₁.raftGroups.lookup gid).map (fun rn => (rn.log, rn.disk))
            = (d.raftGroups.lookup gid).map fun rn => (rn.log, rn.disk) := (hall _ rfl).logs gid
        rw [hnew, show d.raftGroups.lookup gid = some rn from hold] at hlogs
        exact hlog (congrArg Prod.fst (Option.some.inj hlogs))
      · -- the request is still in the buffer
        exact hbuffered (hbuffer.mp (hall _ rfl).buffer)
      · -- the table has the value, the LRU list does not know the key
        exact hpart (hspared.mp (hall _ rfl).kvstore)
    · intro hnone what _
      obtain ⟨hfollows, hrest⟩ := not_or.mp hnone
      obtain ⟨hpassed, hkept⟩ := not_or.mp hrest
      obtain ⟨hqueue, hgroups⟩ := hquiet hfollows
      refine ⟨hspared.mpr (not_not.mp hkept), hbuffer.mpr (not_not.mp hpassed), fun gid => ?_, rfl,
        congrArg Cluster.nodeHash hsame.cluster, congrArg Cluster.topo hsame.cluster, ?_, ?_⟩
      · exact congrArg (Option.map _) (hgroups gid)
      · exact congrArg (fun c : Cluster => Peers.mk c.connections d.fdToUuid) hsame.cluster
      · show d.messageQueue ++ s₁.messageQueue.map _ = d.messageQueue
        rw [hqueue]
        exact List.append_nil _

theorem halfSet_SET_iff {r : Reading} {args : List RespValue} :
    d.HalfSet r (requestOf (ascii "SET") args) ↔
      ∃ key value, args = [.simpleString key, value] ∧ d.syncing = false ∧
        d.cluster.isMasterFor key = .ok true ∧ value ≠ .bulkString none ∧
        d.kvstore.Misses key ∧ (d.server.Leads key ∨
          ¬ d.aof.PassesOn (encode (requestOf (ascii "SET") args)) r.due ∨
          ¬ d.kvstore.Spared key value) := by
  constructor
  · rintro ⟨key, value, heq, hrest⟩
    exact ⟨key, value, (requestOf_inj heq).2, hrest⟩
  · rintro ⟨key, value, rfl, hrest⟩
    exact ⟨key, value, rfl, hrest⟩

theorem atomic_SET_iff (h : d.Sound) (hsyncing : d.syncing = false) (args : List RespValue)
    (r : Reading) :
    Atomic (onServer (Handler.SET (requestOf (ascii "SET") args) r.due)) d ↔
      ¬ d.HalfSet r (requestOf (ascii "SET") args) := by
  rw [halfSet_SET_iff]
  by_cases hform : ∃ key value, args = [.simpleString key, value]
  · obtain ⟨key, value, rfl⟩ := hform
    show Atomic (onServer ((Write.set key value).handle r.due)) d ↔ _
    rcases write_cases (.set key value) r.due d.server with
      ⟨hring, what, hcall⟩ | ⟨-, hmaster, reply, hcall⟩ | ⟨-, hmaster⟩
    · refine iff_of_true (fun what' he => ?_) ?_
      · rw [call_onServer, hcall] at he
        exact nomatch he
      · rintro ⟨_, _, ⟨rfl, rfl⟩, -, hyes, -⟩
        exact nomatch (isMasterFor_of_nil hring key).symm.trans hyes
    · have hreply : ((onServer ((Write.set key value).handle r.due)).call d).1 = .ok reply := by
        rw [call_onServer, hcall]
      refine iff_of_true (atomic_of_ok hreply) ?_
      rintro ⟨_, _, ⟨rfl, rfl⟩, -, hyes, -⟩
      exact nomatch hmaster.symm.trans hyes
    · by_cases hvalue : value = .bulkString none
      · -- what it does is undefined, so there is no exception to speak of
        subst hvalue
        refine iff_of_true (fun what' he => ?_) ?_
        · rw [call_onServer, set_nil key r.due hmaster] at he
          exact nomatch he
        · rintro ⟨_, _, ⟨rfl, rfl⟩, -, -, hsome, -⟩
          exact hsome rfl
      · refine (atomic_set_iff h.server key value r.due hmaster hvalue).trans (not_congr ⟨?_, ?_⟩)
        · exact fun hhalf => ⟨key, value, rfl, hsyncing, hmaster, hvalue, hhalf⟩
        · rintro ⟨_, _, ⟨rfl, rfl⟩, -, -, -, hhalf⟩
          exact hhalf
  · have hrefuses : Refuses (Handler.SET (requestOf (ascii "SET") args) r.due) :=
      refuses_SET (fun key value heq => hform ⟨key, value, heq⟩) r.due
    exact iff_of_true (atomic_of_inert (inert_onServer (hrefuses.inert d.server)))
      fun ⟨key, value, heq, _⟩ => hform ⟨key, value, heq⟩

/-! ## The other handlers

Those that throw do so first, and what they have done by the time they could throw is nothing. -/

/-- What `DEL` throws, it throws at once. -/
theorem atomic_DEL (args : List RespValue) (due : Bool) :
    Atomic (onServer (Handler.DEL (requestOf (ascii "DEL") args) due)) d := by
  by_cases hform : ∃ key, args = [.simpleString key]
  · obtain ⟨key, rfl⟩ := hform
    show Atomic (onServer ((Write.del key).handle due)) d
    intro what he
    rw [call_onServer] at he
    rcases write_cases (.del key) due d.server with
      ⟨hring, what', hcall⟩ | ⟨-, hmaster, reply, hcall⟩ | ⟨-, hmaster⟩
    · rw [hcall] at he
      exact nomatch he
    · rw [hcall] at he
      exact nomatch he
    · obtain ⟨what', hcall⟩ := call_del key hmaster due
      exact nomatch hcall.symm.trans he
  · have hrefuses : Refuses (Handler.DEL (requestOf (ascii "DEL") args) due) :=
      refuses_DEL (fun key heq => hform ⟨key, heq⟩) due
    exact atomic_of_inert (inert_onServer (hrefuses.inert d.server))

/-- A message of Raft that cannot be read may change the term of its node, but not the log. -/
theorem atomic_handleRaft (h : d.Sound) (name : Bytes) (args : List RespValue) (fd : Int)
    (r : Reading) : Atomic (handleRaft (requestOf name args) fd r) d := by
  by_cases hgroup : ∀ gid ∈ args.head?, d.raftGroups.lookup (groupOf gid).toNat = none
  · exact atomic_of_ok (congrArg Prod.fst (handleRaft_ignored fd r hgroup))
  · cases args with
    | nil => exact absurd nofun hgroup
    | cons gid args =>
      have hsome : d.raftGroups.lookup (groupOf gid).toNat ≠ none := by simpa using hgroup
      obtain ⟨rn, hlookup⟩ := Option.ne_none_iff_exists'.mp hsome
      obtain ⟨times, hbeat⟩ := d.updateHeartbeat_eq fd r.now
      have hslotted := (h.server.sturdy_of_lookup hlookup).slotted
      have hcall : (handleRaft (requestOf name (gid :: args)) fd r).call d = _ :=
        call_handleRaft fd r hlookup
      intro what he
      rw [hcall] at he ⊢
      dsimp only at he ⊢
      cases hout : ((RaftNode.Checked.stepText none (d.peers.getUuidByFd fd)
          (encode (requestOf name (gid :: args))) r.rand).call rn).1 with
      | ok msgs =>
        rw [hout] at he
        exact nomatch he
      | error e =>
        rw [hout] at he
        obtain rfl : e = .exception what := Except.error.inj he
        obtain ⟨hlog, hdisk⟩ := RaftNode.stepText_throws hslotted hout
        rw [hbeat]
        refine ⟨rfl, rfl, fun k => ?_, rfl, rfl, rfl, rfl, rfl⟩
        refine (congrArg (Option.map _) (lookup_replaced _ k _ d.raftGroups)).trans ?_
        split
        · rename_i hk
          rw [hk, hlookup]
          exact congrArg some (Prod.ext hlog hdisk)
        · rfl

/-! ## Every request -/

theorem not_forwarded {r : Reading} {request : RespValue}
    (h : ∀ name args, request = requestOf name args →
      name ≠ ascii "NODEIN" ∧ name ≠ ascii "NODEOUT") : ¬ d.Forwarded r request := by
  rintro ⟨name, uuid, v, heq, hbroken, -⟩
  have hother := h name _ heq
  cases hbroken with
  | node _ _ => exact hother.1 rfl
  | uuid _ _ => exact hother.2 rfl

theorem not_halfSet {r : Reading} {request : RespValue}
    (h : ∀ args, request = requestOf (ascii "SET") args → d.syncing = true) :
    ¬ d.HalfSet r request := by
  rintro ⟨key, value, heq, hsyncing, -⟩
  exact nomatch hsyncing.symm.trans (h [.simpleString key, value] heq)

/-- Only gossip and `SET` can leave something behind. -/
theorem nothing_left {r : Reading} {name : Bytes} (args : List RespValue)
    (hname : name ∉ [ascii "SET", ascii "NODEIN", ascii "NODEOUT"]) :
    ¬ d.Forwarded r (requestOf name args) ∧ ¬ d.HalfSet r (requestOf name args) := by
  simp only [List.mem_cons, List.not_mem_nil, or_false, not_or] at hname
  obtain ⟨hset, hgossip⟩ := hname
  refine ⟨not_forwarded fun name' args' heq => ?_, not_halfSet fun args' heq => ?_⟩
  · obtain rfl : name = name' := (requestOf_inj heq).1
    exact hgossip
  · exact absurd (requestOf_inj heq).1 hset

theorem handle_atomic_iff (h : d.Sound) (request : RespValue) (fd : Int) (r : Reading) :
    Atomic (handle request fd r) d ↔ ¬ d.Forwarded r request ∧ ¬ d.HalfSet r request := by
  obtain ⟨m, hm, hcall⟩ := call_handle request fd r d
  have hcalled : Atomic (handle request fd r) d ↔ Atomic m d := by
    unfold Atomic
    rw [hcall]
  rw [hcalled]
  cases hm with
  | nil =>
    exact iff_of_true (fun what he => nomatch he)
      ⟨not_forwarded (by simp [requestOf]), not_halfSet (by simp [requestOf])⟩
  | refused request what hnil hname =>
    refine iff_of_true (atomic_of_refused rfl) ⟨not_forwarded fun name args heq => ?_,
      not_halfSet fun args heq => absurd (by decide) (hname _ args heq)⟩
    constructor
    · rintro rfl
      exact absurd (by decide) (hname _ args heq)
    · rintro rfl
      exact absurd (by decide) (hname _ args heq)
  | ok =>
    exact iff_of_true (atomic_of_ok rfl)
      ⟨not_forwarded (by simp [requestOf]), not_halfSet (by simp [requestOf])⟩
  | syncdone args =>
    exact iff_of_true (atomic_of_inert (inert_SYNCDONE _ args)) (nothing_left args (by decide))
  | heartbeat args => exact iff_of_true (atomic_of_ok rfl) (nothing_left args (by decide))
  | raft name args hraft =>
    have hother : ∀ name ∈ raftCommands, name ∉ [ascii "SET", ascii "NODEIN", ascii "NODEOUT"] := by
      decide
    exact iff_of_true (atomic_handleRaft h name args fd r) (nothing_left args (hother name hraft))
  | loading name args hsyncing hdata =>
    have hother : ∀ name ∈ Handler.dataCommands, name ≠ ascii "NODEIN" ∧ name ≠ ascii "NODEOUT" := by
      decide
    refine iff_of_true (atomic_of_ok rfl) ⟨not_forwarded fun name' args' heq => ?_,
      not_halfSet fun _ _ => hsyncing⟩
    obtain rfl : name = name' := (requestOf_inj heq).1
    exact hother name hdata
  | get args _ =>
    exact iff_of_true (atomic_of_inert (inert_onServer (inert_GET h.server args)))
      (nothing_left args (by decide))
  | set args hsyncing =>
    refine (atomic_SET_iff h hsyncing args r).trans
      ⟨fun hwhole => ⟨not_forwarded ?_, hwhole⟩, And.right⟩
    intro name' args' heq
    obtain rfl : ascii "SET" = name' := (requestOf_inj heq).1
    decide
  | del args _ => exact iff_of_true (atomic_DEL args r.due) (nothing_left args (by decide))
  | exist args _ =>
    exact iff_of_true (atomic_of_inert (inert_onServer (inert_EXIST h.server args)))
      (nothing_left args (by decide))
  | nodein args =>
    refine (atomic_relaying_iff reads_welcome h.gossip args r).trans
      ⟨fun hkept => ⟨hkept, not_halfSet ?_⟩, And.left⟩
    exact fun args' heq => absurd (requestOf_inj heq).1 (by decide)
  | nodeout args =>
    refine (atomic_relaying_iff reads_farewell h.gossip args r).trans
      ⟨fun hkept => ⟨hkept, not_halfSet ?_⟩, And.left⟩
    exact fun args' heq => absurd (requestOf_inj heq).1 (by decide)
  | network args => exact iff_of_true (atomic_of_ok rfl) (nothing_left args (by decide))
  | hello args =>
    exact iff_of_true (atomic_of_inert (inert_HELLO _ args fd)) (nothing_left args (by decide))

/-- **When a request that fails changes nothing**, on every server that is reached: it does nothing
undefined, and where it throws all is as before, if it is harmless and neither of the two kinds, and
only then.

Most handlers throw before their first effect or not at all. The exceptions are found by looking for
what comes after one: in `relaying` the last element of a gossip message is looked at behind the
broadcast, and in `SET` the store, which may have no room, comes behind the log and the file.
Elsewhere what comes after an effect cannot throw on a `Sound` server. -/
theorem failing_unchanged_iff {start : Daemon} (hstart : start.Started) (es : List Event)
    (request : RespValue) (fd : Int) (r : Reading) :
    let d := Run.exec step start es
    (Safe ((handle request fd r).call d).1 ∧
      ∀ what, ((handle request fd r).call d).1 = .error (.exception what) →
        Unchanged d ((handle request fd r).call d).2) ↔
      d.Harmless fd request ∧ ¬ d.Forwarded r request ∧ ¬ d.HalfSet r request := by
  have hsound : (Run.exec step start es).Sound := sound_exec hstart.sound es
  exact and_congr (handle_safe_iff hsound request fd r) (handle_atomic_iff hsound request fd r)

/-- Node 9 says hello. -/
def greeted : List Event :=
  [.handle (requestOf (ascii "HELLO") [.simpleString (ascii "9")]) 5 ⟨0, false, 0⟩]

theorem failing_unchanged_iff_greeted :
    let request := requestOf (ascii "GET") []
    let d := Run.exec step lone greeted
    (Safe ((handle request 5 ⟨0, false, 0⟩).call d).1 ∧
      ∀ what, ((handle request 5 ⟨0, false, 0⟩).call d).1 = .error (.exception what) →
        Unchanged d ((handle request 5 ⟨0, false, 0⟩).call d).2) ↔
      d.Harmless 5 request ∧ ¬ d.Forwarded ⟨0, false, 0⟩ request ∧
        ¬ d.HalfSet ⟨0, false, 0⟩ request :=
  failing_unchanged_iff lone_started greeted _ 5 ⟨0, false, 0⟩

/-- Then a `NODEIN` comes that has a number for its node. It is refused, but has gone on to
node 9. -/
theorem failing_changes :
    let request := requestOf (ascii "NODEIN") [.simpleString (ascii "1"), .integer 0]
    let d := Run.exec step lone greeted
    let out := (handle request 5 ⟨0, false, 0⟩).call d
    out.1 = .error (.exception "getNode: Invalid node format, expected Array of 3 elements") ∧
      out.2.messageQueue ≠ d.messageQueue ∧ ¬ Unchanged d out.2 := by
  intro request d out
  have hqueue : out.2.messageQueue ≠ d.messageQueue := fun hsame =>
    absurd (congrArg List.length hsame) (by decide +kernel)
  exact ⟨by rfl, hqueue, fun hsame => hqueue hsame.messageQueue⟩

end Daemon
end Server
end KvJet
