import KvJet.Lib.Run
import KvJet.Resp.RoundTrip
import KvJet.Server.Handler

/-!
# Replaying the append-only file

A server that serves `SET` and `DEL` requests logs each request before it applies it, and a
server that starts again applies the logged requests. The question is whether the second one
ends up with the keys and values of the first.

For a `SET` both do the same `KVStore::set`, and the logged text is that of the whole request.
`DEL` takes the key out of the request and then logs what is left, which reads through the null
pointer in its place. So a log is replayed exactly when it holds no `DEL` and no `SET` was
refused by the LRU list of its shard (`aof_replay`).
-/

namespace KvJet
namespace Server

open Resp Store

/-! ## Reading the file in blocks

The parser does not see where the blocks end. -/

theorem flatten_blocks : ∀ (fuel : Nat) (file : Bytes), file.length ≤ fuel →
    (AOF.blocks fuel file).flatten = file := by
  intro fuel
  induction fuel with
  | zero =>
    intro file h
    rw [List.length_eq_zero_iff.mp (Nat.le_zero.mp h)]
    rfl
  | succ fuel ih =>
    intro file h
    cases file with
    | nil => rfl
    | cons b bs =>
      have hdrop : ((b :: bs).drop aofBufferSize).length ≤ fuel := by
        rw [List.length_drop, List.length_cons, aofBufferSize]
        rw [List.length_cons] at h
        omega
      show ((b :: bs).take aofBufferSize :: AOF.blocks fuel ((b :: bs).drop aofBufferSize)).flatten
        = b :: bs
      rw [List.flatten_cons, ih _ hdrop, List.take_append_drop]

/-- `recover` handles the results of one parser over the whole file: that it takes them out of
the queue block by block makes no difference. -/
theorem recoverLoop_eq : ∀ (blocks : List Bytes) (p p' : RespParser), p.messageQueue = [] →
    Stream.runChunks RespParser.feed p blocks = .ok p' →
      AOF.recoverLoop p blocks = forM p'.messageQueue AOF.replay := by
  intro blocks
  induction blocks with
  | nil =>
    intro p p' hempty hrun
    cases hrun
    rw [hempty]
    rfl
  | cons block rest ih =>
    intro p p' hempty hrun
    cases happ : p.append block with
    | error e =>
      have : Stream.runChunks RespParser.feed p (block :: rest) = .error e := by
        show (p.append block >>= _) = _
        rw [happ]
        rfl
      rw [this] at hrun
      exact absurd hrun (by simp)
    | ok q =>
      have hrest : Stream.runChunks RespParser.feed q rest = .ok p' := by
        rw [← hrun]
        show _ = (p.append block >>= _)
        rw [happ]
        rfl
      -- the parser goes on from `q` as from `q` with its queue emptied
      have hq : q = RespParser.behind q.messageQueue { q with messageQueue := [] } := by
        simp [RespParser.behind]
      rw [hq, Stream.runChunks_frame RespParser.feed (RespParser.feed_behind q.messageQueue)]
        at hrest
      cases hdrained : Stream.runChunks RespParser.feed { q with messageQueue := [] } rest with
      | error e =>
        rw [hdrained] at hrest
        exact absurd hrest (by simp [Except.map])
      | ok r =>
        rw [hdrained] at hrest
        cases hrest
        rw [AOF.recoverLoop, happ]
        show (forM q.messageQueue _ >>= fun _ => AOF.recoverLoop { q with messageQueue := [] } rest)
          = forM (q.messageQueue ++ r.messageQueue) _
        rw [ih _ r rfl hdrained, List.forM_append]

/-- `recover` handles what a parser has queued after the whole file. -/
theorem recover_of_append {file : Bytes} {p : RespParser}
    (h : ({} : RespParser).append file = .ok p) :
    AOF.recover file = forM p.messageQueue AOF.replay := by
  have hrun : Stream.runChunks RespParser.feed {} (AOF.blocks file.length file) = .ok p := by
    rw [Stream.runChunks_eq_run, flatten_blocks _ _ (Nat.le_refl _)]
    exact h
  exact recoverLoop_eq _ _ _ rfl hrun

/-- **`recover` of the encodings of `vs`** handles `vs` one after another. -/
theorem recover_eq {vs : List RespValue} (hvs : ∀ v ∈ vs, v.Wire) :
    AOF.recover (vs.flatMap encode) = forM vs AOF.replay :=
  recover_of_append (append_encodings vs hvs [])

/-! ## The requests -/

/-- A `SET` or a `DEL` request. -/
inductive Write where
  | set (key : Bytes) (value : RespValue)
  | del (key : Bytes)

namespace Write

def key : Write → Bytes
  | .set key _ => key
  | .del key => key

def request : Write → RespValue
  | .set key value => .array (some [.simpleString (ascii "SET"), .simpleString key, value])
  | .del key => .array (some [.simpleString (ascii "DEL"), .simpleString key])

/-- No CR in a text, and no nil bulk string as the value. -/
def Sendable : Write → Prop
  | .set key value => cr ∉ key ∧ value.Wire ∧ value ≠ .bulkString none
  | .del key => cr ∉ key

/-- The handler of the request. -/
def handle (due : Bool) : Write → ServerM Bytes
  | .set key value => Handler.SET (Write.set key value).request due
  | .del key => Handler.DEL (Write.del key).request due

/-- What the handler passes to `propose`. -/
def text : Write → Except Fault Bytes
  | .set key value => do return ascii "SET " ++ key ++ ascii " " ++ (← Handler.valueText value)
  | .del key => .ok (ascii "DEL " ++ key)

/-- The request as the handler logs it: `DEL` has moved its key out by then. -/
def logged : Write → Elements
  | .set key value => [some (.simpleString (ascii "SET")), some (.simpleString key), some value]
  | .del _ => [some (.simpleString (ascii "DEL")), none]

theorem exists_text (key : Bytes) {value : RespValue} (h : value ≠ .bulkString none) :
    ∃ text, (Write.set key value).text = .ok text := by
  cases value with
  | bulkString o =>
    cases o with
    | none => exact absurd rfl h
    | some b => exact ⟨_, rfl⟩
  | simpleString b => exact ⟨_, rfl⟩
  | error b | integer n | array o => exact ⟨_, rfl⟩

theorem Sendable.wire {w : Write} (h : w.Sendable) : w.request.Wire := by
  have hset : cr ∉ ascii "SET" := by decide
  have hdel : cr ∉ ascii "DEL" := by decide
  cases w with
  | set key value =>
    obtain ⟨hkey, hvalue, -⟩ := h
    simp [request, RespValue.Wire, WireAll, hset, hkey, hvalue]
  | del key =>
    have hkey : cr ∉ key := h
    simp [request, RespValue.Wire, WireAll, hdel, hkey]

end Write

/-- The requests of a run, each with what the clock says when it is logged. -/
abbrev Served := List (Write × Bool)

/-- One request. The caller catches what a handler throws and goes on. -/
def serveStep (s : ServerState) (e : Write × Bool) : Except Fault ServerState :=
  match (e.1.handle e.2).call s with
  | (.error (.undefined what), _) => .error (.undefined what)
  | (_, s') => .ok s'

/-- The requests are handled one after another, as long as nothing undefined happens. -/
def serve (s : ServerState) (es : Served) : Except Fault ServerState := es.foldlM serveStep s

/-- **The log replays**: the handlers get through the requests, `recover` of what they logged
returns on the server `r`, and the two stores answer every key alike. -/
def Replays (s : ServerState) (es : Served) (r : ServerState) : Prop :=
  ∃ s' r', serve s es = .ok s' ∧ (AOF.recover s'.aof.flush.file).call r = (.ok (), r') ∧
    ∀ key, r'.kvstore.lookup key = s'.kvstore.lookup key

/-! ## One request -/

section Step

variable {s : ServerState}

/-- The parts of a server that `propose` leaves alone. -/
structure SameStore (s s' : ServerState) : Prop where
  kvstore : s'.kvstore = s.kvstore
  aof : s'.aof = s.aof
  cluster : s'.cluster = s.cluster

theorem sameStore_sendCb (s : ServerState) (msg : Raft.RaftMessage) :
    SameStore s (s.sendCb msg) := by
  unfold ServerState.sendCb
  dsimp only
  split <;> exact ⟨rfl, rfl, rfl⟩

theorem sameStore_sendAll : ∀ (msgs : List Raft.RaftMessage) (s : ServerState),
    SameStore s (msgs.foldl ServerState.sendCb s) := by
  intro msgs
  induction msgs with
  | nil => intro s; exact ⟨rfl, rfl, rfl⟩
  | cons msg msgs ih =>
    intro s
    obtain ⟨hkv, haof, hc⟩ := ih (s.sendCb msg)
    obtain ⟨hkv', haof', hc'⟩ := sameStore_sendCb s msg
    exact ⟨hkv.trans hkv', haof.trans haof', hc.trans hc'⟩

theorem sameStore_propose (s : ServerState) (gid : Nat) (cmd : Bytes) :
    SameStore s (s.propose gid cmd) := by
  unfold ServerState.propose
  cases s.raftGroups.lookup gid with
  | none => exact ⟨rfl, rfl, rfl⟩
  | some rn =>
    obtain ⟨hkv, haof, hc⟩ := sameStore_sendAll (rn.propose cmd).2 { s with
      raftGroups := s.raftGroups.map fun g => if g.1 = gid then (gid, (rn.propose cmd).1) else g }
    exact ⟨hkv, haof, hc⟩

theorem call_proposeFor {key : Bytes} {owner : Raft.Uuid} (h : s.cluster.queryNode key = .ok owner)
    (cmd : Bytes) : ∃ s', (Handler.proposeFor key cmd).call s = (.ok (), s') ∧ SameStore s s' := by
  have hgroup : s.getGroupForKey key = .ok ((s.masterToGroup.lookup owner).filter
      fun gid => (s.raftGroups.lookup gid).isSome) := by
    rw [ServerState.getGroupForKey, h]
    rfl
  rw [Handler.proposeFor, Method.call_bind_ok (Method.call_get s), hgroup,
    Method.call_bind_ok (Method.call_lift _ s)]
  cases (s.masterToGroup.lookup owner).filter fun gid => (s.raftGroups.lookup gid).isSome with
  | none => exact ⟨s, rfl, rfl, rfl, rfl⟩
  | some gid => exact ⟨_, rfl, sameStore_propose s gid cmd⟩

/-- A call on the store whose result is not used. -/
theorem call_onKVStore {α β : Type} (m : Method Fault (KVStore RespValue) α) (b : β) :
    Method.call (do let _ ← onKVStore m; return b) s
      = ((m.call s.kvstore).1.map fun _ => b, { s with kvstore := (m.call s.kvstore).2 }) := by
  have hpart : (onKVStore m).call s
      = ((m.call s.kvstore).1, { s with kvstore := (m.call s.kvstore).2 }) := rfl
  cases hm : m.call s.kvstore with
  | mk x kv =>
    rw [hm] at hpart
    cases x with
    | ok a =>
      rw [Method.call_bind_ok hpart]
      rfl
    | error e =>
      rw [Method.call_bind_error hpart]
      rfl

theorem queryNode_of_isMasterFor {c : Cluster} {key : Bytes} (h : c.isMasterFor key = .ok true) :
    ∃ owner, c.queryNode key = .ok owner :=
  ⟨_, Cluster.isMasterFor_iff.mp h⟩

/-- A request with all its elements is logged as its encoding. -/
theorem encodeRequest_whole (xs : List RespValue) :
    encodeRequest (xs.map some) = .ok (encode (.array (some xs))) := by
  have hmap : (xs.map some).mapM (fun p => return encode (← pointee p))
      = (.ok (xs.map encode) : Except Fault _) := by
    induction xs with
    | nil => rfl
    | cons x xs ih =>
      rw [List.map_cons, List.mapM_cons, ih]
      rfl
  rw [encodeRequest, hmap, encode, encodeElements_eq_flatMap, List.length_map, List.flatMap_def]
  rfl

theorem call_append {elements : Elements} {text : Bytes} (h : encodeRequest elements = .ok text)
    (due : Bool) (a : AOF) :
    ∃ a', (AOF.append elements due).call a = (.ok (), a') ∧
      a'.flush.file = a.flush.file ++ text ∧ a.file <+: a'.file := by
  rw [AOF.append, h, Method.call_bind_ok (Method.call_lift _ a),
    Method.call_bind_ok (Method.call_modify _ a), Method.call_bind_ok (Method.call_get _)]
  split
  · exact ⟨_, rfl, by simp [AOF.flush], List.prefix_append _ _⟩
  · exact ⟨_, rfl, by simp [AOF.flush], List.prefix_refl _⟩

/-- What `SET` does on the master, past the checks of its arguments. -/
theorem handle_set (key : Bytes) (value : RespValue) {text : Bytes}
    (hmaster : s.cluster.isMasterFor key = .ok true)
    (htext : (Write.set key value).text = .ok text) (due : Bool) :
    ((Write.set key value).handle due).call s = Method.call (do
      Handler.proposeFor key text
      onAOF (AOF.append (Write.set key value).logged due)
      let _ ← onKVStore (KVStore.set key value)
      return Handler.okReply) s := by
  obtain ⟨val, hval, htext⟩ := Except.of_bind_eq_ok htext
  cases htext
  show Method.call (do
    let master ← Method.lift (s.cluster.isMasterFor key)
    _) s = _
  rw [hmaster, Method.call_bind_ok (Method.call_lift _ s)]
  show Method.call (do
    let val ← Method.lift (Handler.valueText value)
    _) s = _
  rw [hval, Method.call_bind_ok (Method.call_lift _ s)]
  rfl

/-- What `DEL` does. -/
theorem handle_del (key : Bytes) (hmaster : s.cluster.isMasterFor key = .ok true) (due : Bool) :
    ((Write.del key).handle due).call s = Method.call (do
      Handler.proposeFor key (ascii "DEL " ++ key)
      onAOF (AOF.append (Write.del key).logged due)
      let ret ← onKVStore (KVStore.del key)
      return encode (.integer (if ret then 1 else 0))) s := by
  show Method.call (do
    let master ← Method.lift (s.cluster.isMasterFor key)
    _) s = _
  rw [hmaster, Method.call_bind_ok (Method.call_lift _ s)]
  rfl

/-- **`SET` on the master**: the request is logged as it came, and then the store takes the
value or throws. -/
theorem call_set (key : Bytes) (value : RespValue)
    (hmaster : s.cluster.isMasterFor key = .ok true) (hvalue : value ≠ .bulkString none)
    (due : Bool) :
    ∃ s', ((Write.set key value).handle due).call s
        = (((KVStore.set key value).call s.kvstore).1.map fun _ => Handler.okReply, s') ∧
      s'.kvstore = ((KVStore.set key value).call s.kvstore).2 ∧
      s'.aof.flush.file = s.aof.flush.file ++ encode (Write.set key value).request ∧
      s'.cluster = s.cluster := by
  obtain ⟨owner, howner⟩ := queryNode_of_isMasterFor hmaster
  obtain ⟨text, htext⟩ := Write.exists_text key hvalue
  obtain ⟨s₁, hprop, hkv, haof, hcl⟩ := call_proposeFor howner text
  obtain ⟨a, happ, hlog, -⟩ := call_append
    (encodeRequest_whole [.simpleString (ascii "SET"), .simpleString key, value]) due s₁.aof
  refine ⟨{ s₁ with aof := a, kvstore := ((KVStore.set key value).call s.kvstore).2 }, ?_, rfl,
    by rw [← haof]; exact hlog, hcl⟩
  have hlogged : (onAOF (AOF.append (Write.set key value).logged due)).call s₁
      = (.ok (), { s₁ with aof := a }) := by
    rw [onAOF, Method.call_part]
    exact congrArg (fun r => (r.1, { s₁ with aof := r.2 })) happ
  rw [handle_set key value hmaster htext, Method.call_bind_ok hprop, Method.call_bind_ok hlogged,
    call_onKVStore, hkv]

/-- **`DEL` on the master** reads through the pointer it has moved out. -/
theorem call_del (key : Bytes) (hmaster : s.cluster.isMasterFor key = .ok true) (due : Bool) :
    ∃ what, (((Write.del key).handle due).call s).1 = .error (.undefined what) := by
  obtain ⟨owner, howner⟩ := queryNode_of_isMasterFor hmaster
  obtain ⟨s₁, hprop, -⟩ := call_proposeFor howner (ascii "DEL " ++ key)
  have hlogged : (onAOF (AOF.append (Write.del key).logged due)).call s₁
      = (.error (.undefined "read through a null pointer"), s₁) := rfl
  refine ⟨"read through a null pointer", ?_⟩
  rw [handle_del key hmaster, Method.call_bind_ok hprop, Method.call_bind_error hlogged]

theorem call_handleNoAOF_set (key : Bytes) (value : RespValue) :
    (Handler.handleNoAOF (Write.set key value).request).call s
      = (((KVStore.set key value).call s.kvstore).1.map fun _ => Handler.okReply,
          { s with kvstore := ((KVStore.set key value).call s.kvstore).2 }) := by
  have hcommand : ascii "SET" ≠ ascii "GET" := by decide
  rw [← call_onKVStore]
  simp only [Handler.handleNoAOF, Write.request, if_neg hcommand, if_true]
  rfl

/-- **A replayed `SET`** does to the store what the handler did to it. -/
theorem call_replay_set (key : Bytes) (value : RespValue) :
    (AOF.replay (Write.set key value).request).call s
      = (((KVStore.set key value).call s.kvstore).1.map fun _ => (),
          { s with kvstore := ((KVStore.set key value).call s.kvstore).2 }) := by
  have hset := call_handleNoAOF_set (s := s) key value
  cases hkv : ((KVStore.set key value).call s.kvstore).1 with
  | ok a =>
    rw [hkv] at hset
    rw [AOF.replay, Method.call_bind_ok hset]
    rfl
  | error e =>
    rw [hkv] at hset
    rw [AOF.replay, Method.call_bind_error hset]
    rfl

end Step

/-! ## Whole runs

Both servers take the same steps as long as every request can be logged and none throws. A request
that is not so sets them apart for good. -/

/-- The server after a request, however its handler ended. -/
def after (s : ServerState) (e : Write × Bool) : ServerState := ((e.1.handle e.2).call s).2

/-- A request whose log entry can be replayed: a `SET` that the LRU list of its shard has room
for. -/
def Loggable (s : ServerState) (e : Write × Bool) : Prop :=
  match e.1 with
  | .set key _ => s.kvstore.HasRoom key
  | .del _ => False

instance (s : ServerState) : DecidablePred (Loggable s)
  | (.set key _, _) => inferInstanceAs (Decidable (s.kvstore.HasRoom key))
  | (.del _, _) => inferInstanceAs (Decidable False)

/-- The requests of a run, as `recover` is going to see them. -/
def requests (es : Served) : List RespValue := es.map fun e => e.1.request

section Run

variable {s s' r r' : ServerState} {w : Write} {due : Bool}

theorem serveStep_eq_ok (h : serveStep s (w, due) = .ok s') :
    s' = after s (w, due) ∧ ∀ what, ((w.handle due).call s).1 ≠ .error (.undefined what) := by
  unfold serveStep at h
  split at h
  · exact absurd h (by simp)
  · rename_i x t hno hcall
    cases h
    have hcall : (w.handle due).call s = (x, s') := hcall
    refine ⟨by rw [after, hcall], fun what hx => hno what ?_⟩
    rw [hcall] at hx
    exact hx

/-- A request that ended without undefined behaviour was a `SET`, and is in the log. -/
theorem serveStep_logs (hsend : w.Sendable) (hmaster : s.cluster.isMasterFor w.key = .ok true)
    (h : serveStep s (w, due) = .ok s') :
    (∃ key value, w = .set key value) ∧ s'.cluster = s.cluster ∧
      s'.aof.flush.file = s.aof.flush.file ++ encode w.request := by
  obtain ⟨rfl, hdef⟩ := serveStep_eq_ok h
  cases w with
  | set key value =>
    obtain ⟨s₁, hcall, -, hlog, hcl⟩ := call_set key value hmaster hsend.2.2 due
    refine ⟨⟨key, value, rfl⟩, ?_, ?_⟩ <;> rw [after, hcall]
    · exact hcl
    · exact hlog
  | del key =>
    obtain ⟨what, hcall⟩ := call_del key hmaster due
    exact absurd hcall (hdef what)

/-- Whatever the handlers throw on the way: requests they got through were all `SET`s, and the
log is their encodings. -/
theorem serve_logs : ∀ {es : Served} {s : ServerState}, (∀ e ∈ es, e.1.Sendable) →
    (∀ e ∈ es, s.cluster.isMasterFor e.1.key = .ok true) → serve s es = .ok s' →
      (∀ e ∈ es, ∃ key value, e.1 = .set key value) ∧
      s'.aof.flush.file = s.aof.flush.file ++ (requests es).flatMap encode := by
  intro es
  induction es with
  | nil =>
    intro s _ _ h
    cases h
    exact ⟨by simp, by simp [requests]⟩
  | cons e es ih =>
    intro s hsend hmaster h
    obtain ⟨w, due⟩ := e
    cases hstep : serveStep s (w, due) with
    | error f =>
      have : serve s ((w, due) :: es) = .error f := by
        show (serveStep s (w, due) >>= _) = _
        rw [hstep]
        rfl
      rw [this] at h
      exact absurd h (by simp)
    | ok s₁ =>
      have hrest : serve s₁ es = .ok s' := by
        rw [← h]
        show _ = (serveStep s (w, due) >>= _)
        rw [hstep]
        rfl
      obtain ⟨hset, hcl, hlog⟩ :=
        serveStep_logs (hsend _ List.mem_cons_self) (hmaster _ List.mem_cons_self) hstep
      obtain ⟨hsets, hlogs⟩ := ih (fun e he => hsend e (List.mem_cons_of_mem _ he))
        (fun e he => hcl ▸ hmaster e (List.mem_cons_of_mem _ he)) hrest
      refine ⟨?_, ?_⟩
      · intro e he
        rcases List.mem_cons.mp he with rfl | hin
        · exact hset
        · exact hsets e hin
      · rw [hlogs, hlog, requests, requests, List.map_cons, List.flatMap_cons, List.append_assoc]

/-- **One step of the simulation.** A loggable request is served and replayed alike, from equal
stores to equal stores.

Both sides come to the same `KVStore::set` on equal stores. What the live server has done before
that, in Raft and in the file, is not looked at by the store. -/
theorem loggable_step (hw : s.kvstore.WriteOnly) (hr : r.kvstore = s.kvstore) (hsend : w.Sendable)
    (hmaster : s.cluster.isMasterFor w.key = .ok true) (h : Loggable s (w, due)) :
    serveStep s (w, due) = .ok (after s (w, due)) ∧ (after s (w, due)).kvstore.WriteOnly ∧
      ∃ r', (AOF.replay w.request).call r = (.ok (), r') ∧
        r'.kvstore = (after s (w, due)).kvstore := by
  cases w with
  | del key => exact absurd h id
  | set key value =>
    obtain ⟨s₁, hcall, hkv, -, -⟩ := call_set key value hmaster hsend.2.2 due
    obtain ⟨evicted, kv, hset, hw'⟩ := KVStore.set_spec hw value h
    rw [hset] at hcall hkv
    have hafter : after s (Write.set key value, due) = s₁ := by rw [after, hcall]
    rw [hafter]
    refine ⟨?_, hkv ▸ hw', { r with kvstore := kv }, ?_, hkv.symm⟩
    · rw [serveStep, hcall]
      rfl
    · rw [call_replay_set, hr, hset]
      rfl

/-- A run of loggable requests is served, and its requests replayed, to equal stores. -/
theorem replays_of_loggable : ∀ {es : Served} {s r : ServerState}, s.kvstore.WriteOnly →
    r.kvstore = s.kvstore → (∀ e ∈ es, e.1.Sendable) →
    (∀ e ∈ es, s.cluster.isMasterFor e.1.key = .ok true) → Run.Along after Loggable s es →
      ∃ s' r', serve s es = .ok s' ∧ (forM (requests es) AOF.replay).call r = (.ok (), r') ∧
        r'.kvstore = s'.kvstore := by
  intro es
  induction es with
  | nil => intro s r _ hr _ _ _; exact ⟨s, r, rfl, rfl, hr⟩
  | cons e es ih =>
    intro s r hw hr hsend hmaster h
    obtain ⟨w, due⟩ := e
    obtain ⟨hfirst, hrest⟩ := h
    obtain ⟨hserve, hw', r₁, hreplay, hr₁⟩ := loggable_step hw hr (hsend _ List.mem_cons_self)
      (hmaster _ List.mem_cons_self) hfirst
    obtain ⟨-, hcl, -⟩ :=
      serveStep_logs (hsend _ List.mem_cons_self) (hmaster _ List.mem_cons_self) hserve
    obtain ⟨s', r', hs', hr', heq⟩ := ih hw' hr₁ (fun e he => hsend e (List.mem_cons_of_mem _ he))
      (fun e he => hcl ▸ hmaster e (List.mem_cons_of_mem _ he)) hrest
    refine ⟨s', r', ?_, ?_, heq⟩
    · show (serveStep s (w, due) >>= fun s₁ => serve s₁ es) = _
      rw [hserve]
      exact hs'
    · rw [requests, List.map_cons, List.forM_cons, Method.call_bind_ok hreplay]
      exact hr'

/-- Requests that are all `SET`s and that can be replayed without an exception are loggable. -/
theorem loggable_of_replays : ∀ {es : Served} {s r : ServerState}, s.kvstore.WriteOnly →
    r.kvstore = s.kvstore → (∀ e ∈ es, e.1.Sendable) →
    (∀ e ∈ es, s.cluster.isMasterFor e.1.key = .ok true) →
    (∀ e ∈ es, ∃ key value, e.1 = .set key value) →
    (forM (requests es) AOF.replay).call r = (.ok (), r') → Run.Along after Loggable s es := by
  intro es
  induction es with
  | nil => intro s r _ _ _ _ _ _; trivial
  | cons e es ih =>
    intro s r hw hr hsend hmaster hsets h
    obtain ⟨w, due⟩ := e
    obtain ⟨key, value, rfl⟩ : ∃ key value, w = .set key value := hsets _ List.mem_cons_self
    rw [requests, List.map_cons, List.forM_cons] at h
    obtain ⟨⟨⟩, r₁, hfirst, hrest⟩ := Method.bind_eq_ok h
    have hlog : Loggable s (.set key value, due) := by
      -- without room the replay of this very request would have thrown
      by_contra hno
      have hfull := KVStore.set_full hw value hno
      rw [call_replay_set, hr, hfull] at hfirst
      exact absurd hfirst (by simp [Except.map])
    obtain ⟨hserve, hw', r₂, hreplay, hr₂⟩ := loggable_step hw hr (hsend _ List.mem_cons_self)
      (hmaster _ List.mem_cons_self) hlog
    obtain ⟨-, hcl, -⟩ :=
      serveStep_logs (hsend _ List.mem_cons_self) (hmaster _ List.mem_cons_self) hserve
    have hsame : r₂ = r₁ := congrArg Prod.snd (hreplay.symm.trans hfirst)
    subst hsame
    exact ⟨hlog, ih hw' hr₂ (fun e he => hsend e (List.mem_cons_of_mem _ he))
      (fun e he => hcl ▸ hmaster e (List.mem_cons_of_mem _ he))
      (fun e he => hsets e (List.mem_cons_of_mem _ he)) hrest⟩

end Run

/-- **The log of a master replays exactly when** it is made of `SET`s and, at each of them, the
LRU index of the key's shard has an empty bucket or lists the key.

For a `SET` the log has the whole request, and both servers do the same `KVStore::set`, so their
stores go along with each other, LRU lists included. There are two ways out of step. A `DEL` moves
its key out of the request and logs what is left. And a `SET` that throws at the LRU list has stored
its value and is in the log; the replay throws there, too, and leaves the rest undone. -/
theorem aof_replay (s r : ServerState) (es : Served) (hstore : s.kvstore = {}) (haof : s.aof = {})
    (hr : r.kvstore = {}) (hsend : ∀ e ∈ es, e.1.Sendable)
    (hmaster : ∀ e ∈ es, s.cluster.isMasterFor e.1.key = .ok true) :
    Replays s es r ↔ Run.Along after Loggable s es := by
  have hw : s.kvstore.WriteOnly := hstore ▸ KVStore.writeOnly_new
  have heq : r.kvstore = s.kvstore := hr.trans hstore.symm
  have hwire : ∀ v ∈ requests es, v.Wire := by
    intro v hv
    obtain ⟨e, he, rfl⟩ := List.mem_map.mp hv
    exact (hsend e he).wire
  have hrecover : ∀ {s'}, serve s es = .ok s' →
      AOF.recover s'.aof.flush.file = forM (requests es) AOF.replay := by
    intro s' h
    obtain ⟨-, hlog⟩ := serve_logs hsend hmaster h
    rw [hlog, haof]
    exact recover_eq hwire
  constructor
  · rintro ⟨s', r', hserve, hrun, -⟩
    rw [hrecover hserve] at hrun
    exact loggable_of_replays hw heq hsend hmaster (serve_logs hsend hmaster hserve).1 hrun
  · intro h
    obtain ⟨s', r', hserve, hrun, hsame⟩ := replays_of_loggable hw heq hsend hmaster h
    refine ⟨s', r', hserve, ?_, fun key => by rw [hsame]⟩
    rw [hrecover hserve]
    exact hrun

/-! ## A server on its own -/

/-- A node that has started and found no other. -/
def alone : ServerState where
  cluster := Cluster.addNodeToHash
    { selfNode := ⟨ascii "127.0.0.1", 7800, 7⟩, topo := [(7, ⟨ascii "127.0.0.1", 7800, 7⟩)] } 7
  raftGroups := [(0, Raft.RaftNode.construct 0 7 [] 0)]
  masterToGroup := [(7, 0)]

theorem alone_isMasterFor (key : Bytes) : alone.cluster.isMasterFor key = .ok true :=
  Cluster.isMasterFor_started ⟨ascii "127.0.0.1", 7800, 7⟩ _ key

/-- `k` is set twice. -/
def overwriting : Served :=
  [(.set [107] (.bulkString (some [49])), false), (.set [107] (.integer 2), true)]

theorem aof_replay_overwriting : Replays alone overwriting alone := by
  refine (aof_replay alone alone overwriting rfl rfl rfl ?_ fun e _ => alone_isMasterFor _).mpr ?_
  · simp [overwriting, Write.Sendable, RespValue.Wire, cr]
  · decide +kernel

/-- `k` is set and deleted. -/
def deleting : Served := [(.set [107] (.integer 1), false), (.del [107], false)]

theorem deleting_does_not_replay :
    alone.kvstore = {} ∧ alone.aof = {} ∧ (∀ e ∈ deleting, e.1.Sendable) ∧
      (∀ e ∈ deleting, alone.cluster.isMasterFor e.1.key = .ok true) ∧
      ¬ Replays alone deleting alone := by
  have hsend : ∀ e ∈ deleting, e.1.Sendable := by
    simp [deleting, Write.Sendable, RespValue.Wire, cr]
  refine ⟨rfl, rfl, hsend, fun e _ => alone_isMasterFor _, ?_⟩
  rintro ⟨s', r', hserve, -⟩
  obtain ⟨hsets, -⟩ := serve_logs hsend (fun e _ => alone_isMasterFor _) hserve
  obtain ⟨key, value, h⟩ := hsets (.del [107], false) (by simp [deleting])
  exact absurd h (by simp)

end Server
end KvJet
