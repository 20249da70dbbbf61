import KvJet.Server.Sound

/-!
# Any value, from anyone

Whatever value comes to the handlers, they should return or throw. `handlers_safe_iff` says for
which values they do something undefined instead.

* `*-1` is an array without elements to look at.
* The master of a key reads the nil bulk string it is to be set to, and logs a `DEL` whose key it
  has moved out.
* A node without a point on its ring looks for the owner of a key.
* A Raft message goes past the fields it has, or makes a leader look past its log.
* A group of the network has no simple string for its id.
-/

namespace KvJet

/-- What the language leaves open, and not an exception. -/
def Fault.Undefined : Fault → Prop
  | .exception _ => False
  | .undefined _ => True

namespace Server

open Resp Store
open Raft (RaftNode Uuid parseParts)
open Daemon (requestOf)

/-- A call has returned, or has thrown. -/
def Safe {α : Type} (out : Except Fault α) : Prop := out.Avoids Fault.Undefined

/-! ## The arguments

When the handlers look at an argument, and what they make of one that is of another kind. -/

/-- The call throws before it has done anything. -/
def Refuses (m : ServerM Bytes) : Prop := ∀ s, ∃ what, m.call s = (.error (.exception what), s)

/-- Where the call throws, it has changed nothing. -/
def Inert {σ α : Type} (m : Method Fault σ α) (s : σ) : Prop :=
  ∀ e, (m.call s).1 = .error e → ¬ e.Undefined ∧ (m.call s).2 = s

section Arguments

variable {args : List RespValue} {name : Bytes}

/-- A handler that counts its arguments, and then looks at the first of them, refuses all but a
key. -/
theorem refuses_of_keyless {body : Bytes → ServerM Bytes} {what what' : String}
    (handler : List RespValue → ServerM Bytes) (hnone : handler [] = throw (.exception what))
    (hone : ∀ v, handler [v] = match v with
      | .simpleString key => body key
      | _ => throw (.exception what'))
    (hmore : ∀ v x rest, handler (v :: x :: rest) = throw (.exception what))
    (h : ∀ key, args ≠ [.simpleString key]) : Refuses (handler args) := by
  intro s
  rcases args with _ | ⟨v, _ | ⟨x, rest⟩⟩
  · exact ⟨what, by rw [hnone]; rfl⟩
  · rw [hone v]
    cases v with
    | simpleString key => exact absurd rfl (h key)
    | error _ | integer _ | bulkString _ | array _ => exact ⟨what', rfl⟩
  · exact ⟨what, by rw [hmore]; rfl⟩

/-- The same for a key and a value. -/
theorem refuses_of_pairless {body : Bytes → RespValue → ServerM Bytes} {what what' : String}
    (handler : List RespValue → ServerM Bytes) (hnone : handler [] = throw (.exception what))
    (hone : ∀ v, handler [v] = throw (.exception what))
    (htwo : ∀ v value, handler [v, value] = match v with
      | .simpleString key => body key value
      | _ => throw (.exception what'))
    (hmore : ∀ v w x rest, handler (v :: w :: x :: rest) = throw (.exception what))
    (h : ∀ key value, args ≠ [.simpleString key, value]) : Refuses (handler args) := by
  intro s
  rcases args with _ | ⟨v, _ | ⟨value, _ | ⟨x, rest⟩⟩⟩
  · exact ⟨what, by rw [hnone]; rfl⟩
  · exact ⟨what, by rw [hone]; rfl⟩
  · rw [htwo v value]
    cases v with
    | simpleString key => exact absurd rfl (h key value)
    | error _ | integer _ | bulkString _ | array _ => exact ⟨what', rfl⟩
  · exact ⟨what, by rw [hmore]; rfl⟩

theorem refuses_SET (h : ∀ key value, args ≠ [.simpleString key, value]) (due : Bool) :
    Refuses (Handler.SET (requestOf name args) due) :=
  refuses_of_pairless (fun args => Handler.SET (requestOf name args) due) rfl (fun _ => rfl)
    (fun v _ => by cases v <;> rfl) (fun _ _ _ _ => rfl) h

theorem refuses_SETNoAOF (h : ∀ key value, args ≠ [.simpleString key, value]) :
    Refuses (Handler.SETNoAOF (requestOf name args)) :=
  refuses_of_pairless (fun args => Handler.SETNoAOF (requestOf name args)) rfl (fun _ => rfl)
    (fun v _ => by cases v <;> rfl) (fun _ _ _ _ => rfl) h

theorem refuses_GET (h : ∀ key, args ≠ [.simpleString key]) :
    Refuses (Handler.GET (requestOf name args)) :=
  refuses_of_keyless (fun args => Handler.GET (requestOf name args)) rfl
    (fun v => by cases v <;> rfl) (fun _ _ _ => rfl) h

theorem refuses_EXIST (h : ∀ key, args ≠ [.simpleString key]) :
    Refuses (Handler.EXIST (requestOf name args)) :=
  refuses_of_keyless (fun args => Handler.EXIST (requestOf name args)) rfl
    (fun v => by cases v <;> rfl) (fun _ _ _ => rfl) h

theorem refuses_DELNoAOF (h : ∀ key, args ≠ [.simpleString key]) :
    Refuses (Handler.DELNoAOF (requestOf name args)) :=
  refuses_of_keyless (fun args => Handler.DELNoAOF (requestOf name args)) rfl
    (fun v => by cases v <;> rfl) (fun _ _ _ => rfl) h

theorem refuses_DEL (h : ∀ key, args ≠ [.simpleString key]) (due : Bool) :
    Refuses (Handler.DEL (requestOf name args) due) :=
  refuses_of_keyless (fun args => Handler.DEL (requestOf name args) due) rfl
    (fun v => by cases v <;> rfl) (fun _ _ _ => rfl) h

end Arguments

/-! ## The calls they make

Behind the checks: the store, the file, the log and the ring. -/

section Calls

variable {s : ServerState}

theorem not_undefined_notFound : ¬ HashTable.notFound.Undefined := id

theorem safe_ok {α : Type} (a : α) : Safe (.ok a : Except Fault α) := Except.avoids_ok a

theorem safe_exception {α : Type} (what : String) :
    Safe (.error (.exception what) : Except Fault α) := Except.avoids_error_iff.mpr id

theorem not_safe_undefined {α : Type} (what : String) :
    ¬ Safe (.error (.undefined what) : Except Fault α) := fun h => h _ rfl trivial

theorem safe_iff {α : Type} {out : Except Fault α} :
    Safe out ↔ ∀ what, out ≠ .error (.undefined what) := by
  constructor
  · intro h what he
    exact h _ he trivial
  · rintro h (what | what) he
    · exact id
    · exact fun _ => h what he

theorem safe_map_iff {α β : Type} {f : α → β} {out : Except Fault α} :
    Safe (out.map f) ↔ Safe out := by
  cases out with
  | ok a => exact iff_of_true (safe_ok _) (safe_ok a)
  | error e => exact Except.avoids_error_iff.trans Except.avoids_error_iff.symm

theorem Refuses.safe {m : ServerM Bytes} (h : Refuses m) (s : ServerState) : Safe (m.call s).1 := by
  obtain ⟨what, hcall⟩ := h s
  rw [hcall]
  exact safe_exception what

theorem Refuses.inert {m : ServerM Bytes} (h : Refuses m) (s : ServerState) : Inert m s := by
  obtain ⟨what, hcall⟩ := h s
  intro e he
  rw [hcall] at he ⊢
  cases he
  exact ⟨id, rfl⟩

theorem Inert.safe {σ α : Type} {m : Method Fault σ α} {t : σ} (h : Inert m t) :
    Safe (m.call t).1 := fun e he => (h e he).1

theorem safe_onShard {α : Type} {key : Bytes} {mt : Method Fault (Shard RespValue) α}
    (h : s.Sound) (hmt : Shard.Behaves mt) :
    Safe ((onKVStore (KVStore.onShard key mt)).call s).1 := by
  intro e he
  rw [h.kvstore.throws hmt he]
  exact not_undefined_notFound

/-- A read and what is made of its result. -/
theorem inert_read {α : Type} {key : Bytes} {mt : Method Fault (Shard RespValue) α}
    {f : α → ServerM Bytes} (h : s.Sound) (hmt : Shard.Behaves mt ∧ Shard.Inert mt)
    (hf : ∀ a, ∃ reply, f a = pure reply) :
    Inert (onKVStore (KVStore.onShard key mt) >>= f) s := by
  intro e he
  have hpart : (onKVStore (KVStore.onShard key mt)).call s
      = (((KVStore.onShard key mt).call s.kvstore).1,
          { s with kvstore := ((KVStore.onShard key mt).call s.kvstore).2 }) := rfl
  cases hread : ((KVStore.onShard key mt).call s.kvstore).1 with
  | ok a =>
    rw [hread] at hpart
    obtain ⟨reply, hreply⟩ := hf a
    rw [Method.call_bind_ok hpart, hreply] at he
    exact nomatch he
  | error e' =>
    rw [hread, h.kvstore.unchanged hmt.2 hread] at hpart
    rw [Method.call_bind_error hpart] at he ⊢
    cases he
    rw [h.kvstore.throws hmt.1 hread]
    exact ⟨not_undefined_notFound, rfl⟩

theorem inert_GET {name : Bytes} (h : s.Sound) (args : List RespValue) :
    Inert (Handler.GET (requestOf name args)) s := by
  by_cases hkey : ∃ key, args = [.simpleString key]
  · obtain ⟨key, rfl⟩ := hkey
    have hinert : Inert (onKVStore (KVStore.onShard key (Shard.getValue key)) >>= fun result =>
        if result.isEmpty then pure (encode (.bulkString none)) else pure result) s := by
      refine inert_read h (Shard.read_getValue key) fun result => ?_
      split
      · exact ⟨_, rfl⟩
      · exact ⟨_, rfl⟩
    exact hinert
  · exact (refuses_GET (fun key heq => hkey ⟨key, heq⟩)).inert s

theorem inert_EXIST {name : Bytes} (h : s.Sound) (args : List RespValue) :
    Inert (Handler.EXIST (requestOf name args)) s := by
  by_cases hkey : ∃ key, args = [.simpleString key]
  · obtain ⟨key, rfl⟩ := hkey
    exact inert_read h (Shard.read_get key) fun ret => ⟨_, rfl⟩
  · exact (refuses_EXIST (fun key heq => hkey ⟨key, heq⟩)).inert s

/-! ### The owner of a key -/

theorem isMasterFor_of_nil {c : Cluster} (h : c.nodeHash = []) (key : Bytes) :
    c.isMasterFor key = .error (.undefined "begin of an empty map") := by
  rw [Cluster.isMasterFor, Cluster.queryNode_eq, h]
  rfl

theorem exists_isMasterFor {c : Cluster} (h : c.nodeHash ≠ []) (key : Bytes) :
    ∃ owner, c.queryNode key = .ok owner ∧
      ∃ master, c.isMasterFor key = .ok master := by
  obtain ⟨point, hpoint⟩ : ∃ p, OrderedMap.next (Cluster.hashString key) c.nodeHash = some p :=
    OrderedMap.exists_next h
  have hquery : c.queryNode key = .ok point.2 := by rw [Cluster.queryNode_eq, hpoint]
  exact ⟨_, hquery, _, by rw [Cluster.isMasterFor, hquery]; rfl⟩

/-- A write ends with the owner of its key, or goes on. -/
theorem write_cases (w : Write) (due : Bool) (s : ServerState) :
    (s.cluster.nodeHash = [] ∧ ∃ what, (w.handle due).call s = (.error (.undefined what), s)) ∨
    (s.cluster.nodeHash ≠ [] ∧ s.cluster.isMasterFor w.key = .ok false ∧
      ∃ reply, (w.handle due).call s = (.ok reply, s)) ∨
    (s.cluster.nodeHash ≠ [] ∧ s.cluster.isMasterFor w.key = .ok true) := by
  by_cases hring : s.cluster.nodeHash = []
  · refine Or.inl ⟨hring, "begin of an empty map", ?_⟩
    rw [Handler.call_handle, Handler.checked, isMasterFor_of_nil hring]
    rfl
  obtain ⟨owner, howner, master, hmaster⟩ := exists_isMasterFor hring w.key
  cases master with
  | true => exact Or.inr (Or.inr ⟨hring, hmaster⟩)
  | false =>
    refine Or.inr (Or.inl ⟨hring, hmaster, Handler.movedReply s.cluster owner, ?_⟩)
    rw [Handler.call_handle, Handler.checked, hmaster, howner]
    rfl

theorem set_nil (key : Bytes) (due : Bool) (hmaster : s.cluster.isMasterFor key = .ok true) :
    ((Write.set key (.bulkString none)).handle due).call s
      = (.error (.undefined "value of an empty optional"), s) := by
  rw [Handler.call_handle, Handler.checked, show (Write.set key (.bulkString none)).key = key from rfl,
    hmaster]
  rfl

theorem safe_set_iff (h : s.Sound) (key : Bytes) (value : RespValue) (due : Bool) :
    Safe (((Write.set key value).handle due).call s).1 ↔ s.cluster.nodeHash ≠ [] ∧
      (s.cluster.isMasterFor key = .ok true → value ≠ .bulkString none) := by
  rcases write_cases (.set key value) due s with
    ⟨hring, what, hcall⟩ | ⟨hring, hmaster, reply, hcall⟩ | ⟨hring, hmaster⟩
  · rw [hcall]
    exact iff_of_false (not_safe_undefined what) fun hneeds => hneeds.1 hring
  · rw [hcall]
    refine iff_of_true (safe_ok reply) ⟨hring, fun hyes => ?_⟩
    exact nomatch hmaster.symm.trans hyes
  · by_cases hvalue : value = .bulkString none
    · subst hvalue
      rw [set_nil key due hmaster]
      exact iff_of_false (not_safe_undefined _) fun hneeds => hneeds.2 hmaster rfl
    · refine iff_of_true ?_ ⟨hring, fun _ => hvalue⟩
      -- what is left to go wrong is the store, which only throws
      obtain ⟨s', hcall, -⟩ := call_set key value hmaster hvalue due
      rw [hcall]
      intro e he
      cases hset : ((KVStore.set key value).call s.kvstore).1 with
      | ok r =>
        rw [hset] at he
        exact nomatch he
      | error e' =>
        rw [hset] at he
        cases he
        rw [h.kvstore.throws (Shard.behaves_set key value) hset]
        exact not_undefined_notFound

theorem safe_del_iff (key : Bytes) (due : Bool) :
    Safe (((Write.del key).handle due).call s).1 ↔ s.cluster.nodeHash ≠ [] ∧
      s.cluster.isMasterFor key ≠ .ok true := by
  rcases write_cases (.del key) due s with
    ⟨hring, what, hcall⟩ | ⟨hring, hmaster, reply, hcall⟩ | ⟨hring, hmaster⟩
  · rw [hcall]
    exact iff_of_false (not_safe_undefined what) fun hneeds => hneeds.1 hring
  · rw [hcall]
    exact iff_of_true (safe_ok reply) ⟨hring, fun hyes => nomatch hmaster.symm.trans hyes⟩
  · -- the key is moved out before the request is logged
    obtain ⟨what, hcall⟩ := call_del key hmaster due
    rw [hcall]
    exact iff_of_false (not_safe_undefined what) fun hneeds => hneeds.2 hmaster

end Calls

/-! ## The other handlers -/

namespace Daemon

variable {d : Daemon}

theorem inert_onServer {α : Type} {m : ServerM α} (h : Inert m d.server) :
    Inert (onServer m) d := by
  intro e he
  obtain ⟨hdefined, hsame⟩ := h e he
  refine ⟨hdefined, ?_⟩
  rw [call_onServer, hsame, withServer_server]

theorem inert_SYNCDONE (name : Bytes) (args : List RespValue) :
    Inert (SYNCDONE (requestOf name args)) d := by
  intro e he
  cases args with
  | nil =>
    cases he
    exact ⟨id, rfl⟩
  | cons x rest => exact nomatch he

theorem inert_HELLO (name : Bytes) (args : List RespValue) (fd : Int) :
    Inert (HELLO (requestOf name args) fd) d := by
  intro e he
  rcases args with _ | ⟨x, _ | ⟨y, rest⟩⟩
  · cases he
    exact ⟨id, rfl⟩
  · cases x with
    | simpleString uuid => exact nomatch he
    | error _ | integer _ | bulkString _ | array _ =>
      cases he
      exact ⟨id, rfl⟩
  · cases he
    exact ⟨id, rfl⟩

theorem safe_getNode (v : RespValue) : Safe (getNode v) := by
  unfold getNode
  split
  · exact safe_ok _
  · exact safe_exception _
  · exact safe_exception _

theorem safe_welcome (v : RespValue) (d : Daemon) : Safe ((welcome v).call d).1 := by
  refine Method.avoids_bind_iff.mpr ⟨safe_getNode v, fun node d₁ _ => ?_⟩
  obtain ⟨d₂, hjoin, -⟩ := call_join node d₁
  rw [Method.call_bind_ok hjoin]
  exact safe_ok _

theorem safe_farewell (v : RespValue) (d : Daemon) : Safe ((farewell v).call d).1 := by
  cases v with
  | simpleString node => exact safe_ok _
  | error _ | integer _ | bulkString _ | array _ => exact safe_exception _

/-- What the two handlers of gossip have in common is refused, ignored or sent on. -/
theorem safe_relaying {arity fault : String} {own : RespValue → DaemonM Bytes}
    (hown : ∀ v d, Safe ((own v).call d).1) (name : Bytes) (args : List RespValue) (now : UInt64) :
    Safe ((relaying arity fault own (requestOf name args) now).call d).1 := by
  by_cases hform : ∃ uuid v, args = [.simpleString uuid, v]
  · obtain ⟨uuid, v, rfl⟩ := hform
    cases hfind : d.gossip.findGossip (toUint64 uuid) with
    | true =>
      rw [relaying_known hfind]
      exact safe_ok _
    | false =>
      rw [relaying_new hfind]
      exact hown v _
  · obtain ⟨what, hcall⟩ : ∃ what, (relaying arity fault own (requestOf name args) now).call d = _ :=
      relaying_malformed (fun uuid v heq => hform ⟨uuid, v, heq⟩) now d
    rw [hcall]
    exact safe_exception what

theorem requestOf_inj {name name' : Bytes} {args args' : List RespValue}
    (h : requestOf name args = requestOf name' args') : name = name' ∧ args = args' := by
  simpa [requestOf] using h

/-- The group that a message is for can take its text. -/
def RaftHarmless (d : Daemon) (fd : Int) (request : RespValue) : Prop :=
  ∀ name ∈ raftCommands, ∀ gid args, request = requestOf name (gid :: args) →
    ∀ rn, d.raftGroups.lookup (groupOf gid).toNat = some rn →
      ¬ rn.ShortReply (parseParts (encode request)) ∧
        ¬ rn.Overreaching (d.peers.getUuidByFd fd) (parseParts (encode request))

theorem safe_handleRaft_iff (h : d.Sound) {name : Bytes} (hname : name ∈ raftCommands)
    (args : List RespValue) (fd : Int) (r : Reading) :
    Safe ((handleRaft (requestOf name args) fd r).call d).1 ↔
      d.RaftHarmless fd (requestOf name args) := by
  cases args with
  | nil =>
    rw [handleRaft_ignored fd r (by simp)]
    refine iff_of_true (safe_ok _) fun name' _ gid args heq => ?_
    exact absurd heq (by simp [requestOf])
  | cons gid args =>
    cases hlookup : d.raftGroups.lookup (groupOf gid).toNat with
    | none =>
      rw [handleRaft_ignored fd r (by simpa using hlookup)]
      refine iff_of_true (safe_ok _) fun name' _ gid' args' heq rn hrn => ?_
      obtain ⟨rfl, -⟩ := List.cons.inj (requestOf_inj heq).2
      exact absurd (hlookup.symm.trans hrn) (by simp)
    | some rn =>
      rw [call_handleRaft fd r hlookup]
      have hslotted := (h.server.sturdy_of_lookup hlookup).slotted
      let raw := encode (requestOf name (gid :: args))
      have hin : Raft.InBounds ((RaftNode.Checked.stepText none (d.peers.getUuidByFd fd) raw
          r.rand).call rn) ↔ _ := RaftNode.stepText_inBounds_iff hslotted raw
      rw [safe_map_iff, safe_iff]
      refine hin.trans ⟨fun hneeds name' _ gid' args' heq rn' hrn => ?_, fun hneeds => ?_⟩
      · obtain ⟨-, rfl, -⟩ : name = name' ∧ gid = gid' ∧ args = args' := by
          simpa [requestOf] using heq
        obtain rfl : rn = rn' := Option.some.inj (hlookup.symm.trans hrn)
        exact hneeds
      · exact hneeds name hname gid args rfl rn hlookup

/-- What a server needs of a request. -/
structure Harmless (d : Daemon) (fd : Int) (request : RespValue) : Prop where
  filled : request ≠ .array none
  set : ∀ key value, request = (Write.set key value).request → d.syncing = false →
    d.cluster.nodeHash ≠ [] ∧ (d.cluster.isMasterFor key = .ok true → value ≠ .bulkString none)
  del : ∀ key, request = (Write.del key).request → d.syncing = false →
    d.cluster.nodeHash ≠ [] ∧ d.cluster.isMasterFor key ≠ .ok true
  raft : d.RaftHarmless fd request

/-- Only writes and the messages of Raft can do harm. -/
theorem harmless_of {fd : Int} {request : RespValue} (hfilled : request ≠ .array none)
    (hname : ∀ name args, request = requestOf name args →
      (name = ascii "SET" ∨ name = ascii "DEL" → d.syncing = true) ∧ name ∉ raftCommands) :
    d.Harmless fd request where
  filled := hfilled
  set := by
    intro key value heq hsyncing
    have hyes := (hname (ascii "SET") [.simpleString key, value] heq).1 (Or.inl rfl)
    exact nomatch hsyncing.symm.trans hyes
  del := by
    intro key heq hsyncing
    have hyes := (hname (ascii "DEL") [.simpleString key] heq).1 (Or.inr rfl)
    exact nomatch hsyncing.symm.trans hyes
  raft := fun name hraft gid args heq => absurd hraft (hname name (gid :: args) heq).2

theorem harmless_requestOf {fd : Int} {name : Bytes} (args : List RespValue)
    (hwrite : name = ascii "SET" ∨ name = ascii "DEL" → d.syncing = true)
    (hraft : name ∉ raftCommands) : d.Harmless fd (requestOf name args) := by
  refine harmless_of (by simp [requestOf]) fun name' args' heq => ?_
  obtain ⟨rfl, -⟩ := requestOf_inj heq
  exact ⟨hwrite, hraft⟩

theorem harmless_other {fd : Int} {name : Bytes} (args : List RespValue)
    (hname : name ∉ ascii "SET" :: ascii "DEL" :: raftCommands) :
    d.Harmless fd (requestOf name args) := by
  obtain ⟨hset, hrest⟩ := not_or.mp (mt List.mem_cons.mpr hname)
  obtain ⟨hdel, hraft⟩ := not_or.mp (mt List.mem_cons.mpr hrest)
  exact harmless_requestOf args (fun hwrite => (hwrite.elim hset hdel).elim) hraft

/-- What is asked of one of the three kinds is all that is asked. -/
theorem harmless_SET_iff {fd : Int} {args : List RespValue} :
    d.Harmless fd (requestOf (ascii "SET") args) ↔
      ∀ key value, args = [.simpleString key, value] → d.syncing = false →
        d.cluster.nodeHash ≠ [] ∧
          (d.cluster.isMasterFor key = .ok true → value ≠ .bulkString none) := by
  refine ⟨fun h key value heq => h.set key value (congrArg _ heq), fun h => ?_⟩
  refine ⟨by simp [requestOf], fun key value heq => h key value (requestOf_inj heq).2, ?_, ?_⟩
  · exact fun key heq => absurd (requestOf_inj heq).1 (by decide)
  · exact fun name hraft gid args heq => absurd hraft ((requestOf_inj heq).1 ▸ by decide)

theorem harmless_DEL_iff {fd : Int} {args : List RespValue} :
    d.Harmless fd (requestOf (ascii "DEL") args) ↔
      ∀ key, args = [.simpleString key] → d.syncing = false →
        d.cluster.nodeHash ≠ [] ∧ d.cluster.isMasterFor key ≠ .ok true := by
  refine ⟨fun h key heq => h.del key (congrArg _ heq), fun h => ?_⟩
  refine ⟨by simp [requestOf], ?_, fun key heq => h key (requestOf_inj heq).2, ?_⟩
  · exact fun key value heq => absurd (requestOf_inj heq).1 (by decide)
  · exact fun name hraft gid args heq => absurd hraft ((requestOf_inj heq).1 ▸ by decide)

theorem harmless_raft_iff {fd : Int} {name : Bytes} (hraft : name ∈ raftCommands)
    {args : List RespValue} :
    d.Harmless fd (requestOf name args) ↔ d.RaftHarmless fd (requestOf name args) := by
  have hwrite : ascii "SET" ∉ raftCommands ∧ ascii "DEL" ∉ raftCommands := by decide
  refine ⟨Harmless.raft, fun h => ⟨by simp [requestOf], ?_, ?_, h⟩⟩
  · intro key value heq
    obtain rfl : name = ascii "SET" := (requestOf_inj heq).1
    exact absurd hraft hwrite.1
  · intro key heq
    obtain rfl : name = ascii "DEL" := (requestOf_inj heq).1
    exact absurd hraft hwrite.2

theorem handle_safe_iff (h : d.Sound) (request : RespValue) (fd : Int) (r : Reading) :
    Safe ((handle request fd r).call d).1 ↔ d.Harmless fd request := by
  obtain ⟨m, hm, hcall⟩ := call_handle request fd r d
  rw [hcall]
  cases hm with
  | nil => exact iff_of_false (not_safe_undefined _) fun hneeds => hneeds.filled rfl
  | refused request what hnil hname =>
    refine iff_of_true (safe_exception what) (harmless_of hnil fun name args heq => ?_)
    have hunknown := hname name args heq
    refine ⟨?_, fun hraft => hunknown ?_⟩
    · rintro (rfl | rfl)
      · exact absurd (by decide) hunknown
      · exact absurd (by decide) hunknown
    · exact List.mem_append_left _ (List.mem_append_left _ (List.mem_append_right _ hraft))
  | ok => exact iff_of_true (safe_ok _) (harmless_of nofun (by simp [requestOf]))
  | syncdone args =>
    exact iff_of_true (inert_SYNCDONE _ args).safe (harmless_other args (by decide))
  | heartbeat args =>
    exact iff_of_true (safe_ok _) (harmless_other args (by decide))
  | raft name args hraft =>
    rw [safe_handleRaft_iff h hraft]
    exact (harmless_raft_iff hraft).symm
  | loading name args hsyncing hdata =>
    have hother : ∀ name ∈ Handler.dataCommands, name ∉ raftCommands := by decide
    exact iff_of_true (safe_ok _) (harmless_requestOf args (fun _ => hsyncing) (hother name hdata))
  | get args hsyncing =>
    exact iff_of_true (inert_onServer (inert_GET h.server args)).safe
      (harmless_other args (by decide))
  | set args hsyncing =>
    rw [harmless_SET_iff]
    by_cases hform : ∃ key value, args = [.simpleString key, value]
    · obtain ⟨key, value, rfl⟩ := hform
      refine (safe_set_iff h.server key value r.due).trans ⟨?_, fun hneeds => hneeds key value rfl hsyncing⟩
      rintro hneeds key' value' ⟨rfl, rfl⟩ -
      exact hneeds
    · have hrefuses : Refuses (Handler.SET (requestOf (ascii "SET") args) r.due) :=
        refuses_SET (fun key value heq => hform ⟨key, value, heq⟩) r.due
      exact iff_of_true (hrefuses.safe d.server) fun key value heq => absurd ⟨key, value, heq⟩ hform
  | del args hsyncing =>
    rw [harmless_DEL_iff]
    by_cases hform : ∃ key, args = [.simpleString key]
    · obtain ⟨key, rfl⟩ := hform
      refine (safe_del_iff key r.due).trans ⟨?_, fun hneeds => hneeds key rfl hsyncing⟩
      rintro hneeds key' ⟨rfl⟩ -
      exact hneeds
    · have hrefuses : Refuses (Handler.DEL (requestOf (ascii "DEL") args) r.due) :=
        refuses_DEL (fun key heq => hform ⟨key, heq⟩) r.due
      exact iff_of_true (hrefuses.safe d.server) fun key heq => absurd ⟨key, heq⟩ hform
  | exist args hsyncing =>
    exact iff_of_true (inert_onServer (inert_EXIST h.server args)).safe
      (harmless_other args (by decide))
  | nodein args =>
    exact iff_of_true (safe_relaying safe_welcome _ args r.now) (harmless_other args (by decide))
  | nodeout args =>
    exact iff_of_true (safe_relaying safe_farewell _ args r.now) (harmless_other args (by decide))
  | network args =>
    exact iff_of_true (safe_ok _) (harmless_other args (by decide))
  | hello args =>
    exact iff_of_true (inert_HELLO _ args fd).safe (harmless_other args (by decide))

end Daemon

/-! ## Replay -/

section Replay

variable {s : ServerState}

/-- A write without Raft and without the log. -/
theorem safe_SETNoAOF (h : s.Sound) (name : Bytes) (args : List RespValue) :
    Safe ((Handler.SETNoAOF (requestOf name args)).call s).1 := by
  by_cases hform : ∃ key value, args = [.simpleString key, value]
  · obtain ⟨key, value, rfl⟩ := hform
    refine Method.avoids_bind_iff (m := onKVStore (KVStore.onShard key (Shard.set key value))).mpr
      ⟨safe_onShard h (Shard.behaves_set key value), fun _ s' _ => safe_ok _⟩
  · exact (refuses_SETNoAOF fun key value heq => hform ⟨key, value, heq⟩).safe s

theorem safe_DELNoAOF (h : s.Sound) (name : Bytes) (args : List RespValue) :
    Safe ((Handler.DELNoAOF (requestOf name args)).call s).1 := by
  by_cases hform : ∃ key, args = [.simpleString key]
  · obtain ⟨key, rfl⟩ := hform
    refine Method.avoids_bind_iff (m := onKVStore (KVStore.onShard key (Shard.del key))).mpr
      ⟨safe_onShard h (Shard.behaves_del key), fun _ s' _ => safe_ok _⟩
  · exact (refuses_DELNoAOF fun key heq => hform ⟨key, heq⟩).safe s

theorem handleNoAOF_safe_iff (h : s.Sound) (request : RespValue) :
    Safe ((Handler.handleNoAOF request).call s).1 ↔ request ≠ .array none := by
  unfold Handler.handleNoAOF
  split
  · exact iff_of_false (not_safe_undefined _) fun hfilled => hfilled rfl
  · exact iff_of_true (safe_exception _) (by simp)
  · rename_i command args
    refine iff_of_true ?_ (by simp)
    by_cases hget : command = ascii "GET"
    · rw [if_pos hget]
      exact (inert_GET h args).safe
    rw [if_neg hget]
    by_cases hset : command = ascii "SET"
    · rw [if_pos hset]
      exact safe_SETNoAOF h command args
    rw [if_neg hset]
    by_cases hdel : command = ascii "DEL"
    · rw [if_pos hdel]
      exact safe_DELNoAOF h command args
    rw [if_neg hdel]
    by_cases hexist : command = ascii "EXIST"
    · rw [if_pos hexist]
      exact (inert_EXIST h args).safe
    · rw [if_neg hexist]
      exact safe_exception _
  · exact iff_of_true (safe_exception _) (by simp)
  · rename_i hnil _ _ _
    exact iff_of_true (safe_exception _) hnil

end Replay

/-! ## The text of a network -/

def IsNode (v : RespValue) : Prop :=
  ∃ ip port uuid, v = .array (some [.simpleString ip, .integer port, .simpleString uuid])

/-- A group with a member, whose id is no simple string. -/
def Nameless (v : RespValue) : Prop :=
  ∃ gid first rest, v = .array (some (gid :: first :: rest)) ∧ ∀ s, gid ≠ .simpleString s

theorem getGroup_cases (groups : List (UInt64 × List Uuid)) (v : RespValue) :
    (∃ groups', getGroup groups v = .ok groups') ∧ ¬ Nameless v ∨
      (∃ what, getGroup groups v = .error (.undefined what)) ∧ Nameless v := by
  unfold getGroup
  split
  · rename_i gid first rest
    split
    · refine Or.inl ⟨⟨_, rfl⟩, ?_⟩
      rintro ⟨_, _, _, ⟨rfl, rfl, rfl⟩, hnot⟩
      exact hnot _ rfl
    · rename_i hnot
      exact Or.inr ⟨⟨_, rfl⟩, gid, first, rest, rfl, hnot⟩
  · rename_i hnot
    refine Or.inl ⟨⟨_, rfl⟩, ?_⟩
    rintro ⟨gid, first, rest, rfl, -⟩
    exact hnot gid first rest rfl

theorem safe_getGroups_iff (values : List RespValue) : ∀ groups : List (UInt64 × List Uuid),
    Safe (values.foldlM getGroup groups) ↔ ∀ v ∈ values, ¬ Nameless v := by
  induction values with
  | nil => exact fun groups => iff_of_true (safe_ok _) nofun
  | cons v values ih =>
    intro groups
    rw [List.foldlM_cons, List.forall_mem_cons]
    rcases getGroup_cases groups v with ⟨⟨groups', hget⟩, hnamed⟩ | ⟨⟨what, hget⟩, hnameless⟩
    · -- the groups so far do not matter for what comes
      rw [hget]
      exact (ih groups').trans (and_iff_right hnamed).symm
    · rw [hget]
      exact iff_of_false (not_safe_undefined what) fun hall => hall.1 hnameless

theorem getNode_isOk_iff (v : RespValue) : (getNode v).isOk = true ↔ IsNode v := by
  unfold getNode
  split
  · exact iff_of_true rfl ⟨_, _, _, rfl⟩
  · rename_i hnot
    refine iff_of_false Bool.false_ne_true ?_
    rintro ⟨ip, port, uuid, ⟨rfl, rfl, rfl⟩⟩
    exact hnot ip port uuid rfl rfl rfl
  · rename_i hnot
    refine iff_of_false Bool.false_ne_true ?_
    rintro ⟨ip, port, uuid, rfl⟩
    exact hnot _ _ _ rfl

/-- The nodes of the network can be read, and one of its groups is nameless. -/
def Garbled (value : RespValue) : Prop :=
  ∃ nodes values rest, value = .array (some (.array (some nodes) :: .array (some values) :: rest)) ∧
    (∀ node ∈ nodes, IsNode node) ∧ ∃ v ∈ values, Nameless v

theorem getTopo_isOk_iff (v : RespValue) :
    (getTopo v).isOk = true ↔ ∃ nodes, v = .array (some nodes) ∧ ∀ node ∈ nodes, IsNode node := by
  unfold getTopo
  split
  · rename_i nodes
    rw [Except.isOk_mapM]
    simp [getNode_isOk_iff]
  · rename_i hnot
    refine iff_of_false Bool.false_ne_true ?_
    rintro ⟨nodes, rfl, -⟩
    exact hnot nodes rfl

theorem safe_getTopo (v : RespValue) : Safe (getTopo v) := by
  unfold getTopo
  split
  · exact Except.avoids_mapM fun node _ => Daemon.safe_getNode node
  · exact safe_exception _

theorem getTopoV2_safe_iff (value : RespValue) (groups : List (UInt64 × List Uuid)) :
    Safe (getTopoV2 value groups) ↔ ¬ Garbled value := by
  unfold getTopoV2
  split
  · rename_i topo rest
    refine Except.avoids_bind_iff.trans ⟨?_, fun hgarbled => ?_⟩
    · rintro ⟨-, hrest⟩ ⟨nodes, values, rest', ⟨rfl, rfl⟩, hnodes, v, hv, hnameless⟩
      obtain ⟨read, hread⟩ := Except.exists_of_isOk ((getTopo_isOk_iff _).mpr ⟨nodes, rfl, hnodes⟩)
      have hgroups : Safe (values.foldlM getGroup groups) :=
        (Except.avoids_bind_iff.mp (hrest read hread)).1
      exact (safe_getGroups_iff values groups).mp hgroups v hv hnameless
    · refine ⟨safe_getTopo topo, fun read hread => ?_⟩
      obtain ⟨nodes, rfl, hnodes⟩ := (getTopo_isOk_iff topo).mp (by rw [hread]; rfl)
      split
      · rename_i values rest'
        refine Except.avoids_bind_iff.mpr ⟨(safe_getGroups_iff values groups).mpr ?_,
          fun _ _ => safe_ok _⟩
        exact fun v hv hnameless => hgarbled ⟨nodes, values, rest', rfl, hnodes, v, hv, hnameless⟩
      · exact safe_ok _
  · rename_i hnot
    refine iff_of_true (safe_exception _) ?_
    rintro ⟨nodes, values, rest, rfl, -⟩
    exact hnot _ _ rfl

/-! ## Every value -/

/-- **When a value is safe**, on every server that is reached.

The handlers look at the number of the elements and at their kinds before they use them, with the
few exceptions that `Harmless` lists. What they use beside the request is the server's own state,
and that is never such that it would be undefined: no run brings it out of `Sound`, not even one in
which requests throw. -/
theorem handlers_safe_iff {start : Daemon} (hstart : start.Started) (es : List Daemon.Event)
    (request value : RespValue) (fd : Int) (r : Reading) (groups : List (UInt64 × List Uuid)) :
    let d := Run.exec Daemon.step start es
    (Safe ((Daemon.handle request fd r).call d).1 ↔ d.Harmless fd request) ∧
      (Safe ((Handler.handleNoAOF request).call d.server).1 ↔ request ≠ .array none) ∧
      (Safe (getTopoV2 value groups) ↔ ¬ Garbled value) := by
  have hsound : (Run.exec Daemon.step start es).Sound := Daemon.sound_exec hstart.sound es
  exact ⟨Daemon.handle_safe_iff hsound request fd r, handleNoAOF_safe_iff hsound.server request,
    getTopoV2_safe_iff value groups⟩

/-- A node that has started and found no other. -/
def lone : Daemon where
  cluster := alone.cluster

theorem lone_started : lone.Started where
  kvstore := ⟨shardCount, lruMaxSize, fun _ => none, by decide, nofun, rfl⟩
  raftGroups := rfl
  gossip := rfl

/-- A key is set and then read. -/
theorem handlers_safe_iff_lone :
    let set := (Write.set (ascii "k") (.integer 1)).request
    let get := requestOf (ascii "GET") [.simpleString (ascii "k")]
    let d := Run.exec Daemon.step lone [.handle set 5 ⟨0, false, 0⟩]
    (Safe ((Daemon.handle get 5 ⟨0, false, 0⟩).call d).1 ↔ d.Harmless 5 get) ∧
      (Safe ((Handler.handleNoAOF get).call d.server).1 ↔ get ≠ .array none) ∧
      (Safe (getTopoV2 (.array none) []) ↔ ¬ Garbled (.array none)) :=
  handlers_safe_iff lone_started [.handle _ 5 ⟨0, false, 0⟩] _ (.array none) 5 ⟨0, false, 0⟩ []

/-- The parser hands out a nil array, a nil bulk string as the value of a key, a `DEL`, and a
group with a number for its id. -/
theorem handlers_unsafe :
    let set := (Write.set (ascii "k") (.bulkString none)).request
    let del := (Write.del (ascii "k")).request
    let network := RespValue.array (some [.array (some []),
      .array (some [.array (some [.integer 1, .integer 2])])])
    (∃ p, RespParser.append {} ([.array none, set, del, network].flatMap encode) = .ok p ∧
      p.messageQueue = [.array none, set, del, network]) ∧
    (∀ request ∈ [.array none, set, del],
      ¬ Safe ((Daemon.handle request 5 ⟨0, false, 0⟩).call lone).1) ∧
    ¬ Safe ((Handler.handleNoAOF (.array none)).call lone.server).1 ∧
    ¬ Safe (getTopoV2 network []) := by
  have hmaster : lone.cluster.isMasterFor (ascii "k") = .ok true := alone_isMasterFor _
  have hsafe : ∀ request, Safe ((Daemon.handle request 5 ⟨0, false, 0⟩).call lone).1 ↔
      lone.Harmless 5 request := fun request =>
    Daemon.handle_safe_iff lone_started.sound request 5 _
  refine ⟨?_, ?_, ?_, ?_⟩
  · refine ⟨_, append_encodings _ ?_ [], rfl⟩
    simp [Write.request, RespValue.Wire, WireAll, ascii, cr]
  · simp only [hsafe, List.forall_mem_cons]
    exact ⟨fun h => h.filled rfl, fun h => (h.set _ _ rfl rfl).2 hmaster rfl,
      fun h => (h.del _ rfl rfl).2 hmaster, by simp⟩
  · exact fun h => (handleNoAOF_safe_iff lone_started.sound.server _).mp h rfl
  · refine fun h => (getTopoV2_safe_iff _ _).mp h ⟨[], _, [], rfl, by simp, _, List.mem_cons_self, ?_⟩
    exact ⟨_, _, _, rfl, by simp⟩

end Server
end KvJet
