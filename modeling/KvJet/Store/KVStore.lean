import KvJet.Resp.Encoder
import KvJet.Store.LRU

/-!
# The sharded store

`KVStore<T>` (`KVStore.h`, `KVStore.cpp`): a fixed number of shards, each with its own table and
its own LRU list. A call locks the shard of its key and does everything under that lock, so one
call is one step.

`set` writes the table first and the LRU list after it. The key the LRU list evicts is handed
to the caller; it stays in the table.
-/

namespace KvJet
namespace Store

/-- `Config::SHARD_COUNT`. -/
def shardCount : Nat := 16

/-- `Config::LRU_MAX_SIZE`. -/
def lruMaxSize : Nat := 100000

structure Shard (T : Type) [Inhabited T] where
  data : HashTable T := HashTable.fresh
  lru : LRU := { maxsz := lruMaxSize }

structure KVStore (T : Type) [Inhabited T] where
  shards : List (Shard T) := List.replicate shardCount {}

namespace KVStore

variable {T α : Type} [Inhabited T]

/-- A method of the table of a shard. -/
def data (f : HashTable T → Except Fault (α × HashTable T)) : Method Fault (Shard T) α := do
  let (a, data) ← Method.lift (f (← get).data)
  modify fun shard => { shard with data }
  return a

/-- A method of the LRU list of a shard. -/
def lru (m : Method Fault LRU α) : Method Fault (Shard T) α :=
  Method.part Shard.lru (fun lru shard => { shard with lru }) m

/-- `HashTable<T>::gethash(key) % shardCount`. -/
def shardIndex (s : KVStore T) (key : Bytes) : Nat :=
  (HashTable.gethash key).toNat % s.shards.length

/-- What a call does with `getShard(key)` under its lock. -/
def onShard (key : Bytes) (m : Method Fault (Shard T) α) : Method Fault (KVStore T) α := do
  let s ← get
  match s.shards[s.shardIndex key]? with
  | none => throw (.undefined "modulo zero")
  | some shard =>
    modify fun s => { s with shards := s.shards.set (s.shardIndex key) (m.call shard).2 }
    Method.lift (m.call shard).1

def set (key : Bytes) (value : T) : Method Fault (KVStore T) (Option Bytes) :=
  onShard key do
    data fun t => return ((), ← t.set key value)
    lru (LRU.set key)

def get (key : Bytes) : Method Fault (KVStore T) (Option T) :=
  onShard key do
    let result ← data fun t => return (← t.get key, t)
    if result.isSome then lru (LRU.access key)
    return result

/-- `getValue`, where `T` is `resp::RespValue`. -/
def getValue (key : Bytes) : Method Fault (KVStore Resp.RespValue) Bytes :=
  onShard key do
    match ← data fun t => return (← t.get key, t) with
    | none => return []
    | some result =>
      lru (LRU.access key)
      return Resp.encode result

def del (key : Bytes) : Method Fault (KVStore T) Bool :=
  onShard key do
    let result ← data fun t => t.erase key
    if result then lru (LRU.del key)
    return result

def checkexist (key : Bytes) : Method Fault (KVStore T) Bool :=
  onShard key (data fun t => return (← t.checkexist key, t))

/-- What `forEach` hands to its callback, shard by shard. -/
def forEach (s : KVStore T) : List (Bytes × T) := s.shards.flatMap fun shard => shard.data.forEach

/-- The value a store holds for a key, looked up without touching the LRU list. -/
def lookup (s : KVStore T) (key : Bytes) : Except Fault (Option T) :=
  match s.shards[s.shardIndex key]? with
  | none => .error (.undefined "modulo zero")
  | some shard => shard.data.get key

end KVStore

/-! ## Tables without tombstones

`find` needs an empty bucket. While nothing is deleted the load alone leaves one, and this is what
the replay of a log can count on. -/

namespace HashTable

variable {T : Type} [Inhabited T]

/-- No bucket is `DELETED`. -/
def Clean (buckets : List (Node T)) : Prop := ∀ node ∈ buckets, node.status ≠ .deleted

omit [Inhabited T] in
theorem Clean.set {buckets : List (Node T)} (h : Clean buckets) (p : Nat) {node : Node T}
    (hn : node.status ≠ .deleted) : Clean (buckets.set p node) := by
  intro x hx
  rcases List.mem_or_eq_of_mem_set hx with hin | rfl
  · exact h x hin
  · exact hn

omit [Inhabited T] in
theorem Clean.moveAll : ∀ {old : List (Node T)} {acc t : HashTable T},
    old.foldlM move acc = .ok t → Clean acc.buckets → Clean t.buckets := by
  intro old
  induction old with
  | nil =>
    intro acc t h hc
    cases h
    exact hc
  | cons node old ih =>
    intro acc t h hc
    rw [List.foldlM_cons] at h
    by_cases hst : node.status = .occupied
    · cases hf : acc.find node.key with
      | error e => simp [move, hst, hf, bind, Except.bind] at h
      | ok p =>
        simp only [move, hst, hf, bind, Except.bind, pure, Except.pure, ne_eq,
          not_true_eq_false, if_false] at h
        exact ih h (hc.set p (by simp))
    · simp only [move, ne_eq, hst, not_false_eq_true, if_true, bind, Except.bind] at h
      exact ih h hc

/-- `set` leaves no tombstone where there was none. -/
theorem Clean.of_set {t t' : HashTable T} {key : Bytes} {value : T}
    (h : t.set key value = .ok t') (hc : Clean t.buckets) : Clean t'.buckets := by
  cases hf : t.find key with
  | error e => simp [HashTable.set, hf, bind, Except.bind] at h
  | ok p =>
    simp only [HashTable.set, hf, bind, Except.bind, pure, Except.pure] at h
    split at h
    · rename_i hst
      cases h
      exact hc.set p (by simp [hst])
    · split at h
      · exact Clean.moveAll h fun node hn => by simp [List.eq_of_mem_replicate hn, blank]
      · cases h
        exact hc.set p (by simp)

/-- A table that never lost a key always has room. -/
theorem Clean.hasRoom {t : HashTable T} {m : Bytes → Option T} (hr : t.Represents m)
    (hc : Clean t.buckets) (key : Bytes) : t.HasRoom key := by
  have hpos := hr.stores.pos
  have hload := hr.load
  rw [hr.count, bucketsz] at hload
  exact Or.inl (exists_empty (by omega) hc)

end HashTable

/-! ## A store that is only written

As long as no key is deleted the tables have no tombstones and never run out of room. The
indexes of the LRU lists do lose keys, by eviction, so whether `set` returns is up to them. -/

/-- Nothing is deleted from the table, so it has no tombstones, and by its load an empty bucket is
left for any key. -/
structure Shard.WriteOnly {T : Type} [Inhabited T] (shard : Shard T) : Prop where
  data : ∃ m, shard.data.Represents m
  clean : HashTable.Clean shard.data.buckets
  lru : ∃ m, shard.lru.Tracks m

theorem Shard.writeOnly_new {T : Type} [Inhabited T] : ({} : Shard T).WriteOnly where
  data := ⟨_, HashTable.represents_fresh⟩
  clean := fun node hn => by simp [List.eq_of_mem_replicate hn, HashTable.blank]
  lru := ⟨_, LRU.tracks_new lruMaxSize⟩

namespace KVStore

variable {T α : Type} [Inhabited T]

/-- Every shard is one that has only been written. There is a shard, as the remainder of the hash is
taken by their number. -/
structure WriteOnly (s : KVStore T) : Prop where
  pos : 0 < s.shards.length
  shard : ∀ shard ∈ s.shards, shard.WriteOnly

theorem writeOnly_new : ({} : KVStore T).WriteOnly where
  pos := by simp [shardCount]
  shard := fun shard h => by
    rw [List.eq_of_mem_replicate h]
    exact Shard.writeOnly_new

/-- The LRU index of the key's shard has room for the key. -/
def HasRoom (s : KVStore T) (key : Bytes) : Prop :=
  ∀ shard ∈ s.shards[s.shardIndex key]?, shard.lru.hash.HasRoom key

instance (s : KVStore T) (key : Bytes) : Decidable (s.HasRoom key) :=
  inferInstanceAs (Decidable (∀ shard ∈ s.shards[s.shardIndex key]?, shard.lru.hash.HasRoom key))

theorem call_data {f : HashTable T → Except Fault (α × HashTable T)} {shard : Shard T} {a : α}
    {t : HashTable T} (h : f shard.data = .ok (a, t)) :
    (data f).call shard = (.ok a, { shard with data := t }) := by
  rw [data, Method.call_bind_ok (Method.call_get shard), Method.call_bind_ok (by rw [h]; rfl)]
  rfl

theorem call_onShard {s : KVStore T} {key : Bytes} {shard : Shard T}
    (h : s.shards[s.shardIndex key]? = some shard) (m : Method Fault (Shard T) α) :
    (onShard key m).call s
      = ((m.call shard).1, { s with shards := s.shards.set (s.shardIndex key) (m.call shard).2 }) := by
  rw [onShard, Method.call_bind_ok (Method.call_get s), h]
  rfl

section Set

variable {s : KVStore T} {key : Bytes}

/-- There is a shard for every key. -/
theorem WriteOnly.exists_shard (h : s.WriteOnly) (key : Bytes) :
    ∃ shard, s.shards[s.shardIndex key]? = some shard ∧ shard.WriteOnly := by
  have hlt : s.shardIndex key < s.shards.length := Nat.mod_lt _ h.pos
  exact ⟨_, List.getElem?_eq_getElem hlt, h.shard _ (List.getElem_mem hlt)⟩

/-- The table takes the value, whatever the LRU list is going to say. -/
theorem call_setData {shard : Shard T} (h : shard.WriteOnly) (key : Bytes) (value : T) :
    ∃ t, (data fun t => return ((), ← t.set key value)).call shard
        = (.ok (), { shard with data := t }) ∧ ({ shard with data := t } : Shard T).WriteOnly := by
  obtain ⟨m, hr⟩ := h.data
  obtain ⟨t, hset, hr'⟩ := HashTable.set_spec hr value (h.clean.hasRoom hr key)
  exact ⟨t, call_data (by rw [hset]; rfl), ⟨_, hr'⟩, h.clean.of_set hset, h.lru⟩

theorem WriteOnly.replace (h : s.WriteOnly) (i : Nat) {shard : Shard T} (hs : shard.WriteOnly) :
    ({ s with shards := s.shards.set i shard } : KVStore T).WriteOnly where
  pos := by simpa using h.pos
  shard := by
    intro x hx
    rcases List.mem_or_eq_of_mem_set hx with hin | rfl
    · exact h.shard x hin
    · exact hs

theorem set_spec (h : s.WriteOnly) (value : T) (hroom : s.HasRoom key) :
    ∃ r s', (set key value).call s = (.ok r, s') ∧ s'.WriteOnly := by
  obtain ⟨shard, hshard, hw⟩ := h.exists_shard key
  obtain ⟨t, hdata, hw₁⟩ := call_setData hw key value
  obtain ⟨m, ht⟩ := hw.lru
  obtain ⟨r, l, m', hlru, ht', -⟩ := LRU.set_spec ht (hroom shard hshard)
  have hcall : (do
      data fun t => return ((), ← t.set key value)
      lru (LRU.set key) : Method Fault (Shard T) _).call shard
        = (.ok r, { data := t, lru := l }) := by
    rw [Method.call_bind_ok hdata, lru, Method.call_part, hlru]
  have hw' : ({ data := t, lru := l } : Shard T).WriteOnly := ⟨hw₁.data, hw₁.clean, ⟨m', ht'⟩⟩
  refine ⟨r, _, ?_, h.replace (s.shardIndex key) hw'⟩
  rw [set, call_onShard hshard, hcall]

/-- The table has the new value already when the LRU list throws. -/
theorem set_full (h : s.WriteOnly) (value : T) (hroom : ¬ s.HasRoom key) :
    ((set key value).call s).1 = .error HashTable.notFound := by
  obtain ⟨shard, hshard, hw⟩ := h.exists_shard key
  obtain ⟨t, hdata, -⟩ := call_setData hw key value
  obtain ⟨m, ht⟩ := hw.lru
  have hfull : ¬ shard.lru.hash.HasRoom key := by
    intro hyes
    refine hroom fun shard' hshard' => ?_
    rw [hshard] at hshard'
    cases hshard'
    exact hyes
  have hcall : (do
      data fun t => return ((), ← t.set key value)
      lru (LRU.set key) : Method Fault (Shard T) _).call shard
        = (.error HashTable.notFound, { shard with data := t }) := by
    rw [Method.call_bind_ok hdata, lru, Method.call_part, LRU.set_full ht hfull]
  rw [set, call_onShard hshard, hcall]

end Set

end KVStore

end Store
end KvJet
