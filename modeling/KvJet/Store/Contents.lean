import KvJet.Store.KVStore

/-!
# What a store holds

A store as a map from keys to values (`KVStore.Contents`), and what its calls do to that map. A
call returns exactly when the searches it makes find an end: that of the key in the table of its
shard, and that in the LRU index, which `get` and `del` look at only for a key they have found.

The lemmas come in pairs: `…_spec` says that a call with room returns and what it does,
`…_returned` that a call that has returned did have room.
-/

namespace KvJet
namespace Store

open Resp (RespValue encode)

variable {T α : Type} [Inhabited T]

/-! ## One shard -/

/-- The table is a copy of `d`, and the LRU list has the keys of `l`, at these nodes. -/
structure Shard.Holds (shard : Shard T) (d : Bytes → Option T) (l : Bytes → Option Nat) :
    Prop where
  data : shard.data.Represents d
  lru : shard.lru.Tracks l

theorem Shard.holds_new (maxsz : Nat) :
    ({ lru := { maxsz } } : Shard T).Holds (fun _ => none) (fun _ => none) where
  data := HashTable.represents_fresh
  lru := LRU.tracks_new maxsz

namespace KVStore

theorem call_data_error {f : HashTable T → Except Fault (α × HashTable T)} {shard : Shard T}
    {e : Fault} (h : f shard.data = .error e) : (data f).call shard = (.error e, shard) := by
  rw [data, Method.call_bind_ok (Method.call_get shard), Method.call_bind_error (by rw [h]; rfl)]

theorem call_lru {m : Method Fault LRU α} (shard : Shard T) {x : Except Fault α} {lru' : LRU}
    (h : m.call shard.lru = (x, lru')) :
    (lru m : Method Fault (Shard T) α).call shard = (x, { shard with lru := lru' }) := by
  rw [lru, Method.call_part, h]

end KVStore

namespace Shard

open KVStore (call_data call_data_error call_lru)

/-- What `KVStore::set` and the other calls do with the shard of their key. -/
def set (key : Bytes) (value : T) : Method Fault (Shard T) (Option Bytes) := do
  KVStore.data fun t => return ((), ← t.set key value)
  KVStore.lru (LRU.set key)

def get (key : Bytes) : Method Fault (Shard T) (Option T) := do
  let result ← KVStore.data fun t => return (← t.get key, t)
  if result.isSome then KVStore.lru (LRU.access key)
  return result

def getValue (key : Bytes) : Method Fault (Shard RespValue) Bytes := do
  match ← KVStore.data fun t => return (← t.get key, t) with
  | none => return []
  | some result =>
    KVStore.lru (LRU.access key)
    return encode result

def del (key : Bytes) : Method Fault (Shard T) Bool := do
  let result ← KVStore.data fun t => t.erase key
  if result then KVStore.lru (LRU.del key)
  return result

variable {shard shard' : Shard T} {d : Bytes → Option T} {l : Bytes → Option Nat} {key : Bytes}

/-- The search in the table finds an end. -/
theorem Holds.call_get (h : shard.Holds d l) (hroom : shard.data.HasRoom key) :
    (KVStore.data fun t => return (← t.get key, t)).call shard = (.ok (d key), shard) :=
  call_data (by rw [HashTable.get_spec h.data.stores hroom]; rfl)

theorem Holds.call_get_full (h : shard.Holds d l) (hroom : ¬ shard.data.HasRoom key) :
    (KVStore.data fun t => return (← t.get key, t)).call shard
      = (.error HashTable.notFound, shard) := by
  have hfind := HashTable.find_of_not_hasRoom h.data.stores hroom
  exact call_data_error (by rw [HashTable.get, hfind]; rfl)

theorem Holds.call_set (h : shard.Holds d l) (value : T) (hdata : shard.data.HasRoom key) :
    ∃ t, (KVStore.data fun t => return ((), ← t.set key value)).call shard
        = (.ok (), { shard with data := t }) ∧
      t.Represents (Function.update d key (some value)) := by
  obtain ⟨t, hset, hrep⟩ := HashTable.set_spec h.data value hdata
  exact ⟨t, call_data (by rw [hset]; rfl), hrep⟩

theorem Holds.call_set_full (h : shard.Holds d l) (value : T)
    (hdata : ¬ shard.data.HasRoom key) :
    (KVStore.data fun t => return ((), ← t.set key value)).call shard
      = (.error HashTable.notFound, shard) := by
  have hfind := HashTable.find_of_not_hasRoom h.data.stores hdata
  exact call_data_error (by rw [HashTable.set, hfind]; rfl)

theorem Holds.call_erase (h : shard.Holds d l) (hdata : shard.data.HasRoom key) :
    ∃ t, (KVStore.data fun t => t.erase key).call shard
        = (.ok (d key).isSome, { shard with data := t }) ∧
      t.Represents (Function.update d key none) := by
  obtain ⟨t, herase, hrep⟩ := HashTable.erase_spec h.data hdata
  exact ⟨t, call_data herase, hrep⟩

theorem Holds.call_erase_full (h : shard.Holds d l) (hdata : ¬ shard.data.HasRoom key) :
    (KVStore.data fun t => t.erase key).call shard = (.error HashTable.notFound, shard) := by
  have hfind := HashTable.find_of_not_hasRoom h.data.stores hdata
  exact call_data_error (by rw [HashTable.erase, hfind]; rfl)

theorem set_spec (h : shard.Holds d l) (value : T) (hdata : shard.data.HasRoom key)
    (hlru : shard.lru.hash.HasRoom key) :
    ∃ r shard' l', (set key value).call shard = (.ok r, shard') ∧
      shard'.Holds (Function.update d key (some value)) l' ∧
      shard'.lru.maxsz = shard.lru.maxsz ∧ LRU.SetResult shard.lru l key r l' := by
  obtain ⟨t, hwrite, hrep⟩ := h.call_set value hdata
  obtain ⟨r, lru', l', hcall, ht, hmax, hresult⟩ := LRU.set_spec h.lru hlru
  refine ⟨r, { data := t, lru := lru' }, l', ?_, ⟨hrep, ht⟩, hmax, hresult⟩
  rw [Shard.set, Method.call_bind_ok hwrite]
  exact call_lru _ hcall

theorem set_returned {value : T} {r : Option Bytes} (h : shard.Holds d l)
    (hcall : (set key value).call shard = (.ok r, shard')) :
    shard.data.HasRoom key ∧ shard.lru.hash.HasRoom key := by
  have hdata : shard.data.HasRoom key := by
    by_contra hfull
    rw [Shard.set, Method.call_bind_error (h.call_set_full value hfull)] at hcall
    exact absurd hcall (by simp)
  refine ⟨hdata, ?_⟩
  by_contra hfull
  obtain ⟨t, hwrite, -⟩ := h.call_set value hdata
  rw [Shard.set, Method.call_bind_ok hwrite,
    call_lru { shard with data := t } (LRU.set_full h.lru hfull)] at hcall
  exact absurd hcall (by simp)

/-- What reading a key does to its shard. -/
structure Read (shard shard' : Shard T) (d : Bytes → Option T) (l : Bytes → Option Nat) :
    Prop where
  data : shard'.data = shard.data
  maxsz : shard'.lru.maxsz = shard.lru.maxsz
  holds : ∃ l', shard'.Holds d l' ∧ ∀ k, l' k = none ↔ l k = none

theorem Holds.access (h : shard.Holds d l) (hlru : shard.lru.hash.HasRoom key) :
    ∃ shard', (KVStore.lru (LRU.access key) : Method Fault (Shard T) Unit).call shard
        = (.ok (), shard') ∧ Read shard shard' d l := by
  obtain ⟨lru', l', hcall, ht, hmax, hkeys⟩ := LRU.access_spec h.lru hlru
  exact ⟨_, call_lru _ hcall, rfl, hmax, l', ⟨h.data, ht⟩, hkeys⟩

theorem Holds.access_full (h : shard.Holds d l) (hlru : ¬ shard.lru.hash.HasRoom key) :
    (KVStore.lru (LRU.access key) : Method Fault (Shard T) Unit).call shard
      = (.error HashTable.notFound, shard) :=
  call_lru _ (LRU.access_full h.lru hlru)

/-- A read finds an end in the table, and in the LRU index if it has found the key. -/
def ReadRoom (shard : Shard T) (d : Bytes → Option T) (key : Bytes) : Prop :=
  shard.data.HasRoom key ∧ (d key ≠ none → shard.lru.hash.HasRoom key)

theorem get_spec (h : shard.Holds d l) (hroom : shard.ReadRoom d key) :
    ∃ shard', (get key).call shard = (.ok (d key), shard') ∧ Read shard shard' d l := by
  cases hkey : d key with
  | none =>
    have hread := h.call_get hroom.1
    rw [hkey] at hread
    refine ⟨shard, ?_, rfl, rfl, l, h, fun k => Iff.rfl⟩
    rw [Shard.get, Method.call_bind_ok hread]
    rfl
  | some v =>
    have hread := h.call_get hroom.1
    rw [hkey] at hread
    obtain ⟨shard', haccess, hr⟩ := h.access (hroom.2 (by simp [hkey]))
    refine ⟨shard', ?_, hr⟩
    rw [Shard.get, Method.call_bind_ok hread]
    show Method.call (KVStore.lru (LRU.access key) >>= fun _ => pure (some v)) shard = _
    rw [Method.call_bind_ok haccess]
    rfl

theorem get_returned {r : Option T} (h : shard.Holds d l)
    (hcall : (get key).call shard = (.ok r, shard')) : shard.ReadRoom d key := by
  have hdata : shard.data.HasRoom key := by
    by_contra hfull
    rw [Shard.get, Method.call_bind_error (h.call_get_full hfull)] at hcall
    exact absurd hcall (by simp)
  refine ⟨hdata, fun hkey => ?_⟩
  by_contra hfull
  obtain ⟨v, hv⟩ := Option.ne_none_iff_exists'.mp hkey
  have hread := h.call_get hdata
  rw [hv] at hread
  rw [Shard.get, Method.call_bind_ok hread] at hcall
  have herror : Method.call (KVStore.lru (LRU.access key) >>= fun _ => pure (some v)) shard
      = (.ok r, shard') := hcall
  rw [Method.call_bind_error (h.access_full hfull)] at herror
  exact absurd herror (by simp)

/-- What `getValue` answers for a key that is bound to `v`. -/
def answer : Option RespValue → Bytes
  | none => []
  | some v => encode v

theorem getValue_spec {shard : Shard RespValue} {d : Bytes → Option RespValue}
    (h : shard.Holds d l) (hroom : shard.ReadRoom d key) :
    ∃ shard', (getValue key).call shard = (.ok (answer (d key)), shard') ∧
      Read shard shard' d l := by
  have hread := h.call_get hroom.1
  cases hkey : d key with
  | none =>
    rw [hkey] at hread
    refine ⟨shard, ?_, rfl, rfl, l, h, fun k => Iff.rfl⟩
    rw [Shard.getValue, Method.call_bind_ok hread]
    rfl
  | some v =>
    rw [hkey] at hread
    obtain ⟨shard', haccess, hr⟩ := h.access (hroom.2 (by simp [hkey]))
    refine ⟨shard', ?_, hr⟩
    rw [Shard.getValue, Method.call_bind_ok hread, Method.call_bind_ok haccess]
    rfl

theorem getValue_returned {shard shard' : Shard RespValue} {d : Bytes → Option RespValue}
    {r : Bytes} (h : shard.Holds d l) (hcall : (getValue key).call shard = (.ok r, shard')) :
    shard.ReadRoom d key := by
  have hdata : shard.data.HasRoom key := by
    by_contra hfull
    rw [Shard.getValue, Method.call_bind_error (h.call_get_full hfull)] at hcall
    exact absurd hcall (by simp)
  refine ⟨hdata, fun hkey => ?_⟩
  by_contra hfull
  obtain ⟨v, hv⟩ := Option.ne_none_iff_exists'.mp hkey
  have hread := h.call_get hdata
  rw [hv] at hread
  rw [Shard.getValue, Method.call_bind_ok hread,
    Method.call_bind_error (h.access_full hfull)] at hcall
  exact absurd hcall (by simp)

theorem del_spec (h : shard.Holds d l) (hroom : shard.ReadRoom d key) :
    ∃ shard' l', (del key).call shard = (.ok (d key).isSome, shard') ∧
      shard'.Holds (Function.update d key none) l' ∧ shard'.lru.maxsz = shard.lru.maxsz ∧
      l' = if d key = none then l else Function.update l key none := by
  obtain ⟨t, hremove, hrep⟩ := h.call_erase hroom.1
  cases hkey : d key with
  | none =>
    rw [hkey] at hremove
    refine ⟨{ shard with data := t }, l, ?_, ⟨hrep, h.lru⟩, rfl, by simp⟩
    rw [Shard.del, Method.call_bind_ok hremove]
    rfl
  | some v =>
    rw [hkey] at hremove
    obtain ⟨lru', hcall, ht, hmax⟩ := LRU.del_spec h.lru (hroom.2 (by simp [hkey]))
    refine ⟨{ data := t, lru := lru' }, _, ?_, ⟨hrep, ht⟩, hmax, by simp⟩
    rw [Shard.del, Method.call_bind_ok hremove]
    show Method.call (KVStore.lru (LRU.del key) >>= fun _ => pure true) _ = _
    have hlru := call_lru { shard with data := t } hcall
    rw [Method.call_bind_ok hlru]
    rfl

theorem del_returned {r : Bool} (h : shard.Holds d l)
    (hcall : (del key).call shard = (.ok r, shard')) : shard.ReadRoom d key := by
  have hdata : shard.data.HasRoom key := by
    by_contra hfull
    rw [Shard.del, Method.call_bind_error (h.call_erase_full hfull)] at hcall
    exact absurd hcall (by simp)
  refine ⟨hdata, fun hkey => ?_⟩
  by_contra hfull
  obtain ⟨v, hv⟩ := Option.ne_none_iff_exists'.mp hkey
  obtain ⟨t, hremove, -⟩ := h.call_erase hdata
  rw [hv] at hremove
  rw [Shard.del, Method.call_bind_ok hremove] at hcall
  have herror : Method.call (KVStore.lru (LRU.del key) >>= fun _ => pure true)
      { shard with data := t } = (.ok r, shard') := hcall
  rw [Method.call_bind_error
    (call_lru { shard with data := t } (LRU.del_full h.lru hfull))] at herror
  exact absurd herror (by simp)

end Shard

/-! ## All shards

A key has one shard, so the map of the store is made of those of the shards, and a call for one key
leaves the others' parts alone. -/

namespace KVStore

/-- `m` is what the store holds: each shard has its part of it. -/
structure Contents (s : KVStore T) (m : Bytes → Option T) : Prop where
  pos : 0 < s.shards.length
  shard : ∀ i shard, s.shards[i]? = some shard → ∃ d l, shard.Holds d l ∧
    ∀ k, d k = if s.shardIndex k = i then m k else none

theorem contents_new : ({} : KVStore T).Contents fun _ => none where
  pos := by simp [shardCount]
  shard := by
    intro i shard h
    rw [List.eq_of_mem_replicate (List.mem_of_getElem? h)]
    exact ⟨_, _, Shard.holds_new lruMaxSize, by simp⟩

variable {s s' : KVStore T} {m : Bytes → Option T} {key : Bytes}

/-- The shard of a key holds what the store holds for it. -/
theorem Contents.exists_shard (h : s.Contents m) (key : Bytes) :
    ∃ shard d l, s.shards[s.shardIndex key]? = some shard ∧ shard.Holds d l ∧ d key = m key ∧
      ∀ k, d k = if s.shardIndex k = s.shardIndex key then m k else none := by
  have hlt : s.shardIndex key < s.shards.length := Nat.mod_lt _ h.pos
  obtain ⟨d, l, hholds, hd⟩ := h.shard _ _ (List.getElem?_eq_getElem hlt)
  exact ⟨_, d, l, List.getElem?_eq_getElem hlt, hholds, by rw [hd, if_pos rfl], hd⟩

/-- A store holds one map. -/
theorem Contents.unique {m' : Bytes → Option T} (h : s.Contents m) (h' : s.Contents m') :
    m = m' := by
  funext k
  obtain ⟨shard, d, l, hshard, hholds, hk, -⟩ := h.exists_shard k
  obtain ⟨shard', d', l', hshard', hholds', hk', -⟩ := h'.exists_shard k
  rw [hshard, Option.some.injEq] at hshard'
  subst hshard'
  rw [← hk, ← hk']
  refine Option.ext fun v => ?_
  rw [hholds.data.stores.holds, hholds'.data.stores.holds]

/-- A call that changes the binding of its key in its shard, and nothing else. -/
theorem Contents.put (h : s.Contents m) {shard : Shard T} {d d' : Bytes → Option T}
    {l' : Bytes → Option Nat} (v : Option T)
    (hd : ∀ k, d k = if s.shardIndex k = s.shardIndex key then m k else none)
    (hholds : shard.Holds d' l') (hd' : d' = Function.update d key v) :
    ({ s with shards := s.shards.set (s.shardIndex key) shard } : KVStore T).Contents
      (Function.update m key v) := by
  have hlen : (s.shards.set (s.shardIndex key) shard).length = s.shards.length := List.length_set
  have hindex : ∀ k, ({ s with shards := s.shards.set (s.shardIndex key) shard } :
      KVStore T).shardIndex k = s.shardIndex k := by
    intro k
    exact congrArg ((HashTable.gethash k).toNat % ·) hlen
  have hat : s.shardIndex key < s.shards.length := Nat.mod_lt _ h.pos
  refine ⟨by rw [hlen]; exact h.pos, fun i sh hsh => ?_⟩
  simp only [hindex] at hsh ⊢
  by_cases hi : i = s.shardIndex key
  · subst hi
    have hsame : sh = shard := by
      rw [List.getElem?_set_self hat, Option.some.injEq] at hsh
      exact hsh.symm
    subst hsame
    refine ⟨d', l', hholds, fun k => ?_⟩
    rw [hd']
    by_cases hk : k = key
    · rw [hk, Function.update_self, Function.update_self, if_pos rfl]
    · rw [Function.update_of_ne hk, Function.update_of_ne hk]
      exact hd k
  · rw [List.getElem?_set_ne (Ne.symm hi)] at hsh
    obtain ⟨d₀, l₀, hholds₀, hd₀⟩ := h.shard i sh hsh
    refine ⟨d₀, l₀, hholds₀, fun k => ?_⟩
    rw [hd₀]
    by_cases hk : k = key
    · rw [hk, if_neg (Ne.symm hi), if_neg (Ne.symm hi)]
    · rw [Function.update_of_ne hk]

/-- Both searches for the key find an end. -/
def Room (s : KVStore T) (key : Bytes) : Prop :=
  ∀ shard ∈ s.shards[s.shardIndex key]?,
    shard.data.HasRoom key ∧ shard.lru.hash.HasRoom key

instance (s : KVStore T) (key : Bytes) : Decidable (s.Room key) :=
  inferInstanceAs (Decidable (∀ shard ∈ s.shards[s.shardIndex key]?, _ ∧ _))

/-- What `get` and `del` need: the search in the table finds an end, and if it finds the key so does
the search in the LRU index. -/
def ReadRoom (s : KVStore T) (key : Bytes) : Prop :=
  ∀ shard ∈ s.shards[s.shardIndex key]?, shard.data.HasRoom key ∧
    ((∃ node ∈ shard.data.buckets, node.status = .occupied ∧ node.key = key) →
      shard.lru.hash.HasRoom key)

instance (s : KVStore T) (key : Bytes) : Decidable (s.ReadRoom key) :=
  inferInstanceAs (Decidable (∀ shard ∈ s.shards[s.shardIndex key]?, _ ∧ (_ → _)))

theorem Room.readRoom (h : s.Room key) : s.ReadRoom key := fun shard hshard =>
  ⟨(h shard hshard).1, fun _ => (h shard hshard).2⟩

theorem readRoom_iff {shard : Shard T} {d : Bytes → Option T} {l : Bytes → Option Nat}
    (hshard : s.shards[s.shardIndex key]? = some shard) (hholds : shard.Holds d l) :
    s.ReadRoom key ↔ shard.ReadRoom d key := by
  have hbound : (∃ node ∈ shard.data.buckets, node.status = .occupied ∧ node.key = key) ↔
      d key ≠ none := by
    rw [Option.ne_none_iff_exists']
    constructor
    · rintro ⟨node, hnode, hocc, rfl⟩
      exact ⟨node.value, (hholds.data.stores.holds _ _).mpr (hocc ▸ hnode)⟩
    · rintro ⟨v, hv⟩
      exact ⟨_, (hholds.data.stores.holds key v).mp hv, rfl, rfl⟩
  unfold ReadRoom Shard.ReadRoom
  rw [hshard, ← hbound]
  exact ⟨fun h => h shard rfl, fun h _ hsome => Option.some.inj hsome ▸ h⟩

/-- A call that returns in the shard of its key, and leaves `v` for the key. -/
theorem Contents.returns (h : s.Contents m) {mt : Method Fault (Shard T) α} {a : α} {v : Option T}
    (hmt : ∀ shard d l, s.shards[s.shardIndex key]? = some shard → shard.Holds d l →
      d key = m key → ∃ shard' l', mt.call shard = (.ok a, shard') ∧
        shard'.Holds (Function.update d key v) l') :
    ∃ s', (onShard key mt).call s = (.ok a, s') ∧ s'.Contents (Function.update m key v) := by
  obtain ⟨shard, d, l, hshard, hholds, hkey, hd⟩ := h.exists_shard key
  obtain ⟨shard', l', hcall, hholds'⟩ := hmt shard d l hshard hholds hkey
  refine ⟨_, ?_, h.put v hd hholds' rfl⟩
  rw [call_onShard hshard, hcall]

theorem set_contents (h : s.Contents m) (value : T) (hroom : s.Room key) :
    ∃ r s', (set key value).call s = (.ok r, s') ∧
      s'.Contents (Function.update m key (some value)) := by
  obtain ⟨shard, d, l, hshard, hholds, -, hd⟩ := h.exists_shard key
  obtain ⟨hdata, hlru⟩ := hroom shard hshard
  obtain ⟨r, shard', l', hcall, hholds', -⟩ := Shard.set_spec hholds value hdata hlru
  refine ⟨r, _, ?_, h.put (some value) hd hholds' rfl⟩
  show (onShard key (Shard.set key value)).call s = _
  rw [call_onShard hshard, hcall]

/-- A call on the shard of its key that has returned. -/
theorem of_onShard {mt : Method Fault (Shard T) α} {r : α} {shard : Shard T}
    (hshard : s.shards[s.shardIndex key]? = some shard)
    (hcall : (onShard key mt).call s = (.ok r, s')) :
    ∃ shard', mt.call shard = (.ok r, shard') := by
  rw [call_onShard hshard] at hcall
  have hfst : (mt.call shard).1 = .ok r := (Prod.mk.inj hcall).1
  exact ⟨(mt.call shard).2, by rw [← hfst]⟩

theorem set_returned {value : T} {r : Option Bytes} (h : s.Contents m)
    (hcall : (set key value).call s = (.ok r, s')) :
    s.Room key ∧ s'.Contents (Function.update m key (some value)) := by
  obtain ⟨shard, d, l, hshard, hholds, -, -⟩ := h.exists_shard key
  obtain ⟨shard', hset⟩ := of_onShard hshard
    (show (onShard key (Shard.set key value)).call s = (.ok r, s') from hcall)
  have hroom : s.Room key := by
    intro shard₀ hshard₀
    rw [hshard] at hshard₀
    cases hshard₀
    exact Shard.set_returned hholds hset
  obtain ⟨r', s₁, hcall', hcontents⟩ := set_contents h value hroom
  rw [hcall] at hcall'
  rw [(Prod.mk.inj hcall').2]
  exact ⟨hroom, hcontents⟩

theorem get_readRoom (h : s.Contents m) (hroom : s.ReadRoom key) :
    ∃ s', (get key).call s = (.ok (m key), s') ∧ s'.Contents m := by
  have hcall : ∃ s', (onShard key (Shard.get key)).call s = (.ok (m key), s') ∧
      s'.Contents (Function.update m key (m key)) := by
    refine h.returns fun shard d l hshard hholds hkey => ?_
    obtain ⟨shard', hcall, hread⟩ :=
      Shard.get_spec hholds ((readRoom_iff hshard hholds).mp hroom)
    obtain ⟨l', hholds', -⟩ := hread.holds
    exact ⟨shard', l', hkey ▸ hcall, by rw [← hkey, Function.update_eq_self]; exact hholds'⟩
  rw [Function.update_eq_self] at hcall
  exact hcall

theorem get_contents (h : s.Contents m) (hroom : s.Room key) :
    ∃ s', (get key).call s = (.ok (m key), s') ∧ s'.Contents m := get_readRoom h hroom.readRoom

theorem getValue_readRoom {s : KVStore RespValue} {m : Bytes → Option RespValue}
    (h : s.Contents m) (hroom : s.ReadRoom key) :
    ∃ s', (getValue key).call s = (.ok (Shard.answer (m key)), s') ∧ s'.Contents m := by
  have hcall : ∃ s', (onShard key (Shard.getValue key)).call s = (.ok (Shard.answer (m key)), s') ∧
      s'.Contents (Function.update m key (m key)) := by
    refine h.returns fun shard d l hshard hholds hkey => ?_
    obtain ⟨shard', hcall, hread⟩ :=
      Shard.getValue_spec hholds ((readRoom_iff hshard hholds).mp hroom)
    obtain ⟨l', hholds', -⟩ := hread.holds
    exact ⟨shard', l', hkey ▸ hcall, by rw [← hkey, Function.update_eq_self]; exact hholds'⟩
  rw [Function.update_eq_self] at hcall
  exact hcall

theorem getValue_contents {s : KVStore RespValue} {m : Bytes → Option RespValue}
    (h : s.Contents m) (hroom : s.Room key) :
    ∃ s', (getValue key).call s = (.ok (Shard.answer (m key)), s') ∧ s'.Contents m :=
  getValue_readRoom h hroom.readRoom

theorem readRoom_of_get {r : Option T} (h : s.Contents m)
    (hcall : (get key).call s = (.ok r, s')) : s.ReadRoom key := by
  obtain ⟨shard, d, l, hshard, hholds, -, -⟩ := h.exists_shard key
  obtain ⟨shard', hget⟩ := of_onShard hshard
    (show (onShard key (Shard.get key)).call s = (.ok r, s') from hcall)
  exact (readRoom_iff hshard hholds).mpr (Shard.get_returned hholds hget)

theorem readRoom_of_getValue {s s' : KVStore RespValue} {m : Bytes → Option RespValue} {r : Bytes}
    (h : s.Contents m) (hcall : (getValue key).call s = (.ok r, s')) : s.ReadRoom key := by
  obtain ⟨shard, d, l, hshard, hholds, -, -⟩ := h.exists_shard key
  obtain ⟨shard', hget⟩ := of_onShard hshard
    (show (onShard key (Shard.getValue key)).call s = (.ok r, s') from hcall)
  exact (readRoom_iff hshard hholds).mpr (Shard.getValue_returned hholds hget)

theorem readRoom_of_del {r : Bool} (h : s.Contents m)
    (hcall : (del key).call s = (.ok r, s')) : s.ReadRoom key := by
  obtain ⟨shard, d, l, hshard, hholds, -, -⟩ := h.exists_shard key
  obtain ⟨shard', hdel⟩ := of_onShard hshard
    (show (onShard key (Shard.del key)).call s = (.ok r, s') from hcall)
  exact (readRoom_iff hshard hholds).mpr (Shard.del_returned hholds hdel)

theorem del_readRoom (h : s.Contents m) (hroom : s.ReadRoom key) :
    ∃ s', (del key).call s = (.ok (m key).isSome, s') ∧
      s'.Contents (Function.update m key none) := by
  show ∃ s', (onShard key (Shard.del key)).call s = _ ∧ _
  refine h.returns fun shard d l hshard hholds hkey => ?_
  obtain ⟨shard', l', hcall, hholds', -⟩ :=
    Shard.del_spec hholds ((readRoom_iff hshard hholds).mp hroom)
  exact ⟨shard', l', hkey ▸ hcall, hholds'⟩

theorem del_contents (h : s.Contents m) (hroom : s.Room key) :
    ∃ s', (del key).call s = (.ok (m key).isSome, s') ∧
      s'.Contents (Function.update m key none) := del_readRoom h hroom.readRoom

theorem del_returned {r : Bool} (h : s.Contents m)
    (hcall : (del key).call s = (.ok r, s')) : s'.Contents (Function.update m key none) := by
  obtain ⟨s₁, hdel, hcontents⟩ := del_readRoom h (readRoom_of_del h hcall)
  rw [hcall] at hdel
  rw [(Prod.mk.inj hdel).2]
  exact hcontents

/-- A key that is bound is found. -/
theorem lookup_bound {v : T} (h : s.Contents m) (hkey : m key = some v) :
    s.lookup key = .ok (some v) := by
  obtain ⟨shard, d, l, hshard, hholds, hd, -⟩ := h.exists_shard key
  rw [hkey] at hd
  have hroom : shard.data.HasRoom key :=
    Or.inr ⟨_, (hholds.data.stores.holds key v).mp hd, rfl, rfl⟩
  rw [lookup, hshard]
  show shard.data.get key = _
  rw [HashTable.get_spec hholds.data.stores hroom, hd]

/-- A key whose search finds an end is looked up as it is. -/
theorem lookup_room (h : s.Contents m) (hroom : s.Room key) : s.lookup key = .ok (m key) := by
  obtain ⟨shard, d, l, hshard, hholds, hd, -⟩ := h.exists_shard key
  rw [lookup, hshard]
  show shard.data.get key = _
  rw [HashTable.get_spec hholds.data.stores (hroom shard hshard).1, hd]

/-- `forEach` enumerates what the store holds. -/
theorem mem_forEach (h : s.Contents m) (v : T) : (key, v) ∈ s.forEach ↔ m key = some v := by
  rw [forEach, List.mem_flatMap]
  constructor
  · rintro ⟨shard, hshard, hin⟩
    obtain ⟨i, hi⟩ := List.getElem?_of_mem hshard
    obtain ⟨d, l, hholds, hd⟩ := h.shard i shard hi
    have hv : d key = some v := (HashTable.mem_forEach hholds.data.stores key v).mp hin
    rw [hd] at hv
    split at hv
    · exact hv
    · exact absurd hv (by simp)
  · intro hkey
    obtain ⟨shard, d, l, hshard, hholds, hd, -⟩ := h.exists_shard key
    exact ⟨shard, List.mem_of_getElem? hshard,
      (HashTable.mem_forEach hholds.data.stores key v).mpr (hd.trans hkey)⟩

/-- A store that has never held anything has room for every key. -/
theorem room_new (key : Bytes) : ({} : KVStore T).Room key := by
  intro shard hshard
  rw [List.eq_of_mem_replicate (List.mem_of_getElem? hshard)]
  exact ⟨Or.inl ⟨HashTable.blank, by simp [HashTable.fresh], rfl⟩,
    Or.inl ⟨HashTable.blank, by simp [HashTable.fresh], rfl⟩⟩

/-- A store that was given one value holds it, and has room for its key. -/
theorem set_new (key : Bytes) (value : T) :
    ∃ r s', (set key value).call ({} : KVStore T) = (.ok r, s') ∧
      s'.Contents (Function.update (fun _ => none) key (some value)) ∧ s'.Room key := by
  obtain ⟨shard, d, l, hshard, -, -, -⟩ := (contents_new (T := T)).exists_shard key
  have hnew : shard = {} := List.eq_of_mem_replicate (List.mem_of_getElem? hshard)
  obtain ⟨hdata, hlru⟩ := room_new key shard hshard
  subst hnew
  obtain ⟨r, shard', l', hcall, hholds, -, hresult⟩ :=
    Shard.set_spec (Shard.holds_new (T := T) lruMaxSize) value hdata hlru
  have hl' : l' key ≠ none := by
    cases hresult with
    | listed h => simp
    | added h hlt => simp
    | evicted h hge y hy => exact absurd hge (by simp [lruMaxSize])
  have hset : (set key value).call ({} : KVStore T) = (.ok r,
      { shards := ({} : KVStore T).shards.set (({} : KVStore T).shardIndex key) shard' }) := by
    show (onShard key (Shard.set key value)).call _ = _
    rw [call_onShard hshard, hcall]
  refine ⟨r, _, hset, (set_returned contents_new hset).2, ?_⟩
  intro shard₀ hshard₀
  have hlt : ({} : KVStore T).shardIndex key < ({} : KVStore T).shards.length :=
    Nat.mod_lt _ (by simp [shardCount])
  have hindex : KVStore.shardIndex (T := T)
      { shards := ({} : KVStore T).shards.set (({} : KVStore T).shardIndex key) shard' } key
        = ({} : KVStore T).shardIndex key :=
    congrArg ((HashTable.gethash key).toNat % ·) List.length_set
  rw [hindex, List.getElem?_set_self hlt] at hshard₀
  cases hshard₀
  obtain ⟨it, hit⟩ := Option.ne_none_iff_exists'.mp hl'
  refine ⟨?_, hholds.lru.hasRoom_of_listed hit⟩
  exact Or.inr ⟨_, (hholds.data.stores.holds key value).mp (Function.update_self _ _ _), rfl, rfl⟩

/-! ## Whatever comes of a call -/

end KVStore

/-- A call that changes no binding but that of its key, also where it throws. -/
def Shard.Touches (key : Bytes) (mt : Method Fault (Shard T) α) : Prop :=
  ∀ (shard : Shard T) (d : Bytes → Option T) (l : Bytes → Option Nat), shard.Holds d l →
    ∃ v l', (mt.call shard).2.Holds (Function.update d key v) l'

namespace Shard

theorem touches_set (key : Bytes) (value : T) : Touches key (Shard.set key value) := by
  intro shard d l h
  by_cases hdata : shard.data.HasRoom key
  · by_cases hlru : shard.lru.hash.HasRoom key
    · obtain ⟨r, shard', l', hcall, hholds, -⟩ := set_spec h value hdata hlru
      exact ⟨some value, l', by rw [hcall]; exact hholds⟩
    · obtain ⟨t, hwrite, hrep⟩ := h.call_set value hdata
      refine ⟨some value, l, ?_⟩
      rw [Shard.set, Method.call_bind_ok hwrite,
        KVStore.call_lru { shard with data := t } (LRU.set_full h.lru hlru)]
      exact ⟨hrep, h.lru⟩
  · refine ⟨d key, l, ?_⟩
    rw [Shard.set, Method.call_bind_error (h.call_set_full value hdata), Function.update_eq_self]
    exact h

theorem touches_get (key : Bytes) : Touches key (Shard.get key : Method Fault (Shard T) _) := by
  intro shard d l h
  refine ⟨d key, ?_⟩
  rw [Function.update_eq_self]
  by_cases hdata : shard.data.HasRoom key
  · by_cases hlru : d key ≠ none → shard.lru.hash.HasRoom key
    · obtain ⟨shard', hcall, hread⟩ := get_spec h ⟨hdata, hlru⟩
      obtain ⟨l', hholds, -⟩ := hread.holds
      exact ⟨l', by rw [hcall]; exact hholds⟩
    · obtain ⟨hkey, hfull⟩ := Classical.not_imp.mp hlru
      obtain ⟨v, hv⟩ := Option.ne_none_iff_exists'.mp hkey
      have hread := h.call_get hdata
      rw [hv] at hread
      refine ⟨l, ?_⟩
      rw [Shard.get, Method.call_bind_ok hread]
      show (Method.call (KVStore.lru (LRU.access key) >>= fun _ => pure (some v)) shard).2.Holds d l
      rw [Method.call_bind_error (h.access_full hfull)]
      exact h
  · exact ⟨l, by rw [Shard.get, Method.call_bind_error (h.call_get_full hdata)]; exact h⟩

theorem touches_getValue (key : Bytes) : Touches key (Shard.getValue key) := by
  intro shard d l h
  refine ⟨d key, ?_⟩
  rw [Function.update_eq_self]
  by_cases hdata : shard.data.HasRoom key
  · by_cases hlru : d key ≠ none → shard.lru.hash.HasRoom key
    · obtain ⟨shard', hcall, hread⟩ := getValue_spec h ⟨hdata, hlru⟩
      obtain ⟨l', hholds, -⟩ := hread.holds
      exact ⟨l', by rw [hcall]; exact hholds⟩
    · obtain ⟨hkey, hfull⟩ := Classical.not_imp.mp hlru
      obtain ⟨v, hv⟩ := Option.ne_none_iff_exists'.mp hkey
      have hread := h.call_get hdata
      rw [hv] at hread
      refine ⟨l, ?_⟩
      rw [Shard.getValue, Method.call_bind_ok hread]
      show (Method.call (KVStore.lru (LRU.access key) >>= fun _ => pure (encode v)) shard).2.Holds
        d l
      rw [Method.call_bind_error (h.access_full hfull)]
      exact h
  · exact ⟨l, by rw [Shard.getValue, Method.call_bind_error (h.call_get_full hdata)]; exact h⟩

theorem touches_del (key : Bytes) : Touches key (Shard.del key : Method Fault (Shard T) _) := by
  intro shard d l h
  by_cases hdata : shard.data.HasRoom key
  · by_cases hlru : d key ≠ none → shard.lru.hash.HasRoom key
    · obtain ⟨shard', l', hcall, hholds, -⟩ := del_spec h ⟨hdata, hlru⟩
      exact ⟨none, l', by rw [hcall]; exact hholds⟩
    · obtain ⟨hkey, hfull⟩ := Classical.not_imp.mp hlru
      obtain ⟨v, hv⟩ := Option.ne_none_iff_exists'.mp hkey
      obtain ⟨t, hremove, hrep⟩ := h.call_erase hdata
      rw [hv] at hremove
      refine ⟨none, l, ?_⟩
      rw [Shard.del, Method.call_bind_ok hremove]
      show (Method.call (KVStore.lru (LRU.del key) >>= fun _ => pure true)
        { shard with data := t }).2.Holds _ l
      rw [Method.call_bind_error
        (KVStore.call_lru { shard with data := t } (LRU.del_full h.lru hfull))]
      exact ⟨hrep, h.lru⟩
  · refine ⟨d key, l, ?_⟩
    rw [Shard.del, Method.call_bind_error (h.call_erase_full hdata), Function.update_eq_self]
    exact h

end Shard

namespace KVStore

variable {s s' : KVStore T} {m : Bytes → Option T} {key : Bytes}

/-- A store goes on holding a map. -/
theorem Contents.touched (h : s.Contents m) {mt : Method Fault (Shard T) α}
    (hmt : Shard.Touches key mt) :
    ∃ v, ((onShard key mt).call s).2.Contents (Function.update m key v) := by
  obtain ⟨shard, d, l, hshard, hholds, -, hd⟩ := h.exists_shard key
  obtain ⟨v, l', hholds'⟩ := hmt shard d l hholds
  refine ⟨v, ?_⟩
  rw [call_onShard hshard]
  exact h.put v hd hholds' rfl

theorem Contents.after_set (h : s.Contents m) (key : Bytes) (value : T) :
    ∃ m', ((set key value).call s).2.Contents m' := by
  obtain ⟨v, hv⟩ := h.touched (Shard.touches_set key value)
  exact ⟨_, hv⟩

theorem Contents.after_get (h : s.Contents m) (key : Bytes) :
    ∃ m', ((get key).call s).2.Contents m' := by
  obtain ⟨v, hv⟩ := h.touched (Shard.touches_get key)
  exact ⟨_, hv⟩

theorem Contents.after_getValue {s : KVStore RespValue} {m : Bytes → Option RespValue}
    (h : s.Contents m) (key : Bytes) : ∃ m', ((getValue key).call s).2.Contents m' := by
  obtain ⟨v, hv⟩ := h.touched (Shard.touches_getValue key)
  exact ⟨_, hv⟩

theorem Contents.after_del (h : s.Contents m) (key : Bytes) :
    ∃ m', ((del key).call s).2.Contents m' := by
  obtain ⟨v, hv⟩ := h.touched (Shard.touches_del key)
  exact ⟨_, hv⟩

end KVStore
end Store
end KvJet
