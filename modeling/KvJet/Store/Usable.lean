import KvJet.Store.Agreement

/-!
# A store that has read a snapshot

A table that comes from a file is laid out as the file says, and a snapshot is written without the
tombstones. A key that lay behind one is then behind an empty bucket, where the search stops before
it: `get` does not find the key, and `set` stores it a second time. Such a table represents no map,
so what is said of it here is said of its buckets, and not of what they stand for.

It takes little for every call of the store to return, or to throw `Empty position not found` and
nothing else: a bucket in each table, as otherwise there is no remainder to be taken, and an LRU
list whose index knows its nodes (`Usable`). Neither can be lost, and a snapshot of a store that has
both is read as one (`usable_readfromfile`, `readfromfile_buckets`).
-/

namespace KvJet
namespace Store

open Resp (RespValue encode)

variable {T α β : Type} [Inhabited T]

/-! ## Any table with a bucket

The search ends in any table, laid or not: it has gone around, or has come to an empty bucket, a
tombstone or the key. What it then points to need not be the right place. -/

namespace HashTable

variable {t : HashTable T} {key : Bytes}

/-- Where `find` points, there is the key or a bucket that is not occupied. -/
theorem find_cases (hbuckets : t.buckets ≠ []) (key : Bytes) :
    (¬ t.HasRoom key ∧ t.find key = .error notFound) ∨
    (t.HasRoom key ∧ ∃ p node, t.find key = .ok p ∧ t.buckets[p]? = some node ∧
      (node.status = .occupied → node.key = key)) := by
  have hpos : 0 < t.bucketsz := List.length_pos_iff.mpr hbuckets
  have hroom := find_eq_notFound_iff hbuckets key
  rw [find_eq_search hpos] at hroom ⊢
  cases hsearch : Probing.search t.bucketsz (home t.bucketsz) (slots t.buckets) key with
  | none =>
    rw [hsearch] at hroom
    exact Or.inl ⟨hroom.mp rfl, rfl⟩
  | some p =>
    rw [hsearch] at hroom
    obtain ⟨hp, hkey⟩ := Probing.search_eq_some (fun k => Nat.mod_lt _ hpos) hsearch
    have hnode := List.getElem?_eq_getElem hp
    refine Or.inr ⟨?_, p, _, rfl, hnode, fun hocc => hkey _ ?_⟩
    · by_contra hnone
      exact nomatch hroom.mpr hnone
    · rw [slots_eq_of_getElem? hnode]
      exact slot_eq_occupied.mpr ⟨hocc, rfl⟩

/-- The new table of a rehash never fills up. It has no tombstones, and twice the buckets of the old
one, so an empty one is left for whatever is still to come. -/
theorem moveAll_ok (old : List (Node T)) : ∀ acc : HashTable T, Clean acc.buckets →
    occupancy acc.buckets + old.length < acc.buckets.length →
    ∃ t', old.foldlM move acc = .ok t' ∧ t'.buckets.length = acc.buckets.length ∧
      t'.sz = acc.sz := by
  induction old with
  | nil => exact fun acc _ _ => ⟨acc, rfl, rfl, rfl⟩
  | cons node old ih =>
    intro acc hclean hroom
    rw [List.length_cons] at hroom
    have hempty := exists_empty (by omega : occupancy acc.buckets < acc.buckets.length) hclean
    have hbuckets : acc.buckets ≠ [] := List.length_pos_iff.mp (by omega)
    rw [List.foldlM_cons]
    by_cases hocc : node.status = .occupied
    · rcases find_cases hbuckets node.key with ⟨hnone, -⟩ | ⟨-, p, old', hfind, hold, -⟩
      · exact absurd (Or.inl hempty) hnone
      · have hp : p < acc.buckets.length := (List.getElem?_eq_some_iff.mp hold).1
        have hmove : acc.move node = .ok
            { acc with buckets := acc.buckets.set p ⟨node.key, node.value, .occupied⟩ } := by
          simp [move, hocc, hfind, bind, Except.bind, pure, Except.pure]
        have hcount : occupancy (acc.buckets.set p ⟨node.key, node.value, .occupied⟩)
            ≤ occupancy acc.buckets + 1 := by
          unfold occupancy
          rw [List.countP_set hp]
          simp only [decide_true, if_true]
          omega
        obtain ⟨t', hall, hlength, hsz⟩ := ih
          { acc with buckets := acc.buckets.set p ⟨node.key, node.value, .occupied⟩ }
          (hclean.set p (by simp)) (by simp only [List.length_set]; omega)
        refine ⟨t', ?_, hlength.trans List.length_set, hsz⟩
        rw [hmove]
        exact hall
    · have hmove : acc.move node = .ok acc := if_pos hocc
      rw [hmove]
      exact ih acc hclean (by omega)

theorem rehash_ok (hbuckets : t.buckets ≠ []) :
    ∃ t', t.rehash = .ok t' ∧ t'.buckets ≠ [] ∧ t'.sz = t.sz := by
  have hpos : 0 < t.buckets.length := List.length_pos_iff.mpr hbuckets
  have hblank : occupancy (List.replicate (2 * t.bucketsz) (blank : Node T)) = 0 :=
    List.countP_eq_zero.mpr fun node hin => by simp [List.eq_of_mem_replicate hin, blank]
  obtain ⟨t', hall, hlength, hsz⟩ := moveAll_ok t.buckets
    ⟨List.replicate (2 * t.bucketsz) blank, t.sz⟩
    (fun node hin => by simp [List.eq_of_mem_replicate hin, blank])
    (by rw [hblank]; simp only [List.length_replicate, bucketsz]; omega)
  refine ⟨t', hall, List.length_pos_iff.mp ?_, hsz⟩
  simp only [List.length_replicate, bucketsz] at hlength
  omega

theorem get_cases (hbuckets : t.buckets ≠ []) (key : Bytes) :
    (¬ t.HasRoom key ∧ t.get key = .error notFound) ∨
    (t.HasRoom key ∧ ∃ found, t.get key = .ok found) := by
  rcases find_cases hbuckets key with ⟨hnone, hfind⟩ | ⟨hroom, p, node, hfind, -⟩
  · exact Or.inl ⟨hnone, by rw [get, hfind]; rfl⟩
  · refine Or.inr ⟨hroom, ?_⟩
    rw [get, hfind]
    simp only [bind, Except.bind]
    split <;> exact ⟨_, rfl⟩

/-- A `set` that returns has changed the table, unless `find` came to that very value. -/
theorem set_cases (hbuckets : t.buckets ≠ []) (key : Bytes) (value : T) :
    (¬ t.HasRoom key ∧ t.set key value = .error notFound) ∨
    (t.HasRoom key ∧ ∃ t', t.set key value = .ok t' ∧ t'.buckets ≠ [] ∧
      (t' = t ↔ t.get key = .ok (some value))) := by
  rcases find_cases hbuckets key with ⟨hnone, hfind⟩ | ⟨hroom, p, node, hfind, hnode, -⟩
  · exact Or.inl ⟨hnone, by rw [set, hfind]; rfl⟩
  refine Or.inr ⟨hroom, ?_⟩
  have hset : ∀ x, t.buckets.set p x ≠ [] := fun x => List.length_pos_iff.mp
    (by rw [List.length_set]; exact List.length_pos_iff.mpr hbuckets)
  simp only [set, get, hfind, nodeAt_of_getElem? hnode, bind, Except.bind, pure, Except.pure]
  by_cases hocc : node.status = .occupied
  · rw [if_pos hocc, if_pos hocc]
    refine ⟨_, rfl, hset _, ?_⟩
    obtain ⟨hlt, rfl⟩ := List.getElem?_eq_some_iff.mp hnode
    constructor
    · intro hsame
      have hbucket := congrArg (fun t : HashTable T => t.buckets[p]?) hsame
      simp only [List.getElem?_set_self hlt, hnode, Option.some.injEq] at hbucket
      rw [← congrArg Node.value hbucket]
    · intro hvalue
      obtain rfl : t.buckets[p].value = value := Option.some.inj (Except.ok.inj hvalue)
      rw [List.set_getElem_self]
  · rw [if_neg hocc, if_neg hocc]
    -- the counter tells the two tables apart
    have hcounted : ∀ t' : HashTable T, t'.sz = t.sz + 1 →
        (t' = t ↔ (Except.ok none : Except Fault (Option T)) = .ok (some value)) := by
      intro t' hsz
      refine iff_of_false (fun hsame => ?_) fun hnone => ?_
      · rw [hsame] at hsz
        omega
      · cases Except.ok.inj hnone
    split
    · obtain ⟨t', hrehash, hlength, hsz⟩ :=
        rehash_ok (t := ⟨t.buckets.set p ⟨key, value, .occupied⟩, t.sz + 1⟩) (hset _)
      exact ⟨t', hrehash, hlength, hcounted t' hsz⟩
    · exact ⟨_, rfl, hset _, hcounted _ rfl⟩

theorem erase_cases (hbuckets : t.buckets ≠ []) (key : Bytes) :
    (¬ t.HasRoom key ∧ t.erase key = .error notFound) ∨
    (t.HasRoom key ∧ ∃ found t', t.erase key = .ok (found, t') ∧ t'.buckets ≠ []) := by
  rcases find_cases hbuckets key with ⟨hnone, hfind⟩ | ⟨hroom, p, node, hfind, -⟩
  · exact Or.inl ⟨hnone, by rw [erase, hfind]; rfl⟩
  · refine Or.inr ⟨hroom, ?_⟩
    rw [erase, hfind]
    simp only [bind, Except.bind]
    split
    · refine ⟨_, _, rfl, List.length_pos_iff.mp ?_⟩
      simpa using List.length_pos_iff.mpr hbuckets
    · exact ⟨_, _, rfl, hbuckets⟩

end HashTable

/-! ## One shard -/

/-- All that a shard needs so that its calls return or throw `Empty position not found`: a table of
no buckets would be a remainder by zero, and an index that does not know its nodes an iterator to
nothing. It says nothing of what the table stands for, as a table from a file may stand for nothing.
-/
structure Shard.Usable (shard : Shard T) : Prop where
  buckets : shard.data.buckets ≠ []
  lru : ∃ l, shard.lru.Tracks l

namespace Shard

open KVStore (call_data call_data_error call_lru)

variable {shard : Shard T} {key : Bytes}

/-- A call that keeps a shard usable, and throws nothing but that there is no room. -/
def Behaves (mt : Method Fault (Shard T) α) : Prop :=
  ∀ shard : Shard T, shard.Usable →
    (mt.call shard).2.Usable ∧ ∀ e, (mt.call shard).1 = .error e → e = HashTable.notFound

theorem Behaves.pure (a : α) : Behaves (pure a : Method Fault (Shard T) α) :=
  fun _ h => ⟨h, nofun⟩

theorem Behaves.bind {m : Method Fault (Shard T) α} {f : α → Method Fault (Shard T) β}
    (hm : Behaves m) (hf : ∀ a, Behaves (f a)) : Behaves (m >>= f) := by
  intro shard h
  obtain ⟨husable, hthrows⟩ := hm shard h
  cases hcall : m.call shard with
  | mk outcome shard' =>
    rw [hcall] at husable hthrows
    cases outcome with
    | ok a =>
      rw [Method.call_bind_ok hcall]
      exact hf a shard' husable
    | error e =>
      rw [Method.call_bind_error hcall]
      exact ⟨husable, fun e' he => (Except.error.inj he) ▸ hthrows e rfl⟩

theorem behaves_data {f : HashTable T → Except Fault (α × HashTable T)}
    (hf : ∀ t : HashTable T, t.buckets ≠ [] → f t = .error HashTable.notFound ∨
      ∃ a t', f t = .ok (a, t') ∧ t'.buckets ≠ []) : Behaves (KVStore.data f) := by
  intro shard h
  rcases hf shard.data h.buckets with hfull | ⟨a, t', hok, hbuckets⟩
  · rw [call_data_error hfull]
    exact ⟨h, fun e he => (Except.error.inj he).symm⟩
  · rw [call_data hok]
    exact ⟨⟨hbuckets, h.lru⟩, nofun⟩

theorem behaves_lru {m : Method Fault LRU α}
    (hm : ∀ lru l, LRU.Tracks lru l → m.call lru = (.error HashTable.notFound, lru) ∨
      ∃ a lru' l', m.call lru = (.ok a, lru') ∧ LRU.Tracks lru' l') :
    Behaves (KVStore.lru m : Method Fault (Shard T) α) := by
  intro shard h
  obtain ⟨l, hl⟩ := h.lru
  rcases hm shard.lru l hl with hfull | ⟨a, lru', l', hok, hl'⟩
  · rw [call_lru shard hfull]
    exact ⟨⟨h.buckets, l, hl⟩, fun e he => (Except.error.inj he).symm⟩
  · rw [call_lru shard hok]
    exact ⟨⟨h.buckets, l', hl'⟩, nofun⟩

theorem behaves_access (key : Bytes) :
    Behaves (KVStore.lru (LRU.access key) : Method Fault (Shard T) _) := by
  refine behaves_lru fun lru l hl => ?_
  by_cases hroom : lru.hash.HasRoom key
  · obtain ⟨lru', l', hcall, hl', -⟩ := LRU.access_spec hl hroom
    exact Or.inr ⟨_, lru', l', hcall, hl'⟩
  · exact Or.inl (LRU.access_full hl hroom)

theorem behaves_set (key : Bytes) (value : T) : Behaves (set key value) := by
  refine .bind (behaves_data fun t ht => ?_) fun _ => behaves_lru fun lru l hl => ?_
  · rcases HashTable.set_cases ht key value with ⟨-, hfull⟩ | ⟨-, t', hset, ht', -⟩
    · exact Or.inl (by rw [hfull]; rfl)
    · exact Or.inr ⟨(), t', by rw [hset]; rfl, ht'⟩
  · by_cases hroom : lru.hash.HasRoom key
    · obtain ⟨r, lru', l', hcall, hl', -⟩ := LRU.set_spec hl hroom
      exact Or.inr ⟨r, lru', l', hcall, hl'⟩
    · exact Or.inl (LRU.set_full hl hroom)

theorem behaves_del (key : Bytes) : Behaves (del key : Method Fault (Shard T) _) := by
  refine .bind (behaves_data fun t ht => ?_) fun result => ?_
  · rcases HashTable.erase_cases ht key with ⟨-, hfull⟩ | ⟨-, found, t', herase, ht'⟩
    · exact Or.inl hfull
    · exact Or.inr ⟨found, t', herase, ht'⟩
  · cases result with
    | false => exact .pure _
    | true =>
      refine .bind (behaves_lru fun lru l hl => ?_) fun _ => .pure _
      by_cases hroom : lru.hash.HasRoom key
      · obtain ⟨lru', hcall, hl', -⟩ := LRU.del_spec hl hroom
        exact Or.inr ⟨_, lru', _, hcall, hl'⟩
      · exact Or.inl (LRU.del_full hl hroom)

/-- A call that has changed nothing where it throws. -/
def Inert (mt : Method Fault (Shard T) α) : Prop :=
  ∀ (shard : Shard T) (e : Fault), shard.Usable →
    (mt.call shard).1 = .error e → (mt.call shard).2 = shard

theorem behaves_lookup (key : Bytes) :
    Behaves (KVStore.data fun t => return (← t.get key, t) : Method Fault (Shard T) _) := by
  refine behaves_data fun t ht => ?_
  rcases HashTable.get_cases ht key with ⟨-, hfull⟩ | ⟨-, found, hget⟩
  · exact Or.inl (by rw [hfull]; rfl)
  · exact Or.inr ⟨found, t, by rw [hget]; rfl, ht⟩

/-- A read looks its key up, and then lets the LRU list know if it has found it. Neither search
changes anything before it has come to its end. -/
theorem inert_read {f : Option T → Method Fault (Shard T) α} (hnone : ∃ a, f none = pure a)
    (hsome : ∀ v, ∃ a, f (some v) = KVStore.lru (LRU.access key) >>= fun _ => pure a) :
    Inert ((KVStore.data fun t => return (← t.get key, t)) >>= f) := by
  intro shard e h he
  rcases HashTable.get_cases h.buckets key with ⟨-, hfull⟩ | ⟨-, found, hget⟩
  · have hread : (KVStore.data fun t => return (← t.get key, t)).call shard
        = (.error HashTable.notFound, shard) := call_data_error (by rw [hfull]; rfl)
    rw [Method.call_bind_error hread]
  · have hread : (KVStore.data fun t => return (← t.get key, t)).call shard
        = (.ok found, shard) := call_data (by rw [hget]; rfl)
    rw [Method.call_bind_ok hread] at he ⊢
    cases found with
    | none =>
      obtain ⟨a, ha⟩ := hnone
      rw [ha] at he
      exact nomatch he
    | some v =>
      obtain ⟨a, ha⟩ := hsome v
      obtain ⟨l, hl⟩ := h.lru
      rw [ha] at he ⊢
      by_cases hroom : shard.lru.hash.HasRoom key
      · obtain ⟨lru', l', hcall, -⟩ := LRU.access_spec hl hroom
        rw [Method.call_bind_ok (call_lru shard hcall)] at he
        exact nomatch he
      · rw [Method.call_bind_error (call_lru shard (LRU.access_full hl hroom))]

theorem behaves_read {f : Option T → Method Fault (Shard T) α} (hnone : ∃ a, f none = pure a)
    (hsome : ∀ v, ∃ a, f (some v) = KVStore.lru (LRU.access key) >>= fun _ => pure a) :
    Behaves ((KVStore.data fun t => return (← t.get key, t)) >>= f) := by
  refine .bind (behaves_lookup key) fun found => ?_
  cases found with
  | none =>
    obtain ⟨a, ha⟩ := hnone
    exact ha ▸ .pure a
  | some v =>
    obtain ⟨a, ha⟩ := hsome v
    exact ha ▸ .bind (behaves_access key) fun _ => .pure a

/-- Both reads of the store are of this form. -/
theorem read_get (key : Bytes) : Behaves (get key : Method Fault (Shard T) _) ∧
    Inert (get key : Method Fault (Shard T) _) :=
  ⟨behaves_read ⟨none, rfl⟩ fun v => ⟨some v, rfl⟩, inert_read ⟨none, rfl⟩ fun v => ⟨some v, rfl⟩⟩

theorem read_getValue (key : Bytes) : Behaves (getValue key) ∧ Inert (getValue key) :=
  ⟨behaves_read ⟨[], rfl⟩ fun v => ⟨encode v, rfl⟩,
    inert_read ⟨[], rfl⟩ fun v => ⟨encode v, rfl⟩⟩

/-- A `set` returns, or the table finds no room, or the table is written and the LRU list finds
none. -/
theorem Usable.set_cases (h : shard.Usable) (key : Bytes) (value : T) :
    (shard.data.HasRoom key ∧ shard.lru.hash.HasRoom key ∧
      ∃ r, ((Shard.set key value).call shard).1 = .ok r) ∨
    (¬ shard.data.HasRoom key ∧
      (Shard.set key value).call shard = (.error HashTable.notFound, shard)) ∨
    (shard.data.HasRoom key ∧ ¬ shard.lru.hash.HasRoom key ∧
      ∃ t, (t = shard.data ↔ shard.data.get key = .ok (some value)) ∧
        (Shard.set key value).call shard
          = (.error HashTable.notFound, { shard with data := t })) := by
  obtain ⟨l, hl⟩ := h.lru
  rcases HashTable.set_cases h.buckets key value with ⟨hnone, hfull⟩ | ⟨hroom, t, hset, -, hsame⟩
  · have hwrite : (KVStore.data fun t => return ((), ← t.set key value)).call shard
        = (.error HashTable.notFound, shard) := call_data_error (by rw [hfull]; rfl)
    exact Or.inr (Or.inl ⟨hnone, Method.call_bind_error hwrite _⟩)
  · have hwrite : (KVStore.data fun t => return ((), ← t.set key value)).call shard
        = (.ok (), { shard with data := t }) := call_data (by rw [hset]; rfl)
    by_cases hlru : shard.lru.hash.HasRoom key
    · obtain ⟨r, lru', l', hcall, -⟩ := LRU.set_spec hl hlru
      refine Or.inl ⟨hroom, hlru, r, ?_⟩
      rw [Shard.set, Method.call_bind_ok hwrite, call_lru { shard with data := t } hcall]
    · refine Or.inr (Or.inr ⟨hroom, hlru, t, hsame, ?_⟩)
      rw [Shard.set, Method.call_bind_ok hwrite]
      exact call_lru { shard with data := t } (LRU.set_full hl hlru)

end Shard

/-! ## The store -/

namespace KVStore

/-- Every shard is usable, and there is one to take the remainder by. -/
structure Usable (s : KVStore T) : Prop where
  shards : s.shards ≠ []
  usable : ∀ shard ∈ s.shards, shard.Usable

/-- The table or the LRU list finds no room for the key. -/
def Misses (s : KVStore T) (key : Bytes) : Prop :=
  ∃ shard ∈ s.shards[s.shardIndex key]?, ¬ (shard.data.HasRoom key ∧ shard.lru.hash.HasRoom key)

/-- The table finds no room for the key, or it finds the key, bound to that value already. It is
what `find` comes to that counts: a key behind a gap may be in the table and not be found. -/
def Spared (s : KVStore T) (key : Bytes) (value : T) : Prop :=
  ∀ shard ∈ s.shards[s.shardIndex key]?, ¬ shard.data.HasRoom key ∨
    shard.data.get key = .ok (some value)

variable {s : KVStore T} {key : Bytes}

theorem Usable.exists_shard (h : s.Usable) (key : Bytes) :
    ∃ shard, s.shards[s.shardIndex key]? = some shard ∧ shard.Usable := by
  have hlt : s.shardIndex key < s.shards.length :=
    Nat.mod_lt _ (List.length_pos_iff.mpr h.shards)
  exact ⟨_, List.getElem?_eq_getElem hlt, h.usable _ (List.getElem_mem hlt)⟩

theorem usable_onShard {mt : Method Fault (Shard T) α} (hmt : Shard.Behaves mt) :
    Method.Keeps KVStore.Usable (onShard key mt) := by
  intro s h
  obtain ⟨shard, hshard, husable⟩ := h.exists_shard key
  rw [call_onShard hshard]
  refine ⟨fun hnil => h.shards ?_, fun shard' hin => ?_⟩
  · exact List.length_eq_zero_iff.mp (List.length_set.symm.trans (congrArg List.length hnil))
  · rcases List.mem_or_eq_of_mem_set hin with hold | rfl
    · exact h.usable shard' hold
    · exact (hmt shard husable).1

theorem Usable.throws (h : s.Usable) {mt : Method Fault (Shard T) α} (hmt : Shard.Behaves mt)
    {e : Fault} (he : ((onShard key mt).call s).1 = .error e) : e = HashTable.notFound := by
  obtain ⟨shard, hshard, husable⟩ := h.exists_shard key
  rw [call_onShard hshard] at he
  exact (hmt shard husable).2 e he

/-- The one shard that is written back is as it was. -/
theorem set_getElem?_self {shards : List (Shard T)} {i : Nat} {shard : Shard T}
    (hshard : shards[i]? = some shard) : shards.set i shard = shards := by
  obtain ⟨hlt, rfl⟩ := List.getElem?_eq_some_iff.mp hshard
  exact List.set_getElem_self hlt

theorem Usable.unchanged (h : s.Usable) {mt : Method Fault (Shard T) α} (hmt : Shard.Inert mt)
    {e : Fault} (he : ((onShard key mt).call s).1 = .error e) :
    ((onShard key mt).call s).2 = s := by
  obtain ⟨shard, hshard, husable⟩ := h.exists_shard key
  rw [call_onShard hshard] at he ⊢
  rw [hmt shard e husable he, set_getElem?_self hshard]

theorem Usable.set_throws_iff (h : s.Usable) (value : T) :
    (∃ e, ((set key value).call s).1 = .error e) ↔ s.Misses key := by
  have hset : set key value = onShard key (Shard.set key value) := rfl
  obtain ⟨shard, hshard, husable⟩ := h.exists_shard key
  rw [hset, call_onShard hshard, Misses, hshard]
  simp only [Option.mem_some_iff, exists_eq_left']
  rcases husable.set_cases key value with
    ⟨hdata, hlru, r, hcall⟩ | ⟨hdata, hcall⟩ | ⟨-, hlru, t, -, hcall⟩
  · rw [hcall]
    exact iff_of_false (fun ⟨e, he⟩ => nomatch he) fun hmiss => hmiss ⟨hdata, hlru⟩
  · rw [hcall]
    exact iff_of_true ⟨_, rfl⟩ fun hroom => hdata hroom.1
  · rw [hcall]
    exact iff_of_true ⟨_, rfl⟩ fun hroom => hlru hroom.2

/-- **A `set` that throws** has left the store alone if the key was spared, and only then. -/
theorem Usable.set_unchanged_iff (h : s.Usable) {value : T} {e : Fault}
    (he : ((set key value).call s).1 = .error e) :
    ((set key value).call s).2 = s ↔ s.Spared key value := by
  have hset : set key value = onShard key (Shard.set key value) := rfl
  obtain ⟨shard, hshard, husable⟩ := h.exists_shard key
  rw [hset, call_onShard hshard] at he ⊢
  rw [Spared, hshard]
  simp only [Option.mem_some_iff, forall_eq']
  rcases husable.set_cases key value with
    ⟨-, -, r, hcall⟩ | ⟨hdata, hcall⟩ | ⟨hdata, -, t, hsame, hcall⟩
  · rw [hcall] at he
    exact nomatch he
  · rw [hcall, set_getElem?_self hshard]
    exact iff_of_true rfl (Or.inl hdata)
  · rw [hcall, or_iff_right (not_not.mpr hdata), ← hsame]
    constructor
    · intro hstore
      have hat := congrArg (fun s' : KVStore T => s'.shards[s.shardIndex key]?) hstore
      simp only [List.getElem?_set_self (List.getElem?_eq_some_iff.mp hshard).1, hshard,
        Option.some.injEq] at hat
      exact congrArg Shard.data hat
    · rintro rfl
      rw [set_getElem?_self hshard]

/-! ## What is read from a snapshot

The file decides how many buckets the table has, so a file that announces none makes a table that
cannot be asked. -/

/-- No file of the directory announces a table without buckets. -/
def Bucketed (dir : Directory) : Prop :=
  ∀ i, ∀ file ∈ dir i, HashTable.announcedBuckets file ≠ .ok 0

/-- A shard without a file is as the constructor of the store leaves it, and one with a file has the
table of the file and an LRU list that has just been cleared. -/
theorem usable_readfromfile {n maxsz : Nat} (hn : n ≠ 0) {dir : Directory} (hdir : Bucketed dir)
    {s : KVStore RespValue} {r : Unit}
    (hread : (readfromfile dir).call (withCapacity n maxsz) = (.ok r, s)) : s.Usable := by
  have hshards := call_readfromfile hread
  refine ⟨fun hnil => hn ?_, fun shard hin => ?_⟩
  · have hlength := length_readShards hshards
    rw [hnil] at hlength
    exact (hlength.trans List.length_replicate).symm
  · obtain ⟨i, hi⟩ := List.mem_iff_getElem?.mp hin
    obtain ⟨fresh, hfresh, hone⟩ := readShards_getElem? hshards i shard hi
    obtain rfl : fresh = _ := List.eq_of_mem_replicate (List.mem_of_getElem? hfresh)
    cases hfile : dir (0 + i) with
    | none =>
      rw [readShard, hfile] at hone
      obtain rfl := Except.ok.inj hone
      exact ⟨List.cons_ne_nil _ _, _, LRU.tracks_new maxsz⟩
    | some file =>
      simp only [readShard, hfile] at hone
      obtain ⟨t, ht, hone⟩ := Except.of_bind_eq_ok hone
      obtain rfl := Except.ok.inj hone
      obtain ⟨lru, hclear, htracks, -⟩ := LRU.clear_spec { maxsz }
      have hlru : (LRU.clear.call { maxsz }).2.Tracks fun _ => none := by rw [hclear]; exact htracks
      refine ⟨fun hnil => hdir (0 + i) file hfile ?_, _, hlru⟩
      rw [HashTable.readfromfile_length ht]
      exact congrArg (fun buckets => Except.ok (List.length buckets)) hnil

/-- The loop of `writetofile` ends only if the number of buckets fits the four bytes it is written
to. So what a usable store has written is not read as a table without buckets, and a server that
comes up after it has a usable store again. -/
theorem Usable.bucketed {s : KVStore RespValue} (h : s.Usable) {dir : Directory}
    (hdir : ∀ i, ∀ file ∈ dir i, ∃ shard ∈ s.shards, snapshotFile shard = some file) :
    Bucketed dir := by
  intro i file hfile
  obtain ⟨shard, hin, hwritten⟩ := hdir i file hfile
  have hlt : shard.data.buckets.length < 2 ^ 32 := by
    by_contra hge
    rw [snapshotFile, HashTable.writetofile,
      HashTable.writeLoop_diverges (Nat.le_of_not_lt hge) _ 0 (by omega)] at hwritten
    cases hwritten
  obtain ⟨records, -, rfl⟩ := Option.map_eq_some_iff.mp hwritten
  have hpos := List.length_pos_iff.mpr (h.usable shard hin).buckets
  simp only [HashTable.announcedBuckets, List.append_assoc, HashTable.readU32_u32, bind, Except.bind,
    HashTable.bucketsz, Nat.mod_eq_of_lt hlt]
  exact fun hzero => absurd (Except.ok.inj hzero) (by omega)

end KVStore
end Store
end KvJet
