import KvJet.Store.Contents
import KvJet.Store.Snapshot

/-!
# A snapshot of the whole store

`KVStore::writetofileFork` and `KVStore::readfromfile`: one file `shard_i.snap` for each shard, in
a directory that is emptied before it is written. A shard without a file keeps what it has; a
shard that is read has its LRU list cleared.

What a read that throws leaves behind is not modelled: it is made in the constructor of the
server, which then does not come up.

A shard is read on its own (`readShards_getElem?`). A file with no records makes its table empty;
any other leaves a key in it (`readfromfile_empty`, `readfromfile_nonempty`).
-/

namespace KvJet
namespace Store

open Resp (RespValue)

/-- The files of a snapshot directory, by the number of the shard. -/
abbrev Directory := Nat → Option Bytes

namespace KVStore

/-- The loop body of `readfromfile`. -/
def readShard (dir : Directory) (i : Nat) (shard : Shard RespValue) :
    Except Fault (Shard RespValue) :=
  match dir i with
  | none => .ok shard
  | some file => do
    return { data := ← HashTable.readfromfile file, lru := (LRU.clear.call shard.lru).2 }

def readShards (dir : Directory) : Nat → List (Shard RespValue) →
    Except Fault (List (Shard RespValue))
  | _, [] => .ok []
  | i, shard :: shards => do
    let shard ← readShard dir i shard
    return shard :: (← readShards dir (i + 1) shards)

def readfromfile (dir : Directory) : Method Fault (KVStore RespValue) Unit := do
  let s ← getThe (KVStore RespValue)
  let shards ← Method.lift (readShards dir 0 s.shards)
  modify fun s => { s with shards }

theorem call_readfromfile {dir : Directory} {s s' : KVStore RespValue} {r : Unit}
    (h : (readfromfile dir).call s = (.ok r, s')) : readShards dir 0 s.shards = .ok s'.shards := by
  obtain ⟨shards, s₁, hread, hrest⟩ := Method.bind_eq_ok
    (show (Method.lift (readShards dir 0 s.shards) >>= fun shards =>
      (modify fun s => { s with shards } : Method Fault (KVStore RespValue) Unit)).call s
        = (.ok r, s') from h)
  rw [Method.call_lift, Prod.mk.injEq] at hread
  obtain ⟨hread, rfl⟩ := hread
  rw [Method.call_modify, Prod.mk.injEq] at hrest
  rw [← hrest.2]
  exact hread

theorem readShards_getElem? {dir : Directory} : ∀ {i : Nat} {shards shards' : List (Shard RespValue)},
    readShards dir i shards = .ok shards' → ∀ (j : Nat) (shard' : Shard RespValue),
      shards'[j]? = some shard' →
        ∃ shard, shards[j]? = some shard ∧ readShard dir (i + j) shard = .ok shard' := by
  intro i shards
  induction shards generalizing i with
  | nil =>
    intro shards' h j shard' hj
    cases h
    exact absurd hj (by simp)
  | cons shard shards ih =>
    intro shards' h j shard' hj
    obtain ⟨first, hfirst, h⟩ := Except.of_bind_eq_ok h
    obtain ⟨rest, hrest, h⟩ := Except.of_bind_eq_ok h
    cases h
    cases j with
    | zero =>
      rw [List.getElem?_cons_zero, Option.some.injEq] at hj
      subst hj
      exact ⟨shard, rfl, hfirst⟩
    | succ j =>
      obtain ⟨old, hold, hread⟩ := ih hrest j shard' hj
      refine ⟨old, hold, ?_⟩
      rw [Nat.add_right_comm] at hread
      exact hread

theorem length_readShards {dir : Directory} : ∀ {i : Nat} {shards shards' : List (Shard RespValue)},
    readShards dir i shards = .ok shards' → shards'.length = shards.length := by
  intro i shards
  induction shards generalizing i with
  | nil =>
    intro shards' h
    cases h
    rfl
  | cons shard shards ih =>
    intro shards' h
    obtain ⟨first, -, h⟩ := Except.of_bind_eq_ok h
    obtain ⟨rest, hrest, h⟩ := Except.of_bind_eq_ok h
    cases h
    rw [List.length_cons, List.length_cons, ih hrest]

end KVStore

/-! ## What is in a file -/

namespace HashTable

/-- The number of buckets a file announces. -/
def announcedBuckets (file : Bytes) : Except Fault Nat := do
  let (readbucketsz, _) ← readU32 file
  return readbucketsz

/-- The number of records a file announces. -/
def announced (file : Bytes) : Except Fault Nat := do
  let (_, file) ← readU32 file
  let (validsz, _) ← readU32 file
  return validsz

/-- Some bucket is occupied. -/
def Nonempty (t : HashTable RespValue) : Prop := ∃ node ∈ t.buckets, node.status = .occupied

/-- Whatever the sizes in a record say, it ends in a write to one bucket of the table. -/
theorem readRecord_writes {t t' : HashTable RespValue} {file file' : Bytes}
    (h : readRecord t file = .ok (t', file')) :
    ∃ idx key value, idx < t.buckets.length ∧
      t'.buckets = t.buckets.set idx ⟨key, value, .occupied⟩ := by
  obtain ⟨⟨idx, file₁⟩, -, h⟩ := Except.of_bind_eq_ok h
  cases hnode : t.buckets[idx]? with
  | none =>
    simp only [hnode] at h
    exact absurd h (by simp)
  | some node =>
    simp only [hnode] at h
    obtain ⟨⟨keysize, file₂⟩, -, h⟩ := Except.of_bind_eq_ok h
    obtain ⟨⟨valuesize, file₃⟩, -, h⟩ := Except.of_bind_eq_ok h
    have hlt : idx < t.buckets.length := (List.getElem?_eq_some_iff.mp hnode).1
    simp only at h
    by_cases hvalue : valuesize > 0
    · rw [if_pos hvalue] at h
      obtain ⟨parser, -, h⟩ := Except.of_bind_eq_ok h
      cases hresult : parser.getResult.1 with
      | none =>
        simp only [hresult] at h
        exact absurd h (by simp)
      | some v =>
        simp only [hresult] at h
        cases h
        exact ⟨idx, _, _, hlt, rfl⟩
    · rw [if_neg hvalue] at h
      cases h
      exact ⟨idx, _, _, hlt, rfl⟩

theorem readRecord_nonempty {t t' : HashTable RespValue} {file file' : Bytes}
    (h : readRecord t file = .ok (t', file')) : t'.Nonempty := by
  obtain ⟨idx, key, value, hlt, hset⟩ := readRecord_writes h
  exact ⟨⟨key, value, .occupied⟩, by rw [hset]; exact List.mem_set hlt _, rfl⟩

theorem readRecords_length : ∀ {n : Nat} {t t' : HashTable RespValue} {file file' : Bytes},
    readRecords n t file = .ok (t', file') → t'.buckets.length = t.buckets.length := by
  intro n
  induction n with
  | zero =>
    intro t t' file file' h
    cases h
    rfl
  | succ n ih =>
    intro t t' file file' h
    obtain ⟨⟨t₁, file₁⟩, hfirst, h⟩ := Except.of_bind_eq_ok h
    obtain ⟨idx, key, value, -, hset⟩ := readRecord_writes hfirst
    rw [ih h, hset, List.length_set]

theorem readRecords_nonempty : ∀ {n : Nat} {t t' : HashTable RespValue} {file file' : Bytes},
    readRecords n t file = .ok (t', file') → n ≠ 0 ∨ t.Nonempty → t'.Nonempty := by
  intro n
  induction n with
  | zero =>
    intro t t' file file' h hne
    cases h
    exact hne.resolve_left (by simp)
  | succ n ih =>
    intro t t' file file' h _
    obtain ⟨⟨t₁, file₁⟩, hfirst, h⟩ := Except.of_bind_eq_ok h
    exact ih h (Or.inr (readRecord_nonempty hfirst))

/-- What a read that returned has read. -/
theorem readfromfile_returned {file : Bytes} {t : HashTable RespValue}
    (h : readfromfile file = .ok t) :
    ∃ readbucketsz validsz rest rest', announcedBuckets file = .ok readbucketsz ∧
      announced file = .ok validsz ∧
      readRecords validsz ⟨List.replicate readbucketsz blank, validsz⟩ rest = .ok (t, rest') := by
  obtain ⟨⟨readbucketsz, file₁⟩, hfirst, h⟩ := Except.of_bind_eq_ok h
  obtain ⟨⟨validsz, file₂⟩, hsecond, h⟩ := Except.of_bind_eq_ok h
  obtain ⟨⟨t₁, file₃⟩, hrecords, h⟩ := Except.of_bind_eq_ok h
  cases h
  refine ⟨readbucketsz, validsz, file₂, file₃, ?_, ?_, hrecords⟩
  · simp only [announcedBuckets, hfirst, bind, Except.bind, pure, Except.pure]
  · simp only [announced, hfirst, hsecond, bind, Except.bind, pure, Except.pure]

/-- A table has as many buckets as its file announces. -/
theorem readfromfile_length {file : Bytes} {t : HashTable RespValue}
    (h : readfromfile file = .ok t) : announcedBuckets file = .ok t.buckets.length := by
  obtain ⟨n, validsz, rest, rest', hannounced, -, hrecords⟩ := readfromfile_returned h
  rw [hannounced, readRecords_length hrecords, List.length_replicate]

theorem readfromfile_empty {file : Bytes} {t : HashTable RespValue}
    (h : readfromfile file = .ok t) (hzero : announced file = .ok 0) :
    ∃ n, t = ⟨List.replicate n blank, 0⟩ := by
  obtain ⟨n, validsz, rest, rest', -, hannounced, hrecords⟩ := readfromfile_returned h
  rw [hzero, Except.ok.injEq] at hannounced
  subst hannounced
  cases hrecords
  exact ⟨n, rfl⟩

theorem readfromfile_nonempty {file : Bytes} {t : HashTable RespValue}
    (h : readfromfile file = .ok t) (hsome : announced file ≠ .ok 0) : t.Nonempty := by
  obtain ⟨n, validsz, rest, rest', -, hannounced, hrecords⟩ := readfromfile_returned h
  refine readRecords_nonempty hrecords (Or.inl fun hzero => hsome ?_)
  rw [hannounced, hzero]

end HashTable

/-! ## What a directory holds -/

namespace KVStore

/-- The file that `writetofileFork` writes for a shard, if the loop over the buckets ends. -/
def snapshotFile (shard : Shard RespValue) : Option Bytes :=
  shard.data.writetofile (shard.data.bucketsz + 1)

/-- The shard of a key. -/
def shardOf (key : Bytes) : Nat := (HashTable.gethash key).toNat % shardCount

theorem shardIndex_eq {s : KVStore RespValue} (h : s.shards.length = shardCount) (key : Bytes) :
    s.shardIndex key = shardOf key := by
  rw [shardIndex, h, shardOf]

/-- The file of shard `i`, if there is one, has the shard's part of `m`. -/
def FileHolds (file : Option Bytes) (i : Nat) (m : Bytes → Option RespValue) : Prop :=
  match file with
  | none => ∀ k, shardOf k = i → m k = none
  | some file => ∃ t, HashTable.readfromfile file = .ok t ∧
      t.Represents fun k => if shardOf k = i then m k else none

/-- A server that reads the directory has a store that holds `m`. -/
def Loads (dir : Directory) (m : Bytes → Option RespValue) : Prop :=
  ∀ i < shardCount, FileHolds (dir i) i m

variable {dir : Directory} {m : Bytes → Option RespValue} {i : Nat}

theorem FileHolds.congr {m' : Bytes → Option RespValue} {file : Option Bytes} (h : FileHolds file i m)
    (hsame : ∀ k, shardOf k = i → m' k = m k) : FileHolds file i m' := by
  cases file with
  | none => exact fun k hk => (hsame k hk).trans (h k hk)
  | some file =>
    obtain ⟨t, hread, hrep⟩ := h
    refine ⟨t, hread, ?_⟩
    have hpart : (fun k => if shardOf k = i then m' k else none)
        = fun k => if shardOf k = i then m k else none := by
      funext k
      split
      · rename_i hk
        exact hsame k hk
      · rfl
    rw [hpart]
    exact hrep

theorem loads_empty : Loads (fun _ => none) fun _ => none := fun _ _ _ _ => rfl

/-- Another file for shard `i`, or none. -/
theorem Loads.put (h : Loads dir m) {file : Option Bytes} (m' : Bytes → Option RespValue)
    (hfile : FileHolds file i m') :
    Loads (Function.update dir i file) fun k => if shardOf k = i then m' k else m k := by
  intro j hj
  by_cases hij : j = i
  · rw [hij, Function.update_self]
    exact hfile.congr fun k hk => if_pos hk
  · rw [Function.update_of_ne hij]
    exact (h j hj).congr fun k hk => if_neg (by rw [hk]; exact hij)

theorem Loads.remove (h : Loads dir m) (i : Nat) :
    Loads (Function.update dir i none) fun k => if shardOf k = i then none else m k :=
  h.put (fun _ => none) fun _ _ => rfl

theorem readShards_exists {dir : Directory} : ∀ {i : Nat} {shards : List (Shard RespValue)},
    (∀ j shard, shards[j]? = some shard → ∃ shard', readShard dir (i + j) shard = .ok shard') →
      ∃ shards', readShards dir i shards = .ok shards' := by
  intro i shards
  induction shards generalizing i with
  | nil => exact fun _ => ⟨[], rfl⟩
  | cons shard shards ih =>
    intro h
    obtain ⟨first, hfirst⟩ := h 0 shard rfl
    obtain ⟨rest, hrest⟩ := ih (i := i + 1) fun j shard hj => by
      rw [Nat.add_right_comm]
      exact h (j + 1) shard hj
    have hfirst : readShard dir i shard = .ok first := hfirst
    exact ⟨first :: rest, by simp only [readShards, hfirst, hrest, bind, Except.bind]; rfl⟩

/-- One shard that has just been made. -/
theorem FileHolds.readShard (h : FileHolds (dir i) i m) :
    ∃ shard, readShard dir i {} = .ok shard ∧ ∃ d l, shard.Holds d l ∧
      ∀ k, d k = if shardOf k = i then m k else none := by
  cases hfile : dir i with
  | none =>
    rw [hfile] at h
    refine ⟨{}, by rw [KVStore.readShard, hfile], _, _, Shard.holds_new lruMaxSize, fun k => ?_⟩
    split
    · rename_i hk
      exact (h k hk).symm
    · rfl
  | some file =>
    rw [hfile] at h
    obtain ⟨t, hread, hrep⟩ := h
    obtain ⟨lru, hclear, htracks, -⟩ := LRU.clear_spec ({} : Shard RespValue).lru
    refine ⟨{ data := t, lru := (LRU.clear.call ({} : Shard RespValue).lru).2 }, ?_, _, _,
      ⟨hrep, by rw [hclear]; exact htracks⟩, fun k => rfl⟩
    simp only [KVStore.readShard, hfile, hread, bind, Except.bind, pure, Except.pure]

/-- **Reading the directory**, on a server that has just been made. -/
theorem Loads.contents (h : Loads dir m) :
    ∃ s, (readfromfile dir).call ({} : KVStore RespValue) = (.ok (), s) ∧ s.Contents m := by
  have hfresh : ∀ j shard, ({} : KVStore RespValue).shards[j]? = some shard →
      j < shardCount ∧ shard = {} := by
    intro j shard hj
    have hlt := (List.getElem?_eq_some_iff.mp hj).1
    exact ⟨by simpa using hlt, List.eq_of_mem_replicate (List.mem_of_getElem? hj)⟩
  have hexists : ∃ shards, readShards dir 0 ({} : KVStore RespValue).shards = .ok shards := by
    refine readShards_exists fun j shard hj => ?_
    obtain ⟨hlt, rfl⟩ := hfresh j shard hj
    obtain ⟨shard', hread, -⟩ := (h j hlt).readShard
    exact ⟨shard', by rw [Nat.zero_add]; exact hread⟩
  obtain ⟨shards, hshards⟩ := hexists
  have hlen : shards.length = shardCount := by
    rw [length_readShards hshards]
    exact List.length_replicate
  refine ⟨{ shards }, ?_, by rw [hlen]; decide, fun j shard' hj => ?_⟩
  · have hlift : (Method.lift (readShards dir 0 ({} : KVStore RespValue).shards) :
        Method Fault (KVStore RespValue) _).call {} = (.ok shards, {}) := by
      rw [Method.call_lift, hshards]
    exact (Method.call_bind_ok (Method.call_get _) _).trans (Method.call_bind_ok hlift _)
  · obtain ⟨shard, hold, hread⟩ := readShards_getElem? hshards j shard' hj
    obtain ⟨hlt, rfl⟩ := hfresh j shard hold
    obtain ⟨shard'', hread', d, l, hholds, hd⟩ := (h j hlt).readShard
    rw [Nat.zero_add, hread', Except.ok.injEq] at hread
    subst hread
    exact ⟨d, l, hholds, fun k => by rw [hd, shardIndex_eq hlen]⟩

/-! ## What a child writes -/

/-- The sizes fit the counters of the file. -/
def Small (t : HashTable RespValue) : Prop :=
  t.bucketsz < 2 ^ 32 ∧ ∀ node ∈ t.buckets, node.status = .occupied →
    node.key.length < 2 ^ 32 ∧ (Resp.encode node.value).length < 2 ^ 32

instance (t : HashTable RespValue) : Decidable (Small t) :=
  inferInstanceAs (Decidable (_ ∧ ∀ node ∈ t.buckets, _ → _))

/-- The store of a server that was only written: it holds `m`. -/
structure Intact (s : KVStore RespValue) (m : Bytes → Option RespValue) : Prop where
  contents : s.Contents m
  writeOnly : s.WriteOnly
  length : s.shards.length = shardCount
  wire : ∀ k v, m k = some v → v.Wire

theorem intact_new : Intact {} fun _ => none where
  contents := contents_new
  writeOnly := writeOnly_new
  length := List.length_replicate
  wire := by simp

theorem Intact.set {s : KVStore RespValue} {key : Bytes} {value : RespValue} (h : Intact s m)
    (hroom : s.Room key) (hvalue : value.Wire) :
    ∃ r s', (set key value).call s = (.ok r, s') ∧
      Intact s' (Function.update m key (some value)) := by
  obtain ⟨r, s', hset, hcontents⟩ := set_contents h.contents value hroom
  obtain ⟨r', s'', hset', hwriteOnly⟩ :=
    set_spec h.writeOnly value fun shard hshard => (hroom shard hshard).2
  rw [hset, Prod.mk.injEq] at hset'
  refine ⟨r, s', hset, hcontents, by rw [hset'.2]; exact hwriteOnly, ?_, fun k v hv => ?_⟩
  · obtain ⟨shard, hshard, -⟩ := h.writeOnly.exists_shard key
    have hcall : (KVStore.set key value).call s = _ := call_onShard hshard _
    rw [hset, Prod.mk.injEq] at hcall
    rw [hcall.2, List.length_set]
    exact h.length
  · by_cases hk : k = key
    · rw [hk, Function.update_self, Option.some.injEq] at hv
      rw [← hv]
      exact hvalue
    · rw [Function.update_of_ne hk] at hv
      exact h.wire k v hv

/-- **The file that is written for a shard** has the shard's part of the store. -/
theorem Intact.fileHolds {s : KVStore RespValue} {shard : Shard RespValue}
    (h : Intact s m) (hshard : s.shards[i]? = some shard) (hsmall : Small shard.data) :
    ∃ file, snapshotFile shard = some file ∧ FileHolds (some file) i m := by
  obtain ⟨d, l, hholds, hd⟩ := h.contents.shard i shard hshard
  have hclean := (h.writeOnly.shard shard (List.mem_of_getElem? hshard)).clean
  have hpart : d = fun k => if shardOf k = i then m k else none := by
    funext k
    rw [hd, shardIndex_eq h.length]
  have hfits : ∀ node ∈ shard.data.buckets, node.status = .occupied →
      HashTable.Fits node.key node.value := by
    intro ⟨k, v, st⟩ hnode hst
    cases hst
    have hbound : d k = some v := (hholds.data.stores.holds k v).mpr hnode
    rw [hd] at hbound
    split at hbound
    · obtain ⟨hkey, hvalue⟩ := hsmall.2 _ hnode rfl
      exact ⟨hkey, h.wire k v hbound, hvalue⟩
    · exact absurd hbound (by simp)
  obtain ⟨-, hread⟩ := HashTable.readfromfile_writetofile hsmall.1 hholds.data.count hfits
  obtain ⟨file, hfile⟩ : ∃ file, snapshotFile shard = some file := by
    have hloop := HashTable.writeLoop_eq hsmall.1 (shard.data.bucketsz + 1) []
      shard.data.buckets rfl
    rw [if_pos (show shard.data.buckets.length < shard.data.bucketsz + 1 from Nat.lt_succ_self _)]
      at hloop
    exact ⟨_, congrArg (Option.map _) hloop⟩
  refine ⟨file, hfile, shard.data.loaded, hread _ file hfile, ?_⟩
  rw [← hpart]
  exact HashTable.represents_loaded hholds.data (HashTable.unburied_of_live hclean)

end KVStore
end Store
end KvJet
