import KvJet.Lib.Run
import KvJet.Store.Directory

/-!
# The tables and the LRU lists

Whether the table of a shard and its LRU list hold the same keys, over runs of calls of a store
with an LRU capacity of one's choice. They start to differ in two places. `KVStore::set` hands the
key that the LRU list evicts to its caller and leaves it in the table; and a shard that is read
from a file starts with an empty LRU list.

So the two agree for as long as neither happens (`agrees_iff_fits`).
-/

namespace KvJet
namespace Store

open Resp (RespValue)
open Run

variable {T : Type} [Inhabited T]

/-- The keys a table holds. -/
def HashTable.keys (t : HashTable T) : Finset Bytes := (t.forEach.map Prod.fst).toFinset

/-- The keys an LRU list tracks. -/
def LRU.keys (l : LRU) : Finset Bytes := (l.lst.map Prod.snd).toFinset

theorem HashTable.Represents.mem_keys {t : HashTable T} {d : Bytes → Option T}
    (h : t.Represents d) (k : Bytes) : k ∈ t.keys ↔ d k ≠ none := by
  rw [HashTable.keys, List.mem_toFinset, List.mem_map, Option.ne_none_iff_exists']
  constructor
  · rintro ⟨⟨k, v⟩, hin, rfl⟩
    exact ⟨v, (HashTable.mem_forEach h.stores k v).mp hin⟩
  · rintro ⟨v, hv⟩
    exact ⟨(k, v), (HashTable.mem_forEach h.stores k v).mpr hv, rfl⟩

theorem HashTable.Nonempty.keys {t : HashTable RespValue} (h : t.Nonempty) :
    t.keys ≠ ∅ := by
  obtain ⟨⟨key, value, status⟩, hin, rfl⟩ := h
  refine Finset.ne_empty_of_mem (a := key) ?_
  rw [HashTable.keys, List.mem_toFinset, List.mem_map]
  exact ⟨(key, value), List.mem_filterMap.mpr ⟨_, hin, by simp⟩, rfl⟩

namespace LRU

variable {l : LRU} {m : Bytes → Option Nat}

theorem Tracks.mem_keys (h : l.Tracks m) (k : Bytes) : k ∈ l.keys ↔ m k ≠ none := by
  rw [keys, List.mem_toFinset, List.mem_map, Option.ne_none_iff_exists']
  constructor
  · rintro ⟨⟨it, k⟩, hin, rfl⟩
    exact ⟨it, (h.listed.mem k it).mpr hin⟩
  · rintro ⟨it, hit⟩
    exact ⟨(it, k), (h.listed.mem k it).mp hit, rfl⟩

/-- No key is listed twice. -/
theorem Tracks.card_keys (h : l.Tracks m) : l.keys.card = l.lst.length := by
  have hnodes : l.lst.Nodup := List.Nodup.of_map _ h.listed.nodup
  have hnodup : (l.lst.map Prod.snd).Nodup := by
    refine List.Nodup.map_on ?_ hnodes
    rintro ⟨it, k⟩ hin ⟨jt, k'⟩ hjn rfl
    have hsame := (h.listed.mem k it).mpr hin
    rw [(h.listed.mem k jt).mpr hjn, Option.some.injEq] at hsame
    rw [hsame]
  rw [keys, List.toFinset_card_of_nodup hnodup, List.length_map]

end LRU

/-! ## One shard

Each call of `KVStore` is a call on the table and one on the LRU list, so it is said for each pair
of them when the two sets of keys stay the same. -/

namespace Shard

/-- The table and the LRU list have the same keys, and no more than the capacity. -/
structure Agrees (shard : Shard T) : Prop where
  keys : shard.data.keys = shard.lru.keys
  card : shard.data.keys.card ≤ shard.lru.maxsz

/-- Each of the two is as its own methods leave it. A table without buckets comes from a file
that announces none. -/
structure Sound (shard : Shard T) : Prop where
  data : shard.data.buckets = [] ∨ ∃ d, shard.data.Represents d
  lru : ∃ l, shard.lru.Tracks l

theorem sound_new (maxsz : Nat) : ({ lru := { maxsz } } : Shard T).Sound where
  data := Or.inr ⟨_, HashTable.represents_fresh⟩
  lru := ⟨_, LRU.tracks_new maxsz⟩

theorem Holds.sound {shard : Shard T} {d : Bytes → Option T} {l : Bytes → Option Nat}
    (h : shard.Holds d l) : shard.Sound := ⟨Or.inr ⟨d, h.data⟩, ⟨l, h.lru⟩⟩

variable {shard shard' : Shard T} {d : Bytes → Option T} {l : Bytes → Option Nat} {key : Bytes}

theorem Holds.agrees_iff (h : shard.Holds d l) :
    shard.Agrees ↔ (∀ k, d k ≠ none ↔ l k ≠ none) ∧ shard.data.keys.card ≤ shard.lru.maxsz := by
  constructor
  · intro hagrees
    refine ⟨fun k => ?_, hagrees.card⟩
    rw [← h.data.mem_keys, ← h.lru.mem_keys, hagrees.keys]
  · rintro ⟨hkeys, hcard⟩
    refine ⟨Finset.ext fun k => ?_, hcard⟩
    rw [h.data.mem_keys, h.lru.mem_keys]
    exact hkeys k

/-- A call on a table without buckets does not return. -/
theorem Sound.holds {α : Type} (h : shard.Sound)
    {f : HashTable T → Except Fault (α × HashTable T)} {a : α}
    (hf : shard.data.buckets = [] → f shard.data = .error (.undefined "modulo zero"))
    (hcall : (KVStore.data f).call shard = (.ok a, shard')) : ∃ d l, shard.Holds d l := by
  obtain ⟨l, hl⟩ := h.lru
  rcases h.data with hempty | ⟨d, hd⟩
  · rw [KVStore.call_data_error (hf hempty)] at hcall
    exact absurd hcall (by simp)
  · exact ⟨d, l, hd, hl⟩

omit [Inhabited T] in
theorem find_of_no_buckets {t : HashTable T} (h : t.buckets = []) (key : Bytes) :
    t.find key = .error (.undefined "modulo zero") := by
  rw [HashTable.find, HashTable.bucketsz, h]
  rfl

theorem Sound.holds_of_set {value : T} {r : Option Bytes} (h : shard.Sound)
    (hcall : (set key value).call shard = (.ok r, shard')) : ∃ d l, shard.Holds d l := by
  obtain ⟨a, shard₁, hdata, -⟩ := Method.bind_eq_ok hcall
  refine h.holds (fun hempty => ?_) hdata
  rw [HashTable.set, find_of_no_buckets hempty]
  rfl

theorem Sound.holds_of_get {r : Option T} (h : shard.Sound)
    (hcall : (get key).call shard = (.ok r, shard')) : ∃ d l, shard.Holds d l := by
  obtain ⟨a, shard₁, hdata, -⟩ := Method.bind_eq_ok hcall
  refine h.holds (fun hempty => ?_) hdata
  rw [HashTable.get, find_of_no_buckets hempty]
  rfl

theorem Sound.holds_of_getValue {shard shard' : Shard RespValue} {r : Bytes} (h : shard.Sound)
    (hcall : (getValue key).call shard = (.ok r, shard')) : ∃ d l, shard.Holds d l := by
  obtain ⟨a, shard₁, hdata, -⟩ := Method.bind_eq_ok hcall
  refine h.holds (fun hempty => ?_) hdata
  rw [HashTable.get, find_of_no_buckets hempty]
  rfl

theorem Sound.holds_of_del {r : Bool} (h : shard.Sound)
    (hcall : (del key).call shard = (.ok r, shard')) : ∃ d l, shard.Holds d l := by
  obtain ⟨a, shard₁, hdata, -⟩ := Method.bind_eq_ok hcall
  refine h.holds (fun hempty => ?_) hdata
  rw [HashTable.erase, find_of_no_buckets hempty]
  rfl

/-- Nothing has to go for this key: it is listed, or there is a place. -/
def Admits (shard : Shard T) (key : Bytes) : Prop :=
  key ∈ shard.lru.keys ∨ shard.lru.keys.card < shard.lru.maxsz

theorem ne_none_update {α : Type} (d : Bytes → Option α) (key : Bytes) (v : α) (k : Bytes) :
    Function.update d key (some v) k ≠ none ↔ k = key ∨ d k ≠ none := by
  by_cases hk : k = key
  · simp [hk]
  · rw [Function.update_of_ne hk]
    simp [hk]

/-- **`set` keeps the agreement** exactly if nothing has to go. What has to go stays in the
table. -/
theorem Agrees.set_iff {value : T} {r : Option Bytes} (hagrees : shard.Agrees) (h : shard.Sound)
    (hcall : (set key value).call shard = (.ok r, shard')) :
    shard'.Sound ∧ (shard'.Agrees ↔ shard.Admits key) ∧ (shard.Admits key → r = none) := by
  obtain ⟨d, l, hholds⟩ := h.holds_of_set hcall
  obtain ⟨hdata, hlru⟩ := set_returned hholds hcall
  obtain ⟨r', shard₁, l', hcall', hholds', hmax, hresult⟩ := set_spec hholds value hdata hlru
  rw [hcall, Prod.mk.injEq, Except.ok.injEq] at hcall'
  obtain ⟨rfl, rfl⟩ := hcall'
  refine ⟨hholds'.sound, ?_⟩
  have hsame := (hholds.agrees_iff.mp hagrees).1
  -- the table has the new key besides those it had
  have hkeys : shard'.data.keys = insert key shard.data.keys := by
    refine Finset.ext fun k => ?_
    rw [hholds'.data.mem_keys, ne_none_update, Finset.mem_insert, hholds.data.mem_keys]
  have hlen := hholds.lru.card_keys
  cases hresult with
  | listed hin =>
    have hin : key ∈ shard.lru.keys := (hholds.lru.mem_keys key).mpr hin
    refine ⟨⟨fun _ => Or.inl hin, fun _ => hholds'.agrees_iff.mpr ⟨fun k => ?_, ?_⟩⟩, fun _ => rfl⟩
    · rw [ne_none_update, ne_none_update, hsame]
    · rw [hkeys, hmax, Finset.insert_eq_of_mem (by rw [hagrees.keys]; exact hin)]
      exact hagrees.card
  | added hout hlt =>
    have hadmits : shard.Admits key := Or.inr (by rw [hlen]; exact hlt)
    refine ⟨⟨fun _ => hadmits, fun _ => hholds'.agrees_iff.mpr ⟨fun k => ?_, ?_⟩⟩, fun _ => rfl⟩
    · rw [ne_none_update, ne_none_update, hsame]
    · rw [hkeys, hmax]
      have hcard := Finset.card_insert_le key shard.data.keys
      rw [hagrees.keys, hlen] at hcard
      rw [hagrees.keys]
      omega
  | evicted hout hge y hy =>
    have hnot : ¬ shard.Admits key := by
      rintro (hin | hlt)
      · exact (hholds.lru.mem_keys key).mp hin hout
      · rw [hlen] at hlt
        omega
    refine ⟨⟨fun hafter => ?_, fun hadmits => absurd hadmits hnot⟩, fun hadmits => absurd hadmits hnot⟩
    refine absurd (((hholds'.agrees_iff.mp hafter).1 y).mp ?_) ?_
    · rw [ne_none_update, hsame]
      exact hy
    · simp

theorem Agrees.read (hagrees : shard.Agrees) (hholds : shard.Holds d l)
    (hread : Read shard shard' d l) : shard'.Sound ∧ shard'.Agrees := by
  obtain ⟨l', hholds', hkeys⟩ := hread.holds
  obtain ⟨hsame, hcard⟩ := hholds.agrees_iff.mp hagrees
  refine ⟨hholds'.sound, hholds'.agrees_iff.mpr ⟨fun k => ?_, ?_⟩⟩
  · rw [hsame, ne_eq, ne_eq, hkeys]
  · rw [hread.data, hread.maxsz]
    exact hcard

theorem Agrees.get {r : Option T} (hagrees : shard.Agrees) (h : shard.Sound)
    (hcall : (Shard.get key).call shard = (.ok r, shard')) : shard'.Sound ∧ shard'.Agrees := by
  obtain ⟨d, l, hholds⟩ := h.holds_of_get hcall
  obtain ⟨shard₁, hcall', hread⟩ := get_spec hholds (get_returned hholds hcall)
  rw [hcall, Prod.mk.injEq] at hcall'
  obtain ⟨-, rfl⟩ := hcall'
  exact hagrees.read hholds hread

theorem Agrees.getValue {shard shard' : Shard RespValue} {r : Bytes} (hagrees : shard.Agrees)
    (h : shard.Sound) (hcall : (Shard.getValue key).call shard = (.ok r, shard')) :
    shard'.Sound ∧ shard'.Agrees := by
  obtain ⟨d, l, hholds⟩ := h.holds_of_getValue hcall
  obtain ⟨shard₁, hcall', hread⟩ := getValue_spec hholds (getValue_returned hholds hcall)
  rw [hcall, Prod.mk.injEq] at hcall'
  obtain ⟨-, rfl⟩ := hcall'
  exact hagrees.read hholds hread

theorem Agrees.del {r : Bool} (hagrees : shard.Agrees) (h : shard.Sound)
    (hcall : (Shard.del key).call shard = (.ok r, shard')) : shard'.Sound ∧ shard'.Agrees := by
  obtain ⟨d, l, hholds⟩ := h.holds_of_del hcall
  obtain ⟨shard₁, l', hcall', hholds', hmax, hl'⟩ := del_spec hholds (del_returned hholds hcall)
  rw [hcall, Prod.mk.injEq] at hcall'
  obtain ⟨-, rfl⟩ := hcall'
  obtain ⟨hsame, hcard⟩ := hholds.agrees_iff.mp hagrees
  refine ⟨hholds'.sound, hholds'.agrees_iff.mpr ⟨fun k => ?_, ?_⟩⟩
  · rw [hl']
    by_cases hk : k = key
    · subst hk
      by_cases hnone : d k = none
      · rw [if_pos hnone, Function.update_self, ← hsame, hnone]
      · rw [if_neg hnone, Function.update_self, Function.update_self]
        simp
    · rw [Function.update_of_ne hk, hsame]
      split
      · rfl
      · rw [Function.update_of_ne hk]
  · rw [hmax]
    refine le_trans (Finset.card_le_card fun k hk => ?_) hcard
    rw [hholds'.data.mem_keys] at hk
    rw [hholds.data.mem_keys]
    by_cases hkk : k = key
    · rw [hkk, Function.update_self] at hk
      exact absurd rfl hk
    · rwa [Function.update_of_ne hkk] at hk

/-- **A shard that is read agrees** exactly if there is nothing in its file. -/
theorem Agrees.read_iff {shard shard' : Shard RespValue} {dir : Directory} {i : Nat}
    (hagrees : shard.Agrees) (h : shard.Sound)
    (hread : KVStore.readShard dir i shard = .ok shard') :
    ((∀ file ∈ dir i, HashTable.announced file = .ok 0) → shard'.Sound ∧ shard'.Agrees) ∧
      (shard'.Agrees → ∀ file ∈ dir i, HashTable.announced file = .ok 0) := by
  cases hfile : dir i with
  | none =>
    rw [KVStore.readShard, hfile] at hread
    cases hread
    exact ⟨fun _ => ⟨h, hagrees⟩, fun _ file hin => absurd hin (by simp)⟩
  | some file =>
    simp only [KVStore.readShard, hfile] at hread
    obtain ⟨t, ht, hread⟩ := Except.of_bind_eq_ok hread
    cases hread
    obtain ⟨lru, hclear, htracks, hmax, hlst⟩ := LRU.clear_spec shard.lru
    have hnone : ({ data := t, lru := (LRU.clear.call shard.lru).2 } : Shard RespValue).lru.keys
        = ∅ := rfl
    constructor
    · intro hzero
      obtain ⟨n, rfl⟩ := HashTable.readfromfile_empty ht (hzero file rfl)
      have hkeys : (⟨List.replicate n HashTable.blank, 0⟩ : HashTable RespValue).keys = ∅ := by
        simp [HashTable.keys, HashTable.forEach, HashTable.blank]
      refine ⟨⟨?_, ⟨_, by rw [hclear]; exact htracks⟩⟩, ⟨by rw [hkeys]; rfl, ?_⟩⟩
      · rcases Nat.eq_zero_or_pos n with rfl | hpos
        · exact Or.inl rfl
        · exact Or.inr ⟨_, HashTable.represents_blank hpos⟩
      · rw [hkeys]
        exact Nat.zero_le _
    · intro hafter file' hin
      cases hin
      by_contra hsome
      refine (HashTable.readfromfile_nonempty ht hsome).keys ?_
      exact hafter.keys

end Shard

/-! ## Runs of calls

The keys that were evicted are remembered, for nothing in the store does. -/

/-- `KVStore(n)` where `LRU_MAX_SIZE` is `maxsz`. -/
def KVStore.withCapacity (n maxsz : Nat) : KVStore RespValue :=
  { shards := List.replicate n { lru := { maxsz } } }

/-- A call of the store. -/
inductive Request where
  | set (key : Bytes) (value : RespValue)
  | get (key : Bytes)
  | getValue (key : Bytes)
  | del (key : Bytes)
  | readfromfile (dir : Directory)

namespace Request

/-- The result is the key that `set` says had to go. -/
def call : Request → Method Fault (KVStore RespValue) (Option Bytes)
  | .set key value => KVStore.set key value
  | .get key => do let _ ← KVStore.get key; return none
  | .getValue key => do let _ ← KVStore.getValue key; return none
  | .del key => do let _ ← KVStore.del key; return none
  | .readfromfile dir => do KVStore.readfromfile dir; return none

/-- The key is set again. -/
def Sets (key : Bytes) : Request → Bool
  | .set k _ => k = key
  | _ => false

end Request

/-- A store, and the keys that `set` has returned as evicted and that were not set since. -/
structure Watched where
  store : KVStore RespValue
  gone : List Bytes := []

namespace Watched

def step (w : Watched) (c : Request) : Watched :=
  match c.call.call w.store with
  | (.ok r, s) => ⟨s, (w.gone.filter fun key => !c.Sets key) ++ r.toList⟩
  | (.error _, s) => ⟨s, w.gone⟩

/-- The call does not throw. -/
def Returns (w : Watched) (c : Request) : Prop := ∃ r, (c.call.call w.store).1 = .ok r

/-- Every shard agrees, and what is gone cannot be read. -/
structure Agrees (w : Watched) : Prop where
  shard : ∀ shard ∈ w.store.shards, shard.Agrees
  gone : ∀ key ∈ w.gone, ∀ v, w.store.lookup key ≠ .ok (some v)

/-- `set` finds its key or a place, and what is read is empty. -/
def Fits (w : Watched) : Request → Prop
  | .set key _ => ∀ shard ∈ w.store.shards[w.store.shardIndex key]?, shard.Admits key
  | .readfromfile dir =>
    ∀ i < w.store.shards.length, ∀ file ∈ dir i, HashTable.announced file = .ok 0
  | _ => True

/-- What holds as long as every call fits. -/
structure Kept (w : Watched) : Prop where
  sound : ∀ shard ∈ w.store.shards, shard.Sound
  agrees : ∀ shard ∈ w.store.shards, shard.Agrees
  gone : w.gone = []

theorem Kept.watched {w : Watched} (h : w.Kept) : w.Agrees where
  shard := h.agrees
  gone := by
    rw [h.gone]
    exact fun key hin => absurd hin (by simp)

theorem kept_new (n maxsz : Nat) : Kept { store := KVStore.withCapacity n maxsz } where
  sound := fun shard hin => by
    rw [List.eq_of_mem_replicate hin]
    exact Shard.sound_new maxsz
  agrees := fun shard hin => by
    rw [List.eq_of_mem_replicate hin]
    exact ⟨rfl, Nat.zero_le _⟩
  gone := rfl

theorem onShard_returned {α : Type} {mt : Method Fault (Shard RespValue) α} {key : Bytes}
    {s s' : KVStore RespValue} {r : α} (h : (KVStore.onShard key mt).call s = (.ok r, s')) :
    ∃ shard shard', s.shards[s.shardIndex key]? = some shard ∧ mt.call shard = (.ok r, shard') ∧
      s'.shards = s.shards.set (s.shardIndex key) shard' := by
  cases hshard : s.shards[s.shardIndex key]? with
  | none =>
    rw [KVStore.onShard, Method.call_bind_ok (Method.call_get s), hshard] at h
    exact absurd h (by simp)
  | some shard =>
    obtain ⟨shard', hcall⟩ := KVStore.of_onShard hshard h
    refine ⟨shard, shard', rfl, hcall, ?_⟩
    rw [KVStore.call_onShard hshard, hcall, Prod.mk.injEq] at h
    rw [← h.2]

variable {w w' : Watched} {key : Bytes}

/-- What a call on one shard keeps of that shard, it keeps of the store. -/
theorem Kept.replace (h : w.Kept) {i : Nat} {shard' : Shard RespValue}
    (hshards : w'.store.shards = w.store.shards.set i shard') (hgone : w'.gone = [])
    (hshard : shard'.Sound ∧ shard'.Agrees) : w'.Kept where
  sound := by
    intro shard hin
    rw [hshards] at hin
    rcases List.mem_or_eq_of_mem_set hin with hold | rfl
    · exact h.sound shard hold
    · exact hshard.1
  agrees := by
    intro shard hin
    rw [hshards] at hin
    rcases List.mem_or_eq_of_mem_set hin with hold | rfl
    · exact h.agrees shard hold
    · exact hshard.2
  gone := hgone

theorem step_of_ok {c : Request} {r : Option Bytes} {s : KVStore RespValue}
    (h : c.call.call w.store = (.ok r, s)) :
    w.step c = ⟨s, (w.gone.filter fun key => !c.Sets key) ++ r.toList⟩ := by
  rw [step, h]

/-- A call that changes one shard, keeps that shard in agreement and evicts nothing. -/
theorem Kept.quiet {α : Type} {mt : Method Fault (Shard RespValue) α} {c : Request}
    (h : w.Kept) (hret : w.Returns c)
    (hc : c.call = do let _ ← KVStore.onShard key mt; return none)
    (hkeeps : ∀ {shard shard' : Shard RespValue} {r : α}, shard.Agrees → shard.Sound →
      mt.call shard = (.ok r, shard') → shard'.Sound ∧ shard'.Agrees) : (w.step c).Kept := by
  obtain ⟨r, hr⟩ := hret
  have hcall : c.call.call w.store = (.ok r, (c.call.call w.store).2) := by rw [← hr]
  rw [step_of_ok hcall]
  rw [hc] at hcall
  obtain ⟨a, s, honshard, hrest⟩ := Method.bind_eq_ok hcall
  rw [Method.call_pure, Prod.mk.injEq, Except.ok.injEq] at hrest
  obtain ⟨rfl, hs⟩ := hrest
  obtain ⟨shard, shard', hshard, hmt, hshards⟩ := onShard_returned honshard
  have hin := List.mem_of_getElem? hshard
  have hafter : (c.call.call w.store).2.shards
      = w.store.shards.set (w.store.shardIndex key) shard' := by rw [hc, ← hs, hshards]
  refine h.replace hafter ?_
    (hkeeps (h.agrees shard hin) (h.sound shard hin) hmt)
  simp [h.gone]

theorem Kept.set_iff {value : RespValue} (h : w.Kept) (hret : w.Returns (.set key value)) :
    ((w.step (.set key value)).Agrees → w.Fits (.set key value)) ∧
      (w.Fits (.set key value) → (w.step (.set key value)).Kept) := by
  obtain ⟨r, hr⟩ := hret
  have hcall : (KVStore.onShard key (Shard.set key value)).call w.store
      = (.ok r, ((KVStore.set key value).call w.store).2) := by
    rw [← hr]
    rfl
  rw [step_of_ok (c := .set key value) hcall]
  obtain ⟨shard, shard', hshard, hset, hshards⟩ := onShard_returned hcall
  have hin := List.mem_of_getElem? hshard
  obtain ⟨hsound, hiff, hnone⟩ := (h.agrees shard hin).set_iff (h.sound shard hin) hset
  constructor
  · intro hafter shard₀ hshard₀
    rw [hshard] at hshard₀
    cases hshard₀
    refine hiff.mp (hafter.shard shard' ?_)
    show shard' ∈ ((KVStore.set key value).call w.store).2.shards
    rw [hshards]
    exact List.mem_set (List.getElem?_eq_some_iff.mp hshard).1 _
  · intro hfits
    have hadmits := hfits shard hshard
    refine h.replace hshards ?_ ⟨hsound, hiff.mpr hadmits⟩
    simp [h.gone, hnone hadmits]

theorem Kept.readfromfile_iff {dir : Directory} (h : w.Kept)
    (hret : w.Returns (.readfromfile dir)) :
    ((w.step (.readfromfile dir)).Agrees → w.Fits (.readfromfile dir)) ∧
      (w.Fits (.readfromfile dir) → (w.step (.readfromfile dir)).Kept) := by
  obtain ⟨r, hr⟩ := hret
  have hcall : (Request.readfromfile dir).call.call w.store
      = (.ok r, ((Request.readfromfile dir).call.call w.store).2) := by rw [← hr]
  rw [step_of_ok hcall]
  obtain ⟨a, s, hread, hrest⟩ := Method.bind_eq_ok hcall
  rw [Method.call_pure, Prod.mk.injEq, Except.ok.injEq] at hrest
  obtain ⟨rfl, hs⟩ := hrest
  rw [← hs]
  have hshards := KVStore.call_readfromfile hread
  have hlen := KVStore.length_readShards hshards
  -- each shard is what `readShard` made of the one that stood there
  have hone : ∀ j shard', s.shards[j]? = some shard' →
      ∃ shard, shard.Sound ∧ shard.Agrees ∧ KVStore.readShard dir j shard = .ok shard' := by
    intro j shard' hj
    obtain ⟨shard, hshard, hreadj⟩ := KVStore.readShards_getElem? hshards j shard' hj
    rw [Nat.zero_add] at hreadj
    have hin := List.mem_of_getElem? hshard
    exact ⟨shard, h.sound shard hin, h.agrees shard hin, hreadj⟩
  constructor
  · intro hafter j hj
    have hat : s.shards[j]? = some s.shards[j] := List.getElem?_eq_getElem (by omega)
    obtain ⟨shard, hsound, hagrees, hreadj⟩ := hone j _ hat
    exact (hagrees.read_iff hsound hreadj).2 (hafter.shard _ (List.mem_of_getElem? hat))
  · intro hfits
    have hkept : ∀ shard' ∈ s.shards, shard'.Sound ∧ shard'.Agrees := by
      intro shard' hin
      obtain ⟨j, hj⟩ := List.mem_iff_getElem?.mp hin
      obtain ⟨shard, hsound, hagrees, hreadj⟩ := hone j shard' hj
      have hlt : j < s.shards.length := (List.getElem?_eq_some_iff.mp hj).1
      exact (hagrees.read_iff hsound hreadj).1 (hfits j (by omega))
    exact ⟨fun shard hin => (hkept shard hin).1, fun shard hin => (hkept shard hin).2,
      by simp [h.gone]⟩

/-- One call. -/
theorem Kept.step_iff {c : Request} (h : w.Kept) (hret : w.Returns c) :
    ((w.step c).Agrees → w.Fits c) ∧ (w.Fits c → (w.step c).Kept) := by
  cases c with
  | set key value => exact h.set_iff hret
  | get key =>
    exact ⟨fun _ => trivial, fun _ => h.quiet hret rfl fun ha hs hc => Shard.Agrees.get ha hs hc⟩
  | getValue key =>
    exact ⟨fun _ => trivial,
      fun _ => h.quiet hret rfl fun ha hs hc => Shard.Agrees.getValue ha hs hc⟩
  | del key =>
    exact ⟨fun _ => trivial, fun _ => h.quiet hret rfl fun ha hs hc => Shard.Agrees.del ha hs hc⟩
  | readfromfile dir => exact h.readfromfile_iff hret

theorem Kept.agrees_iff {cs : List Request} {w : Watched} (h : w.Kept)
    (hret : Along step Returns w cs) :
    (∀ pre, pre <+: cs → (exec step w pre).Agrees) ↔ Along step Fits w cs :=
  forall_prefix_iff_along (fun _ hw => hw.watched) (fun _ _ hr hw => hw.step_iff hr) hret h

/-- **When the tables and the LRU lists agree.** For every number of shards, every LRU capacity
and every run in which no call throws: after each call every table has the keys of its LRU list,
no more than the capacity, and nothing that was evicted can be read, exactly if every `set` finds
its key listed or a place in the list, and every file that is read announces no record.

A `set` that evicts takes one key off the list and none out of the table, and a file that is read
fills the table and clears the list: these two, and nothing else, set them apart. Once apart they
can come together again, by a `del` of the key that was evicted, so the equivalence is about all
states of the run. -/
theorem agrees_iff_fits (n maxsz : Nat) (cs : List Request)
    (hret : Along step Returns { store := KVStore.withCapacity n maxsz } cs) :
    (∀ pre, pre <+: cs → (exec step { store := KVStore.withCapacity n maxsz } pre).Agrees) ↔
      Along step Fits { store := KVStore.withCapacity n maxsz } cs :=
  (kept_new n maxsz).agrees_iff hret

/-- One shard with place for one key: the key goes before the next one comes. -/
def oneAtATime : List Request :=
  [.set (ascii "a") (.integer 1), .getValue (ascii "a"), .set (ascii "a") (.integer 2),
    .del (ascii "a"), .set (ascii "b") (.integer 3),
    .readfromfile fun _ => some (HashTable.u32 16 ++ HashTable.u32 0)]

theorem agrees_oneAtATime :
    (exec step { store := KVStore.withCapacity 1 1 } oneAtATime).Agrees := by
  refine (agrees_iff_fits 1 1 oneAtATime ?_).mpr ?_ oneAtATime List.prefix_rfl
  · exact ⟨⟨_, rfl⟩, ⟨_, rfl⟩, ⟨_, rfl⟩, ⟨_, rfl⟩, ⟨_, rfl⟩, ⟨_, rfl⟩, trivial⟩
  · refine ⟨?_, trivial, ?_, trivial, ?_, ?_, trivial⟩
    · rintro shard ⟨rfl⟩
      exact Or.inr (by decide)
    · rintro shard ⟨rfl⟩
      exact Or.inl (by decide)
    · rintro shard ⟨rfl⟩
      exact Or.inr (by decide)
    · rintro i - file ⟨rfl⟩
      rfl

/-- Two keys, and place for one. -/
def oneTooMany : List Request :=
  [.set (ascii "a") (.integer 1), .set (ascii "b") (.integer 2)]

/-- The second `set` returns the first key as evicted, and it can still be read. -/
theorem oneTooMany_disagrees :
    Along step Returns { store := KVStore.withCapacity 1 1 } oneTooMany ∧
      (exec step { store := KVStore.withCapacity 1 1 } oneTooMany).gone = [ascii "a"] ∧
      (exec step { store := KVStore.withCapacity 1 1 } oneTooMany).store.lookup (ascii "a")
        = .ok (some (.integer 1)) ∧
      ¬ (exec step { store := KVStore.withCapacity 1 1 } oneTooMany).Agrees := by
  have hgone : (exec step { store := KVStore.withCapacity 1 1 } oneTooMany).gone = [ascii "a"] := rfl
  have hlookup : (exec step { store := KVStore.withCapacity 1 1 } oneTooMany).store.lookup
      (ascii "a") = .ok (some (.integer 1)) := rfl
  refine ⟨⟨⟨_, rfl⟩, ⟨_, rfl⟩, trivial⟩, hgone, hlookup, fun hagrees => ?_⟩
  exact hagrees.gone (ascii "a") (by rw [hgone]; exact List.mem_singleton_self _) _ hlookup

end Watched
end Store
end KvJet
