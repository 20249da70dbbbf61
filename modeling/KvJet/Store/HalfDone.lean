import KvJet.Store.Agreement

/-!
# A `set` that throws

`KVStore::set` writes the table of the shard and then its LRU list, and each of the two may find no
room for the key. Where the table finds none, nothing has happened yet. Where only the LRU list
finds none the value stays in the table, and the call throws all the same: it left the store as it
was exactly if the table bound the key to that value before (`set_all_or_nothing_iff`).
-/

namespace KvJet
namespace Store

open Resp (RespValue)
open Run

/-- A call that is about one key. -/
inductive KeyCall where
  | set (key : Bytes) (value : RespValue)
  | get (key : Bytes)
  | getValue (key : Bytes)
  | del (key : Bytes)

namespace KeyCall

def call : KeyCall → Method Fault (KVStore RespValue) Unit
  | .set key value => do let _ ← KVStore.set key value
  | .get key => do let _ ← KVStore.get key
  | .getValue key => do let _ ← KVStore.getValue key
  | .del key => do let _ ← KVStore.del key

/-- The store after a call, whether it returned or threw. -/
def step (s : KVStore RespValue) (c : KeyCall) : KVStore RespValue := (c.call.call s).2

end KeyCall

section Whole

variable {T : Type} [Inhabited T]

/-- The contents of the table are the same, and all of the LRU list. -/
structure Shard.Same (shard shard' : Shard T) : Prop where
  contents : ∀ k v, (k, v) ∈ shard'.data.forEach ↔ (k, v) ∈ shard.data.forEach
  lru : shard'.lru = shard.lru

theorem Shard.Same.refl (shard : Shard T) : shard.Same shard := ⟨fun _ _ => Iff.rfl, rfl⟩

namespace KVStore

/-- Where the call throws, it has changed no shard. -/
def AllOrNothing (s : KVStore T) (key : Bytes) (value : T) : Prop :=
  ∀ e s', (set key value).call s = (.error e, s') → List.Forall₂ Shard.Same s.shards s'.shards

/-- The table finds no room, or the LRU list does, or there is nothing to change. -/
def Whole (s : KVStore T) (key : Bytes) (value : T) : Prop :=
  ∀ shard ∈ s.shards[s.shardIndex key]?, ¬ shard.data.HasRoom key ∨
    shard.lru.hash.HasRoom key ∨ (key, value) ∈ shard.data.forEach

/-- Each shard holds something. -/
def Sound (s : KVStore T) : Prop := ∀ shard ∈ s.shards, ∃ d l, shard.Holds d l

end KVStore

/-! ## One shard

The table and the LRU list each have their own room, and neither knows of the other's. -/

namespace Shard

variable {shard shard' : Shard T} {d : Bytes → Option T} {l : Bytes → Option Nat} {key : Bytes}

/-- The contents of a table, once the key is bound to `value`. -/
theorem Holds.same_update_iff (h : shard.Holds d l) {t : HashTable T} {value : T}
    (ht : t.Represents (Function.update d key (some value))) :
    shard.Same { shard with data := t } ↔ (key, value) ∈ shard.data.forEach := by
  have hnew : ∀ k v, (k, v) ∈ t.forEach ↔ Function.update d key (some value) k = some v :=
    fun k v => HashTable.mem_forEach ht.stores k v
  have hold : ∀ k v, (k, v) ∈ shard.data.forEach ↔ d k = some v :=
    fun k v => HashTable.mem_forEach h.data.stores k v
  constructor
  · intro hsame
    rw [← hsame.contents, hnew]
    exact Function.update_self _ _ _
  · intro hbound
    refine ⟨fun k v => ?_, rfl⟩
    rw [hnew, hold, ← (hold key value).mp hbound, Function.update_eq_self]

/-- A `set` returns, or the table finds no room, or the table is written and the LRU list finds
none. -/
theorem Holds.set_cases (h : shard.Holds d l) (key : Bytes) (value : T) :
    (shard.lru.hash.HasRoom key ∧
      ∃ r shard', (Shard.set key value).call shard = (.ok r, shard')) ∨
    (¬ shard.data.HasRoom key ∧
      (Shard.set key value).call shard = (.error HashTable.notFound, shard)) ∨
    (shard.data.HasRoom key ∧ ¬ shard.lru.hash.HasRoom key ∧
      ∃ t : HashTable T, t.Represents (Function.update d key (some value)) ∧
        (Shard.set key value).call shard
          = (.error HashTable.notFound, { shard with data := t })) := by
  by_cases hdata : shard.data.HasRoom key
  · by_cases hlru : shard.lru.hash.HasRoom key
    · obtain ⟨r, shard', l', hcall, -⟩ := set_spec h value hdata hlru
      exact Or.inl ⟨hlru, r, shard', hcall⟩
    · obtain ⟨t, hwrite, hrep⟩ := h.call_set value hdata
      refine Or.inr (Or.inr ⟨hdata, hlru, t, hrep, ?_⟩)
      rw [Shard.set, Method.call_bind_ok hwrite]
      exact KVStore.call_lru { shard with data := t } (LRU.set_full h.lru hlru)
  · exact Or.inr (Or.inl ⟨hdata, Method.call_bind_error (h.call_set_full value hdata) _⟩)

/-- **What is left of a `set` that throws.**

The table comes first: where it throws nothing has happened, and where it does not it has the value.
-/
theorem Holds.set_throws_iff (h : shard.Holds d l) (key : Bytes) (value : T) :
    (∀ e, ((Shard.set key value).call shard).1 = .error e →
        shard.Same ((Shard.set key value).call shard).2) ↔
      ¬ shard.data.HasRoom key ∨ shard.lru.hash.HasRoom key ∨
        (key, value) ∈ shard.data.forEach := by
  rcases h.set_cases key value with
    ⟨hlru, r, shard', hcall⟩ | ⟨hfull, hcall⟩ | ⟨hdata, hlru, t, hrep, hcall⟩
  · rw [hcall]
    exact iff_of_true (fun e he => nomatch he) (Or.inr (Or.inl hlru))
  · rw [hcall]
    exact iff_of_true (fun _ _ => Same.refl shard) (Or.inl hfull)
  · rw [hcall]
    constructor
    · intro hall
      exact Or.inr (Or.inr ((h.same_update_iff hrep).mp (hall _ rfl)))
    · rintro (hfull | hroom | hbound) e -
      · exact absurd hdata hfull
      · exact absurd hroom hlru
      · exact (h.same_update_iff hrep).mpr hbound

end Shard

/-! ## The store -/

namespace KVStore

variable {s : KVStore T} {key : Bytes}

theorem call_onShard_none {α : Type} (mt : Method Fault (Shard T) α)
    (hshard : s.shards[s.shardIndex key]? = none) :
    (onShard key mt).call s = (.error (.undefined "modulo zero"), s) := by
  rw [onShard, Method.call_bind_ok (Method.call_get s), hshard]
  rfl

theorem keeps_onShard {α : Type} {mt : Method Fault (Shard T) α} (hmt : Shard.Touches key mt) :
    Method.Keeps KVStore.Sound (onShard key mt) := by
  intro s h
  cases hshard : s.shards[s.shardIndex key]? with
  | none =>
    rw [call_onShard_none mt hshard]
    exact h
  | some shard =>
    rw [call_onShard hshard]
    intro shard' hin
    rcases List.mem_or_eq_of_mem_set hin with hold | rfl
    · exact h shard' hold
    · obtain ⟨d, l, hholds⟩ := h shard (List.mem_of_getElem? hshard)
      obtain ⟨v, l', hholds'⟩ := hmt shard d l hholds
      exact ⟨_, l', hholds'⟩

/-- A shard takes the place of another one. -/
theorem forall₂_set_iff {shards : List (Shard T)} {i : Nat} {shard shard' : Shard T}
    (hshard : shards[i]? = some shard) :
    List.Forall₂ Shard.Same shards (shards.set i shard') ↔ shard.Same shard' := by
  have hi : i < shards.length := (List.getElem?_eq_some_iff.mp hshard).1
  rw [List.forall₂_iff_get]
  constructor
  · rintro ⟨-, hall⟩
    have hat := hall i hi (by rw [List.length_set]; exact hi)
    rw [List.get_eq_getElem, List.get_eq_getElem, List.getElem_set_self] at hat
    rwa [(List.getElem?_eq_some_iff.mp hshard).2] at hat
  · intro hsame
    refine ⟨List.length_set.symm, fun j hj hj' => ?_⟩
    rw [List.get_eq_getElem, List.get_eq_getElem, List.getElem_set]
    split
    · rename_i hij
      subst hij
      rwa [(List.getElem?_eq_some_iff.mp hshard).2]
    · exact Shard.Same.refl _

theorem Sound.all_or_nothing_iff (h : s.Sound) (key : Bytes) (value : T) :
    s.AllOrNothing key value ↔ s.Whole key value := by
  unfold AllOrNothing Whole
  have hset : set key value = onShard key (Shard.set key value) := rfl
  cases hshard : s.shards[s.shardIndex key]? with
  | none =>
    refine iff_of_true (fun e s' hcall => ?_) (by simp)
    rw [hset, call_onShard_none _ hshard] at hcall
    rw [← (Prod.mk.inj hcall).2]
    exact List.forall₂_same.mpr fun shard _ => Shard.Same.refl shard
  | some shard =>
    obtain ⟨d, l, hholds⟩ := h shard (List.mem_of_getElem? hshard)
    rw [hset, call_onShard hshard]
    have hone := hholds.set_throws_iff key value
    simp only [Option.mem_some_iff, forall_eq', ← hone]
    constructor
    · intro hall e he
      exact (forall₂_set_iff hshard).mp (hall e _ (Prod.ext he rfl))
    · intro hall e s' hcall
      obtain ⟨he, rfl⟩ := Prod.mk.inj hcall
      exact (forall₂_set_iff hshard).mpr (hall e he)

end KVStore

end Whole

/-! ## Runs -/

namespace KVStore

theorem sound_withCapacity (n maxsz : Nat) : (withCapacity n maxsz).Sound := by
  intro shard hin
  rw [List.eq_of_mem_replicate hin]
  exact ⟨_, _, Shard.holds_new maxsz⟩

theorem Sound.step {s : KVStore RespValue} (h : s.Sound) (c : KeyCall) : (c.step s).Sound := by
  have hall : Method.Keeps KVStore.Sound c.call := by
    cases c with
    | set key value => exact (keeps_onShard (Shard.touches_set key value)).bind fun _ => .pure _
    | get key => exact (keeps_onShard (Shard.touches_get key)).bind fun _ => .pure _
    | getValue key => exact (keeps_onShard (Shard.touches_getValue key)).bind fun _ => .pure _
    | del key => exact (keeps_onShard (Shard.touches_del key)).bind fun _ => .pure _
  exact hall s h

theorem sound_exec {cs : List KeyCall} {s : KVStore RespValue} (h : s.Sound) :
    (exec KeyCall.step s cs).Sound :=
  Run.keeps_exec (fun _ c h => h.step c) cs h

/-- **`set` is all or nothing** in a store that any calls have led to, exactly where the LRU list
has room for the key if the table has, or the table binds it to that value already.

`set` writes the table first. If the table throws, it has changed nothing. If the LRU list throws,
the value is in the table, and the caller cannot tell; the store is as before only if the table had
this value under the key. And the LRU list throws exactly where it has no room, since every shard
that calls lead to is as its own methods leave it. -/
theorem set_all_or_nothing_iff (n maxsz : Nat) (cs : List KeyCall) (key : Bytes)
    (value : RespValue) :
    (exec KeyCall.step (withCapacity n maxsz) cs).AllOrNothing key value ↔
      (exec KeyCall.step (withCapacity n maxsz) cs).Whole key value :=
  (sound_exec (sound_withCapacity n maxsz)).all_or_nothing_iff key value

/-- Sixteen keys with sixteen home buckets. A list without any capacity evicts each of them at
once, and its index is left with tombstones only. -/
def evicted : List KeyCall :=
  (List.range 16).map fun i => .set [UInt8.ofNat (48 + i)] (.integer 0)

/-- There is room for the next key in the table, where it is not, but not in the index. -/
theorem evicted_split :
    ∃ shard ∈ (exec KeyCall.step (withCapacity 1 0) evicted).shards[0]?,
      shard.data.HasRoom (ascii "a") ∧ ¬ shard.lru.hash.HasRoom (ascii "a") ∧
        ascii "a" ∉ shard.data.forEach.map Prod.fst := by
  have hany : (exec KeyCall.step (withCapacity 1 0) evicted).shards[0]?.any (fun shard =>
      decide (shard.data.HasRoom (ascii "a") ∧ ¬ shard.lru.hash.HasRoom (ascii "a") ∧
        ascii "a" ∉ shard.data.forEach.map Prod.fst)) = true := by decide +kernel
  obtain ⟨shard, hshard, hp⟩ := (Option.any_eq_true _ _).mp hany
  exact ⟨shard, hshard, of_decide_eq_true hp⟩

/-- So `set` puts it into the table, and then throws. -/
theorem evicted_half_done :
    ¬ (exec KeyCall.step (withCapacity 1 0) evicted).AllOrNothing (ascii "a") (.integer 1) := by
  intro hall
  have hindex : (exec KeyCall.step (withCapacity 1 0) evicted).shardIndex (ascii "a") = 0 := by
    decide +kernel
  have hsound : (exec KeyCall.step (withCapacity 1 0) evicted).Sound :=
    sound_exec (sound_withCapacity 1 0)
  obtain ⟨shard, hshard, hdata, hlru, hnew⟩ := evicted_split
  generalize exec KeyCall.step (withCapacity 1 0) evicted = s at hall hindex hsound hshard
  have hwhole := (hsound.all_or_nothing_iff (ascii "a") (.integer 1)).mp hall
  rw [Whole, hindex] at hwhole
  rcases hwhole shard hshard with hfull | hroom | hbound
  · exact hfull hdata
  · exact hlru hroom
  · exact hnew (List.mem_map_of_mem hbound)

end KVStore
end Store
end KvJet
