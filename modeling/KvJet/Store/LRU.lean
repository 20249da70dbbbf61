import KvJet.Lib.Method
import KvJet.Store.Runs

/-!
# The least-recently-used list

`LRU` (`LRU.h`, `LRU.cpp`): the keys in the order they were last touched, in a linked list, and
a hash table from each key to its list node.

A list node is known by the number it got when it was allocated, and an iterator is that
number. Erasing through an iterator whose node is gone is undefined behaviour. Node numbers
start at 1; 0 is the iterator that points nowhere.
-/

namespace KvJet
namespace Store

structure LRU where
  maxsz : Nat
  /-- The list nodes, least recently touched first. -/
  lst : List (Nat × Bytes) := []
  /-- The number of the next node. -/
  next : Nat := 1
  hash : HashTable Nat := HashTable.fresh

namespace LRU

variable {α : Type}

/-- `lst.erase(it)`. -/
def eraseNode (it : Nat) : Method Fault LRU Unit := do
  if it ∈ (← get).lst.map Prod.fst then
    modify fun l => { l with lst := l.lst.filter fun node => node.1 ≠ it }
  else throw (.undefined "erase through an iterator that points nowhere")

/-- `lst.push_back(x)`, with `prev(lst.end())` as its result. -/
def pushBack (x : Bytes) : Method Fault LRU Nat := do
  let it := (← get).next
  modify fun l => { l with lst := l.lst ++ [(it, x)], next := it + 1 }
  return it

/-- `hash.get(x)`. -/
def hashGet (x : Bytes) : Method Fault LRU (Option Nat) := do
  Method.lift ((← get).hash.get x)

/-- `hash.set(x, it)`. -/
def hashSet (x : Bytes) (it : Nat) : Method Fault LRU Unit := do
  let hash ← Method.lift ((← get).hash.set x it)
  modify fun l => { l with hash }

/-- `hash.erase(x)`, whose result nobody looks at. -/
def hashErase (x : Bytes) : Method Fault LRU Unit := do
  let (_, hash) ← Method.lift ((← get).hash.erase x)
  modify fun l => { l with hash }

/-- What `access` and `set` do with a key that is listed at `it`. -/
def touch (x : Bytes) (it : Nat) : Method Fault LRU Unit := do
  eraseNode it
  hashSet x (← pushBack x)

def access (x : Bytes) : Method Fault LRU Unit := do
  match ← hashGet x with
  | none => return
  | some it => touch x it

/-- `lst` is longer than `maxsz`, so it has a first node. -/
def evict : Method Fault LRU Bytes := do
  match (← get).lst with
  | [] => throw (.undefined "begin of an empty list")
  | (_, erasestr) :: rest =>
    modify fun l => { l with lst := rest }
    hashErase erasestr
    return erasestr

/-- The result is the key that had to go. -/
def set (x : Bytes) : Method Fault LRU (Option Bytes) := do
  match ← hashGet x with
  | some it =>
    touch x it
    return none
  | none =>
    hashSet x (← pushBack x)
    let l ← get
    if l.lst.length > l.maxsz then return some (← evict) else return none

def del (x : Bytes) : Method Fault LRU Unit := do
  match ← hashGet x with
  | none => return
  | some it =>
    eraseNode it
    hashErase x

def clear : Method Fault LRU Unit :=
  modify fun l => { l with lst := [], hash := HashTable.fresh }

/-! ## The list and its index

The index holds places in the list. Each call has to keep the two together, or a place leads to a
node that is not there any more. -/

/-- The list holds exactly the pairs of `m`, at nodes with different numbers below `next`. -/
structure Listed (lst : List (Nat × Bytes)) (next : Nat) (m : Bytes → Option Nat) : Prop where
  mem : ∀ k it, m k = some it ↔ (it, k) ∈ lst
  nodup : (lst.map Prod.fst).Nodup
  below : ∀ node ∈ lst, node.1 < next

/-- The index of the listed keys is the hash table. -/
structure Tracks (l : LRU) (m : Bytes → Option Nat) : Prop where
  index : l.hash.Represents m
  listed : Listed l.lst l.next m

theorem tracks_new (maxsz : Nat) : Tracks { maxsz } fun _ => none where
  index := HashTable.represents_fresh
  listed := ⟨by simp, by simp, by simp⟩

namespace Listed

variable {lst : List (Nat × Bytes)} {next : Nat} {m : Bytes → Option Nat}

theorem number_unique (h : Listed lst next m) {it : Nat} {j k : Bytes} (hj : (it, j) ∈ lst)
    (hk : (it, k) ∈ lst) : j = k :=
  congrArg Prod.snd (List.inj_on_of_nodup_map h.nodup hj hk rfl)

theorem append (h : Listed lst next m) {x : Bytes} (hx : m x = none) :
    Listed (lst ++ [(next, x)]) (next + 1) (Function.update m x (some next)) where
  mem := by
    intro k it
    by_cases hk : k = x
    · subst hk
      have hout : (it, k) ∉ lst := fun hin => by simp [(h.mem k it).mpr hin] at hx
      simp [hout, eq_comm]
    · rw [Function.update_of_ne hk, h.mem]
      simp [hk]
  nodup := by
    have hfresh : next ∉ lst.map Prod.fst := by
      intro hin
      obtain ⟨node, hn, heq⟩ := List.mem_map.mp hin
      have := h.below node hn
      omega
    rw [List.map_append, List.nodup_append]
    refine ⟨h.nodup, by simp, ?_⟩
    intro a ha b hb heq
    rw [heq, List.mem_singleton.mp hb] at ha
    exact hfresh ha
  below := by
    intro node hn
    rcases List.mem_append.mp hn with hin | hin
    · exact Nat.lt_succ_of_lt (h.below node hin)
    · rw [List.mem_singleton.mp hin]
      exact Nat.lt_succ_self _

theorem remove (h : Listed lst next m) {x : Bytes} {it : Nat} (hx : m x = some it) :
    Listed (lst.filter fun node => node.1 ≠ it) next (Function.update m x none) where
  mem := by
    intro k jt
    have hmem : (jt, k) ∈ lst.filter (fun node => node.1 ≠ it) ↔ (jt, k) ∈ lst ∧ jt ≠ it := by simp
    rw [hmem, ← h.mem]
    by_cases hk : k = x
    · subst hk
      rw [Function.update_self, hx]
      simp [eq_comm]
    · rw [Function.update_of_ne hk]
      refine ⟨fun hkt => ⟨hkt, ?_⟩, And.left⟩
      rintro rfl
      exact hk (h.number_unique ((h.mem k jt).mp hkt) ((h.mem x jt).mp hx))
  nodup := h.nodup.sublist (List.filter_sublist.map _)
  below := fun node hn => h.below node (List.mem_of_mem_filter hn)

/-- Taking off the first node is removing its number. -/
theorem tail {it : Nat} {x : Bytes} {rest : List (Nat × Bytes)}
    (h : Listed ((it, x) :: rest) next m) : Listed rest next (Function.update m x none) := by
  have hx : m x = some it := (h.mem x it).mpr (by simp)
  have hrest : rest = ((it, x) :: rest).filter fun node => node.1 ≠ it := by
    have hne : ∀ node ∈ rest, node.1 ≠ it := by
      intro node hn heq
      refine (List.nodup_cons.mp h.nodup).1 ?_
      show it ∈ rest.map Prod.fst
      rw [← heq]
      exact List.mem_map_of_mem hn
    simpa [List.filter_cons] using (List.filter_eq_self.mpr (by simpa using hne)).symm
  rw [hrest]
  exact h.remove hx

end Listed

section Steps

variable {l : LRU} {m : Bytes → Option Nat}

theorem Tracks.hasRoom_of_listed (ht : l.Tracks m) {k : Bytes} {it : Nat} (h : m k = some it) :
    l.hash.HasRoom k :=
  Or.inr ⟨_, (ht.index.stores.holds k it).mp h, rfl, rfl⟩

theorem call_hashGet (ht : l.Tracks m) {x : Bytes} (h : l.hash.HasRoom x) :
    (hashGet x).call l = (.ok (m x), l) := by
  show (l.hash.get x, l) = _
  rw [HashTable.get_spec ht.index.stores h]

theorem call_hashGet_full (ht : l.Tracks m) {x : Bytes} (h : ¬ l.hash.HasRoom x) :
    (hashGet x).call l = (.error HashTable.notFound, l) := by
  have hf := HashTable.find_of_not_hasRoom ht.index.stores h
  show (l.hash.get x, l) = _
  rw [HashTable.get, hf]
  rfl

theorem call_hashSet {x : Bytes} {it : Nat} {hash : HashTable Nat}
    (h : l.hash.set x it = .ok hash) : (hashSet x it).call l = (.ok (), { l with hash }) := by
  rw [hashSet, Method.call_bind_ok (Method.call_get l), Method.call_bind_ok (by rw [h]; rfl)]
  rfl

theorem call_hashErase {x : Bytes} {found : Bool} {hash : HashTable Nat}
    (h : l.hash.erase x = .ok (found, hash)) :
    (hashErase x).call l = (.ok (), { l with hash }) := by
  rw [hashErase, Method.call_bind_ok (Method.call_get l), Method.call_bind_ok (by rw [h]; rfl)]
  rfl

theorem call_eraseNode {it : Nat} (h : it ∈ l.lst.map Prod.fst) :
    (eraseNode it).call l
      = (.ok (), { l with lst := l.lst.filter fun node => node.1 ≠ it }) := by
  rw [eraseNode, Method.call_bind_ok (Method.call_get l), if_pos h]
  rfl

theorem call_pushBack (x : Bytes) :
    (pushBack x).call l
      = (.ok l.next, { l with lst := l.lst ++ [(l.next, x)], next := l.next + 1 }) := rfl

/-- A listed key moves to the end of the list. -/
theorem touch_spec (ht : l.Tracks m) {x : Bytes} {it : Nat} (hx : m x = some it) :
    ∃ l', (touch x it).call l = (.ok (), l') ∧ l'.Tracks (Function.update m x (some l.next)) ∧
      l'.maxsz = l.maxsz := by
  have hin : it ∈ l.lst.map Prod.fst := List.mem_map_of_mem ((ht.listed.mem x it).mp hx)
  obtain ⟨hash, hset, hrep⟩ := HashTable.set_spec ht.index l.next (ht.hasRoom_of_listed hx)
  have hlisted := (ht.listed.remove hx).append (x := x) (by simp)
  rw [Function.update_idem] at hlisted
  refine ⟨{ l with lst := l.lst.filter (fun node => node.1 ≠ it) ++ [(l.next, x)],
                   next := l.next + 1, hash }, ?_, ⟨hrep, hlisted⟩, rfl⟩
  rw [touch, Method.call_bind_ok (call_eraseNode hin), Method.call_bind_ok (call_pushBack x)]
  exact call_hashSet hset

/-- The first node of the list goes, and its key out of the index. -/
theorem evict_spec (ht : l.Tracks m) (hne : l.lst ≠ []) :
    ∃ it x l', (it, x) ∈ l.lst ∧ evict.call l = (.ok x, l') ∧
      l'.Tracks (Function.update m x none) ∧ l'.maxsz = l.maxsz := by
  cases hlst : l.lst with
  | nil => exact absurd hlst hne
  | cons node rest =>
    obtain ⟨it, x⟩ := node
    have hlisted := ht.listed
    rw [hlst] at hlisted
    have hx : m x = some it := (hlisted.mem x it).mpr (by simp)
    obtain ⟨hash, herase, hrep⟩ := HashTable.erase_spec ht.index (ht.hasRoom_of_listed hx)
    refine ⟨it, x, { l with lst := rest, hash }, List.mem_cons_self, ?_, ⟨hrep, hlisted.tail⟩, rfl⟩
    rw [evict, Method.call_bind_ok (Method.call_get l), hlst,
      Method.call_bind_ok (Method.call_modify _ l)]
    rw [Method.call_bind_ok (call_hashErase (l := { l with lst := rest }) herase)]
    rfl

/-- What `set x` returns, and the listed keys with their nodes after it. -/
inductive SetResult (l : LRU) (m : Bytes → Option Nat) (x : Bytes) :
    Option Bytes → (Bytes → Option Nat) → Prop
  | listed (h : m x ≠ none) : SetResult l m x none (Function.update m x (some l.next))
  | added (h : m x = none) (hlt : l.lst.length < l.maxsz) :
      SetResult l m x none (Function.update m x (some l.next))
  | evicted (h : m x = none) (hge : l.maxsz ≤ l.lst.length) (y : Bytes)
      (hy : y = x ∨ m y ≠ none) :
      SetResult l m x (some y) (Function.update (Function.update m x (some l.next)) y none)

/-- **`set` with room in the index** returns, and the list and the index still agree. -/
theorem set_spec (ht : l.Tracks m) {x : Bytes} (h : l.hash.HasRoom x) :
    ∃ r l' m', (set x).call l = (.ok r, l') ∧ l'.Tracks m' ∧ l'.maxsz = l.maxsz ∧
      SetResult l m x r m' := by
  cases hx : m x with
  | some it =>
    obtain ⟨l', htouch, ht', hmax⟩ := touch_spec ht hx
    refine ⟨none, l', _, ?_, ht', hmax, .listed (by simp [hx])⟩
    rw [set, Method.call_bind_ok (call_hashGet ht h), hx, Method.call_bind_ok htouch]
    rfl
  | none =>
    obtain ⟨hash, hset, hrep⟩ := HashTable.set_spec ht.index l.next h
    have ht₁ : Tracks { l with lst := l.lst ++ [(l.next, x)], next := l.next + 1, hash } _ :=
      ⟨hrep, ht.listed.append hx⟩
    have hstored := call_hashSet
      (l := { l with lst := l.lst ++ [(l.next, x)], next := l.next + 1 }) hset
    rw [set, Method.call_bind_ok (call_hashGet ht h), hx, Method.call_bind_ok (call_pushBack x),
      Method.call_bind_ok hstored, Method.call_bind_ok (Method.call_get _)]
    have hlen : (l.lst ++ [(l.next, x)]).length = l.lst.length + 1 := List.length_append
    split
    · rename_i hfull
      obtain ⟨it, y, l', hin, hevict, ht', hmax⟩ := evict_spec ht₁ (by simp)
      refine ⟨some y, l', _, ?_, ht', hmax, .evicted hx ?_ y ?_⟩
      · rw [Method.call_bind_ok hevict]
        rfl
      · have hfull : (l.lst ++ [(l.next, x)]).length > l.maxsz := hfull
        omega
      · rcases List.mem_append.mp hin with hold | hnew
        · exact Or.inr (by simp [(ht.listed.mem y it).mpr hold])
        · rw [List.mem_singleton, Prod.mk.injEq] at hnew
          exact Or.inl hnew.2
    · rename_i hroom
      have hroom : ¬ (l.lst ++ [(l.next, x)]).length > l.maxsz := hroom
      exact ⟨none, _, _, rfl, ht₁, rfl, .added hx (by omega)⟩

/-- `access` moves a listed key to the end, and nothing else. -/
theorem access_spec (ht : l.Tracks m) {x : Bytes} (h : l.hash.HasRoom x) :
    ∃ l' m', (access x).call l = (.ok (), l') ∧ l'.Tracks m' ∧ l'.maxsz = l.maxsz ∧
      ∀ k, m' k = none ↔ m k = none := by
  cases hx : m x with
  | some it =>
    obtain ⟨l', htouch, ht', hmax⟩ := touch_spec ht hx
    refine ⟨l', _, ?_, ht', hmax, fun k => ?_⟩
    · rw [access, Method.call_bind_ok (call_hashGet ht h), hx]
      exact htouch
    · by_cases hk : k = x
      · rw [hk, Function.update_self, hx]
        simp
      · rw [Function.update_of_ne hk]
  | none =>
    refine ⟨l, m, ?_, ht, rfl, fun k => Iff.rfl⟩
    rw [access, Method.call_bind_ok (call_hashGet ht h), hx]
    rfl

theorem access_full (ht : l.Tracks m) {x : Bytes} (h : ¬ l.hash.HasRoom x) :
    (access x).call l = (.error HashTable.notFound, l) := by
  rw [access, Method.call_bind_error (call_hashGet_full ht h)]

theorem del_spec (ht : l.Tracks m) {x : Bytes} (h : l.hash.HasRoom x) :
    ∃ l', (del x).call l = (.ok (), l') ∧ l'.Tracks (Function.update m x none) ∧
      l'.maxsz = l.maxsz := by
  cases hx : m x with
  | some it =>
    have hin : it ∈ l.lst.map Prod.fst := List.mem_map_of_mem ((ht.listed.mem x it).mp hx)
    obtain ⟨hash, herase, hrep⟩ := HashTable.erase_spec ht.index h
    refine ⟨{ l with lst := l.lst.filter (fun node => node.1 ≠ it), hash }, ?_,
      ⟨hrep, ht.listed.remove hx⟩, rfl⟩
    rw [del, Method.call_bind_ok (call_hashGet ht h), hx,
      Method.call_bind_ok (call_eraseNode hin)]
    exact call_hashErase (l := { l with lst := l.lst.filter fun node => node.1 ≠ it }) herase
  | none =>
    refine ⟨l, ?_, ?_, rfl⟩
    · rw [del, Method.call_bind_ok (call_hashGet ht h), hx]
      rfl
    · rwa [← hx, Function.update_eq_self]

theorem del_full (ht : l.Tracks m) {x : Bytes} (h : ¬ l.hash.HasRoom x) :
    (del x).call l = (.error HashTable.notFound, l) := by
  rw [del, Method.call_bind_error (call_hashGet_full ht h)]

theorem clear_spec (l : LRU) :
    ∃ l', clear.call l = (.ok (), l') ∧ l'.Tracks (fun _ => none) ∧ l'.maxsz = l.maxsz ∧
      l'.lst = [] :=
  ⟨_, rfl, ⟨HashTable.represents_fresh, ⟨by simp, by simp, by simp⟩⟩, rfl, rfl⟩

/-- **`set` without room** throws before it has changed anything.

The index is asked before a node is made or moved, so there is nothing to undo. -/
theorem set_full (ht : l.Tracks m) {x : Bytes} (h : ¬ l.hash.HasRoom x) :
    (set x).call l = (.error HashTable.notFound, l) := by
  rw [set, Method.call_bind_error (call_hashGet_full ht h)]

end Steps

end LRU
end Store
end KvJet
