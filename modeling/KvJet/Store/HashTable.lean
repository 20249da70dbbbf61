import KvJet.Bytes
import KvJet.Lib.Probing
import Mathlib.Data.List.Count

/-!
# The hash table

`HashTable<T>` (`HashTable.h`, `HashTable.cpp`): open addressing with linear probing, a
tombstone (`DELETED`) where a key was erased, and a table that doubles when more than three
quarters of its buckets are occupied.

`bucketsz` is always the length of `buckets` and is not a field of its own. A pointer to a
bucket is its index. The load test `1.0 * sz / bucketsz > 0.75` is done in integers: the
number of buckets is a power of two, so the division the source makes is exact.
-/

namespace KvJet
namespace Store

/-- `HashTable::stat`. -/
inductive Stat where
  | deleted
  | empty
  | occupied
deriving DecidableEq, Repr

/-- `HashTable::Node`. -/
structure Node (T : Type) where
  key : Bytes
  value : T
  status : Stat
deriving Repr

/-- A bucket as a slot of the probing library. -/
def Node.slot {T : Type} (node : Node T) : Probing.Slot Bytes :=
  match node.status with
  | .empty => .empty
  | .deleted => .deleted
  | .occupied => .occupied node.key

structure HashTable (T : Type) where
  buckets : List (Node T)
  /-- The number of elements, kept by `set` and `erase`. -/
  sz : Nat

namespace HashTable

variable {T : Type} [Inhabited T]

/-- `Node()`. -/
def blank : Node T := ⟨[], default, .empty⟩

/-- `HashTable()`. -/
def fresh : HashTable T := ⟨List.replicate 16 blank, 0⟩

def bucketsz (t : HashTable T) : Nat := t.buckets.length

/-- `(uint32_t)c` of a `char`, which is signed. -/
def extend (c : UInt8) : UInt32 := if c < 128 then c.toUInt32 else c.toUInt32 ||| 0xFFFFFF00

def gethash (key : Bytes) : UInt32 :=
  key.foldl (fun h c => (h ^^^ extend c) * 16777619) 2654435761

/-- `throw std::runtime_error("Empty position not found")`. -/
def notFound : Fault := .exception "Empty position not found"

/-- The `do … while` of `HashTable::find`. `fuel` is the number of buckets not yet looked at,
so it runs out no earlier than the loop, which ends when `idx` is back at `raw`. -/
def findLoop (buckets : List (Node T)) (key : Bytes) (raw : Nat) :
    Nat → Nat → Option Nat → Except Fault Nat
  | 0, _, _ => .error notFound
  | fuel + 1, idx, firstDel =>
    match buckets[idx]? with
    | none => .error (.undefined "bucket out of range")
    | some node =>
      match node.status with
      | .empty => .ok (firstDel.getD idx)
      | .deleted =>
        if (idx + 1) % buckets.length ≠ raw then
          findLoop buckets key raw fuel ((idx + 1) % buckets.length) (some (firstDel.getD idx))
        else .error notFound
      | .occupied =>
        if node.key = key then .ok idx
        else if (idx + 1) % buckets.length ≠ raw then
          findLoop buckets key raw fuel ((idx + 1) % buckets.length) firstDel
        else .error notFound

/-- `HashTable::find`: the bucket of `key`, or the bucket to put it in. -/
def find (t : HashTable T) (key : Bytes) : Except Fault Nat :=
  if t.bucketsz = 0 then .error (.undefined "modulo zero")
  else
    let raw := (gethash key).toNat % t.bucketsz
    findLoop t.buckets key raw t.bucketsz raw none

/-- `*p` for the bucket number `p` that `find` returned. -/
def nodeAt (t : HashTable T) (p : Nat) : Node T := t.buckets[p]?.getD blank

def get (t : HashTable T) (key : Bytes) : Except Fault (Option T) := do
  let p ← t.find key
  if (t.nodeAt p).status = .occupied then return some (t.nodeAt p).value else return none

/-- The body of the loop in `HashTable::rehash`: one old bucket moves into the new table. -/
def move (t : HashTable T) (node : Node T) : Except Fault (HashTable T) :=
  if node.status ≠ .occupied then .ok t
  else do
    let p ← t.find node.key
    return { t with buckets := t.buckets.set p ⟨node.key, node.value, .occupied⟩ }

def rehash (t : HashTable T) : Except Fault (HashTable T) :=
  t.buckets.foldlM move ⟨List.replicate (2 * t.bucketsz) blank, t.sz⟩

def set (t : HashTable T) (key : Bytes) (value : T) : Except Fault (HashTable T) := do
  let p ← t.find key
  if (t.nodeAt p).status = .occupied then
    return { t with buckets := t.buckets.set p { t.nodeAt p with value := value } }
  else
    let t' : HashTable T := ⟨t.buckets.set p ⟨key, value, .occupied⟩, t.sz + 1⟩
    if 4 * t'.sz > 3 * t'.bucketsz then t'.rehash else return t'

def erase (t : HashTable T) (key : Bytes) : Except Fault (Bool × HashTable T) := do
  let p ← t.find key
  if (t.nodeAt p).status = .occupied then
    return (true, ⟨t.buckets.set p { t.nodeAt p with status := .deleted }, t.sz - 1⟩)
  else return (false, t)

def checkexist (t : HashTable T) (key : Bytes) : Except Fault Bool := do
  let p ← t.find key
  return decide ((t.nodeAt p).status = .occupied)

/-- The pairs `HashTable::forEach` hands to its callback, in order. -/
def forEach (t : HashTable T) : List (Bytes × T) :=
  t.buckets.filterMap fun node =>
    if node.status = .occupied then some (node.key, node.value) else none

/-! ## `find` is the library's search -/

/-- The home bucket of a key. -/
def home (n : Nat) (key : Bytes) : Nat := (gethash key).toNat % n

def slots (buckets : List (Node T)) (i : Nat) : Probing.Slot Bytes :=
  (buckets[i]?.getD blank).slot

def answer : Option Nat → Except Fault Nat
  | some i => .ok i
  | none => .error notFound

/-- The loop that stands `d` buckets after `raw` searches the rest of the probe path. -/
theorem findLoop_eq_scan (buckets : List (Node T)) (key : Bytes) {raw : Nat}
    (hraw : raw < buckets.length) :
    ∀ (fuel d : Nat) (firstDel : Option Nat), d + fuel = buckets.length →
      findLoop buckets key raw fuel ((raw + d) % buckets.length) firstDel
        = answer (Probing.scan (fun i => (slots buckets i).seenFor key)
            ((Probing.path buckets.length raw).drop d) firstDel) := by
  intro fuel
  induction fuel with
  | zero =>
    intro d firstDel hd
    have : (Probing.path buckets.length raw).drop d = [] := by
      simp [Probing.path, ← hd]
    rw [this]
    rfl
  | succ fuel ih =>
    intro d firstDel hd
    have hlt : (raw + d) % buckets.length < buckets.length := Nat.mod_lt _ (by omega)
    have hpath : (Probing.path buckets.length raw).drop d
        = (raw + d) % buckets.length :: (Probing.path buckets.length raw).drop (d + 1) := by
      rw [List.drop_eq_getElem_cons (by simp [Probing.path]; omega)]
      simp [Probing.path]
    have hnext : ((raw + d) % buckets.length + 1) % buckets.length
        = (raw + (d + 1)) % buckets.length := by
      rw [Nat.mod_add_mod, Nat.add_assoc]
    -- back at `raw` there is nothing left of the path
    have hstop : ∀ fd, (if (raw + (d + 1)) % buckets.length ≠ raw then
          findLoop buckets key raw fuel ((raw + (d + 1)) % buckets.length) fd
        else .error notFound)
        = answer (Probing.scan (fun i => (slots buckets i).seenFor key)
            ((Probing.path buckets.length raw).drop (d + 1)) fd) := by
      intro fd
      by_cases hback : (raw + (d + 1)) % buckets.length = raw
      · have hd1 : d + 1 = buckets.length := by
          rcases Nat.lt_or_ge (d + 1) buckets.length with h | h
          · have := Probing.add_mod_eq hraw h
            rw [this] at hback
            split at hback <;> omega
          · omega
        rw [if_neg (by simpa using hback)]
        have : (Probing.path buckets.length raw).drop (d + 1) = [] := by
          simp [Probing.path, hd1]
        rw [this]
        rfl
      · rw [if_pos hback]
        exact ih (d + 1) fd (by omega)
    rw [hpath, findLoop, Probing.scan, hnext]
    have hget : buckets[(raw + d) % buckets.length]? = some (buckets[(raw + d) % buckets.length]) :=
      List.getElem?_eq_getElem hlt
    generalize buckets[(raw + d) % buckets.length] = node at hget
    simp only [hget, slots, Option.getD_some]
    cases hst : node.status with
    | empty => simp [Node.slot, hst, Probing.Slot.seenFor, answer]
    | deleted =>
      simp only [Node.slot, hst, Probing.Slot.seenFor]
      exact hstop _
    | occupied =>
      simp only [Node.slot, hst, Probing.Slot.seenFor]
      by_cases hk : node.key = key
      · simp [hk, answer]
      · simp only [if_neg hk]
        exact hstop _

theorem find_eq_search {t : HashTable T} (hpos : 0 < t.bucketsz) (key : Bytes) :
    t.find key
      = answer (Probing.search t.bucketsz (home t.bucketsz) (slots t.buckets) key) := by
  have hraw : home t.bucketsz key < t.buckets.length := Nat.mod_lt _ hpos
  have h := findLoop_eq_scan t.buckets key hraw t.bucketsz 0 none (by simp [bucketsz])
  rw [Nat.add_zero, Nat.mod_eq_of_lt hraw, List.drop_zero] at h
  unfold find
  rw [if_neg (by omega)]
  exact h

end HashTable
end Store
end KvJet
