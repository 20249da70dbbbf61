import KvJet.Lib.Recency
import KvJet.Lib.Run
import KvJet.Store.LRU

/-!
# The order of the LRU

The keys of an `LRU`, in the order of its list nodes, move as a recency list does
(`order_of_returned`), so they are in the order of their last touches, and `set` pushes out the one
that was touched least recently (`lru_order`).

A call throws only where the index finds no room for its key, and then it has changed nothing.
-/

namespace KvJet
namespace Store
namespace LRU

open Recency (Before)

/-- The listed keys, least recently touched first. -/
def order (l : LRU) : List Bytes := l.lst.map Prod.snd

/-- The call of a member function; only `set` has a result. -/
def run : Recency.Call Bytes → Method Fault LRU (Option Bytes)
  | .set x => set x
  | .access x => do access x; return none
  | .del x => do del x; return none
  | .clear => do clear; return none

/-- The list after a call that returned or threw. -/
def step (l : LRU) (c : Recency.Call Bytes) : LRU := ((run c).call l).2

/-- The index has exactly the listed keys, each with the number of its own list node. -/
structure Indexed (l : LRU) : Prop where
  get : ∀ k it, l.hash.get k = .ok (some it) ↔ (it, k) ∈ l.lst
  entries : ∀ k it, (k, it) ∈ l.hash.forEach ↔ (it, k) ∈ l.lst
  own : (l.lst.map Prod.fst).Nodup

variable {l l' : LRU} {m : Bytes → Option Nat}

theorem Tracks.indexed (h : l.Tracks m) : l.Indexed where
  get := by
    intro k it
    rw [← h.listed.mem]
    by_cases hroom : l.hash.HasRoom k
    · rw [HashTable.get_spec h.index.stores hroom, Except.ok.injEq]
    · have hfind := HashTable.find_of_not_hasRoom h.index.stores hroom
      have hget : l.hash.get k = .error HashTable.notFound := by
        rw [HashTable.get, hfind]
        rfl
      rw [hget]
      refine iff_of_false (by simp) fun hk => hroom (h.hasRoom_of_listed hk)
  entries := fun k it => (HashTable.mem_forEach h.index.stores k it).trans (h.listed.mem k it)
  own := h.listed.nodup

theorem Tracks.mem_order (h : l.Tracks m) (x : Bytes) : x ∈ l.order ↔ m x ≠ none := by
  rw [order, List.mem_map, Option.ne_none_iff_exists']
  constructor
  · rintro ⟨⟨it, y⟩, hin, rfl⟩
    exact ⟨it, (h.listed.mem y it).mpr hin⟩
  · rintro ⟨it, hit⟩
    exact ⟨(it, x), (h.listed.mem x it).mp hit, rfl⟩

/-! ## What the parts of a call do to the list

A node is taken out and put in at the front; the other nodes keep their order. -/

theorem hashSet_frame {x : Bytes} {it : Nat} {u : Unit}
    (h : (hashSet x it).call l = (.ok u, l')) : l'.lst = l.lst ∧ l'.maxsz = l.maxsz := by
  obtain ⟨s, l₁, hget, h⟩ := Method.bind_eq_ok h
  obtain ⟨hash, l₂, hset, h⟩ := Method.bind_eq_ok h
  cases hget
  obtain ⟨-, rfl⟩ := Prod.mk.inj hset
  obtain ⟨-, rfl⟩ := Prod.mk.inj h
  exact ⟨rfl, rfl⟩

theorem hashErase_frame {x : Bytes} {u : Unit} (h : (hashErase x).call l = (.ok u, l')) :
    l'.lst = l.lst ∧ l'.maxsz = l.maxsz := by
  obtain ⟨s, l₁, hget, h⟩ := Method.bind_eq_ok h
  obtain ⟨⟨found, hash⟩, l₂, herase, h⟩ := Method.bind_eq_ok h
  cases hget
  obtain ⟨-, rfl⟩ := Prod.mk.inj herase
  obtain ⟨-, rfl⟩ := Prod.mk.inj h
  exact ⟨rfl, rfl⟩

theorem eraseNode_frame {it : Nat} {u : Unit} (h : (eraseNode it).call l = (.ok u, l')) :
    l' = { l with lst := l.lst.filter fun node => node.1 ≠ it } := by
  by_cases hin : it ∈ l.lst.map Prod.fst
  · rw [call_eraseNode hin, Prod.mk.injEq] at h
    exact h.2.symm
  · rw [eraseNode, Method.call_bind_ok (Method.call_get l), if_neg hin] at h
    exact absurd h (by simp)

theorem touch_frame {x : Bytes} {it : Nat} {u : Unit} (h : (touch x it).call l = (.ok u, l')) :
    l'.lst = l.lst.filter (fun node => node.1 ≠ it) ++ [(l.next, x)] := by
  obtain ⟨_, l₁, herase, h⟩ := Method.bind_eq_ok h
  rw [eraseNode_frame herase] at h
  obtain ⟨jt, l₂, hpush, h⟩ := Method.bind_eq_ok h
  rw [call_pushBack, Prod.mk.injEq] at hpush
  obtain ⟨-, rfl⟩ := hpush
  exact (hashSet_frame h).1

theorem evict_frame {y : Bytes} (h : evict.call l = (.ok y, l')) :
    l.order = y :: l'.order := by
  rw [evict, Method.call_bind_ok (Method.call_get l)] at h
  cases hlst : l.lst with
  | nil =>
    rw [hlst] at h
    exact absurd h (by simp)
  | cons node rest =>
    obtain ⟨it, x⟩ := node
    rw [hlst] at h
    rw [Method.call_bind_ok (Method.call_modify _ l)] at h
    obtain ⟨_, l₁, herase, h⟩ := Method.bind_eq_ok h
    obtain ⟨hx, rfl⟩ := Prod.mk.inj h
    rw [order, order, (hashErase_frame herase).1, hlst, ← Except.ok.inj hx]
    rfl

/-- Erasing the node of `x` is erasing `x`. -/
theorem Tracks.order_filter (h : l.Tracks m) {x : Bytes} {it : Nat} (hx : m x = some it) :
    (l.lst.filter fun node => node.1 ≠ it).map Prod.snd = l.order.filter (· ≠ x) := by
  have hsame : ∀ node ∈ l.lst, decide (node.1 ≠ it) = decide (node.2 ≠ x) := by
    rintro ⟨jt, k⟩ hin
    have hk : m k = some jt := (h.listed.mem k jt).mpr hin
    refine decide_eq_decide.mpr (not_congr ⟨?_, ?_⟩)
    · rintro rfl
      exact h.listed.number_unique hin ((h.listed.mem x jt).mp hx)
    · rintro rfl
      rw [hx, Option.some.injEq] at hk
      exact hk.symm
  rw [order, List.filter_map, List.filter_congr hsame]
  rfl

theorem Tracks.order_touch (h : l.Tracks m) {x : Bytes} {it : Nat} {u : Unit} (hx : m x = some it)
    (hcall : (touch x it).call l = (.ok u, l')) : l'.order = Recency.touch x l.order := by
  rw [order, touch_frame hcall, List.map_append, h.order_filter hx]
  rfl

/-! ## The calls -/

/-- A call returns, and the list and its index still agree; or it throws and changes nothing. -/
theorem Tracks.run_spec (h : l.Tracks m) (c : Recency.Call Bytes) :
    (∃ r l' m', (run c).call l = (.ok r, l') ∧ l'.Tracks m' ∧ l'.maxsz = l.maxsz) ∨
      (run c).call l = (.error HashTable.notFound, l) := by
  cases c with
  | set x =>
    by_cases hroom : l.hash.HasRoom x
    · obtain ⟨r, l', m', hcall, ht, hmax, -⟩ := set_spec h hroom
      exact Or.inl ⟨r, l', m', hcall, ht, hmax⟩
    · exact Or.inr (set_full h hroom)
  | access x =>
    by_cases hroom : l.hash.HasRoom x
    · obtain ⟨l', m', hcall, ht, hmax, -⟩ := access_spec h hroom
      exact Or.inl ⟨_, l', m', Method.call_bind_ok hcall _, ht, hmax⟩
    · exact Or.inr (Method.call_bind_error (access_full h hroom) _)
  | del x =>
    by_cases hroom : l.hash.HasRoom x
    · obtain ⟨l', hcall, ht, hmax⟩ := del_spec h hroom
      exact Or.inl ⟨_, l', _, Method.call_bind_ok hcall _, ht, hmax⟩
    · exact Or.inr (Method.call_bind_error (del_full h hroom) _)
  | clear =>
    obtain ⟨l', hcall, ht, hmax, -⟩ := clear_spec l
    exact Or.inl ⟨_, l', _, Method.call_bind_ok hcall _, ht, hmax⟩

theorem Tracks.run_cases (h : l.Tracks m) (c : Recency.Call Bytes) :
    (∃ r, (run c).call l = (.ok r, l.step c)) ∨
      (run c).call l = (.error HashTable.notFound, l) := by
  refine (h.run_spec c).imp_left ?_
  rintro ⟨r, l', m', hcall, -⟩
  exact ⟨r, by rw [LRU.step, hcall]⟩

theorem Tracks.step (h : l.Tracks m) (c : Recency.Call Bytes) :
    (∃ m', (l.step c).Tracks m') ∧ (l.step c).maxsz = l.maxsz := by
  rcases h.run_spec c with ⟨r, l', m', hcall, ht, hmax⟩ | hthrow
  · rw [LRU.step, hcall]
    exact ⟨⟨m', ht⟩, hmax⟩
  · rw [LRU.step, hthrow]
    exact ⟨⟨m, h⟩, rfl⟩

theorem Tracks.hashGet_returned (h : l.Tracks m) {x : Bytes} {o : Option Nat}
    (hcall : (hashGet x).call l = (.ok o, l')) : o = m x ∧ l' = l := by
  by_cases hroom : l.hash.HasRoom x
  · rw [call_hashGet h hroom, Prod.mk.injEq, Except.ok.injEq] at hcall
    exact ⟨hcall.1.symm, hcall.2.symm⟩
  · rw [call_hashGet_full h hroom] at hcall
    exact absurd hcall (by simp)

/-- A new key goes to the end, and the first one out where there are too many. -/
theorem Tracks.order_added (h : l.Tracks m) {x : Bytes} {r : Option Bytes} (hx : m x = none)
    (hcall : (set x).call l = (.ok r, l')) :
    l'.order = Recency.step l.maxsz l.order (.set x) ∧
      r = Recency.pushedOut l.maxsz l.order (.set x) := by
  have hnew : x ∉ l.order := fun hin => (h.mem_order x).mp hin hx
  obtain ⟨o, l₁, hget, hrest⟩ := Method.bind_eq_ok hcall
  obtain ⟨rfl, rfl⟩ := h.hashGet_returned hget
  rw [hx] at hrest
  obtain ⟨it, l₂, hpush, hrest⟩ := Method.bind_eq_ok hrest
  rw [call_pushBack, Prod.mk.injEq] at hpush
  obtain ⟨-, rfl⟩ := hpush
  obtain ⟨_, l₃, hset, hrest⟩ := Method.bind_eq_ok hrest
  obtain ⟨hlst, hmax⟩ := hashSet_frame hset
  rw [Method.call_bind_ok (Method.call_get l₃)] at hrest
  have horder : l₃.order = l₁.order ++ [x] := by
    rw [order, order, hlst, List.map_append]
    rfl
  have hlen : l₃.lst.length = (l₁.order ++ [x]).length := by
    rw [← horder, order, List.length_map]
  have hmax : l₃.maxsz = l₁.maxsz := hmax
  rw [Recency.step_set, if_neg hnew, Recency.pushedOut_set, ← hlen, ← hmax, ← horder]
  -- the size is looked at after the new node is in, so with no room at all `x` itself goes out
  split at hrest
  · rename_i hfull
    obtain ⟨y, l₄, hevict, hrest⟩ := Method.bind_eq_ok hrest
    obtain ⟨hr, rfl⟩ := Prod.mk.inj hrest
    have hout := evict_frame hevict
    rw [if_pos hfull, if_pos ⟨hnew, hfull⟩, hout]
    exact ⟨rfl, (Except.ok.inj hr).symm⟩
  · rename_i hroom
    obtain ⟨hr, rfl⟩ := Prod.mk.inj hrest
    rw [if_neg hroom, if_neg fun hboth => hroom hboth.2]
    exact ⟨rfl, (Except.ok.inj hr).symm⟩

/-- **A call that returned** moved the keys as a recency list, and returned what that pushes
out. -/
theorem Tracks.order_of_returned (h : l.Tracks m) {c : Recency.Call Bytes} {r : Option Bytes}
    (hcall : (run c).call l = (.ok r, l')) :
    l'.order = Recency.step l.maxsz l.order c ∧ r = Recency.pushedOut l.maxsz l.order c := by
  cases c with
  | set x =>
    cases hx : m x with
    | none => exact h.order_added hx hcall
    | some it =>
      have hin : x ∈ l.order := (h.mem_order x).mpr (by simp [hx])
      obtain ⟨o, l₁, hget, hrest⟩ := Method.bind_eq_ok hcall
      obtain ⟨rfl, rfl⟩ := h.hashGet_returned hget
      rw [hx] at hrest
      obtain ⟨_, l₂, htouch, hrest⟩ := Method.bind_eq_ok hrest
      obtain ⟨hr, rfl⟩ := Prod.mk.inj hrest
      rw [Recency.step_set, if_pos hin, Recency.pushedOut_set, if_neg fun hboth => hboth.1 hin]
      exact ⟨h.order_touch hx htouch, (Except.ok.inj hr).symm⟩
  | access x =>
    obtain ⟨_, l₁, haccess, hrest⟩ := Method.bind_eq_ok hcall
    obtain ⟨hr, rfl⟩ := Prod.mk.inj hrest
    refine ⟨?_, (Except.ok.inj hr).symm⟩
    obtain ⟨o, l₂, hget, hrest⟩ := Method.bind_eq_ok haccess
    obtain ⟨rfl, rfl⟩ := h.hashGet_returned hget
    rw [Recency.step_access]
    cases hx : m x with
    | none =>
      rw [hx] at hrest
      rw [if_neg fun hin => (h.mem_order x).mp hin hx, (Prod.mk.inj hrest).2]
    | some it =>
      rw [hx] at hrest
      rw [if_pos ((h.mem_order x).mpr (by simp [hx]))]
      exact h.order_touch hx hrest
  | del x =>
    obtain ⟨_, l₁, hdel, hrest⟩ := Method.bind_eq_ok hcall
    obtain ⟨hr, rfl⟩ := Prod.mk.inj hrest
    refine ⟨?_, (Except.ok.inj hr).symm⟩
    obtain ⟨o, l₂, hget, hrest⟩ := Method.bind_eq_ok hdel
    obtain ⟨rfl, rfl⟩ := h.hashGet_returned hget
    cases hx : m x with
    | none =>
      -- nothing is erased, and there is nothing to filter out
      rw [hx] at hrest
      have hnot : ∀ k ∈ l₂.order, decide (k ≠ x) = true := by
        intro k hk
        refine decide_eq_true fun hkx => ?_
        exact (h.mem_order k).mp hk (hkx ▸ hx)
      rw [← (Prod.mk.inj hrest).2]
      exact (List.filter_eq_self.mpr hnot).symm
    | some it =>
      rw [hx] at hrest
      obtain ⟨_, l₃, herase, hrest⟩ := Method.bind_eq_ok hrest
      rw [order, (hashErase_frame hrest).1, eraseNode_frame herase]
      exact h.order_filter hx
  | clear =>
    obtain ⟨_, l₁, hclear, hrest⟩ := Method.bind_eq_ok hcall
    obtain ⟨hr, rfl⟩ := Prod.mk.inj hrest
    refine ⟨?_, (Except.ok.inj hr).symm⟩
    rw [clear, Method.call_modify, Prod.mk.injEq] at hclear
    rw [← hclear.2]
    rfl

/-! ## Whole histories

The order of the last touches is a fact about the history and not about the list, so the history is
carried along, and the list is shown to be what it says. -/

/-- The index has room for the key of the call, or no call for it. -/
def Finds (l : LRU) (c : Recency.Call Bytes) : Prop :=
  ((run c).call l).1 ≠ .error HashTable.notFound

instance (l : LRU) (c : Recency.Call Bytes) : Decidable (l.Finds c) :=
  inferInstanceAs (Decidable (¬ _ = _))

/-- What holds of a list after the calls of `calls`, all of which returned. -/
structure Kept (maxsz : Nat) (calls : List (Recency.Call Bytes)) (l : LRU) : Prop where
  tracks : ∃ m, l.Tracks m
  capacity : l.maxsz = maxsz
  ranked : Recency.Ranked calls l.order
  short : l.order.length ≤ maxsz

variable {maxsz : Nat} {calls : List (Recency.Call Bytes)}

theorem kept_new (maxsz : Nat) : Kept maxsz [] { maxsz } where
  tracks := ⟨_, tracks_new maxsz⟩
  capacity := rfl
  ranked := Recency.Ranked.nil
  short := Nat.zero_le _

theorem Kept.returned (h : Kept maxsz calls l) {c : Recency.Call Bytes} (hc : l.Finds c) :
    (run c).call l = (.ok (Recency.pushedOut maxsz l.order c), l.step c) := by
  obtain ⟨m, ht⟩ := h.tracks
  rcases ht.run_cases c with ⟨r, hcall⟩ | hthrow
  · rw [hcall, (ht.order_of_returned hcall).2, h.capacity]
  · rw [Finds, hthrow] at hc
    exact absurd rfl hc

theorem Kept.order_step (h : Kept maxsz calls l) {c : Recency.Call Bytes} (hc : l.Finds c) :
    (l.step c).order = Recency.step maxsz l.order c := by
  obtain ⟨m, ht⟩ := h.tracks
  have horder := (ht.order_of_returned (h.returned hc)).1
  rwa [h.capacity] at horder

theorem Kept.step (h : Kept maxsz calls l) {c : Recency.Call Bytes} (hc : l.Finds c) :
    Kept maxsz (calls ++ [c]) (l.step c) := by
  obtain ⟨m, ht⟩ := h.tracks
  obtain ⟨ht', hmax⟩ := ht.step c
  have horder := h.order_step hc
  refine ⟨ht', hmax.trans h.capacity, ?_, ?_⟩
  · rw [horder]
    exact h.ranked.step c
  · rw [horder]
    exact Recency.length_step_le h.short c

theorem Kept.exec : ∀ {later : List (Recency.Call Bytes)} {calls : List (Recency.Call Bytes)}
    {l : LRU}, Kept maxsz calls l → Run.Along LRU.step Finds l later →
      Kept maxsz (calls ++ later) (Run.exec LRU.step l later) := by
  intro later
  -- the calls so far are part of what is kept, so they grow along the induction
  induction later with
  | nil =>
    intro calls l h _
    rwa [List.append_nil]
  | cons c later ih =>
    intro calls l h hlater
    have hrest := ih (h.step hlater.1) hlater.2
    rwa [List.append_assoc] at hrest

/-- The key that `set` pushes out is the least recently touched one. -/
theorem Kept.of_pushedOut (h : Kept maxsz calls l) {x y : Bytes}
    (hy : Recency.pushedOut maxsz l.order (.set x) = some y) :
    y ∈ l.order ++ [x] ∧ (maxsz = 0 → y = x) ∧
      ∀ z ∈ l.order ++ [x], z ≠ y → Before (calls ++ [.set x]) y z := by
  obtain ⟨hin, hlast⟩ := h.ranked.of_pushedOut hy
  refine ⟨hin, fun hzero => ?_, hlast⟩
  have hempty : l.order = [] := List.length_eq_zero_iff.mp (Nat.le_zero.mp (hzero ▸ h.short))
  rw [hempty] at hin
  exact List.mem_singleton.mp hin

/-- **The LRU keeps the order of the last touches**, and evicts the key whose last touch is longest
ago. Each call returns and moves the listed keys as `Recency.step` moves a recency list, so a `set`
lists its key, a `del` takes it off, and after `clear` none is listed. The order of the touches is
then an invariant of recency lists alone (`Recency.Ranked.step`). -/
theorem lru_order (maxsz : Nat) (calls : List (Recency.Call Bytes))
    (hcalls : Run.Along LRU.step Finds { maxsz } calls) :
    let l := Run.exec LRU.step { maxsz } calls
    l.Indexed ∧ l.order.Nodup ∧ l.order.Pairwise (Before calls) ∧ l.order.length ≤ maxsz ∧
      (∀ before c after, calls = before ++ c :: after →
        let past := Run.exec LRU.step { maxsz } before
        ∃ r now, (run c).call past = (.ok r, now) ∧
          now.order = Recency.step maxsz past.order c) ∧
      ∀ before x after, calls = before ++ .set x :: after → ∀ r,
        let keys := (Run.exec LRU.step { maxsz } before).order
        ((run (.set x)).call (Run.exec LRU.step { maxsz } before)).1 = .ok r →
          (r ≠ none ↔ x ∉ keys ∧ maxsz < (keys ++ [x]).length) ∧
          ∀ y, r = some y → y ∈ keys ++ [x] ∧ (maxsz = 0 → y = x) ∧
            ∀ z ∈ keys ++ [x], z ≠ y → Before (before ++ [.set x]) y z := by
  have hbefore : ∀ {before c after}, calls = before ++ c :: after →
      Kept maxsz before (Run.exec LRU.step { maxsz } before) ∧
        Finds (Run.exec LRU.step { maxsz } before) c := by
    rintro before c after rfl
    obtain ⟨hpast, hfinds, -⟩ := hcalls.append
    exact ⟨(kept_new maxsz).exec hpast, hfinds⟩
  have hall : Kept maxsz calls (Run.exec LRU.step { maxsz } calls) := (kept_new maxsz).exec hcalls
  obtain ⟨m, ht⟩ := hall.tracks
  refine ⟨ht.indexed, hall.ranked.nodup, hall.ranked.order, hall.short, ?_, ?_⟩
  · intro before c after hsplit
    obtain ⟨hkept, hfinds⟩ := hbefore hsplit
    exact ⟨_, _, hkept.returned hfinds, hkept.order_step hfinds⟩
  · intro before x after hsplit r keys hr
    obtain ⟨hkept, hfinds⟩ := hbefore hsplit
    have hout : Recency.pushedOut maxsz keys (.set x) = r := by
      rw [hkept.returned hfinds] at hr
      exact Except.ok.inj hr
    subst hout
    exact ⟨Recency.pushedOut_ne_none_iff, fun y hy => hkept.of_pushedOut hy⟩

/-- Room for one key: `b`, which was looked up before it was there, pushes out `a`. -/
theorem lru_order_one :
    Before [.set (ascii "a"), .access (ascii "b"), .set (ascii "b")] (ascii "a") (ascii "b") := by
  have hcalls : Run.Along LRU.step Finds { maxsz := 1 } [.set (ascii "a"), .access (ascii "b"),
      .set (ascii "b"), .del (ascii "b"), .set (ascii "a"), .clear] := by decide
  obtain ⟨-, -, -, -, -, hset⟩ := lru_order 1 _ hcalls
  obtain ⟨-, hout⟩ := hset [.set (ascii "a"), .access (ascii "b")] (ascii "b")
    [.del (ascii "b"), .set (ascii "a"), .clear] rfl (some (ascii "a")) (by decide)
  obtain ⟨-, -, hlast⟩ := hout (ascii "a") rfl
  exact hlast (ascii "b") (by decide) (by decide)

end LRU
end Store
end KvJet
