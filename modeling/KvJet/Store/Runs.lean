import KvJet.Store.Refinement

/-!
# Runs of the hash table

Sequences of `set`, `get`, `erase` and `checkexist` on one table, beside the same sequences on
the finite map. `call_spec` is one step of the simulation, with the two outcomes a call can
have; `run_spec` carries it along a run. From these two:

* `run_refines`: a run in which no call throws answers like the map, call by call, and its
  final table is a faithful copy of the final map;
* `run_ok_iff_room`: a run throws nowhere exactly when every call finds an `EMPTY` bucket or
  its own key. `erase` never gives an `EMPTY` bucket back, so a table that is filled and
  emptied again long enough stops answering (`churn_throws`).
-/

namespace KvJet
namespace Store
namespace HashTable

variable {T : Type}

inductive Call (T : Type) where
  | set (key : Bytes) (value : T)
  | get (key : Bytes)
  | erase (key : Bytes)
  | checkexist (key : Bytes)

inductive Reply (T : Type) where
  | done
  | value (v : Option T)
  | flag (b : Bool)

def Call.key : Call T → Bytes
  | .set k _ | .get k | .erase k | .checkexist k => k

/-! ## The finite map

What the table is for. It never refuses a call. -/

/-- The map after a call. -/
def Call.after (m : Bytes → Option T) : Call T → Bytes → Option T
  | .set k v => Function.update m k (some v)
  | .erase k => Function.update m k none
  | .get _ | .checkexist _ => m

def Call.reply (m : Bytes → Option T) : Call T → Reply T
  | .set _ _ => .done
  | .get k => .value (m k)
  | .erase k | .checkexist k => .flag (m k).isSome

def replies (m : Bytes → Option T) : List (Call T) → List (Reply T)
  | [] => []
  | c :: cs => c.reply m :: replies (c.after m) cs

/-- What the keys are bound to after the calls: the value of the last `set`, unless an `erase`
came after it. -/
def contents (m : Bytes → Option T) (cs : List (Call T)) : Bytes → Option T :=
  cs.foldl Call.after m

/-! ## The table -/

variable [Inhabited T]

def call (t : HashTable T) : Call T → Except Fault (Reply T × HashTable T)
  | .set k v => do return (.done, ← t.set k v)
  | .get k => do return (.value (← t.get k), t)
  | .erase k => do
    let (b, t') ← t.erase k
    return (.flag b, t')
  | .checkexist k => do return (.flag (← t.checkexist k), t)

/-- The calls one after another; the first one that throws ends the run. -/
def run (t : HashTable T) : List (Call T) → Except Fault (List (Reply T) × HashTable T)
  | [] => .ok ([], t)
  | c :: cs => do
    let (r, t₁) ← t.call c
    let (rs, t₂) ← t₁.run cs
    return (r :: rs, t₂)

/-! ## One call

Where the search can end the table moves like the map, and where it cannot it throws; there is no
third way. -/

section Call

variable {t : HashTable T} {m : Bytes → Option T}

theorem nodeAt_of_getElem? {p : Nat} {node : Node T} (h : t.buckets[p]? = some node) :
    t.nodeAt p = node := by
  simp [nodeAt, h]

/-- Either the key is stored, or there is an empty bucket to stop at. -/
theorem HasRoom.cases (hs : Stores t.buckets m) {k : Bytes} (h : t.HasRoom k) :
    (∃ v, m k = some v) ∨ (m k = none ∧ ∃ node ∈ t.buckets, node.status = .empty) := by
  cases hk : m k with
  | some v => exact Or.inl ⟨v, rfl⟩
  | none =>
    rcases h with he | ⟨⟨key, v, st⟩, hn, hst, hkey⟩
    · exact Or.inr ⟨rfl, he⟩
    · cases hst
      cases hkey
      rw [(hs.holds key v).mpr hn] at hk
      exact absurd hk (by simp)

theorem find_of_not_hasRoom (hs : Stores t.buckets m) {k : Bytes} (h : ¬ t.HasRoom k) :
    t.find k = .error notFound :=
  (find_eq_notFound_iff (List.length_pos_iff.mp hs.pos) k).mpr h

theorem get_spec (hs : Stores t.buckets m) {k : Bytes} (h : t.HasRoom k) :
    t.get k = .ok (m k) := by
  rcases HasRoom.cases hs h with ⟨v, hk⟩ | ⟨hk, he⟩
  · obtain ⟨p, hf, hp⟩ := hs.find_present hk
    simp [get, hf, nodeAt_of_getElem? hp, hk, bind, Except.bind, pure, Except.pure]
  · obtain ⟨p, hf, -, hfree, -⟩ := hs.find_absent hk he
    simp [get, hf, hfree, hk, bind, Except.bind, pure, Except.pure]

theorem checkexist_spec (hs : Stores t.buckets m) {k : Bytes} (h : t.HasRoom k) :
    t.checkexist k = .ok (m k).isSome := by
  rcases HasRoom.cases hs h with ⟨v, hk⟩ | ⟨hk, he⟩
  · obtain ⟨p, hf, hp⟩ := hs.find_present hk
    simp [checkexist, hf, nodeAt_of_getElem? hp, hk, bind, Except.bind, pure, Except.pure]
  · obtain ⟨p, hf, -, hfree, -⟩ := hs.find_absent hk he
    simp [checkexist, hf, hfree, hk, bind, Except.bind, pure, Except.pure]

theorem set_spec (hr : Represents t m) {k : Bytes} (v : T) (h : t.HasRoom k) :
    ∃ t', t.set k v = .ok t' ∧ Represents t' (Function.update m k (some v)) := by
  rcases HasRoom.cases hr.stores h with ⟨w, hk⟩ | ⟨hk, he⟩
  · obtain ⟨p, hf, hp⟩ := hr.stores.find_present hk
    refine ⟨{ t with buckets := t.buckets.set p ⟨k, v, .occupied⟩ }, ?_,
      hr.stores.overwrite v hp, ?_, ?_⟩
    · simp [set, hf, nodeAt_of_getElem? hp, bind, Except.bind, pure, Except.pure]
    · rw [occupancy_overwrite v hp]
      exact hr.count
    · simpa [bucketsz] using hr.load
  · obtain ⟨p, hf, hp, hfree, hput⟩ := hr.stores.find_absent hk he
    have hp' : p < t.buckets.length := hp
    have hst : t.buckets[p].status ≠ .occupied := by
      simpa [nodeAt, List.getElem?_eq_getElem hp'] using hfree
    have hcount : t.sz + 1 = occupancy (t.buckets.set p ⟨k, v, .occupied⟩) := by
      rw [occupancy_put hp' k v hst, hr.count]
    by_cases hload : 3 * t.buckets.length < 4 * (t.sz + 1)
    · obtain ⟨t', ht', hrep⟩ :=
        rehash_spec (t := ⟨t.buckets.set p ⟨k, v, .occupied⟩, t.sz + 1⟩) (hput v) hcount
      refine ⟨t', ?_, hrep⟩
      simpa [set, hf, hfree, bucketsz, hload, bind, Except.bind, pure, Except.pure] using ht'
    · refine ⟨⟨t.buckets.set p ⟨k, v, .occupied⟩, t.sz + 1⟩, ?_, hput v, hcount, ?_⟩
      · simp [set, hf, hfree, bucketsz, hload, bind, Except.bind, pure, Except.pure]
      · show 4 * (t.sz + 1) ≤ 3 * (t.buckets.set p _).length
        rw [List.length_set]
        exact Nat.le_of_not_lt hload

theorem erase_spec (hr : Represents t m) {k : Bytes} (h : t.HasRoom k) :
    ∃ t', t.erase k = .ok ((m k).isSome, t') ∧ Represents t' (Function.update m k none) := by
  rcases HasRoom.cases hr.stores h with ⟨w, hk⟩ | ⟨hk, he⟩
  · obtain ⟨p, hf, hp⟩ := hr.stores.find_present hk
    refine ⟨⟨t.buckets.set p ⟨k, w, .deleted⟩, t.sz - 1⟩, ?_, hr.stores.delete hp, ?_, ?_⟩
    · simp [erase, hf, nodeAt_of_getElem? hp, hk, bind, Except.bind, pure, Except.pure]
    · rw [occupancy_delete hp, hr.count]
    · show 4 * (t.sz - 1) ≤ 3 * (t.buckets.set p _).length
      have := hr.load
      rw [List.length_set]
      unfold bucketsz at this
      omega
  · obtain ⟨p, hf, -, hfree, -⟩ := hr.stores.find_absent hk he
    refine ⟨t, ?_, ?_⟩
    · simp [erase, hf, hfree, hk, bind, Except.bind, pure, Except.pure]
    · rw [Function.update_eq_self_iff.mpr hk.symm]
      exact hr

/-- **One step of the simulation.**

The search ends at the key's own bucket, at the first tombstone on its way, or at an empty one, and
the three calls that change the table do so there. So the path of every other key keeps what stands
on it, except that a rehash lays all of them anew. -/
theorem call_spec (hr : Represents t m) (c : Call T) (h : t.HasRoom c.key) :
    ∃ t', t.call c = .ok (c.reply m, t') ∧ Represents t' (c.after m) := by
  cases c with
  | set k v =>
    obtain ⟨t', ht', hrep⟩ := set_spec hr v h
    simp only [Call.key] at ht'
    exact ⟨t', by simp [call, ht', Call.reply, bind, Except.bind, pure, Except.pure], hrep⟩
  | get k =>
    refine ⟨t, ?_, hr⟩
    have hget := get_spec hr.stores h
    simp only [Call.key] at hget
    simp [call, hget, Call.reply, bind, Except.bind, pure, Except.pure]
  | erase k =>
    obtain ⟨t', ht', hrep⟩ := erase_spec hr h
    simp only [Call.key] at ht'
    exact ⟨t', by simp [call, ht', Call.reply, bind, Except.bind, pure, Except.pure], hrep⟩
  | checkexist k =>
    refine ⟨t, ?_, hr⟩
    have hcheck := checkexist_spec hr.stores h
    simp only [Call.key] at hcheck
    simp [call, hcheck, Call.reply, bind, Except.bind, pure, Except.pure]

theorem call_throws (hs : Stores t.buckets m) (c : Call T) (h : ¬ t.HasRoom c.key) :
    t.call c = .error notFound := by
  have hf := find_of_not_hasRoom hs h
  cases c <;> simp only [Call.key] at hf <;>
    simp [call, set, get, erase, checkexist, hf, bind, Except.bind]

end Call

/-! ## Whole runs

One induction over the calls, from which both results are read off. -/

theorem run_cons (t : HashTable T) (c : Call T) (cs : List (Call T)) :
    t.run (c :: cs) = t.call c >>= fun p => p.2.run cs >>= fun q => .ok (p.1 :: q.1, q.2) := rfl

theorem run_cons_ok {t t₁ : HashTable T} {c : Call T} {r : Reply T} (h : t.call c = .ok (r, t₁))
    (cs : List (Call T)) :
    t.run (c :: cs) = t₁.run cs >>= fun q => .ok (r :: q.1, q.2) := by
  rw [run_cons, h]
  rfl

theorem run_append (t : HashTable T) (cs ds : List (Call T)) :
    t.run (cs ++ ds)
      = t.run cs >>= fun p => p.2.run ds >>= fun q => .ok (p.1 ++ q.1, q.2) := by
  induction cs generalizing t with
  | nil =>
    simp only [List.nil_append, run, bind, Except.bind]
    cases t.run ds <;> rfl
  | cons c cs ih =>
    rw [List.cons_append, run_cons, run_cons]
    cases hc : t.call c with
    | error e => rfl
    | ok p =>
      show (p.2.run (cs ++ ds) >>= _) = (p.2.run cs >>= _) >>= _
      rw [ih p.2]
      cases p.2.run cs with
      | error e => rfl
      | ok q =>
        show ((q.2.run ds >>= _) >>= _) = _
        cases hq : q.2.run ds <;> simp [hq, bind, Except.bind]

/-- A run that throws nowhere follows the map. -/
theorem run_spec : ∀ (cs : List (Call T)) {t t' : HashTable T} {m : Bytes → Option T}
    {rs : List (Reply T)}, Represents t m → t.run cs = .ok (rs, t') →
      rs = replies m cs ∧ Represents t' (contents m cs) := by
  intro cs
  induction cs with
  | nil =>
    intro t t' m rs hr h
    simp only [run, Except.ok.injEq, Prod.mk.injEq] at h
    obtain ⟨rfl, rfl⟩ := h
    exact ⟨rfl, hr⟩
  | cons c cs ih =>
    intro t t' m rs hr h
    by_cases hroom : t.HasRoom c.key
    · obtain ⟨t₁, hc, hr₁⟩ := call_spec hr c hroom
      rw [run_cons_ok hc] at h
      cases hrest : t₁.run cs with
      | error e =>
        rw [hrest] at h
        exact absurd h (by simp [bind, Except.bind])
      | ok q =>
        rw [hrest] at h
        have hrest' : t₁.run cs = .ok (q.1, q.2) := hrest
        obtain ⟨hrs, hrep⟩ := ih hr₁ hrest'
        simp only [bind, Except.bind, Except.ok.injEq, Prod.mk.injEq] at h
        obtain ⟨rfl, rfl⟩ := h
        exact ⟨by rw [hrs]; rfl, hrep⟩
    · rw [run_cons, call_throws hr.stores c hroom] at h
      exact absurd h (by simp [bind, Except.bind])

theorem represents_blank {n : Nat} (hpos : 0 < n) :
    Represents (⟨List.replicate n blank, 0⟩ : HashTable T) fun _ => none where
  stores := by
    refine ⟨by simpa using hpos, ?_, ?_⟩
    · have : slots (List.replicate n (blank : Node T)) = fun _ => .empty := by
        funext i
        simp only [slots, List.getElem?_replicate]
        split <;> rfl
      rw [this]
      exact Probing.laid_empty
    · intro k v
      simp [blank]
  count := by
    rw [occupancy, List.countP_replicate]
    rfl
  load := by simp

theorem represents_fresh : Represents (fresh : HashTable T) fun _ => none :=
  represents_blank (by decide)

/-- `forEach` enumerates the map. -/
theorem mem_forEach {t : HashTable T} {m : Bytes → Option T} (hs : Stores t.buckets m)
    (k : Bytes) (v : T) : (k, v) ∈ t.forEach ↔ m k = some v := by
  rw [hs.holds, forEach, List.mem_filterMap]
  constructor
  · rintro ⟨⟨key, value, st⟩, hn, h⟩
    split at h
    · rename_i hst
      cases h
      cases hst
      exact hn
    · exact absurd h (by simp)
  · intro h
    exact ⟨_, h, by simp⟩

theorem nodup_forEach {t : HashTable T} {m : Bytes → Option T} (hs : Stores t.buckets m) :
    (t.forEach.map Prod.fst).Nodup := by
  rw [forEach, List.map_filterMap, List.Nodup, List.pairwise_filterMap, List.pairwise_iff_getElem]
  intro i j hi hj hij k hk k' hk' hkk
  have hnode : ∀ {l : Nat} (hl : l < t.buckets.length) {key : Bytes},
      Option.map Prod.fst (if t.buckets[l].status = .occupied then
        some (t.buckets[l].key, t.buckets[l].value) else none) = some key →
      ∃ v, t.buckets[l]? = some ⟨key, v, .occupied⟩ := by
    intro l hl key h
    split at h
    · rename_i hst
      refine ⟨t.buckets[l].value, ?_⟩
      rw [List.getElem?_eq_getElem hl]
      simp only [Option.map_some, Option.some.injEq] at h
      simp [← h, ← hst]
    · exact absurd h (by simp)
  obtain ⟨v, hv⟩ := hnode hi hk
  obtain ⟨w, hw⟩ := hnode hj hk'
  rw [hkk] at hv
  have := hs.unique hv hw
  omega

/-- **The table refines the finite map.** In every run from the empty table in which no call
throws, each reply is the map's, and at the end `forEach` visits each bound key once with its
value, no key has two buckets and the counter is the number of occupied buckets.

One call goes from a table that represents a map to one that represents the map after the call, or
throws (`call_spec`), so a run of calls does. The layout is part of what is kept (`Probing.Laid`):
each key is on its own path with no empty bucket before it, which is why a later search finds it,
and finds no second place for it. -/
theorem run_refines (cs : List (Call T)) (rs : List (Reply T)) (t : HashTable T)
    (h : fresh.run cs = .ok (rs, t)) :
    rs = replies (fun _ => none) cs ∧
    (t.forEach.map Prod.fst).Nodup ∧
    (∀ k v, (k, v) ∈ t.forEach ↔ contents (fun _ => none) cs k = some v) ∧
    (∀ (i j : Nat) k v w, t.buckets[i]? = some ⟨k, v, .occupied⟩ →
      t.buckets[j]? = some ⟨k, w, .occupied⟩ → i = j) ∧
    t.sz = occupancy t.buckets := by
  obtain ⟨hrs, hrep⟩ := run_spec cs represents_fresh h
  exact ⟨hrs, nodup_forEach hrep.stores, mem_forEach hrep.stores,
    fun _ _ _ _ _ hi hj => hrep.stores.unique hi hj, hrep.count⟩

/-- Two keys of one home bucket; the first is erased and the second still found. -/
theorem run_refines_collision :
    ∃ rs t, (fresh : HashTable Nat).run
        [.set (ascii "a") 1, .set (ascii "q") 2, .erase (ascii "a"), .get (ascii "q")] = .ok (rs, t) ∧
      rs = replies (fun _ => none)
        [.set (ascii "a") 1, .set (ascii "q") 2, .erase (ascii "a"), .get (ascii "q")] :=
  ⟨_, _, rfl, (run_refines _ _ _ rfl).1⟩

theorem run_ok_iff_hasRoom (cs : List (Call T)) :
    (∃ rs t, fresh.run cs = .ok (rs, t)) ↔
      ∀ before c after rs t, cs = before ++ c :: after →
        (fresh : HashTable T).run before = .ok (rs, t) → t.HasRoom c.key := by
  constructor
  · rintro ⟨rs, t, h⟩ before c after rs₁ t₁ rfl hbefore
    by_contra hroom
    have hrep := (run_spec before represents_fresh hbefore).2
    rw [run_append, hbefore] at h
    simp only [bind, Except.bind] at h
    rw [run_cons, call_throws hrep.stores c hroom] at h
    exact absurd h (by simp [bind, Except.bind])
  · intro hall
    -- the longest run that succeeds is the whole one
    induction cs using List.reverseRecOn with
    | nil => exact ⟨[], fresh, rfl⟩
    | append_singleton cs c ih =>
      obtain ⟨rs, t, h⟩ := ih fun before d after rs t heq hb =>
        hall before d (after ++ [c]) rs t (by simp [heq]) hb
      have hrep := (run_spec cs represents_fresh h).2
      obtain ⟨t', hc, -⟩ := call_spec hrep c (hall cs c [] rs t rfl h)
      refine ⟨rs ++ [c.reply (contents (fun _ => none) cs)], t', ?_⟩
      rw [run_append, h]
      simp only [bind, Except.bind]
      rw [run_cons_ok hc]
      rfl

/-- **When a run throws.** No call of a run from the empty table throws if and only if each one
finds fewer occupied buckets and tombstones, taken together, than buckets, or is about a key
that is stored.

`find` gives up only when it has gone around without an empty bucket and without its key. Growing
does not help against this, since it is `sz` that makes a table grow, and a tombstone is not counted
there. -/
theorem run_ok_iff_room (cs : List (Call T)) :
    (∃ rs t, fresh.run cs = .ok (rs, t)) ↔
      ∀ before c after rs t, cs = before ++ c :: after →
        (fresh : HashTable T).run before = .ok (rs, t) →
        t.sz + tombstones t.buckets < t.bucketsz ∨
          ∃ node ∈ t.buckets, node.status = .occupied ∧ node.key = c.key := by
  rw [run_ok_iff_hasRoom]
  refine forall₅_congr fun before c after rs t => ?_
  refine forall_congr' fun _ => forall_congr' fun h => ?_
  exact hasRoom_iff (run_spec before represents_fresh h).2.count c.key

/-- Sixteen keys with sixteen home buckets, each set and erased. -/
def churn : List (Call Nat) :=
  (List.range 16).flatMap fun i => [.set [UInt8.ofNat (48 + i)] 0, .erase [UInt8.ofNat (48 + i)]]

/-- After that every bucket is a tombstone, and looking anything up throws. -/
theorem churn_throws :
    ¬ ∃ rs t, (fresh : HashTable Nat).run (churn ++ [.get (ascii "a")]) = .ok (rs, t) := by
  rintro ⟨rs, t, h⟩
  have : (fresh : HashTable Nat).run (churn ++ [.get (ascii "a")]) = .error notFound := by rfl
  rw [this] at h
  exact absurd h (by simp)

end HashTable
end Store
end KvJet
