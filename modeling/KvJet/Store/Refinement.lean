import KvJet.Store.HashTable

/-!
# The hash table refines a finite map

The abstract table is a function `m : Bytes → Option T`. `Represents t m` says that the
concrete table `t` stores exactly `m`, in a layout the search can follow, with its counter
right and its load bounded. `step_spec` is the simulation: a call made where the search cannot
run dry answers and moves like the map, and a call made elsewhere throws. The theorems about
whole runs follow from it by induction on the calls.

The search runs dry exactly when no bucket is `EMPTY` and the key is not stored (`HasRoom`).
Growth does not prevent that: it counts the occupied buckets, and a tombstone is neither
occupied nor empty.
-/

namespace KvJet
namespace Store
namespace HashTable

open Probing (Laid)

variable {T : Type} [Inhabited T]

/-! ## Buckets and slots

The library's search knows slots and keys only. A bucket is more than that: an empty one or a
tombstone has a key and a value as well, which nobody should read. -/

omit [Inhabited T] in
theorem mem_set_iff {l : List (Node T)} {p : Nat} {a x : Node T} (hp : p < l.length) :
    x ∈ l.set p a ↔ x = a ∨ ∃ i, i ≠ p ∧ l[i]? = some x := by
  constructor
  · intro h
    obtain ⟨i, hi⟩ := List.mem_iff_getElem?.mp h
    rw [List.getElem?_set] at hi
    split at hi
    · rename_i hpi
      subst hpi
      rw [Option.some.injEq] at hi
      exact Or.inl hi.symm
    · rename_i hpi
      exact Or.inr ⟨i, fun h => hpi h.symm, hi⟩
  · rintro (rfl | ⟨i, hip, hi⟩)
    · exact List.mem_iff_getElem?.mpr ⟨p, by rw [List.getElem?_set_self hp]⟩
    · exact List.mem_iff_getElem?.mpr ⟨i, by rw [List.getElem?_set_ne (fun h => hip h.symm), hi]⟩

theorem slots_set {l : List (Node T)} {p : Nat} (hp : p < l.length) (a : Node T) :
    slots (l.set p a) = Function.update (slots l) p a.slot := by
  funext i
  by_cases hip : i = p
  · subst hip
    rw [Function.update_self]
    simp [slots, List.getElem?_set_self hp]
  · rw [Function.update_of_ne hip]
    simp [slots, List.getElem?_set_ne (fun h => hip h.symm)]

omit [Inhabited T] in
theorem slot_eq_occupied {node : Node T} {k : Bytes} :
    node.slot = .occupied k ↔ node.status = .occupied ∧ node.key = k := by
  cases h : node.status <;> simp [Node.slot, h]

omit [Inhabited T] in
theorem slot_eq_empty {node : Node T} : node.slot = .empty ↔ node.status = .empty := by
  cases h : node.status <;> simp [Node.slot, h]

omit [Inhabited T] in
theorem slot_eq_deleted {node : Node T} : node.slot = .deleted ↔ node.status = .deleted := by
  cases h : node.status <;> simp [Node.slot, h]

theorem slots_eq_of_getElem? {l : List (Node T)} {i : Nat} {node : Node T}
    (h : l[i]? = some node) : slots l i = node.slot := by
  simp [slots, h]

theorem slots_eq_occupied {l : List (Node T)} {i : Nat} {k : Bytes} :
    slots l i = .occupied k ↔ ∃ v, l[i]? = some ⟨k, v, .occupied⟩ := by
  constructor
  · intro h
    cases hi : l[i]? with
    | none => simp [slots, hi, blank, Node.slot] at h
    | some node =>
      rw [slots_eq_of_getElem? hi, slot_eq_occupied] at h
      obtain ⟨key, value, status⟩ := node
      obtain ⟨rfl, rfl⟩ := h
      exact ⟨value, rfl⟩
  · rintro ⟨v, hv⟩
    rw [slots_eq_of_getElem? hv]
    rfl

/-! ## What a table stores

A map, and not a list of pairs: the order of the buckets, and where the tombstones are, is nobody's
business. -/

/-- The buckets hold exactly the pairs of `m`, where the search can find them. -/
structure Stores (buckets : List (Node T)) (m : Bytes → Option T) : Prop where
  pos : 0 < buckets.length
  laid : Laid buckets.length (home buckets.length) (slots buckets)
  holds : ∀ k v, m k = some v ↔ (⟨k, v, .occupied⟩ : Node T) ∈ buckets

/-- The number of `OCCUPIED` buckets. -/
def occupancy (buckets : List (Node T)) : Nat := buckets.countP fun node => node.status = .occupied

/-- The table stores the map, and has counted right. The load is what `set` looks at before it grows
the table; tombstones apart, it leaves an empty bucket. -/
structure Represents (t : HashTable T) (m : Bytes → Option T) : Prop where
  stores : Stores t.buckets m
  count : t.sz = occupancy t.buckets
  load : 4 * t.sz ≤ 3 * t.bucketsz

/-- The search for `key` cannot run dry. -/
def HasRoom (t : HashTable T) (key : Bytes) : Prop :=
  (∃ node ∈ t.buckets, node.status = .empty) ∨
    ∃ node ∈ t.buckets, node.status = .occupied ∧ node.key = key

instance (t : HashTable T) (key : Bytes) : Decidable (t.HasRoom key) :=
  inferInstanceAs (Decidable (_ ∨ _))

namespace Stores

variable {t : HashTable T} {m : Bytes → Option T} {buckets : List (Node T)}

theorem home_lt (hs : Stores buckets m) (k : Bytes) : home buckets.length k < buckets.length :=
  Nat.mod_lt _ hs.pos

theorem occupied_of_getElem? (hs : Stores buckets m) {i : Nat} {k : Bytes} {v : T}
    (h : buckets[i]? = some ⟨k, v, .occupied⟩) : m k = some v :=
  (hs.holds k v).mpr (List.mem_of_getElem? h)

theorem unique (hs : Stores buckets m) {i j : Nat} {k : Bytes} {v w : T}
    (hi : buckets[i]? = some ⟨k, v, .occupied⟩) (hj : buckets[j]? = some ⟨k, w, .occupied⟩) :
    i = j := by
  refine hs.laid.unique i j k ?_ ?_ (slots_eq_occupied.mpr ⟨v, hi⟩) (slots_eq_occupied.mpr ⟨w, hj⟩)
  · exact (List.getElem?_eq_some_iff.mp hi).1
  · exact (List.getElem?_eq_some_iff.mp hj).1

theorem absent (hs : Stores buckets m) {k : Bytes} (hk : m k = none) :
    ∀ i < buckets.length, slots buckets i ≠ .occupied k := by
  intro i _ h
  obtain ⟨v, hv⟩ := slots_eq_occupied.mp h
  rw [hs.occupied_of_getElem? hv] at hk
  exact absurd hk (by simp)

/-! ### The three ways a bucket is written -/

/-- Writing a bucket for `k`, when no other bucket holds `k` and this one holds no other key,
changes the map at `k` only. -/
theorem holds_set (hs : Stores buckets m) {p : Nat} (hp : p < buckets.length) {a : Node T}
    (hother : ∀ i v, buckets[i]? = some ⟨a.key, v, .occupied⟩ → i = p)
    (hsame : ∀ k v, buckets[p]? = some ⟨k, v, .occupied⟩ → k = a.key) (k : Bytes) (v : T) :
    Function.update m a.key (if a.status = .occupied then some a.value else none) k = some v ↔
      (⟨k, v, .occupied⟩ : Node T) ∈ buckets.set p a := by
  obtain ⟨ka, va, sa⟩ := a
  rw [mem_set_iff hp]
  by_cases hk : k = ka
  · subst hk
    rw [Function.update_self]
    constructor
    · intro h
      split at h
      · rename_i hocc
        cases h
        exact Or.inl (by simp [← hocc])
      · exact absurd h (by simp)
    · rintro (h | ⟨i, hip, hi⟩)
      · cases h
        rfl
      · exact absurd (hother i v hi) hip
  · rw [Function.update_of_ne hk, hs.holds]
    constructor
    · intro h
      obtain ⟨i, hi⟩ := List.mem_iff_getElem?.mp h
      refine Or.inr ⟨i, fun hip => ?_, hi⟩
      subst hip
      exact hk (hsame k v hi)
    · rintro (h | ⟨i, _, hi⟩)
      · exact absurd (congrArg Node.key h) hk
      · exact List.mem_of_getElem? hi

/-- A new key, in a free bucket the search may point to. -/
theorem put (hs : Stores buckets m) {k : Bytes} (v : T) (hk : m k = none) {p : Nat}
    {before : List Nat} (hp : p < buckets.length)
    (hbefore : Probing.Before buckets.length (home buckets.length) k before p)
    (hfull : ∀ l ∈ before, ∃ k', slots buckets l = .occupied k')
    (hfree : slots buckets p = .empty ∨ slots buckets p = .deleted) :
    Stores (buckets.set p ⟨k, v, .occupied⟩) (Function.update m k (some v)) where
  pos := by simpa using hs.pos
  laid := by
    rw [List.length_set, slots_set hp]
    exact hs.laid.put hs.home_lt (hs.absent hk) hbefore hfull hfree
  holds := by
    refine hs.holds_set (a := ⟨k, v, .occupied⟩) hp ?_ ?_
    · intro i w hi
      rw [hs.occupied_of_getElem? hi] at hk
      exact absurd hk (by simp)
    · intro k' w hw
      rw [slots_eq_occupied.mpr ⟨w, hw⟩] at hfree
      exact absurd hfree (by simp)

omit [Inhabited T] in
theorem same_key {p : Nat} {k : Bytes} {v : T} {st : Stat}
    (hp : buckets[p]? = some ⟨k, v, st⟩) (k' : Bytes) (w : T)
    (hw : buckets[p]? = some ⟨k', w, .occupied⟩) : k' = k := by
  rw [hw, Option.some.injEq] at hp
  exact congrArg Node.key hp

/-- A new value for a stored key. -/
theorem overwrite (hs : Stores buckets m) {k : Bytes} {v : T} (v' : T) {p : Nat}
    (hp : buckets[p]? = some ⟨k, v, .occupied⟩) :
    Stores (buckets.set p ⟨k, v', .occupied⟩) (Function.update m k (some v')) where
  pos := by simpa using hs.pos
  laid := by
    have hlt : p < buckets.length := (List.getElem?_eq_some_iff.mp hp).1
    have hsame : Function.update (slots buckets) p (.occupied k) = slots buckets :=
      Function.update_eq_self_iff.mpr (slots_eq_occupied.mpr ⟨v, hp⟩).symm
    rw [List.length_set, slots_set hlt]
    show Laid _ _ (Function.update (slots buckets) p (.occupied k))
    rw [hsame]
    exact hs.laid
  holds := hs.holds_set (a := ⟨k, v', .occupied⟩) (List.getElem?_eq_some_iff.mp hp).1
    (fun _ _ hi => hs.unique hi hp) (same_key hp)

/-- A tombstone where a key was. -/
theorem delete (hs : Stores buckets m) {k : Bytes} {v : T} {p : Nat}
    (hp : buckets[p]? = some ⟨k, v, .occupied⟩) :
    Stores (buckets.set p ⟨k, v, .deleted⟩) (Function.update m k none) where
  pos := by simpa using hs.pos
  laid := by
    rw [List.length_set, slots_set (List.getElem?_eq_some_iff.mp hp).1]
    exact hs.laid.delete p
  holds := hs.holds_set (a := ⟨k, v, .deleted⟩) (List.getElem?_eq_some_iff.mp hp).1
    (fun _ _ hi => hs.unique hi hp) (same_key hp)

/-! ### Where `find` points -/

theorem find_eq (hs : Stores t.buckets m) (k : Bytes) :
    t.find k = answer (Probing.search t.buckets.length (home t.buckets.length)
      (slots t.buckets) k) :=
  find_eq_search hs.pos k

theorem find_present (hs : Stores t.buckets m) {k : Bytes} {v : T} (hk : m k = some v) :
    ∃ p, t.find k = .ok p ∧ t.buckets[p]? = some ⟨k, v, .occupied⟩ := by
  obtain ⟨i, hi⟩ := List.mem_iff_getElem?.mp ((hs.holds k v).mp hk)
  have hsearch := hs.laid.search_occupied hs.home_lt (List.getElem?_eq_some_iff.mp hi).1
    (slots_eq_occupied.mpr ⟨v, hi⟩)
  refine ⟨i, ?_, hi⟩
  rw [hs.find_eq, hsearch]
  rfl

theorem find_absent (hs : Stores t.buckets m) {k : Bytes} (hk : m k = none)
    (hemp : ∃ node ∈ t.buckets, node.status = .empty) :
    ∃ p, t.find k = .ok p ∧ p < t.bucketsz ∧ (t.nodeAt p).status ≠ .occupied ∧
      ∀ v, Stores (t.buckets.set p ⟨k, v, .occupied⟩) (Function.update m k (some v)) := by
  obtain ⟨node, hn, hst⟩ := hemp
  obtain ⟨e, he⟩ := List.mem_iff_getElem?.mp hn
  have hee : slots t.buckets e = .empty := by
    rw [slots_eq_of_getElem? he]
    exact slot_eq_empty.mpr hst
  obtain ⟨p, before, hsearch, hp, hbefore, hfree, hfull⟩ := Probing.search_absent hs.home_lt
    (hs.absent hk) ⟨e, (List.getElem?_eq_some_iff.mp he).1, hee⟩
  refine ⟨p, ?_, hp, ?_, fun v => hs.put v hk hp hbefore hfull hfree⟩
  · rw [hs.find_eq, hsearch]
    rfl
  · intro hocc
    have hslot : slots t.buckets p = .occupied (t.nodeAt p).key := slot_eq_occupied.mpr ⟨hocc, rfl⟩
    rw [hslot] at hfree
    exact absurd hfree (by simp)

end Stores

/-- The search finds no end exactly where there is no room, however the buckets came to be as they
are. -/
theorem find_eq_notFound_iff {t : HashTable T} (hbuckets : t.buckets ≠ []) (k : Bytes) :
    t.find k = .error notFound ↔ ¬ t.HasRoom k := by
  have hpos : 0 < t.bucketsz := List.length_pos_iff.mpr hbuckets
  have hhome : ∀ k, home t.bucketsz k < t.bucketsz := fun k => Nat.mod_lt _ hpos
  have hanswer : ∀ found, answer found = .error notFound ↔ found = none := by
    intro found
    cases found <;> simp [answer]
  rw [find_eq_search hpos, hanswer, Probing.search_eq_none_iff hhome]
  constructor
  · rintro h (⟨node, hin, hempty⟩ | ⟨node, hin, hocc, hkey⟩)
    · obtain ⟨i, hi⟩ := List.mem_iff_getElem?.mp hin
      refine (h i (List.getElem?_eq_some_iff.mp hi).1).1 ?_
      rw [slots_eq_of_getElem? hi]
      exact slot_eq_empty.mpr hempty
    · obtain ⟨i, hi⟩ := List.mem_iff_getElem?.mp hin
      refine (h i (List.getElem?_eq_some_iff.mp hi).1).2 ?_
      rw [slots_eq_of_getElem? hi]
      exact slot_eq_occupied.mpr ⟨hocc, hkey⟩
  · intro h i hi
    rw [slots_eq_of_getElem? (List.getElem?_eq_getElem hi), ne_eq, slot_eq_empty, ne_eq,
      slot_eq_occupied]
    have hin := List.getElem_mem hi
    exact ⟨fun hempty => h (Or.inl ⟨_, hin, hempty⟩), fun hocc => h (Or.inr ⟨_, hin, hocc⟩)⟩

/-! ## Counting

`sz` is what the table grows by, and it is kept beside the buckets; so it has to be shown to count
them. -/

omit [Inhabited T] in
theorem occupancy_put {l : List (Node T)} {p : Nat} (hp : p < l.length) (k : Bytes) (v : T)
    (hfree : l[p].status ≠ .occupied) :
    occupancy (l.set p ⟨k, v, .occupied⟩) = occupancy l + 1 := by
  unfold occupancy
  rw [List.countP_set hp]
  simp [hfree]

omit [Inhabited T] in
theorem occupancy_overwrite {l : List (Node T)} {p : Nat} {k : Bytes} {v : T} (v' : T)
    (hp : l[p]? = some ⟨k, v, .occupied⟩) :
    occupancy (l.set p ⟨k, v', .occupied⟩) = occupancy l := by
  obtain ⟨hlt, hget⟩ := List.getElem?_eq_some_iff.mp hp
  have hpos : 0 < occupancy l :=
    List.countP_pos_iff.mpr ⟨_, List.mem_of_getElem? hp, by simp⟩
  unfold occupancy at *
  rw [List.countP_set hlt, hget]
  simp
  omega

omit [Inhabited T] in
theorem occupancy_delete {l : List (Node T)} {p : Nat} {k : Bytes} {v : T}
    (hp : l[p]? = some ⟨k, v, .occupied⟩) :
    occupancy (l.set p ⟨k, v, .deleted⟩) = occupancy l - 1 := by
  obtain ⟨hlt, hget⟩ := List.getElem?_eq_some_iff.mp hp
  unfold occupancy
  rw [List.countP_set hlt, hget]
  simp

/-- The number of `DELETED` buckets. -/
def tombstones (buckets : List (Node T)) : Nat := buckets.countP fun node => node.status = .deleted

omit [Inhabited T] in
theorem exists_empty_iff {l : List (Node T)} :
    (∃ node ∈ l, node.status = .empty) ↔ occupancy l + tombstones l < l.length := by
  have hsum : occupancy l + tombstones l + l.countP (fun node => node.status = .empty)
      = l.length := by
    induction l with
    | nil => rfl
    | cons node l ih =>
      simp only [occupancy, tombstones, List.countP_cons, List.length_cons] at ih ⊢
      cases node.status <;> simp <;> omega
  rw [← hsum, Nat.lt_add_right_iff_pos, List.countP_pos_iff]
  simp

omit [Inhabited T] in
/-- Room in numbers: the occupied buckets and the tombstones together leave one over. -/
theorem hasRoom_iff {t : HashTable T} (hcount : t.sz = occupancy t.buckets) (k : Bytes) :
    t.HasRoom k ↔ t.sz + tombstones t.buckets < t.bucketsz ∨
      ∃ node ∈ t.buckets, node.status = .occupied ∧ node.key = k := by
  rw [hcount]
  exact or_congr exists_empty_iff Iff.rfl

omit [Inhabited T] in
/-- A table that is not full and has no tombstones has an empty bucket. -/
theorem exists_empty {l : List (Node T)} (hlt : occupancy l < l.length)
    (hdel : ∀ node ∈ l, node.status ≠ .deleted) : ∃ node ∈ l, node.status = .empty := by
  have hnone : tombstones l = 0 := List.countP_eq_zero.mpr fun node hn => by simp [hdel node hn]
  exact exists_empty_iff.mpr (by omega)

/-! ## The doubling rehash

A loop over the old buckets that inserts into new ones. Its invariant is that the new table stores
the part of the map that has been moved; that `find` never fails in it follows from the number of
its buckets. -/

/-- The new table after the buckets `done` of the old one have moved. -/
structure Moved (acc : HashTable T) (m : Bytes → Option T) (done : List (Node T)) (n sz : Nat) :
    Prop where
  stores : Stores acc.buckets m
  holds : ∀ k v, m k = some v ↔ (⟨k, v, .occupied⟩ : Node T) ∈ done
  length : acc.buckets.length = n
  live : ∀ node ∈ acc.buckets, node.status ≠ .deleted
  count : occupancy acc.buckets = occupancy done
  size : acc.sz = sz

theorem Moved.move {acc : HashTable T} {m : Bytes → Option T} {done : List (Node T)} {n sz : Nat}
    {node : Node T} (h : Moved acc m done n sz) (hroom : done.length < n)
    (hnew : ∀ v, node.status = .occupied → (⟨node.key, v, .occupied⟩ : Node T) ∉ done) :
    ∃ acc' m', acc.move node = .ok acc' ∧ Moved acc' m' (done ++ [node]) n sz := by
  by_cases hocc : node.status = .occupied
  · obtain ⟨k, v, st⟩ := node
    cases hocc
    have hk : m k = none := by
      cases hm : m k with
      | none => rfl
      | some w => exact absurd ((h.holds k w).mp hm) (hnew w rfl)
    have hemp := exists_empty (l := acc.buckets) (by
      have : occupancy done ≤ done.length := List.countP_le_length
      rw [h.count, h.length]
      omega) h.live
    obtain ⟨p, hfind, hp, hfree, hput⟩ := h.stores.find_absent hk hemp
    have hp' : p < acc.buckets.length := hp
    refine ⟨{ acc with buckets := acc.buckets.set p ⟨k, v, .occupied⟩ },
      Function.update m k (some v), ?_, ?_⟩
    · simp [HashTable.move, hfind, bind, Except.bind, pure, Except.pure]
    · refine ⟨hput v, ?_, by simpa using h.length, ?_, ?_, h.size⟩
      · intro k' v'
        by_cases hkk : k' = k
        · subst hkk
          rw [Function.update_self, List.mem_append, List.mem_singleton]
          constructor
          · intro hv
            cases hv
            exact Or.inr rfl
          · rintro (hm | hm)
            · exact absurd hm (hnew v' rfl)
            · cases hm
              rfl
        · rw [Function.update_of_ne hkk, h.holds, List.mem_append, List.mem_singleton]
          constructor
          · exact Or.inl
          · rintro (hm | hm)
            · exact hm
            · exact absurd (congrArg Node.key hm) hkk
      · intro node hn
        rcases (mem_set_iff hp').mp hn with rfl | ⟨i, _, hi⟩
        · simp
        · exact h.live node (List.mem_of_getElem? hi)
      · have hst : acc.buckets[p].status ≠ .occupied := by
          simpa [nodeAt, List.getElem?_eq_getElem hp'] using hfree
        show occupancy (acc.buckets.set p _) = _
        rw [occupancy_put hp' k v hst, h.count]
        simp [occupancy]
  · refine ⟨acc, m, by simp [HashTable.move, hocc], h.stores, ?_, h.length, h.live, ?_, h.size⟩
    · intro k v
      rw [h.holds, List.mem_append, List.mem_singleton]
      constructor
      · exact Or.inl
      · rintro (hm | hm)
        · exact hm
        · exact absurd (by rw [← hm]) hocc
    · rw [h.count]
      simp [occupancy, hocc]

/-- The whole loop: every bucket moves, because the new table has twice the room. -/
theorem Moved.moveAll {old : List (Node T)} {mo : Bytes → Option T} {n sz : Nat}
    (hold : Stores old mo) (hn : old.length < n) :
    ∀ (rest done : List (Node T)) (acc : HashTable T) (m : Bytes → Option T),
      old = done ++ rest → Moved acc m done n sz →
      ∃ acc' m', rest.foldlM HashTable.move acc = .ok acc' ∧ Moved acc' m' old n sz := by
  intro rest
  induction rest with
  | nil =>
    intro done acc m heq h
    rw [List.append_nil] at heq
    exact ⟨acc, m, rfl, heq ▸ h⟩
  | cons node rest ih =>
    intro done acc m heq h
    have hnew : ∀ v, node.status = .occupied → (⟨node.key, v, .occupied⟩ : Node T) ∉ done := by
      intro v hocc hm
      obtain ⟨i, hi⟩ := List.mem_iff_getElem?.mp hm
      have hilt : i < done.length := (List.getElem?_eq_some_iff.mp hi).1
      have h1 : old[i]? = some ⟨node.key, v, .occupied⟩ := by
        rw [heq, List.getElem?_append_left hilt, hi]
      have h2 : old[done.length]? = some ⟨node.key, node.value, .occupied⟩ := by
        rw [heq, List.getElem?_append_right (Nat.le_refl _)]
        simp [← hocc]
      have := hold.unique h1 h2
      omega
    have hlen : done.length < n := by
      rw [heq] at hn
      simp at hn
      omega
    obtain ⟨acc₁, m₁, hmove, h₁⟩ := h.move hlen hnew
    obtain ⟨acc', m', hrun, h'⟩ := ih (done ++ [node]) acc₁ m₁ (by simp [heq]) h₁
    refine ⟨acc', m', ?_, h'⟩
    rw [List.foldlM_cons, hmove]
    exact hrun

/-- `rehash` never throws, and keeps the map. -/
theorem rehash_spec {t : HashTable T} {m : Bytes → Option T} (hs : Stores t.buckets m)
    (hcount : t.sz = occupancy t.buckets) :
    ∃ t', t.rehash = .ok t' ∧ Represents t' m := by
  have hpos := hs.pos
  have hstart : Moved (⟨List.replicate (2 * t.bucketsz) blank, t.sz⟩ : HashTable T)
      (fun _ => none) [] (2 * t.bucketsz) t.sz := by
    refine ⟨⟨by simpa [bucketsz] using hpos, ?_, ?_⟩, by simp, by simp, ?_, ?_, rfl⟩
    · have : slots (List.replicate (2 * t.bucketsz) (blank : Node T)) = fun _ => .empty := by
        funext i
        simp only [slots, List.getElem?_replicate]
        split <;> rfl
      rw [this]
      exact Probing.laid_empty
    · intro k v
      simp [List.mem_replicate, blank]
    · intro node hn
      rw [(List.mem_replicate.mp hn).2]
      simp [blank]
    · simp [occupancy, List.countP_replicate, blank]
  have hlt : t.buckets.length < 2 * t.bucketsz := by
    show t.buckets.length < 2 * t.buckets.length
    omega
  obtain ⟨t', m', hrun, hm⟩ := Moved.moveAll hs hlt t.buckets [] _ _ rfl hstart
  have hmm : m' = m := by
    funext k
    refine Option.ext fun v => ?_
    rw [hm.holds, hs.holds]
  subst hmm
  refine ⟨t', hrun, hm.stores, ?_, ?_⟩
  · rw [hm.size, hcount, hm.count]
  · have hle : occupancy t.buckets ≤ t.buckets.length := List.countP_le_length
    rw [hm.size, hcount]
    show 4 * _ ≤ 3 * t'.buckets.length
    rw [hm.length]
    show _ ≤ 3 * (2 * t.buckets.length)
    omega

end HashTable
end Store
end KvJet
