import Mathlib.Data.List.Nodup
import Mathlib.Data.List.Range
import Mathlib.Logic.Function.Basic
import Mathlib.Tactic.ByCases

/-!
# Linear probing with tombstones

An open-addressing table of `n` slots, each empty, deleted (a tombstone) or occupied by a key.
A key is looked for along its probe path: from its home slot on, cyclically, once around.
The search stops at the key or at an empty slot, and in the second case answers the first
tombstone it passed, if any, so that an insertion can reuse it.

`Laid` is the invariant that makes the search find what is there: no key twice, and no empty
slot before a key on its own path. Putting a key where the search points and deleting keep it.
Turning the tombstones into empty slots (`sweep`), as a table does that stores only its live
slots, keeps it exactly when no tombstone lies before a key on its path (`laid_sweep_iff`).
-/

namespace Probing

inductive Slot (κ : Type*) where
  | empty
  | deleted
  | occupied (key : κ)
  deriving DecidableEq

/-- What a search for one key sees in a slot. -/
inductive Seen where
  | empty
  | deleted
  | hit
  | miss
deriving DecidableEq

/-! ## The search along a list of positions

Without the circle first: a list of positions, gone through from the front. -/

def scan (see : Nat → Seen) : List Nat → Option Nat → Option Nat
  | [], _ => none
  | i :: is, free =>
    match see i with
    | .empty => some (free.getD i)
    | .deleted => scan see is (some (free.getD i))
    | .hit => some i
    | .miss => scan see is free

theorem scan_hit {see : Nat → Seen} {i : Nat} (hi : see i = .hit) (post : List Nat) :
    ∀ (pre : List Nat) (free : Option Nat), (∀ j ∈ pre, see j ≠ .empty ∧ see j ≠ .hit) →
      scan see (pre ++ i :: post) free = some i := by
  intro pre
  induction pre with
  | nil => intro free _; simp [scan, hi]
  | cons j pre ih =>
    intro free h
    have hrest : ∀ l ∈ pre, see l ≠ .empty ∧ see l ≠ .hit := fun l hl => h l (by simp [hl])
    obtain ⟨he, hh⟩ := h j (by simp)
    cases hj : see j with
    | empty => exact absurd hj he
    | hit => exact absurd hj hh
    | deleted => simp only [List.cons_append, scan, hj]; exact ih _ hrest
    | miss => simp only [List.cons_append, scan, hj]; exact ih _ hrest

/-- With no hit before it, an empty slot ends the search: the answer is the first tombstone
passed so far, or the first free slot of the list. -/
theorem scan_free {see : Nat → Seen} :
    ∀ (pre post : List Nat) (e : Nat) (free : Option Nat), see e = .empty →
      (∀ j ∈ pre, see j ≠ .hit) →
      (∃ j, free = some j ∧ scan see (pre ++ e :: post) free = some j) ∨
      (free = none ∧ ∃ j p q, scan see (pre ++ e :: post) free = some j ∧
        pre ++ e :: post = p ++ j :: q ∧ (see j = .empty ∨ see j = .deleted) ∧
        ∀ l ∈ p, see l = .miss) := by
  intro pre
  induction pre with
  | nil =>
    intro post e free he _
    cases free with
    | none =>
      exact Or.inr ⟨rfl, e, [], post, by simp [scan, he], rfl, Or.inl he, by simp⟩
    | some j => exact Or.inl ⟨j, rfl, by simp [scan, he]⟩
  | cons i pre ih =>
    intro post e free he h
    have hrest : ∀ j ∈ pre, see j ≠ .hit := fun j hj => h j (by simp [hj])
    cases hi : see i with
    | hit => exact absurd hi (h i (by simp))
    | empty =>
      cases free with
      | none =>
        exact Or.inr ⟨rfl, i, [], pre ++ e :: post, by simp [scan, hi], rfl, Or.inl hi, by simp⟩
      | some j => exact Or.inl ⟨j, rfl, by simp [scan, hi]⟩
    | deleted =>
      rcases ih post e (some (free.getD i)) he hrest with ⟨j, hj, hs⟩ | ⟨hn, _⟩
      · cases free with
        | none =>
          cases hj
          refine Or.inr ⟨rfl, i, [], pre ++ e :: post, ?_, rfl, Or.inr hi, by simp⟩
          simpa [scan, hi] using hs
        | some f =>
          cases hj
          exact Or.inl ⟨f, rfl, by simpa [scan, hi] using hs⟩
      · exact absurd hn (by simp)
    | miss =>
      rcases ih post e free he hrest with ⟨j, hj, hs⟩ | ⟨hn, j, p, q, hs, heq, hfree, hp⟩
      · exact Or.inl ⟨j, hj, by simpa [scan, hi] using hs⟩
      · refine Or.inr ⟨hn, j, i :: p, q, by simpa [scan, hi] using hs, by simp [heq], hfree, ?_⟩
        intro l hl
        rcases List.mem_cons.mp hl with rfl | hl
        · exact hi
        · exact hp l hl

/-- Nothing is answered if there is neither a hit nor an empty slot: a tombstone alone does not end
the search, so a list of nothing but tombstones and misses is gone through to its end. -/
theorem scan_eq_none_iff {see : Nat → Seen} (is : List Nat) :
    ∀ free : Option Nat, scan see is free = none ↔ ∀ j ∈ is, see j ≠ .hit ∧ see j ≠ .empty := by
  induction is with
  | nil => exact fun free => iff_of_true rfl nofun
  | cons i is ih =>
    intro free
    rw [List.forall_mem_cons]
    cases hi : see i with
    | empty => exact iff_of_false (by simp [scan, hi]) fun hall => hall.1.2 rfl
    | hit => exact iff_of_false (by simp [scan, hi]) fun hall => hall.1.1 rfl
    | deleted =>
      simp only [scan, hi, ih]
      exact (and_iff_right ⟨nofun, nofun⟩).symm
    | miss =>
      simp only [scan, hi, ih]
      exact (and_iff_right ⟨nofun, nofun⟩).symm

/-- What is answered is a slot of the list that is no miss, or the tombstone from before it. -/
theorem scan_eq_some {see : Nat → Seen} (is : List Nat) : ∀ {free : Option Nat} {p : Nat},
    scan see is free = some p → free = some p ∨ p ∈ is ∧ see p ≠ .miss := by
  induction is with
  | nil => exact fun h => nomatch h
  | cons i is ih =>
    intro free p h
    have hfirst : ∀ see', see i = see' → see' ≠ .miss → free.getD i = p →
        free = some p ∨ p ∈ i :: is ∧ see p ≠ .miss := by
      intro see' hi hsee hp
      cases free with
      | some j => exact Or.inl (congrArg some hp)
      | none =>
        obtain rfl : i = p := hp
        exact Or.inr ⟨List.mem_cons_self, hi ▸ hsee⟩
    cases hi : see i with
    | empty =>
      simp only [scan, hi, Option.some.injEq] at h
      exact hfirst _ hi nofun h
    | hit =>
      simp only [scan, hi, Option.some.injEq] at h
      subst h
      exact Or.inr ⟨List.mem_cons_self, by rw [hi]; nofun⟩
    | deleted =>
      simp only [scan, hi] at h
      rcases ih h with hfree | ⟨hin, hsee⟩
      · exact hfirst _ hi nofun (Option.some.inj hfree)
      · exact Or.inr ⟨List.mem_cons_of_mem _ hin, hsee⟩
    | miss =>
      simp only [scan, hi] at h
      rcases ih h with hfree | ⟨hin, hsee⟩
      · exact Or.inl hfree
      · exact Or.inr ⟨List.mem_cons_of_mem _ hin, hsee⟩

/-! ## The probe path

The circle from the home slot on, as a list in which each slot comes once. -/

/-- The slots in the order in which a key with home `h` is looked for. -/
def path (n h : Nat) : List Nat := (List.range n).map fun d => (h + d) % n

theorem mem_path {n h i : Nat} (hh : h < n) : i ∈ path n h ↔ i < n := by
  simp only [path, List.mem_map, List.mem_range]
  constructor
  · rintro ⟨d, _, rfl⟩
    exact Nat.mod_lt _ (by omega)
  · intro hi
    by_cases hle : h ≤ i
    · exact ⟨i - h, by omega, by rw [Nat.add_sub_cancel' hle, Nat.mod_eq_of_lt hi]⟩
    · refine ⟨i + n - h, by omega, ?_⟩
      rw [show h + (i + n - h) = i + n by omega, Nat.add_mod_right, Nat.mod_eq_of_lt hi]

theorem add_mod_eq {n h d : Nat} (hh : h < n) (hd : d < n) :
    (h + d) % n = if h + d < n then h + d else h + d - n := by
  split
  · rename_i hlt
    exact Nat.mod_eq_of_lt hlt
  · rename_i hge
    rw [Nat.mod_eq_sub_mod (by omega), Nat.mod_eq_of_lt (by omega)]

theorem nodup_path {n h : Nat} (hh : h < n) : (path n h).Nodup := by
  refine List.Nodup.map_on ?_ List.nodup_range
  intro a ha b hb hab
  rw [List.mem_range] at ha hb
  rw [add_mod_eq hh ha, add_mod_eq hh hb] at hab
  split at hab <;> split at hab <;> omega

/-- A slot occurs once on a path, so what lies before it is determined. -/
theorem path_split_unique {n h i : Nat} (hh : h < n) {p q p' q' : List Nat}
    (h₁ : path n h = p ++ i :: q) (h₂ : path n h = p' ++ i :: q') : p = p' := by
  have hnd := nodup_path (n := n) hh
  have hi : i ∉ p := by
    intro hm
    rw [h₁] at hnd
    exact (List.nodup_append.mp hnd).2.2 i hm i (by simp) rfl
  have hi' : i ∉ p' := by
    intro hm
    rw [h₂] at hnd
    exact (List.nodup_append.mp hnd).2.2 i hm i (by simp) rfl
  have heq : p ++ i :: q = p' ++ i :: q' := h₁.symm.trans h₂
  rcases List.append_eq_append_iff.mp heq with ⟨a, ha, hb⟩ | ⟨a, ha, hb⟩
  · cases a with
    | nil => simpa using ha.symm
    | cons x xs =>
      simp only [List.cons_append, List.cons.injEq] at hb
      exact absurd (by rw [ha, ← hb.1]; simp) hi'
  · cases a with
    | nil => simpa using ha
    | cons x xs =>
      simp only [List.cons_append, List.cons.injEq] at hb
      exact absurd (by rw [ha, ← hb.1]; simp) hi

/-! ## Tables -/

variable {κ : Type*}

def Slot.seenFor [DecidableEq κ] (k : κ) : Slot κ → Seen
  | .empty => .empty
  | .deleted => .deleted
  | .occupied key => if key = k then .hit else .miss

/-- The slot a search for `k` points to. -/
def search [DecidableEq κ] (n : Nat) (home : κ → Nat) (slots : Nat → Slot κ) (k : κ) : Option Nat :=
  scan (fun i => (slots i).seenFor k) (path n (home k)) none

/-- The slots `p` lie before `i` on the path of `k`. -/
def Before (n : Nat) (home : κ → Nat) (k : κ) (p : List Nat) (i : Nat) : Prop :=
  ∃ q, path n (home k) = p ++ i :: q

/-- No key is in two slots, and no slot before a key on its path is empty. This is what a search
relies on, since it stops at the first empty slot; a deletion keeps it because it leaves a
tombstone, which is not empty. -/
structure Laid (n : Nat) (home : κ → Nat) (slots : Nat → Slot κ) : Prop where
  unique : ∀ i j k, i < n → j < n → slots i = .occupied k → slots j = .occupied k → i = j
  chain : ∀ i k p, i < n → slots i = .occupied k → Before n home k p i →
    ∀ j ∈ p, slots j ≠ .empty

variable {n : Nat} {home : κ → Nat} {slots : Nat → Slot κ}

theorem exists_before (hh : ∀ k, home k < n) {i : Nat} (hi : i < n) (k : κ) :
    ∃ p, Before n home k p i := by
  obtain ⟨p, q, hpq⟩ := List.append_of_mem ((mem_path (hh k)).mpr hi)
  exact ⟨p, q, hpq⟩

theorem Before.lt (hh : ∀ k, home k < n) {k : κ} {p : List Nat} {i : Nat}
    (h : Before n home k p i) : ∀ j ∈ p, j < n := by
  intro j hj
  obtain ⟨q, hq⟩ := h
  exact (mem_path (hh k)).mp (by rw [hq]; simp [hj])

section Search

variable [DecidableEq κ]

theorem seenFor_eq_hit {s : Slot κ} {k : κ} : s.seenFor k = .hit ↔ s = .occupied k := by
  cases s <;> simp [Slot.seenFor]

theorem seenFor_eq_empty {s : Slot κ} {k : κ} : s.seenFor k = .empty ↔ s = .empty := by
  cases s <;> simp [Slot.seenFor]
  split <;> simp

theorem seenFor_eq_deleted {s : Slot κ} {k : κ} : s.seenFor k = .deleted ↔ s = .deleted := by
  cases s <;> simp [Slot.seenFor]
  split <;> simp

theorem seenFor_eq_miss {s : Slot κ} {k : κ} (h : s.seenFor k = .miss) :
    ∃ k', s = .occupied k' := by
  cases s with
  | occupied k' => exact ⟨k', rfl⟩
  | _ => exact absurd h (by simp [Slot.seenFor])

/-- **A laid table finds every key it holds.**

The search follows the path of the key, and on it nothing is empty before the slot that holds the
key; so it gets there, whatever tombstones it has passed. -/
theorem Laid.search_occupied (hl : Laid n home slots) (hh : ∀ k, home k < n) {i : Nat} {k : κ}
    (hi : i < n) (hk : slots i = .occupied k) : search n home slots k = some i := by
  obtain ⟨p, hp⟩ := exists_before hh hi k
  have hchain := hl.chain i k p hi hk hp
  have hlt := hp.lt hh
  obtain ⟨q, hq⟩ := hp
  unfold search
  rw [hq]
  refine scan_hit (seenFor_eq_hit.mpr hk) q p none ?_
  intro j hj
  refine ⟨fun he => hchain j hj (seenFor_eq_empty.mp he), fun hhit => ?_⟩
  -- a second slot with the key would be this one, which occurs only once on the path
  have hji := hl.unique j i k (hlt j hj) hi (seenFor_eq_hit.mp hhit) hk
  subst hji
  have hnd := nodup_path (n := n) (hh k)
  rw [hq] at hnd
  exact (List.nodup_append.mp hnd).2.2 j hj j (by simp) rfl

/-- A key that is nowhere is answered with the first free slot of its path, if there is an
empty slot at all. -/
theorem search_absent (hh : ∀ k, home k < n) {k : κ}
    (habs : ∀ i < n, slots i ≠ .occupied k) (hemp : ∃ e < n, slots e = .empty) :
    ∃ j p, search n home slots k = some j ∧ j < n ∧ Before n home k p j ∧
      (slots j = .empty ∨ slots j = .deleted) ∧ ∀ l ∈ p, ∃ k', slots l = .occupied k' := by
  obtain ⟨e, he, hee⟩ := hemp
  obtain ⟨pre, hpre⟩ := exists_before hh he k
  have hlt := hpre.lt hh
  obtain ⟨post, hpost⟩ := hpre
  have hmiss : ∀ j ∈ pre, (slots j).seenFor k ≠ .hit := fun j hj hhit =>
    habs j (hlt j hj) (seenFor_eq_hit.mp hhit)
  rcases scan_free pre post e none (seenFor_eq_empty.mpr hee) hmiss with
    ⟨j, hj, -⟩ | ⟨-, j, p, q, hs, heq, hfree, hp⟩
  · exact absurd hj (by simp)
  · refine ⟨j, p, ?_, ?_, ⟨q, hpost.trans heq⟩, ?_, fun l hl => seenFor_eq_miss (hp l hl)⟩
    · unfold search
      rw [hpost]
      exact hs
    · exact (mem_path (hh k)).mp (by rw [hpost, heq]; simp)
    · rcases hfree with h | h
      · exact Or.inl (seenFor_eq_empty.mp h)
      · exact Or.inr (seenFor_eq_deleted.mp h)

/-- The search fails exactly when every slot is taken or a tombstone, and the key is nowhere. The
table need not be laid: the path goes through all slots. -/
theorem search_eq_none_iff (hh : ∀ k, home k < n) {k : κ} :
    search n home slots k = none ↔ ∀ i < n, slots i ≠ .empty ∧ slots i ≠ .occupied k := by
  have hslot : ∀ i, (slots i).seenFor k ≠ .hit ∧ (slots i).seenFor k ≠ .empty ↔
      slots i ≠ .empty ∧ slots i ≠ .occupied k := by
    intro i
    rw [ne_eq, seenFor_eq_hit, ne_eq, seenFor_eq_empty]
    exact and_comm
  unfold search
  rw [scan_eq_none_iff]
  constructor
  · exact fun h i hi => (hslot i).mp (h i ((mem_path (hh k)).mpr hi))
  · exact fun h i hi => (hslot i).mpr (h i ((mem_path (hh k)).mp hi))

/-- Where it points, there is the key, or no key. -/
theorem search_eq_some (hh : ∀ k, home k < n) {k : κ} {p : Nat}
    (h : search n home slots k = some p) :
    p < n ∧ ∀ k', slots p = .occupied k' → k' = k := by
  rcases scan_eq_some _ h with hnone | ⟨hin, hsee⟩
  · exact nomatch hnone
  · refine ⟨(mem_path (hh k)).mp hin, fun k' hk' => ?_⟩
    by_contra hne
    exact hsee (by simp [Slot.seenFor, hk', hne])

end Search

/-! ## What keeps a table laid

There are three ways to write a slot, and each is allowed where it makes no slot empty that a key
lies behind. -/

theorem laid_empty : Laid n home fun _ => Slot.empty where
  unique := by intro i j k _ _ h; exact absurd h (by simp)
  chain := by intro i k p _ h; exact absurd h (by simp)

/-- Putting an absent key into a free slot with only taken slots before it. -/
theorem Laid.put (hl : Laid n home slots) (hh : ∀ k, home k < n) {k : κ} {j : Nat} {p : List Nat}
    (habs : ∀ i < n, slots i ≠ .occupied k) (hp : Before n home k p j)
    (hfull : ∀ l ∈ p, ∃ k', slots l = .occupied k')
    (hfree : slots j = .empty ∨ slots j = .deleted) :
    Laid n home (Function.update slots j (.occupied k)) := by
  have hnotocc : ∀ k', slots j ≠ .occupied k' := by
    intro k' h
    rcases hfree with h' | h' <;> rw [h'] at h <;> exact absurd h (by simp)
  have hold : ∀ {i : Nat} {k' : κ}, i ≠ j →
      Function.update slots j (.occupied k) i = .occupied k' → slots i = .occupied k' := by
    intro i k' hij h
    rwa [Function.update_of_ne hij] at h
  constructor
  · intro a b k' ha hb hka hkb
    by_cases haj : a = j <;> by_cases hbj : b = j
    · rw [haj, hbj]
    · subst haj
      rw [Function.update_self] at hka
      cases hka
      exact absurd (hold hbj hkb) (habs b hb)
    · subst hbj
      rw [Function.update_self] at hkb
      cases hkb
      exact absurd (hold haj hka) (habs a ha)
    · exact hl.unique a b k' ha hb (hold haj hka) (hold hbj hkb)
  · intro i k' p' hi hk hp' l hl'
    by_cases hlj : l = j
    · subst hlj
      rw [Function.update_self]
      simp
    rw [Function.update_of_ne hlj]
    by_cases hij : i = j
    · subst hij
      rw [Function.update_self] at hk
      cases hk
      obtain ⟨q, hq⟩ := hp
      obtain ⟨q', hq'⟩ := hp'
      have hpp : p' = p := path_split_unique (hh k) hq' hq
      obtain ⟨k'', hk''⟩ := hfull l (hpp ▸ hl')
      rw [hk'']
      simp
    · exact hl.chain i k' p' hi (hold hij hk) hp' l hl'

theorem Laid.delete (hl : Laid n home slots) (j : Nat) :
    Laid n home (Function.update slots j .deleted) := by
  have hold : ∀ {i : Nat} {k : κ}, Function.update slots j .deleted i = .occupied k →
      slots i = .occupied k := by
    intro i k h
    by_cases hij : i = j
    · subst hij
      rw [Function.update_self] at h
      exact absurd h (by simp)
    · rwa [Function.update_of_ne hij] at h
  constructor
  · intro a b k ha hb hka hkb
    exact hl.unique a b k ha hb (hold hka) (hold hkb)
  · intro i k p hi hk hp l hlp
    by_cases hlj : l = j
    · subst hlj
      rw [Function.update_self]
      simp
    · rw [Function.update_of_ne hlj]
      exact hl.chain i k p hi (hold hk) hp l hlp

/-! ## Sweeping the tombstones

A snapshot does this to a table. It is the one way of writing that can leave a key behind an empty
slot. -/

/-- Every tombstone becomes an empty slot. -/
def sweep (slots : Nat → Slot κ) (i : Nat) : Slot κ :=
  match slots i with
  | .occupied k => .occupied k
  | _ => .empty

/-- No tombstone lies before a key on its path. -/
def Unburied (n : Nat) (home : κ → Nat) (slots : Nat → Slot κ) : Prop :=
  ∀ i k p, i < n → slots i = .occupied k → Before n home k p i → ∀ j ∈ p, slots j ≠ .deleted

theorem sweep_eq_occupied {i : Nat} {k : κ} :
    sweep slots i = .occupied k ↔ slots i = .occupied k := by
  unfold sweep
  cases slots i <;> simp

theorem sweep_eq_empty {i : Nat} (h : ∀ k, slots i ≠ .occupied k) : sweep slots i = .empty := by
  unfold sweep
  cases hi : slots i with
  | occupied k => exact absurd hi (h k)
  | _ => rfl

theorem sweep_ne_deleted {i : Nat} : sweep slots i ≠ .deleted := by
  unfold sweep
  cases slots i <;> simp

theorem laid_sweep_iff (hl : Laid n home slots) :
    Laid n home (sweep slots) ↔ Unburied n home slots := by
  constructor
  · intro hs i k p hi hk hp j hj hdel
    refine hs.chain i k p hi (sweep_eq_occupied.mpr hk) hp j hj (sweep_eq_empty ?_)
    intro k' h
    rw [hdel] at h
    exact absurd h (by simp)
  · intro hu
    constructor
    · intro i j k hi hj hki hkj
      exact hl.unique i j k hi hj (sweep_eq_occupied.mp hki) (sweep_eq_occupied.mp hkj)
    · intro i k p hi hk hp j hj hemp
      have hk' := sweep_eq_occupied.mp hk
      cases hsj : slots j with
      | empty => exact hl.chain i k p hi hk' hp j hj hsj
      | deleted => exact hu i k p hi hk' hp j hj hsj
      | occupied k' =>
        rw [sweep_eq_occupied.mpr hsj] at hemp
        exact absurd hemp (by simp)

/-- A buried key is lost by the sweep: the search stops at the emptied slot before it. -/
theorem search_sweep_buried [DecidableEq κ] (hl : Laid n home slots) (hh : ∀ k, home k < n) {i j : Nat} {k : κ}
    {p : List Nat} (hi : i < n) (hk : slots i = .occupied k) (hp : Before n home k p i)
    (hj : j ∈ p) (hdel : slots j = .deleted) :
    ∃ e, search n home (sweep slots) k = some e ∧ sweep slots e = .empty := by
  have hlt := hp.lt hh
  obtain ⟨q, hq⟩ := hp
  obtain ⟨a, b, hab⟩ := List.append_of_mem hj
  have hje : sweep slots j = .empty := sweep_eq_empty fun k' h => by
    rw [hdel] at h
    exact absurd h (by simp)
  have hmiss : ∀ l ∈ a, (sweep slots l).seenFor k ≠ .hit := by
    intro l hla hhit
    have hll : l ∈ p := by rw [hab]; simp [hla]
    have heq := hl.unique l i k (hlt l hll) hi
      (sweep_eq_occupied.mp (seenFor_eq_hit.mp hhit)) hk
    have hnd := nodup_path (n := n) (hh k)
    rw [hq] at hnd
    exact (List.nodup_append.mp hnd).2.2 l hll i (by simp) heq
  have hpath : path n (home k) = a ++ j :: (b ++ i :: q) := by
    rw [hq, hab]
    simp
  rcases scan_free a (b ++ i :: q) j none (seenFor_eq_empty.mpr hje) hmiss with
    ⟨e, he, -⟩ | ⟨-, e, p', q', hs, -, hfree, -⟩
  · exact absurd he (by simp)
  · refine ⟨e, ?_, ?_⟩
    · unfold search
      rw [hpath]
      exact hs
    · rcases hfree with h | h
      · exact seenFor_eq_empty.mp h
      · exact absurd (seenFor_eq_deleted.mp h) sweep_ne_deleted

end Probing
