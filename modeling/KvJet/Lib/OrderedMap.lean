import Mathlib.Order.Basic
import Mathlib.Data.List.Sort

/-!
# Maps as ordered lists

A map over linearly ordered keys is the list of its pairs in the order of the keys, each key
once. `insert` and `erase` keep that order, membership says what they do (`mem_insert`,
`mem_erase`), and two such lists with the same pairs are equal (`Ordered.ext`).

On a circle of keys, `next key m` is the first pair at or after `key`, and the first pair of all
where there is none. `next_of_subset` compares it over two maps, one inside the other.
-/

instance linearOrderUInt64 : LinearOrder UInt64 where
  le_refl := UInt64.le_refl
  le_trans _ _ _ := UInt64.le_trans
  le_antisymm _ _ := UInt64.le_antisymm
  le_total := UInt64.le_total
  lt_iff_le_not_ge a b := by
    rw [UInt64.lt_iff_toNat_lt, UInt64.le_iff_toNat_le, UInt64.le_iff_toNat_le]
    omega
  toDecidableLE := inferInstance
  toDecidableLT := inferInstance

namespace OrderedMap

variable {κ α : Type*} [LinearOrder κ]

def Ordered (m : List (κ × α)) : Prop := m.Pairwise fun p q => p.1 < q.1

def insert (key : κ) (value : α) : List (κ × α) → List (κ × α)
  | [] => [(key, value)]
  | (k, v) :: rest =>
    if key < k then (key, value) :: (k, v) :: rest
    else if key = k then (key, value) :: rest
    else (k, v) :: insert key value rest

def erase (key : κ) (m : List (κ × α)) : List (κ × α) := m.filter (·.1 ≠ key)

theorem ordered_nil : Ordered ([] : List (κ × α)) := List.Pairwise.nil

theorem Ordered.tail {p : κ × α} {m : List (κ × α)} (h : Ordered (p :: m)) : Ordered m :=
  List.Pairwise.of_cons h

theorem Ordered.head_lt {p q : κ × α} {m : List (κ × α)} (h : Ordered (p :: m)) (hq : q ∈ m) :
    p.1 < q.1 := List.rel_of_pairwise_cons h hq

/-! ## `insert` and `erase` -/

theorem mem_insert {key : κ} {value : α} {p : κ × α} {m : List (κ × α)} (h : Ordered m) :
    p ∈ insert key value m ↔ p = (key, value) ∨ (p ∈ m ∧ p.1 ≠ key) := by
  induction m with
  | nil => simp [insert]
  | cons q rest ih =>
    obtain ⟨k, v⟩ := q
    have hrest : ∀ r ∈ rest, k < r.1 := fun r hr => h.head_lt hr
    unfold insert
    split
    · rename_i hlt
      have hne : ∀ r ∈ (k, v) :: rest, r.1 ≠ key := by
        intro r hr
        rcases List.mem_cons.mp hr with rfl | hr
        · exact hlt.ne'
        · exact (hlt.trans (hrest r hr)).ne'
      rw [List.mem_cons]
      exact or_congr_right ⟨fun hp => ⟨hp, hne p hp⟩, And.left⟩
    · split
      · rename_i hkey
        subst hkey
        rw [List.mem_cons]
        refine or_congr_right ⟨fun hp => ⟨List.mem_cons_of_mem _ hp, (hrest p hp).ne'⟩, ?_⟩
        rintro ⟨hp, hne⟩
        rcases List.mem_cons.mp hp with rfl | hp
        · exact absurd rfl hne
        · exact hp
      · rename_i hkey
        rw [List.mem_cons, ih h.tail, List.mem_cons]
        constructor
        · rintro (rfl | hp | ⟨hp, hne⟩)
          · exact Or.inr ⟨Or.inl rfl, Ne.symm hkey⟩
          · exact Or.inl hp
          · exact Or.inr ⟨Or.inr hp, hne⟩
        · rintro (hp | ⟨hp | hp, hne⟩)
          · exact Or.inr (Or.inl hp)
          · exact Or.inl hp
          · exact Or.inr (Or.inr ⟨hp, hne⟩)

theorem Ordered.insert {m : List (κ × α)} (h : Ordered m) (key : κ) (value : α) :
    Ordered (insert key value m) := by
  induction m with
  | nil => exact List.pairwise_singleton _ _
  | cons q rest ih =>
    obtain ⟨k, v⟩ := q
    have hrest : ∀ r ∈ rest, k < r.1 := fun r hr => h.head_lt hr
    unfold OrderedMap.insert
    split
    · rename_i hlt
      refine List.pairwise_cons.mpr ⟨fun r hr => ?_, h⟩
      rcases List.mem_cons.mp hr with rfl | hr
      · exact hlt
      · exact hlt.trans (hrest r hr)
    · split
      · rename_i hkey
        subst hkey
        exact List.pairwise_cons.mpr ⟨hrest, h.tail⟩
      · rename_i hlt hkey
        refine List.pairwise_cons.mpr ⟨fun r hr => ?_, ih h.tail⟩
        rcases (mem_insert h.tail).mp hr with rfl | ⟨hr, -⟩
        · exact lt_of_le_of_ne (not_lt.mp hlt) (Ne.symm hkey)
        · exact hrest r hr

theorem mem_erase {key : κ} {p : κ × α} {m : List (κ × α)} :
    p ∈ erase key m ↔ p ∈ m ∧ p.1 ≠ key := by
  simp [erase]

theorem Ordered.erase {m : List (κ × α)} (h : Ordered m) (key : κ) : Ordered (erase key m) :=
  List.Pairwise.filter _ h

/-! ## Equality and lookup -/

theorem Ordered.nodup {m : List (κ × α)} (h : Ordered m) : m.Nodup :=
  List.Pairwise.imp (fun hlt heq => by rw [heq] at hlt; exact lt_irrefl _ hlt) h

/-- **Ordered maps with the same pairs are equal.** -/
theorem Ordered.nodup_keys {m : List (κ × α)} (h : Ordered m) : (m.map Prod.fst).Nodup := by
  refine List.pairwise_map.mpr (h.imp ?_)
  intro p q hlt heq
  exact absurd hlt (heq ▸ lt_irrefl _)

theorem Ordered.ext {m m' : List (κ × α)} (h : Ordered m) (h' : Ordered m')
    (hmem : ∀ p, p ∈ m ↔ p ∈ m') : m = m' := by
  have hperm : m.Perm m' := (List.perm_ext_iff_of_nodup h.nodup h'.nodup).mpr hmem
  exact hperm.eq_of_pairwise (fun p q _ _ hpq hqp => absurd hpq (lt_asymm hqp)) h h'

/-- A key has one value. -/
theorem Ordered.value_unique {m : List (κ × α)} (h : Ordered m) {key : κ} {v w : α}
    (hv : (key, v) ∈ m) (hw : (key, w) ∈ m) : v = w := by
  induction m with
  | nil => exact absurd hv (List.not_mem_nil)
  | cons q rest ih =>
    rcases List.mem_cons.mp hv with rfl | hv' <;> rcases List.mem_cons.mp hw with hq | hw'
    · exact (Prod.mk.inj hq).2.symm
    · exact absurd (h.head_lt hw') (lt_irrefl _)
    · exact absurd (hq ▸ h.head_lt hv') (lt_irrefl _)
    · exact ih h.tail hv' hw'

theorem Ordered.lookup_eq_some [BEq κ] [LawfulBEq κ] {m : List (κ × α)} (h : Ordered m) {key : κ}
    {v : α} : m.lookup key = some v ↔ (key, v) ∈ m := by
  induction m with
  | nil => simp
  | cons q rest ih =>
    obtain ⟨k, w⟩ := q
    rw [List.lookup_cons]
    by_cases hkey : key = k
    · subst hkey
      rw [beq_self_eq_true]
      refine ⟨fun hv => Option.some.inj hv ▸ List.mem_cons_self, fun hv => congrArg some ?_⟩
      exact h.value_unique List.mem_cons_self hv
    · rw [beq_false_of_ne hkey, List.mem_cons]
      refine (ih h.tail).trans ⟨Or.inr, fun hv => hv.resolve_left fun heq => ?_⟩
      exact hkey (Prod.mk.inj heq).1

section Lookup

variable [BEq κ] [LawfulBEq κ] {key key' : κ} {value : α}

@[simp] theorem lookup_insert_self (key : κ) (value : α) (m : List (κ × α)) :
    (insert key value m).lookup key = some value := by
  induction m with
  | nil => simp [insert]
  | cons q rest ih =>
    obtain ⟨k, v⟩ := q
    unfold insert
    split
    · simp
    · split
      · simp
      · rename_i hkey
        rw [List.lookup_cons, beq_false_of_ne hkey]
        exact ih

theorem lookup_insert_of_ne (h : key' ≠ key) (m : List (κ × α)) :
    (insert key value m).lookup key' = m.lookup key' := by
  induction m with
  | nil => simp [insert, h]
  | cons q rest ih =>
    obtain ⟨k, v⟩ := q
    unfold insert
    split
    · rw [List.lookup_cons, beq_false_of_ne h]
    · split
      · rename_i hkey
        subst hkey
        rw [List.lookup_cons, List.lookup_cons, beq_false_of_ne h]
      · rw [List.lookup_cons, List.lookup_cons, ih]

@[simp] theorem lookup_erase_self (key : κ) (m : List (κ × α)) :
    (erase key m).lookup key = none := by
  rw [List.lookup_eq_none_iff]
  intro p hp
  simpa using (mem_erase.mp hp).2.symm

theorem lookup_erase_of_ne (h : key' ≠ key) (m : List (κ × α)) :
    (erase key m).lookup key' = m.lookup key' := by
  induction m with
  | nil => rfl
  | cons q rest ih =>
    obtain ⟨k, v⟩ := q
    unfold erase at ih ⊢
    by_cases hk : k = key
    · subst hk
      rw [List.filter_cons_of_neg (by simp), ih, List.lookup_cons, beq_false_of_ne h]
    · rw [List.filter_cons_of_pos (by simpa using hk), List.lookup_cons, List.lookup_cons, ih]

theorem lookup_erase (key key' : κ) (m : List (κ × α)) :
    (erase key m).lookup key' = if key' = key then none else m.lookup key' := by
  split
  · rename_i h
    rw [h, lookup_erase_self]
  · rename_i h
    exact lookup_erase_of_ne h m

end Lookup

/-! ## Many at once -/

/-- The pairs of one map put into another. -/
def insertAll (entries m : List (κ × α)) : List (κ × α) :=
  entries.foldl (fun m entry => insert entry.1 entry.2 m) m

theorem Ordered.insertAll {m : List (κ × α)} (h : Ordered m) (entries : List (κ × α)) :
    Ordered (insertAll entries m) := by
  induction entries generalizing m with
  | nil => exact h
  | cons entry entries ih => exact ih (h.insert entry.1 entry.2)

theorem mem_insertAll {p : κ × α} {entries : List (κ × α)} (hentries : Ordered entries) :
    ∀ {m : List (κ × α)}, Ordered m →
      (p ∈ insertAll entries m ↔ p ∈ entries ∨ (p ∈ m ∧ p.1 ∉ entries.map Prod.fst)) := by
  induction entries with
  | nil => intro m _; simp [insertAll]
  | cons entry entries ih =>
    intro m h
    refine (ih hentries.tail (h.insert entry.1 entry.2)).trans ?_
    rw [mem_insert h, List.mem_cons, List.map_cons, List.mem_cons, not_or]
    have hfirst : p = entry → p.1 ∉ entries.map Prod.fst := by
      rintro rfl hmem
      obtain ⟨q, hq, heq⟩ := List.mem_map.mp hmem
      exact absurd (hentries.head_lt hq) (heq ▸ lt_irrefl _)
    constructor
    · rintro (hp | ⟨hp | ⟨hp, hne⟩, hkeys⟩)
      · exact Or.inl (Or.inr hp)
      · exact Or.inl (Or.inl hp)
      · exact Or.inr ⟨hp, hne, hkeys⟩
    · rintro ((hp | hp) | ⟨hp, hne, hkeys⟩)
      · exact Or.inr ⟨Or.inl hp, hfirst hp⟩
      · exact Or.inl hp
      · exact Or.inr ⟨Or.inr ⟨hp, hne⟩, hkeys⟩

/-- Pairs that agree on their keys, in any order. -/
theorem mem_insertAll_of_agree {p : κ × α} : ∀ {entries m : List (κ × α)}, Ordered m →
    (∀ e ∈ entries, ∀ e' ∈ entries ++ m, e.1 = e'.1 → e = e') →
      (p ∈ insertAll entries m ↔ p ∈ entries ∨ p ∈ m) := by
  intro entries
  induction entries with
  | nil => intro m _ _; simp [insertAll]
  | cons entry entries ih =>
    intro m h hagree
    have hmem : ∀ q, q ∈ insert entry.1 entry.2 m ↔ q = entry ∨ q ∈ m := by
      intro q
      rw [mem_insert h]
      refine or_congr_right' fun hne => and_iff_left_of_imp fun hq hkey => hne ?_
      refine (hagree entry List.mem_cons_self q ?_ hkey.symm).symm
      exact List.mem_append_right _ hq
    refine (ih (h.insert entry.1 entry.2) fun e he e' he' => ?_).trans ?_
    · refine hagree e (List.mem_cons_of_mem _ he) e' ?_
      rcases List.mem_append.mp he' with hin | hin
      · exact List.mem_append_left _ (List.mem_cons_of_mem _ hin)
      · rcases (hmem e').mp hin with rfl | hold
        · exact List.mem_append_left _ List.mem_cons_self
        · exact List.mem_append_right _ hold
    · rw [hmem, List.mem_cons]
      tauto

/-- **Nothing else is left of the other map** exactly if each of its keys is taken over. -/
theorem insertAll_eq_self_iff {entries m : List (κ × α)} (hentries : Ordered entries)
    (h : Ordered m) :
    insertAll entries m = entries ↔ ∀ p ∈ m, p.1 ∈ entries.map Prod.fst := by
  constructor
  · intro heq p hp
    by_contra hkey
    have hin := (mem_insertAll hentries h).mpr (Or.inr ⟨hp, hkey⟩)
    rw [heq] at hin
    exact hkey (List.mem_map_of_mem hin)
  · intro hall
    refine (h.insertAll entries).ext hentries fun p => ?_
    rw [mem_insertAll hentries h]
    exact ⟨fun hp => hp.elim id fun hp => absurd (hall p hp.1) hp.2, Or.inl⟩

/-! ## Around the circle -/

def next (key : κ) (m : List (κ × α)) : Option (κ × α) :=
  (m.find? fun p => key ≤ p.1).or m.head?

theorem Ordered.find_le {m : List (κ × α)} (h : Ordered m) {key : κ} {p : κ × α} :
    (m.find? fun q => key ≤ q.1) = some p ↔
      p ∈ m ∧ key ≤ p.1 ∧ ∀ q ∈ m, key ≤ q.1 → p.1 ≤ q.1 := by
  induction m with
  | nil => simp
  | cons q rest ih =>
    have hrest : ∀ r ∈ rest, q.1 < r.1 := fun r hr => h.head_lt hr
    by_cases hq : key ≤ q.1
    · rw [List.find?_cons_of_pos (by simpa using hq), Option.some.injEq]
      constructor
      · rintro rfl
        refine ⟨List.mem_cons_self, hq, fun r hr _ => ?_⟩
        rcases List.mem_cons.mp hr with rfl | hr
        · exact le_refl _
        · exact (hrest r hr).le
      · rintro ⟨hp, -, hleast⟩
        rcases List.mem_cons.mp hp with rfl | hp
        · rfl
        · exact absurd (hrest p hp) (not_lt.mpr (hleast q List.mem_cons_self hq))
    · rw [List.find?_cons_of_neg (by simpa using hq), ih h.tail]
      constructor
      · rintro ⟨hp, hle, hleast⟩
        refine ⟨List.mem_cons_of_mem _ hp, hle, fun r hr hr' => ?_⟩
        rcases List.mem_cons.mp hr with rfl | hr
        · exact absurd hr' hq
        · exact hleast r hr hr'
      · rintro ⟨hp, hle, hleast⟩
        rcases List.mem_cons.mp hp with rfl | hp
        · exact absurd hle hq
        · exact ⟨hp, hle, fun r hr => hleast r (List.mem_cons_of_mem _ hr)⟩

theorem Ordered.head_le {m : List (κ × α)} (h : Ordered m) {p : κ × α} (hp : m.head? = some p) :
    ∀ q ∈ m, p.1 ≤ q.1 := by
  cases m with
  | nil => exact absurd hp (by simp)
  | cons r rest =>
    obtain rfl : r = p := Option.some.inj hp
    intro q hq
    rcases List.mem_cons.mp hq with rfl | hq
    · exact le_refl _
    · exact (h.head_lt hq).le

theorem mem_of_next {key : κ} {m : List (κ × α)} {p : κ × α} (h : next key m = some p) :
    p ∈ m := by
  rcases Option.or_eq_some_iff.mp h with hfind | ⟨-, hhead⟩
  · exact List.mem_of_find?_eq_some hfind
  · exact List.mem_of_mem_head? hhead

theorem exists_next {key : κ} {m : List (κ × α)} (h : m ≠ []) : ∃ p, next key m = some p := by
  cases m with
  | nil => exact absurd rfl h
  | cons q rest =>
    cases hfind : (q :: rest).find? fun p => key ≤ p.1 with
    | some p => exact ⟨p, by rw [next, hfind, Option.some_or]⟩
    | none => exact ⟨q, by rw [next, hfind, Option.none_or, List.head?_cons]⟩

/-- The pair at `key` itself comes first. -/
theorem Ordered.next_self {m : List (κ × α)} (h : Ordered m) {p : κ × α} (hp : p ∈ m) :
    next p.1 m = some p := by
  have hfind : (m.find? fun q => p.1 ≤ q.1) = some p :=
    h.find_le.mpr ⟨hp, le_refl _, fun _ _ hle => hle⟩
  rw [next, hfind, Option.some_or]

/-- **A larger map answers from its new pairs, or as the smaller one does.**

The next key at or after `k` is the least one there, and a larger map has all the keys of the
smaller one: its least one is among them, or it is new. -/
theorem next_of_subset {m m' : List (κ × α)} (h : Ordered m) (h' : Ordered m') (hsub : m ⊆ m')
    {key : κ} {p : κ × α} (hp : next key m' = some p) (hold : p ∈ m) :
    next key m = some p := by
  rcases Option.or_eq_some_iff.mp hp with hfind | ⟨hnone, hhead⟩
  · obtain ⟨-, hle, hleast⟩ := h'.find_le.mp hfind
    have hfind' : (m.find? fun q => key ≤ q.1) = some p :=
      h.find_le.mpr ⟨hold, hle, fun q hq => hleast q (hsub hq)⟩
    rw [next, hfind', Option.some_or]
  · have hnone' : (m.find? fun q => key ≤ q.1) = none := by
      rw [List.find?_eq_none] at hnone ⊢
      exact fun q hq => hnone q (hsub hq)
    rw [next, hnone', Option.none_or]
    cases m with
    | nil => exact absurd hold List.not_mem_nil
    | cons q rest =>
      have hqp : q.1 ≤ p.1 := h.head_le rfl p hold
      have hpq : p.1 ≤ q.1 := h'.head_le hhead q (hsub List.mem_cons_self)
      obtain ⟨k, v⟩ := q
      obtain ⟨k', v'⟩ := p
      obtain rfl : k = k' := le_antisymm hqp hpq
      rw [List.head?_cons, h.value_unique List.mem_cons_self hold]

end OrderedMap
