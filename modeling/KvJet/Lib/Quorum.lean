import Mathlib.Data.Finset.Card
import Mathlib.Data.List.Sort

/-!
# Counting in a sorted list

The value at position `k` of a list sorted from high to low is reached by at least `k + 1` of
its values. Where the values are reports of different people, so many people have reported it
or more (`card_reporters`).
-/

namespace Quorum

section Sorted

variable {α : Type*} [LinearOrder α]

theorem countP_take_sorted {l : List α} (h : l.Pairwise (· ≥ ·)) {k : Nat} (hk : k < l.length) :
    (l.take (k + 1)).countP (fun a => l[k] ≤ a) = k + 1 := by
  rw [List.countP_eq_length.mpr, List.length_take, Nat.min_eq_left hk]
  intro a ha
  obtain ⟨i, hi, rfl⟩ := List.mem_iff_getElem.mp ha
  rw [List.length_take] at hi
  rw [List.getElem_take, decide_eq_true_eq]
  rcases Nat.lt_or_ge i k with hlt | hge
  · exact List.pairwise_iff_getElem.mp h i k _ hk hlt
  · obtain rfl : i = k := by omega
    exact le_refl _

/-- **At least `k + 1` values reach the one at position `k`.** -/
theorem lt_countP_insertionSort (l : List α) {k : Nat} (hk : k < l.length) (d : α) :
    k < l.countP fun a => (l.insertionSort (· ≥ ·)).getD k d ≤ a := by
  have hlen : k < (l.insertionSort (· ≥ ·)).length := by rwa [List.length_insertionSort]
  rw [List.getD_eq_getElem?_getD, List.getElem?_eq_getElem hlen, Option.getD_some,
    ← (List.perm_insertionSort (· ≥ ·) l).countP_eq]
  calc k < k + 1 := Nat.lt_succ_self k
    _ = _ := (countP_take_sorted (List.pairwise_insertionSort (· ≥ ·) l) hlen).symm
    _ ≤ _ := (List.take_sublist _ _).countP_le

/-- **The value at position `k` lies above `b` if more than `k` values do.** -/
theorem lt_insertionSort_iff (l : List α) {k : Nat} (hk : k < l.length) (d b : α) :
    b < (l.insertionSort (· ≥ ·)).getD k d ↔ k < l.countP (b < ·) := by
  constructor
  · intro h
    refine Nat.lt_of_lt_of_le (lt_countP_insertionSort l hk d) (List.countP_mono_left fun a _ ha => ?_)
    simp only [decide_eq_true_eq] at ha ⊢
    exact lt_of_lt_of_le h ha
  · intro h
    by_contra hle
    have hlen : k < (l.insertionSort (· ≥ ·)).length := by rwa [List.length_insertionSort]
    rw [List.getD_eq_getElem?_getD, List.getElem?_eq_getElem hlen, Option.getD_some, not_lt] at hle
    -- what lies above `b` stands in front of position `k`
    have hdrop : ((l.insertionSort (· ≥ ·)).drop k).countP (b < ·) = 0 := by
      refine List.countP_eq_zero.mpr fun a ha => ?_
      obtain ⟨i, hi, rfl⟩ := List.mem_iff_getElem.mp ha
      rw [List.length_drop] at hi
      rw [List.getElem_drop, decide_eq_true_eq, not_lt]
      rcases Nat.eq_zero_or_pos i with rfl | hpos
      · exact hle
      · exact le_trans (List.pairwise_iff_getElem.mp (List.pairwise_insertionSort (· ≥ ·) l) k (k + i)
          hlen (by omega) (by omega)) hle
    have htake : ((l.insertionSort (· ≥ ·)).take k).countP (b < ·) ≤ k :=
      List.countP_le_length.trans (List.length_take_le _ _)
    have hall := congrArg (List.countP (b < ·)) (List.take_append_drop k (l.insertionSort (· ≥ ·)))
    rw [List.countP_append, hdrop, (List.perm_insertionSort (· ≥ ·) l).countP_eq] at hall
    omega

end Sorted

section Reports

variable {ι : Type*}

theorem exists_reporter {people : List ι} {reports : List Nat}
    (hlen : reports.length = people.length) {m : Nat} (hm : m ∈ reports) :
    ∃ v, (v, m) ∈ people.zip reports := by
  have hsnd : (people.zip reports).map Prod.snd = reports :=
    List.map_snd_zip (Nat.le_of_eq hlen)
  rw [← hsnd] at hm
  obtain ⟨⟨v, m⟩, hmem, rfl⟩ := List.mem_map.mp hm
  exact ⟨v, hmem⟩

variable [DecidableEq ι]

/-- Those of `people` whose report is `i` or more. -/
def reporters (people : List ι) (reports : List Nat) (i : Nat) : Finset ι :=
  (((people.zip reports).filter fun p => i ≤ p.2).map Prod.fst).toFinset

theorem mem_reporters {people : List ι} {reports : List Nat} {i : Nat} {v : ι} :
    v ∈ reporters people reports i ↔ ∃ m, (v, m) ∈ people.zip reports ∧ i ≤ m := by
  simp [reporters]

theorem reporters_subset {people : List ι} {reports : List Nat} {i : Nat} {v : ι}
    (h : v ∈ reporters people reports i) : v ∈ people := by
  obtain ⟨m, hm, -⟩ := mem_reporters.mp h
  exact (List.of_mem_zip hm).1

theorem card_reporters {people : List ι} {reports : List Nat} (hnodup : people.Nodup)
    (hlen : reports.length = people.length) (i : Nat) :
    (reporters people reports i).card = reports.countP (i ≤ ·) := by
  have hsub : (((people.zip reports).filter fun p => i ≤ p.2).map Prod.fst).Nodup := by
    refine List.Nodup.sublist (List.filter_sublist.map Prod.fst) ?_
    rwa [List.map_fst_zip (Nat.le_of_eq hlen.symm)]
  rw [reporters, List.toFinset_card_of_nodup hsub, List.length_map, ← List.countP_eq_length_filter]
  have hsnd : (people.zip reports).map Prod.snd = reports :=
    List.map_snd_zip (Nat.le_of_eq hlen)
  conv_rhs => rw [← hsnd, List.countP_map]
  rfl

end Reports

end Quorum
