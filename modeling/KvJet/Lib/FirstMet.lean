import Mathlib.Data.List.Nodup
import Mathlib.Data.List.Infix

/-!
# Collecting what is met on a walk

A walk is a sequence `f : ℕ → α`, and `met f k` is what its first `k` places hold, each thing once,
in the order in which they are first met. A search that goes on until `bound` things are met
(`collect`) need not end. On a walk around a circle of `n` places nothing new is met after the
first round, so it ends exactly if the round has `bound` different things (`exists_collect_iff`),
and then with the first `bound` of them.
-/

namespace FirstMet

variable {α : Type*} [DecidableEq α]

def met (f : ℕ → α) (k : ℕ) : List α := ((List.range k).map f).eraseDups

/-- Go on from place `k` until `bound` things are met, for `fuel` places at most. -/
def collect (f : ℕ → α) (bound : ℕ) : ℕ → ℕ → Option (List α)
  | 0, _ => none
  | fuel + 1, k =>
    if bound ≤ (met f k).length then some (met f k) else collect f bound fuel (k + 1)

variable {f : ℕ → α} {bound k n : ℕ}

theorem met_zero : met f 0 = [] := rfl

theorem mem_met {x : α} : x ∈ met f k ↔ ∃ j < k, f j = x := by
  simp [met, List.mem_eraseDups]

theorem eraseDups_concat (l : List α) (x : α) :
    (l ++ [x]).eraseDups = if x ∈ l then l.eraseDups else l.eraseDups ++ [x] := by
  rw [List.eraseDups_append]
  split
  · rename_i hin
    have hnone : [x].removeAll l = [] := by simp [List.removeAll, hin]
    rw [hnone, List.eraseDups_nil, List.append_nil]
  · rename_i hnew
    have hall : [x].removeAll l = [x] := by simp [List.removeAll, hnew]
    rw [hall]
    rfl

theorem eraseDups_filter (p : α → Bool) (l : List α) :
    (l.filter p).eraseDups = l.eraseDups.filter p := by
  induction l using List.reverseRecOn with
  | nil => rfl
  | append_singleton l x ih =>
    rw [List.filter_append, eraseDups_concat]
    by_cases hx : p x = true
    · have hlast : [x].filter p = [x] := List.filter_cons_of_pos hx
      rw [hlast, eraseDups_concat, ih]
      by_cases hin : x ∈ l
      · rw [if_pos hin, if_pos (List.mem_filter.mpr ⟨hin, hx⟩)]
      · have hout : x ∉ l.filter p := fun h => hin (List.mem_filter.mp h).1
        rw [if_neg hin, if_neg hout, List.filter_append, hlast]
    · have hlast : [x].filter p = [] := List.filter_cons_of_neg hx
      rw [hlast, List.append_nil, ih]
      split
      · rfl
      · rw [List.filter_append, hlast, List.append_nil]

/-- One more place. -/
theorem met_succ :
    met f (k + 1) = if f k ∈ met f k then met f k else met f k ++ [f k] := by
  unfold met
  rw [List.range_succ, List.map_append, List.map_singleton, eraseDups_concat]
  simp only [List.mem_eraseDups]

theorem nodup_met : (met f k).Nodup := by
  induction k with
  | zero => exact List.nodup_nil
  | succ k ih =>
    rw [met_succ]
    split
    · exact ih
    · rename_i hnew
      exact List.nodup_append.mpr ⟨ih, List.nodup_cons.mpr ⟨List.not_mem_nil, List.nodup_nil⟩,
        fun x hx y hy heq => hnew (List.mem_singleton.mp hy ▸ heq ▸ hx)⟩

theorem length_met_succ_le : (met f (k + 1)).length ≤ (met f k).length + 1 := by
  rw [met_succ]
  split
  · exact Nat.le_succ _
  · rw [List.length_append, List.length_singleton]

theorem met_prefix_succ : met f k <+: met f (k + 1) := by
  rw [met_succ]
  split
  · exact List.prefix_rfl
  · exact List.prefix_append _ _

/-- What was met stays in front. -/
theorem met_prefix {j : ℕ} (h : j ≤ k) : met f j <+: met f k := by
  induction h with
  | refl => exact List.prefix_rfl
  | step _ ih => exact ih.trans met_prefix_succ

/-- Where no two places hold the same, all of them are met. -/
theorem met_eq_map (hinj : ∀ i < k, ∀ j < k, f i = f j → i = j) :
    met f k = (List.range k).map f := by
  induction k with
  | zero => rfl
  | succ k ih =>
    have hnew : f k ∉ met f k := by
      intro hmem
      obtain ⟨j, hj, heq⟩ := mem_met.mp hmem
      have hsame : j = k := hinj j (Nat.lt_succ_of_lt hj) k (Nat.lt_succ_self k) heq
      exact absurd hj (hsame ▸ lt_irrefl _)
    rw [met_succ, if_neg hnew, List.range_succ, List.map_append, List.map_singleton,
      ih fun i hi j hj => hinj i (Nat.lt_succ_of_lt hi) j (Nat.lt_succ_of_lt hj)]

section Circle

variable (hcircle : ∀ k, f (k + n) = f k)

include hcircle

omit [DecidableEq α] in
theorem circle_mod : f k = f (k % n) := by
  have hrounds : ∀ q r, f (r + n * q) = f r := by
    intro q
    induction q with
    | zero => intro r; rw [Nat.mul_zero, Nat.add_zero]
    | succ q ih => intro r; rw [Nat.mul_succ, ← Nat.add_assoc, hcircle, ih]
  calc f k = f (k % n + n * (k / n)) := by rw [Nat.mod_add_div]
    _ = f (k % n) := hrounds _ _

/-- After a whole round there is nothing new. -/
theorem met_of_le (hpos : 0 < n) (hk : n ≤ k) : met f k = met f n := by
  induction hk with
  | refl => rfl
  | @step m hnm ih =>
    have hold : f m ∈ met f m := by
      rw [ih, mem_met]
      exact ⟨m % n, Nat.mod_lt _ hpos, (circle_mod hcircle).symm⟩
    rw [met_succ, if_pos hold, ih]

/-- On a circle of different things. -/
theorem met_eq_map_min (hpos : 0 < n) (hinj : ∀ i < n, ∀ j < n, f i = f j → i = j) :
    met f k = (List.range (min k n)).map f := by
  rcases Nat.le_total k n with h | h
  · rw [min_eq_left h]
    exact met_eq_map fun i hi j hj => hinj i (hi.trans_le h) j (hj.trans_le h)
  · rw [min_eq_right h, met_of_le hcircle hpos h]
    exact met_eq_map hinj

theorem met_prefix_round (hpos : 0 < n) : met f k <+: met f n := by
  rcases Nat.le_total k n with h | h
  · exact met_prefix h
  · rw [met_of_le hcircle hpos h]

/-- **What a search ends with.** -/
theorem collect_eq_some (hpos : 0 < n) : ∀ {fuel k : ℕ} {r : List α}, (met f k).length ≤ bound →
    collect f bound fuel k = some r → bound ≤ (met f n).length ∧ r = (met f n).take bound := by
  intro fuel
  induction fuel with
  | zero => intro k r _ h; exact absurd h (by simp [collect])
  | succ fuel ih =>
    intro k r hle h
    unfold collect at h
    split at h
    · -- a turn adds one at most, so the search stops right at the bound
      rename_i hge
      obtain rfl : met f k = r := Option.some.inj h
      have hlen : (met f k).length = bound := Nat.le_antisymm hle hge
      have hprefix : met f k <+: met f n := met_prefix_round hcircle hpos
      refine ⟨hlen ▸ hprefix.length_le, ?_⟩
      rw [← hlen]
      exact List.prefix_iff_eq_take.mp hprefix
    · rename_i hlt
      have hstep : (met f (k + 1)).length ≤ (met f k).length + 1 := length_met_succ_le
      exact ih (by omega) h

omit hcircle in
/-- With enough in a round the search ends before its end. -/
theorem exists_collect (hbound : bound ≤ (met f n).length) :
    ∀ fuel k : ℕ, k ≤ n → n < fuel + k → ∃ r, collect f bound fuel k = some r := by
  intro fuel
  -- a round is not over while there is less than it has
  induction fuel with
  | zero => intro k hk hfuel; omega
  | succ fuel ih =>
    intro k hk hfuel
    unfold collect
    split
    · exact ⟨_, rfl⟩
    · rename_i hlt
      have hne : k ≠ n := fun h => hlt (h ▸ hbound)
      exact ih (k + 1) (by omega) (by omega)

/-- **A search around a circle ends** exactly if a round has enough.

After one round nothing new is met, so what a search has not found by then it never finds. -/
theorem exists_collect_iff (bound : ℕ) (hpos : 0 < n) :
    (∃ fuel r, collect f bound fuel 0 = some r) ↔ bound ≤ (met f n).length := by
  constructor
  · rintro ⟨fuel, r, h⟩
    exact (collect_eq_some hcircle hpos (Nat.zero_le _) h).1
  · intro hbound
    obtain ⟨r, hr⟩ := exists_collect hbound (n + 1) 0 (Nat.zero_le n) (by omega)
    exact ⟨n + 1, r, hr⟩

end Circle

end FirstMet
