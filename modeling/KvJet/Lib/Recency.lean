import Mathlib.Data.List.Basic

/-!
# Recency lists

A list of keys in the order in which they were last touched, with room for `cap` of them: `set`
lists its key and `access` does not, both move it to the end, and a key that is new pushes out the
first one where there is no more room.

The order is read off the history of the calls: `Before calls x y` says that the last touch of `x`
comes before one of `y`. `Ranked` says that a list is in that order, and `Ranked.step` is the rule
for one more call.
-/

namespace Recency

variable {κ : Type*}

inductive Call (κ : Type*) where
  | set (x : κ)
  | access (x : κ)
  | del (x : κ)
  | clear
deriving DecidableEq, Repr

/-- `set` and `access` touch their key, listed or not. -/
def Call.Touches (x : κ) : Call κ → Prop
  | .set y => y = x
  | .access y => y = x
  | .del _ => False
  | .clear => False

theorem touches_set (x y : κ) : (Call.set x).Touches y ↔ x = y := Iff.rfl

theorem touches_access (x y : κ) : (Call.access x).Touches y ↔ x = y := Iff.rfl

section List

variable [DecidableEq κ]

/-- The list with `x` at its end. -/
def touch (x : κ) (l : List κ) : List κ := l.filter (· ≠ x) ++ [x]

/-- The list after a call. -/
def step (cap : Nat) (l : List κ) : Call κ → List κ
  | .set x =>
    if x ∈ l then touch x l
    else if cap < (l ++ [x]).length then (l ++ [x]).tail
    else l ++ [x]
  | .access x => if x ∈ l then touch x l else l
  | .del x => l.filter (· ≠ x)
  | .clear => []

/-- The key that a call pushes out. -/
def pushedOut (cap : Nat) (l : List κ) : Call κ → Option κ
  | .set x => if x ∉ l ∧ cap < (l ++ [x]).length then (l ++ [x]).head? else none
  | _ => none

theorem step_set (cap : Nat) (l : List κ) (x : κ) :
    step cap l (.set x) = if x ∈ l then touch x l
      else if cap < (l ++ [x]).length then (l ++ [x]).tail else l ++ [x] := rfl

theorem step_access (cap : Nat) (l : List κ) (x : κ) :
    step cap l (.access x) = if x ∈ l then touch x l else l := rfl

theorem pushedOut_set (cap : Nat) (l : List κ) (x : κ) :
    pushedOut cap l (.set x)
      = if x ∉ l ∧ cap < (l ++ [x]).length then (l ++ [x]).head? else none := rfl

end List

/-! ## The order of the last touches -/

/-- After the last touch of `x` there is one of `y`. -/
def Before (calls : List (Call κ)) (x y : κ) : Prop :=
  ∃ early late, calls = early ++ late ∧ (∃ c ∈ early, c.Touches x) ∧
    (∀ c ∈ late, ¬ c.Touches x) ∧ ∃ c ∈ late, c.Touches y

theorem Before.concat {calls : List (Call κ)} {x y : κ} (h : Before calls x y) {c : Call κ}
    (hc : ¬ c.Touches x) : Before (calls ++ [c]) x y := by
  obtain ⟨early, late, rfl, hx, hlast, d, hd, hy⟩ := h
  refine ⟨early, late ++ [c], List.append_assoc _ _ _, hx, ?_, d, List.mem_append_left _ hd, hy⟩
  intro e he
  rcases List.mem_append.mp he with hin | hin
  · exact hlast e hin
  · exact List.mem_singleton.mp hin ▸ hc

/-- A call that touches `y` comes after whatever was touched before it. -/
theorem before_concat {calls : List (Call κ)} {x y : κ} {c : Call κ}
    (hx : ∃ d ∈ calls, d.Touches x) (hc : c.Touches y) (hne : ¬ c.Touches x) :
    Before (calls ++ [c]) x y := by
  refine ⟨calls, [c], rfl, hx, ?_, c, List.mem_singleton_self c, hc⟩
  intro e he
  exact List.mem_singleton.mp he ▸ hne

/-- Keys that were touched, each once, the one whose last touch is longest ago first. -/
structure Ranked (calls : List (Call κ)) (l : List κ) : Prop where
  nodup : l.Nodup
  touched : ∀ x ∈ l, ∃ c ∈ calls, c.Touches x
  order : l.Pairwise (Before calls)

namespace Ranked

variable {calls : List (Call κ)} {l l' : List κ}

theorem nil : Ranked calls [] where
  nodup := List.nodup_nil
  touched := fun _ hx => absurd hx List.not_mem_nil
  order := List.Pairwise.nil

theorem sublist (h : Ranked calls l) (hsub : l'.Sublist l) : Ranked calls l' where
  nodup := h.nodup.sublist hsub
  touched := fun x hx => h.touched x (hsub.subset hx)
  order := h.order.sublist hsub

/-- A call that touches none of them. -/
theorem quiet (h : Ranked calls l) {c : Call κ} (hc : ∀ x ∈ l, ¬ c.Touches x) :
    Ranked (calls ++ [c]) l where
  nodup := h.nodup
  touched := by
    intro x hx
    obtain ⟨d, hd, htouch⟩ := h.touched x hx
    exact ⟨d, List.mem_append_left _ hd, htouch⟩
  order := h.order.imp_of_mem fun hx _ hbefore => hbefore.concat (hc _ hx)

/-- A call that touches `x` puts it behind the others. -/
theorem push (h : Ranked calls l) {x : κ} {c : Call κ} (hc : ∀ y, c.Touches y ↔ x = y)
    (hx : x ∉ l) : Ranked (calls ++ [c]) (l ++ [x]) := by
  have hothers : ∀ y ∈ l, ¬ c.Touches y := fun y hy htouch => hx ((hc y).mp htouch ▸ hy)
  have hquiet := h.quiet hothers
  refine ⟨?_, ?_, ?_⟩
  · rw [List.nodup_append]
    refine ⟨h.nodup, List.pairwise_singleton _ _, fun y hy z hz heq => hx ?_⟩
    rw [← List.mem_singleton.mp hz, ← heq]
    exact hy
  · intro y hy
    rcases List.mem_append.mp hy with hin | hin
    · exact hquiet.touched y hin
    · rw [List.mem_singleton.mp hin]
      exact ⟨c, List.mem_append_right _ (List.mem_singleton_self c), (hc x).mpr rfl⟩
  · rw [List.pairwise_append]
    refine ⟨hquiet.order, List.pairwise_singleton _ _, fun y hy z hz => ?_⟩
    rw [List.mem_singleton.mp hz]
    exact before_concat (h.touched y hy) ((hc x).mpr rfl) (hothers y hy)

variable [DecidableEq κ] {cap : Nat}

/-- A listed key moves to the end. -/
theorem touch (h : Ranked calls l) {x : κ} {c : Call κ} (hc : ∀ y, c.Touches y ↔ x = y) :
    Ranked (calls ++ [c]) (Recency.touch x l) :=
  (h.sublist List.filter_sublist).push hc (by simp)

/-- **One more call.** -/
theorem step (h : Ranked calls l) (c : Call κ) : Ranked (calls ++ [c]) (Recency.step cap l c) := by
  cases c with
  | set x =>
    rw [step_set]
    split
    · exact h.touch (touches_set x)
    · rename_i hnew
      have hpush : Ranked (calls ++ [.set x]) (l ++ [x]) := h.push (touches_set x) hnew
      -- what goes out is in front, and the rest keeps its order
      split
      · exact hpush.sublist (List.tail_sublist _)
      · exact hpush
  | access x =>
    rw [step_access]
    split
    · exact h.touch (touches_access x)
    · rename_i hnew
      refine h.quiet fun y hy htouch => hnew ?_
      have hxy : x = y := htouch
      exact hxy ▸ hy
  | del x => exact (h.sublist List.filter_sublist).quiet fun _ _ htouch => htouch
  | clear => exact nil

/-- What a call pushes out was touched before all that stay. -/
theorem of_pushedOut (h : Ranked calls l) {x y : κ}
    (hy : pushedOut cap l (.set x) = some y) :
    y ∈ l ++ [x] ∧ ∀ z ∈ l ++ [x], z ≠ y → Before (calls ++ [.set x]) y z := by
  rw [pushedOut_set] at hy
  split at hy
  · rename_i hnew
    have hpush : Ranked (calls ++ [.set x]) (l ++ [x]) := h.push (touches_set x) hnew.1
    obtain ⟨rest, hrest⟩ := List.head?_eq_some_iff.mp hy
    rw [hrest] at hpush ⊢
    refine ⟨List.mem_cons_self, fun z hz hne => ?_⟩
    exact List.rel_of_pairwise_cons hpush.order ((List.mem_cons.mp hz).resolve_left hne)
  · exact absurd hy (by simp)

end Ranked

section Length

variable [DecidableEq κ] {cap : Nat} {l : List κ}

theorem length_touch_le {x : κ} (hx : x ∈ l) : (touch x l).length ≤ l.length := by
  have hlt : (l.filter (· ≠ x)).length < l.length :=
    List.length_filter_lt_length_iff_exists.mpr ⟨x, hx, by simp⟩
  rw [touch, List.length_append, List.length_singleton]
  exact hlt

/-- The room is kept to. -/
theorem length_step_le (h : l.length ≤ cap) (c : Call κ) : (step cap l c).length ≤ cap := by
  cases c with
  | set x =>
    rw [step_set]
    split
    · rename_i hx
      exact Nat.le_trans (length_touch_le hx) h
    · split
      · rw [List.length_tail, List.length_append, List.length_singleton]
        exact h
      · rename_i hroom
        exact Nat.le_of_not_lt hroom
  | access x =>
    rw [step_access]
    split
    · rename_i hx
      exact Nat.le_trans (length_touch_le hx) h
    · exact h
  | del x => exact Nat.le_trans (List.length_filter_le _ _) h
  | clear => exact Nat.zero_le _

theorem pushedOut_ne_none_iff {x : κ} :
    pushedOut cap l (.set x) ≠ none ↔ x ∉ l ∧ cap < (l ++ [x]).length := by
  rw [pushedOut_set]
  split
  · rename_i hnew
    exact iff_of_true (by simp) hnew
  · rename_i hnew
    exact iff_of_false (by simp) hnew

end Length

end Recency
