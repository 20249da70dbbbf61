import Mathlib.Algebra.BigOperators.Group.Multiset.Basic
import Mathlib.Algebra.Group.Action.Defs
import Mathlib.Algebra.Order.BigOperators.Group.Multiset
import Mathlib.Algebra.Order.Ring.Nat
import Mathlib.Data.Finset.Card
import Mathlib.Logic.Relation

/-!
# Flooding

Nodes that hand on each message they have not had before to every node they are linked to. A copy
that comes to a node is dropped if the message is known there, and otherwise it is let through, then
the message is marked as known, and then it is handed on. These are three steps, so more than one
copy may be let through at a node.

Still the flood ends (`Step.potential_lt`), and when no copy is left, the message is known wherever
the links lead from a node where it was known or had a copy (`Held.reaches`).
-/

namespace KvJet
namespace Flood

inductive Place where
  | waiting
  /-- The message was not known when this copy was looked at. -/
  | checked
  /-- It is known now, and has not been handed on. -/
  | marked
deriving DecidableEq, Repr

structure Copy (ν μ : Type*) where
  node : ν
  message : μ
  place : Place := .waiting

@[ext]
structure State (ν μ : Type*) where
  known : ν → μ → Prop
  copies : Multiset (Copy ν μ)

section

variable {ν μ : Type*} (link : ν → ν → Prop) (V : Finset ν) (d : ℕ)

/-- A message is handed on to at most `d` nodes of `V`, among them those that are linked. -/
inductive Step (s : State ν μ) : State ν μ → Prop where
  | drop {v : ν} {m : μ} {cs : Multiset (Copy ν μ)} (hknown : s.known v m)
      (hcopies : s.copies = ⟨v, m, .waiting⟩ ::ₘ cs) : Step s ⟨s.known, cs⟩
  | check {v : ν} {m : μ} {cs : Multiset (Copy ν μ)} (hnew : ¬ s.known v m)
      (hcopies : s.copies = ⟨v, m, .waiting⟩ ::ₘ cs) :
      Step s ⟨s.known, ⟨v, m, .checked⟩ ::ₘ cs⟩
  | mark {v : ν} {m : μ} {cs : Multiset (Copy ν μ)}
      (hcopies : s.copies = ⟨v, m, .checked⟩ ::ₘ cs) :
      Step s ⟨fun u n => s.known u n ∨ (u = v ∧ n = m), ⟨v, m, .marked⟩ ::ₘ cs⟩
  | pass {v : ν} {m : μ} {cs : Multiset (Copy ν μ)} {dsts : Multiset ν}
      (hlinked : ∀ u, link v u → u ∈ dsts) (hinside : ∀ u ∈ dsts, u ∈ V) (hfew : dsts.card ≤ d)
      (hcopies : s.copies = ⟨v, m, .marked⟩ ::ₘ cs) :
      Step s ⟨s.known, dsts.map (fun u => ⟨u, m, .waiting⟩) + cs⟩

/-- All copies are on their way to nodes of `V`. -/
def Inside (s : State ν μ) : Prop := ∀ c ∈ s.copies, c.node ∈ V

/-- The message is known at the node, or a copy of it is on its way there. -/
def Held (s : State ν μ) (v : ν) (m : μ) : Prop :=
  s.known v m ∨ ∃ c ∈ s.copies, c.node = v ∧ c.message = m ∧ c.place ≠ .marked

/-- Where a message is known, it has been handed on or is going to be. -/
def Closed (s : State ν μ) : Prop :=
  ∀ v m, s.known v m → ⟨v, m, .marked⟩ ∈ s.copies ∨ ∀ u, link v u → Held s u m

variable {link V d} {s s' : State ν μ} {v u : ν} {m : μ}

theorem Inside.step (h : Inside V s) (hstep : Step link V d s s') : Inside V s' := by
  cases hstep with
  | drop hknown hcopies => exact fun c hc => h c (hcopies ▸ Multiset.mem_cons_of_mem hc)
  | check hnew hcopies =>
    intro c hc
    rcases Multiset.mem_cons.mp hc with rfl | hc
    · exact h ⟨_, _, .waiting⟩ (hcopies ▸ Multiset.mem_cons_self _ _)
    · exact h c (hcopies ▸ Multiset.mem_cons_of_mem hc)
  | mark hcopies =>
    intro c hc
    rcases Multiset.mem_cons.mp hc with rfl | hc
    · exact h ⟨_, _, .checked⟩ (hcopies ▸ Multiset.mem_cons_self _ _)
    · exact h c (hcopies ▸ Multiset.mem_cons_of_mem hc)
  | pass hlinked hinside hfew hcopies =>
    intro c hc
    rcases Multiset.mem_add.mp hc with hc | hc
    · obtain ⟨u, hu, rfl⟩ := Multiset.mem_map.mp hc
      exact hinside u hu
    · exact h c (hcopies ▸ Multiset.mem_cons_of_mem hc)

/-! ## What is reached

Two things are kept: a message that has come to a node stays there, on its way or known; and where
it is known it has been handed on or will be. -/

theorem Held.step (h : Held s v m) (hstep : Step link V d s s') : Held s' v m := by
  rcases h with hknown | ⟨c, hc, hv, hm, hplace⟩
  · left
    cases hstep with
    | drop | check | pass => exact hknown
    | mark => exact Or.inl hknown
  · cases hstep with
    | drop hknown hcopies =>
      rw [hcopies] at hc
      rcases Multiset.mem_cons.mp hc with rfl | hc
      · subst hv hm
        exact Or.inl hknown
      · exact Or.inr ⟨c, hc, hv, hm, hplace⟩
    | check hnew hcopies =>
      rw [hcopies] at hc
      rcases Multiset.mem_cons.mp hc with rfl | hc
      · subst hv hm
        exact Or.inr ⟨_, Multiset.mem_cons_self _ _, rfl, rfl, Place.noConfusion⟩
      · exact Or.inr ⟨c, Multiset.mem_cons_of_mem hc, hv, hm, hplace⟩
    | mark hcopies =>
      rw [hcopies] at hc
      rcases Multiset.mem_cons.mp hc with rfl | hc
      · subst hv hm
        exact Or.inl (Or.inr ⟨rfl, rfl⟩)
      · exact Or.inr ⟨c, Multiset.mem_cons_of_mem hc, hv, hm, hplace⟩
    | pass hlinked hinside hfew hcopies =>
      rw [hcopies] at hc
      rcases Multiset.mem_cons.mp hc with rfl | hc
      · exact absurd rfl hplace
      · exact Or.inr ⟨c, Multiset.mem_add.mpr (Or.inr hc), hv, hm, hplace⟩

theorem Closed.step (h : Closed link s) (hstep : Step link V d s s') : Closed link s' := by
  intro v m hknown
  have hheld : ∀ u, Held s u m → Held s' u m := fun u hu => hu.step hstep
  cases hstep with
  | drop hk hcopies =>
    refine (h v m hknown).imp (fun hc => ?_) (fun hall u hu => hheld u (hall u hu))
    rw [hcopies] at hc
    exact (Multiset.mem_cons.mp hc).resolve_left fun heq =>
      Place.noConfusion (congrArg Copy.place heq)
  | check hnew hcopies =>
    refine (h v m hknown).imp (fun hc => ?_) (fun hall u hu => hheld u (hall u hu))
    rw [hcopies] at hc
    exact Multiset.mem_cons_of_mem ((Multiset.mem_cons.mp hc).resolve_left fun heq =>
      Place.noConfusion (congrArg Copy.place heq))
  | mark hcopies =>
    rcases hknown with hknown | ⟨rfl, rfl⟩
    · refine (h v m hknown).imp (fun hc => ?_) (fun hall u hu => hheld u (hall u hu))
      rw [hcopies] at hc
      exact Multiset.mem_cons_of_mem ((Multiset.mem_cons.mp hc).resolve_left fun heq =>
      Place.noConfusion (congrArg Copy.place heq))
    · exact Or.inl (Multiset.mem_cons_self _ _)
  | @pass v' m' cs dsts hlinked hinside hfew hcopies =>
    rcases h v m hknown with hc | hall
    · rw [hcopies] at hc
      rcases Multiset.mem_cons.mp hc with heq | hc
      · -- it has just been handed on
        obtain ⟨rfl, rfl⟩ : v = v' ∧ m = m' := by
          injection heq with hv hm
          exact ⟨hv, hm⟩
        refine Or.inr fun u hu => Or.inr ⟨⟨u, m, .waiting⟩, ?_, rfl, rfl, Place.noConfusion⟩
        exact Multiset.mem_add.mpr (Or.inl (Multiset.mem_map_of_mem _ (hlinked u hu)))
      · exact Or.inl (Multiset.mem_add.mpr (Or.inr hc))
    · exact Or.inr fun u hu => hheld u (hall u hu)

theorem Held.known (h : Held s v m) (hstill : s.copies = 0) : s.known v m := by
  refine h.resolve_right ?_
  rintro ⟨c, hc, -⟩
  rw [hstill] at hc
  exact Multiset.notMem_zero c hc

/-- When no copy is left, what a node knows is known wherever the links lead from it. -/
theorem Held.reaches (h : Held s v m) (hclosed : Closed link s) (hstill : s.copies = 0)
    (hpath : Relation.ReflTransGen link v u) : s.known u m := by
  induction hpath with
  | refl => exact h.known hstill
  | tail _ hlink ih =>
    refine Held.known ?_ hstill
    refine (hclosed _ m ih).resolve_left (fun hc => ?_) _ hlink
    rw [hstill] at hc
    exact Multiset.notMem_zero _ hc

end

/-! ## The flood ends

The number of copies grows, so something else has to go down. Each copy is given a weight that pays
for all that can come of it. -/

section

open scoped Classical

variable {ν μ : Type*} (V : Finset ν) (d : ℕ)

/-- What a waiting copy can still bring about while `n` nodes do not know the message. -/
def spread : ℕ → ℕ
  | 0 => 1
  | n + 1 => d * spread n + 4

/-- The number of nodes where the message is not known. -/
noncomputable def unknown (s : State ν μ) (m : μ) : ℕ := (V.filter fun v => ¬ s.known v m).card

/-- A copy that was let through and finds the message known by then is handed on once more, to nodes
that may all be without it; otherwise there is one such node less. -/
noncomputable def weight (s : State ν μ) (c : Copy ν μ) : ℕ :=
  match c.place with
  | .waiting => spread d (unknown V s c.message)
  | .checked =>
    if s.known c.node c.message then d * spread d (unknown V s c.message) + 2
    else spread d (unknown V s c.message) - 1
  | .marked => d * spread d (unknown V s c.message) + 1

noncomputable def potential (s : State ν μ) : ℕ := (s.copies.map (weight V d s)).sum

variable {V d} {link : ν → ν → Prop} {s s' : State ν μ} {v : ν} {m : μ}

theorem spread_pos (n : ℕ) : 0 < spread d n := by
  cases n with
  | zero => exact Nat.one_pos
  | succ n => exact Nat.succ_pos _

theorem spread_mono : Monotone (spread d) := by
  refine monotone_nat_of_le_succ fun n => ?_
  induction n with
  | zero => exact Nat.le_trans (Nat.le_of_ble_eq_true rfl : 1 ≤ 4) (Nat.le_add_left 4 (d * 1))
  | succ n ih => exact Nat.add_le_add_right (Nat.mul_le_mul_left d ih) 4

/-- The state after marking. -/
def marked (s : State ν μ) (v : ν) (m : μ) (cs : Multiset (Copy ν μ)) : State ν μ :=
  ⟨fun u n => s.known u n ∨ (u = v ∧ n = m), cs⟩

theorem unknown_marked_le (s : State ν μ) (v : ν) (m : μ) (cs : Multiset (Copy ν μ)) (n : μ) :
    unknown V (marked s v m cs) n ≤ unknown V s n :=
  Finset.card_le_card (Finset.monotone_filter_right V fun _ _ h hknown => h (Or.inl hknown))

theorem unknown_marked_lt (hv : v ∈ V) (hnew : ¬ s.known v m) (cs : Multiset (Copy ν μ)) :
    unknown V (marked s v m cs) m < unknown V s m := by
  refine Finset.card_lt_card ((Finset.ssubset_iff_of_subset ?_).mpr ⟨v, ?_, ?_⟩)
  · exact Finset.monotone_filter_right V fun _ _ h hknown => h (Or.inl hknown)
  · exact Finset.mem_filter.mpr ⟨hv, hnew⟩
  · exact fun h => (Finset.mem_filter.mp h).2 (Or.inr ⟨rfl, rfl⟩)

/-- Where a node has become one that knows the message, what follows costs less. -/
theorem cost_marked_lt (hv : v ∈ V) (hnew : ¬ s.known v m) (cs : Multiset (Copy ν μ)) :
    d * spread d (unknown V (marked s v m cs) m) + 3 ≤ spread d (unknown V s m) - 1 := by
  obtain ⟨n, hn⟩ : ∃ n, unknown V s m = n + 1 :=
    Nat.exists_eq_add_one_of_ne_zero (Nat.ne_zero_of_lt (unknown_marked_lt hv hnew cs))
  have hle : unknown V (marked s v m cs) m ≤ n :=
    Nat.le_of_lt_succ (Nat.lt_of_lt_of_eq (unknown_marked_lt hv hnew cs) hn)
  rw [hn]
  exact Nat.add_le_add_right (Nat.mul_le_mul_left d (spread_mono hle)) 3

/-- Marking makes no copy heavier. -/
theorem weight_marked_le (s : State ν μ) (v : ν) (m : μ) (cs : Multiset (Copy ν μ)) {c : Copy ν μ}
    (hc : c.node ∈ V) : weight V d (marked s v m cs) c ≤ weight V d s c := by
  have hspread : spread d (unknown V (marked s v m cs) c.message)
      ≤ spread d (unknown V s c.message) := spread_mono (unknown_marked_le s v m cs c.message)
  have hmul := Nat.mul_le_mul_left d hspread
  unfold weight
  cases c.place with
  | waiting => exact hspread
  | marked => exact Nat.add_le_add_right hmul 1
  | checked =>
    dsimp only
    by_cases hold : s.known c.node c.message
    · rw [if_pos (show (marked s v m cs).known _ _ from Or.inl hold), if_pos hold]
      exact Nat.add_le_add_right hmul 2
    · rw [if_neg hold]
      split
      · rename_i hnow
        obtain ⟨hv, hm⟩ := hnow.resolve_left hold
        subst hv hm
        exact Nat.le_trans (Nat.le_succ _) (cost_marked_lt hc hold cs)
      · exact Nat.sub_le_sub_right hspread 1

/-- **Every step of a flood brings it nearer to its end.**

A copy weighs as much as what can still become of it, which is less the more nodes know its message.
Marking makes it known at one more, and so pays for the copies that are made when it is handed on;
every other step takes a copy away or brings it one place further. -/
theorem Step.potential_lt (hinside : Inside V s) (hstep : Step link V d s s') :
    potential V d s' < potential V d s := by
  unfold potential
  cases hstep with
  | drop hknown hcopies =>
    rw [hcopies, Multiset.map_cons, Multiset.sum_cons]
    exact Nat.lt_add_of_pos_left (spread_pos _)
  | @check v m cs hnew hcopies =>
    rw [hcopies, Multiset.map_cons, Multiset.sum_cons, Multiset.map_cons, Multiset.sum_cons]
    refine Nat.add_lt_add_right ?_ _
    show (if s.known v m then _ else spread d (unknown V s m) - 1) < spread d (unknown V s m)
    rw [if_neg hnew]
    exact Nat.sub_one_lt_of_lt (spread_pos _)
  | @mark v m cs hcopies =>
    have hv : v ∈ V := hinside ⟨v, m, .checked⟩ (hcopies ▸ Multiset.mem_cons_self _ _)
    rw [hcopies, Multiset.map_cons, Multiset.sum_cons, Multiset.map_cons, Multiset.sum_cons]
    refine Nat.add_lt_add_of_lt_of_le ?_ (Multiset.sum_map_le_sum_map _ _ fun c hc => ?_)
    · show d * spread d (unknown V (marked s v m _) m) + 1 < if s.known v m then _ else _
      have hmono := Nat.mul_le_mul_left d
        (spread_mono (d := d) (unknown_marked_le (V := V) s v m (⟨v, m, .marked⟩ ::ₘ cs) m))
      split
      · exact Nat.lt_succ_of_le (Nat.add_le_add_right hmono 1)
      · rename_i hnew
        exact Nat.lt_of_lt_of_le (Nat.lt_add_of_pos_right (by decide : 0 < 2))
          (cost_marked_lt hv hnew _)
    · exact weight_marked_le s v m _ (hinside c (hcopies ▸ Multiset.mem_cons_of_mem hc))
  | @pass v m cs dsts hlinked hdsts hfew hcopies =>
    rw [hcopies, Multiset.map_cons, Multiset.sum_cons, Multiset.map_add, Multiset.sum_add]
    refine Nat.add_lt_add_right ?_ _
    have hsum : (dsts.map fun _ => spread d (unknown V s m)).sum
        ≤ d * spread d (unknown V s m) := by
      rw [Multiset.map_const', Multiset.sum_replicate, smul_eq_mul]
      exact Nat.mul_le_mul_right _ hfew
    rw [Multiset.map_map]
    exact Nat.lt_succ_of_le hsum

end

end Flood
end KvJet
