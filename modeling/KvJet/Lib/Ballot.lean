import Mathlib.Order.Lattice

/-!
# Ballots

A voter is in a term and has made its choice in it, or not yet. It may move to a later term, and
in its term it may cast a vote for the one it has chosen, or for anyone if it has not. A voter
that does no more than that, and forgets neither, votes for one candidate in each term
(`Backed.move`).
-/

namespace Ballot

variable {τ κ : Type*} [LinearOrder τ]

structure Voter (τ κ : Type*) where
  term : τ
  choice : Option κ

/-- A step of a voter, with the votes that are cast in it. -/
inductive Move : Voter τ κ → Voter τ κ → List (τ × κ) → Prop
  | keep (v : Voter τ κ) : Move v v []
  | advance {v : Voter τ κ} {term : τ} (h : v.term < term) : Move v ⟨term, none⟩ []
  | advanceCast {v : Voter τ κ} {term : τ} (h : v.term < term) (c : κ) :
      Move v ⟨term, some c⟩ [(term, c)]
  | cast {v : Voter τ κ} {c : κ} (h : v.choice = none ∨ v.choice = some c) :
      Move v ⟨v.term, some c⟩ [(v.term, c)]

/-- All votes of one term are for the same candidate. -/
def OnePerTerm (votes : List (τ × κ)) : Prop :=
  ∀ p ∈ votes, ∀ q ∈ votes, p.1 = q.1 → p.2 = q.2

/-- The voter knows of every vote that may still matter. -/
structure Backed (v : Voter τ κ) (votes : List (τ × κ)) : Prop where
  past : ∀ p ∈ votes, p.1 ≤ v.term
  choice : ∀ p ∈ votes, p.1 = v.term → v.choice = some p.2
  one : OnePerTerm votes

theorem backed_nil (v : Voter τ κ) : Backed v [] where
  past _ h := absurd h List.not_mem_nil
  choice _ h := absurd h List.not_mem_nil
  one _ h := absurd h List.not_mem_nil

variable {v v' : Voter τ κ} {votes new : List (τ × κ)}

theorem Backed.advance (h : Backed v votes) {term : τ} (hterm : v.term < term)
    (choice : Option κ) : Backed ⟨term, choice⟩ votes where
  past p hp := (lt_of_le_of_lt (h.past p hp) hterm).le
  choice p hp heq := absurd heq (lt_of_le_of_lt (h.past p hp) hterm).ne
  one := h.one

/-- A vote for the choice of the term. -/
theorem Backed.concat (h : Backed v votes) {c : κ} (hchoice : v.choice = some c) :
    Backed v (votes ++ [(v.term, c)]) := by
  have hnew : ∀ p ∈ votes, p.1 = v.term → p.2 = c := fun p hp heq =>
    Option.some.inj ((h.choice p hp heq).symm.trans hchoice)
  refine ⟨fun p hp => ?_, fun p hp heq => ?_, fun p hp q hq heq => ?_⟩
  · rcases List.mem_append.mp hp with hp | hp
    · exact h.past p hp
    · rw [List.mem_singleton.mp hp]
  · rcases List.mem_append.mp hp with hp | hp
    · exact h.choice p hp heq
    · rw [List.mem_singleton.mp hp]
      exact hchoice
  · rcases List.mem_append.mp hp with hp | hp <;> rcases List.mem_append.mp hq with hq | hq
    · exact h.one p hp q hq heq
    · rw [List.mem_singleton.mp hq] at heq ⊢
      exact hnew p hp heq
    · rw [List.mem_singleton.mp hp] at heq ⊢
      exact (hnew q hq heq.symm).symm
    · rw [List.mem_singleton.mp hp, List.mem_singleton.mp hq]

/-- **No move makes a voter vote twice in a term.** -/
theorem Backed.move (h : Backed v votes) (hm : Move v v' new) : Backed v' (votes ++ new) := by
  cases hm with
  | keep =>
    rw [List.append_nil]
    exact h
  | advance hterm =>
    rw [List.append_nil]
    exact h.advance hterm none
  | advanceCast hterm c => exact (h.advance hterm (some c)).concat rfl
  | @cast c hfree =>
    have hback : Backed ⟨v.term, some c⟩ votes := by
      refine ⟨h.past, fun p hp heq => ?_, h.one⟩
      have hold := h.choice p hp heq
      rcases hfree with hnone | hsome
      · rw [hnone] at hold
        exact absurd hold (by simp)
      · rw [← hold, hsome]
    exact hback.concat rfl

end Ballot
