import Mathlib.Data.Fintype.Basic
import Mathlib.Dynamics.PeriodicPts.Lemmas

/-!
# Sets that a permutation keeps

An injective map of a finite type comes back to where it started, so a set that it maps into itself
it also maps out of: what is mapped into the set was in it.
-/

namespace Orbit

variable {α : Type*} [Finite α] {f g : α → α} {S : Set α}

theorem mem_of_map_mem (hf : f.Injective) (hS : ∀ x ∈ S, f x ∈ S) {x : α} (hx : f x ∈ S) :
    x ∈ S := by
  have hiterate : ∀ (n : Nat) (y : α), y ∈ S → f^[n] y ∈ S := by
    intro n
    induction n with
    | zero => exact fun y hy => hy
    | succ n ih => exact fun y hy => ih (f y) (hS y hy)
  obtain ⟨n, hn, hperiod⟩ := Function.mem_periodicPts.mp (hf.mem_periodicPts x)
  obtain ⟨k, rfl⟩ := Nat.exists_eq_succ_of_ne_zero hn.ne'
  have hback : f^[k] (f x) = x := by
    rw [← Function.iterate_succ_apply]
    exact hperiod
  rw [← hback]
  exact hiterate k (f x) hx

/-- Two steps that end at the same place began in the set, both or neither. -/
theorem mem_of_map_eq (hg : g.Injective) (hf : ∀ x ∈ S, f x ∈ S) (hS : ∀ x ∈ S, g x ∈ S) {x y : α}
    (hxy : g y = f x) (hx : x ∈ S) : y ∈ S :=
  mem_of_map_mem hg hS (hxy ▸ hf x hx)

end Orbit
