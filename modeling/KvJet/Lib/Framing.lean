import Mathlib.Data.List.Basic

/-!
# Messages cut short

Messages go one after another over a stream that takes some symbols from the front of each. What
is on the stream can be cut into messages again as long as nothing was taken behind a message that
was not taken whole: then it is a prefix of the messages put together (`Clean.sent_prefix`).
-/

namespace Framing

variable {α : Type*}

/-- A message, and how many symbols of it were taken. -/
structure Cut (α : Type*) where
  message : List α
  taken : Nat

def Cut.sent (c : Cut α) : List α := c.message.take c.taken

def Cut.Whole (c : Cut α) : Prop := c.message.length ≤ c.taken

theorem Cut.Whole.sent_eq {c : Cut α} (h : c.Whole) : c.sent = c.message :=
  List.take_of_length_le h

/-- What is on the stream. -/
def sent (cs : List (Cut α)) : List α := cs.flatMap Cut.sent

/-- Behind a message that was cut short, nothing is taken. -/
def Clean (cs : List (Cut α)) : Prop := cs.Pairwise fun c c' => c.Whole ∨ c'.sent = []

variable {c : Cut α} {cs : List (Cut α)}

theorem clean_nil : Clean ([] : List (Cut α)) := List.Pairwise.nil

/-- One message more. -/
theorem clean_concat_iff :
    Clean (cs ++ [c]) ↔ Clean cs ∧ ((∀ c' ∈ cs, c'.Whole) ∨ c.sent = []) := by
  unfold Clean
  rw [List.pairwise_append]
  constructor
  · rintro ⟨hclean, -, hlast⟩
    refine ⟨hclean, or_iff_not_imp_right.mpr fun hsent c' hc' => ?_⟩
    exact (hlast c' hc' c List.mem_cons_self).resolve_right hsent
  · rintro ⟨hclean, hlast⟩
    refine ⟨hclean, List.pairwise_singleton _ c, fun c' hc' c'' hc'' => ?_⟩
    rw [List.mem_singleton.mp hc'']
    exact hlast.imp_left fun hall => hall c' hc'

theorem Clean.sent_prefix (h : Clean cs) : sent cs <+: cs.flatMap Cut.message := by
  induction cs with
  | nil => exact List.prefix_refl []
  | cons c cs ih =>
    obtain ⟨hfirst, hrest⟩ := List.pairwise_cons.mp h
    show c.sent ++ sent cs <+: c.message ++ cs.flatMap Cut.message
    by_cases hc : c.Whole
    · rw [hc.sent_eq]
      exact (List.prefix_append_right_inj c.message).mpr (ih hrest)
    · have hnone : sent cs = [] := List.flatMap_eq_nil_iff.mpr fun c' hc' =>
        (hfirst c' hc').resolve_left hc
      rw [hnone, List.append_nil]
      exact (List.take_prefix _ _).trans (List.prefix_append _ _)

end Framing
