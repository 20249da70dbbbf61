import Mathlib.Data.Nat.Digits.Lemmas

/-!
# Decimal numerals as byte strings

The writer (`render`) and the reader (`value`) of an unsigned decimal numeral, over the ASCII
digits `'0'`..`'9'`. The reader is a left fold, because that is what a reader that sees one
byte at a time computes: after the bytes `p` it holds `value p`. So the two facts such a
reader needs are `value_render` (it ends with the number written) and `value_le_append` (it
never holds more than what it ends with, so an accumulator wide enough for the number is wide
enough on the way).
-/

namespace Numeral

/-- The ASCII byte of a digit below ten. -/
def digit (d : Nat) : UInt8 := UInt8.ofNat (48 + d)

/-- The bytes `'0'`..`'9'`. -/
def IsDigit (c : UInt8) : Prop := 48 ≤ c.toNat ∧ c.toNat ≤ 57

instance (c : UInt8) : Decidable (IsDigit c) := inferInstanceAs (Decidable (_ ∧ _))

/-- The number a digit byte stands for. -/
def digitVal (c : UInt8) : Nat := c.toNat - 48

/-- The number held after reading the bytes from left to right. -/
def value (cs : List UInt8) : Nat := cs.foldl (fun a c => a * 10 + digitVal c) 0

/-- The decimal numeral of `n`: most significant digit first, `0` for zero. -/
def render (n : Nat) : List UInt8 :=
  if n = 0 then [digit 0] else (Nat.digits 10 n).reverse.map digit

theorem digit_toNat {d : Nat} (h : d < 10) : (digit d).toNat = 48 + d := by
  unfold digit
  rw [UInt8.toNat_ofNat']
  omega

theorem isDigit_digit {d : Nat} (h : d < 10) : IsDigit (digit d) := by
  unfold IsDigit
  rw [digit_toNat h]
  omega

@[simp] theorem digitVal_digit {d : Nat} (h : d < 10) : digitVal (digit d) = d := by
  unfold digitVal
  rw [digit_toNat h]
  omega

theorem IsDigit.ne {c b : UInt8} (h : IsDigit c) (hb : ¬ IsDigit b) : c ≠ b := by
  rintro rfl
  exact hb h

/-- Any string begins with the digits it begins with. -/
theorem exists_digits (cs : List UInt8) : ∃ ds tail, cs = ds ++ tail ∧ (∀ c ∈ ds, IsDigit c) ∧
    ∀ c rest, tail = c :: rest → ¬ IsDigit c := by
  induction cs with
  | nil => exact ⟨[], [], rfl, by simp, by simp⟩
  | cons c cs ih =>
    by_cases hc : IsDigit c
    · obtain ⟨ds, tail, rfl, hds, htail⟩ := ih
      refine ⟨c :: ds, tail, rfl, ?_, htail⟩
      intro d hd
      rcases List.mem_cons.mp hd with rfl | hd
      · exact hc
      · exact hds d hd
    · refine ⟨[], c :: cs, rfl, by simp, ?_⟩
      intro d rest heq
      cases heq
      exact hc

/-! ## The writer -/

theorem render_ne_nil (n : Nat) : render n ≠ [] := by
  unfold render
  split
  · simp
  · rename_i h
    simpa [Nat.digits_ne_nil_iff_ne_zero] using h

theorem isDigit_of_mem_render {n : Nat} {c : UInt8} (h : c ∈ render n) : IsDigit c := by
  unfold render at h
  split at h
  · rw [List.mem_singleton.mp h]
    exact isDigit_digit (by omega)
  · obtain ⟨d, hd, rfl⟩ := List.mem_map.mp h
    exact isDigit_digit (Nat.digits_lt_base (by omega) (List.mem_reverse.mp hd))

/-! ## The reader -/

@[simp] theorem value_nil : value [] = 0 := rfl

@[simp] theorem value_append_singleton (cs : List UInt8) (c : UInt8) :
    value (cs ++ [c]) = value cs * 10 + digitVal c := by
  simp [value]

theorem value_le_append (cs ds : List UInt8) : value cs ≤ value (cs ++ ds) := by
  induction ds using List.reverseRecOn with
  | nil => rw [List.append_nil]
  | append_singleton ds d ih =>
    rw [← List.append_assoc, value_append_singleton]
    omega

theorem value_map_digit (ds : List Nat) (h : ∀ d ∈ ds, d < 10) :
    value (ds.reverse.map digit) = Nat.ofDigits 10 ds := by
  induction ds with
  | nil => simp
  | cons d ds ih =>
    have hd : d < 10 := h d (by simp)
    rw [List.reverse_cons, List.map_append, List.map_singleton, value_append_singleton,
      digitVal_digit hd, ih fun e he => h e (by simp [he]), Nat.ofDigits_cons]
    ring

/-- **The reader undoes the writer.** -/
theorem value_render (n : Nat) : value (render n) = n := by
  unfold render
  split
  · rename_i h
    rw [h]
    decide
  · rw [value_map_digit _ fun d hd => Nat.digits_lt_base (by omega) hd, Nat.ofDigits_digits]

end Numeral
