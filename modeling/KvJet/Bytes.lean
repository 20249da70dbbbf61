import KvJet.Lib.Numeral
import Mathlib.Data.List.TakeWhile

/-!
# Byte strings and faults

`std::string` is a list of bytes throughout. A call that goes wrong either throws a
`std::exception`, or does something C++ gives no meaning to (reading through an empty
`std::optional`, through a moved-out `std::unique_ptr`, past the end of a container, or
overflowing a signed integer). The two are kept apart in `Fault`: a thrown exception is part
of a function's contract, undefined behaviour never is.
-/

namespace KvJet

/-- `std::string`. -/
abbrev Bytes := List UInt8

/-- How a call fails to return. -/
inductive Fault where
  /-- A thrown `std::exception` with its `what()`. -/
  | exception (what : String)
  /-- Undefined behaviour. -/
  | undefined (what : String)
deriving DecidableEq, Repr

/-- The bytes of an ASCII literal. -/
def ascii (s : String) : Bytes := s.toList.map fun c => UInt8.ofNat c.toNat

/-- `'\r'`. -/
def cr : UInt8 := 13
/-- `'\n'`. -/
def lf : UInt8 := 10
/-- `'+'`. -/
def plus : UInt8 := 43
/-- `'-'`. -/
def minus : UInt8 := 45
/-- `':'`. -/
def colon : UInt8 := 58
/-- `'$'`. -/
def dollar : UInt8 := 36
/-- `'*'`. -/
def star : UInt8 := 42

/-- `"\r\n"`. -/
def crlf : Bytes := [cr, lf]

/-- `std::to_string` of an unsigned integer. -/
def toString (n : Nat) : Bytes := Numeral.render n

/-- `std::to_string` of a signed integer. -/
def toStringInt (n : Int) : Bytes :=
  if n < 0 then minus :: toString n.natAbs else toString n.natAbs

/-- A numeral is made of digits, so it holds none of the bytes the protocol uses as marks. -/
theorem not_mem_toString {b : UInt8} (hb : ¬ Numeral.IsDigit b) (n : Nat) : b ∉ toString n :=
  fun h => hb (Numeral.isDigit_of_mem_render h)

theorem cr_not_mem_toString (n : Nat) : cr ∉ toString n := not_mem_toString (by decide) n

/-! ## Reading numbers -/

/-- `std::isspace`. -/
def isSpace (c : UInt8) : Bool := c = 32 || (9 ≤ c && c ≤ 13)

/-- `std::stoull`: white space, a sign, and then as many digits as there are. A negative numeral
is negated in `unsigned long long`. -/
def stoull (s : Bytes) : Except Fault UInt64 :=
  let s := s.dropWhile isSpace
  let negative := s.head? = some minus
  let digits := (if negative || s.head? = some plus then s.tail else s).takeWhile
    fun c => decide (Numeral.IsDigit c)
  let n := Numeral.value digits
  if digits.isEmpty || n ≥ 2 ^ 64 then .error (.exception "stoull")
  else .ok (if negative then 0 - UInt64.ofNat n else UInt64.ofNat n)

/-- `c - '0'`, added to a `uint64_t`; `char` is signed. -/
def charDigit (c : UInt8) : UInt64 :=
  if c < 128 then UInt64.ofNat c.toNat - 48 else UInt64.ofNat c.toNat - 256 - 48

/-- `Utils::to_uint64_t`, which takes every byte for a digit. -/
def toUint64 (str : Bytes) : UInt64 := str.foldl (fun ret c => ret * 10 + charDigit c) 0

theorem isSpace_of_isDigit {c : UInt8} (h : Numeral.IsDigit c) : isSpace c = false := by
  obtain ⟨hlo, hhi⟩ := h
  simp only [isSpace, ← UInt8.toNat_inj, UInt8.le_iff_toNat_le, UInt8.toNat_ofNat,
    Bool.or_eq_false_iff, Bool.and_eq_false_iff, decide_eq_false_iff_not]
  omega

/-- **`stoull` reads back what `to_string` writes.** -/
theorem stoull_toString (n : UInt64) : stoull (toString n.toNat) = .ok n := by
  have hdigits : ∀ c ∈ toString n.toNat, Numeral.IsDigit c := fun c h =>
    Numeral.isDigit_of_mem_render h
  have hvalue : Numeral.value (toString n.toNat) = n.toNat := Numeral.value_render _
  have hlt := n.toNat_lt
  cases hs : toString n.toNat with
  | nil => exact absurd hs (Numeral.render_ne_nil _)
  | cons c cs =>
    rw [hs] at hdigits hvalue
    have hc := hdigits c (by simp)
    have hdrop : (c :: cs).dropWhile isSpace = c :: cs :=
      List.dropWhile_cons_of_neg (by simp [isSpace_of_isDigit hc])
    have htake : (c :: cs).takeWhile (fun c => decide (Numeral.IsDigit c)) = c :: cs :=
      List.takeWhile_eq_self_iff.mpr (by simpa using hdigits)
    have hminus : c ≠ minus := hc.ne (by decide)
    have hplus : c ≠ plus := hc.ne (by decide)
    simp only [stoull, hdrop, List.head?_cons, Option.some.injEq, hminus, hplus, decide_false,
      Bool.or_self, Bool.false_eq_true, if_false, htake, List.isEmpty_cons, hvalue, ge_iff_le,
      Nat.not_le.mpr hlt, UInt64.ofNat_toNat]

theorem toUint64_eq_value {cs : Bytes} (h : ∀ c ∈ cs, Numeral.IsDigit c) :
    toUint64 cs = UInt64.ofNat (Numeral.value cs) := by
  induction cs using List.reverseRecOn with
  | nil => rfl
  | append_singleton cs c ih =>
    obtain ⟨hlo, hhi⟩ := h c (by simp)
    have hdigit : charDigit c = UInt64.ofNat (Numeral.digitVal c) := by
      have hsmall : c < 128 := UInt8.lt_iff_toNat_lt.mpr (Nat.lt_of_le_of_lt hhi (by decide))
      rw [charDigit, if_pos hsmall, Numeral.digitVal, UInt64.ofNat_sub hlo]
      rfl
    have hstep : toUint64 (cs ++ [c]) = toUint64 cs * 10 + charDigit c := by simp [toUint64]
    rw [hstep, ih fun d hd => h d (by simp [hd]), hdigit, Numeral.value_append_singleton,
      UInt64.ofNat_add, UInt64.ofNat_mul]
    rfl

theorem toUint64_toString (n : UInt64) : toUint64 (toString n.toNat) = n := by
  unfold toString
  rw [toUint64_eq_value fun c h => Numeral.isDigit_of_mem_render h, Numeral.value_render,
    UInt64.ofNat_toNat]

end KvJet
