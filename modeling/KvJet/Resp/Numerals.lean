import KvJet.Lib.Method
import KvJet.Resp.RoundTrip

/-!
# Numerals that do not fit

A numeral is read digit by digit, without a look at what its type can hold: the accumulator of an
integer overflows, and a declared size wraps. So a numeral is read as the number it stands for
exactly when that number fits (`numerals_exact`).

Behind a size that fits, the parser reserves that much memory, and the standard library or the
machine may refuse it, whatever the numeral: `reserve` is arbitrary here.
-/

namespace KvJet
namespace Resp

open Stream

/-- The range of `int64_t`. -/
def FitsInt64 (m : Int) : Prop := -2 ^ 63 ≤ m ∧ m < 2 ^ 63

/-- The range of `size_t`. -/
def FitsSize (k : Nat) : Prop := k < 2 ^ 64

instance (m : Int) : Decidable (FitsInt64 m) := inferInstanceAs (Decidable (_ ∧ _))

instance (k : Nat) : Decidable (FitsSize k) := inferInstanceAs (Decidable (_ < _))

theorem fitsInt64_signed {negative : Bool} {k : Nat} :
    FitsInt64 (signed negative k) ↔ k ≤ maxMagnitude negative := by
  cases negative <;>
    simp only [FitsInt64, signed, maxMagnitude, Bool.false_eq_true, if_false, if_true] <;> omega

theorem fitsInt64_toInt (n : Int64) : FitsInt64 n.toInt := ⟨n.le_toInt, n.toInt_lt⟩

/-! ## Where memory is reserved

`reserve` stands at two places, and may refuse any number there. What has been read by then has been
read either way. -/

section Reserving

variable (reserve : Reserve)

theorem feedReserving_of_ne_cr {p : RespParser} {c : UInt8} (h : c ≠ cr) :
    p.feedReserving reserve c = p.feed c := by
  unfold RespParser.feedReserving RespParser.refusal
  rw [if_neg fun hboth => h hboth.2]

theorem feedReserving_of_ne_readSize {p : RespParser} {c : UInt8} (h : p.state ≠ .readSize) :
    p.feedReserving reserve c = p.feed c := by
  unfold RespParser.feedReserving RespParser.refusal
  rw [if_neg fun hboth => h hboth.1]

/-- No memory is reserved in the middle of a line. -/
theorem appendReserving_of_no_cr (p : RespParser) {bs : Bytes} (h : ∀ c ∈ bs, c ≠ cr) :
    p.appendReserving reserve bs = p.append bs :=
  run_congr (I := fun _ => True) (P := (· ≠ cr)) (fun _ _ _ hc => feedReserving_of_ne_cr reserve hc)
    (fun _ _ _ _ _ _ => trivial) bs p trivial h

theorem finish_state {p p' : RespParser} (h : p.finish = .ok p') : p'.state = .waitType := by
  obtain ⟨_, -, h⟩ := Except.of_bind_eq_ok h
  cases h
  rfl

/-- Only the two bytes that announce a size lead to a size line. -/
theorem feed_ne_readSize {p p' : RespParser} {c : UInt8} (hp : p.state ≠ .readSize)
    (hc : c ≠ dollar ∧ c ≠ star) (h : p.feed c = .ok p') : p'.state ≠ .readSize := by
  have hfinish : ∀ q : RespParser, q.finish = .ok p' → p'.state ≠ .readSize := fun q hq => by
    rw [finish_state hq]
    decide
  unfold RespParser.feed at h
  -- one case for each state, in the order of `feed`; in the first the byte is the type
  split at h
  · rw [if_neg hc.1, if_neg hc.2] at h
    split at h
    · cases h; exact nofun
    split at h
    · cases h; exact nofun
    split at h <;> cases h
    exact nofun
  · rename_i hstate
    exact absurd hstate hp
  · split at h
    · split at h
      · exact hfinish _ h
      · cases h; exact nofun
      · cases h
    · cases h
  · split at h <;> cases h
    exact nofun
  · split at h <;> cases h
    exact nofun
  · rename_i hstate
    split at h
    · cases h; exact nofun
    split at h
    · cases h; exact hp
    · cases h; exact hp
    · split at h
      · split at h <;> cases h
        exact hp
      · split at h
        · obtain ⟨_, -, h⟩ := Except.of_bind_eq_ok h
          cases h
          exact hp
        · cases h
    · cases h
  · split at h
    · exact hfinish _ h
    · cases h
  · split at h
    · split at h
      · split at h <;> cases h
        exact nofun
      · cases h; exact hp
    · cases h
    · cases h

/-- Where no size is announced, no memory is reserved for one. -/
theorem appendReserving_of_no_size {p : RespParser} (hp : p.state ≠ .readSize) {bs : Bytes}
    (h : ∀ c ∈ bs, c ≠ dollar ∧ c ≠ star) : p.appendReserving reserve bs = p.append bs :=
  run_congr (I := fun p : RespParser => p.state ≠ .readSize) (P := fun c => c ≠ dollar ∧ c ≠ star)
    (fun _ _ hp _ => feedReserving_of_ne_readSize reserve hp)
    (fun _ _ _ hp hc hfeed => feed_ne_readSize hp hc hfeed) bs p hp h

end Reserving

/-! ## Integers

The accumulator is an `int64_t` that carries the sign from the first digit on: after a `-` each digit
is subtracted. So the smallest `int64_t` is read too, though its magnitude is no `int64_t`. -/

/-- `*it *= 10; *it ± d;` where the result is no `int64_t`. -/
theorem accumulate_overflow {negative : Bool} {k d : Nat} (hk : k ≤ maxMagnitude negative)
    (h : maxMagnitude negative < k * 10 + d) :
    accumulate (Int64.ofInt (signed negative k)) negative d
      = .error (.undefined "signed overflow") := by
  have hto : (Int64.ofInt (signed negative k)).toInt = signed negative k :=
    Int64.toInt_ofInt_of_le (fitsInt64_signed.mpr hk).1 (fitsInt64_signed.mpr hk).2
  have hmoved : (if negative then signed negative k * 10 - d else signed negative k * 10 + d)
      = signed negative (k * 10 + d) := by
    cases negative <;> simp only [signed, Bool.false_eq_true, if_false, if_true] <;> omega
  have hout : ¬ (-2 ^ 63 ≤ signed negative (k * 10 + d) ∧ signed negative (k * 10 + d) < 2 ^ 63) :=
    fun hfits => absurd (fitsInt64_signed.mp hfits) (Nat.not_le.mpr h)
  unfold accumulate
  simp only [hto, hmoved]
  rw [if_neg]
  simp only [Bool.and_eq_true, decide_eq_true_eq]
  exact fun hfits => hout hfits.2

/-- The parser in front of the digits of an integer, and behind them. -/
def integerState (negative : Bool) (ds : Bytes) (S : List RespState) (Q : List RespValue) :
    RespParser :=
  ⟨.readLine, ⟨.integer (Int64.ofInt (signed negative (Numeral.value ds))),
    if negative then negMark else if ds.isEmpty then 0 else 1⟩, S, Q⟩

theorem feed_digit_integer {negative : Bool} {ds : Bytes} {c : UInt8} (hc : Numeral.IsDigit c)
    (S : List RespState) (Q : List RespValue) :
    (integerState negative ds S Q).feed c = (do
      let m ← accumulate (Int64.ofInt (signed negative (Numeral.value ds))) negative
        (Numeral.digitVal c)
      return ⟨.readLine, ⟨.integer m, if negative then negMark else 1⟩, S, Q⟩) := by
  have hcr : c ≠ cr := hc.ne (by decide)
  have hm : c ≠ minus := hc.ne (by decide)
  simp only [integerState, RespParser.feed, if_neg hcr, if_neg hm, if_pos hc]
  cases negative with
  | true => simp [negMark]
  | false => cases ds <;> simp

/-- The digits of an integer: as long as the number fits it is held, and then the accumulator
overflows. -/
theorem run_digits (negative : Bool) (S : List RespState) (Q : List RespValue) (ds : Bytes)
    (hds : ∀ c ∈ ds, Numeral.IsDigit c) :
    run RespParser.feed (integerState negative [] S Q) ds
      = if Numeral.value ds ≤ maxMagnitude negative then .ok (integerState negative ds S Q)
        else .error (.undefined "signed overflow") := by
  induction ds using List.reverseRecOn with
  | nil => rw [run_nil, Numeral.value_nil, if_pos (Nat.zero_le _)]
  | append_singleton ds c ih =>
    have hc : Numeral.IsDigit c := hds c (by simp)
    rw [run_append, ih fun b hb => hds b (by simp [hb]), Numeral.value_append_singleton]
    by_cases hk : Numeral.value ds ≤ maxMagnitude negative
    · rw [if_pos hk]
      show run RespParser.feed (integerState negative ds S Q) [c] = _
      rw [run_singleton, feed_digit_integer hc]
      by_cases hle : Numeral.value ds * 10 + Numeral.digitVal c ≤ maxMagnitude negative
      · have hfull : (ds ++ [c]).isEmpty = false := by cases ds <;> rfl
        rw [if_pos hle, accumulate_eq hle, integerState, Numeral.value_append_singleton, hfull]
        rfl
      · rw [if_neg hle, accumulate_overflow hk (Nat.not_le.mp hle)]
        rfl
    · rw [if_neg hk, if_neg (by omega)]
      rfl

theorem append_digits (negative : Bool) (S : List RespState) (Q : List RespValue) {ds : Bytes}
    (hds : ∀ c ∈ ds, Numeral.IsDigit c) (rest : Bytes) :
    (idle S Q).append (colon :: sign negative ++ ds ++ rest)
      = if Numeral.value ds ≤ maxMagnitude negative then
          (integerState negative ds S Q).append rest
        else .error (.undefined "signed overflow") := by
  have hsign : run RespParser.feed (idle S Q) (colon :: sign negative)
      = .ok (integerState negative [] S Q) := by
    rw [(quiet_sign negative S Q).run]
    cases negative <;> rfl
  rw [List.append_assoc, RespParser.append, run_append_ok _ hsign, run_append,
    run_digits negative S Q ds hds]
  split <;> rfl

/-- The numeral of an integer is read as the number it stands for, or it is refused if there is no
such `int64_t`; and no digit on the way makes the accumulator overflow. -/
structure IntegerExact (reserve : Reserve) (negative : Bool) (ds : Bytes) : Prop where
  outcome : ∀ S Q,
    (∃ n : Int64, n.toInt = signed negative (Numeral.value ds) ∧
      (idle S Q).appendReserving reserve (colon :: sign negative ++ ds ++ crlf)
        = finished S Q (.integer n)) ∨
    ((∀ n : Int64, n.toInt ≠ signed negative (Numeral.value ds)) ∧
      ∃ msg, (idle S Q).appendReserving reserve (colon :: sign negative ++ ds ++ crlf)
        = .error (.exception msg))
  steps : ∀ S Q pre, pre <+: ds → ∀ what,
    (idle S Q).appendReserving reserve (colon :: sign negative ++ pre) ≠ .error (.undefined what)

theorem integer_line_sizeless (negative : Bool) {ds : Bytes} (hds : ∀ c ∈ ds, Numeral.IsDigit c)
    (tail : Bytes) (htail : tail = [] ∨ tail = crlf) :
    ∀ c ∈ colon :: sign negative ++ ds ++ tail, c ≠ dollar ∧ c ≠ star := by
  have hhead : ∀ c ∈ colon :: sign negative, c ≠ dollar ∧ c ≠ star := by
    cases negative <;> decide +kernel
  have hend : ∀ c ∈ tail, c ≠ dollar ∧ c ≠ star := by
    rcases htail with rfl | rfl <;> decide +kernel
  intro c hc
  rcases List.mem_append.mp hc with hc | hc
  · rcases List.mem_append.mp hc with hc | hc
    · exact hhead c hc
    · exact ⟨(hds c hc).ne (by decide), (hds c hc).ne (by decide)⟩
  · exact hend c hc

/-- A numeral that fits is taken in. -/
theorem append_integer {negative : Bool} {ds : Bytes} {n : Int64}
    (hds : ∀ c ∈ ds, Numeral.IsDigit c) (hn : n.toInt = signed negative (Numeral.value ds))
    (S : List RespState) (Q : List RespValue) :
    (idle S Q).append (colon :: sign negative ++ ds ++ crlf) = finished S Q (.integer n) := by
  obtain ⟨body, s₁, hbody, hq, hf⟩ := reads_integer hds (le_maxMagnitude hn) S Q
  rw [← hn, Int64.ofInt_toInt] at hf
  rw [hbody, RespParser.append, run_append_ok _ hq.run, run_singleton, hf]

theorem appendReserving_integer (reserve : Reserve) {negative : Bool} {ds : Bytes} {n : Int64}
    (hds : ∀ c ∈ ds, Numeral.IsDigit c) (hn : n.toInt = signed negative (Numeral.value ds))
    (S : List RespState) (Q : List RespValue) :
    (idle S Q).appendReserving reserve (colon :: sign negative ++ ds ++ crlf)
      = finished S Q (.integer n) := by
  have hline := integer_line_sizeless negative hds crlf (.inr rfl)
  rw [appendReserving_of_no_size reserve (by simp [idle]) hline, append_integer hds hn]

theorem appendReserving_digits (reserve : Reserve) (negative : Bool) (S : List RespState)
    (Q : List RespValue) {ds : Bytes} (hds : ∀ c ∈ ds, Numeral.IsDigit c) :
    (idle S Q).appendReserving reserve (colon :: sign negative ++ ds)
      = if Numeral.value ds ≤ maxMagnitude negative then .ok (integerState negative ds S Q)
        else .error (.undefined "signed overflow") := by
  have hline := integer_line_sizeless negative hds [] (.inl rfl)
  have hall := append_digits negative S Q hds []
  rw [List.append_nil] at hline hall
  rw [appendReserving_of_no_size reserve (by simp [idle]) hline, hall]
  rfl

/-- If the number does not fit, some digit takes the accumulator out of its range; if it does fit,
so does the number of every part of its digits. -/
theorem integerExact_iff (reserve : Reserve) {negative : Bool} {ds : Bytes}
    (hds : ∀ c ∈ ds, Numeral.IsDigit c) :
    IntegerExact reserve negative ds ↔ FitsInt64 (signed negative (Numeral.value ds)) := by
  constructor
  · intro h
    by_contra hfits
    rw [fitsInt64_signed] at hfits
    refine h.steps [] [] ds (List.prefix_refl ds) "signed overflow" ?_
    rw [appendReserving_digits reserve negative [] [] hds, if_neg hfits]
  · intro hfits
    have hto : (Int64.ofInt (signed negative (Numeral.value ds))).toInt
        = signed negative (Numeral.value ds) := Int64.toInt_ofInt_of_le hfits.1 hfits.2
    refine ⟨fun S Q => Or.inl ⟨_, hto, appendReserving_integer reserve hds hto S Q⟩, ?_⟩
    rintro S Q pre ⟨rest, rfl⟩ what
    have hle := Nat.le_trans (Numeral.value_le_append pre rest) (fitsInt64_signed.mp hfits)
    have hpre : ∀ c ∈ pre, Numeral.IsDigit c := fun c hc => hds c (by simp [hc])
    rw [appendReserving_digits reserve negative S Q hpre, if_pos hle]
    exact nofun

/-! ## Lengths and counts

The accumulator is a `size_t` and wraps without a word, so a length that does not fit is another
length. -/

/-- The parser behind the size line of `n`: `n` bytes belong to the bulk string, `n` values to the
array. -/
def declared (isArray : Bool) (n : Nat) (S : List RespState) (Q : List RespValue) :
    Except Fault RespParser :=
  if isArray then RespParser.finish ⟨.waitLFSZ, ⟨.array (some []), n⟩, S, Q⟩
  else .ok ⟨.readBulk, ⟨.bulkString (some []), n⟩, S, Q⟩

/-- The numeral of a size is taken for the number it stands for, or it is refused: by `reserve`,
which may refuse that many bytes or values, or because the number does not fit. And on the way the
number held is that of the digits read. -/
structure SizeExact (reserve : Reserve) (isArray : Bool) (ds : Bytes) : Prop where
  outcome : ∀ S Q,
    (reserve isArray (Numeral.value ds) = none ∧
      (idle S Q).appendReserving reserve ((if isArray then star else dollar) :: ds ++ crlf)
        = declared isArray (Numeral.value ds) S Q) ∨
    (∃ what, reserve isArray (Numeral.value ds) = some what ∧
      (idle S Q).appendReserving reserve ((if isArray then star else dollar) :: ds ++ crlf)
        = .error (.exception what)) ∨
    (¬ FitsSize (Numeral.value ds) ∧ ∃ msg,
      (idle S Q).appendReserving reserve ((if isArray then star else dollar) :: ds ++ crlf)
        = .error (.exception msg))
  steps : ∀ S Q pre, pre <+: ds →
    (∃ p, (idle S Q).appendReserving reserve ((if isArray then star else dollar) :: pre) = .ok p ∧
      p.node.total = Numeral.value pre) ∨
    ∃ msg, (idle S Q).appendReserving reserve ((if isArray then star else dollar) :: pre)
      = .error (.exception msg)

theorem quiet_size_digits (isArray : Bool) {ds : Bytes} (hds : ∀ c ∈ ds, Numeral.IsDigit c)
    (S : List RespState) (Q : List RespValue) :
    Quiet (idle S Q) ((if isArray then star else dollar) :: ds)
      ⟨.readSize, ⟨sized isArray (!ds.isEmpty), Numeral.value ds % 2 ^ 64⟩, S, Q⟩ := by
  have htype : Quiet (idle S Q) [if isArray then star else dollar]
      ⟨.readSize, ⟨sized isArray false, 0⟩, S, Q⟩ := by
    cases isArray <;> exact .single (by rfl) rfl
  exact htype.trans (quiet_digits_sized isArray S Q ds hds)

theorem size_line_no_cr (isArray : Bool) {ds : Bytes} (hds : ∀ c ∈ ds, Numeral.IsDigit c) :
    ∀ c ∈ (if isArray then star else dollar) :: ds, c ≠ cr := by
  intro c hc
  rcases List.mem_cons.mp hc with rfl | hc
  · cases isArray <;> decide
  · exact (hds c hc).ne (by decide)

/-- The parser behind the digits of a size. -/
theorem appendReserving_size_digits (reserve : Reserve) (isArray : Bool) {ds : Bytes}
    (hds : ∀ c ∈ ds, Numeral.IsDigit c) (S : List RespState) (Q : List RespValue) :
    (idle S Q).appendReserving reserve ((if isArray then star else dollar) :: ds)
      = .ok ⟨.readSize, ⟨sized isArray (!ds.isEmpty), Numeral.value ds % 2 ^ 64⟩, S, Q⟩ := by
  rw [appendReserving_of_no_cr reserve _ (size_line_no_cr isArray hds)]
  exact (quiet_size_digits isArray hds S Q).run

/-- The whole size line: `reserve` is asked for the number held. -/
theorem appendReserving_sizeLine (reserve : Reserve) (isArray : Bool) {ds : Bytes}
    (hds : ∀ c ∈ ds, Numeral.IsDigit c) (hne : ds ≠ []) (S : List RespState) (Q : List RespValue) :
    (idle S Q).appendReserving reserve ((if isArray then star else dollar) :: ds ++ crlf)
      = match reserve isArray (Numeral.value ds % 2 ^ 64) with
        | some what => .error (.exception what)
        | none => declared isArray (Numeral.value ds % 2 ^ 64) S Q := by
  have hdigits := appendReserving_size_digits reserve isArray hds S Q
  rw [show ds.isEmpty = false by simpa using hne] at hdigits
  generalize Numeral.value ds % 2 ^ 64 = total at hdigits ⊢
  have hcr : RespParser.feedReserving reserve ⟨.readSize, ⟨sized isArray true, total⟩, S, Q⟩ cr
      = match reserve isArray total with
        | some what => .error (.exception what)
        | none => .ok ⟨.waitLFSZ, ⟨sized isArray true, total⟩, S, Q⟩ := by
    cases isArray <;> rfl
  rw [RespParser.appendReserving, run_append_ok _ hdigits, show crlf = [cr] ++ [lf] from rfl,
    run_append, run_singleton]
  show RespParser.feedReserving reserve ⟨.readSize, ⟨sized isArray true, total⟩, S, Q⟩ cr >>= _ = _
  rw [hcr]
  cases reserve isArray total with
  | some what => rfl
  | none =>
    show run _ _ [lf] = _
    rw [run_singleton, feedReserving_of_ne_readSize reserve (by simp)]
    cases isArray <;> rfl

/-- A number that does not fit is held wrapped behind its last digit; one that fits, and so the
number of every part of its digits, is held as it is. -/
theorem sizeExact_iff (reserve : Reserve) {isArray : Bool} {ds : Bytes}
    (hds : ∀ c ∈ ds, Numeral.IsDigit c) (hne : ds ≠ []) :
    SizeExact reserve isArray ds ↔ FitsSize (Numeral.value ds) := by
  constructor
  · intro h
    have hdigits := appendReserving_size_digits reserve isArray hds [] []
    rcases h.steps [] [] ds (List.prefix_refl ds) with ⟨p, hp, htotal⟩ | ⟨msg, hmsg⟩
    · rw [hdigits] at hp
      cases hp
      exact htotal ▸ Nat.mod_lt _ (by decide)
    · rw [hdigits] at hmsg
      cases hmsg
  · intro hfits
    refine ⟨fun S Q => ?_, ?_⟩
    · have hline := appendReserving_sizeLine reserve isArray hds hne S Q
      rw [Nat.mod_eq_of_lt hfits] at hline
      cases hreserve : reserve isArray (Numeral.value ds) with
      | none =>
        rw [hreserve] at hline
        exact Or.inl ⟨rfl, hline⟩
      | some what =>
        rw [hreserve] at hline
        exact Or.inr (Or.inl ⟨what, rfl, hline⟩)
    · rintro S Q pre ⟨rest, rfl⟩
      have hpre : ∀ c ∈ pre, Numeral.IsDigit c := fun c hc => hds c (by simp [hc])
      refine Or.inl ⟨_, appendReserving_size_digits reserve isArray hpre S Q, ?_⟩
      exact Nat.mod_eq_of_lt (Nat.lt_of_le_of_lt (Numeral.value_le_append pre rest) hfits)

/-! ## The result -/

/-- **A numeral is read as the number it stands for exactly when that number fits.** For every
string of digits, wherever the parser meets it, and whatever sizes `reserve` refuses: as an integer,
with a minus in front or without, it gives the number or is refused, and overflows nothing, if and
only if the number is an `int64_t`; as a length or a count it is used as the number, or refused, and
never wraps, if and only if the number is a `size_t`. Every `int64_t` is accepted.

Digits are only ever added behind those read so far, so the number held grows with them, and the
whole numeral decides. -/
theorem numerals_exact (reserve : Reserve) (ds : Bytes) (hds : ∀ c ∈ ds, Numeral.IsDigit c) :
    (∀ negative, IntegerExact reserve negative ds ↔
      FitsInt64 (signed negative (Numeral.value ds))) ∧
    (ds ≠ [] → ∀ isArray, SizeExact reserve isArray ds ↔ FitsSize (Numeral.value ds)) ∧
    ∀ (negative : Bool) (n : Int64), n.toInt = signed negative (Numeral.value ds) → ∀ S Q,
      (idle S Q).appendReserving reserve (colon :: sign negative ++ ds ++ crlf)
        = finished S Q (.integer n) :=
  ⟨fun _ => integerExact_iff reserve hds, fun hne _ => sizeExact_iff reserve hds hne,
    fun _ _ hn => appendReserving_integer reserve hds hn⟩

/-- The limits of 64-bit libstdc++: a string has less than `2 ^ 63` bytes, a vector of pointers less
than `2 ^ 60` elements. -/
def maxSizes : Reserve
  | true, n => if 2 ^ 60 ≤ n then some "vector::reserve" else none
  | false, n => if 2 ^ 63 ≤ n then some "basic_string::_M_create" else none

/-- `2 ^ 63` is the smallest `int64_t` with a minus in front, and none without; it is a `size_t`,
and refused as a length. -/
theorem numerals_exact_minimum :
    let ds := ascii "9223372036854775808"
    ((∀ negative, IntegerExact maxSizes negative ds ↔
        FitsInt64 (signed negative (Numeral.value ds))) ∧
      (ds ≠ [] → ∀ isArray, SizeExact maxSizes isArray ds ↔ FitsSize (Numeral.value ds)) ∧
      ∀ (negative : Bool) (n : Int64), n.toInt = signed negative (Numeral.value ds) → ∀ S Q,
        (idle S Q).appendReserving maxSizes (colon :: sign negative ++ ds ++ crlf)
          = finished S Q (.integer n)) ∧
    (idle [] []).appendReserving maxSizes (dollar :: ds ++ crlf)
      = .error (.exception "basic_string::_M_create") := by
  have hds : ∀ c ∈ ascii "9223372036854775808", Numeral.IsDigit c := by decide +kernel
  refine ⟨numerals_exact maxSizes _ hds, ?_⟩
  have hline := appendReserving_sizeLine maxSizes false hds (by decide +kernel) [] []
  rw [show Numeral.value (ascii "9223372036854775808") % 2 ^ 64 = 2 ^ 63 by decide +kernel] at hline
  exact hline

/-- `:9223372036854775808` overflows, and `$18446744073709551617` is taken for the length one: the
byte behind the line is a bulk string, and the rest is read as what comes next. -/
theorem numerals_wrap :
    ¬ IntegerExact maxSizes false (ascii "9223372036854775808") ∧
    ¬ SizeExact maxSizes false (ascii "18446744073709551617") ∧
    (idle [] []).appendReserving maxSizes (ascii ":9223372036854775808\r\n")
      = .error (.undefined "signed overflow") ∧
    ∃ p, (idle [] []).appendReserving maxSizes (ascii "$18446744073709551617\r\na\r\n:7\r\n")
        = .ok p ∧
      p.messageQueue = [.bulkString (some (ascii "a")), .integer 7] := by
  have hint : ∀ c ∈ ascii "9223372036854775808", Numeral.IsDigit c := by decide +kernel
  have hsize : ∀ c ∈ ascii "18446744073709551617", Numeral.IsDigit c := by decide +kernel
  refine ⟨fun h => ?_, fun h => ?_, ?_, ?_⟩
  · exact absurd ((integerExact_iff maxSizes hint).mp h).2 (by decide +kernel)
  · exact absurd ((sizeExact_iff maxSizes hsize (by decide +kernel)).mp h) (by decide +kernel)
  · have hall := append_digits false [] [] hint crlf
    rw [if_neg (by decide +kernel)] at hall
    exact (appendReserving_of_no_size maxSizes (by simp [idle])
      (integer_line_sizeless false hint crlf (.inr rfl))).trans hall
  · have hline := appendReserving_sizeLine maxSizes false hsize (by decide +kernel) [] []
    rw [show Numeral.value (ascii "18446744073709551617") % 2 ^ 64 = 1 by decide +kernel] at hline
    refine ⟨idle [] [.bulkString (some (ascii "a")), .integer 7], ?_, rfl⟩
    refine (run_append_ok _ hline (ascii "a\r\n:7\r\n")).trans ?_
    rfl

end Resp
end KvJet
