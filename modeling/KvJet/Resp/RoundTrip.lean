import KvJet.Resp.Grammar
import KvJet.Resp.Parser

/-!
# Parsing what was encoded

The simulation between the recursive encoder and the byte-at-a-time machine. Its heart is
`reads_spelled`: from a parser at rest, with *any* stack of open arrays, a text that spells a
value is read silently up to its final LF, and that byte does what `push` does with the value.
Leaving the stack arbitrary is what makes the induction over nested arrays go through: an
element is read with its own array on top of whatever was there.

The stream theorem is then the library's (`Stream.run_values`, `Stream.run_take`), at the
empty stack.
-/

namespace KvJet
namespace Resp

open Stream

abbrev Quiet := Silent RespParser.feed RespParser.messageQueue

/-- A parser between two values. -/
def idle (stack : List RespState) (queue : List RespValue) : RespParser :=
  { stateStack := stack, messageQueue := queue }

/-! ## The size line

Between the header and the LF the parser is in the same state with a growing number, so a line is
read by induction on its digits. -/

/-- The nodes of the two types that have a size line, before and after its first digit. -/
def sized (isArray filled : Bool) : RespValue :=
  if isArray then .array (if filled then some [] else none)
  else .bulkString (if filled then some [] else none)

theorem feed_digit_sized (isArray filled : Bool) {t : Nat} {c : UInt8} (S : List RespState)
    (Q : List RespValue) (hc : Numeral.IsDigit c) (hf : filled = true ∨ t = 0) :
    RespParser.feed ⟨.readSize, ⟨sized isArray filled, t⟩, S, Q⟩ c
      = .ok ⟨.readSize, ⟨sized isArray true, (t * 10 + Numeral.digitVal c) % 2 ^ 64⟩, S, Q⟩ := by
  have h1 : c ≠ minus := hc.ne (by decide)
  have h2 : c ≠ cr := hc.ne (by decide)
  simp only [RespParser.feed, if_neg h1, if_neg h2, if_pos hc]
  cases isArray <;> cases filled <;> simp_all [sized]

theorem quiet_digits_sized (isArray : Bool) (S : List RespState) (Q : List RespValue)
    (ds : Bytes) (hds : ∀ c ∈ ds, Numeral.IsDigit c) :
    Quiet ⟨.readSize, ⟨sized isArray false, 0⟩, S, Q⟩ ds
      ⟨.readSize, ⟨sized isArray (!ds.isEmpty), Numeral.value ds % 2 ^ 64⟩, S, Q⟩ := by
  induction ds using List.reverseRecOn with
  | nil => exact .nil _
  | append_singleton ds c ih =>
    have hstep := feed_digit_sized isArray (!ds.isEmpty)
      (t := Numeral.value ds % 2 ^ 64) S Q (hds c (by simp)) (by cases ds <;> simp)
    have htot : (Numeral.value ds % 2 ^ 64 * 10 + Numeral.digitVal c) % 2 ^ 64
        = Numeral.value (ds ++ [c]) % 2 ^ 64 := by
      rw [Numeral.value_append_singleton]
      omega
    rw [htot] at hstep
    have hfull : (!(ds ++ [c]).isEmpty) = true := by cases ds <;> rfl
    rw [hfull]
    exact (ih fun b hb => hds b (by simp [hb])).trans (.single hstep rfl)

/-- A size line, from the type byte to its LF (which is not read). -/
theorem quiet_sizeLine (isArray : Bool) (S : List RespState) (Q : List RespValue) {ds : Bytes}
    (hds : ∀ c ∈ ds, Numeral.IsDigit c) (hne : ds ≠ []) :
    Quiet (idle S Q) ((if isArray then star else dollar) :: ds ++ [cr])
      ⟨.waitLFSZ, ⟨sized isArray true, Numeral.value ds % 2 ^ 64⟩, S, Q⟩ := by
  have hdigits := quiet_digits_sized isArray S Q ds hds
  rw [show ds.isEmpty = false by simpa using hne] at hdigits
  have htype : Quiet (idle S Q) [if isArray then star else dollar]
      ⟨.readSize, ⟨sized isArray false, 0⟩, S, Q⟩ := by
    cases isArray <;> exact .single (by rfl) rfl
  have hcr : Quiet ⟨.readSize, ⟨sized isArray true, Numeral.value ds % 2 ^ 64⟩, S, Q⟩ [cr]
      ⟨.waitLFSZ, ⟨sized isArray true, Numeral.value ds % 2 ^ 64⟩, S, Q⟩ := by
    cases isArray <;> exact .single (by rfl) rfl
  exact (htype.trans hdigits).trans hcr

/-! ## The lines of text -/

theorem quiet_simpleString (S : List RespState) (Q : List RespValue) (s₀ s : Bytes)
    (hs : cr ∉ s) :
    Quiet ⟨.readLine, ⟨.simpleString s₀, 0⟩, S, Q⟩ s
      ⟨.readLine, ⟨.simpleString (s₀ ++ s), 0⟩, S, Q⟩ := by
  induction s generalizing s₀ with
  | nil => simpa using Silent.nil _
  | cons c s ih =>
    have hc : c ≠ cr := fun h => hs (by simp [h])
    refine .cons (m := ⟨.readLine, ⟨.simpleString (s₀ ++ [c]), 0⟩, S, Q⟩) ?_ rfl ?_
    · simp only [RespParser.feed, if_neg hc]
    · simpa using ih (s₀ ++ [c]) fun h => hs (by simp [h])

theorem quiet_error (S : List RespState) (Q : List RespValue) (s₀ s : Bytes) (hs : cr ∉ s) :
    Quiet ⟨.readLine, ⟨.error s₀, 0⟩, S, Q⟩ s ⟨.readLine, ⟨.error (s₀ ++ s), 0⟩, S, Q⟩ := by
  induction s generalizing s₀ with
  | nil => simpa using Silent.nil _
  | cons c s ih =>
    have hc : c ≠ cr := fun h => hs (by simp [h])
    refine .cons (m := ⟨.readLine, ⟨.error (s₀ ++ [c]), 0⟩, S, Q⟩) ?_ rfl ?_
    · simp only [RespParser.feed, if_neg hc]
    · simpa using ih (s₀ ++ [c]) fun h => hs (by simp [h])

/-- The bytes of a bulk string are taken as they are: what ends it is the count. -/
theorem quiet_bulk (S : List RespState) (Q : List RespValue) (s₀ s : Bytes) {n : Nat}
    (hn : s₀.length + s.length = n) :
    Quiet ⟨.readBulk, ⟨.bulkString (some s₀), n⟩, S, Q⟩ s
      ⟨.readBulk, ⟨.bulkString (some (s₀ ++ s)), n⟩, S, Q⟩ := by
  induction s generalizing s₀ with
  | nil => simpa using Silent.nil _
  | cons c s ih =>
    rw [List.length_cons] at hn
    have hlt : s₀.length ≠ n := by omega
    refine .cons (m := ⟨.readBulk, ⟨.bulkString (some (s₀ ++ [c])), n⟩, S, Q⟩) ?_ rfl ?_
    · simp only [RespParser.feed, if_neg hlt]
    · simpa using ih (s₀ ++ [c]) (by simp; omega)

/-! ## Integers -/

/-- The largest magnitude of an `int64_t` of the given sign. -/
def maxMagnitude (negative : Bool) : Nat := if negative then 2 ^ 63 else 2 ^ 63 - 1

theorem accumulate_eq {negative : Bool} {k d : Nat} (h : k * 10 + d ≤ maxMagnitude negative) :
    accumulate (Int64.ofInt (signed negative k)) negative d
      = .ok (Int64.ofInt (signed negative (k * 10 + d))) := by
  have hk : (Int64.ofInt (signed negative k)).toInt = signed negative k := by
    apply Int64.toInt_ofInt_of_le <;> cases negative <;>
      simp only [signed, maxMagnitude, Bool.false_eq_true, if_false, if_true] at * <;> omega
  have hmoved : (if negative then signed negative k * 10 - d else signed negative k * 10 + d)
      = signed negative (k * 10 + d) := by
    cases negative <;> simp only [signed, Bool.false_eq_true, if_false, if_true] <;> omega
  unfold accumulate
  simp only [hk, hmoved]
  rw [if_pos]
  cases negative <;>
    simp only [signed, maxMagnitude, Bool.false_eq_true, if_false, if_true, Bool.and_eq_true,
      decide_eq_true_eq] at * <;> omega

/-- The digits of an integer are accumulated with its sign, so the most negative `int64_t` is
read without ever being negated. -/
theorem quiet_digits_integer (negative : Bool) (S : List RespState) (Q : List RespValue)
    (ds : Bytes) (hds : ∀ c ∈ ds, Numeral.IsDigit c)
    (hle : Numeral.value ds ≤ maxMagnitude negative) :
    Quiet ⟨.readLine, ⟨.integer 0, if negative then negMark else 0⟩, S, Q⟩ ds
      ⟨.readLine, ⟨.integer (Int64.ofInt (signed negative (Numeral.value ds))),
        if negative then negMark else if ds.isEmpty then 0 else 1⟩, S, Q⟩ := by
  induction ds using List.reverseRecOn with
  | nil => cases negative <;> exact .nil _
  | append_singleton ds c ih =>
    rw [Numeral.value_append_singleton] at hle ⊢
    refine (ih (fun b hb => hds b (by simp [hb])) (by omega)).trans (.single ?_ rfl)
    have hc : Numeral.IsDigit c := hds c (by simp)
    have hcr : c ≠ cr := hc.ne (by decide)
    have hm : c ≠ minus := hc.ne (by decide)
    have hacc := accumulate_eq hle
    simp only [RespParser.feed, if_neg hcr, if_neg hm, if_pos hc]
    cases negative with
    | false =>
      simp [hacc, bind, Except.bind, pure, Except.pure]
    | true => simp [negMark, hacc, bind, Except.bind, pure, Except.pure]

/-! ## One value, with any arrays open around it -/

/-- The declared size of a finished value, which only matters for an array. -/
def RespValue.total : RespValue → Nat
  | .array (some xs) => xs.length
  | _ => 0

/-- What the last byte of a value does: `push` it onto the arrays that are open. -/
def finished (S : List RespState) (Q : List RespValue) (v : RespValue) : Except Fault RespParser :=
  RespParser.finish ⟨.waitLF, ⟨v, v.total⟩, S, Q⟩

/-- The text `bs` is read silently up to a final LF, which finishes the value `v`. -/
def Reads (start : RespParser) (bs : Bytes) (S : List RespState) (Q : List RespValue)
    (v : RespValue) : Prop :=
  ∃ body s₁, bs = body ++ [lf] ∧ Quiet start body s₁ ∧ s₁.feed lf = finished S Q v

/-- Only an array looks at the declared size. -/
theorem finish_eq_finished (st : ParseState) {v : RespValue} {t : Nat} (S : List RespState)
    (Q : List RespValue) (h : ∀ xs, v = .array (some xs) → t = xs.length) :
    RespParser.finish ⟨st, ⟨v, t⟩, S, Q⟩ = finished S Q v := by
  cases v with
  | array o =>
    cases o with
    | none => cases S <;> simp [finished, RespParser.finish, push, RespState.isOpen]
    | some xs => rw [h xs rfl]; rfl
  | _ => cases S <;> simp [finished, RespParser.finish, push, RespState.isOpen]

/-- A line of text: the type byte and the text, read into `v`, then CR and LF. -/
theorem reads_line {S : List RespState} {Q : List RespValue} {v : RespValue} {t : Nat}
    {body : Bytes} (hv : ∀ xs, v ≠ .array (some xs))
    (hq : Quiet (idle S Q) body ⟨.readLine, ⟨v, t⟩, S, Q⟩) :
    Reads (idle S Q) (body ++ crlf) S Q v := by
  refine ⟨body ++ [cr], ⟨.waitLF, ⟨v, t⟩, S, Q⟩, by simp [crlf], ?_, ?_⟩
  · exact hq.trans (.single (by simp [RespParser.feed]) rfl)
  · rw [← finish_eq_finished .waitLF (t := t) S Q fun xs h => absurd h (hv xs)]
    simp [RespParser.feed]

/-- The nil forms `$-1` and `*-1`. -/
theorem reads_nil (isArray : Bool) (S : List RespState) (Q : List RespValue) :
    Reads (idle S Q) ((if isArray then star else dollar) :: minus :: 49 :: crlf) S Q
      (sized isArray false) := by
  refine ⟨[if isArray then star else dollar, minus, 49, cr],
    ⟨.waitLF, ⟨sized isArray false, 0⟩, S, Q⟩, by simp [crlf], ?_, ?_⟩
  · refine .cons (m := ⟨.readSize, ⟨sized isArray false, 0⟩, S, Q⟩) ?_ rfl
      (.cons (m := ⟨.waitNil, ⟨sized isArray false, 0⟩, S, Q⟩) ?_ rfl
        (.cons (m := ⟨.waitNilCR, ⟨sized isArray false, 0⟩, S, Q⟩) ?_ rfl (.single ?_ rfl))) <;>
      cases isArray <;> rfl
  · rw [← finish_eq_finished .waitLF (t := 0) S Q fun xs h => by
      cases isArray <;> simp [sized] at h]
    simp [RespParser.feed]

/-- The size line of a bulk string and its content: the count, taken modulo `2 ^ 64`, says how many
bytes belong to it. -/
theorem quiet_content {ds s : Bytes} (hds : ∀ c ∈ ds, Numeral.IsDigit c) (hne : ds ≠ [])
    (hs : Numeral.value ds % 2 ^ 64 = s.length) (S : List RespState) (Q : List RespValue) :
    Quiet (idle S Q) (dollar :: ds ++ crlf ++ s)
      ⟨.readBulk, ⟨.bulkString (some s), s.length⟩, S, Q⟩ := by
  have hhead := quiet_sizeLine false S Q hds hne
  rw [hs] at hhead
  have hlf : Quiet ⟨.waitLFSZ, ⟨sized false true, s.length⟩, S, Q⟩ [lf]
      ⟨.readBulk, ⟨.bulkString (some []), s.length⟩, S, Q⟩ := .single rfl rfl
  have hbody := quiet_bulk S Q [] s (n := s.length) (by simp)
  have hall := (hhead.trans hlf).trans hbody
  rwa [show (if false then star else dollar) :: ds ++ [cr] ++ [lf] ++ s
    = dollar :: ds ++ crlf ++ s by simp [crlf]] at hall

theorem quiet_content_cr {ds s : Bytes} (hds : ∀ c ∈ ds, Numeral.IsDigit c) (hne : ds ≠ [])
    (hs : Numeral.value ds % 2 ^ 64 = s.length) (S : List RespState) (Q : List RespValue) :
    Quiet (idle S Q) (dollar :: ds ++ crlf ++ s ++ [cr])
      ⟨.waitLF, ⟨.bulkString (some s), s.length⟩, S, Q⟩ :=
  (quiet_content hds hne hs S Q).trans (.single (by simp [RespParser.feed]) rfl)

theorem reads_bulkString {ds s : Bytes} (hds : ∀ c ∈ ds, Numeral.IsDigit c) (hne : ds ≠ [])
    (hs : Numeral.value ds % 2 ^ 64 = s.length) (S : List RespState) (Q : List RespValue) :
    Reads (idle S Q) (dollar :: ds ++ crlf ++ s ++ crlf) S Q (.bulkString (some s)) := by
  refine ⟨_, _, ?_, quiet_content_cr hds hne hs S Q, ?_⟩
  · simp [crlf]
  · rw [← finish_eq_finished .waitLF (t := s.length) S Q fun xs h => by simp at h]
    simp [RespParser.feed]

/-- The type byte and the sign of an integer. -/
theorem quiet_sign (negative : Bool) (S : List RespState) (Q : List RespValue) :
    Quiet (idle S Q) (colon :: sign negative)
      ⟨.readLine, ⟨.integer 0, if negative then negMark else 0⟩, S, Q⟩ := by
  have htype : Quiet (idle S Q) [colon] ⟨.readLine, ⟨.integer 0, 0⟩, S, Q⟩ := .single rfl rfl
  cases negative with
  | false => exact htype
  | true =>
    have hminus : Quiet ⟨.readLine, ⟨.integer 0, 0⟩, S, Q⟩ [minus]
        ⟨.readLine, ⟨.integer 0, negMark⟩, S, Q⟩ := .single rfl rfl
    exact htype.trans hminus

/-- An integer; digits are not asked for. -/
theorem reads_integer {negative : Bool} {ds : Bytes} (hds : ∀ c ∈ ds, Numeral.IsDigit c)
    (hle : Numeral.value ds ≤ maxMagnitude negative) (S : List RespState) (Q : List RespValue) :
    Reads (idle S Q) (colon :: sign negative ++ ds ++ crlf) S Q
      (.integer (Int64.ofInt (signed negative (Numeral.value ds)))) :=
  reads_line (by simp)
    ((quiet_sign negative S Q).trans (quiet_digits_integer negative S Q ds hds hle))

theorem le_maxMagnitude {negative : Bool} {k : Nat} {n : Int64} (h : n.toInt = signed negative k) :
    k ≤ maxMagnitude negative := by
  have hlo := n.le_toInt
  have hhi := n.toInt_lt
  cases negative <;> simp only [signed, maxMagnitude, Bool.false_eq_true, if_false, if_true] at * <;>
    omega

theorem isOpen_total (x : RespValue) : RespState.isOpen ⟨x, x.total⟩ = false := by
  cases x with
  | array o => cases o <;> simp [RespState.isOpen, RespValue.total]
  | _ => rfl

/-- An array with elements missing waits on the stack. -/
theorem push_open {s : RespState} (h : s.isOpen = true) (S : List RespState)
    (Q : List RespValue) : push S s Q = .ok (s :: S, Q) := by
  unfold push
  exact if_pos h

/-- A finished value goes into the innermost open array, and closes it if it was the last. -/
theorem push_element {n : Nat} {pre : List RespValue} (x : RespValue) (S : List RespState)
    (Q : List RespValue) :
    push (⟨.array (some pre), n⟩ :: S) ⟨x, x.total⟩ Q
      = if pre.length + 1 = n then push S ⟨.array (some (pre ++ [x])), n⟩ Q
        else .ok (⟨.array (some (pre ++ [x])), n⟩ :: S, Q) := by
  rw [push, if_neg (by simp [isOpen_total])]

/-- The next element of an open array, with others behind it: the array stays open. -/
theorem reads_element {n : Nat} {pre : List RespValue} {u w : Bytes} {x v : RespValue}
    {S : List RespState} {Q : List RespValue}
    (hx : Reads (idle (⟨.array (some pre), n⟩ :: S) Q) u (⟨.array (some pre), n⟩ :: S) Q x)
    (hn : pre.length + 1 ≠ n)
    (hw : Reads (idle (⟨.array (some (pre ++ [x])), n⟩ :: S) Q) w S Q v) :
    Reads (idle (⟨.array (some pre), n⟩ :: S) Q) (u ++ w) S Q v := by
  obtain ⟨body, s₁, hbody, hq, hf⟩ := hx
  obtain ⟨body', s₂, hbody', hq', hf'⟩ := hw
  have hstep : s₁.feed lf = .ok (idle (⟨.array (some (pre ++ [x])), n⟩ :: S) Q) := by
    rw [hf, finished, RespParser.finish, push_element, if_neg hn]
    rfl
  have hlast : Quiet s₁ [lf] (idle (⟨.array (some (pre ++ [x])), n⟩ :: S) Q) :=
    .single hstep hq.out_eq.symm
  exact ⟨body ++ [lf] ++ body', s₂, by simp [hbody, hbody'], (hq.trans hlast).trans hq', hf'⟩

/-- The last element of an open array closes it. -/
theorem reads_last {n : Nat} {pre : List RespValue} {u : Bytes} {x : RespValue}
    {S : List RespState} {Q : List RespValue}
    (hx : Reads (idle (⟨.array (some pre), n⟩ :: S) Q) u (⟨.array (some pre), n⟩ :: S) Q x)
    (hn : pre.length + 1 = n) :
    Reads (idle (⟨.array (some pre), n⟩ :: S) Q) u S Q (.array (some (pre ++ [x]))) := by
  obtain ⟨body, s₁, hbody, hq, hf⟩ := hx
  have htot : (RespValue.array (some (pre ++ [x]))).total = n := by
    rw [RespValue.total, List.length_append, List.length_singleton, hn]
  refine ⟨body, s₁, hbody, hq, ?_⟩
  rw [hf, finished, finished, RespParser.finish, RespParser.finish, push_element, if_pos hn, htot]

/-- An array: its size line, and then its elements, or nothing more. -/
theorem reads_array {ds w : Bytes} {xs : List RespValue} (hds : ∀ c ∈ ds, Numeral.IsDigit c)
    (hne : ds ≠ []) (hlen : Numeral.value ds = xs.length) (hsize : xs.length < 2 ^ 64)
    (S : List RespState) (Q : List RespValue) (hempty : xs = [] → w = [])
    (hw : xs ≠ [] → Reads (idle (⟨.array (some []), xs.length⟩ :: S) Q) w S Q (.array (some xs))) :
    Reads (idle S Q) (star :: ds ++ crlf ++ w) S Q (.array (some xs)) := by
  have hhead := quiet_sizeLine true S Q hds hne
  rw [hlen, Nat.mod_eq_of_lt hsize] at hhead
  cases xs with
  | nil =>
    -- `*0`: the size line already finishes the array
    refine ⟨_, _, ?_, hhead, ?_⟩
    · simp [crlf, hempty rfl]
    · rw [← finish_eq_finished .waitLFSZ (t := 0) S Q fun xs h => by cases h; rfl]
      rfl
  | cons x xs =>
    have hopen : Quiet ⟨.waitLFSZ, ⟨sized true true, (x :: xs).length⟩, S, Q⟩ [lf]
        (idle (⟨.array (some []), (x :: xs).length⟩ :: S) Q) := by
      refine .single ?_ rfl
      have ho : RespState.isOpen ⟨sized true true, (x :: xs).length⟩ = true := by
        simp [RespState.isOpen, sized]
      show RespParser.finish _ = _
      rw [RespParser.finish, push_open ho S Q]
      rfl
    obtain ⟨body, s₁, hbody, hq, hf⟩ := hw (by simp)
    refine ⟨_, s₁, ?_, (hhead.trans hopen).trans hq, hf⟩
    rw [hbody]
    simp [crlf]

/-- **Every value is read from every text that spells it, whatever is open around it.**

The induction is on how the value is spelled. An array puts itself on the stack, each of its
elements is read there as any value is, and with the last one `push` takes the array off and does
with it what it would do with a value that is read in one go; so the stack has to be arbitrary. -/
theorem reads_spelled {u : Bytes} {v : RespValue} (h : Spells u v) :
    ∀ (S : List RespState) (Q : List RespValue), Reads (idle S Q) u S Q v := by
  -- for the elements: from any part of the array on
  induction h using Spells.rec (motive_2 := fun w xs _ => ∀ (pre : List RespValue) (n : Nat)
    (S : List RespState) (Q : List RespValue), xs ≠ [] → pre.length + xs.length = n →
      Reads (idle (⟨.array (some pre), n⟩ :: S) Q) w S Q (.array (some (pre ++ xs)))) with
  | simpleString hs =>
    intro S Q
    have htype : Quiet (idle S Q) [plus] ⟨.readLine, ⟨.simpleString [], 0⟩, S, Q⟩ := .single rfl rfl
    exact reads_line (by simp) (htype.trans (quiet_simpleString S Q [] _ hs))
  | error hs =>
    intro S Q
    have htype : Quiet (idle S Q) [minus] ⟨.readLine, ⟨.error [], 0⟩, S, Q⟩ := .single rfl rfl
    exact reads_line (by simp) (htype.trans (quiet_error S Q [] _ hs))
  | integer hds hne hn =>
    intro S Q
    have h := reads_integer hds (le_maxMagnitude hn) S Q
    rwa [← hn, Int64.ofInt_toInt] at h
  | nilString => exact reads_nil false
  | bulkString hds hne hs hsize =>
    exact reads_bulkString hds hne (by rw [hs, Nat.mod_eq_of_lt hsize])
  | nilArray => exact reads_nil true
  | @array ds w xs hds hne hlen hsize hall ih =>
    intro S Q
    refine reads_array hds hne hlen hsize S Q ?_ fun hxs => ih [] _ S Q hxs (by simp)
    rintro rfl
    cases hall
    rfl
  | nil pre n S Q hne => exact absurd rfl hne
  | @cons u w x xs _ hall ihx ih pre n S Q _ hlen =>
    rw [List.length_cons] at hlen
    cases xs with
    | nil =>
      cases hall
      rw [List.append_nil]
      exact reads_last (ihx _ Q) hlen
    | cons y ys =>
      have hn : pre.length + 1 ≠ n := by rw [List.length_cons] at hlen; omega
      have hrest := ih (pre ++ [x]) n S Q (by simp) (by simp at hlen ⊢; omega)
      rw [List.append_assoc, List.singleton_append] at hrest
      exact reads_element (ihx _ Q) hn hrest

/-! ## The stream

The library's theorem about machines that fall silent between their outputs, at this machine. -/

/-- At the empty stack a value goes into the queue. -/
theorem emits_spelled {u : Bytes} {v : RespValue} (h : Spells u v) (Q : List RespValue) :
    Emits RespParser.feed RespParser.messageQueue (idle [] Q) u (idle [] (Q ++ [v])) := by
  obtain ⟨body, s₁, hbody, hq, hf⟩ := reads_spelled h [] Q
  refine ⟨body, lf, s₁, hbody, hq, ?_⟩
  rw [hf, finished, RespParser.finish, push, if_neg (by simp [isOpen_total])]
  rfl

theorem emits_encode {v : RespValue} (hw : v.Wire) (Q : List RespValue) :
    Emits RespParser.feed RespParser.messageQueue (idle [] Q) (encode v) (idle [] (Q ++ [v])) :=
  emits_spelled (spells_encode v hw) Q

/-- Feeding the encodings of `vs` queues exactly `vs`. -/
theorem append_encodings (vs : List RespValue) (hvs : ∀ v ∈ vs, v.Wire) (Q : List RespValue) :
    (idle [] Q).append (vs.flatMap encode) = .ok (idle [] (Q ++ vs)) :=
  run_values (idle []) Q fun v hv Q' => emits_encode (hvs v hv) Q'

/-- **The stream round trip.** However the encodings of `vs` are cut into chunks, a fresh
parser yields `vs` and is at rest; and after any initial part of them it has not thrown and
holds the values whose encodings lie inside that part.

The parser is a machine of one byte, so how the stream is cut does not matter; it is at rest between
values; and a text that spells a value brings it from rest to rest, with that value handed out at
the last byte and not before (`reads_spelled`). A part of the stream is so many whole encodings and
a beginning of the next, at which nothing is thrown. -/
theorem stream_round_trip (vs : List RespValue) (hvs : ∀ v ∈ vs, v.Wire) :
    (∀ chunks : List Bytes, chunks.flatten = vs.flatMap encode →
      ∃ p, RespParser.appendAll {} chunks = .ok p ∧ p.messageQueue = vs ∧
        p.state = .waitType ∧ p.stateStack = []) ∧
    (∀ part : Bytes, part <+: vs.flatMap encode →
      ∃ p j, RespParser.append {} part = .ok p ∧ j ≤ vs.length ∧ p.messageQueue = vs.take j ∧
        ∀ i ≤ vs.length, ((vs.take i).flatMap encode).length ≤ part.length ↔ i ≤ j) := by
  constructor
  · intro chunks hch
    refine ⟨idle [] vs, ?_, rfl, rfl, rfl⟩
    show Stream.runChunks RespParser.feed (idle [] []) chunks = _
    rw [runChunks_eq_run, hch]
    exact append_encodings vs hvs []
  · intro part hpart
    have hemits : ∀ v ∈ vs, ∀ Q, Emits RespParser.feed RespParser.messageQueue (idle [] Q)
        (encode v) (idle [] (Q ++ [v])) := fun v hv Q => emits_encode (hvs v hv) Q
    obtain ⟨j, p, hj, hr, ho, hi⟩ := run_take (idle []) [] hemits part.length
    rw [← List.prefix_iff_eq_take.mp hpart] at hr
    exact ⟨p, j, hr, hj, by simpa [idle] using ho, hi⟩

/-- A nested array, an empty and a nil bulk string and the smallest `int64_t`, cut in the middle
of the array. -/
theorem stream_round_trip_nested :
    let vs : List RespValue := [.array (some [.bulkString (some []), .array (some []),
      .bulkString none]), .integer (-9223372036854775808)]
    (∀ v ∈ vs, v.Wire) ∧ ∃ p j, RespParser.append {} (ascii "*3\r\n$0\r\n") = .ok p ∧
      j ≤ vs.length ∧ p.messageQueue = vs.take j ∧
      ∀ i ≤ vs.length, ((vs.take i).flatMap encode).length ≤ 8 ↔ i ≤ j := by
  intro vs
  have hvs : ∀ v ∈ vs, v.Wire := by simp [vs, RespValue.Wire, WireAll]
  exact ⟨hvs, (stream_round_trip vs hvs).2 (ascii "*3\r\n$0\r\n") (by decide)⟩

end Resp
end KvJet
