import KvJet.Resp.Numerals

/-!
# What the parser takes in

Where a value is due the parser takes in a line, with the counted bytes behind it if it is that
of a bulk string, and is then at rest again: these are its tokens. `append_cases` says what it
makes of any string: tokens and a part of one more, or it stops.

The tokens are those of the parser and not those of the grammar: an integer need not have a digit,
and the length of a bulk string is taken modulo `2 ^ 64`.
-/

namespace KvJet
namespace Resp

open Stream

inductive Token where
  | simpleString (s : Bytes)
  | error (s : Bytes)
  | integer (negative : Bool) (ds : Bytes)
  | nil (isArray : Bool)
  | bulkString (ds s : Bytes)
  /-- The size line of an array: its elements are tokens of their own. -/
  | array (ds : Bytes)

namespace Token

def text : Token → Bytes
  | simpleString s => plus :: s ++ crlf
  | error s => minus :: s ++ crlf
  | integer negative ds => colon :: sign negative ++ ds ++ crlf
  | nil isArray => (if isArray then star else dollar) :: minus :: 49 :: crlf
  | bulkString ds s => dollar :: ds ++ crlf ++ s ++ crlf
  | array ds => star :: ds ++ crlf

/-- The parser takes the token in. -/
def Taken : Token → Prop
  | simpleString s => cr ∉ s
  | error s => cr ∉ s
  | integer negative ds =>
    (∀ c ∈ ds, Numeral.IsDigit c) ∧ FitsInt64 (signed negative (Numeral.value ds))
  | nil _ => True
  | bulkString ds s =>
    (∀ c ∈ ds, Numeral.IsDigit c) ∧ ds ≠ [] ∧ Numeral.value ds % 2 ^ 64 = s.length
  | array ds => (∀ c ∈ ds, Numeral.IsDigit c) ∧ ds ≠ []

/-- What is pushed for the token. -/
def node : Token → RespState
  | simpleString s => ⟨.simpleString s, 0⟩
  | error s => ⟨.error s, 0⟩
  | integer negative ds => ⟨.integer (Int64.ofInt (signed negative (Numeral.value ds))), 0⟩
  | nil isArray => ⟨sized isArray false, 0⟩
  | bulkString _ s => ⟨.bulkString (some s), 0⟩
  | array ds => ⟨.array (some []), Numeral.value ds % 2 ^ 64⟩

end Token

/-! ## Taking tokens in -/

/-- A token is read silently up to its last LF, which pushes it. -/
theorem Token.reads {t : Token} (ht : t.Taken) (S : List RespState) (Q : List RespValue) :
    ∃ body s₁, t.text = body ++ [lf] ∧ Quiet (idle S Q) body s₁ ∧
      s₁.feed lf = RespParser.finish ⟨.waitLF, t.node, S, Q⟩ := by
  cases t with
  | simpleString s => exact reads_spelled (.simpleString ht) S Q
  | error s => exact reads_spelled (.error ht) S Q
  | integer negative ds => exact reads_integer ht.1 (fitsInt64_signed.mp ht.2) S Q
  | nil isArray =>
    obtain ⟨body, s₁, hbody, hq, hf⟩ := reads_nil isArray S Q
    refine ⟨body, s₁, hbody, hq, hf.trans ?_⟩
    cases isArray <;> rfl
  | bulkString ds s => exact reads_bulkString ht.1 ht.2.1 ht.2.2 S Q
  | array ds =>
    exact ⟨_, _, by simp [text, crlf], quiet_sizeLine true S Q ht.1 ht.2, rfl⟩

theorem append_token {t : Token} (ht : t.Taken) (S : List RespState) (Q : List RespValue)
    (rest : Bytes) : (idle S Q).append (t.text ++ rest)
      = push S t.node Q >>= fun p => (idle p.1 p.2).append rest := by
  obtain ⟨body, s₁, hbody, hq, hf⟩ := t.reads ht S Q
  rw [hbody, List.append_assoc, RespParser.append, run_append_ok _ hq.run, List.singleton_append,
    run_cons, hf, RespParser.finish]
  cases push S t.node Q <;> rfl

/-- An initial part of a token is read without a word. -/
theorem append_part {t : Token} (ht : t.Taken) {part : Bytes} (hpre : part <+: t.text)
    (hne : part ≠ t.text) (S : List RespState) (Q : List RespValue) :
    ∃ p, (idle S Q).append part = .ok p ∧ p.messageQueue = Q := by
  obtain ⟨body, s₁, hbody, hq, -⟩ := t.reads ht S Q
  rw [hbody] at hpre hne
  exact hq.part hpre hne

/-- The arrays of a stack have elements missing. -/
def Open (S : List RespState) : Prop := ∀ s ∈ S, s.isOpen = true

/-- Pushing onto open arrays never goes wrong, and leaves open arrays. -/
theorem push_ok : ∀ (S : List RespState), Open S → ∀ (s : RespState) (Q : List RespValue),
    ∃ S' Q', push S s Q = .ok (S', Q') ∧ Open S' := by
  intro S
  induction S with
  | nil =>
    intro _ s Q
    unfold push
    by_cases hs : s.isOpen = true
    · rw [if_pos hs]
      exact ⟨[s], Q, rfl, by simpa [Open] using hs⟩
    · rw [if_neg hs]
      exact ⟨[], Q ++ [s.value], rfl, by simp [Open]⟩
  | cons top rest ih =>
    intro hopen s Q
    have htop : top.isOpen = true := hopen top (by simp)
    have hrest : Open rest := fun x hx => hopen x (by simp [hx])
    unfold push
    by_cases hs : s.isOpen = true
    · rw [if_pos hs]
      exact ⟨_, Q, rfl, by simpa [Open, hs] using hopen⟩
    · rw [if_neg hs]
      obtain ⟨value, total⟩ := top
      cases value with
      | array o =>
        cases o with
        | none => simp [RespState.isOpen] at htop
        | some xs =>
          by_cases hlast : xs.length + 1 = total
          · simp only [if_pos hlast]
            exact ih hrest _ Q
          · simp only [if_neg hlast]
            refine ⟨_, Q, rfl, ?_⟩
            rintro x hx
            rcases List.mem_cons.mp hx with rfl | hx
            · simpa [RespState.isOpen] using hlast
            · exact hrest x hx
      | simpleString s => simp [RespState.isOpen] at htop
      | bulkString s => simp [RespState.isOpen] at htop
      | error s => simp [RespState.isOpen] at htop
      | integer n => simp [RespState.isOpen] at htop

theorem append_tokens (ts : List Token) (hts : ∀ t ∈ ts, t.Taken) :
    ∀ (S : List RespState) (Q : List RespValue), Open S → ∃ S' Q', Open S' ∧
      ∀ rest, (idle S Q).append (ts.flatMap Token.text ++ rest) = (idle S' Q').append rest := by
  induction ts with
  | nil => exact fun S Q hopen => ⟨S, Q, hopen, fun rest => rfl⟩
  | cons t ts ih =>
    intro S Q hopen
    obtain ⟨S₁, Q₁, hpush, hopen₁⟩ := push_ok S hopen t.node Q
    obtain ⟨S', Q', hopen', hrest⟩ := ih (fun u hu => hts u (by simp [hu])) S₁ Q₁ hopen₁
    refine ⟨S', Q', hopen', fun rest => ?_⟩
    rw [List.flatMap_cons, List.append_assoc, append_token (hts t (by simp)), hpush]
    exact hrest rest

/-! ## What is no token

The parser stops for one of a few reasons, each of them at a definite place of the string. -/

/-- The part of one more token that a string may end with. -/
def Unfinished (part : Bytes) : Prop := ∃ t : Token, t.Taken ∧ part <+: t.text ∧ part ≠ t.text

/-- A `$` or a `*` with no digit behind it. -/
def BlankSize (bs : Bytes) : Prop := [dollar, cr] <+: bs ∨ [star, cr] <+: bs

def blankSize : Fault := .undefined "reserve through an empty optional"

def signedOverflow : Fault := .undefined "signed overflow"

/-- What a string is that begins where a value is due. -/
inductive Head (bs : Bytes) : Prop
  | unfinished (h : Unfinished bs)
  | token (t : Token) (rest : Bytes) (ht : t.Taken) (heq : bs = t.text ++ rest)
  | blank (h : BlankSize bs)
  | refused (f : Fault) (hf : f = parserError ∨ f = signedOverflow)
      (hrun : ∀ S Q, (idle S Q).append bs = .error f)

theorem unfinished_of_append {t : Token} (ht : t.Taken) {part : Bytes} (rest : Bytes)
    (heq : t.text = part ++ rest) (hne : rest ≠ []) : Unfinished part :=
  ⟨t, ht, heq ▸ List.prefix_append _ _, fun h => hne (by simpa [← h] using heq)⟩

theorem append_stuck (body : Bytes) {c : UInt8} {f : Fault} {S : List RespState}
    {Q : List RespValue} {p : RespParser} (hq : Quiet (idle S Q) body p) (hf : p.feed c = .error f)
    (rest : Bytes) : (idle S Q).append (body ++ c :: rest) = .error f := by
  rw [RespParser.append, run_append_ok _ hq.run, run_cons, hf]
  rfl

theorem append_blankSize {bs : Bytes} (h : BlankSize bs) (S : List RespState)
    (Q : List RespValue) : (idle S Q).append bs = .error blankSize := by
  have hdigits : ∀ c ∈ ([] : Bytes), Numeral.IsDigit c := by simp
  rcases h with ⟨rest, rfl⟩ | ⟨rest, rfl⟩
  · exact append_stuck [dollar] (quiet_size_digits false hdigits S Q) rfl rest
  · exact append_stuck [star] (quiet_size_digits true hdigits S Q) rfl rest

/-- Refused at the byte behind `body`. -/
theorem Head.stuck (body : Bytes) {c : UInt8}
    (h : ∀ S Q, ∃ p, Quiet (idle S Q) body p ∧ p.feed c = .error parserError) (rest : Bytes) :
    Head (body ++ c :: rest) := by
  refine .refused parserError (Or.inl rfl) fun S Q => ?_
  obtain ⟨p, hq, hf⟩ := h S Q
  exact append_stuck body hq hf rest

/-- The end of a line: CR and LF close the token, another byte than LF does not. -/
theorem Head.ends (body : Bytes) {t : Token} (ht : t.Taken) (htext : t.text = body ++ crlf)
    (hq : ∀ S Q, ∃ p, Quiet (idle S Q) (body ++ [cr]) p ∧ ∀ c, c ≠ lf → p.feed c = .error parserError)
    (tail : Bytes) : Head (body ++ cr :: tail) := by
  cases tail with
  | nil =>
    exact .unfinished (unfinished_of_append ht [lf] (by simp [htext, crlf]) (by simp))
  | cons c rest =>
    by_cases hc : c = lf
    · exact .token t rest ht (by simp [htext, hc, crlf])
    · have hstuck := Head.stuck (body ++ [cr]) (c := c) (fun S Q => by
        obtain ⟨p, hp, hf⟩ := hq S Q
        exact ⟨p, hp, hf c hc⟩) rest
      rwa [List.append_assoc, List.singleton_append] at hstuck

/-- A line of text, up to its CR. -/
theorem quiet_cr {body : Bytes} {node : RespState} {S : List RespState} {Q : List RespValue}
    (hq : Quiet (idle S Q) body ⟨.readLine, node, S, Q⟩) :
    ∃ p, Quiet (idle S Q) (body ++ [cr]) p ∧ ∀ c, c ≠ lf → p.feed c = .error parserError := by
  refine ⟨⟨.waitLF, node, S, Q⟩, hq.trans (.single (by simp [RespParser.feed]) rfl), fun c hc => ?_⟩
  simp [RespParser.feed, hc]

/-- The two types whose text ends at the first CR. -/
theorem Head.line {b : UInt8} (mk : Bytes → Token) (htext : ∀ s, (mk s).text = b :: s ++ crlf)
    (ht : ∀ s, cr ∉ s → (mk s).Taken)
    (hq : ∀ S Q s, cr ∉ s → ∃ node, Quiet (idle S Q) (b :: s) ⟨.readLine, node, S, Q⟩)
    (bs : Bytes) : Head (b :: bs) := by
  by_cases hcr : cr ∈ bs
  · obtain ⟨s, tail, rfl, hs⟩ := List.eq_append_cons_of_mem hcr
    refine Head.ends (b :: s) (ht s hs) (htext s) (fun S Q => ?_) tail
    obtain ⟨node, hnode⟩ := hq S Q s hs
    exact quiet_cr hnode
  · exact .unfinished (unfinished_of_append (ht bs hcr) _ (htext bs) (by simp [crlf]))

theorem Head.integer (bs : Bytes) : Head (colon :: bs) := by
  obtain ⟨negative, bs', rfl, hsign⟩ : ∃ negative bs', bs = sign negative ++ bs' ∧
      (negative = false → ∀ rest, bs' ≠ minus :: rest) := by
    cases bs with
    | nil => exact ⟨false, [], rfl, by simp⟩
    | cons c rest =>
      by_cases hc : c = minus
      · exact ⟨true, rest, by simp [sign, hc], by simp⟩
      · exact ⟨false, c :: rest, rfl, by simp [hc]⟩
  obtain ⟨ds, tail, rfl, hds, htail⟩ := Numeral.exists_digits bs'
  have hassoc : ∀ rest, colon :: (sign negative ++ (ds ++ rest))
      = (colon :: sign negative ++ ds) ++ rest := by simp
  rw [hassoc]
  by_cases hfits : FitsInt64 (signed negative (Numeral.value ds))
  · have hq : ∀ S Q, Quiet (idle S Q) (colon :: sign negative ++ ds) (integerState negative ds S Q) :=
      fun S Q => (quiet_sign negative S Q).trans
        (quiet_digits_integer negative S Q ds hds (fitsInt64_signed.mp hfits))
    have ht : (Token.integer negative ds).Taken := ⟨hds, hfits⟩
    cases tail with
    | nil =>
      rw [List.append_nil]
      exact .unfinished (unfinished_of_append ht _ rfl (by simp [crlf]))
    | cons c rest =>
      by_cases hc : c = cr
      · subst hc
        exact Head.ends _ ht rfl (fun S Q => quiet_cr (hq S Q)) rest
      · refine Head.stuck _ (fun S Q => ⟨_, hq S Q, ?_⟩) rest
        have hdigit := htail c rest rfl
        by_cases hm : c = minus
        · -- a minus behind the sign or behind a digit
          have htotal : (if negative then negMark else if ds.isEmpty then 0 else 1) ≠ 0 := by
            cases negative with
            | true => simp [negMark]
            | false =>
              cases ds with
              | nil => exact absurd (by rw [hm]; rfl) (hsign rfl rest)
              | cons d ds => simp
          simp only [integerState, RespParser.feed, if_neg hc, if_pos hm]
          exact if_neg htotal
        · simp only [integerState, RespParser.feed, if_neg hc, if_neg hm, if_neg hdigit]
  · refine .refused signedOverflow (Or.inr rfl) fun S Q => ?_
    rw [append_digits negative S Q hds, if_neg fun hle => hfits (fitsInt64_signed.mpr hle)]
    rfl

/-- The nil forms. -/
theorem Head.nil (isArray : Bool) (bs : Bytes) :
    Head ((if isArray then star else dollar) :: minus :: bs) := by
  have ht : (Token.nil isArray).Taken := trivial
  have hminus : ∀ S Q, Quiet (idle S Q) [if isArray then star else dollar, minus]
      ⟨.waitNil, ⟨sized isArray false, 0⟩, S, Q⟩ := by
    intro S Q
    refine .cons (m := ⟨.readSize, ⟨sized isArray false, 0⟩, S, Q⟩) ?_ rfl (.single ?_ rfl) <;>
      cases isArray <;> rfl
  have hone : ∀ S Q, Quiet (idle S Q) [if isArray then star else dollar, minus, 49]
      ⟨.waitNilCR, ⟨sized isArray false, 0⟩, S, Q⟩ :=
    fun S Q => (hminus S Q).trans (.single rfl rfl)
  cases bs with
  | nil => exact .unfinished (unfinished_of_append ht (49 :: crlf) rfl (by simp))
  | cons c bs =>
    by_cases hc : c = 49
    · subst hc
      cases bs with
      | nil => exact .unfinished (unfinished_of_append ht crlf rfl (by simp [crlf]))
      | cons c bs =>
        by_cases hc : c = cr
        · subst hc
          refine Head.ends [_, _, _] ht rfl (fun S Q => ?_) bs
          refine ⟨_, (hone S Q).trans (.single rfl rfl), fun c hc => ?_⟩
          simp [RespParser.feed, hc]
        · exact Head.stuck [_, _, _] (fun S Q => ⟨_, hone S Q, by simp [RespParser.feed, hc]⟩) bs
    · exact Head.stuck [_, _] (fun S Q => ⟨_, hminus S Q, by simp [RespParser.feed, hc]⟩) bs

/-- A bulk string with `content` behind its size line, and more missing. -/
theorem taken_fill {ds : Bytes} (content : Bytes) (hds : ∀ c ∈ ds, Numeral.IsDigit c) (hne : ds ≠ [])
    (hlen : content.length ≤ Numeral.value ds % 2 ^ 64) :
    (Token.bulkString ds
      (content ++ List.replicate (Numeral.value ds % 2 ^ 64 - content.length) 0)).Taken := by
  refine ⟨hds, hne, ?_⟩
  rw [List.length_append, List.length_replicate]
  omega

/-- What stands behind the size line of a bulk string. -/
theorem Head.bulkString {ds : Bytes} (hds : ∀ c ∈ ds, Numeral.IsDigit c) (hne : ds ≠ [])
    (content : Bytes) : Head (dollar :: ds ++ crlf ++ content) := by
  by_cases hlen : content.length ≤ Numeral.value ds % 2 ^ 64
  · -- not enough, or just the content
    refine .unfinished (unfinished_of_append (taken_fill content hds hne hlen)
      (List.replicate (Numeral.value ds % 2 ^ 64 - content.length) 0 ++ crlf) ?_ (by simp [crlf]))
    simp [Token.text]
  · obtain ⟨s, c, tail, rfl, hs⟩ : ∃ s c tail, content = s ++ c :: tail ∧
        Numeral.value ds % 2 ^ 64 = s.length := by
      have hlt : Numeral.value ds % 2 ^ 64 < content.length := Nat.not_le.mp hlen
      refine ⟨content.take (Numeral.value ds % 2 ^ 64), content[Numeral.value ds % 2 ^ 64],
        content.drop (Numeral.value ds % 2 ^ 64 + 1), ?_, ?_⟩
      · rw [← List.drop_eq_getElem_cons hlt, List.take_append_drop]
      · rw [List.length_take]
        omega
    rw [← List.append_assoc]
    by_cases hc : c = cr
    · subst hc
      refine Head.ends _ (t := .bulkString ds s) ⟨hds, hne, hs⟩ rfl (fun S Q => ?_) tail
      refine ⟨_, quiet_content_cr hds hne hs S Q, fun c hc => ?_⟩
      simp [RespParser.feed, hc]
    · refine Head.stuck _ (fun S Q => ⟨_, quiet_content hds hne hs S Q, ?_⟩) tail
      simp [RespParser.feed, hc]

theorem unfinished_size (isArray : Bool) {ds : Bytes} (hds : ∀ c ∈ ds, Numeral.IsDigit c)
    (hne : ds ≠ []) (part : Bytes) {rest : Bytes} (heq : crlf = part ++ rest) (hrest : rest ≠ []) :
    Unfinished ((if isArray then star else dollar) :: ds ++ part) := by
  cases isArray with
  | true =>
    exact unfinished_of_append (t := .array ds) ⟨hds, hne⟩ rest
      (by simp [Token.text, heq]) hrest
  | false =>
    refine unfinished_of_append (taken_fill [] hds hne (Nat.zero_le _)) (rest
      ++ ([] ++ List.replicate (Numeral.value ds % 2 ^ 64 - 0) 0) ++ crlf) ?_ (by simp [crlf])
    simp only [Token.text, List.length_nil]
    rw [show dollar :: ds ++ crlf = dollar :: ds ++ (part ++ rest) by rw [heq]]
    simp

theorem Head.size (isArray : Bool) (bs : Bytes) :
    Head ((if isArray then star else dollar) :: bs) := by
  obtain ⟨ds, tail, rfl, hds, htail⟩ := Numeral.exists_digits bs
  have hq := fun S Q => quiet_size_digits isArray hds S Q
  cases tail with
  | nil =>
    by_cases hne : ds = []
    · subst hne
      exact .unfinished (unfinished_of_append (t := .nil isArray) trivial
        (minus :: 49 :: crlf) rfl (by simp))
    · exact .unfinished (unfinished_size isArray hds hne [] rfl (by simp))
  | cons c rest =>
    by_cases hne : ds = []
    · subst hne
      by_cases hcr : c = cr
      · subst hcr
        cases isArray with
        | false => exact .blank (Or.inl ⟨rest, rfl⟩)
        | true => exact .blank (Or.inr ⟨rest, rfl⟩)
      · by_cases hm : c = minus
        · subst hm
          exact Head.nil isArray rest
        · refine Head.stuck [_] (fun S Q => ⟨_, hq S Q, ?_⟩) rest
          simp [RespParser.feed, hcr, hm, htail c rest rfl]
    · by_cases hcr : c = cr
      · subst hcr
        cases isArray with
        | true =>
          refine Head.ends (star :: ds) (t := .array ds) ⟨hds, hne⟩ rfl (fun S Q => ?_) rest
          refine ⟨_, quiet_sizeLine true S Q hds hne, fun c hc => ?_⟩
          simp [RespParser.feed, hc]
        | false =>
          cases rest with
          | nil => exact .unfinished (unfinished_size false hds hne [cr] rfl (by simp))
          | cons c rest =>
            by_cases hlf : c = lf
            · subst hlf
              have hall := Head.bulkString hds hne rest
              simpa [crlf] using hall
            · have hstuck := Head.stuck (dollar :: ds ++ [cr]) (c := c) (fun S Q =>
                ⟨_, quiet_sizeLine false S Q hds hne, by simp [RespParser.feed, hlf]⟩) rest
              simpa using hstuck
      · refine Head.stuck ((if isArray then star else dollar) :: ds)
          (fun S Q => ⟨_, hq S Q, ?_⟩) rest
        have hfull : ds.isEmpty = false := by simpa using hne
        by_cases hm : c = minus
        · cases isArray <;> simp [RespParser.feed, hm, hfull, sized]
        · simp [RespParser.feed, hcr, hm, htail c rest rfl]

/-- **What stands where a value is due** is a token, or a part of one, or it stops the parser. -/
theorem head_cases (bs : Bytes) : Head bs := by
  cases bs with
  | nil =>
    exact .unfinished (unfinished_of_append (t := .nil true) trivial _ rfl (by simp))
  | cons b bs =>
    by_cases hplus : b = plus
    · subst hplus
      refine Head.line .simpleString (fun _ => rfl) (fun _ => id) (fun S Q s hs => ?_) bs
      have htype : Quiet (idle S Q) [plus] ⟨.readLine, ⟨.simpleString [], 0⟩, S, Q⟩ := .single rfl rfl
      exact ⟨_, htype.trans (quiet_simpleString S Q [] s hs)⟩
    by_cases hminus : b = minus
    · subst hminus
      refine Head.line .error (fun _ => rfl) (fun _ => id) (fun S Q s hs => ?_) bs
      have htype : Quiet (idle S Q) [minus] ⟨.readLine, ⟨.error [], 0⟩, S, Q⟩ := .single rfl rfl
      exact ⟨_, htype.trans (quiet_error S Q [] s hs)⟩
    by_cases hcolon : b = colon
    · subst hcolon
      exact Head.integer bs
    by_cases hdollar : b = dollar
    · subst hdollar
      exact Head.size false bs
    by_cases hstar : b = star
    · subst hstar
      exact Head.size true bs
    · refine Head.stuck [] (fun S Q => ⟨idle S Q, .nil _, ?_⟩) bs
      simp [RespParser.feed, idle, hplus, hminus, hcolon, hdollar, hstar]

/-! ## Any string -/

/-- The string, cut up into tokens and a rest. -/
def Cut (bs : Bytes) (ts : List Token) (rest : Bytes) : Prop :=
  (∀ t ∈ ts, t.Taken) ∧ bs = ts.flatMap Token.text ++ rest

theorem Cut.cons {t : Token} {bs rest : Bytes} {ts : List Token} (ht : t.Taken)
    (h : Cut bs ts rest) : Cut (t.text ++ bs) (t :: ts) rest := by
  refine ⟨fun u hu => ?_, by rw [h.2, List.flatMap_cons, List.append_assoc]⟩
  rcases List.mem_cons.mp hu with rfl | hu
  · exact ht
  · exact h.1 u hu

theorem Token.text_ne_nil (t : Token) : t.text ≠ [] := by
  cases t <;> simp [text]

/-- What the parser makes of a string. -/
inductive Outcome (bs : Bytes) (S : List RespState) (Q : List RespValue) : Prop
  | accepted (ts : List Token) (rest : Bytes) (p : RespParser) (hcut : Cut bs ts rest)
      (hrest : Unfinished rest) (hrun : (idle S Q).append bs = .ok p)
  | blank (ts : List Token) (rest : Bytes) (hcut : Cut bs ts rest) (hrest : BlankSize rest)
      (hrun : (idle S Q).append bs = .error blankSize)
  | refused (f : Fault) (hf : f = parserError ∨ f = signedOverflow)
      (hrun : (idle S Q).append bs = .error f)

/-- **A string is taken in token by token.**

The parser is at rest between two tokens, so the string can be looked at token by token, each of
them behind those before it; what is open does not matter for what is read next. -/
theorem append_cases (bs : Bytes) : ∀ (S : List RespState) (Q : List RespValue), Open S →
    Outcome bs S Q := by
  induction hn : bs.length using Nat.strong_induction_on generalizing bs with
  | _ n ih =>
    intro S Q hopen
    cases head_cases bs with
    | unfinished h =>
      obtain ⟨t, ht, hpre, hne⟩ := h
      obtain ⟨p, hp, -⟩ := append_part ht hpre hne S Q
      exact .accepted [] bs p ⟨by simp, rfl⟩ ⟨t, ht, hpre, hne⟩ hp
    | blank h => exact .blank [] bs ⟨by simp, rfl⟩ h (append_blankSize h S Q)
    | refused f hf hrun => exact .refused f hf (hrun S Q)
    | token t rest ht heq =>
      subst heq
      obtain ⟨S', Q', hpush, hopen'⟩ := push_ok S hopen t.node Q
      have hrun := append_token ht S Q rest
      rw [hpush] at hrun
      have hpos := List.length_pos_of_ne_nil t.text_ne_nil
      rw [List.length_append] at hn
      cases ih rest.length (by omega) rest rfl S' Q' hopen' with
      | accepted ts part p hcut hpart hp => exact .accepted _ part p (hcut.cons ht) hpart (hrun.trans hp)
      | blank ts part hcut hpart hp => exact .blank _ part (hcut.cons ht) hpart (hrun.trans hp)
      | refused f hf hp => exact .refused f hf (hrun.trans hp)

/-! ## There is one way to cut a string -/

namespace Token

/-- The type byte. -/
def mark : Token → UInt8
  | simpleString _ => plus
  | error _ => minus
  | integer _ _ => colon
  | nil isArray => if isArray then star else dollar
  | bulkString _ _ => dollar
  | array _ => star

/-- What stands between the type byte and the first CR. -/
def line : Token → Bytes
  | simpleString s => s
  | error s => s
  | integer negative ds => sign negative ++ ds
  | nil _ => [minus, 49]
  | bulkString ds _ => ds
  | array ds => ds

/-- What stands behind the line. -/
def content : Token → Bytes
  | bulkString _ s => s ++ crlf
  | _ => []

theorem text_eq (t : Token) : t.text = t.mark :: t.line ++ crlf ++ t.content := by
  cases t <;> simp [text, mark, line, content]

theorem cr_not_mem_line {t : Token} (ht : t.Taken) : cr ∉ t.line := by
  have hdigits : ∀ ds : Bytes, (∀ c ∈ ds, Numeral.IsDigit c) → cr ∉ ds :=
    fun ds hds hm => absurd (hds cr hm) (by decide)
  cases t with
  | simpleString s => exact ht
  | error s => exact ht
  | integer negative ds =>
    have hcr := hdigits ds ht.1
    cases negative with
    | false => simpa [line, sign] using hcr
    | true => simpa [line, sign, hcr] using (by decide : cr ≠ minus)
  | nil isArray => exact (by decide : cr ∉ [minus, 49])
  | bulkString ds s => exact hdigits ds ht.1
  | array ds => exact hdigits ds ht.1

/-- Up to its first CR a token shows what it is. -/
theorem eq_of_line {t t' : Token} (ht : t.Taken) (ht' : t'.Taken) (hmark : t.mark = t'.mark)
    (hline : t.line = t'.line) {x x' : Bytes} (hrest : t.content ++ x = t'.content ++ x') :
    t = t' ∧ x = x' := by
  have hnil : ∀ ds : Bytes, (∀ c ∈ ds, Numeral.IsDigit c) → ds ≠ [minus, 49] := by
    rintro ds hds rfl
    exact absurd (hds minus (by simp)) (by decide)
  cases t with
  | simpleString s =>
    cases t' with
    | simpleString s' => exact ⟨congrArg simpleString hline, hrest⟩
    | nil isArray => cases isArray <;> exact absurd hmark (by simp only [mark]; decide)
    | _ => exact absurd hmark (by simp only [mark]; decide)
  | error s =>
    cases t' with
    | error s' => exact ⟨congrArg error hline, hrest⟩
    | nil isArray => cases isArray <;> exact absurd hmark (by simp only [mark]; decide)
    | _ => exact absurd hmark (by simp only [mark]; decide)
  | integer negative ds =>
    cases t' with
    | integer negative' ds' =>
      have hsign : negative = negative' ∧ ds = ds' := by
        have hm : ∀ ds : Bytes, (∀ c ∈ ds, Numeral.IsDigit c) → ∀ rest, ds ≠ minus :: rest := by
          rintro ds hds rest rfl
          exact absurd (hds minus (by simp)) (by decide)
        cases negative <;> cases negative' <;> simp only [line, sign] at hline
        · exact ⟨rfl, hline⟩
        · exact absurd hline (hm ds ht.1 ds')
        · exact absurd hline.symm (hm ds' ht'.1 ds)
        · exact ⟨rfl, List.cons_inj_right minus |>.mp hline⟩
      exact ⟨by rw [hsign.1, hsign.2], hrest⟩
    | nil isArray => cases isArray <;> exact absurd hmark (by simp only [mark]; decide)
    | _ => exact absurd hmark (by simp only [mark]; decide)
  | nil isArray =>
    cases t' with
    | nil isArray' =>
      cases isArray <;> cases isArray' <;> first | exact ⟨rfl, hrest⟩ | exact absurd hmark (by decide)
    | bulkString ds s => exact absurd hline.symm (hnil ds ht'.1)
    | array ds => exact absurd hline.symm (hnil ds ht'.1)
    | _ => cases isArray <;> exact absurd hmark (by simp only [mark]; decide)
  | bulkString ds s =>
    cases t' with
    | bulkString ds' s' =>
      simp only [line] at hline
      subst hline
      have hlen : s.length = s'.length := ht.2.2.symm.trans ht'.2.2
      simp only [content, List.append_assoc] at hrest
      obtain ⟨rfl, hcrlf⟩ := List.append_inj hrest hlen
      exact ⟨rfl, List.append_cancel_left hcrlf⟩
    | nil isArray => exact absurd hline (hnil ds ht.1)
    | _ => exact absurd hmark (by simp only [mark]; decide)
  | array ds =>
    cases t' with
    | array ds' => exact ⟨congrArg array hline, hrest⟩
    | nil isArray => exact absurd hline (hnil ds ht.1)
    | _ => exact absurd hmark (by simp only [mark]; decide)

end Token

theorem line_cancel {l l' x x' : Bytes} (hl : cr ∉ l) (hl' : cr ∉ l')
    (h : l ++ cr :: x = l' ++ cr :: x') : l = l' ∧ x = x' := by
  rcases List.append_eq_append_iff.mp h with ⟨a, rfl, ha⟩ | ⟨a, rfl, ha⟩
  · cases a with
    | nil => simpa using ha
    | cons c a => exact absurd (by simp [(List.cons.inj ha).1]) hl'
  · cases a with
    | nil => simpa [eq_comm] using ha
    | cons c a => exact absurd (by simp [(List.cons.inj ha).1]) hl

/-- **No token is the beginning of another.** -/
theorem Token.text_cancel {t t' : Token} (ht : t.Taken) (ht' : t'.Taken) {x x' : Bytes}
    (h : t.text ++ x = t'.text ++ x') : t = t' ∧ x = x' := by
  rw [t.text_eq, t'.text_eq] at h
  simp only [crlf, List.append_assoc, List.cons_append, List.nil_append] at h
  obtain ⟨hmark, hlines⟩ := List.cons.inj h
  obtain ⟨hline, hrest⟩ := line_cancel (cr_not_mem_line ht) (cr_not_mem_line ht') hlines
  exact eq_of_line ht ht' hmark hline (List.cons.inj hrest).2

theorem Unfinished.ne_token {part x : Bytes} {t : Token} (h : Unfinished part) (ht : t.Taken) :
    part ≠ t.text ++ x := by
  rintro rfl
  obtain ⟨t', ht', ⟨y, hy⟩, hne⟩ := h
  have hcancel : t.text ++ (x ++ y) = t'.text ++ [] := by
    rw [← List.append_assoc, hy, List.append_nil]
  obtain ⟨rfl, hxy⟩ := Token.text_cancel ht ht' hcancel
  exact hne (by rw [(List.append_eq_nil_iff.mp hxy).1, List.append_nil])

/-- **A string can be cut in one way only.**

Where two cuts differ for the first time one token would be the beginning of another, and no token
is. -/
theorem Cut.unique {bs : Bytes} {ts ts' : List Token} {rest rest' : Bytes} (h : Cut bs ts rest)
    (h' : Cut bs ts' rest') (hrest : Unfinished rest) (hrest' : Unfinished rest') :
    ts = ts' ∧ rest = rest' := by
  induction ts generalizing bs ts' with
  | nil =>
    cases ts' with
    | nil => exact ⟨rfl, h.2.symm.trans h'.2⟩
    | cons t' ts' =>
      have heq := h.2.symm.trans h'.2
      rw [List.flatMap_cons, List.append_assoc] at heq
      exact absurd heq (hrest.ne_token (h'.1 t' (by simp)))
  | cons t ts ih =>
    have heq := h.2.symm.trans h'.2
    rw [List.flatMap_cons, List.append_assoc] at heq
    cases ts' with
    | nil => exact absurd heq.symm (hrest'.ne_token (h.1 t (by simp)))
    | cons t' ts' =>
      rw [List.flatMap_cons, List.append_assoc] at heq
      obtain ⟨rfl, htail⟩ := Token.text_cancel (h.1 t (by simp)) (h'.1 t' (by simp)) heq
      obtain ⟨rfl, rfl⟩ := ih ⟨fun u hu => h.1 u (by simp [hu]), rfl⟩
        ⟨fun u hu => h'.1 u (by simp [hu]), htail⟩
      exact ⟨rfl, rfl⟩

end Resp
end KvJet
