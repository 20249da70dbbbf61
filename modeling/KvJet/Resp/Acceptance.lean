import KvJet.Resp.Tokens

/-!
# The strings that are accepted

The documented grammar against the parser. A string is taken in when it is cut into tokens and a
part of one more, whatever is open at its end: the arrays that are open can always be filled up, so
every sequence of tokens is the beginning of a sequence of values.

The parser takes in an integer without a digit, which is no value of the grammar, and at a size
without a digit it reads through an empty optional. Where neither stands where a value is due, it
accepts the strings of the grammar and yields their values (`obeys_grammar_iff`).
-/

namespace KvJet
namespace Resp

open Stream

/-- Complete values, and a part of one more. -/
def Sentence (bs : Bytes) (vs : List RespValue) : Prop :=
  ∃ done rest u v, bs = done ++ rest ∧ SpellsAll done vs ∧ Spells u v ∧ rest <+: u ∧ rest ≠ u

/-! ## What the grammar has is accepted -/

theorem append_spelled {w : Bytes} {vs : List RespValue} (h : SpellsAll w vs) (Q : List RespValue)
    (rest : Bytes) : (idle [] Q).append (w ++ rest) = (idle [] (Q ++ vs)).append rest := by
  induction vs generalizing w Q with
  | nil =>
    cases h
    rw [List.append_nil, List.nil_append]
  | cons v vs ih =>
    cases h with
    | cons hv hs =>
      rw [List.append_assoc, RespParser.append, run_append_ok _ (emits_spelled hv Q).run]
      have hrest := ih hs (Q ++ [v])
      rwa [List.append_assoc, List.singleton_append] at hrest

theorem Sentence.accepted {bs : Bytes} {vs : List RespValue} (h : Sentence bs vs) :
    ∃ p, (idle [] []).append bs = .ok p ∧ p.messageQueue = vs := by
  obtain ⟨done, rest, u, v, rfl, hdone, hu, hpre, hne⟩ := h
  obtain ⟨body, s₁, hbody, hq, -⟩ := reads_spelled hu [] ([] ++ vs)
  rw [hbody] at hpre hne
  rw [append_spelled hdone]
  exact hq.part hpre hne

/-! ## The tokens of a sentence

A sentence of the grammar is a sequence of tokens, each of which has its digits. -/

/-- An integer that has a digit. -/
def Token.HasDigit : Token → Prop
  | integer _ ds => ds ≠ []
  | _ => True

/-- The part of an integer without a digit that a string may end with. -/
def BlankInteger (part : Bytes) : Prop := part = [colon, cr] ∨ part = [colon, minus, cr]

/-- A text made of tokens of the grammar. -/
def Tokenized (w : Bytes) : Prop :=
  ∃ ts : List Token, (∀ t ∈ ts, t.Taken ∧ t.HasDigit) ∧ w = ts.flatMap Token.text

theorem Tokenized.nil : Tokenized [] := ⟨[], by simp, rfl⟩

theorem Tokenized.single {t : Token} (ht : t.Taken) (hd : t.HasDigit) : Tokenized t.text :=
  ⟨[t], by simpa using ⟨ht, hd⟩, by simp⟩

theorem Tokenized.append {w w' : Bytes} (h : Tokenized w) (h' : Tokenized w') :
    Tokenized (w ++ w') := by
  obtain ⟨ts, hts, rfl⟩ := h
  obtain ⟨ts', hts', rfl⟩ := h'
  refine ⟨ts ++ ts', fun t ht => ?_, by rw [List.flatMap_append]⟩
  rcases List.mem_append.mp ht with ht | ht
  · exact hts t ht
  · exact hts' t ht

theorem Spells.tokenized {u : Bytes} {v : RespValue} (h : Spells u v) : Tokenized u := by
  induction h using Spells.rec (motive_2 := fun w _ _ => Tokenized w) with
  | @simpleString s hs => exact .single (t := .simpleString s) hs trivial
  | @error s hs => exact .single (t := .error s) hs trivial
  | @integer negative ds n hds hne hn =>
    exact .single (t := .integer negative ds) ⟨hds, hn ▸ fitsInt64_toInt n⟩ hne
  | nilString => exact .single (t := .nil false) trivial trivial
  | @bulkString ds s hds hne hs hsize =>
    exact .single (t := .bulkString ds s) ⟨hds, hne, by rw [hs, Nat.mod_eq_of_lt hsize]⟩ trivial
  | nilArray => exact .single (t := .nil true) trivial trivial
  | @array ds w xs hds hne _ _ _ ih =>
    exact (Tokenized.single (t := .array ds) ⟨hds, hne⟩ trivial).append ih
  | nil => exact .nil
  | cons _ _ ihv ihs => exact ihv.append ihs

theorem SpellsAll.tokenized {w : Bytes} {vs : List RespValue} (h : SpellsAll w vs) :
    Tokenized w := by
  induction vs generalizing w with
  | nil =>
    cases h
    exact .nil
  | cons v vs ih =>
    cases h with
    | cons hv hs => exact hv.tokenized.append (ih hs)

/-- A part of a text that is made of tokens: it ends inside one of them. -/
theorem cut_of_prefix : ∀ (ts : List Token) (part : Bytes), (∀ t ∈ ts, t.Taken ∧ t.HasDigit) →
    part <+: ts.flatMap Token.text → part ≠ ts.flatMap Token.text →
    ∃ (ts' : List Token) (rest : Bytes) (t : Token), (∀ t ∈ ts', t.Taken ∧ t.HasDigit) ∧
      part = ts'.flatMap Token.text ++ rest ∧ (t.Taken ∧ t.HasDigit) ∧
      rest <+: t.text ∧ rest ≠ t.text := by
  intro ts
  induction ts with
  | nil => exact fun part _ hpre hne => absurd (List.prefix_nil.mp hpre) hne
  | cons t ts ih =>
    intro part hts hpre hne
    rw [List.flatMap_cons] at hpre hne
    by_cases hin : t.text <+: part
    · obtain ⟨part', rfl⟩ := hin
      obtain ⟨ts', rest, t', hts', rfl, ht', hpre', hne'⟩ :=
        ih part' (fun u hu => hts u (by simp [hu])) ((List.prefix_append_right_inj _).mp hpre)
          fun heq => hne (by rw [heq])
      refine ⟨t :: ts', rest, t', fun u hu => ?_, ?_, ht', hpre', hne'⟩
      · rcases List.mem_cons.mp hu with rfl | hu
        · exact hts u (by simp)
        · exact hts' u hu
      · rw [List.flatMap_cons, List.append_assoc]
    · have hpart := (List.prefix_or_prefix_of_prefix hpre (List.prefix_append t.text _)).resolve_right
        hin
      exact ⟨[], part, t, by simp, rfl, hts t (by simp), hpart,
        fun heq => hin (heq ▸ List.prefix_refl _)⟩

theorem Token.not_blankInteger {t : Token} (ht : t.Taken) (hd : t.HasDigit) {part : Bytes}
    (hpre : part <+: t.text) : ¬ BlankInteger part := by
  obtain ⟨rest, hrest⟩ := hpre
  rintro (rfl | rfl) <;> cases t with
  | integer negative ds =>
    cases ds with
    | nil => exact hd rfl
    | cons d ds =>
      have hdigit : Numeral.IsDigit d := ht.1 d (by simp)
      have hcr : d ≠ cr := hdigit.ne (by decide)
      have hm : d ≠ minus := hdigit.ne (by decide)
      have hcm : cr ≠ minus := by decide
      cases negative <;> simp_all [text, sign, eq_comm]
  | nil isArray => cases isArray <;> simp [text, colon, star, dollar] at hrest
  | _ => simp [text, colon, plus, minus, dollar, star] at hrest

theorem Sentence.cut {bs : Bytes} {vs : List RespValue} (h : Sentence bs vs) :
    ∃ ts rest, Cut bs ts rest ∧ Unfinished rest ∧ (∀ t ∈ ts, t.HasDigit) ∧
      ¬ BlankInteger rest := by
  obtain ⟨done, part, u, v, rfl, hdone, hu, hpre, hne⟩ := h
  obtain ⟨ts, hts, rfl⟩ := hdone.tokenized
  obtain ⟨ts₁, hts₁, rfl⟩ := hu.tokenized
  obtain ⟨ts', rest, t, hts', rfl, ht, hpre', hne'⟩ := cut_of_prefix ts₁ part hts₁ hpre hne
  have hall : ∀ u ∈ ts ++ ts', u.Taken ∧ u.HasDigit := by
    intro u hu
    rcases List.mem_append.mp hu with hu | hu
    · exact hts u hu
    · exact hts' u hu
  refine ⟨ts ++ ts', rest, ⟨fun u hu => (hall u hu).1, ?_⟩, ⟨t, ht.1, hpre', hne'⟩,
    fun u hu => (hall u hu).2, t.not_blankInteger ht.1 ht.2 hpre'⟩
  rw [List.flatMap_append, List.append_assoc]

/-! ## What is accepted is in the grammar -/

/-- The numeral that a string begins with fits its type. -/
def FitsHead (bs : Bytes) : Prop :=
  (∀ (negative : Bool) (ds x : Bytes), (∀ c ∈ ds, Numeral.IsDigit c) →
    bs = colon :: sign negative ++ ds ++ x → FitsInt64 (signed negative (Numeral.value ds))) ∧
  ∀ (isArray : Bool) (ds x : Bytes), (∀ c ∈ ds, Numeral.IsDigit c) →
    bs = (if isArray then star else dollar) :: ds ++ x → FitsSize (Numeral.value ds)

/-- Every numeral that stands where a value is due fits its type. -/
def NumeralsFit (bs : Bytes) : Prop := ∀ ts rest, Cut bs ts rest → FitsHead rest

/-- The arrays that are open, and the text since the first of them. -/
inductive Opened : Bytes → List RespState → Prop
  | nil : Opened [] []
  | cons {w ds body : Bytes} {S : List RespState} {xs : List RespValue} (h : Opened w S)
      (hds : ∀ c ∈ ds, Numeral.IsDigit c) (hne : ds ≠ []) (hfits : FitsSize (Numeral.value ds))
      (hbody : SpellsAll body xs) (hlen : xs.length < Numeral.value ds) :
      Opened (w ++ (star :: ds ++ crlf ++ body)) (⟨.array (some xs), Numeral.value ds⟩ :: S)

/-- The text read so far spells the values in the queue, and then the open arrays. -/
def Parsed (bs : Bytes) (S : List RespState) (Q : List RespValue) : Prop :=
  ∃ done w, bs = done ++ w ∧ SpellsAll done Q ∧ Opened w S

theorem parsed_nil : Parsed [] [] [] := ⟨[], [], rfl, .nil, .nil⟩

/-- A complete value goes into the innermost open array, and closes what it fills up. -/
theorem Opened.push {w done : Bytes} {S : List RespState} {Q : List RespValue} (h : Opened w S)
    (hdone : SpellsAll done Q) : ∀ {u : Bytes} {v : RespValue}, Spells u v →
    ∃ S' Q', push S ⟨v, v.total⟩ Q = .ok (S', Q') ∧ Parsed (done ++ w ++ u) S' Q' := by
  induction h with
  | nil =>
    intro u v hu
    refine ⟨[], Q ++ [v], ?_, done ++ u, [], by simp, hdone.append (.singleton hu), .nil⟩
    rw [Resp.push, if_neg (by simp [isOpen_total])]
  | @cons w ds body S xs h hds hne hfits hbody hlen ih =>
    intro u v hu
    rw [push_element]
    have hall : SpellsAll (body ++ u) (xs ++ [v]) := hbody.append (.singleton hu)
    have htext : done ++ (w ++ (star :: ds ++ crlf ++ body)) ++ u
        = done ++ w ++ (star :: ds ++ crlf ++ (body ++ u)) := by simp
    rw [htext]
    by_cases hlast : xs.length + 1 = Numeral.value ds
    · have hxs : Numeral.value ds = (xs ++ [v]).length := by simp [← hlast]
      have hfull : Spells (star :: ds ++ crlf ++ (body ++ u)) (.array (some (xs ++ [v]))) :=
        .array hds hne hxs (hxs ▸ hfits) hall
      rw [if_pos hlast, hxs]
      exact ih hfull
    · rw [if_neg hlast]
      refine ⟨_, Q, rfl, done, w ++ (star :: ds ++ crlf ++ (body ++ u)), by simp, hdone, ?_⟩
      refine .cons h hds hne hfits hall ?_
      rw [List.length_append, List.length_singleton]
      omega

theorem Parsed.push {bs : Bytes} {S : List RespState} {Q : List RespValue} (h : Parsed bs S Q)
    {u : Bytes} {v : RespValue} (hu : Spells u v) :
    ∃ S' Q', Resp.push S ⟨v, v.total⟩ Q = .ok (S', Q') ∧ Parsed (bs ++ u) S' Q' := by
  obtain ⟨done, w, rfl, hdone, hw⟩ := h
  exact hw.push hdone hu

theorem Parsed.token {bs rest : Bytes} {S : List RespState} {Q : List RespValue} {t : Token}
    (h : Parsed bs S Q) (ht : t.Taken) (hd : t.HasDigit) (hfits : FitsHead (t.text ++ rest)) :
    ∃ S' Q', Resp.push S t.node Q = .ok (S', Q') ∧ Parsed (bs ++ t.text) S' Q' := by
  cases t with
  | simpleString s => exact h.push (.simpleString ht)
  | error s => exact h.push (.error ht)
  | integer negative ds =>
    exact h.push (.integer ht.1 hd (Int64.toInt_ofInt_of_le ht.2.1 ht.2.2))
  | nil isArray =>
    cases isArray with
    | false => exact h.push .nilString
    | true => exact h.push .nilArray
  | bulkString ds s =>
    have hsize : FitsSize (Numeral.value ds) :=
      hfits.2 false ds (crlf ++ s ++ crlf ++ rest) ht.1 (by simp [Token.text])
    have hs : Numeral.value ds = s.length := by rw [← ht.2.2, Nat.mod_eq_of_lt hsize]
    exact h.push (.bulkString ht.1 ht.2.1 hs (hs ▸ hsize))
  | array ds =>
    have hsize : FitsSize (Numeral.value ds) :=
      hfits.2 true ds (crlf ++ rest) ht.1 (by simp [Token.text])
    have hnode : (Token.array ds).node = ⟨.array (some []), Numeral.value ds⟩ := by
      rw [Token.node, Nat.mod_eq_of_lt hsize]
    rw [hnode]
    by_cases hzero : Numeral.value ds = 0
    · -- `*0` is complete
      have hempty : Spells (star :: ds ++ crlf ++ []) (.array (some [])) :=
        .array ht.1 ht.2 hzero (by simp) .nil
      rw [hzero]
      rw [List.append_nil] at hempty
      exact h.push hempty
    · obtain ⟨done, w, rfl, hdone, hw⟩ := h
      have hopened := hw.cons ht.1 ht.2 hsize .nil (Nat.pos_of_ne_zero hzero)
      refine ⟨_, Q, push_open ?_ S Q, done, _, ?_, hdone, hopened⟩
      · simpa [RespState.isOpen] using fun heq : 0 = Numeral.value ds => hzero heq.symm
      · simp [Token.text]

theorem NumeralsFit.head {bs : Bytes} (h : NumeralsFit bs) : FitsHead bs :=
  h [] bs ⟨by simp, rfl⟩

theorem NumeralsFit.tail {t : Token} {bs : Bytes} (ht : t.Taken) (h : NumeralsFit (t.text ++ bs)) :
    NumeralsFit bs := fun _ rest hcut => h _ rest (hcut.cons ht)

/-- Tokens of the grammar, one after another. -/
theorem Parsed.tokens (ts : List Token) (rest : Bytes) (hts : ∀ t ∈ ts, t.Taken ∧ t.HasDigit) :
    ∀ {bs : Bytes} {S : List RespState} {Q : List RespValue}, Parsed bs S Q →
      NumeralsFit (ts.flatMap Token.text ++ rest) → NumeralsFit rest ∧ ∃ S' Q',
        (idle S Q).append (ts.flatMap Token.text ++ rest) = (idle S' Q').append rest ∧
        Parsed (bs ++ ts.flatMap Token.text) S' Q' := by
  induction ts with
  | nil => exact fun h hfits => ⟨hfits, _, _, rfl, by simpa using h⟩
  | cons t ts ih =>
    intro bs S Q h hfits
    obtain ⟨ht, hd⟩ := hts t (by simp)
    rw [List.flatMap_cons, List.append_assoc] at hfits ⊢
    obtain ⟨S₁, Q₁, hpush, h₁⟩ := h.token ht hd hfits.head
    obtain ⟨hrest, S', Q', hrun, h'⟩ := ih (fun u hu => hts u (by simp [hu])) h₁ (hfits.tail ht)
    refine ⟨hrest, S', Q', ?_, ?_⟩
    · rw [append_token ht, hpush]
      exact hrun
    · rwa [List.append_assoc] at h'

/-! ## What is open can be filled up

An array that has begun asks for some more values, and any value will do. When it has them it is
complete, and the array around it asks for one less. -/

theorem spellsAll_replicate (n : Nat) :
    SpellsAll ((List.replicate n (star :: minus :: 49 :: crlf)).flatten)
      (List.replicate n (.array none)) := by
  induction n with
  | zero => exact .nil
  | succ n ih => exact .cons .nilArray ih

theorem prefix_ne (part : Bytes) {rest : Bytes} (h : rest ≠ []) :
    part <+: part ++ rest ∧ part ≠ part ++ rest :=
  ⟨List.prefix_append _ _, fun heq => h (by simpa using heq)⟩

theorem exists_rest {part u : Bytes} (hpre : part <+: u) (hne : part ≠ u) :
    ∃ rest, rest ≠ [] ∧ u = part ++ rest := by
  obtain ⟨rest, rfl⟩ := hpre
  exact ⟨rest, fun h => hne (by rw [h, List.append_nil]), rfl⟩

/-- A size line, and something behind it that makes it a value. -/
theorem spells_size (isArray : Bool) {ds : Bytes} (hds : ∀ c ∈ ds, Numeral.IsDigit c)
    (hne : ds ≠ []) (hfits : FitsSize (Numeral.value ds)) :
    ∃ x v, Spells ((if isArray then star else dollar) :: ds ++ crlf ++ x) v := by
  cases isArray with
  | false =>
    have hlen : Numeral.value ds = (List.replicate (Numeral.value ds) (0 : UInt8)).length := by simp
    refine ⟨List.replicate (Numeral.value ds) 0 ++ crlf,
      .bulkString (some (List.replicate (Numeral.value ds) 0)), ?_⟩
    rw [← List.append_assoc]
    exact .bulkString hds hne hlen (hlen ▸ hfits)
  | true =>
    have hlen : Numeral.value ds
        = (List.replicate (Numeral.value ds) (RespValue.array none)).length := by simp
    exact ⟨_, _, .array hds hne hlen (hlen ▸ hfits) (spellsAll_replicate _)⟩

/-- An array that is open can be filled up behind any part of its next element. -/
theorem Opened.fill {w : Bytes} {S : List RespState} (h : Opened w S) :
    ∀ {part u : Bytes} {v : RespValue}, Spells u v → part <+: u → part ≠ u →
      ∃ u' v', Spells u' v' ∧ w ++ part <+: u' ∧ w ++ part ≠ u' := by
  induction h with
  | nil => exact fun hu hpre hne => ⟨_, _, hu, hpre, hne⟩
  | @cons w ds body S xs h hds hne hfits hbody hlen ih =>
    intro part u v hu hpre hpart
    obtain ⟨rest, hrest, rfl⟩ := exists_rest hpre hpart
    have hall := hbody.append (.cons hu (spellsAll_replicate (Numeral.value ds - xs.length - 1)))
    have hxs : Numeral.value ds
        = (xs ++ v :: List.replicate (Numeral.value ds - xs.length - 1) (.array none)).length := by
      simp only [List.length_append, List.length_cons, List.length_replicate]
      omega
    have harray := Spells.array hds hne hxs (hxs ▸ hfits) hall
    have htext : star :: ds ++ crlf ++ (body ++ ((part ++ rest) ++
        (List.replicate (Numeral.value ds - xs.length - 1) (star :: minus :: 49 :: crlf)).flatten))
        = (star :: ds ++ crlf ++ (body ++ part)) ++ (rest ++
          (List.replicate (Numeral.value ds - xs.length - 1)
            (star :: minus :: 49 :: crlf)).flatten) := by simp
    rw [htext] at harray
    have hpart' := prefix_ne (star :: ds ++ crlf ++ (body ++ part)) (List.append_ne_nil_of_left_ne_nil
      hrest (List.replicate (Numeral.value ds - xs.length - 1) (star :: minus :: 49 :: crlf)).flatten)
    obtain ⟨u', v', hu', hin, hnot⟩ := ih harray hpart'.1 hpart'.2
    exact ⟨u', v', hu', by simpa using hin, by simpa using hnot⟩

/-- A part of a size line belongs to a value. -/
theorem spelled_of_size (isArray : Bool) {ds part : Bytes} (hds : ∀ c ∈ ds, Numeral.IsDigit c)
    (hpre : part <+: (if isArray then star else dollar) :: ds) (hfits : FitsHead part) :
    ∃ u v, Spells u v ∧ part <+: u ∧ part ≠ u := by
  cases part with
  | nil => exact ⟨_, _, .nilArray, List.nil_prefix, by simp⟩
  | cons b part =>
    obtain ⟨rfl, hpart⟩ := List.cons_prefix_cons.mp hpre
    have hdigits : ∀ c ∈ part, Numeral.IsDigit c := fun c hc => hds c (hpart.subset hc)
    by_cases hne : part = []
    · subst hne
      cases isArray with
      | false => exact ⟨_, _, .nilString, prefix_ne [dollar] (by simp)⟩
      | true => exact ⟨_, _, .nilArray, prefix_ne [star] (by simp)⟩
    · obtain ⟨x, v, hv⟩ := spells_size isArray hdigits hne
        (hfits.2 isArray part [] hdigits (by simp))
      rw [List.append_assoc] at hv
      exact ⟨_, v, hv, prefix_ne _ (by simp [crlf])⟩

/-- The part of a token that a string ends with is a part of a value. -/
theorem Unfinished.spelled {part : Bytes} (h : Unfinished part) (hfits : FitsHead part)
    (hblank : ¬ BlankInteger part) : ∃ u v, Spells u v ∧ part <+: u ∧ part ≠ u := by
  obtain ⟨t, ht, hpre, hne⟩ := h
  cases t with
  | simpleString s => exact ⟨_, _, .simpleString ht, hpre, hne⟩
  | error s => exact ⟨_, _, .error ht, hpre, hne⟩
  | nil isArray =>
    cases isArray with
    | false => exact ⟨_, _, .nilString, hpre, hne⟩
    | true => exact ⟨_, _, .nilArray, hpre, hne⟩
  | integer negative ds =>
    by_cases hd : ds = []
    · -- nothing but the type byte and the sign, or the CR is read already
      subst hd
      have hone : Spells (colon :: sign true ++ [49] ++ crlf) (.integer (-1)) :=
        .integer (by decide +kernel) (by decide) (by decide +kernel)
      have hparts : part = [] ∨ part = [colon] ∨ part = [colon, minus] := by
        have hmem := (List.mem_inits _ _).mpr hpre
        unfold BlankInteger at hblank
        cases negative <;> simp [Token.text, sign, crlf] at hmem hne <;> tauto
      refine ⟨_, _, hone, ?_⟩
      rcases hparts with rfl | rfl | rfl <;> decide
    · exact ⟨_, _, .integer ht.1 hd (Int64.toInt_ofInt_of_le ht.2.1 ht.2.2), hpre, hne⟩
  | bulkString ds s =>
    by_cases hline : part <+: dollar :: ds
    · exact spelled_of_size false ht.1 hline hfits
    · have hhead : dollar :: ds <+: (Token.bulkString ds s).text :=
        ⟨crlf ++ s ++ crlf, by simp [Token.text]⟩
      obtain ⟨y, rfl⟩ := (List.prefix_or_prefix_of_prefix hpre hhead).resolve_left hline
      have hsize := hfits.2 false ds y ht.1 rfl
      have hs : Numeral.value ds = s.length := by rw [← ht.2.2, Nat.mod_eq_of_lt hsize]
      exact ⟨_, _, .bulkString ht.1 ht.2.1 hs (hs ▸ hsize), hpre, hne⟩
  | array ds =>
    by_cases hline : part <+: star :: ds
    · exact spelled_of_size true ht.1 hline hfits
    · have hhead : star :: ds <+: (Token.array ds).text := ⟨crlf, rfl⟩
      obtain ⟨y, rfl⟩ := (List.prefix_or_prefix_of_prefix hpre hhead).resolve_left hline
      have hsize := hfits.2 true ds y ht.1 rfl
      obtain ⟨x, v, hv⟩ := spells_size true ht.1 ht.2 hsize
      refine ⟨_, v, hv, hpre.trans (List.prefix_append _ x), fun heq => hne ?_⟩
      exact hpre.eq_of_length_le (heq ▸ (List.prefix_append _ x).length_le)

/-- A string that is cut into tokens of the grammar is a sentence. -/
theorem sentence_of_cut {bs rest : Bytes} {ts : List Token} (hcut : Cut bs ts rest)
    (hrest : Unfinished rest) (hfits : NumeralsFit bs) (hdigits : ∀ t ∈ ts, t.HasDigit)
    (hblank : ¬ BlankInteger rest) :
    ∃ p, (idle [] []).append bs = .ok p ∧ Sentence bs p.messageQueue := by
  obtain ⟨hts, rfl⟩ := hcut
  obtain ⟨hfits', S, Q, hrun, hparsed⟩ :=
    Parsed.tokens ts rest (fun t ht => ⟨hts t ht, hdigits t ht⟩) parsed_nil hfits
  obtain ⟨done, w, hdone, hspells, hopened⟩ := hparsed
  obtain ⟨u, v, hu, hpre, hne⟩ := hrest.spelled hfits'.head hblank
  obtain ⟨u', v', hu', hpre', hne'⟩ := hopened.fill hu hpre hne
  obtain ⟨t, ht, hpart, hpartne⟩ := hrest
  obtain ⟨p, hp, hq⟩ := append_part ht hpart hpartne S Q
  refine ⟨p, hrun.trans hp, done, w ++ rest, u', v', ?_, hq ▸ hspells, hu', hpre', hne'⟩
  rw [← List.append_assoc, ← hdone, List.nil_append]

theorem accepted_of_cut {bs rest : Bytes} {ts : List Token} (hcut : Cut bs ts rest)
    (hrest : Unfinished rest) : ∃ p, (idle [] []).append bs = .ok p := by
  obtain ⟨hts, rfl⟩ := hcut
  obtain ⟨t, ht, hpre, hne⟩ := hrest
  obtain ⟨S, Q, -, hrun⟩ := append_tokens ts hts [] [] (by simp [Open])
  obtain ⟨p, hp, -⟩ := append_part ht hpre hne S Q
  exact ⟨p, (hrun rest).trans hp⟩

/-- In a sentence every integer has a digit, however the parser takes it in. -/
theorem Sentence.digits {bs rest : Bytes} {ts : List Token} {vs : List RespValue}
    (h : Sentence bs vs) (hcut : Cut bs ts rest) (hrest : Unfinished rest) :
    (∀ t ∈ ts, t.HasDigit) ∧ ¬ BlankInteger rest := by
  obtain ⟨ts', rest', hcut', hrest', hdigits, hblank⟩ := h.cut
  obtain ⟨rfl, rfl⟩ := hcut.unique hcut' hrest hrest'
  exact ⟨hdigits, hblank⟩

/-! ## The result -/

/-- The reads through an empty `std::optional` of the parser. -/
def emptyOptionals : List Fault :=
  [.undefined "reserve through an empty optional", .undefined "size through an empty optional",
    .undefined "push_back through an empty optional"]

/-- A fresh parser accepts the string exactly if the grammar has it, and yields its values; and it
never reads through an empty optional. -/
def ObeysGrammar (bs : Bytes) : Prop :=
  (NumeralsFit bs → ∀ vs, (∃ p, RespParser.append {} bs = .ok p ∧ p.messageQueue = vs) ↔
    Sentence bs vs) ∧
  ∀ f ∈ emptyOptionals, RespParser.append {} bs ≠ .error f

/-- A size without a digit is all that makes the parser read through an empty optional. -/
theorem reads_through_iff (bs : Bytes) :
    (∀ f ∈ emptyOptionals, (idle [] []).append bs ≠ .error f) ↔
      ∀ ts rest, Cut bs ts rest → ¬ BlankSize rest := by
  constructor
  · rintro h ts rest ⟨hts, rfl⟩ hblank
    obtain ⟨S, Q, -, hrun⟩ := append_tokens ts hts [] [] (by simp [Open])
    refine h blankSize (by simp [emptyOptionals, blankSize]) ?_
    rw [hrun rest, append_blankSize hblank]
  · intro h f hf hrun
    cases append_cases bs [] [] (by simp [Open]) with
    | accepted ts rest p _ _ hp => exact absurd (hrun.symm.trans hp) (by simp)
    | blank ts rest hcut hrest _ => exact h ts rest hcut hrest
    | refused f' hf' hp =>
      obtain rfl : f = f' := Except.error.inj (hrun.symm.trans hp)
      rcases hf' with rfl | rfl <;> simp [emptyOptionals, parserError, signedOverflow] at hf

/-- **The parser obeys the documented grammar, but for integers and sizes without a digit.** It
does so on a string if and only if no `$` or `*` that stands where a value is due has a CR right
behind it, and, if the parser takes the string in to its end, every integer that stands where a
value is due has a digit before its CR.

The parser looks at each line by itself, so what it takes in is a sequence of tokens, and every
sequence of tokens is the beginning of a sequence of values: open arrays can be filled up. The
tokens of the parser are the grammar's but for two, the integer and the size without a digit, and a
value of the grammar has neither. So the equivalence is that neither stands where a token begins. -/
theorem obeys_grammar_iff (bs : Bytes) :
    ObeysGrammar bs ↔
      (NumeralsFit bs → ∀ ts rest, Cut bs ts rest → Unfinished rest →
        (∀ t ∈ ts, t.HasDigit) ∧ ¬ BlankInteger rest) ∧
      ∀ ts rest, Cut bs ts rest → ¬ BlankSize rest := by
  refine and_congr (forall_congr' fun hfits => ?_) (reads_through_iff bs)
  constructor
  · intro h ts rest hcut hrest
    obtain ⟨p, hp⟩ := accepted_of_cut hcut hrest
    exact ((h _).mp ⟨p, hp, rfl⟩).digits hcut hrest
  · intro h vs
    refine ⟨?_, Sentence.accepted⟩
    rintro ⟨p, hp, rfl⟩
    change (idle [] []).append bs = .ok p at hp
    cases append_cases bs [] [] (by simp [Open]) with
    | accepted ts rest p' hcut hrest _ =>
      obtain ⟨hdigits, hblank⟩ := h ts rest hcut hrest
      obtain ⟨q, hq, hsentence⟩ := sentence_of_cut hcut hrest hfits hdigits hblank
      obtain rfl : q = p := Except.ok.inj (hq.symm.trans hp)
      exact hsentence
    | blank ts rest _ _ hrun => exact absurd (hp.symm.trans hrun) (by simp)
    | refused f _ hrun => exact absurd (hp.symm.trans hrun) (by simp)

theorem numeralsFit_of_no_digit {bs : Bytes} (h : ∀ c ∈ bs, ¬ Numeral.IsDigit c) :
    NumeralsFit bs := by
  rintro ts rest ⟨-, rfl⟩
  have hnil : ∀ ds : Bytes, (∀ c ∈ ds, Numeral.IsDigit c) → (∀ c ∈ ds, c ∈ rest) → ds = [] := by
    intro ds hds hin
    refine List.eq_nil_iff_forall_not_mem.mpr fun c hc => ?_
    exact h c (List.mem_append_right _ (hin c hc)) (hds c hc)
  constructor
  · intro negative ds x hds heq
    obtain rfl := hnil ds hds fun c hc => by simp [heq, hc]
    cases negative <;> decide
  · intro isArray ds x hds heq
    obtain rfl := hnil ds hds fun c hc => by simp [heq, hc]
    decide

/-- `:` with nothing behind it is taken for zero, and `$` with nothing behind it makes the parser
reserve room in a string that is not there. -/
theorem blank_numerals :
    ¬ ObeysGrammar (ascii ":\r\n") ∧ ¬ ObeysGrammar (ascii "$\r") ∧
    (∃ p, RespParser.append {} (ascii ":\r\n") = .ok p ∧ p.messageQueue = [.integer 0]) ∧
    RespParser.append {} (ascii "$\r") = .error blankSize := by
  refine ⟨fun h => ?_, fun h => ?_, ⟨_, rfl, rfl⟩, rfl⟩
  · have hsentence := (h.1 (numeralsFit_of_no_digit (by decide +kernel)) _).mp ⟨_, rfl, rfl⟩
    have hzero : FitsInt64 (signed false (Numeral.value [])) := fitsInt64_signed.mpr (Nat.zero_le _)
    have hcut : Cut (ascii ":\r\n") [.integer false []] [] :=
      ⟨by simpa [Token.Taken] using hzero, rfl⟩
    have hrest : Unfinished [] := ⟨.nil true, trivial, List.nil_prefix, by decide⟩
    exact (hsentence.digits hcut hrest).1 (.integer false []) (by simp) rfl
  · exact h.2 blankSize (by decide) rfl

end Resp
end KvJet
