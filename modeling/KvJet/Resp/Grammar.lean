import KvJet.Resp.Encoder

/-!
# The grammar of RESP

`docs/RESP_PROTOCOL.md`: which texts spell which values. A numeral is any non-empty string of
digits, leading zeros included; an integer may have a minus in front. The text of a simple string
or an error ends at the first CR, the bytes of a bulk string are counted.

`encode` writes one text for a value, the one without leading zeros (`spells_encode`).
-/

namespace KvJet
namespace Resp

/-- The number that a sign and a magnitude stand for. -/
def signed (negative : Bool) (k : Nat) : Int := if negative then -k else k

/-- The optional sign of an integer. -/
def sign (negative : Bool) : Bytes := if negative then [minus] else []

mutual
/-- The text `u` spells the value `v`. -/
inductive Spells : Bytes → RespValue → Prop
  | simpleString {s : Bytes} (hs : cr ∉ s) : Spells (plus :: s ++ crlf) (.simpleString s)
  | error {s : Bytes} (hs : cr ∉ s) : Spells (minus :: s ++ crlf) (.error s)
  | integer {negative : Bool} {ds : Bytes} {n : Int64} (hds : ∀ c ∈ ds, Numeral.IsDigit c)
      (hne : ds ≠ []) (hn : n.toInt = signed negative (Numeral.value ds)) :
      Spells (colon :: sign negative ++ ds ++ crlf) (.integer n)
  | nilString : Spells (dollar :: minus :: 49 :: crlf) (.bulkString none)
  | bulkString {ds s : Bytes} (hds : ∀ c ∈ ds, Numeral.IsDigit c) (hne : ds ≠ [])
      (hs : Numeral.value ds = s.length) (hsize : s.length < 2 ^ 64) :
      Spells (dollar :: ds ++ crlf ++ s ++ crlf) (.bulkString (some s))
  | nilArray : Spells (star :: minus :: 49 :: crlf) (.array none)
  | array {ds w : Bytes} {xs : List RespValue} (hds : ∀ c ∈ ds, Numeral.IsDigit c) (hne : ds ≠ [])
      (hlen : Numeral.value ds = xs.length) (hsize : xs.length < 2 ^ 64) (h : SpellsAll w xs) :
      Spells (star :: ds ++ crlf ++ w) (.array (some xs))

/-- The text `w` spells the values `vs`, one after another. -/
inductive SpellsAll : Bytes → List RespValue → Prop
  | nil : SpellsAll [] []
  | cons {u w : Bytes} {v : RespValue} {vs : List RespValue} (h : Spells u v)
      (hs : SpellsAll w vs) : SpellsAll (u ++ w) (v :: vs)
end

theorem SpellsAll.singleton {u : Bytes} {v : RespValue} (h : Spells u v) : SpellsAll u [v] := by
  have hall := SpellsAll.cons h .nil
  rwa [List.append_nil] at hall

theorem SpellsAll.append {w w' : Bytes} {vs vs' : List RespValue} (h : SpellsAll w vs)
    (h' : SpellsAll w' vs') : SpellsAll (w ++ w') (vs ++ vs') := by
  induction vs generalizing w with
  | nil =>
    cases h
    exact h'
  | cons v vs ih =>
    cases h with
    | cons hv hs =>
      rw [List.append_assoc]
      exact .cons hv (ih hs)

/-- Induction on a value, with the elements of an array as the smaller values. -/
theorem RespValue.induct {P : RespValue → Prop} (simpleString : ∀ s, P (.simpleString s))
    (bulkString : ∀ s, P (.bulkString s)) (error : ∀ s, P (.error s))
    (integer : ∀ n, P (.integer n)) (nil : P (.array none))
    (array : ∀ xs, (∀ x ∈ xs, P x) → P (.array (some xs))) : ∀ v, P v := by
  intro v
  induction v using RespValue.rec (motive_2 := fun o => ∀ xs, o = some xs → ∀ x ∈ xs, P x)
    (motive_3 := fun xs => ∀ x ∈ xs, P x) with
  | simpleString s => exact simpleString s
  | bulkString s => exact bulkString s
  | error s => exact error s
  | integer n => exact integer n
  | array o ih =>
    cases o with
    | none => exact nil
    | some xs => exact array xs (ih xs rfl)
  | none xs h => exact absurd h (by simp)
  | some xs ih ys h x hx =>
    cases h
    exact ih x hx
  | nil x hx => exact absurd hx (by simp)
  | cons y ys ihy ihys x hx =>
    rcases List.mem_cons.mp hx with rfl | hm
    · exact ihy
    · exact ihys x hm

theorem spells_integer (n : Int64) : Spells (encode (.integer n)) (.integer n) := by
  have hvalue : Numeral.value (toString n.toInt.natAbs) = n.toInt.natAbs := Numeral.value_render _
  have hspell : ∀ negative : Bool, n.toInt = signed negative n.toInt.natAbs →
      Spells (colon :: sign negative ++ toString n.toInt.natAbs ++ crlf) (.integer n) := by
    intro negative h
    exact .integer (fun c hc => Numeral.isDigit_of_mem_render hc) (Numeral.render_ne_nil _)
      (by rw [hvalue]; exact h)
  unfold encode encodeInteger toStringInt
  by_cases hneg : n.toInt < 0
  · rw [if_pos hneg]
    refine hspell true ?_
    simp only [signed, if_true]
    omega
  · rw [if_neg hneg]
    refine hspell false ?_
    simp only [signed, Bool.false_eq_true, if_false]
    omega

theorem spellsAll_encodeElements {xs : List RespValue} (h : ∀ x ∈ xs, Spells (encode x) x) :
    SpellsAll (encodeElements xs) xs := by
  induction xs with
  | nil => exact .nil
  | cons x xs ih => exact .cons (h x (by simp)) (ih fun y hy => h y (by simp [hy]))

/-- **What is encoded is spelled.** -/
theorem spells_encode : ∀ v : RespValue, v.Wire → Spells (encode v) v := by
  intro v
  induction v using RespValue.induct with
  | simpleString s => exact fun hw => .simpleString hw
  | error s => exact fun hw => .error hw
  | integer n => exact fun _ => spells_integer n
  | bulkString s =>
    intro hw
    cases s with
    | none => exact .nilString
    | some s =>
      exact .bulkString (fun c hc => Numeral.isDigit_of_mem_render hc) (Numeral.render_ne_nil _)
        (Numeral.value_render _) hw
  | nil => exact fun _ => .nilArray
  | array xs ih =>
    rintro ⟨hlen, hall⟩
    exact .array (fun c hc => Numeral.isDigit_of_mem_render hc) (Numeral.render_ne_nil _)
      (Numeral.value_render _) hlen
      (spellsAll_encodeElements fun x hx => ih x hx (wireAll_iff.mp hall x hx))

end Resp
end KvJet
