import KvJet.Bytes

/-!
# RESP values

`resp::RespValue`: a variant of simple string, bulk string, error, `int64_t` and array, where
a bulk string and an array may be nil (`std::nullopt`).

An array holds `std::unique_ptr`s. No value the parser builds holds a null pointer, so the
elements here are plain values; the one place where the program takes an element out of an
array and goes on using the array is a request handler, and `Server/Handler.lean` models the
hole it leaves.
-/

namespace KvJet
namespace Resp

/-- `resp::RespValue`. -/
inductive RespValue where
  | simpleString (value : Bytes)
  | bulkString (value : Option Bytes)
  | error (value : Bytes)
  | integer (value : Int64)
  | array (value : Option (List RespValue))
deriving Repr

/-- `RespValue()` is the nil array. -/
instance : Inhabited RespValue := ⟨.array none⟩

mutual
/-- Values that can travel: the text of a simple string or an error ends at the first CR, so
it must not hold one. The size bounds are those of `size_t`, which every `std::string` and
`std::vector` meets. -/
def RespValue.Wire : RespValue → Prop
  | .simpleString s => cr ∉ s
  | .error s => cr ∉ s
  | .bulkString none => True
  | .bulkString (some s) => s.length < 2 ^ 64
  | .integer _ => True
  | .array none => True
  | .array (some xs) => xs.length < 2 ^ 64 ∧ WireAll xs

/-- `RespValue.Wire` of every element. -/
def WireAll : List RespValue → Prop
  | [] => True
  | x :: xs => x.Wire ∧ WireAll xs
end

theorem wireAll_iff {xs : List RespValue} : WireAll xs ↔ ∀ x ∈ xs, x.Wire := by
  induction xs with
  | nil => simp [WireAll]
  | cons x xs ih => simp [WireAll, ih]

end Resp
end KvJet
