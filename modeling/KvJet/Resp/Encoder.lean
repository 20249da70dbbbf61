import KvJet.Resp.Value

/-!
# The RESP encoder

`resp::encode` and the functions below it (`RespEncoder.cpp`). The source appends to one
string; here each function returns what it appends. The capacity tests before the appends
only decide when memory is reserved and are left out.
-/

namespace KvJet
namespace Resp

def encodeSimpleString (msg : Bytes) : Bytes := plus :: msg ++ crlf

def encodeError (msg : Bytes) : Bytes := minus :: msg ++ crlf

def encodeInteger (num : Int64) : Bytes := colon :: toStringInt num.toInt ++ crlf

def encodeBulkString : Option Bytes → Bytes
  | none => dollar :: minus :: 49 :: crlf
  | some data => dollar :: toString data.length ++ crlf ++ data ++ crlf

mutual
/-- `resp::encode`; its `encodeArray` case is inlined, so that the recursion is on the value. -/
def encode : RespValue → Bytes
  | .simpleString s => encodeSimpleString s
  | .error s => encodeError s
  | .integer n => encodeInteger n
  | .bulkString s => encodeBulkString s
  | .array none => star :: minus :: 49 :: crlf
  | .array (some xs) => star :: toString xs.length ++ crlf ++ encodeElements xs

/-- The loop of `encodeArray` over the elements. -/
def encodeElements : List RespValue → Bytes
  | [] => []
  | x :: xs => encode x ++ encodeElements xs
end

theorem encodeElements_eq_flatMap (xs : List RespValue) :
    encodeElements xs = xs.flatMap encode := by
  induction xs with
  | nil => rfl
  | cons x xs ih => rw [encodeElements, List.flatMap_cons, ih]

theorem encode_ne_nil (v : RespValue) : encode v ≠ [] := by
  cases v with
  | simpleString s => simp [encode, encodeSimpleString]
  | error s => simp [encode, encodeError]
  | integer n => simp [encode, encodeInteger]
  | bulkString s => cases s <;> simp [encode, encodeBulkString]
  | array xs => cases xs <;> simp [encode]

/-- `:1000\r\n`, `$-1\r\n` and a two-element array, as the protocol notes spell them. -/
example : encode (.integer 1000) = ascii ":1000\r\n" := by decide
example : encode (.bulkString none) = ascii "$-1\r\n" := by decide
example : encode (.array (some [.bulkString (some (ascii "foo")), .bulkString (some (ascii "bar"))]))
    = ascii "*2\r\n$3\r\nfoo\r\n$3\r\nbar\r\n" := by decide

end Resp
end KvJet
