import KvJet.Lib.Stream
import KvJet.Resp.Value

/-!
# The RESP parser

`resp::RespParser` (`RespParser.cpp`): a machine of eight states that is fed one byte at a
time, with a stack of the arrays that are still open and a queue of finished values.

What the source leaves to C++ is made explicit:

* `node.total` is a `size_t`, so its arithmetic wraps at `2^64`; for an integer it is a sign
  mark instead (`0` nothing read, `1` positive, `-1` negative).
* the integer accumulator is an `int64_t`, whose overflow is undefined behaviour.
* `it->value->reserve(…)` on a size line without a digit reads through an empty optional.

`feed` is the parser whose `reserve` calls succeed; in `feedReserving` the one for a declared size
may throw. A moved-from `node` is never read again before the next type byte overwrites it; it is set
to the default here so that equal parsers are equal terms.
-/

namespace KvJet
namespace Resp

/-- `RespParser::RespState`: the value being read, and its declared size. -/
structure RespState where
  value : RespValue
  total : Nat

/-- `RespState()`. -/
instance : Inhabited RespState := ⟨⟨default, 0⟩⟩

/-- `RespParser::ParseState`. -/
inductive ParseState where
  | waitType
  | readSize
  | waitLFSZ
  | waitNil
  | waitNilCR
  | readLine
  | waitLF
  | readBulk
deriving DecidableEq, Repr

structure RespParser where
  state : ParseState := .waitType
  /-- The object being read. -/
  node : RespState := default
  /-- `stateStack`, innermost open array first. -/
  stateStack : List RespState := []
  /-- `message_queue`, oldest first. -/
  messageQueue : List RespValue := []

/-- `throw std::runtime_error("Parser Error!!")`. -/
def parserError : Fault := .exception "Parser Error!!"

/-- `static_cast<size_t>(-1)`, the sign mark of a negative integer. -/
def negMark : Nat := 2 ^ 64 - 1

/-- The array of a state is open: it has a value and elements are missing. -/
def RespState.isOpen (s : RespState) : Bool :=
  match s.value with
  | .array (some xs) => xs.length != s.total
  | _ => false

/-- `RespParser::push`: an open array goes on the stack; anything else is finished, and goes
into the array on top of the stack (closing it, and pushing it in turn, when it was the last
element) or, with no open array, into the queue. -/
def push : List RespState → RespState → List RespValue →
    Except Fault (List RespState × List RespValue)
  | stack, s, queue =>
    if s.isOpen then .ok (s :: stack, queue)
    else
      match stack with
      | [] => .ok ([], queue ++ [s.value])
      | top :: rest =>
        match top.value with
        | .array (some xs) =>
          let temp : RespState := { top with value := .array (some (xs ++ [s.value])) }
          if xs.length + 1 = top.total then push rest temp queue
          else .ok (temp :: rest, queue)
        | .array none => .error (.undefined "push_back through an empty optional")
        | _ => .error (.exception "Parser Stack Error!!")

/-- `push(std::move(node)); state = WaitType;`. -/
def RespParser.finish (p : RespParser) : Except Fault RespParser := do
  let (stack, queue) ← push p.stateStack p.node p.messageQueue
  return { state := .waitType, stateStack := stack, messageQueue := queue }

/-- `*it *= 10; *it ± = d;` on an `int64_t`: each of the two steps may overflow. -/
def accumulate (n : Int64) (negative : Bool) (d : Nat) : Except Fault Int64 :=
  let inRange (m : Int) : Bool := -2 ^ 63 ≤ m && m < 2 ^ 63
  let scaled := n.toInt * 10
  let moved := if negative then scaled - d else scaled + d
  if inRange scaled && inRange moved then .ok (Int64.ofInt moved)
  else .error (.undefined "signed overflow")

/-- One turn of the `switch` in `RespParser::append`. -/
def RespParser.feed (p : RespParser) (c : UInt8) : Except Fault RespParser :=
  match p.state with
  | .waitType =>
    if c = plus then .ok { p with node := ⟨.simpleString [], 0⟩, state := .readLine }
    else if c = minus then .ok { p with node := ⟨.error [], 0⟩, state := .readLine }
    else if c = colon then .ok { p with node := ⟨.integer 0, 0⟩, state := .readLine }
    else if c = dollar then .ok { p with node := ⟨.bulkString none, 0⟩, state := .readSize }
    else if c = star then .ok { p with node := ⟨.array none, 0⟩, state := .readSize }
    else .error parserError
  | .readSize =>
    if c = minus then
      match p.node.value with
      | .array none | .bulkString none => .ok { p with state := .waitNil }
      | _ => .error parserError
    else if c = cr then
      match p.node.value with
      | .array (some _) | .bulkString (some _) => .ok { p with state := .waitLFSZ }
      | .array none | .bulkString none => .error (.undefined "reserve through an empty optional")
      | _ => .error parserError
    else if Numeral.IsDigit c then
      let total := (p.node.total * 10 + Numeral.digitVal c) % 2 ^ 64
      match p.node.value with
      | .array v =>
        .ok { p with node := ⟨.array (if p.node.total = 0 then some [] else v), total⟩ }
      | .bulkString v =>
        .ok { p with node := ⟨.bulkString (if p.node.total = 0 then some [] else v), total⟩ }
      | _ => .error parserError
    else .error parserError
  | .waitLFSZ =>
    if c = lf then
      match p.node.value with
      | .array _ => p.finish
      | .bulkString _ => .ok { p with state := .readBulk }
      | _ => .error parserError
    else .error parserError
  | .waitNil => if c = 49 then .ok { p with state := .waitNilCR } else .error parserError
  | .waitNilCR => if c = cr then .ok { p with state := .waitLF } else .error parserError
  | .readLine =>
    if c = cr then .ok { p with state := .waitLF }
    else
      match p.node.value with
      | .simpleString s => .ok { p with node := { p.node with value := .simpleString (s ++ [c]) } }
      | .error s => .ok { p with node := { p.node with value := .error (s ++ [c]) } }
      | .integer n =>
        if c = minus then
          if p.node.total = 0 then .ok { p with node := { p.node with total := negMark } }
          else .error parserError
        else if Numeral.IsDigit c then do
          let total := if p.node.total = 0 then 1 else p.node.total
          let m ← accumulate n (total ≠ 1) (Numeral.digitVal c)
          return { p with node := ⟨.integer m, total⟩ }
        else .error parserError
      | _ => .error parserError
  | .waitLF => if c = lf then p.finish else .error parserError
  | .readBulk =>
    match p.node.value with
    | .bulkString (some s) =>
      if s.length = p.node.total then
        if c = cr then .ok { p with state := .waitLF } else .error parserError
      else .ok { p with node := { p.node with value := .bulkString (some (s ++ [c])) } }
    | .bulkString none => .error (.undefined "size through an empty optional")
    | _ => .error parserError

/-- What `reserve(n)` of an array (`true`) or a string throws, if it does: a `std::length_error`
for more than `max_size()`, a `std::bad_alloc` for more than there is. -/
abbrev Reserve := Bool → Nat → Option String

/-- `it->value->reserve(node.total)` at the end of a size line, where it throws. -/
def RespParser.refusal (reserve : Reserve) (p : RespParser) (c : UInt8) : Option String :=
  if p.state = .readSize ∧ c = cr then
    match p.node.value with
    | .array (some _) => reserve true p.node.total
    | .bulkString (some _) => reserve false p.node.total
    | _ => none
  else none

/-- `feed`, with a `reserve` that may throw. -/
def RespParser.feedReserving (reserve : Reserve) (p : RespParser) (c : UInt8) :
    Except Fault RespParser :=
  match p.refusal reserve c with
  | some what => .error (.exception what)
  | none => p.feed c

/-- `RespParser::append`, with a `reserve` that may throw. -/
def RespParser.appendReserving (reserve : Reserve) (p : RespParser) (app : Bytes) :
    Except Fault RespParser :=
  Stream.run (RespParser.feedReserving reserve) p app

/-- `RespParser::append`: the loop over the bytes handed in. -/
def RespParser.append (p : RespParser) (app : Bytes) : Except Fault RespParser :=
  Stream.run RespParser.feed p app

/-- Successive calls of `append`. -/
def RespParser.appendAll (p : RespParser) (chunks : List Bytes) : Except Fault RespParser :=
  chunks.foldlM RespParser.append p

/-- `RespParser::hasResult`. -/
def RespParser.hasResult (p : RespParser) : Bool := !p.messageQueue.isEmpty

/-- `RespParser::getResult`: take the oldest finished value, if there is one. -/
def RespParser.getResult (p : RespParser) : Option RespValue × RespParser :=
  match p.messageQueue with
  | [] => (none, p)
  | v :: vs => (some v, { p with messageQueue := vs })

/-! ## The queue is only written

The parser never looks at what it has put on its queue. So a run from a queue with something on it
is the run from an empty one, behind that. -/

/-- The same parser with older results in front of its own. -/
def RespParser.behind (older : List RespValue) (p : RespParser) : RespParser :=
  { p with messageQueue := older ++ p.messageQueue }

theorem push_behind (older : List RespValue) : ∀ (stack : List RespState) (s : RespState)
    (queue : List RespValue),
    push stack s (older ++ queue)
      = (push stack s queue).map fun p => (p.1, older ++ p.2) := by
  intro stack
  induction stack with
  | nil =>
    intro s queue
    unfold push
    split <;> simp [Except.map]
  | cons top rest ih =>
    intro s queue
    obtain ⟨value, total⟩ := top
    unfold push
    by_cases hopen : s.isOpen = true
    · rw [if_pos hopen, if_pos hopen]
      rfl
    · rw [if_neg hopen, if_neg hopen]
      cases value with
      | array o =>
        cases o with
        | none => rfl
        | some xs =>
          by_cases hlast : xs.length + 1 = total
          · simp only [if_pos hlast]
            exact ih _ queue
          · simp only [if_neg hlast]
            rfl
      | simpleString s => rfl
      | bulkString s => rfl
      | error s => rfl
      | integer n => rfl

theorem RespParser.finish_behind (older : List RespValue) (p : RespParser) :
    (p.behind older).finish = p.finish.map (RespParser.behind older) := by
  unfold RespParser.finish
  show (push p.stateStack p.node (older ++ p.messageQueue) >>= _) = _
  rw [push_behind]
  cases push p.stateStack p.node p.messageQueue <;> rfl

/-- What a byte does to a parser does not depend on the results that are waiting. -/
theorem RespParser.feed_behind (older : List RespValue) (p : RespParser) (c : UInt8) :
    (p.behind older).feed c = (p.feed c).map (RespParser.behind older) := by
  have hfinish := RespParser.finish_behind older p
  obtain ⟨state, ⟨value, total⟩, stack, queue⟩ := p
  cases state with
  | waitType | readSize | waitNil | waitNilCR =>
    -- a case is closed as soon as both sides are one outcome: `readSize` decides inside it
    simp only [RespParser.feed, RespParser.behind]
    repeat' (first | rfl | split)
  | waitLFSZ | waitLF =>
    simp only [RespParser.feed, RespParser.behind] at hfinish ⊢
    repeat' (first | rfl | exact hfinish | split)
  | readLine =>
    simp only [RespParser.feed, RespParser.behind]
    cases value with
    | integer n =>
      by_cases hcr : c = cr
      · simp only [if_pos hcr]; rfl
      by_cases hminus : c = minus
      · simp only [if_neg hcr, if_pos hminus]
        by_cases htotal : total = 0 <;> simp [htotal, Except.map, RespParser.behind]
      by_cases hdigit : Numeral.IsDigit c
      · simp only [if_neg hcr, if_neg hminus, if_pos hdigit]
        have hkeep : ∀ x : Except Fault Int64, ∀ t : Nat,
            (do let m ← x; return RespParser.mk .readLine ⟨.integer m, t⟩ stack (older ++ queue))
              = (do let m ← x; return RespParser.mk .readLine ⟨.integer m, t⟩ stack queue).map
                (RespParser.behind older) := by
          intro x t
          cases x <;> rfl
        exact hkeep _ _
      · simp only [if_neg hcr, if_neg hminus, if_neg hdigit]; rfl
    | simpleString s | error s | bulkString s | array o =>
      by_cases hcr : c = cr
      · simp only [if_pos hcr]; rfl
      · simp only [if_neg hcr]; rfl
  | readBulk =>
    simp only [RespParser.feed, RespParser.behind]
    cases value with
    | bulkString o =>
      cases o with
      | none => rfl
      | some s =>
        by_cases hfull : s.length = total
        · simp only [hfull, if_true]
          split <;> rfl
        · simp only [hfull, if_false]; rfl
    | simpleString s | error s | integer n | array o => rfl

end Resp
end KvJet
