import KvJet.Resp.RoundTrip

/-!
# The text of the Raft replies

A reply goes through four pieces of code written apart from each other: `RaftNode.cpp` builds
its text by hand, `RespParser` reads that as a value, `Handler::handleRaft` encodes the value
again, and `parseParts` cuts this text at its CRs.

The text is that of an array of simple strings (`encodeAppendEntriesReply_eq`), and for such
arrays the rest of the way is exact (`relay_message`). What is wrong is the text itself: the
flag is written as `"+1\r\n"` or `"+0\r\n"` behind a `"+"` that is already there, so the field
that arrives is `"+1"` or `"+0"`, and neither is the `"1"` that the reader compares with.
-/

namespace KvJet
namespace Raft

open Resp

/-! ## The source -/

/-- The flag of a reply, as both encoders write it. -/
def encodeFlag (flag : Bool) : Bytes := if flag then ascii "+1\r\n" else ascii "+0\r\n"

def encodeAppendEntriesReply (gid term : UInt64) (success : Bool) (matchIdx : UInt64) : Bytes :=
  ascii "*5\r\n+RAFT_AER\r\n+" ++ toString gid.toNat ++ ascii "\r\n+" ++ toString term.toNat ++
    ascii "\r\n+" ++ encodeFlag success ++ ascii "+" ++ toString matchIdx.toNat ++ ascii "\r\n"

def encodeRequestVoteReply (gid term : UInt64) (granted : Bool) : Bytes :=
  ascii "*4\r\n+RAFT_RVR\r\n+" ++ toString gid.toNat ++ ascii "\r\n+" ++ toString term.toNat ++
    ascii "\r\n+" ++ encodeFlag granted

/-- A chunk between two CRs counts if it starts with `'+'`. -/
def part : Bytes → List Bytes
  | [] => []
  | c :: rest => if c = plus then [rest] else []

/-- The loop of `parseParts`, with what it has of the current chunk. The byte behind a CR is
skipped, and what follows the last CR is dropped. -/
def partsFrom : Bytes → Bytes → List Bytes
  | _, [] => []
  | chunk, [c] => if c = cr then part chunk else []
  | chunk, c :: d :: rest =>
    if c = cr then part chunk ++ partsFrom [] rest else partsFrom (chunk ++ [c]) (d :: rest)

def parseParts (raw : Bytes) : List Bytes := partsFrom [] raw

/-- `parts[i]`, whose bound is not checked. -/
def partAt (parts : List Bytes) (i : Nat) : Except Fault Bytes :=
  match parts[i]? with
  | some p => .ok p
  | none => .error (.undefined "parts out of range")

/-- What `handleAppendEntriesReply` reads: term, success and match index. -/
def readAppendEntriesReply (raw : Bytes) : Except Fault (Option (UInt64 × Bool × UInt64)) :=
  let parts := parseParts raw
  if parts.length < 4 then .ok none
  else do
    let term ← stoull (← partAt parts 2)
    let success := (← partAt parts 3) == ascii "1"
    let matchIdx ← stoull (← partAt parts 4)
    return some (term, success, matchIdx)

/-- What `handleRequestVoteReply` reads: term and vote. -/
def readRequestVoteReply (raw : Bytes) : Except Fault (Option (UInt64 × Bool)) :=
  let parts := parseParts raw
  if parts.length < 4 then .ok none
  else do
    let term ← stoull (← partAt parts 2)
    let granted := (← partAt parts 3) == ascii "1"
    return some (term, granted)

/-- `Handler::handleRaft`: the group a request is for and the text that its `RaftNode::step`
gets. -/
def handleRaft (request : RespValue) : Except Fault (Option (UInt64 × Bytes)) :=
  match request with
  | .array (some (_ :: second :: _)) =>
    let gid := match second with
      | .simpleString s => toUint64 s
      | _ => 0
    .ok (some (gid, encode request))
  | .array (some _) => .ok none
  | .array none => .error (.undefined "size through an empty optional")
  | _ => .error (.undefined "null get_if")

/-- The bytes of one message on the way to `RaftNode::step`. -/
def relay (bytes : Bytes) : Except Fault (List (Option (UInt64 × Bytes))) := do
  let p ← RespParser.append {} bytes
  p.messageQueue.mapM handleRaft

/-! ## Messages as values -/

/-- An array of simple strings. -/
def message (fields : List Bytes) : RespValue := .array (some (fields.map .simpleString))

theorem partsFrom_chunk (d : UInt8) (rest : Bytes) : ∀ (s chunk : Bytes), cr ∉ s →
    partsFrom chunk (s ++ cr :: d :: rest) = part (chunk ++ s) ++ partsFrom [] rest := by
  intro s
  induction s with
  | nil => intro chunk _; simp [partsFrom]
  | cons c s ih =>
    intro chunk hs
    have hc : c ≠ cr := fun h => hs (by simp [h])
    have hs' : cr ∉ s := fun h => hs (by simp [h])
    have hstep : ∀ b bs, partsFrom chunk (c :: b :: bs) = partsFrom (chunk ++ [c]) (b :: bs) := by
      intro b bs
      rw [partsFrom, if_neg hc]
    have happend : part ((chunk ++ [c]) ++ s) = part (chunk ++ c :: s) := by simp
    rw [← happend, ← ih (chunk ++ [c]) hs']
    cases s with
    | nil => exact hstep _ _
    | cons b s => exact hstep _ _

/-- **`parseParts` undoes the encoding of a message.** -/
theorem parseParts_message (fields : List Bytes) (h : ∀ f ∈ fields, cr ∉ f) :
    parseParts (encode (message fields)) = fields := by
  have hfields : ∀ fs : List Bytes, (∀ f ∈ fs, cr ∉ f) →
      partsFrom [] (encodeElements (fs.map .simpleString)) = fs := by
    intro fs
    induction fs with
    | nil => intro _; rfl
    | cons f fs ih =>
      intro hfs
      have hline : encodeElements ((f :: fs).map .simpleString)
          = (plus :: f) ++ cr :: lf :: encodeElements (fs.map .simpleString) := by
        simp [encodeElements, encode, encodeSimpleString, crlf]
      have hcr : cr ∉ plus :: f := by
        simp only [List.mem_cons, not_or]
        exact ⟨by decide, hfs f (by simp)⟩
      rw [hline, partsFrom_chunk _ _ _ _ hcr, ih fun f' hf' => hfs f' (by simp [hf'])]
      simp [part]
  have hhead : encode (message fields) = (star :: toString fields.length)
      ++ cr :: lf :: encodeElements (fields.map .simpleString) := by
    simp [message, encode, crlf]
  have hcr : cr ∉ star :: toString fields.length := by
    simp only [List.mem_cons, not_or]
    exact ⟨by decide, cr_not_mem_toString _⟩
  rw [parseParts, hhead, partsFrom_chunk _ _ _ _ hcr, hfields fields h]
  simp [part, star, plus]

theorem wire_message {fields : List Bytes} (h : ∀ f ∈ fields, cr ∉ f)
    (hlen : fields.length < 2 ^ 64) : (message fields).Wire := by
  refine ⟨by simpa using hlen, wireAll_iff.mpr fun v hv => ?_⟩
  obtain ⟨f, hf, rfl⟩ := List.mem_map.mp hv
  exact h f hf

/-- The text of a message is read as one value, which goes to the group it names and has the same
text there. -/
theorem append_message (name : Bytes) (gid : UInt64) (fields : List Bytes)
    (h : ∀ f ∈ name :: toString gid.toNat :: fields, cr ∉ f) (hlen : fields.length + 2 < 2 ^ 64) :
    RespParser.append {} (encode (message (name :: toString gid.toNat :: fields)))
        = .ok (idle [] [message (name :: toString gid.toNat :: fields)]) ∧
      handleRaft (message (name :: toString gid.toNat :: fields))
        = .ok (some (gid, encode (message (name :: toString gid.toNat :: fields)))) := by
  have hread := append_encodings [message (name :: toString gid.toNat :: fields)]
    (by simpa using wire_message h (by simpa using hlen)) []
  rw [List.flatMap_singleton] at hread
  refine ⟨hread, ?_⟩
  simp only [message, List.map_cons, handleRaft, toUint64_toString]

/-- **A message reaches its group with its text unchanged.** -/
theorem relay_message (name : Bytes) (gid : UInt64) (fields : List Bytes)
    (h : ∀ f ∈ name :: toString gid.toNat :: fields, cr ∉ f) (hlen : fields.length + 2 < 2 ^ 64) :
    relay (encode (message (name :: toString gid.toNat :: fields)))
      = .ok [some (gid, encode (message (name :: toString gid.toNat :: fields)))] := by
  obtain ⟨hparse, hraft⟩ := append_message name gid fields h hlen
  rw [relay, hparse]
  simp only [idle, bind, Except.bind, List.mapM_cons, List.mapM_nil, hraft, pure, Except.pure]

/-! ## The replies -/

/-- The flag's field, as it arrives. -/
def flagField (flag : Bool) : Bytes := if flag then ascii "+1" else ascii "+0"

theorem encodeAppendEntriesReply_eq (gid term : UInt64) (success : Bool) (matchIdx : UInt64) :
    encodeAppendEntriesReply gid term success matchIdx
      = encode (message [ascii "RAFT_AER", toString gid.toNat, toString term.toNat,
          flagField success, toString matchIdx.toNat]) := by
  have hfive : toString 5 = ascii "5" := by decide
  cases success <;>
    simp [encodeAppendEntriesReply, encodeFlag, flagField, message, encode, encodeElements,
      encodeSimpleString, hfive, ascii, crlf, star, plus, cr, lf]

theorem encodeRequestVoteReply_eq (gid term : UInt64) (granted : Bool) :
    encodeRequestVoteReply gid term granted
      = encode (message [ascii "RAFT_RVR", toString gid.toNat, toString term.toNat,
          flagField granted]) := by
  have hfour : toString 4 = ascii "4" := by decide
  cases granted <;>
    simp [encodeRequestVoteReply, encodeFlag, flagField, message, encode, encodeElements,
      encodeSimpleString, hfour, ascii, crlf, star, plus, cr, lf]

theorem cr_not_mem_flagField (flag : Bool) : cr ∉ flagField flag := by
  cases flag <;> decide

theorem flagField_ne_one (flag : Bool) : (flagField flag == ascii "1") = false := by
  cases flag <;> decide

/-- The reply of `v` reaches group `gid` of the other side as it was sent. -/
def AppendEntriesReplyArrives (gid term : UInt64) (success : Bool) (matchIdx : UInt64) : Prop :=
  ∃ raw, relay (encodeAppendEntriesReply gid term success matchIdx) = .ok [some (gid, raw)] ∧
    readAppendEntriesReply raw = .ok (some (term, success, matchIdx))

def RequestVoteReplyArrives (gid term : UInt64) (granted : Bool) : Prop :=
  ∃ raw, relay (encodeRequestVoteReply gid term granted) = .ok [some (gid, raw)] ∧
    readRequestVoteReply raw = .ok (some (term, granted))

/-- Whatever the flag, it is read as false; everything else is read as it was. -/
theorem appendEntriesReply_arrives (gid term : UInt64) (success : Bool) (matchIdx : UInt64) :
    ∃ raw, relay (encodeAppendEntriesReply gid term success matchIdx) = .ok [some (gid, raw)] ∧
      readAppendEntriesReply raw = .ok (some (term, false, matchIdx)) := by
  have hfields : ∀ f ∈ [ascii "RAFT_AER", toString gid.toNat, toString term.toNat,
      flagField success, toString matchIdx.toNat], cr ∉ f := by
    simp only [List.forall_mem_cons]
    exact ⟨by decide, cr_not_mem_toString _, cr_not_mem_toString _, cr_not_mem_flagField _,
      cr_not_mem_toString _, by simp⟩
  have hrelay := relay_message (ascii "RAFT_AER") gid
    [toString term.toNat, flagField success, toString matchIdx.toNat] hfields (by simp)
  rw [← encodeAppendEntriesReply_eq] at hrelay
  refine ⟨_, hrelay, ?_⟩
  rw [encodeAppendEntriesReply_eq, readAppendEntriesReply, parseParts_message _ hfields]
  simp [partAt, stoull_toString, flagField_ne_one, bind, Except.bind, pure, Except.pure]

theorem requestVoteReply_arrives (gid term : UInt64) (granted : Bool) :
    ∃ raw, relay (encodeRequestVoteReply gid term granted) = .ok [some (gid, raw)] ∧
      readRequestVoteReply raw = .ok (some (term, false)) := by
  have hfields : ∀ f ∈ [ascii "RAFT_RVR", toString gid.toNat, toString term.toNat,
      flagField granted], cr ∉ f := by
    simp only [List.forall_mem_cons]
    exact ⟨by decide, cr_not_mem_toString _, cr_not_mem_toString _, cr_not_mem_flagField _,
      by simp⟩
  have hrelay := relay_message (ascii "RAFT_RVR") gid [toString term.toNat, flagField granted]
    hfields (by simp)
  rw [← encodeRequestVoteReply_eq] at hrelay
  refine ⟨_, hrelay, ?_⟩
  rw [encodeRequestVoteReply_eq, readRequestVoteReply, parseParts_message _ hfields]
  simp [partAt, stoull_toString, flagField_ne_one, bind, Except.bind, pure, Except.pure]

theorem AppendEntriesReplyArrives.eq_false {gid term matchIdx : UInt64} {success : Bool}
    (h : AppendEntriesReplyArrives gid term success matchIdx) : success = false := by
  obtain ⟨raw, hrelay, hread⟩ := h
  obtain ⟨raw', hrelay', hread'⟩ := appendEntriesReply_arrives gid term success matchIdx
  rw [hrelay'] at hrelay
  simp only [Except.ok.injEq, List.cons.injEq, Option.some.injEq, Prod.mk.injEq, true_and,
    and_true] at hrelay
  rw [← hrelay, hread'] at hread
  simp only [Except.ok.injEq, Option.some.injEq, Prod.mk.injEq, true_and, and_true] at hread
  exact hread.symm

theorem RequestVoteReplyArrives.eq_false {gid term : UInt64} {granted : Bool}
    (h : RequestVoteReplyArrives gid term granted) : granted = false := by
  obtain ⟨raw, hrelay, hread⟩ := h
  obtain ⟨raw', hrelay', hread'⟩ := requestVoteReply_arrives gid term granted
  rw [hrelay'] at hrelay
  simp only [Except.ok.injEq, List.cons.injEq, Option.some.injEq, Prod.mk.injEq, true_and,
    and_true] at hrelay
  rw [← hrelay, hread'] at hread
  simp only [Except.ok.injEq, Option.some.injEq, Prod.mk.injEq, true_and] at hread
  exact hread.symm

/-- **The reply codec.** A reply arrives as it was sent exactly when its flag is false.

All other fields arrive whatever the flag is: the text is that of an array of simple strings, and on
the way of such an array nothing is lost. The flag itself arrives with a plus in front, and no such
field is the `1` that the reader looks for, so every flag is read as false. -/
theorem reply_codec (gid term matchIdx : UInt64) (flag : Bool) :
    (AppendEntriesReplyArrives gid term flag matchIdx ↔ flag = false) ∧
      (RequestVoteReplyArrives gid term flag ↔ flag = false) := by
  refine ⟨⟨AppendEntriesReplyArrives.eq_false, ?_⟩, ⟨RequestVoteReplyArrives.eq_false, ?_⟩⟩
  · rintro rfl
    exact appendEntriesReply_arrives gid term false matchIdx
  · rintro rfl
    exact requestVoteReply_arrives gid term false

/-- The replies with which a leader would commit and a candidate would win. -/
theorem success_does_not_arrive :
    ¬ AppendEntriesReplyArrives 0 1 true 5 ∧ ¬ RequestVoteReplyArrives 0 1 true := by
  refine ⟨fun h => ?_, fun h => ?_⟩
  · exact absurd h.eq_false (by simp)
  · exact absurd h.eq_false (by simp)

end Raft
end KvJet
