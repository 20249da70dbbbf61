import KvJet.Raft.Text

/-!
# The text of the Raft requests

`encodeAppendEntries` and `encodeRequestVote` of `RaftNode.cpp`, and what their texts are at the
other end. Both texts are those of arrays of simple strings, so the way through `RespParser`,
`Handler::handleRaft` and `parseParts` is that of `Raft/Codec.lean`; unlike a reply, a request is
written right, and `RaftNode::step` does with its text what it would do with its fields
(`request_codec`).

A command with a CR in it would end its own field. The number of the commands is kept in an
`int`.
-/

namespace KvJet
namespace Raft

open Resp

/-! ## The source -/

def encodeAppendEntries (gid term prevIdx prevTerm leaderCommit : UInt64)
    (entries : List LogEntry) : Except Fault Bytes :=
  let cnt : Int := (entries.length : Int).bmod (2 ^ 32)
  let total := 7 + cnt
  if total ≥ 2 ^ 31 then .error (.undefined "signed overflow")
  else .ok (ascii "*" ++ toStringInt total ++ ascii "\r\n+RAFT_AE\r\n+" ++ toString gid.toNat ++
    ascii "\r\n+" ++ toString term.toNat ++ ascii "\r\n+" ++ toString prevIdx.toNat ++
    ascii "\r\n+" ++ toString prevTerm.toNat ++ ascii "\r\n+" ++ toString leaderCommit.toNat ++
    ascii "\r\n+" ++ toStringInt cnt ++ ascii "\r\n" ++
    entries.flatMap fun e => ascii "+" ++ e.command ++ ascii "\r\n")

def encodeRequestVote (gid term lastIdx lastTerm : UInt64) : Bytes :=
  ascii "*5\r\n+RAFT_RV\r\n+" ++ toString gid.toNat ++ ascii "\r\n+" ++ toString term.toNat ++
    ascii "\r\n+" ++ toString lastIdx.toNat ++ ascii "\r\n+" ++ toString lastTerm.toNat ++
    ascii "\r\n"

/-! ## The fields -/

def appendEntriesFields (gid term prevIdx prevTerm leaderCommit : UInt64) (cmds : List Bytes) :
    List Bytes :=
  ascii "RAFT_AE" :: toString gid.toNat :: toString term.toNat :: toString prevIdx.toNat ::
    toString prevTerm.toNat :: toString leaderCommit.toNat :: toString cmds.length :: cmds

def requestVoteFields (gid term lastIdx lastTerm : UInt64) : List Bytes :=
  [ascii "RAFT_RV", toString gid.toNat, toString term.toNat, toString lastIdx.toNat,
    toString lastTerm.toNat]

theorem encodeElements_commands (cmds : List Bytes) :
    encodeElements (cmds.map .simpleString)
      = cmds.flatMap fun cmd => ascii "+" ++ cmd ++ ascii "\r\n" := by
  rw [encodeElements_eq_flatMap, List.flatMap_map]
  rfl

theorem encodeAppendEntries_eq (gid term prevIdx prevTerm leaderCommit : UInt64)
    {entries : List LogEntry} (hlen : entries.length < 2 ^ 31 - 7) :
    encodeAppendEntries gid term prevIdx prevTerm leaderCommit entries
      = .ok (encode (message (appendEntriesFields gid term prevIdx prevTerm leaderCommit
          (entries.map LogEntry.command)))) := by
  have hcnt : (entries.length : Int).bmod (2 ^ 32) = entries.length :=
    Int.bmod_eq_of_le (by omega) (by omega)
  have htotal : ¬ (7 + (entries.length : Int) ≥ 2 ^ 31) := by omega
  have hcount : ∀ k : Nat, toStringInt k = toString k := by
    intro k
    unfold toStringInt
    rw [if_neg (by omega), Int.natAbs_natCast]
  unfold encodeAppendEntries
  dsimp only
  rw [hcnt, if_neg htotal, show (7 + (entries.length : Int)) = ((entries.length + 7 : Nat) : Int)
    by omega, hcount, hcount]
  simp only [message, encode, appendEntriesFields, List.map_cons, encodeElements,
    encodeElements_commands, List.length_cons, List.length_map, List.flatMap_map]
  simp [encodeSimpleString, ascii, crlf, star, plus, cr, lf]

theorem encodeRequestVote_eq (gid term lastIdx lastTerm : UInt64) :
    encodeRequestVote gid term lastIdx lastTerm
      = encode (message (requestVoteFields gid term lastIdx lastTerm)) := by
  have hfive : toString 5 = ascii "5" := by decide
  simp [encodeRequestVote, requestVoteFields, message, encode, encodeElements, encodeSimpleString,
    hfive, ascii, crlf, star, plus, cr, lf]

/-! ## The way -/

theorem cr_not_mem_appendEntriesFields (gid term prevIdx prevTerm leaderCommit : UInt64)
    {cmds : List Bytes} (hcr : ∀ cmd ∈ cmds, cr ∉ cmd) :
    ∀ f ∈ appendEntriesFields gid term prevIdx prevTerm leaderCommit cmds, cr ∉ f := by
  unfold appendEntriesFields
  simp only [List.forall_mem_cons]
  exact ⟨by decide, cr_not_mem_toString _, cr_not_mem_toString _, cr_not_mem_toString _,
    cr_not_mem_toString _, cr_not_mem_toString _, cr_not_mem_toString _, hcr⟩

theorem cr_not_mem_requestVoteFields (gid term lastIdx lastTerm : UInt64) :
    ∀ f ∈ requestVoteFields gid term lastIdx lastTerm, cr ∉ f := by
  unfold requestVoteFields
  simp only [List.forall_mem_cons]
  exact ⟨by decide, cr_not_mem_toString _, cr_not_mem_toString _, cr_not_mem_toString _,
    cr_not_mem_toString _, by simp⟩

theorem numberAt_toString {parts : List Bytes} {i : Nat} {x : UInt64}
    (h : parts[i]? = some (toString x.toNat)) : numberAt parts i = .ok x.toNat := by
  simp [numberAt, partAt, h, stoull_toString, bind, Except.bind, pure, Except.pure]

theorem numberAt_count (gid term prevIdx prevTerm leaderCommit : UInt64) {cmds : List Bytes}
    (hlen : cmds.length < 2 ^ 31 - 7) :
    numberAt (appendEntriesFields gid term prevIdx prevTerm leaderCommit cmds) 6
      = .ok cmds.length := by
  have hcount : (UInt64.ofNat cmds.length).toNat = cmds.length :=
    UInt64.toNat_ofNat_of_lt' (by simp only [UInt64.size]; omega)
  rw [← hcount]
  exact numberAt_toString (by rw [hcount]; rfl)

theorem commandsOf_fields (gid term prevIdx prevTerm leaderCommit : UInt64) {cmds : List Bytes}
    (hlen : cmds.length < 2 ^ 31 - 7) :
    commandsOf (appendEntriesFields gid term prevIdx prevTerm leaderCommit cmds) = .ok cmds := by
  unfold commandsOf
  rw [if_pos (by unfold appendEntriesFields; simp), numberAt_count _ _ _ _ _ hlen]
  simp [appendEntriesFields, bind, Except.bind, pure, Except.pure]

/-- **The request codec.**

Each field stands between a plus and a CR, and none has a CR in it, so the parser, the handler that
encodes the value again, and `parseParts` all cut the text at the same places. The number of the
commands is the one field that goes through an `int`, hence the bound. -/
theorem request_codec (gid term : UInt64) :
    (∀ (prevIdx prevTerm leaderCommit : UInt64) (entries : List LogEntry),
      (∀ e ∈ entries, cr ∉ e.command) → entries.length < 2 ^ 31 - 7 →
      ∃ bytes value raw,
        encodeAppendEntries gid term prevIdx prevTerm leaderCommit entries = .ok bytes ∧
        RespParser.append {} bytes = .ok (idle [] [value]) ∧
        handleRaft value = .ok (some (gid, raw)) ∧
        numberAt (parseParts raw) 1 = .ok gid.toNat ∧
        numberAt (parseParts raw) 2 = .ok term.toNat ∧
        numberAt (parseParts raw) 3 = .ok prevIdx.toNat ∧
        numberAt (parseParts raw) 4 = .ok prevTerm.toNat ∧
        numberAt (parseParts raw) 5 = .ok leaderCommit.toNat ∧
        numberAt (parseParts raw) 6 = .ok entries.length ∧
        commandsOf (parseParts raw) = .ok (entries.map LogEntry.command)) ∧
    ∀ lastIdx lastTerm : UInt64, ∃ value raw,
      RespParser.append {} (encodeRequestVote gid term lastIdx lastTerm) = .ok (idle [] [value]) ∧
      handleRaft value = .ok (some (gid, raw)) ∧
      numberAt (parseParts raw) 1 = .ok gid.toNat ∧
      RaftNode.readVote (parseParts raw)
        = .ok (.requestVote term.toNat lastIdx.toNat lastTerm.toNat) := by
  constructor
  · intro prevIdx prevTerm leaderCommit entries hcommands hlen
    have hcr := cr_not_mem_appendEntriesFields gid term prevIdx prevTerm leaderCommit
      (List.forall_mem_map.mpr hcommands)
    obtain ⟨hread, hraft⟩ := append_message (ascii "RAFT_AE") gid
      (toString term.toNat :: toString prevIdx.toNat :: toString prevTerm.toNat ::
        toString leaderCommit.toNat :: toString (entries.map LogEntry.command).length ::
        entries.map LogEntry.command) hcr (by simp only [List.length_cons, List.length_map]; omega)
    refine ⟨_, _, encode (message (appendEntriesFields gid term prevIdx prevTerm leaderCommit
      (entries.map LogEntry.command))),
      encodeAppendEntries_eq gid term prevIdx prevTerm leaderCommit hlen, hread, hraft, ?_⟩
    rw [parseParts_message _ hcr]
    refine ⟨numberAt_toString rfl, numberAt_toString rfl, numberAt_toString rfl,
      numberAt_toString rfl, numberAt_toString rfl, ?_, ?_⟩
    · rw [numberAt_count gid term prevIdx prevTerm leaderCommit (by simpa using hlen),
        List.length_map]
    · exact commandsOf_fields gid term prevIdx prevTerm leaderCommit (by simpa using hlen)
  · intro lastIdx lastTerm
    have hcr := cr_not_mem_requestVoteFields gid term lastIdx lastTerm
    obtain ⟨hread, hraft⟩ := append_message (ascii "RAFT_RV") gid
      [toString term.toNat, toString lastIdx.toNat, toString lastTerm.toNat] hcr (by simp)
    rw [encodeRequestVote_eq]
    refine ⟨_, encode (message (requestVoteFields gid term lastIdx lastTerm)), hread, hraft, ?_⟩
    rw [parseParts_message _ hcr]
    refine ⟨numberAt_toString rfl, ?_⟩
    unfold RaftNode.readVote
    rw [numberAt_toString (x := term) rfl, numberAt_toString (x := lastIdx) rfl,
      numberAt_toString (x := lastTerm) rfl]
    rfl

/-- A command full of marks, and an empty one. -/
theorem request_codec_marks :
    ∃ bytes value raw,
      encodeAppendEntries 1 2 3 1 0 [⟨2, ascii "*1\n+$"⟩, ⟨2, []⟩] = .ok bytes ∧
      RespParser.append {} bytes = .ok (idle [] [value]) ∧
      handleRaft value = .ok (some (1, raw)) ∧
      commandsOf (parseParts raw) = .ok [ascii "*1\n+$", []] := by
  obtain ⟨bytes, value, raw, hbytes, hread, hraft, -, -, -, -, -, -, hcmds⟩ :=
    (request_codec 1 2).1 3 1 0 [⟨2, ascii "*1\n+$"⟩, ⟨2, []⟩] (by decide) (by decide)
  exact ⟨bytes, value, raw, hbytes, hread, hraft, hcmds⟩

end Raft
end KvJet
