import KvJet.Server.Command

/-!
# What an acknowledgement says

`SET` answers `OK` after the command has been given to Raft, logged and stored, without looking at
what became of it in Raft. So an `OK` says what `propose` says: on a node that leads the group of
the key, the command is the last entry of its log (`acknowledged_is_logged`), and in a group
without other members it is committed. It does not wait for other members
(`acknowledged_uncommitted`).
-/

namespace KvJet
namespace Server

open Resp Store
open Raft (RaftNode)

/-- The replies to a write that was carried out. -/
def Write.Acks : Write → Bytes → Prop
  | .set _ _, reply => reply = Handler.okReply
  | .del _, reply => ∃ n : Int64, reply = encode (.integer n)

section Propose

variable {s : ServerState}

theorem sendAll_raftGroups : ∀ (msgs : List Raft.RaftMessage) (s : ServerState),
    (msgs.foldl ServerState.sendCb s).raftGroups = s.raftGroups := by
  intro msgs
  induction msgs with
  | nil => intro s; rfl
  | cons msg msgs ih =>
    intro s
    rw [List.foldl_cons, ih]
    unfold ServerState.sendCb
    dsimp only
    split <;> rfl

/-- One of the groups gets another node, and the others keep theirs. -/
theorem lookup_replaced {α : Type} (gid k : Nat) (b : α) : ∀ groups : List (Nat × α),
    (groups.map fun g => if g.1 = gid then (gid, b) else g).lookup k
      = if k = gid then (groups.lookup k).map fun _ => b else groups.lookup k := by
  intro groups
  induction groups with
  | nil => simp
  | cons g groups ih =>
    obtain ⟨i, a⟩ := g
    by_cases hi : i = gid
    · subst hi
      by_cases hk : k = i
      · simp [hk]
      · have hne : (k == i) = false := by simp [hk]
        simp only [List.map_cons, if_true, List.lookup_cons, hne, ih]
    · by_cases hk : k = i
      · have hgid : k ≠ gid := fun h => hi (hk.symm.trans h)
        simp [hi, hk]
      · have hne : (k == i) = false := by simp [hk]
        simp only [List.map_cons, if_neg hi, List.lookup_cons, hne, ih]

theorem propose_raftGroups {gid : Nat} {rn : RaftNode} (h : s.raftGroups.lookup gid = some rn)
    (cmd : Bytes) : (s.propose gid cmd).raftGroups.lookup gid = some (rn.propose cmd).1 := by
  unfold ServerState.propose
  rw [h]
  dsimp only
  rw [sendAll_raftGroups, lookup_replaced, if_pos rfl, h]
  rfl

theorem call_proposeFor_group {key : Bytes} {gid : Nat}
    (h : s.getGroupForKey key = .ok (some gid)) (cmd : Bytes) :
    (Handler.proposeFor key cmd).call s = (.ok (), s.propose gid cmd) := by
  rw [Handler.proposeFor, Method.call_bind_ok (Method.call_get s), h,
    Method.call_bind_ok (Method.call_lift _ s)]
  rfl

/-- The last two steps of a handler leave the Raft groups alone. -/
theorem raftGroups_of_rest {w : Write} {due : Bool} {α : Type}
    {m : Method Fault (KVStore RespValue) α} {f : α → Bytes} {reply : Bytes} {s s' : ServerState}
    (h : Method.call (do
      onAOF (AOF.append w.logged due)
      let ret ← onKVStore m
      return f ret) s = (.ok reply, s')) : s'.raftGroups = s.raftGroups := by
  obtain ⟨_, s₁, haof, h⟩ := Method.bind_eq_ok h
  obtain ⟨ret, s₂, hkv, h⟩ := Method.bind_eq_ok h
  cases h
  have h₁ : s₁.raftGroups = s.raftGroups := by
    rw [← (Prod.mk.inj haof).2]
  rw [← (Prod.mk.inj hkv).2]
  exact h₁

end Propose

/-- What a leader has in its log, and how much of it is committed, after a `propose`. -/
theorem propose_leader {rn : RaftNode} (hlead : rn.state = .leader) (cmd : Bytes) :
    (rn.propose cmd).1.log = rn.log ++ [⟨rn.currentTerm, cmd⟩] ∧
      (rn.propose cmd).1.currentTerm = rn.currentTerm ∧
      (rn.peers = [] → (rn.propose cmd).1.commitIndex = rn.log.length) := by
  by_cases hpeers : rn.peers = []
  · simp [RaftNode.propose, hlead, hpeers, RaftNode.record, RaftNode.lastLogIndex]
  · simp [RaftNode.propose, hlead, hpeers, RaftNode.record]

/-- The first byte of a reply tells a redirection from an answer. -/
theorem not_moved {w : Write} {c : Cluster} {master : Raft.Uuid} :
    ¬ w.Acks (Handler.movedReply c master) := by
  intro h
  have hhead : (Handler.movedReply c master).head? = some minus := by
    unfold Handler.movedReply
    dsimp only
    simp [encode, encodeError]
  cases w with
  | set key value =>
    have hok : Handler.okReply.head? = some plus := by decide +kernel
    rw [show Handler.movedReply c master = Handler.okReply from h, hok] at hhead
    exact absurd hhead (by decide)
  | del key =>
    obtain ⟨n, hn⟩ := h
    have hint : (encode (.integer n)).head? = some colon := by simp [encode, encodeInteger]
    rw [hn, hint] at hhead
    exact absurd hhead (by decide)

/-- Both handlers answer a key they do not own with the address of its owner. -/
theorem master_of_acks {s s' : ServerState} {w : Write} {key reply : Bytes} {rest : ServerM Bytes}
    (h : Method.call (do
      let master ← Method.lift (s.cluster.isMasterFor key)
      if !master then
        return Handler.movedReply s.cluster (← Method.lift (s.cluster.queryNode key))
      rest) s = (.ok reply, s')) (hreply : w.Acks reply) :
    s.cluster.isMasterFor key = .ok true ∧ rest.call s = (.ok reply, s') := by
  obtain ⟨master, s₁, hmaster, h⟩ := Method.bind_eq_ok h
  cases hmaster' : s.cluster.isMasterFor key with
  | error e =>
    rw [hmaster'] at hmaster
    exact absurd (Prod.mk.inj hmaster).1 (by simp)
  | ok b =>
    rw [hmaster'] at hmaster
    cases hmaster
    cases master with
    | true => exact ⟨rfl, h⟩
    | false =>
      obtain ⟨owner, s₂, howner, h⟩ := Method.bind_eq_ok h
      cases h
      exact absurd hreply not_moved

theorem isMasterFor_of_acks {s s' : ServerState} {w : Write} {due : Bool} {reply : Bytes}
    (h : (w.handle due).call s = (.ok reply, s')) (hreply : w.Acks reply) :
    s.cluster.isMasterFor w.key = .ok true := by
  cases w with
  | set key value => exact (master_of_acks h hreply).1
  | del key => exact (master_of_acks h hreply).1

/-- A `SET` that returned has a text. -/
theorem text_of_acks {s s' : ServerState} {key : Bytes} {value : RespValue} {due : Bool}
    {reply : Bytes} (h : ((Write.set key value).handle due).call s = (.ok reply, s'))
    (hreply : (Write.set key value).Acks reply) :
    ∃ text, (Write.set key value).text = .ok text := by
  have hrest : Method.call (do
    let val ← Method.lift (Handler.valueText value)
    _) s = (.ok reply, s') := (master_of_acks h hreply).2
  obtain ⟨val, s₁, hval, -⟩ := Method.bind_eq_ok hrest
  have hval : Handler.valueText value = .ok val := (Prod.mk.inj hval).1
  exact ⟨_, by rw [Write.text, hval]; rfl⟩

/-- **An acknowledged write is in the log of the leader**, as its last entry, and committed if the
group has no other member.

`OK` is answered where `propose` has returned, and nobody looks at what it returned. On a leader it
has pushed the command and committed it only if there is nobody else to ask. On any other node it
does nothing, and the handler goes on as well, so about these nothing is said. -/
theorem acknowledged_is_logged (s s' : ServerState) (w : Write) (due : Bool) (reply : Bytes)
    (gid : Nat) (rn : RaftNode) (h : (w.handle due).call s = (.ok reply, s'))
    (hreply : w.Acks reply) (hgroup : s.getGroupForKey w.key = .ok (some gid))
    (hrn : s.raftGroups.lookup gid = some rn) (hlead : rn.state = .leader) :
    ∃ text rn', w.text = .ok text ∧ s'.raftGroups.lookup gid = some rn' ∧
      rn'.log = rn.log ++ [⟨rn.currentTerm, text⟩] ∧ rn'.currentTerm = rn.currentTerm ∧
      (rn.peers = [] → rn.log.length ≤ rn'.commitIndex) := by
  have hmaster := isMasterFor_of_acks h hreply
  cases w with
  | del key =>
    obtain ⟨what, hdel⟩ := call_del key hmaster due
    rw [h] at hdel
    exact absurd hdel (by simp)
  | set key value =>
    obtain ⟨text, htext⟩ := text_of_acks h hreply
    obtain ⟨hlog, hterm, hcommit⟩ := propose_leader hlead text
    have hgroup : s.getGroupForKey key = .ok (some gid) := hgroup
    rw [handle_set key value hmaster htext,
      Method.call_bind_ok (call_proposeFor_group hgroup text)] at h
    refine ⟨text, (rn.propose text).1, htext, ?_, hlog, hterm, fun hp => (hcommit hp).ge⟩
    rw [raftGroups_of_rest h]
    exact propose_raftGroups hrn text

/-- `SET k v` on a server of its own. -/
theorem acknowledged_is_logged_alone :
    ∃ text rn', (Write.set [107] (.simpleString [118])).text = .ok text ∧
      ((((Write.set [107] (.simpleString [118])).handle false).call alone).2.raftGroups.lookup 0)
        = some rn' ∧
      rn'.log = [Raft.sentinel, ⟨0, text⟩] ∧ 1 ≤ rn'.commitIndex := by
  have hrun : alone.getGroupForKey [107] = .ok (some 0) ∧
      (((Write.set [107] (.simpleString [118])).handle false).call alone).1
        = .ok Handler.okReply := by decide +kernel
  obtain ⟨hgroup, hcall⟩ := hrun
  obtain ⟨text, rn', htext, hrn', hlog, -, hcommit⟩ := acknowledged_is_logged alone
    (((Write.set [107] (.simpleString [118])).handle false).call alone).2
    (.set [107] (.simpleString [118])) false Handler.okReply 0 (.construct 0 7 [] 0)
    (by rw [← hcall]) rfl hgroup rfl rfl
  exact ⟨text, rn', htext, hrn', hlog, hcommit rfl⟩

/-! ## Other members -/

/-- Node 7 with node 8 as its only peer, after its election. -/
def elected : RaftNode :=
  ((Run.exec (fun n rand => (RaftNode.tick n rand).1) (.construct 0 7 [8] 0)
    (List.replicate 150 0)).step 8 (.requestVoteReply 1 true) 0 0).1

/-- Its server, connected to node 8. -/
def paired : ServerState where
  cluster := Cluster.addNodeToHash (Cluster.addNodeToHash
    { selfNode := ⟨ascii "127.0.0.1", 7800, 7⟩
      topo := [(7, ⟨ascii "127.0.0.1", 7800, 7⟩), (8, ⟨ascii "127.0.0.1", 7801, 8⟩)]
      connections := [(8, 5)] } 7) 8
  raftGroups := [(0, elected)]
  masterToGroup := [(7, 0)]

/-- `SET key v` is answered `OK` when its entry, number 1, is sent and nothing is committed. -/
theorem acknowledged_uncommitted :
    (((Write.set (ascii "key") (.simpleString [118])).handle false).call paired).1
        = .ok Handler.okReply ∧
      ((((Write.set (ascii "key") (.simpleString [118])).handle false).call paired).2.raftGroups.lookup
        0).map (fun rn => (rn.state, rn.log.map Raft.LogEntry.command, rn.commitIndex))
        = some (.leader, [[], ascii "SET key v"], 0) := by
  decide +kernel

end Server
end KvJet
