import KvJet.Server.Workers

/-!
# Which write is the last one

Several `SET`s of one key at a time. Each goes into the Raft log, into the append-only file and
into the store, under a lock of each of the three and under none over all of them. So the three
may take them in different orders, and the one that is last in the store need not be the one that
a restart finds last in the file.

If every handler waits with its second and third call for those that pushed before it, the three
orders are one (`one_winner`). Nothing in the code makes it wait (`overtaking_two_winners`).
-/

namespace KvJet
namespace Server

open Resp Store Run
open Raft (RaftNode)

/-- What is in order already goes on in order: the next one of `p` is added to a first part. -/
theorem prefix_concat {l p : List Nat} {i : Nat} (hnodup : p.Nodup) (h : l <+: p) (hi : i ∈ p)
    (hnot : i ∉ l) (hall : ∀ j ∈ p.takeWhile (· ≠ i), j ∈ l) : l ++ [i] <+: p := by
  obtain ⟨rest, rfl⟩ := h
  have hrest : i ∈ rest := (List.mem_append.mp hi).resolve_left hnot
  cases rest with
  | nil => exact absurd hrest (by simp)
  | cons j rest =>
    have htake : (l ++ j :: rest).takeWhile (· ≠ i) = l ++ (j :: rest).takeWhile (· ≠ i) := by
      refine List.takeWhile_append_of_pos fun k hk => ?_
      have hne : k ≠ i := fun heq => hnot (heq ▸ hk)
      simpa using hne
    by_cases hj : j = i
    · exact ⟨rest, by simp [hj]⟩
    · -- `j` would be one that has still to come
      have hin : j ∈ l := hall j (by rw [htake, List.takeWhile_cons]; simp [hj])
      have hdisjoint := (List.nodup_append.mp hnodup).2.2 j hin j List.mem_cons_self
      exact absurd rfl hdisjoint

/-- The event is about `SET`s of this key. -/
def Event.Sets (key : Bytes) : Event → Prop
  | .start (.set k _) _ => k = key
  | .advance _ => True
  | _ => False

namespace Workers

/-- Task `i` is the last one everywhere, and what it wrote is there. -/
structure Winner (s : Workers) (key : Bytes) (i : Nat) (value : RespValue) : Prop where
  task : ∃ t, s.tasks[i]? = some t ∧ t.write = .set key value
  pushed : (s.through .push).getLast? = some i
  entry : ∃ rn text, s.server.raftGroups.lookup s.gid = some rn ∧
    (Write.set key value).text = .ok text ∧ rn.log.getLast?.map Raft.LogEntry.command = some text
  logged : (s.through .log).getLast? = some i
  file : ∃ before, s.server.aof.flush.file = before ++ encode (Write.set key value).request
  stored : (s.through .store).getLast? = some i
  value : s.server.kvstore.lookup key = .ok (some value)

/-- Everyone who pushed before task `i` has made this call. -/
def Waited (s : Workers) (i : Nat) (st : Stage) : Prop :=
  ∀ j ∈ (s.through .push).takeWhile (· ≠ i), j ∈ s.through st

instance (s : Workers) (i : Nat) (st : Stage) : Decidable (s.Waited i st) :=
  inferInstanceAs (Decidable (∀ _ ∈ _, _))

/-- What the call of a task has to wait for: the value has a text, the others have made the call,
and the store has room. -/
def Ready (s : Workers) (i : Nat) (w : Write) : Stage → Prop
  | .push => w.text.isOk
  | .log => s.Waited i .log
  | .store => s.Waited i .store ∧ s.server.kvstore.Room w.key
  | .reply | .done | .failed => True

instance (s : Workers) (i : Nat) (w : Write) : DecidablePred (s.Ready i w)
  | .push => inferInstanceAs (Decidable (w.text.isOk = true))
  | .log => inferInstanceAs (Decidable (s.Waited i .log))
  | .store => inferInstanceAs (Decidable (_ ∧ _))
  | .reply | .done | .failed => inferInstanceAs (Decidable True)

def Orderly (s : Workers) : Event → Prop
  | .advance i => ∀ t ∈ s.tasks[i]?, s.Ready i t.write t.stage
  | _ => True

instance (s : Workers) : DecidablePred s.Orderly
  | .advance i => inferInstanceAs (Decidable (∀ t ∈ s.tasks[i]?, s.Ready i t.write t.stage))
  | .start _ _ | .get _ | .take | .apply => inferInstanceAs (Decidable True)

/-! ## What every step keeps -/

/-- The group of the key is `gid`, this node leads it, and the last entry of its log is that of
the task that pushed last. -/
structure Leads (s : Workers) (key : Bytes) : Prop where
  group : s.server.getGroupForKey key = .ok (some s.gid)
  log : ∃ rn, s.server.raftGroups.lookup s.gid = some rn ∧ rn.state = .leader ∧
    ∀ i, (s.through .push).getLast? = some i → ∃ t text, s.tasks[i]? = some t ∧
      t.write.text = .ok text ∧ rn.log.getLast?.map Raft.LogEntry.command = some text

/-- What was logged last and stored last is there. -/
structure Written (s : Workers) : Prop where
  file : ∀ i, (s.through .log).getLast? = some i → ∃ t before, s.tasks[i]? = some t ∧
    s.server.aof.flush.file = before ++ encode t.write.request
  store : ∃ m, s.server.kvstore.Contents m ∧
    ∀ i, (s.through .store).getLast? = some i → ∃ t, s.tasks[i]? = some t ∧
      m t.write.key = t.write.effect

/-- The three orders are one, and what is last in them is there. -/
structure Kept (key : Bytes) (s : Workers) : Prop where
  staged : s.Staged
  sets : ∀ (i : Nat) (t : Task), s.tasks[i]? = some t →
    t.stage ≠ .failed ∧ ∃ value, t.write = .set key value
  leads : s.Leads key
  written : s.Written
  logged : s.through .log <+: s.through .push
  stored : s.through .store <+: s.through .push

theorem sendAll_masterToGroup : ∀ (msgs : List Raft.RaftMessage) (s : ServerState),
    (msgs.foldl ServerState.sendCb s).masterToGroup = s.masterToGroup := by
  intro msgs
  induction msgs with
  | nil => intro s; rfl
  | cons msg msgs ih =>
    intro s
    rw [List.foldl_cons, ih]
    unfold ServerState.sendCb
    dsimp only
    split <;> rfl

theorem propose_masterToGroup (s : ServerState) (gid : Nat) (cmd : Bytes) :
    (s.propose gid cmd).masterToGroup = s.masterToGroup := by
  unfold ServerState.propose
  split
  · rfl
  · exact sendAll_masterToGroup _ _

/-- A proposal does not change which group a key belongs to. -/
theorem getGroupForKey_propose {s : ServerState} {key : Bytes} {gid : Nat} {rn : RaftNode}
    (h : s.getGroupForKey key = .ok (some gid)) (hrn : s.raftGroups.lookup gid = some rn)
    (cmd : Bytes) : (s.propose gid cmd).getGroupForKey key = .ok (some gid) := by
  obtain ⟨owner, howner, hgid⟩ := Except.of_bind_eq_ok h
  have hgid : (s.masterToGroup.lookup owner).filter (fun gid => (s.raftGroups.lookup gid).isSome)
      = some gid := Except.ok.inj hgid
  rw [ServerState.getGroupForKey, (sameStore_propose s gid cmd).cluster, howner,
    propose_masterToGroup]
  have hlookup : s.masterToGroup.lookup owner = some gid := (Option.filter_eq_some_iff.mp hgid).1
  have hafter := propose_raftGroups hrn cmd
  show Except.ok _ = Except.ok (some gid)
  rw [hlookup, Option.filter_some, hafter]
  rfl

theorem propose_state {rn : RaftNode} (hlead : rn.state = .leader) (cmd : Bytes) :
    (rn.propose cmd).1.state = .leader := by
  by_cases hpeers : rn.peers = []
  · simp [RaftNode.propose, hlead, hpeers, RaftNode.record]
  · simp [RaftNode.propose, hlead, hpeers, RaftNode.record]

variable {s : Workers} {key : Bytes} {i : Nat} {t : Task} {server : ServerState}

/-- Tasks keep their writes. -/
theorem passed_task (server : ServerState) (ht : s.tasks[i]? = some t) {j : Nat} {u : Task} (hu : s.tasks[j]? = some u) :
    ∃ u', (s.passed i t server).tasks[j]? = some u' ∧ u'.write = u.write := by
  by_cases hj : j = i
  · subst hj
    rw [ht, Option.some.injEq] at hu
    subst hu
    exact ⟨_, List.getElem?_set_self (List.getElem?_eq_some_iff.mp ht).1, rfl⟩
  · exact ⟨u, by rw [passed, List.getElem?_set_ne (Ne.symm hj)]; exact hu, rfl⟩

/-- A call that is no push leaves Raft to itself. -/
theorem Leads.of_passed (h : s.Leads key) (ht : s.tasks[i]? = some t) (hstage : t.stage ≠ .push)
    (hgroup : server.getGroupForKey key = s.server.getGroupForKey key)
    (hraft : server.raftGroups = s.server.raftGroups) : (s.passed i t server).Leads key where
  group := hgroup.trans h.group
  log := by
    obtain ⟨rn, hrn, hlead, hlast⟩ := h.log
    refine ⟨rn, ?_, hlead, fun j hj => ?_⟩
    · show server.raftGroups.lookup s.gid = some rn
      rw [hraft]
      exact hrn
    · rw [through_passed_ne (Ne.symm hstage)] at hj
      obtain ⟨u, text, hu, htext, hentry⟩ := hlast j hj
      obtain ⟨u', hu', hwrite⟩ := passed_task server ht hu
      exact ⟨u', text, hu', by rw [hwrite]; exact htext, hentry⟩

theorem Leads.of_push {text : Bytes} (h : s.Leads key) (ht : s.tasks[i]? = some t)
    (hstage : t.stage = .push) (htext : t.write.text = .ok text) :
    (s.passed i t (s.server.propose s.gid text)).Leads key := by
  obtain ⟨rn, hrn, hlead, -⟩ := h.log
  refine ⟨getGroupForKey_propose h.group hrn text, (rn.propose text).1,
    propose_raftGroups hrn text, propose_state hlead text, fun j hj => ?_⟩
  have hthrough := through_passed_self s i t (s.server.propose s.gid text)
  rw [hstage] at hthrough
  rw [hthrough, List.getLast?_concat, Option.some.injEq] at hj
  subst hj
  obtain ⟨u', hu', hwrite⟩ := passed_task (s.server.propose s.gid text) ht ht
  refine ⟨u', text, hu', by rw [hwrite]; exact htext, ?_⟩
  rw [(propose_leader hlead text).1, List.getLast?_concat]
  rfl

theorem file_of_passed (h : s.Written) (ht : s.tasks[i]? = some t) (hstage : t.stage ≠ .log)
    (haof : server.aof = s.server.aof) :
    ∀ j, ((s.passed i t server).through .log).getLast? = some j →
      ∃ u before, (s.passed i t server).tasks[j]? = some u ∧
        server.aof.flush.file = before ++ encode u.write.request := by
  intro j hj
  rw [through_passed_ne (Ne.symm hstage)] at hj
  obtain ⟨u, before, hu, hfile⟩ := h.file j hj
  obtain ⟨u', hu', hwrite⟩ := passed_task server ht hu
  exact ⟨u', before, hu', by rw [haof, hwrite]; exact hfile⟩

theorem store_of_passed (h : s.Written) (ht : s.tasks[i]? = some t) (hstage : t.stage ≠ .store)
    (hkv : server.kvstore = s.server.kvstore) :
    ∃ m, server.kvstore.Contents m ∧
      ∀ j, ((s.passed i t server).through .store).getLast? = some j →
        ∃ u, (s.passed i t server).tasks[j]? = some u ∧ m u.write.key = u.write.effect := by
  obtain ⟨m, hm, hlast⟩ := h.store
  refine ⟨m, by rw [hkv]; exact hm, fun j hj => ?_⟩
  rw [through_passed_ne (Ne.symm hstage)] at hj
  obtain ⟨u, hu, hvalue⟩ := hlast j hj
  obtain ⟨u', hu', hwrite⟩ := passed_task server ht hu
  exact ⟨u', hu', by rw [hwrite]; exact hvalue⟩

theorem Written.of_log {a : AOF} (h : s.Written) (ht : s.tasks[i]? = some t)
    (hstage : t.stage = .log)
    (hfile : a.flush.file = s.server.aof.flush.file ++ encode t.write.request) :
    (s.passed i t { s.server with aof := a }).Written where
  file := by
    intro j hj
    have hthrough := through_passed_self s i t { s.server with aof := a }
    rw [hstage] at hthrough
    rw [hthrough, List.getLast?_concat, Option.some.injEq] at hj
    subst hj
    obtain ⟨u', hu', hwrite⟩ := passed_task { s.server with aof := a } ht ht
    exact ⟨u', _, hu', by rw [hwrite]; exact hfile⟩
  store := store_of_passed h ht (by simp [hstage]) rfl

theorem Written.of_store {kv : KVStore RespValue} {m : Bytes → Option RespValue} (h : s.Written)
    (ht : s.tasks[i]? = some t) (hstage : t.stage = .store)
    (hkv : kv.Contents (Function.update m t.write.key t.write.effect)) :
    (s.passed i t { s.server with kvstore := kv }).Written where
  file := file_of_passed h ht (by simp [hstage]) rfl
  store := by
    refine ⟨_, hkv, fun j hj => ?_⟩
    have hthrough := through_passed_self s i t { s.server with kvstore := kv }
    rw [hstage] at hthrough
    rw [hthrough, List.getLast?_concat, Option.some.injEq] at hj
    subst hj
    obtain ⟨u', hu', hwrite⟩ := passed_task { s.server with kvstore := kv } ht ht
    exact ⟨u', hu', by rw [hwrite, Function.update_self]⟩

theorem Kept.sets_passed (h : s.Kept key) (ht : s.tasks[i]? = some t) (hover : ¬ t.stage.Over) :
    ∀ (j : Nat) (u : Task), (s.passed i t server).tasks[j]? = some u →
      u.stage ≠ .failed ∧ ∃ value, u.write = .set key value := by
  intro j u hu
  rcases set_stage ht hu with ⟨rfl, rfl⟩ | ⟨-, hu⟩
  · refine ⟨fun hfailed => ?_, (h.sets j t ht).2⟩
    have hrank := Stage.rank_next hover
    rw [show t.stage.next = .failed from hfailed] at hrank
    have hlt : t.stage.rank = 4 := (Nat.succ.inj hrank).symm
    exact hover (Or.inl (Stage.rank_injective hlt))
  · exact h.sets j u hu

/-- A call that the earlier ones have made before. -/
theorem Kept.prefix_passed {st : Stage} (h : s.Kept key) (ht : s.tasks[i]? = some t)
    (hover : ¬ t.stage.Over) (hstage : t.stage = st) (hpush : Stage.push.rank < st.rank)
    (hpre : s.through st <+: s.through .push) (hwaited : s.Waited i st) :
    (s.passed i t server).through st <+: (s.passed i t server).through .push := by
  have hthrough := through_passed_self s i t server
  rw [hstage] at hthrough
  have hne : Stage.push ≠ t.stage := by
    rintro heq
    rw [← hstage, ← heq] at hpush
    exact absurd hpush (Nat.lt_irrefl _)
  rw [hthrough, through_passed_ne hne]
  refine prefix_concat (h.staged.nodup .push) hpre ?_ ?_ hwaited
  · refine h.staged.came i t ht (fun hfailed => hover (Or.inr hfailed)) .push ?_
    rw [hstage]
    exact hpush
  · rw [← hstage]
    exact h.staged.not_through ht

theorem Kept.advance (h : s.Kept key) (hcond : s.Orderly (.advance i)) :
    (s.advance i).Kept key := by
  cases ht : s.tasks[i]? with
  | none =>
    have hsame : s.advance i = s := by simp only [Workers.advance, ht]
    rw [hsame]
    exact h
  | some t =>
    have hready : s.Ready i t.write t.stage := hcond t ht
    obtain ⟨-, value, hwrite⟩ := h.sets i t ht
    have hkey : t.write.key = key := by rw [hwrite]; rfl
    cases hstage : t.stage with
    | push =>
      have hover : ¬ t.stage.Over := by simp [hstage, Stage.Over]
      rw [hstage] at hready
      obtain ⟨text, htext⟩ := Except.exists_of_isOk hready
      have hcall := call_push_group hstage htext (by rw [hkey]; exact h.leads.group)
      rw [advance_ok ht hover hcall]
      have hsame := sameStore_propose s.server s.gid text
      refine ⟨h.staged.of_passed ht hover, h.sets_passed ht hover, h.leads.of_push ht hstage htext,
        ⟨file_of_passed h.written ht (by simp [hstage]) hsame.aof,
          store_of_passed h.written ht (by simp [hstage]) hsame.kvstore⟩, ?_, ?_⟩
      all_goals
        have hthrough := through_passed_self s i t (s.server.propose s.gid text)
        rw [hstage] at hthrough
        rw [hthrough, through_passed_ne (by simp [hstage])]
      · exact h.logged.trans (List.prefix_append _ _)
      · exact h.stored.trans (List.prefix_append _ _)
    | log =>
      have hover : ¬ t.stage.Over := by simp [hstage, Stage.Over]
      rw [hstage] at hready
      obtain ⟨a, hcall, hfile⟩ := call_log_set (s := s.server) hstage hwrite
      rw [advance_ok ht hover hcall]
      refine ⟨h.staged.of_passed ht hover, h.sets_passed ht hover,
        h.leads.of_passed ht (by simp [hstage]) rfl rfl, h.written.of_log ht hstage hfile,
        h.prefix_passed ht hover hstage (by decide) h.logged hready, ?_⟩
      rw [through_passed_ne (by simp [hstage]), through_passed_ne (by simp [hstage])]
      exact h.stored
    | store =>
      have hover : ¬ t.stage.Over := by simp [hstage, Stage.Over]
      rw [hstage] at hready
      obtain ⟨hwaited, hroom⟩ := hready
      obtain ⟨m, hm, -⟩ := h.written.store
      obtain ⟨kv, hcall, hkv⟩ := call_store_room hstage hm hroom
      rw [advance_ok ht hover hcall]
      refine ⟨h.staged.of_passed ht hover, h.sets_passed ht hover,
        h.leads.of_passed ht (by simp [hstage]) rfl rfl, h.written.of_store ht hstage hkv, ?_,
        h.prefix_passed ht hover hstage (by decide) h.stored hwaited⟩
      rw [through_passed_ne (by simp [hstage]), through_passed_ne (by simp [hstage])]
      exact h.logged
    | reply =>
      have hover : ¬ t.stage.Over := by simp [hstage, Stage.Over]
      rw [advance_ok ht hover (call_reply hstage)]
      refine ⟨h.staged.of_passed ht hover, h.sets_passed ht hover,
        h.leads.of_passed ht (by simp [hstage]) rfl rfl,
        ⟨file_of_passed h.written ht (by simp [hstage]) rfl,
          store_of_passed h.written ht (by simp [hstage]) rfl⟩, ?_, ?_⟩
      all_goals
        rw [through_passed_ne (by simp [hstage]), through_passed_ne (by simp [hstage])]
      · exact h.logged
      · exact h.stored
    | done | failed =>
      have hsame : s.advance i = s := by simp [Workers.advance, ht, hstage, Stage.Over]
      rw [hsame]
      exact h

theorem Kept.begin {value : RespValue} {due : Bool} (h : s.Kept key) :
    (s.begin (.set key value) due).Kept key where
  staged := h.staged.of_begin _ _
  sets := by
    intro i t ht
    rcases begin_task ht with ht | ⟨-, hstage, hwrite, -⟩
    · exact h.sets i t ht
    · exact ⟨by simp [hstage], value, hwrite⟩
  leads := by
    obtain ⟨rn, hrn, hlead, hlast⟩ := h.leads.log
    refine ⟨h.leads.group, rn, hrn, hlead, fun i hi => ?_⟩
    obtain ⟨t, text, ht, htext, hentry⟩ := hlast i hi
    exact ⟨t, text, begin_old ht _ _, htext, hentry⟩
  written := by
    refine ⟨fun i hi => ?_, ?_⟩
    · obtain ⟨t, before, ht, hfile⟩ := h.written.file i hi
      exact ⟨t, before, begin_old ht _ _, hfile⟩
    · obtain ⟨m, hm, hlast⟩ := h.written.store
      refine ⟨m, hm, fun i hi => ?_⟩
      obtain ⟨t, ht, hvalue⟩ := hlast i hi
      exact ⟨t, begin_old ht _ _, hvalue⟩
  logged := h.logged
  stored := h.stored

/-- When all are over, everyone has made every call. -/
theorem Kept.through_eq {st : Stage} (h : s.Kept key) (hover : ∀ t ∈ s.tasks, t.stage.Over)
    (hst : st.rank < Stage.done.rank) (hpre : s.through st <+: s.through .push) :
    s.through st = s.through .push := by
  refine hpre.eq_of_length_le ?_
  refine (List.Nodup.subperm (h.staged.nodup .push) fun i hi => ?_).length_le
  obtain ⟨t, ht, -⟩ := h.staged.past .push i hi
  have hdone : t.stage = .done :=
    (hover t (List.mem_of_getElem? ht)).resolve_right (h.sets i t ht).1
  exact h.staged.came i t ht (h.sets i t ht).1 st (by rw [hdone]; exact hst)

theorem Kept.winner (h : s.Kept key) (hover : ∀ t ∈ s.tasks, t.stage.Over)
    (hne : s.tasks ≠ []) : ∃ i value, s.Winner key i value := by
  have hlogged := h.through_eq hover (by decide) h.logged
  have hstored := h.through_eq hover (by decide) h.stored
  -- someone has pushed, and so someone was the last to push
  have hpushed : s.through .push ≠ [] := by
    obtain ⟨t, tasks, htasks⟩ := List.exists_cons_of_ne_nil hne
    have ht : s.tasks[0]? = some t := by rw [htasks]; rfl
    have hdone : t.stage = .done :=
      (hover t (List.mem_of_getElem? ht)).resolve_right (h.sets 0 t ht).1
    exact List.ne_nil_of_mem (h.staged.came 0 t ht (h.sets 0 t ht).1 .push (by rw [hdone]; decide))
  obtain ⟨i, hi⟩ := Option.ne_none_iff_exists'.mp (List.getLast?_eq_none_iff.not.mpr hpushed)
  obtain ⟨rn, hrn, -, hlast⟩ := h.leads.log
  obtain ⟨t, text, ht, htext, hentry⟩ := hlast i hi
  obtain ⟨-, value, hwrite⟩ := h.sets i t ht
  obtain ⟨t₁, before, ht₁, hfile⟩ := h.written.file i (by rw [hlogged]; exact hi)
  obtain ⟨m, hm, hvalue⟩ := h.written.store
  obtain ⟨t₂, ht₂, hvalue⟩ := hvalue i (by rw [hstored]; exact hi)
  rw [ht, Option.some.injEq] at ht₁ ht₂
  subst ht₁ ht₂
  rw [hwrite] at htext hfile hvalue
  exact ⟨i, value, ⟨t, ht, hwrite⟩, hi, ⟨rn, text, hrn, htext, hentry⟩, by rw [hlogged]; exact hi,
    ⟨before, hfile⟩, by rw [hstored]; exact hi, KVStore.lookup_bound hm hvalue⟩

theorem kept_new {server : ServerState} {gid : Nat} {rn : RaftNode} {m : Bytes → Option RespValue}
    (hgroup : server.getGroupForKey key = .ok (some gid))
    (hrn : server.raftGroups.lookup gid = some rn) (hlead : rn.state = .leader)
    (hm : server.kvstore.Contents m) : Kept key { server, gid } where
  staged := staged_new server gid
  sets := by simp
  leads := ⟨hgroup, rn, hrn, hlead, by simp⟩
  written := ⟨by simp, m, hm, by simp⟩
  logged := List.prefix_refl _
  stored := List.prefix_refl _

theorem kept_exec {server : ServerState} {gid : Nat} {rn : RaftNode}
    {m : Bytes → Option RespValue} (hgroup : server.getGroupForKey key = .ok (some gid))
    (hrn : server.raftGroups.lookup gid = some rn) (hlead : rn.state = .leader)
    (hm : server.kvstore.Contents m) {es : List Event} (hsets : ∀ e ∈ es, e.Sets key)
    (h : Along step Orderly { server, gid } es) : (exec step { server, gid } es).Kept key := by
  have hboth : Along step (fun s e => s.Orderly e ∧ e.Sets key) { server, gid } es :=
    h.and (along_of_mem hsets)
  refine Along.invariant (I := Kept key) (fun s e hcond hs => ?_) hboth
    (kept_new hgroup hrn hlead hm)
  obtain ⟨horderly, hset⟩ := hcond
  cases e with
  | start w due =>
    cases w with
    | set k value =>
      cases (show k = key from hset)
      exact hs.begin
    | del k => exact absurd hset id
  | advance i => exact hs.advance horderly
  | get k => exact absurd hset id
  | take => exact absurd hset id
  | apply => exact absurd hset id

/-- **One winner.** On a node that leads the group of the key, in every run of `SET`s of this key
in which each handler logs and stores only after those that pushed before it, and in which the
store has room: when all handlers are done, the request that is last in the Raft log is last in
the append-only file and last in the store, and the store has its value.

The order of the pushes is the order of the Raft log. A handler that logs only after those that
pushed before it makes the file's order a front of this one, and a handler that stores after those
makes the store's order one, too (`Kept`). When all are over the three are the same, and have the
same last request. Handlers that do not overlap need not wait (`winner_in_turn`). -/
theorem one_winner (server : ServerState) (gid : Nat) (rn : RaftNode) (key : Bytes)
    (m : Bytes → Option RespValue) (hgroup : server.getGroupForKey key = .ok (some gid))
    (hrn : server.raftGroups.lookup gid = some rn) (hlead : rn.state = .leader)
    (hm : server.kvstore.Contents m) (es : List Event) (hsets : ∀ e ∈ es, e.Sets key)
    (h : Along step Orderly { server, gid } es)
    (hover : ∀ t ∈ (exec step { server, gid } es).tasks, t.stage.Over)
    (hne : (exec step { server, gid } es).tasks ≠ []) :
    ∃ i value, (exec step { server, gid } es).Winner key i value := by
  exact (kept_exec hgroup hrn hlead hm hsets h).winner hover hne

/-! ## One after the other

A condition without the stages: each handler begins when the others are done. -/

/-- A handler begins when all others are done; the value has a text and the store has room. -/
def InTurn (s : Workers) : Event → Prop
  | .start _ _ => ∀ t ∈ s.tasks, t.stage = .done
  | .advance i => ∀ t ∈ s.tasks[i]?, (t.stage = .push → t.write.text.isOk) ∧
      (t.stage = .store → s.server.kvstore.Room t.write.key)
  | .get _ | .take | .apply => True

/-- All handlers but the last one are done. -/
structure Lined (s : Workers) : Prop where
  staged : s.Staged
  done : ∀ (i : Nat) (t : Task), s.tasks[i]? = some t → i + 1 < s.tasks.length → t.stage = .done

/-- Only the last handler has something left to do. -/
theorem Lined.last (h : s.Lined) (ht : s.tasks[i]? = some t) (hover : ¬ t.stage.Over) :
    i + 1 = s.tasks.length := by
  have hlt := (List.getElem?_eq_some_iff.mp ht).1
  by_contra hne
  exact hover (Or.inl (h.done i t ht (Nat.lt_of_le_of_ne hlt hne)))

/-- So everyone who came before it has made all calls. -/
theorem Lined.waited (h : s.Lined) (ht : s.tasks[i]? = some t) (hover : ¬ t.stage.Over)
    {st : Stage} (hst : st.rank < Stage.done.rank) : s.Waited i st := by
  intro j hj
  have hpushed : j ∈ s.through .push := (List.takeWhile_sublist _).subset hj
  have hne : j ≠ i := by simpa using List.mem_takeWhile_imp hj
  obtain ⟨u, hu, -⟩ := h.staged.past .push j hpushed
  have hlt := (List.getElem?_eq_some_iff.mp hu).1
  have hlast := h.last ht hover
  have hdone : u.stage = .done := h.done j u hu (by omega)
  exact h.staged.came j u hu (by rw [hdone]; decide) st (by rw [hdone]; exact hst)

theorem Lined.orderly (h : s.Lined) {e : Event} (hturn : s.InTurn e) : s.Orderly e := by
  cases e with
  | start _ _ | get _ | take | apply => trivial
  | advance i =>
    intro t ht
    obtain ⟨hpush, hstore⟩ := hturn t ht
    cases hstage : t.stage with
    | push => exact hpush hstage
    | log => exact h.waited ht (by simp [hstage, Stage.Over]) (by decide)
    | store => exact ⟨h.waited ht (by simp [hstage, Stage.Over]) (by decide), hstore hstage⟩
    | reply | done | failed => trivial

/-- A change of the last handler's stage. -/
theorem Lined.done_set (h : s.Lined) (ht : s.tasks[i]? = some t) (hover : ¬ t.stage.Over)
    (stage : Stage) : ∀ (j : Nat) (u : Task), (s.tasks.set i { t with stage })[j]? = some u →
      j + 1 < (s.tasks.set i { t with stage }).length → u.stage = .done := by
  intro j u hu hlt
  rw [List.length_set] at hlt
  have hlast := h.last ht hover
  rcases set_stage ht hu with ⟨rfl, -⟩ | ⟨-, hu⟩
  · omega
  · exact h.done j u hu hlt

theorem Lined.step (h : s.Lined) (e : Event) (hturn : s.InTurn e) : (s.step e).Lined where
  staged := h.staged.step e
  done := by
    cases e with
    | start w due =>
      intro j u hu hlt
      rcases begin_task hu with hu | ⟨hj, -⟩
      · exact hturn u (List.mem_of_getElem? hu)
      · have hlen : (s.step (.start w due)).tasks.length = s.tasks.length + 1 := by
          simp [Workers.step, begin]
        omega
    | advance i =>
      obtain heq | ⟨t, server, ht, hover, -, heq⟩ | ⟨t, e, server, ht, hover, -, heq⟩ :=
        s.advance_cases i
      · rw [show s.step (.advance i) = s from heq]
        exact h.done
      · rw [show s.step (.advance i) = _ from heq]
        exact h.done_set ht hover _
      · rw [show s.step (.advance i) = _ from heq]
        exact h.done_set ht hover _
    | get k => exact h.done
    | take =>
      show ∀ (j : Nat) (u : Task), s.take.tasks[j]? = some u → j + 1 < s.take.tasks.length → _
      rw [s.take_tasks.1]
      exact h.done
    | apply =>
      show ∀ (j : Nat) (u : Task), s.apply.tasks[j]? = some u → j + 1 < s.apply.tasks.length → _
      rw [s.apply_tasks.1]
      exact h.done

/-- **Handlers that do not overlap** need no waiting: where each `SET` of the key begins when those
before it are done, one of them is the last in the log, in the file and in the store. -/
theorem winner_in_turn (server : ServerState) (gid : Nat) (rn : RaftNode) (key : Bytes)
    (m : Bytes → Option RespValue) (hgroup : server.getGroupForKey key = .ok (some gid))
    (hrn : server.raftGroups.lookup gid = some rn) (hlead : rn.state = .leader)
    (hm : server.kvstore.Contents m) (es : List Event) (hsets : ∀ e ∈ es, e.Sets key)
    (h : Along step InTurn { server, gid } es)
    (hover : ∀ t ∈ (exec step { server, gid } es).tasks, t.stage.Over)
    (hne : (exec step { server, gid } es).tasks ≠ []) :
    ∃ i value, (exec step { server, gid } es).Winner key i value := by
  have hlined := h.keeping (I := Lined) (fun s e he hs => hs.step e he)
    ⟨staged_new server gid, fun i t ht => absurd ht (by simp)⟩
  have horderly := hlined.imp fun s e hboth => hboth.2.orderly hboth.1
  exact (kept_exec hgroup hrn hlead hm hsets horderly).winner hover hne

/-- Two `SET`s of `k` on a server of its own; the calls of the second follow those of the first. -/
def following : List Event :=
  [.start (.set [107] (.integer 1)) false, .start (.set [107] (.integer 2)) false,
    .advance 0, .advance 1, .advance 0, .advance 1, .advance 0, .advance 1, .advance 0, .advance 1]

theorem following_one_winner :
    ∃ i value, (exec step { server := alone, gid := 0 } following).Winner [107] i value := by
  have hrun : alone.getGroupForKey [107] = .ok (some 0) ∧
      Along step Orderly { server := alone, gid := 0 } following ∧
      (∀ t ∈ (exec step { server := alone, gid := 0 } following).tasks, t.stage.Over) ∧
      (exec step { server := alone, gid := 0 } following).tasks.length = 2 := by
    decide +kernel
  obtain ⟨hgroup, horderly, hover, hlength⟩ := hrun
  refine one_winner alone 0 (.construct 0 7 [] 0) [107] (fun _ => none) hgroup rfl rfl
    KVStore.contents_new following ?_ horderly hover (List.ne_nil_of_length_eq_add_one hlength)
  simp [following, Event.Sets]

/-- The second one pushes after the first and logs before it. -/
def overtaking : List Event :=
  [.start (.set [107] (.integer 1)) false, .start (.set [107] (.integer 2)) false,
    .advance 0, .advance 1, .advance 1, .advance 1, .advance 1, .advance 0, .advance 0, .advance 0]

theorem overtaking_two_winners :
    (∀ e ∈ overtaking, e.Sets [107]) ∧
      ((∀ t ∈ (exec step { server := alone, gid := 0 } overtaking).tasks, t.stage = .done) ∧
        (exec step { server := alone, gid := 0 } overtaking).through .push = [0, 1] ∧
        (exec step { server := alone, gid := 0 } overtaking).through .log = [1, 0] ∧
        (exec step { server := alone, gid := 0 } overtaking).through .store = [1, 0]) ∧
      ¬ ∃ i value, (exec step { server := alone, gid := 0 } overtaking).Winner [107] i value := by
  have hrun : (∀ t ∈ (exec step { server := alone, gid := 0 } overtaking).tasks,
        t.stage = .done) ∧
      (exec step { server := alone, gid := 0 } overtaking).through .push = [0, 1] ∧
      (exec step { server := alone, gid := 0 } overtaking).through .log = [1, 0] ∧
      (exec step { server := alone, gid := 0 } overtaking).through .store = [1, 0] := by
    decide +kernel
  refine ⟨by simp [overtaking, Event.Sets], hrun, ?_⟩
  obtain ⟨-, hpush, hlog, -⟩ := hrun
  rintro ⟨i, value, h⟩
  have hone : some 1 = some i := by rw [← h.pushed, hpush]; rfl
  have hzero : some 0 = some i := by rw [← h.logged, hlog]; rfl
  rw [← hzero] at hone
  exact absurd hone (by decide)

end Workers
end Server
end KvJet
