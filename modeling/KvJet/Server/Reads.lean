import KvJet.Server.Workers

/-!
# What a read sees

A write gets into the store twice: its handler puts it there at once, and the main loop once more
when it applies the entry that the handler has pushed. The second time it comes from the text of
the entry, and it comes after whatever the handlers have stored in the meantime.

So a `GET` sees the last acknowledged write of its key as long as the main loop applies nothing
that is out of date (`reads_last_write`): the entry says the same as its request, and no request
that pushed later has stored its value under the same key. A single client that waits for each
answer can already read an older value (`overwritten_read`).
-/

namespace KvJet
namespace Server

open Resp Store Run
open Raft (RaftNode)

/-- What a `GET` answers after a write. -/
def Write.seen : Write → Bytes
  | .set _ value => encode value
  | .del _ => encode (.bulkString none)

/-- The write that `makeCommand` reads out of a text. -/
def asks (cmd : Bytes) : Option Write :=
  match tokens cmd with
  | [command, key, value] =>
    if command = ascii "SET" then some (.set key (.simpleString value)) else none
  | [command, key] => if command = ascii "DEL" then some (.del key) else none
  | _ => none

theorem makeCommand_of_asks {cmd : Bytes} {w : Write} (h : asks cmd = some w) :
    makeCommand cmd = w.request := by
  unfold asks at h
  split at h
  · rename_i command key value htokens
    split at h
    · rename_i hcommand
      cases h
      rw [makeCommand, htokens, hcommand]
      rfl
    · exact absurd h (by simp)
  · rename_i command key htokens
    split at h
    · rename_i hcommand
      cases h
      rw [makeCommand, htokens, hcommand]
      rfl
    · exact absurd h (by simp)
  · exact absurd h (by simp)

/-- A plain request comes back from its text. -/
theorem Write.Plain.asks {w : Write} {text : Bytes} (h : w.Plain) (htext : w.text = .ok text) :
    asks text = some w := by
  cases w with
  | set key value =>
    cases value with
    | simpleString value =>
      cases htext
      rw [Server.asks, tokens_set, tokens_word h.1, tokens_word h.2]
      rfl
    | error _ | integer _ | bulkString _ | array _ => exact absurd h id
  | del key =>
    cases htext
    rw [Server.asks, tokens_del, tokens_word h]
    rfl

theorem Write.seen_eq (w : Write) : w.seen = w.effect.elim (encode (.bulkString none)) encode := by
  cases w <;> rfl

/-- Applying an entry does to the store what its request does. -/
theorem call_handleNoAOF_asked {s : ServerState} {m : Bytes → Option RespValue} {cmd : Bytes}
    {w : Write} (hasks : asks cmd = some w) (h : s.kvstore.Contents m)
    (hroom : s.kvstore.Room w.key) :
    ∃ reply kv, (Handler.handleNoAOF (makeCommand cmd)).call s
        = (.ok reply, { s with kvstore := kv }) ∧
      kv.Contents (Function.update m w.key w.effect) := by
  rw [makeCommand_of_asks hasks]
  cases w with
  | set key value =>
    have hroom : s.kvstore.Room key := hroom
    obtain ⟨evicted, kv, hset, hcontents⟩ := KVStore.set_contents h value hroom
    exact ⟨_, kv, by rw [call_handleNoAOF_set, hset]; rfl, hcontents⟩
  | del key =>
    have hroom : s.kvstore.Room key := hroom
    obtain ⟨kv, hdel, hcontents⟩ := KVStore.del_contents h hroom
    exact ⟨_, kv, by rw [call_handleNoAOF_del, hdel]; rfl, hcontents⟩

namespace Workers

/-! ## The write to be seen

A write that no other one of its key has overlapped, and that is the last one so far. -/

/-- Task `i` is the last write of the key to have begun. -/
def Latest (s : Workers) (key : Bytes) (i : Nat) (t : Task) : Prop :=
  s.tasks[i]? = some t ∧ t.write.key = key ∧
    ∀ (j : Nat) (t' : Task), i < j → s.tasks[j]? = some t' → t'.write.key ≠ key

/-- The write is acknowledged, and every other write of its key was acknowledged before it
began. -/
def Settled (s : Workers) (w : Write) : Prop :=
  ∃ i t, s.Latest w.key i t ∧ t.write = w ∧ t.stage = .done ∧ t.alone = true

/-! ## When nothing applied is out of date -/

/-- The request that entry number `j` comes from, where the entries below `base` are older than
the run. -/
def author (s : Workers) (base j : Nat) : Option Write :=
  if j < base then none
  else (s.through .push)[j - base]?.bind fun i => s.tasks[i]?.map Task.write

/-- The entry says what its request said, the store has room for it, and no request of the key
that pushed later has stored its value. -/
def UpToDate (s : Workers) (base j : Nat) (cmd : Bytes) : Prop :=
  ∃ w ∈ asks cmd, s.server.kvstore.Room w.key ∧
    (j < base ∨ ∃ w' ∈ s.author base j, w'.Plain ∧ w'.text = .ok cmd) ∧
    ∀ i ∈ (s.through .push).drop (j + 1 - base), ∀ t ∈ s.tasks[i]?, t.write.key = w.key →
      i ∉ s.through .store

instance (s : Workers) (base j : Nat) (cmd : Bytes) : Decidable (s.UpToDate base j cmd) :=
  inferInstanceAs (Decidable (∃ w ∈ asks cmd, _ ∧ _ ∧ _))

/-- What the handler of a write needs in its stage: a value with a text, a request that can be
logged, room in the store. -/
def CanGo (s : Workers) (w : Write) : Stage → Prop
  | .push => w.text.isOk
  | .log => w.logged.all Option.isSome
  | .store => s.server.kvstore.Room w.key
  | .reply | .done | .failed => True

instance (s : Workers) (w : Write) : DecidablePred (s.CanGo w)
  | .push => inferInstanceAs (Decidable (w.text.isOk = true))
  | .log => inferInstanceAs (Decidable (w.logged.all Option.isSome = true))
  | .store => inferInstanceAs (Decidable (s.server.kvstore.Room w.key))
  | .reply | .done | .failed => inferInstanceAs (Decidable True)

def Timely (base : Nat) (s : Workers) : Event → Prop
  | .advance i => ∀ t ∈ s.tasks[i]?, s.CanGo t.write t.stage
  | .get key => s.server.kvstore.Room key
  | .apply => ∀ entry ∈ s.pending.head?, s.UpToDate base entry.1 entry.2.command
  | .start _ _ | .take => True

instance (base : Nat) (s : Workers) : DecidablePred (s.Timely base)
  | .advance i => inferInstanceAs (Decidable (∀ t ∈ s.tasks[i]?, s.CanGo t.write t.stage))
  | .get key => inferInstanceAs (Decidable (s.server.kvstore.Room key))
  | .apply => inferInstanceAs
      (Decidable (∀ entry ∈ s.pending.head?, s.UpToDate base entry.1 entry.2.command))
  | .start _ _ | .take => inferInstanceAs (Decidable True)

/-! ## What every step keeps -/

/-- A write that began alone, is the last one of its key and has been stored is in the store. -/
structure Serving (s : Workers) : Prop where
  staged : s.Staged
  master : ∀ key, s.server.cluster.isMasterFor key = .ok true
  store : ∃ m, s.server.kvstore.Contents m ∧ ∀ key i t, s.Latest key i t → t.alone = true →
    i ∈ s.through .store → m key = t.write.effect

variable {s : Workers} {i : Nat} {t : Task} {server : ServerState}

theorem serving_new {m : Bytes → Option RespValue} (gid : Nat)
    (hmaster : ∀ key, server.cluster.isMasterFor key = .ok true)
    (hm : server.kvstore.Contents m) : Serving { server, gid } where
  staged := staged_new server gid
  master := hmaster
  store := ⟨m, hm, by simp [Latest]⟩

theorem Serving.begin (h : s.Serving) (w : Write) (due : Bool) : (s.begin w due).Serving where
  staged := h.staged.of_begin w due
  master := h.master
  store := by
    obtain ⟨m, hm, hseen⟩ := h.store
    refine ⟨m, hm, fun key i t hlatest halone hstored => ?_⟩
    obtain ⟨ht, hkey, hlast⟩ := hlatest
    rcases begin_task ht with ht | ⟨hi, -⟩
    · refine hseen key i t ⟨ht, hkey, fun j t' hlt ht' => ?_⟩ halone hstored
      exact hlast j t' hlt (begin_old ht' w due)
    · -- the new task has stored nothing
      obtain ⟨u, hu, -⟩ := h.staged.past .store i hstored
      have hlt := (List.getElem?_eq_some_iff.mp hu).1
      omega

/-- Which task is the last of its key is a matter of the writes alone. -/
theorem Latest.of_passed {key : Bytes} {j : Nat} {u : Task} (ht : s.tasks[i]? = some t)
    (h : (s.passed i t server).Latest key j u) :
    ∃ u₀, s.Latest key j u₀ ∧ u₀.write = u.write ∧ u₀.alone = u.alone := by
  obtain ⟨hu, hkey, hlast⟩ := h
  obtain ⟨u₀, hu₀, hwrite, halone⟩ := of_set_stage ht hu
  refine ⟨u₀, ⟨hu₀, by rw [hwrite]; exact hkey, fun k u' hlt hu' => ?_⟩, hwrite, halone⟩
  by_cases hk : k = i
  · subst hk
    rw [ht, Option.some.injEq] at hu'
    subst hu'
    have hself : (s.passed k t server).tasks[k]? = some { t with stage := t.stage.next } :=
      List.getElem?_set_self (List.getElem?_eq_some_iff.mp ht).1
    have hother := hlast k { t with stage := t.stage.next } hlt hself
    exact hother
  · exact hlast k u' hlt (by rw [passed, List.getElem?_set_ne (Ne.symm hk)]; exact hu')

/-- A call that is not the one on the store. -/
theorem Serving.of_passed (h : s.Serving) (ht : s.tasks[i]? = some t) (hover : ¬ t.stage.Over)
    (hstage : t.stage ≠ .store) (hkv : server.kvstore = s.server.kvstore)
    (hcluster : server.cluster = s.server.cluster) : (s.passed i t server).Serving where
  staged := h.staged.of_passed ht hover
  master := by
    intro key
    show server.cluster.isMasterFor key = .ok true
    rw [hcluster]
    exact h.master key
  store := by
    obtain ⟨m, hm, hseen⟩ := h.store
    refine ⟨m, by rw [← hkv] at hm; exact hm, fun key j u hlatest halone hstored => ?_⟩
    obtain ⟨u₀, hlatest₀, hwrite, halone₀⟩ := hlatest.of_passed ht
    rw [through_passed_ne (Ne.symm hstage)] at hstored
    rw [← hwrite]
    exact hseen key j u₀ hlatest₀ (halone₀.trans halone) hstored

/-- The call on the store, of a task that nobody who began alone has to be seen instead of. -/
theorem Serving.of_stored {kv : KVStore RespValue} {m : Bytes → Option RespValue} (h : s.Serving)
    (ht : s.tasks[i]? = some t) (hstage : t.stage = .store)
    (hm : s.server.kvstore.Contents m)
    (hkv : kv.Contents (Function.update m t.write.key t.write.effect)) :
    (s.passed i t { s.server with kvstore := kv }).Serving where
  staged := h.staged.of_passed ht (by simp [hstage, Stage.Over])
  master := h.master
  store := by
    obtain ⟨m', hm', hseen⟩ := h.store
    have hsame := hm'.unique hm
    subst hsame
    refine ⟨_, hkv, fun key j u hlatest halone hstored => ?_⟩
    obtain ⟨u₀, hlatest₀, hwrite, halone₀⟩ := hlatest.of_passed ht
    obtain ⟨hu₀, hkey, hlast⟩ := hlatest₀
    rw [← hwrite]
    by_cases hj : j = i
    · subst hj
      rw [ht, Option.some.injEq] at hu₀
      rw [← hu₀, ← hkey, ← hu₀, Function.update_self]
    · by_cases hk : t.write.key = key
      · -- task `i` began before the last one of the key, which was not alone then
        have hlt : i < j := by
          rcases Nat.lt_trichotomy i j with hlt | heq | hgt
          · exact hlt
          · exact absurd heq.symm hj
          · exact absurd hk (hlast i t hgt ht)
        have hdone := h.staged.alone j u₀ hu₀ (halone₀.trans halone) i t hlt ht (by rw [hk, hkey])
        exact absurd (hstage.symm.trans hdone) (by decide)
      · rw [Function.update_of_ne (Ne.symm hk)]
        refine hseen key j u₀ ⟨hu₀, hkey, hlast⟩ (halone₀.trans halone) ?_
        exact (mem_through_passed.mp hstored).resolve_right fun hnew => hj hnew.2

theorem Serving.advance {base : Nat} (h : s.Serving) (hcond : s.Timely base (.advance i)) :
    (s.advance i).Serving := by
  cases ht : s.tasks[i]? with
  | none =>
    have hsame : s.advance i = s := by simp only [Workers.advance, ht]
    rw [hsame]
    exact h
  | some t =>
    have hgo : s.CanGo t.write t.stage := hcond t ht
    cases hstage : t.stage with
    | push =>
      have hover : ¬ t.stage.Over := by simp [hstage, Stage.Over]
      rw [hstage] at hgo
      obtain ⟨text, htext⟩ := Except.exists_of_isOk hgo
      obtain ⟨owner, howner⟩ := queryNode_of_isMasterFor (h.master t.write.key)
      obtain ⟨server, hcall, hsame⟩ := call_push hstage htext howner
      rw [advance_ok ht hover hcall]
      exact h.of_passed ht hover (by simp [hstage]) hsame.kvstore hsame.cluster
    | log =>
      have hover : ¬ t.stage.Over := by simp [hstage, Stage.Over]
      rw [hstage] at hgo
      obtain ⟨key, value, hwrite⟩ : ∃ key value, t.write = .set key value := by
        cases hw : t.write with
        | set key value => exact ⟨key, value, rfl⟩
        | del key =>
          rw [hw] at hgo
          exact absurd hgo (by simp [CanGo, Write.logged])
      obtain ⟨a, hcall, -⟩ := call_log_set (s := s.server) hstage hwrite
      rw [advance_ok ht hover hcall]
      exact h.of_passed ht hover (by simp [hstage]) rfl rfl
    | store =>
      have hover : ¬ t.stage.Over := by simp [hstage, Stage.Over]
      rw [hstage] at hgo
      obtain ⟨m, hm, -⟩ := h.store
      obtain ⟨kv, hcall, hkv⟩ := call_store_room hstage hm hgo
      rw [advance_ok ht hover hcall]
      exact h.of_stored ht hstage hm hkv
    | reply =>
      have hover : ¬ t.stage.Over := by simp [hstage, Stage.Over]
      rw [advance_ok ht hover (call_reply hstage)]
      exact h.of_passed ht hover (by simp [hstage]) rfl rfl
    | done | failed =>
      have hsame : s.advance i = s := by simp [Workers.advance, ht, hstage, Stage.Over]
      rw [hsame]
      exact h

/-- The store changes, and what is to be seen does not. -/
theorem Serving.of_store {s' : Workers} {m : Bytes → Option RespValue} (h : s.Serving)
    (htasks : s'.tasks = s.tasks) (hthrough : s'.through = s.through)
    (hcluster : s'.server.cluster = s.server.cluster) (hm : s'.server.kvstore.Contents m)
    (hseen : ∀ key i t, s.Latest key i t → t.alone = true → i ∈ s.through .store →
      m key = t.write.effect) : s'.Serving where
  staged := h.staged.of_eq htasks hthrough
  master := by
    rw [hcluster]
    exact h.master
  store := by
    refine ⟨m, hm, fun key i t hlatest halone hstored => ?_⟩
    rw [hthrough] at hstored
    rw [Latest, htasks] at hlatest
    exact hseen key i t hlatest halone hstored

/-- **An entry that is up to date** is that of the write to be seen, if there is one. -/
theorem UpToDate.same {base j : Nat} {cmd key : Bytes} {w : Write} (h : s.Staged)
    (hasks : asks cmd = some w)
    (hauthor : j < base ∨ ∃ w' ∈ s.author base j, w'.Plain ∧ w'.text = .ok cmd)
    (hlater : ∀ k ∈ (s.through .push).drop (j + 1 - base), ∀ u ∈ s.tasks[k]?,
      u.write.key = w.key → k ∉ s.through .store)
    (hlatest : s.Latest key i t) (halone : t.alone = true) (hstored : i ∈ s.through .store)
    (hkey : w.key = key) : t.write = w := by
  obtain ⟨ht, htkey, hlast⟩ := hlatest
  have hpushed : i ∈ s.through .push := h.before .store .push (by decide) i hstored
  have hnot : i ∉ (s.through .push).drop (j + 1 - base) := fun hin =>
    hlater i hin t ht (by rw [htkey, hkey]) hstored
  obtain ⟨x, y, hsplit⟩ := List.append_of_mem hpushed
  -- so task `i` pushed this entry or one before it
  have hlen : x.length < j + 1 - base := by
    by_contra hge
    refine hnot ?_
    rw [hsplit, List.drop_append_of_le_length (Nat.le_of_not_lt hge)]
    simp
  have hbase : ¬ j < base := by omega
  obtain ⟨w', hw', hplain, htext⟩ := hauthor.resolve_left hbase
  have hsame : w = w' := Option.some.inj (hasks.symm.trans (hplain.asks htext))
  rw [author, if_neg hbase, Option.mem_def, Option.bind_eq_some_iff] at hw'
  obtain ⟨k, hk, hw'⟩ := hw'
  obtain ⟨u, hu, rfl⟩ := Option.map_eq_some_iff.mp hw'
  rw [hsplit] at hk
  rcases Nat.lt_or_ge x.length (j - base) with hlt | hge
  · -- its author pushed later, and began later, which task `i` as the last one excludes
    rw [List.getElem?_append_right (Nat.le_of_lt hlt)] at hk
    obtain ⟨n, hn⟩ : ∃ n, j - base - x.length = n + 1 := ⟨j - base - x.length - 1, by omega⟩
    rw [hn, List.getElem?_cons_succ] at hk
    have hukey : u.write.key = key := by rw [← hsame, hkey]
    have horder := h.order .push x i y hsplit t ht halone k (List.mem_of_getElem? hk) u hu
      (by rw [hukey, htkey])
    exact absurd hukey (hlast k u horder hu)
  · have heq : j - base = x.length := by omega
    rw [heq, List.getElem?_append_right (Nat.le_refl _), Nat.sub_self, List.getElem?_cons_zero,
      Option.some.injEq] at hk
    subst hk
    rw [ht, Option.some.injEq] at hu
    rw [hsame, hu]

theorem Serving.apply {base : Nat} (h : s.Serving) (hcond : s.Timely base .apply) :
    s.apply.Serving := by
  cases hpending : s.pending with
  | nil =>
    have hsame : s.apply = s := by simp only [Workers.apply, hpending]
    rw [hsame]
    exact h
  | cons entry rest =>
    obtain ⟨j, entry⟩ := entry
    obtain ⟨w, hasks, hroom, hauthor, hlater⟩ := hcond (j, entry) (by rw [hpending]; rfl)
    obtain ⟨m, hm, hseen⟩ := h.store
    obtain ⟨reply, kv, hcall, hkv⟩ := call_handleNoAOF_asked hasks hm hroom
    have hafter : s.apply = { s with server := { s.server with kvstore := kv }, pending := rest } := by
      simp only [Workers.apply, hpending, hcall]
    rw [hafter]
    refine h.of_store rfl rfl rfl hkv fun key i t hlatest halone hstored => ?_
    by_cases hkey : w.key = key
    · have hsame := UpToDate.same h.staged hasks hauthor hlater hlatest halone hstored hkey
      rw [← hkey, Function.update_self, hsame]
    · rw [Function.update_of_ne (Ne.symm hkey)]
      exact hseen key i t hlatest halone hstored

theorem Serving.step {base : Nat} {e : Event} (h : s.Serving) (hcond : s.Timely base e) :
    (s.step e).Serving := by
  cases e with
  | start w due => exact h.begin w due
  | advance i => exact h.advance hcond
  | get key =>
    obtain ⟨m, hm, hseen⟩ := h.store
    obtain ⟨kv, hcall, hkv⟩ := call_GET_room hm hcond
    have hafter : s.step (.get key) = { s with server := { s.server with kvstore := kv } } := by
      rw [Workers.step, hcall]
    rw [hafter]
    exact h.of_store rfl rfl rfl hkv hseen
  | take =>
    obtain ⟨m, hm, hseen⟩ := h.store
    have hserver : s.take.server.kvstore = s.server.kvstore ∧
        s.take.server.cluster = s.server.cluster := by
      unfold Workers.take
      split <;> exact ⟨rfl, rfl⟩
    refine h.of_store s.take_tasks.1 s.take_tasks.2 hserver.2 (m := m) ?_ hseen
    show s.take.server.kvstore.Contents m
    rw [hserver.1]
    exact hm
  | apply => exact h.apply hcond

/-- A `GET` answers what is to be seen. -/
theorem Serving.answers {w : Write} (h : s.Serving) (hroom : s.server.kvstore.Room w.key)
    (hsettled : s.Settled w) :
    ((Handler.GET (getRequest w.key)).call s.server).1 = .ok w.seen := by
  obtain ⟨i, t, hlatest, rfl, hdone, halone⟩ := hsettled
  obtain ⟨m, hm, hseen⟩ := h.store
  have hstored : i ∈ s.through .store :=
    h.staged.came i t hlatest.1 (by simp [hdone]) .store (by rw [hdone]; decide)
  obtain ⟨kv, hcall, -⟩ := call_GET_room hm hroom
  rw [hcall, hseen _ i t hlatest halone hstored, Write.seen_eq]

/-- The number of entries in the log of a group, the sentinel among them. -/
def logLength (server : ServerState) (gid : Nat) : Nat :=
  ((server.raftGroups.lookup gid).map fun rn => rn.log.length).getD 0

/-- **Reads see the last acknowledged write.** On a node that is the master of every key, in every
run in which the handlers can go on and the main loop applies only what is up to date: a `GET`
that is made when a write of its key has been acknowledged, and every other write of the key was
acknowledged before that one began, answers with the value of this write.

The store is written by the handlers and by the main loop. An acknowledged write has stored its
value, and every other write of the key was over by then, so what a handler could still put over it
is none. What the main loop applies is the entry of some request, and under the condition no request
of its key that pushed later has stored; if the entry is of the key it is then that of the write
itself (`UpToDate.same`), and storing the same value once more changes nothing. -/
theorem reads_last_write (server : ServerState) (gid : Nat) (m : Bytes → Option RespValue)
    (hmaster : ∀ key, server.cluster.isMasterFor key = .ok true)
    (hm : server.kvstore.Contents m) (es : List Event)
    (h : Along step (Timely (logLength server gid)) { server, gid } es) :
    ∀ pre key, pre ++ [.get key] <+: es → ∀ w : Write, w.key = key →
      (exec step { server, gid } pre).Settled w →
      ((Handler.GET (getRequest key)).call (exec step { server, gid } pre).server).1
        = .ok w.seen := by
  rintro pre key ⟨post, rfl⟩ w rfl hsettled
  obtain ⟨hpre, hroom, -⟩ := h.append.1.append
  have hserving : (exec step { server, gid } pre).Serving :=
    Along.invariant (fun s e hcond hs => hs.step hcond) hpre (serving_new gid hmaster hm)
  exact hserving.answers hroom hsettled

/-! ## On a server of its own -/

theorem settled_last (ws : List Write) {w : Write} (hwrites : s.tasks.map Task.write = ws ++ [w])
    (hlast : (s.tasks.map fun t => (t.stage, t.alone)).getLast? = some (.done, true)) :
    s.Settled w := by
  rcases List.eq_nil_or_concat s.tasks with hnil | ⟨ts, t, htasks⟩
  · rw [hnil] at hwrites
    exact absurd hwrites (by simp)
  · rw [List.concat_eq_append] at htasks
    rw [htasks, List.map_append, List.map_singleton] at hwrites hlast
    rw [List.getLast?_concat, Option.some.injEq, Prod.mk.injEq] at hlast
    have hw : t.write = w := List.singleton_inj.mp (List.append_inj_right' hwrites rfl)
    refine ⟨ts.length, t, ⟨by simp [htasks], by rw [hw], fun j t' hlt ht' => ?_⟩, hw, hlast⟩
    have hj := (List.getElem?_eq_some_iff.mp ht').1
    rw [htasks, List.length_append, List.length_singleton] at hj
    omega

/-- `k` is set, its entry is applied, and then it is read. -/
def appliedRead : List Event :=
  [.start (.set [107] (.simpleString (ascii "v"))) false, .advance 0, .advance 0, .advance 0,
    .advance 0, .take, .apply, .get [107]]

theorem appliedRead_answers :
    ((Handler.GET (getRequest [107])).call
        (exec step { server := alone, gid := 0 } appliedRead.dropLast).server).1
      = .ok (encode (.simpleString (ascii "v"))) := by
  have hrun : Along step (Timely (logLength alone 0)) { server := alone, gid := 0 } appliedRead ∧
      ((exec step { server := alone, gid := 0 } appliedRead.dropLast).tasks.map fun t =>
        (t.stage, t.alone)).getLast? = some (.done, true) := by
    decide +kernel
  refine reads_last_write alone 0 (fun _ => none) alone_isMasterFor KVStore.contents_new appliedRead
    hrun.1 appliedRead.dropLast [107] (List.prefix_refl _)
    (.set [107] (.simpleString (ascii "v"))) rfl (settled_last [] ?_ hrun.2)
  rw [writes_exec]
  rfl

/-- `k` is set to `a` and, when that is acknowledged, to `b`; when that is acknowledged as well,
the main loop applies the first of the two entries. -/
def overwritten : List Event :=
  [.start (.set [107] (.simpleString (ascii "a"))) false, .advance 0, .advance 0, .advance 0,
    .advance 0, .start (.set [107] (.simpleString (ascii "b"))) false, .advance 1, .advance 1,
    .advance 1, .advance 1, .take, .apply]

theorem overwritten_read :
    (exec step { server := alone, gid := 0 } overwritten).Settled
        (.set [107] (.simpleString (ascii "b"))) ∧
      ((Handler.GET (getRequest [107])).call
        (exec step { server := alone, gid := 0 } overwritten).server).1 = .ok (ascii "+a\r\n") ∧
      ascii "+a\r\n" ≠ (Write.set [107] (.simpleString (ascii "b"))).seen := by
  have hrun : ((exec step { server := alone, gid := 0 } overwritten).tasks.map fun t =>
        (t.stage, t.alone)).getLast? = some (.done, true) ∧
      ((Handler.GET (getRequest [107])).call
        (exec step { server := alone, gid := 0 } overwritten).server).1 = .ok (ascii "+a\r\n") := by
    decide +kernel
  refine ⟨settled_last [.set [107] (.simpleString (ascii "a"))] ?_ hrun.1, hrun.2, by decide⟩
  rw [writes_exec]
  rfl

end Workers
end Server
end KvJet
