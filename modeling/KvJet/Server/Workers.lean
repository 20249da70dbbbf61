import KvJet.Lib.Run
import KvJet.Server.Acknowledge

/-!
# Handlers on several threads

The handlers of `SET` and `DEL` run on the threads of the pool. Raft, the append-only file and
the store have a lock each, and a handler takes one after the other, so its three calls are three
steps, with any steps of others in between; `handle_steps` says that with nothing in between they
are the handler. The main loop meanwhile takes the committed entries out of Raft and applies them
one by one.

A handler is a `Task`: what it writes, and the stage it has come to. That this node is the master
for the key, which the handler checks first, is left to the theorems.
-/

namespace KvJet
namespace Server

open Resp Store Run
open Raft (RaftNode LogEntry)

/-- What the handler of a write does next. -/
inductive Stage where
  | push
  | log
  | store
  | reply
  | done
  /-- It has thrown. -/
  | failed
deriving DecidableEq, Repr

namespace Stage

def next : Stage → Stage
  | push => log
  | log => store
  | store => reply
  | reply | done => done
  | failed => failed

def rank : Stage → Nat
  | push => 0
  | log => 1
  | store => 2
  | reply => 3
  | done => 4
  | failed => 5

/-- Nothing is left to do. -/
def Over (stage : Stage) : Prop := stage = done ∨ stage = failed

instance (stage : Stage) : Decidable stage.Over := inferInstanceAs (Decidable (_ ∨ _))

end Stage

structure Task where
  write : Write
  /-- What the clock says when it is logged. -/
  due : Bool
  stage : Stage := .push
  /-- When it began, every other write of its key had been answered. Nothing reads it. -/
  alone : Bool

/-- The call a task makes in its stage. -/
def Task.method (t : Task) : ServerM Unit :=
  match t.stage with
  | .push => do Handler.proposeFor t.write.key (← Method.lift t.write.text)
  | .log => onAOF (AOF.append t.write.logged t.due)
  | .store => onKVStore t.write.apply
  | .reply | .done | .failed => return

/-- `DEL` has moved its key out of what it logs. -/
theorem call_log_del (s : ServerState) (key : Bytes) (due : Bool) :
    (onAOF (AOF.append (Write.del key).logged due)).call s
      = (.error (.undefined "read through a null pointer"), s) := rfl

/-- A call on the store leaves the rest of the server alone. -/
theorem call_store {s s' : ServerState} {w : Write}
    (h : (onKVStore w.apply).call s = (.ok (), s')) :
    ∃ kv, w.apply.call s.kvstore = (.ok (), kv) ∧ s' = { s with kvstore := kv } := by
  obtain ⟨hkv, hs'⟩ := Prod.mk.inj h
  exact ⟨(w.apply.call s.kvstore).2, Prod.ext hkv rfl, hs'.symm⟩

/-- **With nothing in between** the calls of a task are its handler. -/
theorem handle_steps {s s₁ s₂ s₃ : ServerState} {w : Write} {due alone : Bool}
    (hmaster : s.cluster.isMasterFor w.key = .ok true)
    (hpush : (Task.mk w due .push alone).method.call s = (.ok (), s₁))
    (hlog : (Task.mk w due .log alone).method.call s₁ = (.ok (), s₂))
    (hstore : (Task.mk w due .store alone).method.call s₂ = (.ok (), s₃)) :
    ∃ reply, (w.handle due).call s = (.ok reply, s₃) ∧ w.Acks reply := by
  cases w with
  | del key =>
    have hlog : (onAOF (AOF.append (Write.del key).logged due)).call s₁ = (.ok (), s₂) := hlog
    rw [call_log_del] at hlog
    exact absurd hlog (by simp)
  | set key value =>
    obtain ⟨text, s₀, hlift, hpropose⟩ := Method.bind_eq_ok hpush
    obtain ⟨htext, rfl⟩ := Prod.mk.inj hlift
    have hpropose : (Handler.proposeFor key text).call s = (.ok (), s₁) := hpropose
    have hlog : (onAOF (AOF.append (Write.set key value).logged due)).call s₁ = (.ok (), s₂) := hlog
    obtain ⟨kv, hkv, rfl⟩ := call_store hstore
    obtain ⟨evicted, hset⟩ := Write.call_drop hkv
    refine ⟨_, ?_, rfl⟩
    rw [handle_set key value hmaster htext, Method.call_bind_ok hpropose, Method.call_bind_ok hlog,
      call_onKVStore, hset]
    rfl

/-! ## The calls, one by one -/

theorem Write.apply_contents {kv : KVStore RespValue} {m : Bytes → Option RespValue} {w : Write}
    (h : kv.Contents m) (hroom : kv.Room w.key) :
    ∃ kv', w.apply.call kv = (.ok (), kv') ∧ kv'.Contents (Function.update m w.key w.effect) := by
  cases w with
  | set key value =>
    obtain ⟨evicted, kv', hset, hcontents⟩ := KVStore.set_contents h value hroom
    exact ⟨kv', (Method.call_bind_ok hset _).trans rfl, hcontents⟩
  | del key =>
    obtain ⟨kv', hdel, hcontents⟩ := KVStore.del_contents h hroom
    exact ⟨kv', (Method.call_bind_ok hdel _).trans rfl, hcontents⟩

section Calls

variable {s : ServerState} {t : Task}

theorem call_push_group {text : Bytes} {gid : Nat} (hstage : t.stage = .push)
    (htext : t.write.text = .ok text) (hgroup : s.getGroupForKey t.write.key = .ok (some gid)) :
    t.method.call s = (.ok (), s.propose gid text) := by
  have hlift : (Method.lift t.write.text : ServerM Bytes).call s = (.ok text, s) := by
    rw [Method.call_lift, htext]
  rw [Task.method, hstage]
  exact (Method.call_bind_ok hlift _).trans (call_proposeFor_group hgroup text)

theorem call_push {text : Bytes} {owner : Raft.Uuid} (hstage : t.stage = .push)
    (htext : t.write.text = .ok text) (howner : s.cluster.queryNode t.write.key = .ok owner) :
    ∃ s', t.method.call s = (.ok (), s') ∧ SameStore s s' := by
  have hlift : (Method.lift t.write.text : ServerM Bytes).call s = (.ok text, s) := by
    rw [Method.call_lift, htext]
  obtain ⟨s', hpropose, hsame⟩ := call_proposeFor howner text
  refine ⟨s', ?_, hsame⟩
  rw [Task.method, hstage]
  exact (Method.call_bind_ok hlift _).trans hpropose

theorem call_log_set {key : Bytes} {value : RespValue} (hstage : t.stage = .log)
    (hwrite : t.write = .set key value) :
    ∃ a, t.method.call s = (.ok (), { s with aof := a }) ∧
      a.flush.file = s.aof.flush.file ++ encode t.write.request := by
  obtain ⟨a, happ, hlog, -⟩ := call_append
    (encodeRequest_whole [.simpleString (ascii "SET"), .simpleString key, value]) t.due s.aof
  refine ⟨a, ?_, by rw [hwrite]; exact hlog⟩
  rw [Task.method, hstage, hwrite]
  show (onAOF (AOF.append _ t.due)).call s = _
  rw [onAOF, Method.call_part]
  exact congrArg (fun r => (r.1, { s with aof := r.2 })) happ

theorem call_store_room {m : Bytes → Option RespValue} (hstage : t.stage = .store)
    (h : s.kvstore.Contents m) (hroom : s.kvstore.Room t.write.key) :
    ∃ kv, t.method.call s = (.ok (), { s with kvstore := kv }) ∧
      kv.Contents (Function.update m t.write.key t.write.effect) := by
  obtain ⟨kv, hcall, hcontents⟩ := Write.apply_contents h hroom
  refine ⟨kv, ?_, hcontents⟩
  rw [Task.method, hstage]
  show (onKVStore t.write.apply).call s = _
  rw [onKVStore, Method.call_part, hcall]

theorem call_reply (hstage : t.stage = .reply) : t.method.call s = (.ok (), s) := by
  rw [Task.method, hstage]
  rfl

end Calls

/-! ## The machine -/

/-- A server, with the handlers on its threads. -/
structure Workers where
  server : ServerState
  /-- The Raft group that the main loop looks after. -/
  gid : Nat
  /-- In the order in which they began. -/
  tasks : List Task := []
  /-- The tasks that have made the call of a stage, in the order in which they made it. Nothing
  reads them. -/
  through : Stage → List Nat := fun _ => []
  /-- What the main loop has taken and not applied yet, with the index of each entry. -/
  pending : List (Nat × LogEntry) := []

/-- `takePendingApply`, with the indexes. -/
def pendingApply (n : RaftNode) : List (Nat × LogEntry) :=
  (List.range' (n.lastApplied + 1) (n.commitIndex - n.lastApplied)).filterMap fun i =>
    n.log[i]?.map fun entry => (i, entry)

theorem takePendingApply_eq (n : RaftNode) :
    n.takePendingApply.2 = (pendingApply n).map Prod.snd := by
  simp only [RaftNode.takePendingApply, pendingApply, List.map_filterMap, Option.map_map]
  refine List.filterMap_congr fun i _ => ?_
  cases n.log[i]? <;> rfl

inductive Event where
  /-- A thread begins to handle a request. -/
  | start (w : Write) (due : Bool)
  /-- Task number `i` makes its next call. -/
  | advance (i : Nat)
  | get (key : Bytes)
  /-- `takePendingApply`, when everything taken before is applied. -/
  | take
  /-- The main loop applies the next entry. -/
  | apply

/-- The write that begins. -/
def Event.started : Event → Option Write
  | .start w _ => some w
  | _ => none

def getRequest (key : Bytes) : RespValue :=
  .array (some [.simpleString (ascii "GET"), .simpleString key])

theorem call_GET (s : ServerState) (key : Bytes) :
    (Handler.GET (getRequest key)).call s = Method.call (do
      let result ← onKVStore (KVStore.getValue key)
      if result.isEmpty then return encode (.bulkString none) else return result) s := rfl

/-- **`GET` with room** answers what the store holds, and changes no binding. -/
theorem call_GET_room {s : ServerState} {m : Bytes → Option RespValue} {key : Bytes}
    (h : s.kvstore.Contents m) (hroom : s.kvstore.Room key) :
    ∃ kv, (Handler.GET (getRequest key)).call s
        = (.ok ((m key).elim (encode (.bulkString none)) encode), { s with kvstore := kv }) ∧
      kv.Contents m := by
  obtain ⟨kv, hget, hcontents⟩ := KVStore.getValue_contents h hroom
  refine ⟨kv, ?_, hcontents⟩
  have hpart : (onKVStore (KVStore.getValue key)).call s
      = (.ok (Shard.answer (m key)), { s with kvstore := kv }) := by
    rw [onKVStore, Method.call_part, hget]
  rw [call_GET, Method.call_bind_ok hpart]
  cases hm : m key with
  | none => rfl
  | some v =>
    have hne : (encode v).isEmpty = false := by simpa using encode_ne_nil v
    simp only [Shard.answer, hne, Option.elim_some]
    rfl

namespace Workers

def begin (s : Workers) (w : Write) (due : Bool) : Workers :=
  let alone := s.tasks.all fun t => t.write.key ≠ w.key || t.stage = .done
  { s with tasks := s.tasks ++ [{ write := w, due, alone }] }

def advance (s : Workers) (i : Nat) : Workers :=
  match s.tasks[i]? with
  | none => s
  | some t =>
    if t.stage.Over then s
    else
      match t.method.call s.server with
      | (.ok _, server) =>
        { s with server
                 tasks := s.tasks.set i { t with stage := t.stage.next }
                 through := Function.update s.through t.stage (s.through t.stage ++ [i]) }
      | (.error _, server) =>
        { s with server, tasks := s.tasks.set i { t with stage := .failed } }

def take (s : Workers) : Workers :=
  match s.pending, s.server.raftGroups.lookup s.gid with
  | [], some rn =>
    let groups := s.server.raftGroups.map fun g =>
      if g.1 = s.gid then (s.gid, rn.takePendingApply.1) else g
    { s with server := { s.server with raftGroups := groups }, pending := pendingApply rn }
  | _, _ => s

/-- What `handle_noAOF` throws ends the main loop. -/
def apply (s : Workers) : Workers :=
  match s.pending with
  | [] => s
  | (_, entry) :: rest =>
    match (Handler.handleNoAOF (makeCommand entry.command)).call s.server with
    | (.ok _, server) => { s with server, pending := rest }
    | (.error _, server) => { s with server, pending := [] }

def step (s : Workers) : Event → Workers
  | .start w due => s.begin w due
  | .advance i => s.advance i
  | .get key => { s with server := ((Handler.GET (getRequest key)).call s.server).2 }
  | .take => s.take
  | .apply => s.apply

/-! ## What one call does -/

/-- A call of task `i` that returned, and the server after it. -/
def passed (s : Workers) (i : Nat) (t : Task) (server : ServerState) : Workers :=
  { s with server
           tasks := s.tasks.set i { t with stage := t.stage.next }
           through := Function.update s.through t.stage (s.through t.stage ++ [i]) }

/-- Everything that `advance` can do. -/
theorem advance_cases (s : Workers) (i : Nat) :
    s.advance i = s ∨
    (∃ t server, s.tasks[i]? = some t ∧ ¬ t.stage.Over ∧
      t.method.call s.server = (.ok (), server) ∧ s.advance i = s.passed i t server) ∨
    (∃ t e server, s.tasks[i]? = some t ∧ ¬ t.stage.Over ∧
      t.method.call s.server = (.error e, server) ∧
      s.advance i = { s with server, tasks := s.tasks.set i { t with stage := .failed } }) := by
  unfold advance
  cases ht : s.tasks[i]? with
  | none => exact Or.inl rfl
  | some t =>
    by_cases hover : t.stage.Over
    · exact Or.inl (if_pos hover)
    · refine Or.inr ?_
      simp only [if_neg hover]
      cases hcall : t.method.call s.server with
      | mk outcome server =>
        cases outcome with
        | ok a => exact Or.inl ⟨t, server, rfl, hover, hcall, rfl⟩
        | error e => exact Or.inr ⟨t, e, server, rfl, hover, hcall, rfl⟩

theorem advance_ok {s : Workers} {i : Nat} {t : Task} {server : ServerState}
    (ht : s.tasks[i]? = some t) (hover : ¬ t.stage.Over)
    (hcall : t.method.call s.server = (.ok (), server)) : s.advance i = s.passed i t server := by
  unfold advance
  simp only [ht, if_neg hover, hcall]
  rfl

theorem take_tasks (s : Workers) : s.take.tasks = s.tasks ∧ s.take.through = s.through := by
  unfold take
  split <;> exact ⟨rfl, rfl⟩

theorem apply_tasks (s : Workers) : s.apply.tasks = s.tasks ∧ s.apply.through = s.through := by
  unfold apply
  split
  · exact ⟨rfl, rfl⟩
  · split <;> exact ⟨rfl, rfl⟩

/-! ## The writes of a run -/

theorem map_write_set {tasks : List Task} {i : Nat} {t : Task} (ht : tasks[i]? = some t)
    (stage : Stage) : (tasks.set i { t with stage }).map Task.write = tasks.map Task.write := by
  have hlt := (List.getElem?_eq_some_iff.mp ht).1
  have hwrite : (tasks.map Task.write)[i]? = some t.write := by rw [List.getElem?_map, ht]; rfl
  rw [List.map_set]
  refine List.ext_getElem? fun j => ?_
  by_cases hj : j = i
  · rw [hj, List.getElem?_set_self (by simpa using hlt), hwrite]
  · rw [List.getElem?_set_ne (Ne.symm hj)]

theorem writes_step (s : Workers) (e : Event) :
    (s.step e).tasks.map Task.write = s.tasks.map Task.write ++ e.started.toList := by
  cases e with
  | start w due => simp [step, begin, Event.started]
  | advance i =>
    have hsame : (s.advance i).tasks.map Task.write = s.tasks.map Task.write := by
      obtain heq | ⟨t, server, ht, -, -, heq⟩ | ⟨t, e, server, ht, -, -, heq⟩ := s.advance_cases i
      · rw [heq]
      · rw [heq]
        exact map_write_set ht _
      · rw [heq]
        exact map_write_set ht _
    show (s.advance i).tasks.map Task.write = _
    rw [hsame]
    exact (List.append_nil _).symm
  | get key => exact (List.append_nil _).symm
  | take =>
    show s.take.tasks.map Task.write = _
    rw [s.take_tasks.1]
    exact (List.append_nil _).symm
  | apply =>
    show s.apply.tasks.map Task.write = _
    rw [s.apply_tasks.1]
    exact (List.append_nil _).symm

/-- The tasks of a run are the writes that have begun in it, in this order. -/
theorem writes_exec (es : List Event) : ∀ s : Workers,
    (exec step s es).tasks.map Task.write = s.tasks.map Task.write ++ es.filterMap Event.started := by
  induction es with
  | nil => intro s; simp
  | cons e es ih =>
    intro s
    rw [exec_cons, ih, writes_step, List.append_assoc]
    cases he : e.started <;> simp [he]

/-! ## The stages in order

A handler goes through its calls in one order, so who has made the third one has made the first two.
-/

/-- What the stages of the tasks say about the order of their calls. -/
structure Staged (s : Workers) : Prop where
  /-- Who has made a call is past it. -/
  past : ∀ st, ∀ i ∈ s.through st, ∃ t, s.tasks[i]? = some t ∧ st.rank < t.stage.rank
  /-- Who has not thrown has made all calls up to its stage. -/
  came : ∀ (i : Nat) (t : Task), s.tasks[i]? = some t → t.stage ≠ .failed →
    ∀ st : Stage, st.rank < t.stage.rank → i ∈ s.through st
  before : ∀ st st' : Stage, st'.rank < st.rank → ∀ i ∈ s.through st, i ∈ s.through st'
  nodup : ∀ st, (s.through st).Nodup
  /-- The earlier writes of the key of a task that began alone are answered. -/
  alone : ∀ (i : Nat) (t : Task), s.tasks[i]? = some t → t.alone = true →
    ∀ (j : Nat) (t' : Task), j < i → s.tasks[j]? = some t' → t'.write.key = t.write.key →
      t'.stage = .done
  /-- So they have made every call before it. -/
  order : ∀ (st : Stage) (x : List Nat) (i : Nat) (y : List Nat), s.through st = x ++ i :: y →
    ∀ t : Task, s.tasks[i]? = some t → t.alone = true →
      ∀ j ∈ y, ∀ t' : Task, s.tasks[j]? = some t' → t'.write.key = t.write.key → i < j

theorem staged_new (server : ServerState) (gid : Nat) : Staged { server, gid } where
  past := by simp
  came := by simp
  before := by simp
  nodup := by simp
  alone := by simp
  order := by simp

theorem Staged.of_eq {s s' : Workers} (h : s.Staged) (htasks : s'.tasks = s.tasks)
    (hthrough : s'.through = s.through) : s'.Staged := by
  obtain ⟨past, came, before, nodup, alone, order⟩ := h
  refine ⟨?_, ?_, ?_, ?_, ?_, ?_⟩ <;> simp only [htasks, hthrough] <;> assumption

variable {s : Workers}

/-- The tasks after a new one has begun. -/
theorem begin_task {w : Write} {due : Bool} {i : Nat} {t : Task}
    (h : (s.begin w due).tasks[i]? = some t) :
    s.tasks[i]? = some t ∨ (i = s.tasks.length ∧ t.stage = .push ∧ t.write = w ∧
      (t.alone = true → ∀ u ∈ s.tasks, u.write.key = w.key → u.stage = .done)) := by
  rcases Nat.lt_trichotomy i s.tasks.length with hlt | heq | hgt
  · exact Or.inl (by rwa [begin, List.getElem?_append_left hlt] at h)
  · subst heq
    simp only [begin, List.getElem?_concat_length, Option.some.injEq] at h
    subst h
    refine Or.inr ⟨rfl, rfl, rfl, fun halone u hu hkey => ?_⟩
    have hu := List.all_eq_true.mp halone u hu
    simpa [hkey] using hu
  · have hlen : (s.begin w due).tasks.length = s.tasks.length + 1 := by simp [begin]
    have hlt := (List.getElem?_eq_some_iff.mp h).1
    omega

theorem begin_old {i : Nat} {t : Task} (h : s.tasks[i]? = some t) (w : Write) (due : Bool) :
    (s.begin w due).tasks[i]? = some t := by
  rw [begin, List.getElem?_append_left (List.getElem?_eq_some_iff.mp h).1]
  exact h

theorem Staged.of_begin (h : s.Staged) (w : Write) (due : Bool) : (s.begin w due).Staged where
  past := by
    intro st i hi
    obtain ⟨t, ht, hrank⟩ := h.past st i hi
    exact ⟨t, begin_old ht w due, hrank⟩
  came := by
    intro i t ht hfailed st hrank
    rcases begin_task ht with ht | ⟨-, hstage, -⟩
    · exact h.came i t ht hfailed st hrank
    · rw [hstage] at hrank
      exact absurd hrank (Nat.not_lt_zero _)
  before := h.before
  nodup := h.nodup
  alone := by
    intro i t ht halone j t' hlt ht' hkey
    rcases begin_task ht with ht | ⟨hi, -, hw, hall⟩
    · have hj : j < s.tasks.length := hlt.trans (List.getElem?_eq_some_iff.mp ht).1
      rw [begin, List.getElem?_append_left hj] at ht'
      exact h.alone i t ht halone j t' hlt ht' hkey
    · rw [begin, List.getElem?_append_left (hi ▸ hlt)] at ht'
      exact hall halone t' (List.mem_of_getElem? ht') (by rw [hkey, hw])
  order := by
    intro st x i y hthrough t ht halone j hj t' ht' hkey
    -- who has made a call is not the new one
    have hin : ∀ k ∈ s.through st, ∀ u, (s.begin w due).tasks[k]? = some u →
        s.tasks[k]? = some u := by
      intro k hk u hu
      obtain ⟨v, hv, -⟩ := h.past st k hk
      rw [begin_old hv w due] at hu
      exact hv.trans hu
    have hthrough : s.through st = x ++ i :: y := hthrough
    exact h.order st x i y hthrough t (hin i (by rw [hthrough]; simp) t ht) halone j hj t'
      (hin j (by rw [hthrough]; simp [hj]) t' ht') hkey

/-- A task that goes on to another stage is otherwise as it was. -/
theorem set_stage {tasks : List Task} {i j : Nat} {t u : Task} {stage : Stage}
    (ht : tasks[i]? = some t) (hu : (tasks.set i { t with stage })[j]? = some u) :
    (j = i ∧ u = { t with stage }) ∨ (j ≠ i ∧ tasks[j]? = some u) := by
  by_cases hj : j = i
  · subst hj
    rw [List.getElem?_set_self (List.getElem?_eq_some_iff.mp ht).1, Option.some.injEq] at hu
    exact Or.inl ⟨rfl, hu.symm⟩
  · rw [List.getElem?_set_ne (Ne.symm hj)] at hu
    exact Or.inr ⟨hj, hu⟩

/-- Its write and how it began stay. -/
theorem of_set_stage {tasks : List Task} {i j : Nat} {t u : Task} {stage : Stage}
    (ht : tasks[i]? = some t) (hu : (tasks.set i { t with stage })[j]? = some u) :
    ∃ u₀, tasks[j]? = some u₀ ∧ u₀.write = u.write ∧ u₀.alone = u.alone := by
  rcases set_stage ht hu with ⟨rfl, rfl⟩ | ⟨-, hu⟩
  · exact ⟨t, ht, rfl, rfl⟩
  · exact ⟨u, hu, rfl, rfl⟩

/-- A change of stage of a task that is not over. -/
theorem Staged.alone_set {i : Nat} {t : Task} (h : s.Staged) (ht : s.tasks[i]? = some t)
    (hover : ¬ t.stage.Over) (stage : Stage) :
    ∀ (j : Nat) (u : Task), (s.tasks.set i { t with stage })[j]? = some u → u.alone = true →
      ∀ (k : Nat) (u' : Task), k < j → (s.tasks.set i { t with stage })[k]? = some u' →
        u'.write.key = u.write.key → u'.stage = .done := by
  intro j u hu halone k u' hlt hu' hkey
  obtain ⟨u₀, hu₀, hwrite, halone₀⟩ := of_set_stage ht hu
  rcases set_stage ht hu' with ⟨rfl, rfl⟩ | ⟨-, hu'⟩
  · -- the task that goes on is not answered yet, so nothing later began alone
    have hdone := h.alone j u₀ hu₀ (halone₀.trans halone) k t hlt ht (by rw [hwrite]; exact hkey)
    exact absurd (Or.inl hdone) hover
  · exact h.alone j u₀ hu₀ (halone₀.trans halone) k u' hlt hu' (by rw [hwrite]; exact hkey)

theorem Stage.rank_next {st : Stage} (h : ¬ st.Over) : st.next.rank = st.rank + 1 := by
  cases st <;> first | rfl | exact absurd (by simp [Stage.Over]) h

theorem Stage.rank_le_failed (st : Stage) : st.rank ≤ Stage.failed.rank := by
  cases st <;> decide

theorem Stage.rank_injective : Function.Injective Stage.rank := by
  intro st st' h
  cases st <;> cases st' <;> first | rfl | exact absurd h (by decide)

/-- Who makes the call of its stage has not made it before. -/
theorem Staged.not_through {i : Nat} {t : Task} (h : s.Staged) (ht : s.tasks[i]? = some t) :
    i ∉ s.through t.stage := by
  intro hi
  obtain ⟨u, hu, hrank⟩ := h.past t.stage i hi
  rw [ht, Option.some.injEq] at hu
  exact absurd hrank (by rw [hu]; exact Nat.lt_irrefl _)

theorem through_passed_self (s : Workers) (i : Nat) (t : Task) (server : ServerState) :
    (s.passed i t server).through t.stage = s.through t.stage ++ [i] := by
  simp [passed]

theorem through_passed_ne {st : Stage} {t : Task} (h : st ≠ t.stage) (s : Workers) (i : Nat)
    (server : ServerState) : (s.passed i t server).through st = s.through st := by
  simp [passed, h]

theorem mem_through_passed {i j : Nat} {t : Task} {server : ServerState} {st : Stage} :
    j ∈ (s.passed i t server).through st ↔ j ∈ s.through st ∨ (st = t.stage ∧ j = i) := by
  by_cases hst : st = t.stage
  · subst hst
    simp [through_passed_self]
  · simp [through_passed_ne hst, hst]

theorem Staged.of_passed {i : Nat} {t : Task} {server : ServerState} (h : s.Staged)
    (ht : s.tasks[i]? = some t) (hover : ¬ t.stage.Over) : (s.passed i t server).Staged where
  past := by
    intro st j hj
    rcases mem_through_passed.mp hj with hj | ⟨rfl, rfl⟩
    · obtain ⟨u, hu, hrank⟩ := h.past st j hj
      by_cases hji : j = i
      · subst hji
        rw [ht, Option.some.injEq] at hu
        subst hu
        refine ⟨_, List.getElem?_set_self (List.getElem?_eq_some_iff.mp ht).1, ?_⟩
        exact hrank.trans (by rw [Stage.rank_next hover]; exact Nat.lt_succ_self _)
      · exact ⟨u, by rw [passed, List.getElem?_set_ne (Ne.symm hji)]; exact hu, hrank⟩
    · refine ⟨_, List.getElem?_set_self (List.getElem?_eq_some_iff.mp ht).1, ?_⟩
      rw [Stage.rank_next hover]
      exact Nat.lt_succ_self _
  came := by
    intro j u hu hfailed st hrank
    rw [mem_through_passed]
    rcases set_stage ht hu with ⟨rfl, rfl⟩ | ⟨-, hu⟩
    · have hrank : st.rank < t.stage.next.rank := hrank
      rw [Stage.rank_next hover] at hrank
      rcases Nat.lt_succ_iff_lt_or_eq.mp hrank with hlt | heq
      · exact Or.inl (h.came j t ht (fun hf => hover (Or.inr hf)) st hlt)
      · exact Or.inr ⟨Stage.rank_injective heq, rfl⟩
    · exact Or.inl (h.came j u hu hfailed st hrank)
  before := by
    intro st st' hrank j hj
    rw [mem_through_passed] at hj ⊢
    rcases hj with hj | ⟨rfl, rfl⟩
    · exact Or.inl (h.before st st' hrank j hj)
    · exact Or.inl (h.came j t ht (fun hf => hover (Or.inr hf)) st' hrank)
  nodup := by
    intro st
    by_cases hst : st = t.stage
    · subst hst
      rw [through_passed_self, List.nodup_append]
      refine ⟨h.nodup _, List.nodup_singleton i, ?_⟩
      intro a ha b hb hab
      rw [List.mem_singleton] at hb
      rw [hab, hb] at ha
      exact h.not_through ht ha
    · rw [through_passed_ne hst]
      exact h.nodup st
  alone := h.alone_set ht hover t.stage.next
  order := by
    intro st x j y hthrough u hu halone k hk u' hu' hkey
    obtain ⟨u₀, hu₀, hwrite, halone₀⟩ := of_set_stage ht hu
    obtain ⟨v₀, hv₀, hwrite', -⟩ := of_set_stage ht hu'
    have hkey₀ : v₀.write.key = u₀.write.key := by rw [hwrite, hwrite', hkey]
    by_cases hst : st = t.stage
    · subst hst
      rw [through_passed_self] at hthrough
      rcases List.eq_nil_or_concat y with rfl | ⟨y', last, rfl⟩
      · exact absurd hk (by simp)
      · rw [List.concat_eq_append, ← List.cons_append, ← List.append_assoc] at hthrough
        obtain ⟨hinit, hlast⟩ := List.append_inj' hthrough rfl
        rw [List.concat_eq_append, List.mem_append] at hk
        rcases hk with hk | hk
        · exact h.order _ x j y' hinit u₀ hu₀ (halone₀.trans halone) k hk v₀ hv₀ hkey₀
        · -- the new call is the one of task `i`, which is not answered
          have hki : k = i := by
            rw [List.mem_singleton] at hk
            rw [hk]
            exact (List.singleton_inj.mp hlast).symm
          subst hki
          have hv₀' : v₀ = t := Option.some.inj (hv₀.symm.trans ht)
          rcases Nat.lt_trichotomy j k with hlt | heq | hgt
          · exact hlt
          · subst heq
            exact absurd (by rw [hinit]; simp) (h.not_through ht)
          · have hdone := h.alone j u₀ hu₀ (halone₀.trans halone) k v₀ hgt hv₀ hkey₀
            exact absurd (Or.inl (hv₀' ▸ hdone)) hover
    · rw [through_passed_ne hst] at hthrough
      exact h.order st x j y hthrough u₀ hu₀ (halone₀.trans halone) k hk v₀ hv₀ hkey₀

theorem Staged.of_failed {i : Nat} {t : Task} {server : ServerState} (h : s.Staged)
    (ht : s.tasks[i]? = some t) (hover : ¬ t.stage.Over) :
    ({ s with server, tasks := s.tasks.set i { t with stage := .failed } } : Workers).Staged where
  past := by
    intro st j hj
    obtain ⟨u, hu, hrank⟩ := h.past st j hj
    by_cases hji : j = i
    · subst hji
      rw [ht, Option.some.injEq] at hu
      subst hu
      exact ⟨_, List.getElem?_set_self (List.getElem?_eq_some_iff.mp ht).1,
        hrank.trans_le (Stage.rank_le_failed _)⟩
    · exact ⟨u, by rw [List.getElem?_set_ne (Ne.symm hji)]; exact hu, hrank⟩
  came := by
    intro j u hu hfailed st hrank
    rcases set_stage ht hu with ⟨rfl, rfl⟩ | ⟨-, hu⟩
    · exact absurd rfl hfailed
    · exact h.came j u hu hfailed st hrank
  before := h.before
  nodup := h.nodup
  alone := h.alone_set ht hover .failed
  order := by
    intro st x j y hthrough u hu halone k hk u' hu' hkey
    obtain ⟨u₀, hu₀, hwrite, halone₀⟩ := of_set_stage ht hu
    obtain ⟨v₀, hv₀, hwrite', -⟩ := of_set_stage ht hu'
    exact h.order st x j y hthrough u₀ hu₀ (halone₀.trans halone) k hk v₀ hv₀
      (by rw [hwrite, hwrite', hkey])

theorem Staged.of_advance (h : s.Staged) (i : Nat) : (s.advance i).Staged := by
  obtain heq | ⟨t, server, ht, hover, -, heq⟩ | ⟨t, e, server, ht, hover, -, heq⟩ :=
    s.advance_cases i
  · rw [heq]
    exact h
  · rw [heq]
    exact h.of_passed ht hover
  · rw [heq]
    exact h.of_failed ht hover

/-- The stages are in order in every run. -/
theorem Staged.step (h : s.Staged) (e : Event) : (s.step e).Staged := by
  cases e with
  | start w due => exact h.of_begin w due
  | advance i => exact h.of_advance i
  | get key => exact h.of_eq rfl rfl
  | take => exact h.of_eq s.take_tasks.1 s.take_tasks.2
  | apply => exact h.of_eq s.apply_tasks.1 s.apply_tasks.2

end Workers
end Server
end KvJet
