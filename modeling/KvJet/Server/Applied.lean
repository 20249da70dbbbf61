import KvJet.Server.Reads

/-!
# What an applied command does to the store

The main loop makes a request of the text of an entry and hands it to `handle_noAOF`. Of the
server this reaches the store and nothing else (`call_applyCommand`), by one call of `KVStore` or
by none (`perform`). A text that reads as one of the four commands is applied if the store has
room for its key (`CanApply`), and on any other the main loop gets an exception.
-/

namespace KvJet
namespace Server

open Resp Store

/-- One turn of the apply loop; the reply is dropped. -/
def applyCommand (cmd : Bytes) : ServerM Unit := do
  let _ ← Handler.handleNoAOF (makeCommand cmd)

/-- What it does to the store. -/
def perform (cmd : Bytes) : Method Fault (KVStore RespValue) Unit :=
  match tokens cmd with
  | [] => throw (.exception "Empty request!!")
  | command :: args =>
    if command = ascii "GET" then
      match args with
      | [key] => do let _ ← KVStore.getValue key
      | _ => throw (.exception "GET: Wrong number of arguments")
    else if command = ascii "SET" then
      match args with
      | [key, value] => do let _ ← KVStore.set key (.simpleString value)
      | _ => throw (.exception "SET: Wrong number of arguments")
    else if command = ascii "DEL" then
      match args with
      | [key] => do let _ ← KVStore.del key
      | _ => throw (.exception "DEL_noAOF: Usage: DEL key")
    else if command = ascii "EXIST" then
      match args with
      | [key] => do let _ ← KVStore.get key
      | _ => throw (.exception "EXIST: Usage: EXIST key")
    else throw (.exception "Unknown request!!")

/-- The text reads as a command, and the store has room for its key. -/
def CanApply (kv : KVStore RespValue) (cmd : Bytes) : Prop :=
  match tokens cmd with
  | [command, key, _] => command = ascii "SET" ∧ kv.Room key
  | [command, key] =>
    (command = ascii "GET" ∨ command = ascii "DEL" ∨ command = ascii "EXIST") ∧ kv.ReadRoom key
  | _ => False

/-- The command that a text reads as. -/
inductive Order (cmd : Bytes) : Prop
  | get (key : Bytes) (htokens : tokens cmd = [ascii "GET", key])
  | set (key value : Bytes) (htokens : tokens cmd = [ascii "SET", key, value])
  | del (key : Bytes) (htokens : tokens cmd = [ascii "DEL", key])
  | exist (key : Bytes) (htokens : tokens cmd = [ascii "EXIST", key])
  | refused (e : Fault) (hperform : perform cmd = throw e) (hcan : ∀ kv, ¬ CanApply kv cmd)

theorem order (cmd : Bytes) : Order cmd := by
  cases htokens : tokens cmd with
  | nil =>
    refine .refused (.exception "Empty request!!") (by rw [perform, htokens]) fun kv h => ?_
    rw [CanApply, htokens] at h
    exact h
  | cons command args =>
    -- a command that is none of the four, or has another number of arguments
    have hrefused : ∀ e, perform cmd = throw e →
        (∀ key value, args = [key, value] → command ≠ ascii "SET") →
        (∀ key, args = [key] →
          ¬ (command = ascii "GET" ∨ command = ascii "DEL" ∨ command = ascii "EXIST")) →
        Order cmd := by
      intro e hperform hthree htwo
      refine .refused e hperform fun kv h => ?_
      unfold CanApply at h
      rw [htokens] at h
      split at h
      · rename_i heq
        cases heq
        exact hthree _ _ rfl h.1
      · rename_i heq
        cases heq
        exact htwo _ rfl h.1
      · exact h
    unfold perform at hrefused
    rw [htokens] at hrefused
    dsimp only at hrefused
    by_cases hget : command = ascii "GET"
    · subst hget
      rw [if_pos rfl] at hrefused
      match args with
      | [key] => exact .get key htokens
      | [] | _ :: _ :: _ => exact hrefused _ rfl (fun _ _ _ => by decide) (by simp)
    rw [if_neg hget] at hrefused
    by_cases hset : command = ascii "SET"
    · subst hset
      rw [if_pos rfl] at hrefused
      match args with
      | [key, value] => exact .set key value htokens
      | [] | [_] | _ :: _ :: _ :: _ => exact hrefused _ rfl (by simp) fun _ _ => by decide
    rw [if_neg hset] at hrefused
    by_cases hdel : command = ascii "DEL"
    · subst hdel
      rw [if_pos rfl] at hrefused
      match args with
      | [key] => exact .del key htokens
      | [] | _ :: _ :: _ => exact hrefused _ rfl (fun _ _ _ => by decide) (by simp)
    rw [if_neg hdel] at hrefused
    by_cases hexist : command = ascii "EXIST"
    · subst hexist
      rw [if_pos rfl] at hrefused
      match args with
      | [key] => exact .exist key htokens
      | [] | _ :: _ :: _ => exact hrefused _ rfl (fun _ _ _ => by decide) (by simp)
    rw [if_neg hexist] at hrefused
    exact hrefused _ rfl (fun _ _ _ => hset) fun _ _ => by simp [hget, hdel, hexist]

section Calls

variable {s : ServerState} {α : Type}

theorem handleNoAOF_command (command : Bytes) (args : List Bytes) :
    let request := RespValue.array (some ((command :: args).map .simpleString))
    Handler.handleNoAOF request
      = if command = ascii "GET" then Handler.GET request
        else if command = ascii "SET" then Handler.SETNoAOF request
        else if command = ascii "DEL" then Handler.DELNoAOF request
        else if command = ascii "EXIST" then Handler.EXIST request
        else throw (.exception "Unknown request!!") := rfl

/-- A `GET` of another length throws. -/
theorem call_GET_length {ts : List Bytes} (h : ts.length ≠ 2) :
    (Handler.GET (.array (some (ts.map .simpleString)))).call s
      = (.error (.exception "GET: Wrong number of arguments"), s) := by
  have hlen : ((ts.map RespValue.simpleString).map some).length ≠ 2 := by simpa using h
  rw [Handler.GET, show Handler.elementsOf _ = .ok _ from rfl,
    Method.call_bind_ok (Method.call_lift _ s), if_pos hlen]
  rfl

theorem call_EXIST_length {ts : List Bytes} (h : ts.length ≠ 2) :
    (Handler.EXIST (.array (some (ts.map .simpleString)))).call s
      = (.error (.exception "EXIST: Usage: EXIST key"), s) := by
  have hlen : ((ts.map RespValue.simpleString).map some).length ≠ 2 := by simpa using h
  rw [Handler.EXIST, show Handler.elementsOf _ = .ok _ from rfl,
    Method.call_bind_ok (Method.call_lift _ s), if_pos hlen]
  rfl

/-- A handler that makes one call of the store and then only writes its reply. -/
theorem call_reply_dropped (m : Method Fault (KVStore RespValue) α) (f : α → Bytes) :
    Method.call (do
      let _ ← (do
        let a ← onKVStore m
        return f a : ServerM Bytes)) s
      = (onKVStore (do let _ ← m)).call s := by
  have hpart : (onKVStore m).call s = ((m.call s.kvstore).1, { s with
      kvstore := (m.call s.kvstore).2 }) := rfl
  have hdrop : (onKVStore (do let _ ← m)).call s
      = ((Method.call (do let _ ← m) s.kvstore).1, { s with
          kvstore := (Method.call (do let _ ← m) s.kvstore).2 }) := rfl
  rw [hdrop]
  cases hm : m.call s.kvstore with
  | mk x kv =>
    rw [hm] at hpart
    cases x with
    | ok a =>
      rw [Method.call_bind_ok hm, Method.call_bind_ok (Method.call_bind_ok hpart _)]
      rfl
    | error e =>
      rw [Method.call_bind_error hm, Method.call_bind_error (Method.call_bind_error hpart _)]

/-- **An applied command reaches the store only.** -/
theorem call_applyCommand (cmd : Bytes) (s : ServerState) :
    (applyCommand cmd).call s = (onKVStore (perform cmd)).call s := by
  unfold applyCommand makeCommand perform
  cases htokens : tokens cmd with
  | nil => rfl
  | cons command args =>
    have herror : ∀ {m : ServerM Bytes} {e : Fault}, m.call s = (.error e, s) →
        Method.call (do let _ ← m) s = (onKVStore (throw e)).call s := fun h =>
      Method.call_bind_error h _
    rw [handleNoAOF_command]
    dsimp only
    by_cases hget : command = ascii "GET"
    · subst hget
      rw [if_pos rfl, if_pos rfl]
      match args with
      | [key] =>
        have hreply : Handler.GET (getRequest key) = (do
            let result ← onKVStore (KVStore.getValue key)
            return if result.isEmpty then encode (.bulkString none) else result) :=
          bind_congr (x := onKVStore (KVStore.getValue key)) fun result => by
            cases result <;> rfl
        show Method.call (do let _ ← Handler.GET (getRequest key)) s = _
        rw [hreply]
        exact call_reply_dropped (KVStore.getValue key) _
      | [] | _ :: _ :: rest => exact herror (call_GET_length (by simp))
    rw [if_neg hget, if_neg hget]
    by_cases hset : command = ascii "SET"
    · subst hset
      rw [if_pos rfl, if_pos rfl]
      match args with
      | [key, value] => exact call_reply_dropped (KVStore.set key (.simpleString value)) _
      | [] | [_] | _ :: _ :: _ :: rest => exact herror (call_SETNoAOF_length (by simp))
    rw [if_neg hset, if_neg hset]
    by_cases hdel : command = ascii "DEL"
    · subst hdel
      rw [if_pos rfl, if_pos rfl]
      match args with
      | [key] => exact call_reply_dropped (KVStore.del key) _
      | [] | _ :: _ :: rest => exact herror (call_DELNoAOF_length (by simp))
    rw [if_neg hdel, if_neg hdel]
    by_cases hexist : command = ascii "EXIST"
    · subst hexist
      rw [if_pos rfl, if_pos rfl]
      match args with
      | [key] => exact call_reply_dropped (KVStore.get key) _
      | [] | _ :: _ :: rest => exact herror (call_EXIST_length (by simp))
    rw [if_neg hexist, if_neg hexist]
    exact herror rfl

end Calls

/-! ## When it is applied

An entry is applied with the handlers of the replay, which log nothing and know no group. -/

section Perform

variable {kv kv' : KVStore RespValue} {m : Bytes → Option RespValue} {cmd : Bytes}

theorem perform_get {key : Bytes} (h : tokens cmd = [ascii "GET", key]) :
    perform cmd = (do let _ ← KVStore.getValue key) := by
  unfold perform
  rw [h]
  exact if_pos rfl

theorem perform_set {key value : Bytes} (h : tokens cmd = [ascii "SET", key, value]) :
    perform cmd = (do let _ ← KVStore.set key (.simpleString value)) := by
  unfold perform
  rw [h]
  dsimp only
  rw [if_neg (by decide), if_pos rfl]

theorem perform_del {key : Bytes} (h : tokens cmd = [ascii "DEL", key]) :
    perform cmd = (do let _ ← KVStore.del key) := by
  unfold perform
  rw [h]
  dsimp only
  rw [if_neg (by decide), if_neg (by decide), if_pos rfl]

theorem perform_exist {key : Bytes} (h : tokens cmd = [ascii "EXIST", key]) :
    perform cmd = (do let _ ← KVStore.get key) := by
  unfold perform
  rw [h]
  dsimp only
  rw [if_neg (by decide), if_neg (by decide), if_neg (by decide), if_pos rfl]

theorem call_dropped {α : Type} {mk : Method Fault (KVStore RespValue) α} {a : α}
    (h : mk.call kv = (.ok a, kv')) : Method.call (do let _ ← mk) kv = (.ok (), kv') :=
  Method.call_bind_ok h _

theorem call_dropped_snd {α : Type} (mk : Method Fault (KVStore RespValue) α) :
    (Method.call (do let _ ← mk) kv).2 = (mk.call kv).2 := by
  cases hm : mk.call kv with
  | mk x kv' =>
    cases x with
    | ok a => rw [call_dropped hm]
    | error e => rw [Method.call_bind_error hm]

/-- **A command that can be applied is applied**: a write takes its effect, and a read none. -/
theorem perform_spec (h : kv.Contents m) (hcan : CanApply kv cmd) :
    ∃ kv', (perform cmd).call kv = (.ok (), kv') ∧ kv'.Contents (effects m (asks cmd).toList) := by
  unfold CanApply at hcan
  cases order cmd with
  | get key htokens =>
    rw [htokens] at hcan
    obtain ⟨kv', hcall, hcontents⟩ := KVStore.getValue_readRoom h hcan.2
    refine ⟨kv', ?_, ?_⟩
    · rw [perform_get htokens]
      exact call_dropped hcall
    · rw [asks, htokens]
      exact hcontents
  | set key value htokens =>
    rw [htokens] at hcan
    obtain ⟨r, kv', hcall, hcontents⟩ := KVStore.set_contents h (.simpleString value) hcan.2
    refine ⟨kv', ?_, ?_⟩
    · rw [perform_set htokens]
      exact call_dropped hcall
    · rw [asks, htokens]
      exact hcontents
  | del key htokens =>
    rw [htokens] at hcan
    obtain ⟨kv', hcall, hcontents⟩ := KVStore.del_readRoom h hcan.2
    refine ⟨kv', ?_, ?_⟩
    · rw [perform_del htokens]
      exact call_dropped hcall
    · rw [asks, htokens]
      exact hcontents
  | exist key htokens =>
    rw [htokens] at hcan
    obtain ⟨kv', hcall, hcontents⟩ := KVStore.get_readRoom h hcan.2
    refine ⟨kv', ?_, ?_⟩
    · rw [perform_exist htokens]
      exact call_dropped hcall
    · rw [asks, htokens]
      exact hcontents
  | refused e hperform hnot => exact absurd hcan (hnot kv)

theorem perform_returned (h : kv.Contents m) (hcall : (perform cmd).call kv = (.ok (), kv')) :
    CanApply kv cmd := by
  cases order cmd with
  | get key htokens =>
    rw [perform_get htokens] at hcall
    obtain ⟨r, hget⟩ := Write.call_drop hcall
    rw [CanApply, htokens]
    exact ⟨Or.inl rfl, KVStore.readRoom_of_getValue h hget⟩
  | set key value htokens =>
    rw [perform_set htokens] at hcall
    obtain ⟨r, hset⟩ := Write.call_drop hcall
    rw [CanApply, htokens]
    exact ⟨rfl, (KVStore.set_returned h hset).1⟩
  | del key htokens =>
    rw [perform_del htokens] at hcall
    obtain ⟨r, hdel⟩ := Write.call_drop hcall
    rw [CanApply, htokens]
    exact ⟨Or.inr (Or.inl rfl), KVStore.readRoom_of_del h hdel⟩
  | exist key htokens =>
    rw [perform_exist htokens] at hcall
    obtain ⟨r, hget⟩ := Write.call_drop hcall
    rw [CanApply, htokens]
    exact ⟨Or.inr (Or.inr rfl), KVStore.readRoom_of_get h hget⟩
  | refused e hperform hnot =>
    rw [hperform] at hcall
    exact absurd hcall (by simp)

/-- Whatever comes of a command, the store goes on holding a map. -/
theorem perform_contents (h : kv.Contents m) (cmd : Bytes) :
    ∃ m', ((perform cmd).call kv).2.Contents m' := by
  cases order cmd with
  | get key htokens =>
    rw [perform_get htokens, call_dropped_snd]
    exact h.after_getValue key
  | set key value htokens =>
    rw [perform_set htokens, call_dropped_snd]
    exact h.after_set key (.simpleString value)
  | del key htokens =>
    rw [perform_del htokens, call_dropped_snd]
    exact h.after_del key
  | exist key htokens =>
    rw [perform_exist htokens, call_dropped_snd]
    exact h.after_get key
  | refused e hperform hnot =>
    rw [hperform]
    exact ⟨m, h⟩

/-! ## One after another -/

/-- The store has room for each command when its turn comes. -/
def CanApplyAll (kv : KVStore RespValue) (cmds : List Bytes) : Prop :=
  Run.Along (fun kv cmd => ((perform cmd).call kv).2) CanApply kv cmds

theorem performAll_spec : ∀ {cmds : List Bytes} {kv : KVStore RespValue}
    {m : Bytes → Option RespValue}, kv.Contents m → CanApplyAll kv cmds →
    ∃ kv', (forM cmds perform).call kv = (.ok (), kv') ∧
      kv'.Contents (effects m (cmds.filterMap asks)) := by
  intro cmds
  induction cmds with
  | nil => exact fun h _ => ⟨_, rfl, h⟩
  | cons cmd cmds ih =>
    intro kv m h ⟨hfirst, hrest⟩
    obtain ⟨kv₁, hcall, hcontents⟩ := perform_spec h hfirst
    have hrest : CanApplyAll ((perform cmd).call kv).2 cmds := hrest
    rw [hcall] at hrest
    obtain ⟨kv', hcalls, hcontents'⟩ := ih hcontents hrest
    refine ⟨kv', ?_, ?_⟩
    · rw [List.forM_cons, Method.call_bind_ok hcall]
      exact hcalls
    · rw [← effects_append] at hcontents'
      cases hasks : asks cmd with
      | none =>
        rw [hasks] at hcontents'
        rw [List.filterMap_cons_none hasks]
        exact hcontents'
      | some w =>
        rw [hasks] at hcontents'
        rw [List.filterMap_cons_some hasks]
        exact hcontents'

theorem performAll_returned : ∀ {cmds : List Bytes} {kv kv' : KVStore RespValue}
    {m : Bytes → Option RespValue}, kv.Contents m →
    (forM cmds perform).call kv = (.ok (), kv') → CanApplyAll kv cmds := by
  intro cmds
  induction cmds with
  | nil => exact fun _ _ => trivial
  | cons cmd cmds ih =>
    intro kv kv' m h hcall
    rw [List.forM_cons] at hcall
    obtain ⟨⟨⟩, kv₁, hfirst, hrest⟩ := Method.bind_eq_ok hcall
    have hcan := perform_returned h hfirst
    obtain ⟨kv₂, hcall₂, hcontents⟩ := perform_spec h hcan
    rw [hfirst] at hcall₂
    have hsame : kv₁ = kv₂ := (Prod.mk.inj hcall₂).2
    subst hsame
    refine ⟨hcan, ?_⟩
    show CanApplyAll ((perform cmd).call kv).2 cmds
    rw [hfirst]
    exact ih hcontents hrest

end Perform

end Server
end KvJet
