import KvJet.Server.Replay
import KvJet.Store.Contents

/-!
# Commands as Raft carries them

A handler gives Raft its request as one line of text, `"SET key value"` or `"DEL key"`, and when
the entry is applied `makeCommand` cuts the line at white space and makes a request of the
pieces, all of them simple strings.

The text keeps neither the kind of the value nor where the key ends. What comes back is the
request itself exactly when key and value are words, and the value a simple string
(`faithful_iff`): a bulk string comes back as a simple string, a value of another kind as nothing,
and with white space in it, or empty, a command of another length comes back, on which the
handler throws.
-/

namespace KvJet
namespace Server

open Resp Store

/-- The pieces `iss >> tok` reads. -/
def tokens (cmd : Bytes) : List Bytes := (cmd.splitOnP isSpace).filter (· ≠ [])

def makeCommand (cmd : Bytes) : RespValue :=
  .array (some ((tokens cmd).map .simpleString))

namespace Write

/-- The handler's own call on the store. -/
def apply : Write → Method Fault (KVStore RespValue) Unit
  | .set key value => do let _ ← KVStore.set key value
  | .del key => do let _ ← KVStore.del key

/-- What the key is bound to afterwards. -/
def effect : Write → Option RespValue
  | .set _ value => some value
  | .del _ => none

/-- The applied text does to the store what the handler's own call does to it. -/
def Faithful (w : Write) : Prop :=
  ∃ text, w.text = .ok text ∧ ∀ (s : ServerState) (kv : KVStore RespValue),
    w.apply.call s.kvstore = (.ok (), kv) →
      ∃ reply, (Handler.handleNoAOF (makeCommand text)).call s
        = (.ok reply, { s with kvstore := kv })

end Write

/-- What the writes make of a store that holds `m`. -/
def effects (m : Bytes → Option RespValue) (ws : List Write) : Bytes → Option RespValue :=
  ws.foldl (fun m w => Function.update m w.key w.effect) m

section Effects

variable {m : Bytes → Option RespValue} {key : Bytes}

theorem effects_append (m : Bytes → Option RespValue) (ws vs : List Write) :
    effects m (ws ++ vs) = effects (effects m ws) vs := List.foldl_append

theorem effects_concat (m : Bytes → Option RespValue) (ws : List Write) (w : Write) :
    effects m (ws ++ [w]) = Function.update (effects m ws) w.key w.effect :=
  effects_append m ws [w]

/-- Writes of other keys make no difference. -/
theorem effects_of_ne : ∀ {ws : List Write} {m : Bytes → Option RespValue},
    (∀ w ∈ ws, w.key ≠ key) → effects m ws key = m key := by
  intro ws
  induction ws with
  | nil => intro m _; rfl
  | cons w ws ih =>
    intro m h
    have hrest : effects (Function.update m w.key w.effect) ws key
        = Function.update m w.key w.effect key := ih fun w' hw' => h w' (List.mem_cons_of_mem _ hw')
    exact hrest.trans (Function.update_of_ne (Ne.symm (h w List.mem_cons_self)) _ _)

/-- The last write of a key decides. -/
theorem effects_last {ws vs : List Write} {w : Write} (h : ∀ w' ∈ vs, w'.key ≠ w.key) :
    effects m (ws ++ w :: vs) w.key = w.effect := by
  rw [← List.singleton_append, ← List.append_assoc, effects_append, effects_of_ne h, effects_concat,
    Function.update_self]

/-- The writes change nothing exactly if the last of each key leaves what is there. -/
theorem effects_eq_iff {ws : List Write} : effects m ws = m ↔
    ∀ us w vs, ws = us ++ w :: vs → (∀ w' ∈ vs, w'.key ≠ w.key) → m w.key = w.effect := by
  constructor
  · rintro heq us w vs rfl hlast
    rw [← effects_last (m := m) hlast, heq]
  · intro h
    funext key
    cases hfind : ws.reverse.find? (·.key = key) with
    | none =>
      refine effects_of_ne fun w hw => ?_
      have hne := List.find?_eq_none.mp hfind w (List.mem_reverse.mpr hw)
      simpa using hne
    | some w =>
      obtain ⟨hkey, vs, us, hsplit, hlast⟩ := List.find?_eq_some_iff_append.mp hfind
      have hkey : w.key = key := by simpa using hkey
      have hws : ws = us.reverse ++ w :: vs.reverse := by
        rw [← ws.reverse_reverse, hsplit]
        simp
      have hne : ∀ w' ∈ vs.reverse, w'.key ≠ w.key := by
        intro w' hw'
        have hw' := hlast w' (List.mem_reverse.mp hw')
        rw [hkey]
        simpa using hw'
      rw [← hkey, hws, effects_last hne]
      exact (h _ w _ hws hne).symm

end Effects

/-! ## Cutting at white space

`istringstream` skips white space, so it makes no empty word, and two blanks are one. -/

/-- Not empty, and no white space. -/
def Word (t : Bytes) : Prop := t ≠ [] ∧ ∀ c ∈ t, isSpace c = false

instance (t : Bytes) : Decidable (Word t) := inferInstanceAs (Decidable (_ ∧ _))

/-- `Plain`: the requests whose text is as good as they are. -/
def Write.Plain : Write → Prop
  | .set key (.simpleString value) => Word key ∧ Word value
  | .set _ _ => False
  | .del key => Word key

instance : DecidablePred Write.Plain
  | .set _ (.simpleString _) => inferInstanceAs (Decidable (_ ∧ _))
  | .set _ (.error _) | .set _ (.integer _) | .set _ (.bulkString _) | .set _ (.array _) =>
    inferInstanceAs (Decidable False)
  | .del key => inferInstanceAs (Decidable (Word key))

theorem tokens_word {t : Bytes} (h : Word t) : tokens t = [t] := by
  unfold tokens
  rw [List.splitOnP_eq_singleton h.2]
  simp [h.1]

theorem tokens_append_space (xs ys : Bytes) : tokens (xs ++ 32 :: ys) = tokens xs ++ tokens ys := by
  unfold tokens
  rw [List.splitOnP_append_cons xs ys (by decide), List.filter_append]

/-- The pieces have none of what was cut at. -/
theorem mem_splitOnP {α : Type} {p : α → Bool} : ∀ {xs piece : List α}, piece ∈ xs.splitOnP p →
    ∀ x ∈ piece, p x = false := by
  intro xs
  induction xs with
  | nil =>
    intro piece h x hx
    rw [List.splitOnP_nil, List.mem_singleton] at h
    rw [h] at hx
    exact absurd hx (by simp)
  | cons a xs ih =>
    intro piece h x hx
    rw [List.splitOnP_cons_eq_if_modifyHead] at h
    split at h
    · rcases List.mem_cons.mp h with rfl | hrest
      · exact absurd hx (by simp)
      · exact ih hrest x hx
    · rename_i hpa
      cases hsplit : xs.splitOnP p with
      | nil => exact absurd hsplit (List.splitOnP_ne_nil p xs)
      | cons first rest =>
        rw [hsplit, List.modifyHead_cons] at h
        rcases List.mem_cons.mp h with rfl | hrest
        · rcases List.mem_cons.mp hx with rfl | hx
          · simpa using hpa
          · exact ih (hsplit ▸ List.mem_cons_self) x hx
        · exact ih (hsplit ▸ List.mem_cons_of_mem _ hrest) x hx

theorem word_of_mem_tokens {cmd t : Bytes} (h : t ∈ tokens cmd) : Word t := by
  obtain ⟨hmem, hne⟩ := List.mem_filter.mp h
  exact ⟨by simpa using hne, mem_splitOnP hmem⟩

theorem tokens_set (key value : Bytes) :
    tokens (ascii "SET " ++ key ++ ascii " " ++ value)
      = ascii "SET" :: (tokens key ++ tokens value) := by
  have hset : tokens (ascii "SET") = [ascii "SET"] := by decide +kernel
  have htext : ascii "SET " ++ key ++ ascii " " ++ value
      = ascii "SET" ++ 32 :: (key ++ 32 :: value) := by
    simp [ascii]
  rw [htext, tokens_append_space, tokens_append_space, hset]
  rfl

theorem tokens_del (key : Bytes) : tokens (ascii "DEL " ++ key) = ascii "DEL" :: tokens key := by
  have hdel : tokens (ascii "DEL") = [ascii "DEL"] := by decide +kernel
  have htext : ascii "DEL " ++ key = ascii "DEL" ++ 32 :: key := by simp [ascii]
  rw [htext, tokens_append_space, hdel]
  rfl

/-! ## Applying a command -/

section Apply

variable {s : ServerState}

theorem call_handleNoAOF_del (key : Bytes) :
    (Handler.handleNoAOF (Write.del key).request).call s
      = (((KVStore.del key).call s.kvstore).1.map fun ret => encode (.integer (if ret then 1 else 0)),
          { s with kvstore := ((KVStore.del key).call s.kvstore).2 }) := by
  have hget : ascii "DEL" ≠ ascii "GET" := by decide
  have hset : ascii "DEL" ≠ ascii "SET" := by decide
  have hbody : (Handler.handleNoAOF (Write.del key).request).call s
      = Method.call (do
          let ret ← onKVStore (KVStore.del key)
          return encode (.integer (if ret then 1 else 0))) s := by
    simp only [Handler.handleNoAOF, Write.request, if_neg hget, if_neg hset, if_true]
    rfl
  rw [hbody]
  have hpart : (onKVStore (KVStore.del key)).call s = (((KVStore.del key).call s.kvstore).1,
      { s with kvstore := ((KVStore.del key).call s.kvstore).2 }) := rfl
  cases hdel : ((KVStore.del key).call s.kvstore).1 with
  | ok ret =>
    rw [hdel] at hpart
    rw [Method.call_bind_ok hpart]
    rfl
  | error e =>
    rw [hdel] at hpart
    rw [Method.call_bind_error hpart]
    rfl

/-- A `SET` of another length throws. -/
theorem call_SETNoAOF_length {ts : List Bytes} (h : ts.length ≠ 3) :
    (Handler.SETNoAOF (.array (some (ts.map .simpleString)))).call s
      = (.error (.exception "SET: Wrong number of arguments"), s) := by
  have hlen : ((ts.map RespValue.simpleString).map some).length ≠ 3 := by simpa using h
  rw [Handler.SETNoAOF, show Handler.elementsOf _ = .ok _ from rfl,
    Method.call_bind_ok (Method.call_lift _ s), if_pos hlen]
  rfl

theorem call_handleNoAOF_set_length {ts : List Bytes} (h : ts.length ≠ 2) :
    (Handler.handleNoAOF (.array (some ((ascii "SET" :: ts).map .simpleString)))).call s
      = (.error (.exception "SET: Wrong number of arguments"), s) := by
  have hget : ascii "SET" ≠ ascii "GET" := by decide
  have hlen : (ascii "SET" :: ts).length ≠ 3 := by simpa using h
  simp only [Handler.handleNoAOF, List.map_cons, if_neg hget, if_true]
  exact call_SETNoAOF_length hlen

theorem call_DELNoAOF_length {ts : List Bytes} (h : ts.length ≠ 2) :
    (Handler.DELNoAOF (.array (some (ts.map .simpleString)))).call s
      = (.error (.exception "DEL_noAOF: Usage: DEL key"), s) := by
  have hlen : ((ts.map RespValue.simpleString).map some).length ≠ 2 := by simpa using h
  rw [Handler.DELNoAOF, show Handler.elementsOf _ = .ok _ from rfl,
    Method.call_bind_ok (Method.call_lift _ s), if_pos hlen]
  rfl

theorem call_handleNoAOF_del_length {ts : List Bytes} (h : ts.length ≠ 1) :
    (Handler.handleNoAOF (.array (some ((ascii "DEL" :: ts).map .simpleString)))).call s
      = (.error (.exception "DEL_noAOF: Usage: DEL key"), s) := by
  have hget : ascii "DEL" ≠ ascii "GET" := by decide
  have hset : ascii "DEL" ≠ ascii "SET" := by decide
  have hlen : (ascii "DEL" :: ts).length ≠ 2 := by simpa using h
  simp only [Handler.handleNoAOF, List.map_cons, if_neg hget, if_neg hset, if_true]
  exact call_DELNoAOF_length hlen

end Apply

namespace Write

/-- A call whose result is dropped. -/
theorem call_drop {σ α : Type} {m : Method Fault σ α} {s s' : σ} {u : Unit}
    (h : Method.call (do let _ ← m) s = (.ok u, s')) : ∃ a, m.call s = (.ok a, s') := by
  obtain ⟨a, s₁, hm, hrest⟩ := Method.bind_eq_ok h
  cases hrest
  exact ⟨a, hm⟩

/-- A plain request comes back from its text. -/
theorem Plain.makeCommand {w : Write} (h : w.Plain) :
    ∃ text, w.text = .ok text ∧ makeCommand text = w.request := by
  cases w with
  | set key value =>
    cases value with
    | simpleString value =>
      obtain ⟨hkey, hvalue⟩ := h
      refine ⟨_, rfl, ?_⟩
      rw [Server.makeCommand, tokens_set, tokens_word hkey, tokens_word hvalue]
      rfl
    | error _ | integer _ | bulkString _ | array _ => exact absurd h id
  | del key =>
    refine ⟨_, rfl, ?_⟩
    rw [Server.makeCommand, tokens_del, tokens_word h]
    rfl

theorem Plain.faithful {w : Write} (h : w.Plain) : w.Faithful := by
  obtain ⟨text, htext, hcmd⟩ := h.makeCommand
  refine ⟨text, htext, fun s kv hcall => ?_⟩
  rw [hcmd]
  cases w with
  | set key value =>
    obtain ⟨r, hset⟩ := call_drop hcall
    rw [call_handleNoAOF_set, hset]
    exact ⟨_, rfl⟩
  | del key =>
    obtain ⟨r, hdel⟩ := call_drop hcall
    rw [call_handleNoAOF_del, hdel]
    exact ⟨_, rfl⟩

theorem update_eq_update {α β : Type} [DecidableEq α] {a a' : α} {b b' : β}
    (h : Function.update (fun _ => none) a (some b)
      = Function.update (fun _ => none) a' (some b')) : a = a' ∧ b = b' := by
  have ha : a = a' := by
    by_contra hne
    have := congrFun h a
    rw [Function.update_self, Function.update_of_ne hne] at this
    exact absurd this (by simp)
  subst ha
  have := congrFun h a
  rw [Function.update_self, Function.update_self, Option.some.injEq] at this
  exact ⟨rfl, this⟩

/-- A server with an empty store is enough to see that a `SET` is not plain. -/
theorem Faithful.plain_set {key : Bytes} {value : RespValue}
    (h : (Write.set key value).Faithful) : (Write.set key value).Plain := by
  obtain ⟨text, htext, happly⟩ := h
  obtain ⟨val, hval, htext⟩ := Except.of_bind_eq_ok htext
  cases htext
  obtain ⟨r, kv, hset, hcontents, -⟩ := KVStore.set_new key value
  have hown : (Write.set key value).apply.call alone.kvstore = (.ok (), kv) := by
    show Method.call (do let _ ← KVStore.set key value) ({} : KVStore RespValue) = _
    rw [Method.call_bind_ok hset]
    rfl
  obtain ⟨reply, hcall⟩ := happly alone kv hown
  rw [makeCommand, tokens_set] at hcall
  have hlen : (tokens key ++ tokens val).length = 2 := by
    by_contra hne
    rw [call_handleNoAOF_set_length hne] at hcall
    exact absurd hcall (by simp)
  obtain ⟨a, b, hab⟩ := List.length_eq_two.mp hlen
  rw [hab] at hcall
  -- both calls put one binding into the empty store
  have hother : (Handler.handleNoAOF (Write.set a (.simpleString b)).request).call alone
      = (.ok reply, { alone with kvstore := kv }) := hcall
  rw [call_handleNoAOF_set] at hother
  obtain ⟨r', kv', hset', hcontents', -⟩ := KVStore.set_new a (RespValue.simpleString b)
  have hsame : kv' = kv := by
    have hsnd := congrArg (fun p => p.2.kvstore) hother
    rw [show alone.kvstore = {} from rfl, hset'] at hsnd
    exact hsnd
  rw [hsame] at hcontents'
  obtain ⟨rfl, rfl⟩ := update_eq_update (hcontents.unique hcontents')
  have hwords : ∀ t ∈ [key, b], Word t := by
    intro t ht
    rw [← hab] at ht
    rcases List.mem_append.mp ht with h | h
    · exact word_of_mem_tokens h
    · exact word_of_mem_tokens h
  exact ⟨hwords key (by simp), hwords b (by simp)⟩

/-- For a `DEL`, it is a store that holds its key. -/
theorem Faithful.plain_del {key : Bytes} (h : (Write.del key).Faithful) :
    (Write.del key).Plain := by
  obtain ⟨text, htext, happly⟩ := h
  cases htext
  obtain ⟨r, kv, -, hcontents, hroom⟩ := KVStore.set_new key (default : RespValue)
  obtain ⟨kv', hdel, hcontents'⟩ := KVStore.del_contents hcontents hroom
  have hown : (Write.del key).apply.call ({ alone with kvstore := kv } : ServerState).kvstore
      = (.ok (), kv') := by
    show Method.call (do let _ ← KVStore.del key) kv = _
    rw [Method.call_bind_ok hdel]
    rfl
  obtain ⟨reply, hcall⟩ := happly _ kv' hown
  rw [makeCommand, tokens_del] at hcall
  have hlen : (tokens key).length = 1 := by
    by_contra hne
    rw [call_handleNoAOF_del_length hne] at hcall
    exact absurd hcall (by simp)
  obtain ⟨a, ha⟩ := List.length_eq_one_iff.mp hlen
  rw [ha] at hcall
  have hother : (Handler.handleNoAOF (Write.del a).request).call { alone with kvstore := kv }
      = (.ok reply, { alone with kvstore := kv' }) := hcall
  rw [call_handleNoAOF_del] at hother
  have hword : Word a := word_of_mem_tokens (ha ▸ List.mem_singleton_self a)
  have hsame : a = key := by
    by_contra hne
    cases hother' : (KVStore.del a).call kv with
    | mk x kv'' =>
      rw [show ({ alone with kvstore := kv } : ServerState).kvstore = kv from rfl, hother'] at hother
      cases x with
      | error e => exact absurd (Prod.mk.inj hother).1 (by simp [Except.map])
      | ok ret =>
        have hkv : kv'' = kv' := congrArg ServerState.kvstore (Prod.mk.inj hother).2
        have hafter := KVStore.del_returned hcontents hother'
        rw [hkv] at hafter
        have hkey := congrFun (hafter.unique hcontents') key
        rw [Function.update_of_ne (Ne.symm hne), Function.update_self, Function.update_self] at hkey
        exact absurd hkey (by simp)
  exact hsame ▸ hword

/-- **The text of a request is faithful exactly when** its key is a word and, in a `SET`, its
value a simple string that is a word.

The text has the pieces one after another with a blank between them, and is cut at every white
space. The pieces come back as they were if and only if none of them has white space in it or is
empty; and they come back as simple strings, whatever they were. -/
theorem faithful_iff (w : Write) : w.Faithful ↔ w.Plain := by
  refine ⟨fun h => ?_, Plain.faithful⟩
  cases w with
  | set key value => exact h.plain_set
  | del key => exact h.plain_del

/-- `SET k v` with a bulk string: applied, the value is a simple string. -/
theorem bulk_value_not_faithful :
    ¬ (Write.set (ascii "k") (.bulkString (some (ascii "v")))).Faithful :=
  fun h => absurd h.plain_set id

end Write

end Server
end KvJet
