import KvJet.Server.Torn
import KvJet.Store.Directory

/-!
# Snapshots and the append-only file together

The snapshot loop forks, the child writes its copy of the store into the snapshot directory, and
when it is over the parent empties the append-only file. A server that comes up reads the
directory and then replays the file.

Nothing ties the three together. What is logged between the fork and the end of the child is in
the file that is emptied and not in the snapshot; the file is emptied whatever became of the
child, and also without one; and the child empties the directory before it writes, when what the
file has lost is nowhere else. So a crash loses nothing as long as these windows are empty
(`crash_consistent`).

A child that throws goes on with the loop, on its own copy, and the server waits for it.
-/

namespace KvJet
namespace Server

open Resp Store Run
open SetCommand

/-- A store, as the server or a forked process has it. -/
structure Copy where
  kvstore : KVStore RespValue := {}
  /-- The updates made in it, each with the number of its command. -/
  updates : List (Nat × SetCommand) := []

/-- Where the snapshot loop is. -/
inductive Cycle where
  | asleep
  /-- The child empties the directory. -/
  | removing (copy : Copy)
  /-- The child writes the file of shard `next`. -/
  | writing (copy : Copy) (next : Nat)
  /-- There is no child any more; `copy` is what it had, when it has written all of it. -/
  | ended (copy : Option Copy)

structure Persistence where
  current : Copy := {}
  aof : AOF := {}
  dir : Directory := fun _ => none
  cycle : Cycle := .asleep
  /-- The copy of the child that has the loop, when one has thrown. -/
  stray : Option Copy := none
  /-- The commands that were in the file when it was emptied; this and the next two are all
  commands that were appended. -/
  gone : List SetCommand := []
  inFile : List SetCommand := []
  inBuffer : List SetCommand := []

namespace Persistence

inductive Event where
  /-- The first half of `SET`. -/
  | append (c : SetCommand) (due : Bool)
  /-- The second half of the `SET` with this number. -/
  | store (i : Nat)
  | flush
  /-- `ok`: there is a child. -/
  | fork (ok : Bool)
  /-- `remove_all` comes to the file of shard `i`. -/
  | remove (i : Nat)
  /-- The directory is empty. -/
  | removed
  /-- A shard is written, but for the last `lost` bytes. -/
  | write (lost : Nat)
  /-- The child exits, or is killed. -/
  | exit
  | throw
  | truncate

/-- The commands whose bytes have got to the file. -/
def flushed (s : Persistence) : List SetCommand := s.gone ++ s.inFile

/-- All commands, in the order in which they were appended. -/
def log (s : Persistence) : List SetCommand := s.flushed ++ s.inBuffer

def append (s : Persistence) (c : SetCommand) (due : Bool) : Persistence :=
  let aof := ((AOF.append c.write.logged due).call s.aof).2
  if aof.buffer = [] then { s with aof, inFile := s.inFile ++ s.inBuffer ++ [c], inBuffer := [] }
  else { s with aof, inBuffer := s.inBuffer ++ [c] }

def store (s : Persistence) (i : Nat) : Persistence :=
  match s.log[i]? with
  | none => s
  | some c =>
    if i ∈ s.current.updates.map Prod.fst then s
    else { s with current := {
      kvstore := ((KVStore.set c.key c.value).call s.current.kvstore).2
      updates := s.current.updates ++ [(i, c)] } }

def flush (s : Persistence) : Persistence :=
  { s with aof := s.aof.flush, inFile := s.inFile ++ s.inBuffer, inBuffer := [] }

def fork (s : Persistence) (ok : Bool) : Persistence :=
  match s.cycle with
  | .asleep => { s with cycle := if ok then .removing (s.stray.getD s.current) else .ended none }
  | _ => s

def remove (s : Persistence) (i : Nat) : Persistence :=
  match s.cycle with
  | .removing _ => { s with dir := Function.update s.dir i none }
  | _ => s

def removed (s : Persistence) : Persistence :=
  match s.cycle with
  | .removing copy => { s with dir := fun _ => none, cycle := .writing copy 0 }
  | _ => s

/-- A loop over the buckets that does not end leaves the child where it is. -/
def write (s : Persistence) (lost : Nat) : Persistence :=
  match s.cycle with
  | .writing copy next =>
    match copy.kvstore.shards[next]?.bind KVStore.snapshotFile with
    | none => s
    | some file =>
      { s with dir := Function.update s.dir next (some (file.take (file.length - lost)))
               cycle := .writing copy (next + 1) }
  | _ => s

def exit (s : Persistence) : Persistence :=
  match s.cycle with
  | .removing _ => { s with cycle := .ended none }
  | .writing copy next =>
    { s with cycle := .ended (if next = copy.kvstore.shards.length then some copy else none) }
  | _ => s

def throw (s : Persistence) : Persistence :=
  match s.cycle with
  | .removing copy | .writing copy _ => { s with cycle := .asleep, stray := some copy }
  | _ => s

/-- `resize_file`. -/
def truncate (s : Persistence) : Persistence :=
  match s.cycle with
  | .ended _ =>
    { s with cycle := .asleep, aof := { s.aof with file := [] }
             gone := s.gone ++ s.inFile, inFile := [] }
  | _ => s

def step (s : Persistence) : Event → Persistence
  | .append c due => s.append c due
  | .store i => s.store i
  | .flush => s.flush
  | .fork ok => s.fork ok
  | .remove i => s.remove i
  | .removed => s.removed
  | .write lost => s.write lost
  | .exit => s.exit
  | .throw => s.throw
  | .truncate => s.truncate

/-! ## After a crash -/

/-- `Server::Server`, with the directory and the file as they are. -/
def restart (r : ServerState) (s : Persistence) : Except Fault Unit × ServerState :=
  Method.call (do
    onKVStore (KVStore.readfromfile s.dir)
    AOF.recover s.aof.file) r

/-- The server comes up, and for every command that had got to the file it has the value of this
command or of a later one of the key. -/
structure Recovers (r : ServerState) (s : Persistence) : Prop where
  returns : (restart r s).1 = .ok ()
  values : ∀ (i : Nat) (c : SetCommand), s.flushed[i]? = some c →
    ∃ (j : Nat) (c' : SetCommand), i ≤ j ∧ s.log[j]? = some c' ∧ c'.key = c.key ∧
      (restart r s).2.kvstore.lookup c.key = .ok (some c'.value)

/-- The store that is read from the directory has room for the commands of the file. -/
def RoomToReplay (s : Persistence) : Prop :=
  RoomFor ((KVStore.readfromfile s.dir).call {}).2 s.inFile

instance (s : Persistence) : Decidable s.RoomToReplay := inferInstanceAs (Decidable (RoomFor _ _))

/-! ## When a crash loses nothing

The three windows, as conditions on the moment of the step. -/

end Persistence

/-- The number of the last update of a key. -/
def Copy.newest (copy : Copy) (key : Bytes) : Option Nat :=
  (copy.updates.reverse.find? fun u => u.2.key = key).map Prod.fst

/-- The copy has a value for every key of these commands that is no older than the commands. -/
def Copy.Covers (copy : Copy) (cs : List SetCommand) : Prop :=
  ∀ i < cs.length, ∀ c ∈ cs[i]?, ∃ j ∈ copy.newest c.key, i ≤ j

instance (copy : Copy) (cs : List SetCommand) : Decidable (copy.Covers cs) :=
  inferInstanceAs (Decidable (∀ i < cs.length, ∀ c ∈ cs[i]?, ∃ j ∈ copy.newest c.key, i ≤ j))

namespace Persistence

/-- Nothing that the file has lost is in the directory alone. -/
def Spare (s : Persistence) : Prop := ∀ c ∈ s.gone, ∃ c' ∈ s.inFile, c'.key = c.key

instance (s : Persistence) : Decidable s.Spare :=
  inferInstanceAs (Decidable (∀ c ∈ s.gone, ∃ c' ∈ s.inFile, c'.key = c.key))

/-- The shard that is written next fits into its file. -/
def Fits : Cycle → Prop
  | .writing copy next => ∀ shard ∈ copy.kvstore.shards[next]?, KVStore.Small shard.data
  | .asleep | .removing _ | .ended _ => True

instance : DecidablePred Fits
  | .writing copy next =>
    inferInstanceAs (Decidable (∀ shard ∈ copy.kvstore.shards[next]?, KVStore.Small shard.data))
  | .asleep | .removing _ | .ended _ => inferInstanceAs (Decidable True)

/-- The child has written all of its copy, and that covers what has got to the file. -/
def Written (s : Persistence) : Cycle → Prop
  | .ended (some copy) => copy.Covers s.flushed
  | .ended none | .asleep | .removing _ | .writing _ _ => False

instance (s : Persistence) : DecidablePred s.Written
  | .ended (some copy) => inferInstanceAs (Decidable (copy.Covers s.flushed))
  | .ended none | .asleep | .removing _ | .writing _ _ => inferInstanceAs (Decidable False)

def Guarded (s : Persistence) : Event → Prop
  | .store i => ∀ c ∈ s.log[i]?, s.current.kvstore.Room c.key
  | .remove _ | .removed => s.Spare
  | .write lost => lost = 0 ∧ Fits s.cycle
  | .truncate => s.inFile = [] ∨ s.Written s.cycle
  | .append _ _ | .flush | .fork _ | .exit | .throw => True

instance (s : Persistence) : DecidablePred s.Guarded
  | .store i => inferInstanceAs (Decidable (∀ c ∈ s.log[i]?, s.current.kvstore.Room c.key))
  | .remove _ | .removed => inferInstanceAs (Decidable s.Spare)
  | .write lost => inferInstanceAs (Decidable (lost = 0 ∧ Fits s.cycle))
  | .truncate => decidable_of_iff (s.inFile.length = 0 ∨ s.Written s.cycle) (by
      rw [List.length_eq_zero_iff]; rfl)
  | .append _ _ | .flush | .fork _ | .exit | .throw => inferInstanceAs (Decidable True)

end Persistence

/-! ## Copies

A child's store is a copy of ours at the moment of the fork. It is compared with the log and not
with ours, which goes on. -/

/-- What the updates of a copy make of an empty store. -/
def Copy.contents (copy : Copy) : Bytes → Option RespValue :=
  effects (fun _ => none) (copy.updates.map fun u => u.2.write)

/-- The store is what its updates make it, and they are commands of the log. -/
structure Copy.Of (copy : Copy) (log : List SetCommand) : Prop where
  intact : KVStore.Intact copy.kvstore copy.contents
  updates : ∀ u ∈ copy.updates, log[u.1]? = some u.2

theorem Copy.of_new (log : List SetCommand) : Copy.Of {} log where
  intact := KVStore.intact_new
  updates := by simp

theorem getElem?_of_prefix {α : Type} {xs ys : List α} (h : xs <+: ys) {i : Nat} {x : α}
    (hi : xs[i]? = some x) : ys[i]? = some x := by
  obtain ⟨rest, rfl⟩ := h
  rw [List.getElem?_append_left (List.getElem?_eq_some_iff.mp hi).1]
  exact hi

theorem Copy.Of.mono {copy : Copy} {log log' : List SetCommand} (h : copy.Of log)
    (hlog : log <+: log') : copy.Of log' where
  intact := h.intact
  updates := fun u hu => getElem?_of_prefix hlog (h.updates u hu)

/-- The last update of a key is what the copy holds for it. -/
theorem Copy.Of.newest {copy : Copy} {log : List SetCommand} {key : Bytes} {j : Nat}
    (h : copy.Of log) (hj : copy.newest key = some j) :
    ∃ c, log[j]? = some c ∧ c.key = key ∧ copy.contents key = some c.value := by
  obtain ⟨⟨i, c⟩, hfind, rfl⟩ := Option.map_eq_some_iff.mp hj
  obtain ⟨hkey, later, earlier, hsplit, hother⟩ := List.find?_eq_some_iff_append.mp hfind
  have hkey : c.key = key := by simpa using hkey
  have hupdates : copy.updates = earlier.reverse ++ (i, c) :: later.reverse := by
    rw [← List.reverse_reverse copy.updates, hsplit]
    simp
  refine ⟨c, h.updates (i, c) (by rw [hupdates]; simp), hkey, ?_⟩
  have hlast : ∀ w ∈ later.reverse.map (fun u => u.2.write), w.key ≠ c.write.key := by
    intro w hw
    obtain ⟨u, hu, rfl⟩ := List.mem_map.mp hw
    have hne : ¬ u.2.key = key := by simpa using hother u (List.mem_reverse.mp hu)
    rw [← hkey] at hne
    exact hne
  rw [Copy.contents, hupdates, List.map_append, List.map_cons, ← hkey]
  exact effects_last hlast

/-- One update more. -/
theorem Copy.Of.store {copy : Copy} {log : List SetCommand} {i : Nat} {c : SetCommand}
    (h : copy.Of log) (hi : log[i]? = some c) (hroom : copy.kvstore.Room c.key) :
    Copy.Of { kvstore := ((KVStore.set c.key c.value).call copy.kvstore).2
              updates := copy.updates ++ [(i, c)] } log where
  intact := by
    obtain ⟨r, kv, hset, hintact⟩ := h.intact.set hroom c.sendable.2.1
    rw [hset]
    rw [Copy.contents, List.map_append, List.map_singleton, effects_concat]
    exact hintact
  updates := by
    intro u hu
    rcases List.mem_append.mp hu with hold | hnew
    · exact h.updates u hold
    · rw [List.mem_singleton.mp hnew]
      exact hi

namespace Persistence

/-! ## What every step keeps -/

/-- What a directory that holds `held` has to have: whatever the file has lost, and no later
command in it makes up for. -/
def Covered (s : Persistence) (held : Bytes → Option RespValue) : Prop :=
  ∀ (i : Nat) (c : SetCommand), s.gone[i]? = some c → (∃ c' ∈ s.inFile, c'.key = c.key) ∨
    ∃ (j : Nat) (c' : SetCommand), i ≤ j ∧ s.log[j]? = some c' ∧ c'.key = c.key ∧
      held c.key = some c'.value

/-- How far the directory is the child's copy. -/
def Progressed (s : Persistence) (held : Bytes → Option RespValue) : Cycle → Prop
  | .asleep | .ended none => True
  | .removing copy => copy.Of s.log
  | .writing copy next => copy.Of s.log ∧ s.Spare ∧
    ∀ k, KVStore.shardOf k < next → held k = copy.contents k
  | .ended (some copy) => copy.Of s.log ∧ held = copy.contents

/-- What is on disk is what has been appended, in the order of the appends, and the directory makes
up for what the file has lost. A child that has thrown goes on with a copy of its own (`stray`),
which is one of the same commands as ours, only older. -/
structure Kept (s : Persistence) : Prop where
  file : s.aof.file = texts s.inFile
  buffer : s.aof.buffer = texts s.inBuffer
  current : s.current.Of s.log
  stray : ∀ copy ∈ s.stray, copy.Of s.log
  dir : ∃ held, KVStore.Loads s.dir held ∧ s.Covered held ∧ s.Progressed held s.cycle

theorem kept_new : Kept {} where
  file := rfl
  buffer := rfl
  current := Copy.of_new _
  stray := by simp
  dir := ⟨_, KVStore.loads_empty, by simp [Covered], trivial⟩

/-- The last command of a key. -/
theorem exists_last_of_key {key : Bytes} : ∀ {cs : List SetCommand},
    (∃ c ∈ cs, c.key = key) → ∃ before c after, cs = before ++ c :: after ∧ c.key = key ∧
      ∀ c' ∈ after, c'.key ≠ key := by
  intro cs
  induction cs with
  | nil => rintro ⟨c, hc, -⟩; exact absurd hc (by simp)
  | cons first cs ih =>
    intro h
    by_cases hrest : ∃ c ∈ cs, c.key = key
    · obtain ⟨before, c, after, rfl, hkey, hafter⟩ := ih hrest
      exact ⟨first :: before, c, after, rfl, hkey, hafter⟩
    · obtain ⟨c, hc, hkey⟩ := h
      have hfirst : c = first := (List.mem_cons.mp hc).resolve_right fun hin => hrest ⟨c, hin, hkey⟩
      subst hfirst
      exact ⟨[], c, cs, rfl, hkey, fun c' hc' hkey' => hrest ⟨c', hc', hkey'⟩⟩

variable {s : Persistence} {r : ServerState}

/-- **A crash at this moment.** -/
theorem Kept.recovers (h : s.Kept) (hr : r.kvstore = {}) (hroom : s.RoomToReplay) :
    Recovers r s := by
  obtain ⟨held, hloads, hcovered, -⟩ := h.dir
  obtain ⟨kv, hread, hcontents⟩ := hloads.contents
  have hload : (onKVStore (KVStore.readfromfile s.dir)).call r
      = (.ok (), { r with kvstore := kv }) := by rw [onKVStore, Method.call_part, hr, hread]
  rw [RoomToReplay, hread] at hroom
  obtain ⟨r', hreplay, hreplayed⟩ := replay_contents (r := { r with kvstore := kv }) hcontents hroom
  have hrecover : AOF.recover s.aof.file = forM (s.inFile.map SetCommand.request) AOF.replay := by
    have htexts : AOF.recover (texts s.inFile ++ []) = _ := recover_torn (Or.inl rfl)
    rw [List.append_nil, ← h.file] at htexts
    exact htexts
  have hrestart : restart r s = (.ok (), r') := by
    rw [restart, Method.call_bind_ok hload, hrecover, hreplay]
  refine ⟨by rw [hrestart], fun i c hi => ?_⟩
  rw [hrestart]
  by_cases hin : ∃ c' ∈ s.inFile, c'.key = c.key
  · -- the last one of the key in the file decides, and it is no older than `c`
    obtain ⟨before, c', after, hsplit, hkey, hafter⟩ := exists_last_of_key hin
    have hflushed : s.flushed = (s.gone ++ before) ++ c' :: after := by
      rw [flushed, hsplit, List.append_assoc]
    have hat : s.flushed[(s.gone ++ before).length]? = some c' := by
      rw [hflushed]
      simp
    refine ⟨(s.gone ++ before).length, c', ?_, getElem?_of_prefix (List.prefix_append _ _) hat,
      hkey, KVStore.lookup_bound hreplayed ?_⟩
    · by_contra hlt
      rw [hflushed, List.getElem?_append_right (by omega)] at hi
      obtain ⟨n, hn⟩ : ∃ n, i - (s.gone ++ before).length = n + 1 :=
        ⟨i - (s.gone ++ before).length - 1, by omega⟩
      rw [hn, List.getElem?_cons_succ] at hi
      exact hafter c (List.mem_of_getElem? hi) rfl
    · rw [hsplit, List.map_append, List.map_cons, ← hkey]
      refine effects_last fun w hw => ?_
      obtain ⟨c'', hc'', rfl⟩ := List.mem_map.mp hw
      have hne := hafter c'' hc''
      rw [← hkey] at hne
      exact hne
  · have hgone : s.gone[i]? = some c := by
      rcases Nat.lt_or_ge i s.gone.length with hlt | hge
      · rwa [flushed, List.getElem?_append_left hlt] at hi
      · rw [flushed, List.getElem?_append_right hge] at hi
        exact absurd ⟨c, List.mem_of_getElem? hi, rfl⟩ hin
    obtain ⟨j, c', hij, hj, hkey, hheld⟩ := (hcovered i c hgone).resolve_left hin
    refine ⟨j, c', hij, hj, hkey, KVStore.lookup_bound hreplayed ?_⟩
    rw [effects_of_ne, hheld]
    intro w hw hkey'
    obtain ⟨c'', hc'', rfl⟩ := List.mem_map.mp hw
    exact hin ⟨c'', hc'', hkey'⟩

/-- The log goes on, and nothing leaves the file. -/
theorem Kept.grow {s' : Persistence} (h : s.Kept) (hfile : s'.aof.file = texts s'.inFile)
    (hbuffer : s'.aof.buffer = texts s'.inBuffer) (hcurrent : s'.current = s.current)
    (hstray : s'.stray = s.stray) (hdir : s'.dir = s.dir) (hcycle : s'.cycle = s.cycle)
    (hgone : s'.gone = s.gone) (hin : s.inFile <+: s'.inFile) (hlog : s.log <+: s'.log) :
    s'.Kept where
  file := hfile
  buffer := hbuffer
  current := by
    rw [hcurrent]
    exact h.current.mono hlog
  stray := by
    rw [hstray]
    exact fun copy hcopy => (h.stray copy hcopy).mono hlog
  dir := by
    obtain ⟨held, hloads, hcovered, hprogressed⟩ := h.dir
    refine ⟨held, by rw [hdir]; exact hloads, fun i c hi => ?_, ?_⟩
    · rw [hgone] at hi
      rcases hcovered i c hi with ⟨c', hc', hkey⟩ | ⟨j, c', hij, hj, hkey, hheld⟩
      · exact Or.inl ⟨c', hin.subset hc', hkey⟩
      · exact Or.inr ⟨j, c', hij, getElem?_of_prefix hlog hj, hkey, hheld⟩
    · rw [hcycle]
      cases hphase : s.cycle with
      | asleep => trivial
      | removing copy =>
        rw [hphase] at hprogressed
        exact Copy.Of.mono hprogressed hlog
      | writing copy next =>
        rw [hphase] at hprogressed
        obtain ⟨hcopy, hspare, hwritten⟩ := hprogressed
        refine ⟨hcopy.mono hlog, fun c hc => ?_, hwritten⟩
        rw [hgone] at hc
        obtain ⟨c', hc', hkey⟩ := hspare c hc
        exact ⟨c', hin.subset hc', hkey⟩
      | ended copy =>
        rw [hphase] at hprogressed
        cases copy with
        | none => trivial
        | some copy => exact ⟨hprogressed.1.mono hlog, hprogressed.2⟩

/-- Appending leaves the command in the buffer, or flushes. -/
theorem call_append_cases (c : SetCommand) (due : Bool) (a : AOF) :
    ((AOF.append c.write.logged due).call a).2 = ⟨a.file, a.buffer ++ encode c.request⟩ ∨
      ((AOF.append c.write.logged due).call a).2
        = ⟨a.file ++ (a.buffer ++ encode c.request), []⟩ := by
  have htext : encodeRequest c.write.logged = .ok (encode c.request) :=
    encodeRequest_whole [.simpleString (ascii "SET"), .simpleString c.key, c.value]
  rw [AOF.append, htext, Method.call_bind_ok (Method.call_lift _ a),
    Method.call_bind_ok (Method.call_modify _ a), Method.call_bind_ok (Method.call_get _)]
  split
  · exact Or.inr rfl
  · exact Or.inl rfl

theorem Kept.append (h : s.Kept) (c : SetCommand) (due : Bool) : (s.append c due).Kept := by
  unfold Persistence.append
  dsimp only
  rcases call_append_cases c due s.aof with hcall | hcall
  · rw [hcall, if_neg (by simp [encode_ne_nil])]
    refine h.grow h.file ?_ rfl rfl rfl rfl rfl (List.prefix_refl _) ?_
    · show s.aof.buffer ++ encode c.request = texts (s.inBuffer ++ [c])
      rw [h.buffer, texts_append, texts_cons, texts_nil, List.append_nil]
    · exact ⟨[c], List.append_assoc _ _ _⟩
  · rw [hcall, if_pos rfl]
    refine h.grow ?_ rfl rfl rfl rfl rfl rfl ⟨s.inBuffer ++ [c], (List.append_assoc _ _ _).symm⟩ ?_
    · show s.aof.file ++ (s.aof.buffer ++ encode c.request) = texts (s.inFile ++ s.inBuffer ++ [c])
      rw [h.file, h.buffer, texts_append, texts_append, texts_cons, texts_nil, List.append_nil,
        List.append_assoc]
    · exact ⟨[c], by simp [log, flushed]⟩

theorem Kept.flush (h : s.Kept) : s.flush.Kept := by
  refine h.grow ?_ rfl rfl rfl rfl rfl rfl (List.prefix_append _ _)
    ⟨[], by simp [Persistence.flush, log, flushed]⟩
  show s.aof.file ++ s.aof.buffer = texts (s.inFile ++ s.inBuffer)
  rw [h.file, h.buffer, texts_append]

theorem Kept.store {i : Nat} (h : s.Kept) (hroom : s.Guarded (.store i)) : (s.store i).Kept := by
  unfold Persistence.store
  cases hi : s.log[i]? with
  | none => exact h
  | some c =>
    dsimp only
    split
    · exact h
    · exact ⟨h.file, h.buffer, h.current.store hi (hroom c hi), h.stray, h.dir⟩

/-- The loop goes on to another phase, and the disk stays as it is. -/
theorem Kept.go {cycle : Cycle} {stray : Option Copy} (h : s.Kept)
    (hstray : ∀ copy ∈ stray, copy.Of s.log)
    (hcycle : ∀ held, s.Progressed held s.cycle → s.Progressed held cycle) :
    ({ s with cycle, stray } : Persistence).Kept where
  file := h.file
  buffer := h.buffer
  current := h.current
  stray := hstray
  dir := by
    obtain ⟨held, hloads, hcovered, hprogressed⟩ := h.dir
    have hcycle := hcycle held hprogressed
    refine ⟨held, hloads, hcovered, ?_⟩
    cases cycle with
    | ended copy => cases copy <;> exact hcycle
    | asleep | removing copy | writing copy next => exact hcycle

theorem Kept.fork (h : s.Kept) (ok : Bool) : (s.fork ok).Kept := by
  unfold Persistence.fork
  split
  · refine h.go h.stray fun held _ => ?_
    cases ok with
    | false => trivial
    | true =>
      show Copy.Of (s.stray.getD s.current) s.log
      cases hstray : s.stray with
      | none => exact h.current
      | some copy => exact h.stray copy hstray
  · exact h

theorem covered_of_spare (h : s.Spare) (held : Bytes → Option RespValue) : s.Covered held :=
  fun _ c hi => Or.inl (h c (List.mem_of_getElem? hi))

theorem Kept.remove {i : Nat} (h : s.Kept) (hspare : s.Guarded (.remove i)) :
    (s.remove i).Kept := by
  unfold Persistence.remove
  split
  · rename_i copy hphase
    obtain ⟨held, hloads, -, hprogressed⟩ := h.dir
    rw [hphase] at hprogressed
    refine ⟨h.file, h.buffer, h.current, h.stray, _, hloads.remove i, covered_of_spare (by exact hspare) _, ?_⟩
    rw [hphase]
    exact hprogressed
  · exact h

theorem Kept.removed (h : s.Kept) (hspare : s.Guarded .removed) : s.removed.Kept := by
  unfold Persistence.removed
  split
  · rename_i copy hphase
    obtain ⟨held, -, -, hprogressed⟩ := h.dir
    rw [hphase] at hprogressed
    refine ⟨h.file, h.buffer, h.current, h.stray, _, KVStore.loads_empty, covered_of_spare (by exact hspare) _,
      hprogressed, hspare, fun k hk => absurd hk (Nat.not_lt_zero _)⟩
  · exact h

theorem Kept.write {lost : Nat} (h : s.Kept) (hguard : s.Guarded (.write lost)) :
    (s.write lost).Kept := by
  obtain ⟨hlost, hfits⟩ := hguard
  unfold Persistence.write
  cases hphase : s.cycle with
  | writing copy next =>
    rw [hphase] at hfits
    obtain ⟨held, hloads, hcovered, hprogressed⟩ := h.dir
    rw [hphase] at hprogressed
    obtain ⟨hcopy, hspare, hwritten⟩ := hprogressed
    dsimp only
    cases hshard : copy.kvstore.shards[next]? with
    | none => exact h
    | some shard =>
      obtain ⟨file, hfile, hholds⟩ := hcopy.intact.fileHolds hshard (hfits shard hshard)
      simp only [Option.bind_some, hfile, hlost, Nat.sub_zero, List.take_length]
      refine ⟨h.file, h.buffer, h.current, h.stray, _, hloads.put _ hholds,
        covered_of_spare (by exact hspare) _, hcopy, hspare, fun k hk => ?_⟩
      dsimp only
      split
      · rfl
      · rename_i hne
        exact hwritten k (by omega)
  | asleep | removing copy | ended copy => exact h

theorem Kept.exit (h : s.Kept) : s.exit.Kept := by
  unfold Persistence.exit
  split
  · exact h.go h.stray fun _ _ => trivial
  · rename_i copy next hphase
    refine h.go h.stray fun held hprogressed => ?_
    rw [hphase] at hprogressed
    obtain ⟨hcopy, -, hwritten⟩ := hprogressed
    split
    · rename_i hnext
      refine ⟨hcopy, funext fun k => hwritten k ?_⟩
      rw [hnext, hcopy.intact.length]
      exact Nat.mod_lt _ (by decide)
    · trivial
  · exact h

theorem Kept.throw (h : s.Kept) : s.throw.Kept := by
  have hcopy : ∀ copy, (s.cycle = .removing copy ∨ ∃ next, s.cycle = .writing copy next) →
      ∀ copy' ∈ some copy, copy'.Of s.log := by
    rintro copy hphase copy' hcopy'
    cases hcopy'
    obtain ⟨held, -, -, hprogressed⟩ := h.dir
    rcases hphase with hphase | ⟨next, hphase⟩
    · rw [hphase] at hprogressed
      exact hprogressed
    · rw [hphase] at hprogressed
      exact hprogressed.1
  unfold Persistence.throw
  split
  · rename_i copy hphase
    exact h.go (hcopy copy (Or.inl hphase)) fun _ _ => trivial
  · rename_i copy next hphase
    exact h.go (hcopy copy (Or.inr ⟨next, hphase⟩)) fun _ _ => trivial
  · exact h

/-- What the file loses is in the directory. -/
theorem Kept.truncate (h : s.Kept) (hguard : s.Guarded .truncate) : s.truncate.Kept := by
  unfold Persistence.truncate
  split
  · rename_i copy hphase
    obtain ⟨held, hloads, hcovered, hprogressed⟩ := h.dir
    have hlog : ({ s with cycle := .asleep, aof := { s.aof with file := [] },
                          gone := s.gone ++ s.inFile, inFile := [] } : Persistence).log = s.log := by
      simp [log, flushed]
    refine ⟨rfl, h.buffer, by rw [hlog]; exact h.current, by rw [hlog]; exact h.stray, held, hloads,
      fun i c hi => ?_, trivial⟩
    rw [hlog]
    have hi : s.flushed[i]? = some c := hi
    rcases hguard with hempty | hwritten
    · refine (hcovered i c ?_).imp_left ?_
      · rw [flushed, hempty, List.append_nil] at hi
        exact hi
      · rintro ⟨c', hc', -⟩
        rw [hempty] at hc'
        exact absurd hc' (by simp)
    · rw [hphase] at hprogressed hwritten
      cases copy with
      | none => exact absurd hwritten id
      | some copy =>
        obtain ⟨hcopy, rfl⟩ := hprogressed
        obtain ⟨j, hj, hij⟩ := hwritten i (List.getElem?_eq_some_iff.mp hi).1 c hi
        obtain ⟨c', hc', hkey, hvalue⟩ := hcopy.newest hj
        exact Or.inr ⟨j, c', hij, hc', hkey, hvalue⟩
  · exact h

theorem Kept.step {e : Event} (h : s.Kept) (hguard : s.Guarded e) : (s.step e).Kept := by
  cases e with
  | append c due => exact h.append c due
  | store i => exact h.store hguard
  | flush => exact h.flush
  | fork ok => exact h.fork ok
  | remove i => exact h.remove hguard
  | removed => exact h.removed hguard
  | write lost => exact h.write hguard
  | exit => exact h.exit
  | throw => exact h.throw
  | truncate => exact h.truncate hguard

/-- **Crash consistency.** In every run of `SET`s, flushes and snapshot cycles in which the child
empties the directory only when the file alone has everything, writes whole files, and the file is
emptied only when the snapshot covers it: after a crash at any moment, when the store has room for
the replay, a server that comes up has for every command that had got to the file the value of
this command or of a later one of its key.

At every moment the directory makes up for what the file has lost: for each command that is no
longer in the file there is a later one of its key in the file, or the snapshot has its value or
that of a later one (`Covered`). The file is replayed behind the snapshot, so what both have ends as
the file says. The three windows are where the code lets a command be in neither: an emptied
directory, a file emptied without a snapshot, and one emptied of what came after the fork. -/
theorem crash_consistent (r : ServerState) (hr : r.kvstore = {}) (es : List Event)
    (h : Along step Guarded {} es) :
    ∀ pre, pre <+: es → (exec step {} pre).RoomToReplay → Recovers r (exec step {} pre) := by
  rintro pre ⟨post, rfl⟩ hroom
  have hkept : (exec step {} pre).Kept :=
    Along.invariant (fun s e hguard hs => hs.step hguard) h.append.1 kept_new
  exact hkept.recovers hr hroom

/-! ## On a server of its own -/

/-- `a` is set and stored, a snapshot is made and the file emptied, and then `b` is set. -/
def quietCycle : List Event :=
  [.append (Disk.setNumber "a" 1 Disk.cr_not_mem_a) true, .store 0, .fork true, .removed] ++
    List.replicate 16 (.write 0) ++
    [.exit, .truncate, .append (Disk.setNumber "b" 2 Disk.cr_not_mem_b) true]

theorem quietCycle_recovers : Recovers alone (exec step {} quietCycle) := by
  have hrun : Along step Guarded {} quietCycle ∧ (exec step {} quietCycle).RoomToReplay := by
    decide +kernel
  exact crash_consistent alone rfl quietCycle hrun.1 quietCycle (List.prefix_refl _) hrun.2

/-- `a` is set and stored as in the first one, but after the fork. -/
def busyCycle : List Event :=
  [.fork true, .append (Disk.setNumber "a" 1 Disk.cr_not_mem_a) true, .store 0, .removed] ++
    List.replicate 16 (.write 0) ++ [.exit, .truncate]

/-- Its bytes have got to the file, and no server finds them again. -/
theorem busyCycle_lost :
    (exec step {} busyCycle).flushed.map SetCommand.key = [ascii "a"] ∧
      (restart alone (exec step {} busyCycle)).1 = .ok () ∧
      ((restart alone (exec step {} busyCycle)).2.kvstore.lookup (ascii "a")).map Option.isSome
        = .ok false ∧
      ¬ Recovers alone (exec step {} busyCycle) := by
  have hrun : (exec step {} busyCycle).flushed.map SetCommand.key = [ascii "a"] ∧
      (restart alone (exec step {} busyCycle)).1 = .ok () ∧
      ((restart alone (exec step {} busyCycle)).2.kvstore.lookup (ascii "a")).map Option.isSome
        = .ok false := by
    decide +kernel
  obtain ⟨hkeys, hreturns, hnone⟩ := hrun
  refine ⟨hkeys, hreturns, hnone, fun h => ?_⟩
  obtain ⟨c, hflushed, hkey⟩ := List.map_eq_singleton_iff.mp hkeys
  obtain ⟨j, c', -, -, -, hvalue⟩ := h.values 0 c (by rw [hflushed]; rfl)
  rw [hkey] at hvalue
  rw [hvalue] at hnone
  exact absurd hnone (by simp [Except.map])

end Persistence
end Server
end KvJet
