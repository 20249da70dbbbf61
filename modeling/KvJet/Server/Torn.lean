import KvJet.Server.Command

/-!
# A log that is cut off

A server recovers from its append-only file, appends to it and is cut off, with only the first
bytes of its last flush on disk; the next server does the same with what is there. `AOF` opens
the file in append mode and `recover` leaves it alone, so a command that was cut in two stays in
the file, and what the next server appends stands behind the first half of it.

A file that ends in the middle of a command is read up to there, and no further command is
applied (`recover_torn`). The next bytes are another matter: they are taken for the rest of that
command. So the log is recovered as long as nothing is appended behind half a command
(`recovers_of_whole`).
-/

namespace KvJet
namespace Server

open Resp Store Run

/-- A `SET` request as a client can send it. -/
structure SetCommand where
  key : Bytes
  value : RespValue
  sendable : (Write.set key value).Sendable

namespace SetCommand

def write (c : SetCommand) : Write := .set c.key c.value

def request (c : SetCommand) : RespValue := c.write.request

theorem wire (c : SetCommand) : c.request.Wire := c.sendable.wire

/-- The text of the commands, one after another. -/
def texts (cs : List SetCommand) : Bytes := cs.flatMap fun c => encode c.request

@[simp] theorem texts_nil : texts [] = [] := rfl

@[simp] theorem texts_cons (c : SetCommand) (cs : List SetCommand) :
    texts (c :: cs) = encode c.request ++ texts cs := rfl

@[simp] theorem texts_append (cs ds : List SetCommand) : texts (cs ++ ds) = texts cs ++ texts ds :=
  List.flatMap_append

/-- The commands that lie inside the first `n` bytes of their text. -/
def complete : List SetCommand → Nat → List SetCommand
  | [], _ => []
  | c :: cs, n =>
    if (encode c.request).length ≤ n then c :: complete cs (n - (encode c.request).length) else []

end SetCommand

open SetCommand

/-! ## Sessions -/

/-- The life of one server. Its last flush is the one that the append of `last` makes, or, without
`last`, the one of the destructor. -/
structure Session where
  /-- What is appended before, each with what the clock says. -/
  appended : List (SetCommand × Bool)
  last : Option SetCommand
  /-- The number of bytes of the last flush that get to the disk. -/
  kept : Nat

namespace Session

/-- All commands of the session, in the order they are appended. -/
def commands (σ : Session) : List SetCommand := σ.appended.map Prod.fst ++ σ.last.toList

/-- The AOF when the last flush begins. -/
def appends (σ : Session) : Method Fault AOF Unit :=
  forM σ.appended fun c => AOF.append c.1.write.logged c.2

/-- The file after the session. -/
def cut (σ : Session) (file : Bytes) : Bytes :=
  let a := (σ.appends.call { file }).2
  a.file ++ (a.buffer ++ texts σ.last.toList).take σ.kept

end Session

/-- The file, and the commands that are completely in it, in the order they were appended. -/
structure Disk where
  file : Bytes := []
  log : List SetCommand := []

namespace Disk

def step (d : Disk) (σ : Session) : Disk where
  file := σ.cut d.file
  log := d.log ++ complete σ.commands ((σ.cut d.file).length - d.file.length)

/-- **The server `r` recovers**: `recover` of the file is handling the complete commands one
after another, and returns. -/
structure Recovers (r : ServerState) (d : Disk) : Prop where
  applies : AOF.recover d.file = forM (d.log.map SetCommand.request) AOF.replay
  returns : ((AOF.recover d.file).call r).1 = .ok ()

/-- There is nothing but complete commands in the file. -/
def Whole (d : Disk) : Prop := d.file = texts d.log

instance (d : Disk) : Decidable d.Whole := inferInstanceAs (Decidable (_ = _))

end Disk

/-! ## What a session leaves in the file

Whatever the system has taken of the last flush: a part of it from the front. -/

/-- The beginning of a command, and no more. -/
def Torn (tail : Bytes) : Prop :=
  tail = [] ∨ ∃ c : SetCommand, tail <+: encode c.request ∧ tail.length < (encode c.request).length

/-- **A text that is cut off** is its complete commands and then the beginning of one. -/
theorem take_texts : ∀ (cs : List SetCommand) (n : Nat),
    ∃ tail, (texts cs).take n = texts (complete cs n) ++ tail ∧ Torn tail := by
  intro cs
  induction cs with
  | nil => exact fun n => ⟨[], by simp [complete], Or.inl rfl⟩
  | cons c cs ih =>
    intro n
    by_cases hfits : (encode c.request).length ≤ n
    · obtain ⟨tail, htake, htorn⟩ := ih (n - (encode c.request).length)
      refine ⟨tail, ?_, htorn⟩
      rw [complete, if_pos hfits, texts_cons, texts_cons, List.take_append,
        List.take_of_length_le hfits, htake, List.append_assoc]
    · refine ⟨(encode c.request).take n, ?_, Or.inr ⟨c, List.take_prefix n _, ?_⟩⟩
      · rw [complete, if_neg hfits, texts_cons, List.take_append_of_le_length (by omega)]
        rfl
      · rw [List.length_take]
        omega

/-- The file grows by a first part of what is appended. -/
theorem Session.call_appends : ∀ (cs : List (SetCommand × Bool)) (a : AOF),
    ∃ a', (forM cs fun c => AOF.append c.1.write.logged c.2 : Method Fault AOF Unit).call a
        = (.ok (), a') ∧
      a'.flush.file = a.flush.file ++ texts (cs.map Prod.fst) ∧ a.file <+: a'.file := by
  intro cs
  induction cs with
  | nil => exact fun a => ⟨a, rfl, by simp, List.prefix_refl _⟩
  | cons c cs ih =>
    intro a
    obtain ⟨a₁, happ, hlog, hgrows⟩ := call_append
      (encodeRequest_whole [.simpleString (ascii "SET"), .simpleString c.1.key, c.1.value]) c.2 a
    obtain ⟨a₂, hrest, hlogs, hgrow⟩ := ih a₁
    refine ⟨a₂, ?_, ?_, hgrows.trans hgrow⟩
    · rw [List.forM_cons]
      exact (Method.call_bind_ok happ _).trans hrest
    · rw [hlogs, hlog, List.map_cons, texts_cons, List.append_assoc]
      rfl

theorem Session.cut_eq (σ : Session) (file : Bytes) :
    ∃ n, σ.cut file = file ++ (texts σ.commands).take n := by
  obtain ⟨a, happ, hlog, hgrows⟩ := Session.call_appends σ.appended { file }
  obtain ⟨flushed, hflushed⟩ := hgrows
  have hfile : a.file = file ++ flushed := hflushed.symm
  have htexts : flushed ++ a.buffer = texts (σ.appended.map Prod.fst) := by
    have h : a.file ++ a.buffer = (file ++ []) ++ texts (σ.appended.map Prod.fst) := hlog
    rw [hfile, List.append_nil, List.append_assoc] at h
    exact List.append_cancel_left h
  refine ⟨flushed.length + σ.kept, ?_⟩
  have hcut : σ.cut file = a.file ++ (a.buffer ++ texts σ.last.toList).take σ.kept := by
    rw [Session.cut, Session.appends, happ]
  have htake : (flushed ++ (a.buffer ++ texts σ.last.toList)).take (flushed.length + σ.kept)
      = flushed ++ (a.buffer ++ texts σ.last.toList).take σ.kept := List.take_length_add_append _
  rw [hcut, hfile, Session.commands, texts_append, ← htexts, List.append_assoc, List.append_assoc,
    htake]

/-! ## Reading it back -/

/-- **Half a command at the end of the file** does no harm: it is not applied.

The parser waits for the rest of that command, and nothing that is not complete is handed out. -/
theorem recover_torn {cs : List SetCommand} {tail : Bytes} (htorn : Torn tail) :
    AOF.recover (texts cs ++ tail) = forM (cs.map SetCommand.request) AOF.replay := by
  have hwire : ∀ v ∈ cs.map SetCommand.request, v.Wire := by
    intro v hv
    obtain ⟨c, -, rfl⟩ := List.mem_map.mp hv
    exact c.wire
  have htexts : texts cs = (cs.map SetCommand.request).flatMap encode := by
    rw [texts, List.flatMap_map]
  have hwhole := append_encodings (cs.map SetCommand.request) hwire []
  rw [← htexts] at hwhole
  rcases htorn with rfl | ⟨c, hprefix, hshort⟩
  · rw [List.append_nil]
    exact recover_of_append hwhole
  · -- the parser has read a part of the command, and queued nothing for it
    obtain ⟨p, hrun, hqueue⟩ := (emits_encode c.wire (cs.map SetCommand.request)).take hshort
    rw [← List.prefix_iff_eq_take.mp hprefix] at hrun
    have happ : ({} : RespParser).append (texts cs ++ tail) = .ok p := by
      show Stream.run RespParser.feed (idle [] []) (texts cs ++ tail) = _
      rw [Stream.run_append_ok RespParser.feed hwhole]
      exact hrun
    rw [recover_of_append happ, hqueue]
    rfl

/-- The store has room for each of the commands, when it is its turn. -/
def RoomFor (s : KVStore RespValue) (cs : List SetCommand) : Prop :=
  Along (fun s c => ((KVStore.set c.key c.value).call s).2) (fun s c => s.Room c.key) s cs

instance (s : KVStore RespValue) (cs : List SetCommand) : Decidable (RoomFor s cs) :=
  Along.decidable _ _ _ _

/-- With room, the replay of commands returns, and the store takes them in their order. -/
theorem replay_contents : ∀ {cs : List SetCommand} {r : ServerState} {m : Bytes → Option RespValue},
    r.kvstore.Contents m → RoomFor r.kvstore cs →
      ∃ r', (forM (cs.map SetCommand.request) AOF.replay : ServerM Unit).call r = (.ok (), r') ∧
        r'.kvstore.Contents (effects m (cs.map SetCommand.write)) := by
  intro cs
  induction cs with
  | nil => intro r m hr _; exact ⟨r, rfl, hr⟩
  | cons c cs ih =>
    intro r m hr ⟨hroom, hrest⟩
    obtain ⟨evicted, kv, hset, hcontents⟩ := KVStore.set_contents hr c.value hroom
    have hreplay : (AOF.replay c.request).call r = (.ok (), { r with kvstore := kv }) := by
      show (AOF.replay (Write.set c.key c.value).request).call r = _
      rw [call_replay_set, hset]
      rfl
    have hrest : RoomFor kv cs := by
      have h : RoomFor ((KVStore.set c.key c.value).call r.kvstore).2 cs := hrest
      rwa [hset] at h
    rw [List.map_cons, List.forM_cons, Method.call_bind_ok hreplay]
    exact ih (r := { r with kvstore := kv }) hcontents hrest

/-! ## All sessions -/

namespace Disk

/-- Nothing is appended behind half a command, and there is room for what is then in the file. -/
def Clean (r : ServerState) (d : Disk) (σ : Session) : Prop :=
  (d.Whole ∨ σ.cut d.file = d.file) ∧ RoomFor r.kvstore (d.step σ).log

instance (r : ServerState) (d : Disk) (σ : Session) : Decidable (Clean r d σ) :=
  inferInstanceAs (Decidable ((_ ∨ _) ∧ _))

/-- The complete commands, and then the beginning of one. -/
structure Framed (r : ServerState) (d : Disk) : Prop where
  file : ∃ tail, d.file = texts d.log ++ tail ∧ Torn tail
  room : RoomFor r.kvstore d.log

theorem framed_new (r : ServerState) : Framed r {} where
  file := ⟨[], rfl, Or.inl rfl⟩
  room := trivial

theorem complete_zero (cs : List SetCommand) : complete cs 0 = [] := by
  cases cs with
  | nil => rfl
  | cons c cs =>
    have hpos : ¬ (encode c.request).length ≤ 0 := by
      have := List.length_pos_iff.mpr (encode_ne_nil c.request)
      omega
    rw [complete, if_neg hpos]

theorem Framed.step {r : ServerState} {d : Disk} {σ : Session} (h : Framed r d)
    (hclean : Clean r d σ) : Framed r (d.step σ) where
  file := by
    rcases hclean.1 with hwhole | hsame
    · obtain ⟨n, hcut⟩ := σ.cut_eq d.file
      have hlen : (σ.cut d.file).length - d.file.length = min n (texts σ.commands).length := by
        rw [hcut, List.length_append, List.length_take, Nat.add_sub_cancel_left]
      obtain ⟨tail, htake, htorn⟩ := take_texts σ.commands (min n (texts σ.commands).length)
      refine ⟨tail, ?_, htorn⟩
      show σ.cut d.file = texts (d.log ++ complete σ.commands _) ++ tail
      rw [hlen, hcut, texts_append, List.append_assoc, ← htake, ← hwhole, List.take_eq_take_min]
    · -- nothing was written
      obtain ⟨tail, hfile, htorn⟩ := h.file
      refine ⟨tail, ?_, htorn⟩
      show σ.cut d.file = texts (d.log ++ complete σ.commands _) ++ tail
      rw [hsame, Nat.sub_self, complete_zero, List.append_nil]
      exact hfile
  room := hclean.2

theorem Framed.recovers {r : ServerState} {m : Bytes → Option RespValue} {d : Disk}
    (h : Framed r d) (hr : r.kvstore.Contents m) : Recovers r d := by
  obtain ⟨tail, hfile, htorn⟩ := h.file
  have happlies : AOF.recover d.file = forM (d.log.map SetCommand.request) AOF.replay := by
    rw [hfile]
    exact recover_torn htorn
  refine ⟨happlies, ?_⟩
  obtain ⟨r', hreplay, -⟩ := replay_contents hr h.room
  rw [happlies, hreplay]

/-- **Recovery from a log that was cut off.** In every sequence of sessions in which no byte is
appended behind half a command, and in which the store has room for the commands in the file:
after each session `recover` returns, and has applied exactly the commands that are completely in
the file, in the order they were appended.

The parser stops where the file ends, and has handed out the requests up to there, so half a command
at the end is as if it were not there. It stays in the file, and what the next session appends is
read as the rest of it, so the file has to end in a whole command before anything is appended. Then
the file is always a sequence of whole commands and a part of one more. -/
theorem recovers_of_whole (r : ServerState) (m : Bytes → Option RespValue)
    (hr : r.kvstore.Contents m) (σs : List Session) (h : Along step (Clean r) {} σs) :
    ∀ pre, pre <+: σs → Recovers r (exec step {} pre) := by
  rintro pre ⟨post, rfl⟩
  have hframed : Framed r (exec step {} pre) :=
    Along.invariant (fun d σ hclean hd => hd.step hclean) h.append.1 (framed_new r)
  exact hframed.recovers hr

def setNumber (key : String) (n : Int64) (h : cr ∉ ascii key) : SetCommand :=
  ⟨ascii key, .integer n, h, trivial, by simp⟩

theorem cr_not_mem_a : cr ∉ ascii "a" := by decide

theorem cr_not_mem_b : cr ∉ ascii "b" := by decide

/-- The second server is cut off inside its second command, and no other comes up. -/
def cutAtTheEnd : List Session :=
  [⟨[(setNumber "a" 1 cr_not_mem_a, true)], none, 0⟩,
    ⟨[(setNumber "b" 2 cr_not_mem_b, false)], some (setNumber "a" 3 cr_not_mem_a), 30⟩]

theorem recovers_cutAtTheEnd : Recovers alone (exec step {} cutAtTheEnd) := by
  refine recovers_of_whole alone (fun _ => none) KVStore.contents_new cutAtTheEnd ?_ cutAtTheEnd
    (List.prefix_refl _)
  decide +kernel

/-- The first server is cut off after the name of its command; the second one is not. -/
def cutInTheMiddle : List Session :=
  [⟨[], some (setNumber "a" 1 cr_not_mem_a), 10⟩, ⟨[], some (setNumber "b" 2 cr_not_mem_b), 21⟩]

/-- The command of the second server is completely in the file, and is taken for the key of the
first server's: nothing is applied. -/
theorem cutInTheMiddle_lost :
    (exec step {} cutInTheMiddle).file
        = ascii "*3\r\n+SET\r\n*3\r\n+SET\r\n+b\r\n:2\r\n" ∧
      (exec step {} cutInTheMiddle).log.map SetCommand.key = [ascii "b"] ∧
      (AOF.recover (exec step {} cutInTheMiddle).file).call alone = (.ok (), alone) ∧
      ¬ Recovers alone (exec step {} cutInTheMiddle) := by
  have hfile : (exec step {} cutInTheMiddle).file
      = ascii "*3\r\n+SET\r\n*3\r\n+SET\r\n+b\r\n:2\r\n" := by decide +kernel
  have hkeys : (exec step {} cutInTheMiddle).log.map SetCommand.key = [ascii "b"] := by
    decide +kernel
  have hparsed : (({} : RespParser).append (exec step {} cutInTheMiddle).file).map
      (fun p => p.messageQueue.isEmpty) = .ok true := by
    decide +kernel
  obtain ⟨p, happ, hqueue⟩ : ∃ p, ({} : RespParser).append (exec step {} cutInTheMiddle).file
      = .ok p ∧ p.messageQueue = [] := by
    cases happ : ({} : RespParser).append (exec step {} cutInTheMiddle).file with
    | error e =>
      rw [happ] at hparsed
      exact absurd hparsed (by simp [Except.map])
    | ok p =>
      rw [happ] at hparsed
      exact ⟨p, rfl, by simpa [Except.map] using hparsed⟩
  have hnothing : (AOF.recover (exec step {} cutInTheMiddle).file).call alone = (.ok (), alone) := by
    rw [recover_of_append happ, hqueue]
    rfl
  refine ⟨hfile, hkeys, hnothing, fun h => ?_⟩
  -- what should have been applied leaves something in the store
  obtain ⟨c, hlog, hkey⟩ := List.map_eq_singleton_iff.mp hkeys
  obtain ⟨evicted, kv, hset, hcontents, -⟩ := KVStore.set_new c.key c.value
  have hreplay := call_replay_set (s := alone) c.key c.value
  rw [show alone.kvstore = {} from rfl, hset] at hreplay
  rw [h.applies, hlog] at hnothing
  have hcall := (Method.call_bind_ok hreplay fun _ => forM [] AOF.replay).symm.trans hnothing
  have hsame : kv = {} := congrArg (fun x => x.2.kvstore) hcall
  rw [hsame] at hcontents
  have hnone := congrFun (hcontents.unique KVStore.contents_new) c.key
  rw [Function.update_self] at hnone
  exact absurd hnone (by simp)

end Disk
end Server
end KvJet
