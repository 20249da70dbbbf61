import KvJet.Lib.Method
import KvJet.Lib.Run
import KvJet.Resp.Parser
import Mathlib.Logic.Function.Basic

/-!
# The event loop

`Server::run` and what `epoll_step` does with connections: it takes new ones in, reads what has
arrived on the others, and puts the requests that are complete on the queue of the thread pool.

Every connection has its own parser, so what is dispatched for one depends on its own bytes alone
and not on how they were cut (`Follows.run`), as long as nothing is thrown and no bytes come
together with the end of their stream: `recv` then erases the connection first, and the bytes it
returns find no parser. What a parser throws at the bytes of one connection leaves the loop, since
`run` catches outside of it, and nobody is served any more (`malformed_ends_all`).

What else the main thread does in an iteration is its environment here, which may make it throw.
-/

namespace KvJet
namespace Server

open Resp Run

/-- An entry of `connections`. -/
structure Connection where
  /-- How many connections were there before it. Nothing reads it. -/
  number : Nat
  parser : RespParser := {}

/-- A call of `threadPool.enqueue`. -/
structure Dispatched where
  /-- The number of the connection. Nothing reads it. -/
  number : Nat
  fd : Int
  request : RespValue

structure EventLoop where
  connections : Int → Option Connection := fun _ => none
  /-- The number of the next connection. -/
  opened : Nat := 0
  /-- `run` is in its loop. -/
  running : Bool := true
  dispatched : List Dispatched := []

abbrev EventLoopM := Method Fault EventLoop

/-- What an iteration of the loop comes upon. -/
inductive Move where
  /-- `accept` returns a descriptor. -/
  | accept (fd : Int)
  /-- `recv` returns `data`; it has come to the end of the stream, or to an error. -/
  | client (fd : Int) (data : Bytes) (ended : Bool)
  /-- `connect` gets to a node; `rest` is what has arrived behind the answer to `HELLO`. -/
  | connect (fd : Int) (rest : Bytes)
  /-- `send` finds that the peer is gone. -/
  | drop (fd : Int)
  /-- A call of the system fails and the code throws, or a handler of the main loop throws. -/
  | fails

namespace EventLoop

/-- `connections[fd] = std::move(sock)`. The system gives no descriptor that is in use. -/
def insert (s : EventLoop) (fd : Int) (parser : RespParser) : EventLoop :=
  if (s.connections fd).isSome then s
  else
    { s with
      connections := Function.update s.connections fd (some ⟨s.opened, parser⟩)
      opened := s.opened + 1 }

def erase (s : EventLoop) (fd : Int) : EventLoop :=
  { s with connections := Function.update s.connections fd none }

/-- `getResult` and `enqueue` until there is no result left. -/
def dispatch (s : EventLoop) (fd : Int) (c : Connection) (p : RespParser) : EventLoop :=
  { s with
    connections :=
      Function.update s.connections fd (some { c with parser := { p with messageQueue := [] } })
    dispatched := s.dispatched ++ p.messageQueue.map fun request => ⟨c.number, fd, request⟩ }

end EventLoop

def Move.act : Move → EventLoopM Unit
  | .accept fd => modify fun s => s.insert fd {}
  | .client fd data ended => do
    match (← get).connections fd with
    | none => return
    | some c =>
      -- `recv` has erased the connection, and `find` does not find it
      if ended then modify fun s => s.erase fd
      else if data.isEmpty then return
      else
        let p ← Method.lift (c.parser.append data)
        modify fun s => s.dispatch fd c p
  | .connect fd rest => do
    let p ← Method.lift (RespParser.append {} rest)
    modify fun s => s.insert fd p
  | .drop fd => modify fun s => s.erase fd
  | .fails => throw (.exception "Send error: ")

/-- The descriptor of the connection that a move is about. -/
def Move.fd : Move → Option Int
  | .client fd _ _ | .drop fd => some fd
  | .accept _ | .connect _ _ | .fails => none

/-- First what `epoll_wait` reports, then the rest. -/
structure Iteration where
  ready : List Move
  rest : List Move := []

def epollStep (it : Iteration) : EventLoopM Unit := do
  forM it.ready Move.act
  forM it.rest Move.act

namespace EventLoop

/-- The `catch` of `run`, outside of the loop. -/
def settle : Except Fault Unit × EventLoop → EventLoop
  | (.ok _, s) => s
  | (.error _, s) => { s with running := false }

/-- One turn of the loop of `run`. -/
def iterate (s : EventLoop) (it : Iteration) : EventLoop :=
  if s.running then settle ((epollStep it).call s) else s

/-- What has been dispatched for a connection. -/
def requests (s : EventLoop) (n : Nat) : List RespValue :=
  (s.dispatched.filter fun d => d.number = n).map Dispatched.request

/-- The connection has just been opened. -/
structure Opened (s : EventLoop) (n : Nat) (fd : Int) : Prop where
  running : s.running = true
  connected : s.connections fd = some ⟨n, {}⟩
  fresh : s.requests n = []

/-! ## Move by move -/

/-- One move, where the loop is in its body or has been left. -/
def move (s : EventLoop) (m : Move) : EventLoop :=
  if s.running then settle (m.act.call s) else s

def moves (its : List Iteration) : List Move := its.flatMap fun it => it.ready ++ it.rest

theorem move_of_left {s : EventLoop} (h : s.running = false) (m : Move) : s.move m = s := by
  rw [move, if_neg (by simp [h])]

theorem exec_of_left {s : EventLoop} (h : s.running = false) :
    ∀ ms : List Move, exec move s ms = s := by
  intro ms
  induction ms with
  | nil => rfl
  | cons m ms ih => rw [exec_cons, move_of_left h, ih]

theorem act_client (s : EventLoop) (fd : Int) (data : Bytes) (ended : Bool) :
    (Move.client fd data ended).act.call s = match s.connections fd with
      | none => (.ok (), s)
      | some c =>
        if ended then (.ok (), s.erase fd)
        else if data.isEmpty then (.ok (), s)
        else match c.parser.append data with
          | .ok p => (.ok (), s.dispatch fd c p)
          | .error e => (.error e, s) := by
  unfold Move.act
  rw [Method.call_bind_ok (Method.call_get s)]
  cases s.connections fd with
  | none => rfl
  | some c =>
    cases ended with
    | true => rfl
    | false =>
      cases data.isEmpty with
      | true => rfl
      | false =>
        show Method.call (Method.lift (c.parser.append data) >>= fun p =>
          modify fun s => s.dispatch fd c p) s = _
        cases hp : c.parser.append data with
        | ok p =>
          rw [Method.call_bind_ok (Method.call_lift _ s), Method.call_modify]
          simp [hp]
        | error e =>
          rw [Method.call_bind_error (Method.call_lift _ s)]
          simp [hp]

theorem act_connect (s : EventLoop) (fd : Int) (rest : Bytes) :
    (Move.connect fd rest).act.call s = match RespParser.append {} rest with
      | .ok p => (.ok (), s.insert fd p)
      | .error e => (.error e, s) := by
  show Method.call (Method.lift (RespParser.append {} rest) >>= fun p =>
    modify fun s => s.insert fd p) s = _
  cases hp : RespParser.append {} rest with
  | ok p => rw [Method.call_bind_ok (Method.call_lift _ s), Method.call_modify]
  | error e => rw [Method.call_bind_error (Method.call_lift _ s)]

theorem running_insert (s : EventLoop) (fd : Int) (parser : RespParser) :
    (s.insert fd parser).running = s.running := by
  unfold insert
  split <;> rfl

/-- Only what is thrown ends the loop. -/
theorem running_act (s : EventLoop) (m : Move) : (m.act.call s).2.running = s.running := by
  cases m with
  | accept fd => exact running_insert s fd {}
  | client fd data ended =>
    rw [act_client]
    cases s.connections fd with
    | none => rfl
    | some c =>
      dsimp only
      split
      · rfl
      · split
        · rfl
        · cases c.parser.append data <;> rfl
  | connect fd rest =>
    rw [act_connect]
    cases RespParser.append {} rest with
    | ok p => exact running_insert s fd p
    | error e => rfl
  | drop fd => rfl
  | fails => rfl

/-- The moves of an iteration one after another, the rest of them skipped after a throw. -/
theorem settle_forM : ∀ (ms : List Move) (s : EventLoop), s.running = true →
    settle ((forM ms Move.act).call s) = exec move s ms := by
  intro ms
  induction ms with
  | nil => intro s _; rfl
  | cons m ms ih =>
    intro s hs
    have hrunning := running_act s m
    rw [exec_cons, move, if_pos hs, List.forM_cons]
    cases hact : m.act.call s with
    | mk r s' =>
      rw [hact] at hrunning
      cases r with
      | ok u => rw [Method.call_bind_ok hact, ih s' (hrunning.trans hs), settle]
      | error e =>
        rw [Method.call_bind_error hact, settle]
        exact (exec_of_left rfl ms).symm

theorem iterate_eq (s : EventLoop) (it : Iteration) :
    s.iterate it = exec move s (it.ready ++ it.rest) := by
  cases hs : s.running with
  | false => rw [iterate, if_neg (by simp [hs]), exec_of_left hs]
  | true => rw [iterate, if_pos hs, epollStep, ← List.forM_append, settle_forM _ s hs]

/-- **A run of the loop** is the run of its moves. -/
theorem exec_iterate (its : List Iteration) : ∀ s : EventLoop,
    exec iterate s its = exec move s (moves its) := by
  induction its with
  | nil => intro s; rfl
  | cons it its ih =>
    intro s
    have hmoves : moves (it :: its) = it.ready ++ it.rest ++ moves its := List.flatMap_cons
    rw [hmoves, exec_append, exec_cons, ih, iterate_eq]

/-! ## Numbers -/

/-- No two connections have the same number. -/
structure Numbered (s : EventLoop) : Prop where
  below : ∀ fd, ∀ c ∈ s.connections fd, c.number < s.opened
  apart : ∀ fd fd', ∀ c ∈ s.connections fd, ∀ c' ∈ s.connections fd', c.number = c'.number → fd = fd'
  past : ∀ d ∈ s.dispatched, d.number < s.opened

theorem numbered_start : ({} : EventLoop).Numbered where
  below := fun _ _ hc => absurd hc (by simp)
  apart := fun _ _ _ hc => absurd hc (by simp)
  past := fun _ hd => absurd hd List.not_mem_nil

section Numbers

variable {s : EventLoop} {fd : Int} {c : Connection}

theorem mem_update_iff {connections : Int → Option Connection} {fd fd' : Int} {o : Option Connection}
    {c : Connection} : c ∈ Function.update connections fd o fd' ↔
      (fd' = fd ∧ c ∈ o) ∨ (fd' ≠ fd ∧ c ∈ connections fd') := by
  by_cases h : fd' = fd
  · subst h
    simp
  · simp [h]

theorem Numbered.insert (h : s.Numbered) (fd : Int) (parser : RespParser) :
    (s.insert fd parser).Numbered := by
  unfold EventLoop.insert
  split
  · exact h
  · refine ⟨fun fd' c hc => ?_, fun fd' fd'' c hc c' hc' hn => ?_, fun d hd => ?_⟩
    · rcases mem_update_iff.mp hc with ⟨-, hnew⟩ | ⟨-, hold⟩
      · rw [← Option.some.inj hnew]
        exact Nat.lt_succ_self _
      · exact Nat.lt_succ_of_lt (h.below fd' c hold)
    · rcases mem_update_iff.mp hc with ⟨hfd, hnew⟩ | ⟨-, hold⟩ <;>
        rcases mem_update_iff.mp hc' with ⟨hfd', hnew'⟩ | ⟨-, hold'⟩
      · exact hfd.trans hfd'.symm
      · -- the number of the new connection is not that of an old one
        have hlt := h.below fd'' c' hold'
        rw [← hn, ← Option.some.inj hnew] at hlt
        exact absurd hlt (Nat.lt_irrefl _)
      · have hlt := h.below fd' c hold
        rw [hn, ← Option.some.inj hnew'] at hlt
        exact absurd hlt (Nat.lt_irrefl _)
      · exact h.apart fd' fd'' c hold c' hold' hn
    · exact Nat.lt_succ_of_lt (h.past d hd)

theorem Numbered.erase (h : s.Numbered) (fd : Int) : (s.erase fd).Numbered := by
  have hold : ∀ fd', ∀ c ∈ (s.erase fd).connections fd', c ∈ s.connections fd' := by
    intro fd' c hc
    rcases mem_update_iff.mp hc with ⟨-, hc⟩ | ⟨-, hc⟩
    · exact absurd hc (by simp)
    · exact hc
  exact ⟨fun fd' c hc => h.below fd' c (hold fd' c hc),
    fun fd' fd'' c hc c' hc' => h.apart fd' fd'' c (hold fd' c hc) c' (hold fd'' c' hc'), h.past⟩

theorem Numbered.dispatch (h : s.Numbered) (hc : c ∈ s.connections fd) (p : RespParser) :
    (s.dispatch fd c p).Numbered := by
  -- the connection is still there, under its number
  have hold : ∀ fd', ∀ d ∈ (s.dispatch fd c p).connections fd',
      ∃ d' ∈ s.connections fd', d'.number = d.number := by
    intro fd' d hd
    rcases mem_update_iff.mp hd with ⟨hfd, hnew⟩ | ⟨-, hsame⟩
    · exact ⟨c, hfd ▸ hc, by rw [← Option.some.inj hnew]⟩
    · exact ⟨d, hsame, rfl⟩
  refine ⟨fun fd' d hd => ?_, fun fd' fd'' d hd e he hn => ?_, fun d hd => ?_⟩
  · obtain ⟨d', hd', hn⟩ := hold fd' d hd
    exact hn ▸ h.below fd' d' hd'
  · obtain ⟨d', hd', hdn⟩ := hold fd' d hd
    obtain ⟨e', he', hen⟩ := hold fd'' e he
    exact h.apart fd' fd'' d' hd' e' he' (hdn.trans (hn.trans hen.symm))
  · rcases List.mem_append.mp hd with hd | hd
    · exact h.past d hd
    · obtain ⟨request, -, rfl⟩ := List.mem_map.mp hd
      exact h.below fd c hc

theorem Numbered.act (h : s.Numbered) (m : Move) : (m.act.call s).2.Numbered := by
  cases m with
  | accept fd => exact h.insert fd {}
  | client fd data ended =>
    rw [act_client]
    cases hc : s.connections fd with
    | none => exact h
    | some c =>
      dsimp only
      split
      · exact h.erase fd
      · split
        · exact h
        · cases c.parser.append data with
          | ok p => exact h.dispatch hc p
          | error e => exact h
  | connect fd rest =>
    rw [act_connect]
    cases RespParser.append {} rest with
    | ok p => exact h.insert fd p
    | error e => exact h
  | drop fd => exact h.erase fd
  | fails => exact h

theorem Numbered.move (h : s.Numbered) (m : Move) : (s.move m).Numbered := by
  unfold EventLoop.move
  split
  · have hact := h.act m
    cases hcall : m.act.call s with
    | mk r s' =>
      rw [hcall] at hact
      cases r with
      | ok u => exact hact
      | error e => exact ⟨hact.below, hact.apart, hact.past⟩
  · exact h

theorem numbered_exec (ms : List Move) : (exec EventLoop.move {} ms).Numbered :=
  Run.keeps_exec (fun _ m h => h.move m) ms numbered_start

end Numbers

/-! ## One connection

The loop serves many, and one of them sees its own bytes only. -/

/-- The bytes of the connection that is on `fd`, up to its end. -/
def delivered (fd : Int) : List Move → Bytes
  | [] => []
  | .client fd' data ended :: ms =>
    if fd' = fd then if ended then data else data ++ delivered fd ms else delivered fd ms
  | .drop fd' :: ms => if fd' = fd then [] else delivered fd ms
  | .accept _ :: ms | .connect _ _ :: ms | .fails :: ms => delivered fd ms

/-- Nothing is thrown, and connection `n` does not end together with bytes of it. -/
def Calm (n : Nat) (s : EventLoop) : Move → Prop
  | .accept _ | .drop _ => True
  | .client fd data ended => ∀ c ∈ s.connections fd,
      (ended = false → (c.parser.append data).isOk) ∧ (ended = true → c.number = n → data = [])
  | .connect _ rest => (RespParser.append {} rest).isOk
  | .fails => False

instance (n : Nat) (s : EventLoop) : DecidablePred (s.Calm n)
  | .accept _ | .drop _ => inferInstanceAs (Decidable True)
  | .client fd _ _ => inferInstanceAs (Decidable (∀ c ∈ s.connections fd, (_ → _) ∧ (_ → _ → _)))
  | .connect _ rest => inferInstanceAs (Decidable ((RespParser.append {} rest).isOk = true))
  | .fails => inferInstanceAs (Decidable False)

/-- Connection `n` has sent `bs` and nothing else: what has been dispatched for it are the requests
in them, and if it is still there its parser has read them. -/
structure Follows (n : Nat) (bs : Bytes) (s : EventLoop) : Prop where
  running : s.running = true
  numbered : s.Numbered
  below : n < s.opened
  parsed : ∃ p, RespParser.append {} bs = .ok p ∧ s.requests n = p.messageQueue ∧
    ∀ fd, ∀ c ∈ s.connections fd, c.number = n → c.parser = { p with messageQueue := [] }

theorem Opened.follows {s : EventLoop} {n : Nat} {fd : Int} (h : s.Opened n fd)
    (hs : s.Numbered) : s.Follows n [] where
  running := h.running
  numbered := hs
  below := hs.below fd _ h.connected
  parsed := by
    refine ⟨{}, rfl, h.fresh, fun fd' c hc hn => ?_⟩
    obtain rfl := hs.apart fd' fd c hc ⟨n, {}⟩ h.connected hn
    rw [h.connected] at hc
    rw [← Option.some.inj hc]

section Steps

variable {s s' : EventLoop} {n : Nat} {bs : Bytes} {fd : Int} {c : Connection} {m : Move}

theorem move_ok (hs : s.running = true) {u : Unit} (hact : m.act.call s = (.ok u, s')) :
    s.move m = s' := by
  rw [move, if_pos hs, hact, settle]

theorem requests_dispatch (s : EventLoop) (fd : Int) (c : Connection) (p : RespParser) (n : Nat) :
    (s.dispatch fd c p).requests n
      = s.requests n ++ if c.number = n then p.messageQueue else [] := by
  unfold requests dispatch
  rw [List.filter_append, List.map_append]
  congr 1
  by_cases h : c.number = n
  · rw [if_pos h, List.filter_eq_self.mpr (by simp [h]), List.map_map]
    exact List.map_id _
  · rw [if_neg h, List.filter_eq_nil_iff.mpr (by simp [h])]
    rfl

/-- What has been dispatched for `n`, and where it is. -/
structure Alike (n : Nat) (s s' : EventLoop) : Prop where
  running : s'.running = s.running
  opened : s.opened ≤ s'.opened
  requests : s'.requests n = s.requests n
  connected : ∀ fd c, c.number = n → (c ∈ s'.connections fd ↔ c ∈ s.connections fd)

theorem Follows.of_alike (h : s.Follows n bs) (halike : Alike n s s') (hs' : s'.Numbered) :
    s'.Follows n bs where
  running := halike.running.trans h.running
  numbered := hs'
  below := Nat.lt_of_lt_of_le h.below halike.opened
  parsed := by
    obtain ⟨p, hp, hqueue, hparser⟩ := h.parsed
    refine ⟨p, hp, halike.requests.trans hqueue, fun fd c hc hn => ?_⟩
    exact hparser fd c ((halike.connected fd c hn).mp hc) hn

theorem alike_insert (h : n < s.opened) (fd : Int) (parser : RespParser) :
    Alike n s (s.insert fd parser) := by
  unfold insert
  split
  · exact ⟨rfl, Nat.le_refl _, rfl, fun _ _ _ => Iff.rfl⟩
  · rename_i hfree
    refine ⟨rfl, Nat.le_succ _, rfl, fun fd' c hn => ?_⟩
    rw [mem_update_iff]
    constructor
    · rintro (⟨-, hc⟩ | ⟨-, hc⟩)
      · rw [← Option.some.inj hc] at hn
        exact absurd hn (Nat.ne_of_gt h)
      · exact hc
    · intro hc
      refine Or.inr ⟨?_, hc⟩
      rintro rfl
      exact hfree (Option.isSome_iff_exists.mpr ⟨c, hc⟩)

theorem alike_erase (hother : ∀ c ∈ s.connections fd, c.number ≠ n) : Alike n s (s.erase fd) := by
  refine ⟨rfl, Nat.le_refl _, rfl, fun fd' c hn => ?_⟩
  unfold erase
  rw [mem_update_iff]
  constructor
  · rintro (⟨-, hc⟩ | ⟨-, hc⟩)
    · exact absurd hc (by simp)
    · exact hc
  · intro hc
    refine Or.inr ⟨?_, hc⟩
    rintro rfl
    exact hother c hc hn

theorem alike_dispatch (hc : c ∈ s.connections fd) (hother : c.number ≠ n) (p : RespParser) :
    Alike n s (s.dispatch fd c p) := by
  refine ⟨rfl, Nat.le_refl _, ?_, fun fd' d hn => ?_⟩
  · rw [requests_dispatch, if_neg hother, List.append_nil]
  · unfold dispatch
    rw [mem_update_iff]
    constructor
    · rintro (⟨-, hd⟩ | ⟨-, hd⟩)
      · rw [← Option.some.inj hd] at hn
        exact absurd hn hother
      · exact hd
    · intro hd
      refine Or.inr ⟨?_, hd⟩
      rintro rfl
      obtain rfl : c = d := Option.some.inj (hc.symm.trans hd)
      exact hother hn

/-- What a calm move comes to. -/
theorem move_client (hs : s.running = true) (hc : s.connections fd = some c) {data : Bytes}
    {ended : Bool} (hcalm : s.Calm n (.client fd data ended)) :
    s.move (.client fd data ended) = s.erase fd ∧ ended = true ∨
      s.move (.client fd data ended) = s ∧ ended = false ∧ data = [] ∨
      ended = false ∧ ∃ p, c.parser.append data = .ok p ∧
        s.move (.client fd data ended) = s.dispatch fd c p := by
  have hact := act_client s fd data ended
  rw [hc] at hact
  cases ended with
  | true => exact Or.inl ⟨move_ok hs hact, rfl⟩
  | false =>
    right
    cases data with
    | nil => exact Or.inl ⟨move_ok hs hact, rfl, rfl⟩
    | cons b bs =>
      obtain ⟨p, hp⟩ := Except.exists_of_isOk ((hcalm c hc).1 rfl)
      simp only [hp] at hact
      exact Or.inr ⟨rfl, p, hp, move_ok hs hact⟩

/-- A move that is about another connection. -/
theorem Follows.other (h : s.Follows n bs) (hcalm : s.Calm n m)
    (hother : ∀ fd ∈ m.fd, ∀ c ∈ s.connections fd, c.number ≠ n) : Alike n s (s.move m) := by
  have hsame : Alike n s s := ⟨rfl, Nat.le_refl _, rfl, fun _ _ _ => Iff.rfl⟩
  cases m with
  | accept fd =>
    rw [move_ok (m := .accept fd) h.running rfl]
    exact alike_insert h.below fd {}
  | client fd data ended =>
    cases hc : s.connections fd with
    | none =>
      have hact := act_client s fd data ended
      rw [hc] at hact
      rw [move_ok h.running hact]
      exact hsame
    | some c =>
      have hne := hother fd rfl
      rcases move_client h.running hc hcalm with ⟨hmove, -⟩ | ⟨hmove, -⟩ | ⟨-, p, -, hmove⟩
      · rw [hmove]
        exact alike_erase hne
      · rw [hmove]
        exact hsame
      · rw [hmove]
        exact alike_dispatch hc (hne c hc) p
  | connect fd rest =>
    obtain ⟨p, hp⟩ := Except.exists_of_isOk hcalm
    have hact := act_connect s fd rest
    rw [hp] at hact
    rw [move_ok h.running hact]
    exact alike_insert h.below fd p
  | drop fd =>
    rw [move_ok (m := .drop fd) h.running rfl]
    exact alike_erase (hother fd rfl)
  | fails => exact absurd hcalm id

theorem Follows.of_other (h : s.Follows n bs) (hcalm : s.Calm n m)
    (hother : ∀ fd ∈ m.fd, ∀ c ∈ s.connections fd, c.number ≠ n) : (s.move m).Follows n bs :=
  h.of_alike (h.other hcalm hother) (h.numbered.move m)

/-- When the connection is gone, nothing is dispatched for it any more. -/
theorem Follows.run_gone : ∀ {ms : List Move} {s : EventLoop}, s.Follows n bs →
    (∀ fd, ∀ c ∈ s.connections fd, c.number ≠ n) → Along EventLoop.move (Calm n) s ms →
    (exec EventLoop.move s ms).requests n = s.requests n := by
  intro ms
  induction ms with
  | nil => intro s _ _ _; rfl
  | cons m ms ih =>
    intro s h hgone ⟨hcalm, hrest⟩
    have halike := h.other hcalm fun fd _ => hgone fd
    have hgone' : ∀ fd, ∀ c ∈ (s.move m).connections fd, c.number ≠ n := fun fd c hc hn =>
      hgone fd c ((halike.connected fd c hn).mp hc) hn
    rw [exec_cons, ih (h.of_other hcalm fun fd _ => hgone fd) hgone' hrest, halike.requests]

/-- The connection is erased. -/
theorem Follows.gone (h : s.Follows n bs) (hc : c ∈ s.connections fd) (hn : c.number = n) :
    (s.erase fd).Follows n bs ∧ ∀ fd', ∀ d ∈ (s.erase fd).connections fd', d.number ≠ n := by
  have hold : ∀ fd', ∀ d ∈ (s.erase fd).connections fd', fd' ≠ fd ∧ d ∈ s.connections fd' := by
    intro fd' d hd
    rcases mem_update_iff.mp hd with ⟨-, hd⟩ | hd
    · exact absurd hd (by simp)
    · exact hd
  obtain ⟨p, hp, hqueue, hparser⟩ := h.parsed
  refine ⟨⟨h.running, h.numbered.erase fd, h.below, p, hp, hqueue, fun fd' d hd => ?_⟩, ?_⟩
  · exact hparser fd' d (hold fd' d hd).2
  · intro fd' d hd hdn
    obtain ⟨hne, hd⟩ := hold fd' d hd
    exact hne (h.numbered.apart fd' fd d hd c hc (hdn.trans hn.symm))

/-- The parser of the connection reads on. -/
theorem Follows.parse (h : s.Follows n bs) (hc : c ∈ s.connections fd) (hn : c.number = n)
    {data : Bytes} {p : RespParser} (hp : c.parser.append data = .ok p) :
    (s.dispatch fd c p).Follows n (bs ++ data) := by
  obtain ⟨q, hq, hqueue, hparser⟩ := h.parsed
  have hbehind : q = RespParser.behind q.messageQueue { q with messageQueue := [] } := by
    simp [RespParser.behind]
  have hread : RespParser.append {} (bs ++ data) = .ok (p.behind q.messageQueue) := by
    have hrun := Stream.run_append_ok RespParser.feed hq data
    rw [hbehind, Stream.run_frame RespParser.feed (RespParser.feed_behind q.messageQueue),
      ← hparser fd c hc hn] at hrun
    rw [RespParser.append, hrun]
    exact congrArg (Except.map _) hp
  refine ⟨h.running, h.numbered.dispatch hc p, h.below, _, hread, ?_, fun fd' d hd hdn => ?_⟩
  · rw [requests_dispatch, if_pos hn, hqueue]
    rfl
  · rcases mem_update_iff.mp hd with ⟨-, hd⟩ | ⟨hne, hd⟩
    · rw [← Option.some.inj hd]
      rfl
    · exact absurd (h.numbered.apart fd' fd d hd c hc (hdn.trans hn.symm)) hne

/-- **What is dispatched for a connection** in a calm run are the requests in its bytes.

The parser of a connection has been fed the bytes read so far, in order; `append` of two pieces is
`append` of both at once, so the cuts are gone from what it hands out. -/
theorem Follows.run : ∀ {ms : List Move} {s : EventLoop} {bs : Bytes}, s.Follows n bs →
    (∃ c ∈ s.connections fd, c.number = n) → Along EventLoop.move (Calm n) s ms →
    ∃ p, RespParser.append {} (bs ++ delivered fd ms) = .ok p ∧
      (exec EventLoop.move s ms).requests n = p.messageQueue := by
  intro ms
  induction ms with
  | nil =>
    intro s bs h _ _
    obtain ⟨p, hp, hqueue, -⟩ := h.parsed
    exact ⟨p, by rw [delivered, List.append_nil, hp], hqueue⟩
  | cons m ms ih =>
    intro s bs h hopen ⟨hcalm, hrest⟩
    obtain ⟨c, hc, hn⟩ := hopen
    -- after a move of another connection `c` is where it was
    have hgoOn : (∀ fd' ∈ m.fd, fd' ≠ fd) → delivered fd (m :: ms) = delivered fd ms →
        ∃ p, RespParser.append {} (bs ++ delivered fd (m :: ms)) = .ok p ∧
          (exec EventLoop.move s (m :: ms)).requests n = p.messageQueue := by
      intro hfd hdelivered
      have hother : ∀ fd' ∈ m.fd, ∀ c' ∈ s.connections fd', c'.number ≠ n := fun fd' hm c' hc' hn' =>
        hfd fd' hm (h.numbered.apart fd' fd c' hc' c hc (hn'.trans hn.symm))
      rw [hdelivered, exec_cons]
      exact ih (h.of_other hcalm hother)
        ⟨c, ((h.other hcalm hother).connected fd c hn).mpr hc, hn⟩ hrest
    -- after its end nothing is read from it
    have hends : s.move m = s.erase fd → delivered fd (m :: ms) = [] →
        ∃ p, RespParser.append {} (bs ++ delivered fd (m :: ms)) = .ok p ∧
          (exec EventLoop.move s (m :: ms)).requests n = p.messageQueue := by
      intro hmove hdelivered
      obtain ⟨hfollows, hgone⟩ := h.gone hc hn
      obtain ⟨p, hp, hqueue, -⟩ := h.parsed
      rw [hmove] at hrest
      rw [exec_cons, hmove, hfollows.run_gone hgone hrest, hdelivered, List.append_nil]
      exact ⟨p, hp, hqueue⟩
    cases m with
    | accept fd' => exact hgoOn (by simp [Move.fd]) rfl
    | connect fd' rest => exact hgoOn (by simp [Move.fd]) rfl
    | fails => exact absurd hcalm id
    | drop fd' =>
      by_cases hfd : fd' = fd
      · subst hfd
        exact hends (move_ok (m := .drop fd') h.running rfl) (by simp [delivered])
      · exact hgoOn (by simpa [Move.fd] using hfd) (by simp [delivered, hfd])
    | client fd' data ended =>
      by_cases hfd : fd' = fd
      · subst hfd
        rcases move_client h.running hc hcalm with ⟨hmove, rfl⟩ | ⟨hmove, rfl, rfl⟩ | ⟨rfl, p, hp, hmove⟩
        · exact hends hmove (by simpa [delivered] using (hcalm c hc).2 rfl hn)
        · rw [exec_cons, hmove]
          rw [hmove] at hrest
          simpa [delivered] using ih h ⟨c, hc, hn⟩ hrest
        · rw [hmove] at hrest
          rw [exec_cons, hmove]
          have hthere : ∃ d ∈ (s.dispatch fd' c p).connections fd', d.number = n :=
            ⟨_, mem_update_iff.mpr (Or.inl ⟨rfl, rfl⟩), hn⟩
          simpa [delivered, List.append_assoc] using ih (h.parse hc hn hp) hthere hrest
      · exact hgoOn (by simpa [Move.fd] using hfd) (by simp [delivered, hfd])

end Steps

/-- **Connections keep apart**: what is dispatched for a connection that sends the same bytes in
two calm runs is the same, whatever all others send and however its own bytes are cut.

A connection's parser is fed its bytes and nothing else, and is made anew with each connection, so
at any moment it is where the bytes read so far have brought it, however they were cut
(`Follows.run`). The bytes of the others go to other parsers. What is shared is the loop itself: an
exception that leaves it ends the service for all, and a calm run has none. -/
theorem connections_apart (before₁ before₂ its₁ its₂ : List Iteration) (n₁ n₂ : Nat) (fd₁ fd₂ : Int)
    (hopened₁ : (exec iterate {} before₁).Opened n₁ fd₁)
    (hopened₂ : (exec iterate {} before₂).Opened n₂ fd₂)
    (hcalm₁ : Along move (Calm n₁) (exec iterate {} before₁) (moves its₁))
    (hcalm₂ : Along move (Calm n₂) (exec iterate {} before₂) (moves its₂))
    (hsame : delivered fd₁ (moves its₁) = delivered fd₂ (moves its₂)) :
    (exec iterate {} (before₁ ++ its₁)).requests n₁
      = (exec iterate {} (before₂ ++ its₂)).requests n₂ := by
  have hone : ∀ (before its : List Iteration) (n : Nat) (fd : Int),
      (exec iterate {} before).Opened n fd →
      Along move (Calm n) (exec iterate {} before) (moves its) →
      ∃ p, RespParser.append {} (delivered fd (moves its)) = .ok p ∧
        (exec iterate {} (before ++ its)).requests n = p.messageQueue := by
    intro before its n fd hopened hcalm
    have hnumbered : (exec iterate {} before).Numbered := by
      rw [exec_iterate]
      exact numbered_exec _
    obtain ⟨p, hp, hqueue⟩ := (hopened.follows hnumbered).run ⟨_, hopened.connected, rfl⟩ hcalm
    exact ⟨p, hp, by rw [exec_append, exec_iterate its, hqueue]⟩
  obtain ⟨p₁, hp₁, hqueue₁⟩ := hone before₁ its₁ n₁ fd₁ hopened₁ hcalm₁
  obtain ⟨p₂, hp₂, hqueue₂⟩ := hone before₂ its₂ n₂ fd₂ hopened₂ hcalm₂
  rw [hsame, hp₂] at hp₁
  rw [hqueue₁, hqueue₂, Except.ok.inj hp₁]

/-- A client on descriptor 5, and another on descriptor 6. -/
def twoClients : List Iteration := [⟨[.accept 5, .accept 6], []⟩]

def otherWayRound : List Iteration := [⟨[.accept 6], []⟩, ⟨[.accept 5], []⟩]

def getA : Bytes := ascii "*2\r\n+GET\r\n+a\r\n"

theorem opened_twoClients : (exec iterate {} twoClients).Opened 0 5 where
  running := rfl
  connected := rfl
  fresh := rfl

theorem opened_otherWayRound : (exec iterate {} otherWayRound).Opened 1 5 where
  running := rfl
  connected := rfl
  fresh := rfl

/-- The request of one client in one piece and in two, beside different ones of the other. -/
theorem connections_apart_twoClients :
    (exec iterate {} (twoClients ++ [⟨[.client 5 getA false, .client 6 getA false], []⟩])).requests 0
      = (exec iterate {} (otherWayRound ++
          [⟨[.client 6 (ascii ":1\r") false, .client 5 (getA.take 7) false], []⟩,
            ⟨[.client 5 (getA.drop 7) false], [.drop 6]⟩])).requests 1 :=
  connections_apart twoClients otherWayRound _ _ 0 1 5 5 opened_twoClients opened_otherWayRound
    (by decide +kernel) (by decide +kernel) (by decide +kernel)

/-- Other bytes that no parser accepts, or the end of the stream right behind the request: it is
not dispatched any more. -/
theorem malformed_ends_all :
    (exec iterate {} twoClients).Opened 0 5 ∧
    (delivered 5 (moves [⟨[.client 6 (ascii "x") false], []⟩, ⟨[.client 5 getA false], []⟩])
        = delivered 5 (moves [⟨[.client 5 getA false], []⟩]) ∧
      (exec iterate {} (twoClients ++ [⟨[.client 6 (ascii "x") false], []⟩,
        ⟨[.client 5 getA false], []⟩])).requests 0
        ≠ (exec iterate {} (twoClients ++ [⟨[.client 5 getA false], []⟩])).requests 0) ∧
    (delivered 5 (moves [⟨[.client 5 getA true], []⟩])
        = delivered 5 (moves [⟨[.client 5 getA false], []⟩]) ∧
      (exec iterate {} (twoClients ++ [⟨[.client 5 getA true], []⟩])).requests 0
        ≠ (exec iterate {} (twoClients ++ [⟨[.client 5 getA false], []⟩])).requests 0) := by
  have hserved : ((exec iterate {} (twoClients ++
      [⟨[.client 5 getA false], []⟩])).requests 0).length = 1 := by decide +kernel
  have hmalformed : ((exec iterate {} (twoClients ++ [⟨[.client 6 (ascii "x") false], []⟩,
      ⟨[.client 5 getA false], []⟩])).requests 0).length = 0 := by decide +kernel
  have hended : ((exec iterate {} (twoClients ++
      [⟨[.client 5 getA true], []⟩])).requests 0).length = 0 := by decide +kernel
  refine ⟨opened_twoClients, ⟨by decide +kernel, fun h => ?_⟩, ⟨by decide +kernel, fun h => ?_⟩⟩
  · rw [h, hserved] at hmalformed
    exact absurd hmalformed Nat.one_ne_zero
  · rw [h, hserved] at hended
    exact absurd hended Nat.one_ne_zero

end EventLoop

end Server
end KvJet
