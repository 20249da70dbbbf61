import KvJet.Server.Dispatch

/-!
# Commands of one connection

The main loop puts every command it has read on the queue of the thread pool. The queue keeps
their order, and then each worker goes its own way: a command that was taken later may be
answered first, and a handler that throws answers nothing. The client tells the replies apart by
their order alone.

So the replies are in order, one for each command, when every command of the connection is one
that is answered, and each worker queues its reply, and stores what it writes, only when those
that took an earlier command of the connection are out of the way (`pipelined`). No worker looks
at the others (`overtaking_replies`).
-/

namespace KvJet
namespace Server

open Resp Store Run

/-- A command, as `epoll_step` puts it on the queue. -/
structure Job where
  /-- The descriptor of its connection. -/
  fd : Int
  /-- How many commands of the connection came before it. Nothing reads it. -/
  number : Nat
  request : RespValue

/-- A worker with the command it has taken. -/
structure Worker where
  job : Job
  progress : Progress := .fresh

/-- `Config::THREAD_COUNT`. -/
def threadCount : Nat := 4

structure Pool where
  host : Host
  threads : Nat := threadCount
  tasks : List Job := []
  /-- The workers that are not idle, in the order in which they took their commands. -/
  running : List Worker := []
  /-- What `handleCommand` has put on `message_queue`. -/
  answered : List (Job × Bytes) := []
  /-- Every command that was read. Nothing reads it. -/
  received : List Job := []
  /-- The writes in the order of their calls on the store. Nothing reads it. -/
  stored : List (Job × Write) := []

namespace Pool

inductive Event where
  /-- The main loop has read a command. -/
  | receive (fd : Int) (request : RespValue)
  /-- An idle worker takes the next one. -/
  | take
  /-- Worker `i` takes its next step. -/
  | advance (i : Nat) (due : Bool)

/-- The commands of one connection. -/
def on (fd : Int) (jobs : List Job) : List Job := jobs.filter fun job => job.fd = fd

def receive (s : Pool) (fd : Int) (request : RespValue) : Pool :=
  let job : Job := { fd, number := (on fd s.received).length, request }
  { s with tasks := s.tasks ++ [job], received := s.received ++ [job] }

def take (s : Pool) : Pool :=
  match s.tasks with
  | [] => s
  | job :: tasks =>
    if s.running.length < s.threads then { s with tasks, running := s.running ++ [{ job }] }
    else s

/-- A step of a worker that has no reply yet. -/
def work (peer : RespValue → Int → HostM Bytes) (r : Worker) (due : Bool) : HostM Progress :=
  match r.progress with
  | .fresh => Handler.enter peer r.job.request r.job.fd
  | p => onServer (p.next due)

/-- What the next step stores. -/
def storing : Progress → List Write
  | .store w => [w]
  | _ => []

/-- The end of `handleCommand`. -/
def reply (s : Pool) (i : Nat) (job : Job) (text : Bytes) : Pool :=
  { s with running := s.running.eraseIdx i
           answered := if text.isEmpty then s.answered else s.answered ++ [(job, text)] }

/-- What a handler throws ends its task. -/
def advance (peer : RespValue → Int → HostM Bytes) (s : Pool) (i : Nat) (due : Bool) : Pool :=
  match s.running[i]? with
  | none => s
  | some r =>
    match r.progress with
    | .reply text => s.reply i r.job text
    | p =>
      match (work peer r due).call s.host with
      | (.ok p', host) =>
        { s with host
                 running := s.running.set i { r with progress := p' }
                 stored := s.stored ++ (storing p).map (r.job, ·) }
      | (.error _, host) => { s with host, running := s.running.eraseIdx i }

def step (peer : RespValue → Int → HostM Bytes) (s : Pool) : Event → Pool
  | .receive fd request => s.receive fd request
  | .take => s.take
  | .advance i due => s.advance peer i due

/-! ## In order -/

/-- The replies and the writes of a connection are in the order of its commands. -/
structure InOrder (s : Pool) (fd : Int) (m : Bytes → Option RespValue) : Prop where
  /-- What is queued for it are the replies to its first commands, one for each. -/
  replies : (on fd (s.answered.map Prod.fst)).map Job.number
    = List.range (on fd (s.answered.map Prod.fst)).length
  /-- All others are still under way. -/
  rest : (on fd (s.answered.map Prod.fst)).length + (on fd (s.running.map Worker.job)).length +
    (on fd s.tasks).length = (on fd s.received).length
  /-- Nothing else is queued for it. -/
  only : ∀ msg ∈ s.host.server.messageQueue, msg.2 ≠ fd
  /-- Two writes of one key take effect as they were sent. -/
  writes : (s.stored.filter fun e => e.1.fd = fd).Pairwise fun a b =>
    a.2.key = b.2.key → a.1.number < b.1.number
  /-- The store holds what the writes have made of it, in the order of `stored`. -/
  store : s.host.server.kvstore.Contents (effects m (s.stored.map Prod.snd))

/-! ## When workers keep out of each other's way

The condition is on each step at its moment: a worker that is about to store or to reply may not
have an earlier command of the connection with somebody else. -/

/-- There is a reply. -/
def Replies : Progress → Prop
  | .reply _ => True
  | _ => False

instance : DecidablePred Replies
  | .reply _ => inferInstanceAs (Decidable True)
  | .fresh | .push _ | .log _ | .store _ => inferInstanceAs (Decidable False)

/-- The worker has a write of this key that is not stored yet. -/
def Writing (r : Worker) (key : Bytes) : Prop :=
  (∃ w ∈ writeOf r.job.request, w.key = key) ∧ ¬ Replies r.progress

instance (r : Worker) (key : Bytes) : Decidable (Writing r key) :=
  inferInstanceAs (Decidable (_ ∧ _))

/-- What the next step of worker `i` has to wait for, and what its command has to be. -/
def Ready (s : Pool) (fd : Int) (i : Nat) (r : Worker) : Progress → Prop
  | .fresh => ¬ ForPeers r.job.request ∧
    (s.host.syncing = false → ∀ key ∈ readOf r.job.request, s.host.server.kvstore.Room key) ∧
    (r.job.fd = fd → Handler.Answerable s.host r.job.request)
  | .push w => r.job.fd = fd → w.text.isOk ∧ (s.host.server.cluster.queryNode w.key).isOk
  | .log w => r.job.fd = fd → w.logged.all Option.isSome
  | .store w => s.host.server.kvstore.Room w.key ∧
    (r.job.fd = fd → ∀ r' ∈ s.running.take i, r'.job.fd = fd → ¬ Writing r' w.key)
  | .reply _ => r.job.fd = fd → ∀ r' ∈ s.running.take i, r'.job.fd ≠ fd

instance (s : Pool) (fd : Int) (i : Nat) (r : Worker) : DecidablePred (s.Ready fd i r)
  | .fresh => inferInstanceAs (Decidable (_ ∧ (_ → ∀ key ∈ readOf r.job.request, _) ∧ (_ → _)))
  | .push _ => inferInstanceAs (Decidable (_ → _ ∧ _))
  | .log _ => inferInstanceAs (Decidable (_ → _))
  | .store _ => inferInstanceAs (Decidable (_ ∧ (_ → ∀ r' ∈ s.running.take i, _)))
  | .reply _ => inferInstanceAs (Decidable (_ → ∀ r' ∈ s.running.take i, _))

/-- The condition on a step. -/
def Calm (fd : Int) (s : Pool) : Event → Prop
  | .advance i _ => ∀ r ∈ s.running[i]?, s.Ready fd i r r.progress
  | .receive _ _ | .take => True

instance (fd : Int) (s : Pool) : DecidablePred (Calm fd s)
  | .advance i _ => inferInstanceAs (Decidable (∀ r ∈ s.running[i]?, s.Ready fd i r r.progress))
  | .receive _ _ | .take => inferInstanceAs (Decidable True)

/-! ## What every step keeps -/

/-- All commands that have been read: answered, under way, waiting. -/
def line (s : Pool) : List Job :=
  s.answered.map Prod.fst ++ s.running.map Worker.job ++ s.tasks

/-- The line of the connection's commands is whole and in order, and what is stored of it is behind
nobody. `behind` is for the worker that is about to store: an earlier write of its key may no longer
be under way then. -/
structure Kept (fd : Int) (m : Bytes → Option RespValue) (s : Pool) : Prop where
  serves : s.host.server.Serves fd (effects m (s.stored.map Prod.snd))
  /-- Nobody has left the line. -/
  line : (on fd s.line).map Job.number = List.range (on fd s.received).length
  fits : ∀ r ∈ s.running, r.job.fd = fd → r.progress.For r.job.request
  /-- A write that is still to be stored comes after the stored ones of its key. -/
  behind : ∀ e ∈ s.stored, e.1.fd = fd → ∀ r ∈ s.running, r.job.fd = fd → Writing r e.2.key →
    e.1.number < r.job.number
  past : ∀ e ∈ s.stored, e.1.fd = fd →
    (∀ job ∈ s.tasks, job.fd = fd → e.1.number < job.number) ∧
      e.1.number < (on fd s.received).length
  writes : (s.stored.filter fun e => e.1.fd = fd).Pairwise fun a b =>
    a.2.key = b.2.key → a.1.number < b.1.number

theorem on_append (fd : Int) (xs ys : List Job) : on fd (xs ++ ys) = on fd xs ++ on fd ys :=
  List.filter_append xs ys

theorem on_singleton {fd : Int} {job : Job} (h : job.fd = fd) : on fd [job] = [job] := by
  simp [on, h]

theorem on_singleton_ne {fd : Int} {job : Job} (h : job.fd ≠ fd) : on fd [job] = [] := by
  simp [on, h]

theorem on_eq_nil {fd : Int} {jobs : List Job} : on fd jobs = [] ↔ ∀ job ∈ jobs, job.fd ≠ fd := by
  simp [on, List.filter_eq_nil_iff]

/-- The workers before and after worker `i`. -/
theorem running_split {l : List Worker} {i : Nat} {r : Worker} (h : l[i]? = some r) :
    l = l.take i ++ r :: l.drop (i + 1) ∧ (∀ r', l.set i r' = l.take i ++ r' :: l.drop (i + 1)) ∧
      l.eraseIdx i = l.take i ++ l.drop (i + 1) := by
  obtain ⟨hlt, rfl⟩ := List.getElem?_eq_some_iff.mp h
  refine ⟨?_, fun r' => List.set_eq_take_append_cons_drop.trans (if_pos hlt),
    List.eraseIdx_eq_take_drop_succ l i⟩
  rw [List.cons_getElem_drop_succ, List.take_append_drop]

section Running

variable {l : List Worker} {i : Nat} {r : Worker} {fd : Int}

/-- A worker of another connection makes no difference. -/
theorem on_eraseIdx_ne (h : l[i]? = some r) (hfd : r.job.fd ≠ fd) :
    on fd ((l.eraseIdx i).map Worker.job) = on fd (l.map Worker.job) := by
  obtain ⟨hsplit, -, herase⟩ := running_split h
  have hnone : on fd (r.job :: (l.drop (i + 1)).map Worker.job)
      = on fd ((l.drop (i + 1)).map Worker.job) := by simp [on, hfd]
  rw [herase, List.map_append, on_append, ← hnone, ← on_append]
  conv_rhs => rw [hsplit, List.map_append, List.map_cons]

/-- The first worker of a connection. -/
theorem on_eraseIdx_first (h : l[i]? = some r) (hfd : r.job.fd = fd)
    (hfirst : ∀ r' ∈ l.take i, r'.job.fd ≠ fd) :
    on fd (l.map Worker.job) = r.job :: on fd ((l.eraseIdx i).map Worker.job) := by
  obtain ⟨hsplit, -, herase⟩ := running_split h
  have hbefore : on fd ((l.take i).map Worker.job) = [] := by
    rw [on_eq_nil]
    intro job hjob
    obtain ⟨r', hr', rfl⟩ := List.mem_map.mp hjob
    exact hfirst r' hr'
  have hcons : on fd (r.job :: (l.drop (i + 1)).map Worker.job)
      = r.job :: on fd ((l.drop (i + 1)).map Worker.job) := by simp [on, hfd]
  rw [herase, List.map_append, on_append, hbefore, List.nil_append, ← hcons]
  conv_lhs => rw [hsplit, List.map_append, List.map_cons, on_append, hbefore, List.nil_append]

theorem map_job_set (h : l[i]? = some r) (p : Progress) :
    (l.set i { r with progress := p }).map Worker.job = l.map Worker.job := by
  obtain ⟨hsplit, hset, -⟩ := running_split h
  rw [hset, List.map_append, List.map_cons]
  conv_rhs => rw [hsplit, List.map_append, List.map_cons]

end Running

variable {s : Pool} {fd : Int} {m : Bytes → Option RespValue}

/-- The numbers of a connection go up along the line. -/
theorem Kept.sorted (h : s.Kept fd m) :
    (on fd s.line).Pairwise fun a b => a.number < b.number := by
  have hrange := List.pairwise_lt_range (n := (on fd s.received).length)
  rw [← h.line, List.pairwise_map] at hrange
  exact hrange

theorem Kept.inOrder (h : s.Kept fd m) : s.InOrder fd m where
  replies := by
    have hline := h.line
    rw [Pool.line, List.append_assoc, on_append, List.map_append] at hline
    have hprefix : (on fd (s.answered.map Prod.fst)).map Job.number
        <+: List.range (on fd s.received).length := ⟨_, hline⟩
    rw [List.prefix_iff_eq_take, List.take_range, List.length_map] at hprefix
    have hlen := congrArg List.length hprefix
    rw [List.length_map, List.length_range] at hlen
    rw [← hlen] at hprefix
    exact hprefix
  rest := by
    have hlen := congrArg List.length h.line
    rw [List.length_map, List.length_range, Pool.line, on_append, on_append, List.length_append,
      List.length_append] at hlen
    exact hlen
  only := h.serves.silent
  writes := h.writes
  store := h.serves.contents

theorem Kept.receive (h : s.Kept fd m) (fd' : Int) (request : RespValue) :
    (s.receive fd' request).Kept fd m := by
  set job : Job := { fd := fd', number := (on fd' s.received).length, request } with hjob
  have hgrows : (on fd s.received).length ≤ (on fd (s.received ++ [job])).length := by
    rw [on_append, List.length_append]
    exact Nat.le_add_right _ _
  refine ⟨h.serves, ?_, h.fits, h.behind, fun e he hfd => ⟨fun other hother hother' => ?_, ?_⟩,
    h.writes⟩
  · show (on fd (s.answered.map Prod.fst ++ s.running.map Worker.job ++ (s.tasks ++ [job]))).map
      Job.number = List.range (on fd (s.received ++ [job])).length
    rw [← List.append_assoc, on_append, on_append fd s.received, List.map_append, List.length_append]
    have hline : (on fd (s.answered.map Prod.fst ++ s.running.map Worker.job ++ s.tasks)).map
        Job.number = List.range (on fd s.received).length := h.line
    rw [hline]
    by_cases hmine : fd' = fd
    · rw [on_singleton (show job.fd = fd from hmine), ← hmine]
      exact List.range_succ.symm
    · rw [on_singleton_ne (show job.fd ≠ fd from hmine), List.map_nil, List.append_nil]
      rfl
  · rcases List.mem_append.mp hother with hold | hnew
    · exact (h.past e he hfd).1 other hold hother'
    · rw [List.mem_singleton] at hnew
      subst hnew
      have hsame : fd' = fd := hother'
      show e.1.number < (on fd' s.received).length
      rw [hsame]
      exact (h.past e he hfd).2
  · exact (h.past e he hfd).2.trans_le hgrows

theorem Kept.take (h : s.Kept fd m) : s.take.Kept fd m := by
  unfold Pool.take
  cases htasks : s.tasks with
  | nil => exact h
  | cons job tasks =>
    dsimp only
    split
    · have hpast : ∀ e ∈ s.stored, e.1.fd = fd → ∀ other ∈ job :: tasks, other.fd = fd →
          e.1.number < other.number := by
        intro e he hfd
        rw [← htasks]
        exact (h.past e he hfd).1
      refine ⟨h.serves, ?_, fun r hr hfd => ?_, fun e he hfd r hr hfd' hwriting => ?_,
        fun e he hfd => ⟨fun other hother => ?_, (h.past e he hfd).2⟩, h.writes⟩
      · have hline := h.line
        rw [Pool.line, htasks] at hline
        rw [Pool.line, List.map_append, List.append_assoc, List.append_assoc]
        rw [List.append_assoc] at hline
        exact hline
      · rcases List.mem_append.mp hr with hold | hnew
        · exact h.fits r hold hfd
        · rw [List.mem_singleton.mp hnew]
          trivial
      · rcases List.mem_append.mp hr with hold | hnew
        · exact h.behind e he hfd r hold hfd' hwriting
        · rw [List.mem_singleton] at hnew
          subst hnew
          exact hpast e he hfd job List.mem_cons_self hfd'
      · exact hpast e he hfd other (List.mem_cons_of_mem _ hother)
    · exact h

/-- A worker of another connection goes, with or without a reply. -/
theorem Kept.leave {i : Nat} {r : Worker} {host : Host} {answered : List (Job × Bytes)}
    (h : s.Kept fd m) (hr : s.running[i]? = some r) (hfd : r.job.fd ≠ fd)
    (hserves : host.server.Serves fd (effects m (s.stored.map Prod.snd)))
    (hanswered : on fd (answered.map Prod.fst) = on fd (s.answered.map Prod.fst)) :
    Kept fd m { s with host, running := s.running.eraseIdx i, answered } := by
  have hsub : ∀ r' ∈ s.running.eraseIdx i, r' ∈ s.running := fun r' => List.mem_of_mem_eraseIdx
  refine ⟨hserves, ?_, fun r' hr' => h.fits r' (hsub r' hr'),
    fun e he hfd r' hr' => h.behind e he hfd r' (hsub r' hr'), h.past, h.writes⟩
  have hline := h.line
  rw [Pool.line, on_append, on_append] at hline
  rw [Pool.line, on_append, on_append, hanswered, on_eraseIdx_ne hr hfd]
  exact hline

/-- The first worker of the connection queues its reply. -/
theorem Kept.reply {i : Nat} {r : Worker} {text : Bytes} (h : s.Kept fd m)
    (hr : s.running[i]? = some r) (hprogress : r.progress = .reply text)
    (hready : r.job.fd = fd → ∀ r' ∈ s.running.take i, r'.job.fd ≠ fd) :
    (s.reply i r.job text).Kept fd m := by
  by_cases hfd : r.job.fd = fd
  · have hne : text ≠ [] := by
      have hfits := h.fits r (List.mem_of_getElem? hr) hfd
      rwa [hprogress] at hfits
    have hsub : ∀ r' ∈ s.running.eraseIdx i, r' ∈ s.running := fun r' => List.mem_of_mem_eraseIdx
    rw [Pool.reply, if_neg (by simpa using hne)]
    refine ⟨h.serves, ?_, fun r' hr' => h.fits r' (hsub r' hr'),
      fun e he hfd r' hr' => h.behind e he hfd r' (hsub r' hr'), h.past, h.writes⟩
    have hline := h.line
    rw [Pool.line, on_append, on_append, on_eraseIdx_first hr hfd (hready hfd)] at hline
    show (on fd ((s.answered ++ [(r.job, text)]).map Prod.fst ++
      (s.running.eraseIdx i).map Worker.job ++ s.tasks)).map Job.number = _
    have hanswered : on fd ((s.answered ++ [(r.job, text)]).map Prod.fst)
        = on fd (s.answered.map Prod.fst) ++ [r.job] := by
      rw [List.map_append, on_append, List.map_singleton, on_singleton hfd]
    rw [on_append, on_append, hanswered, List.append_assoc (on fd _)]
    exact hline
  · refine h.leave hr hfd h.serves ?_
    split
    · rfl
    · rw [List.map_append, on_append, List.map_singleton, on_singleton_ne hfd, List.append_nil]

/-- A worker comes to its next step without a write. -/
theorem Kept.go {i : Nat} {r : Worker} {p : Progress} (h : s.Kept fd m) (host : Host)
    (hr : s.running[i]? = some r) (hreplies : ¬ Replies r.progress)
    (hserves : host.server.Serves fd (effects m (s.stored.map Prod.snd)))
    (hfits : r.job.fd = fd → p.For r.job.request) :
    Kept fd m { s with host, running := s.running.set i { r with progress := p } } := by
  refine ⟨hserves, ?_, fun r' hr' hfd => ?_, fun e he hfd r' hr' hfd' hwriting => ?_, h.past,
    h.writes⟩
  · have hline := h.line
    rw [Pool.line] at hline
    rw [Pool.line, map_job_set hr]
    exact hline
  · rcases List.mem_or_eq_of_mem_set hr' with hold | rfl
    · exact h.fits r' hold hfd
    · exact hfits hfd
  · rcases List.mem_or_eq_of_mem_set hr' with hold | rfl
    · exact h.behind e he hfd r' hold hfd' hwriting
    · exact h.behind e he hfd r (List.mem_of_getElem? hr) hfd' ⟨hwriting.1, hreplies⟩

/-- Later workers of the connection have later commands. -/
theorem Kept.later {i : Nat} {r r' : Worker} (h : s.Kept fd m) (hr : s.running[i]? = some r)
    (hfd : r.job.fd = fd) (hr' : r' ∈ s.running.drop (i + 1)) (hfd' : r'.job.fd = fd) :
    r.job.number < r'.job.number := by
  have hsorted := h.sorted
  rw [Pool.line, on_append, on_append, List.pairwise_append, List.pairwise_append] at hsorted
  obtain ⟨⟨-, hrunning, -⟩, -⟩ := hsorted
  rw [(running_split hr).1, List.map_append, List.map_cons, on, List.pairwise_filter,
    List.pairwise_append, List.pairwise_cons] at hrunning
  exact hrunning.2.1.1 r'.job (List.mem_map_of_mem hr') (by simpa using hfd) (by simpa using hfd')

/-- A worker's command comes before those that wait. -/
theorem Kept.waiting {r : Worker} (h : s.Kept fd m) (hr : r ∈ s.running) (hfd : r.job.fd = fd) :
    (∀ job ∈ s.tasks, job.fd = fd → r.job.number < job.number) ∧
      r.job.number < (on fd s.received).length := by
  have hin : r.job ∈ on fd s.line := by
    simp only [Pool.line, on, List.mem_filter, List.mem_append, List.mem_map, decide_eq_true_eq]
    exact ⟨Or.inl (Or.inr ⟨r, hr, rfl⟩), hfd⟩
  refine ⟨fun job hjob hjob' => ?_, ?_⟩
  · have hsorted := h.sorted
    rw [Pool.line, on_append, List.pairwise_append] at hsorted
    refine hsorted.2.2 r.job ?_ job (by simp [on, hjob, hjob'])
    simp only [on, List.mem_filter, List.mem_append, List.mem_map, decide_eq_true_eq]
    exact ⟨Or.inr ⟨r, hr, rfl⟩, hfd⟩
  · have hnumber := List.mem_map_of_mem (f := Job.number) hin
    rw [h.line, List.mem_range] at hnumber
    exact hnumber

/-- A worker stores its write, when those of its key that come before are stored. -/
theorem Kept.store {i : Nat} {r : Worker} {w : Write} {text : Bytes} {host : Host}
    (h : s.Kept fd m) (hr : s.running[i]? = some r) (hprogress : r.progress = .store w)
    (hready : r.job.fd = fd → ∀ r' ∈ s.running.take i, r'.job.fd = fd → ¬ Writing r' w.key)
    (hserves : host.server.Serves fd
      (Function.update (effects m (s.stored.map Prod.snd)) w.key w.effect)) (htext : text ≠ []) :
    Kept fd m { s with
      host
      running := s.running.set i { r with progress := .reply text }
      stored := s.stored ++ [(r.job, w)] } := by
  have hin : r ∈ s.running := List.mem_of_getElem? hr
  have hreplies : ¬ Replies r.progress := by simp [hprogress, Replies]
  have hkept := h.go (p := .reply text) s.host hr hreplies h.serves fun _ => htext
  -- what is asked for by a command is what is stored for it
  have hwriting : r.job.fd = fd → Writing r w.key := by
    intro hfd
    have hfits := h.fits r hin hfd
    rw [hprogress] at hfits
    exact ⟨⟨w, hfits, rfl⟩, hreplies⟩
  refine ⟨?_, hkept.line, hkept.fits, fun e he hfd r' hr' hfd' hwriting' => ?_, fun e he hfd => ?_,
    ?_⟩
  · rw [List.map_append, List.map_singleton, effects_concat]
    exact hserves
  · rcases List.mem_append.mp he with hold | hnew
    · exact hkept.behind e hold hfd r' hr' hfd' hwriting'
    · rw [List.mem_singleton] at hnew
      subst hnew
      rw [(running_split hr).2.1, List.mem_append, List.mem_cons] at hr'
      rcases hr' with hbefore | rfl | hafter
      · exact absurd hwriting' (hready hfd r' hbefore hfd')
      · exact absurd trivial hwriting'.2
      · exact h.later hr hfd hafter hfd'
  · rcases List.mem_append.mp he with hold | hnew
    · exact h.past e hold hfd
    · rw [List.mem_singleton] at hnew
      subst hnew
      exact h.waiting hin hfd
  · rw [List.filter_append, List.pairwise_append]
    refine ⟨h.writes, ?_, fun a ha b hb hkey => ?_⟩
    · exact (List.pairwise_singleton _ _).sublist List.filter_sublist
    · rw [List.mem_filter, List.mem_singleton] at hb
      obtain ⟨rfl, hfd⟩ := hb
      rw [List.mem_filter] at ha
      have hfd : r.job.fd = fd := by simpa using hfd
      refine h.behind a ha.1 (by simpa using ha.2) r hin hfd ?_
      rw [hkey]
      exact hwriting hfd

theorem advance_work {peer : RespValue → Int → HostM Bytes} {i : Nat} {r : Worker}
    (hr : s.running[i]? = some r) (hreplies : ¬ Replies r.progress) (due : Bool) :
    s.advance peer i due = match (work peer r due).call s.host with
      | (.ok p, host) =>
        { s with host
                 running := s.running.set i { r with progress := p }
                 stored := s.stored ++ (storing r.progress).map (r.job, ·) }
      | (.error _, host) => { s with host, running := s.running.eraseIdx i } := by
  unfold advance
  simp only [hr]
  split
  · rename_i text hprogress
    exact absurd (by rw [hprogress]; trivial) hreplies
  · rfl

/-- A step that stores nothing, and for the connection `fd` returns. -/
theorem Kept.worked {peer : RespValue → Int → HostM Bytes} {i : Nat} {r : Worker} {due : Bool}
    {outcome : Except Fault Progress} {host : Host} (h : s.Kept fd m)
    (hr : s.running[i]? = some r) (hreplies : ¬ Replies r.progress)
    (hcall : (work peer r due).call s.host = (outcome, host)) (hstoring : storing r.progress = [])
    (hserves : host.server.Serves fd (effects m (s.stored.map Prod.snd)))
    (hok : r.job.fd = fd → ∃ p, outcome = .ok p ∧ p.For r.job.request) :
    (s.advance peer i due).Kept fd m := by
  rw [advance_work hr hreplies, hcall, hstoring, List.map_nil, List.append_nil]
  cases outcome with
  | ok p =>
    refine h.go host hr hreplies hserves fun hfd => ?_
    obtain ⟨p', heq, hfor⟩ := hok hfd
    cases heq
    exact hfor
  | error e =>
    refine h.leave hr (fun hfd => ?_) hserves rfl
    obtain ⟨p', heq, -⟩ := hok hfd
    exact absurd heq (by simp)

theorem Kept.advance {peer : RespValue → Int → HostM Bytes} {i : Nat} {due : Bool}
    (h : s.Kept fd m) (hcalm : Calm fd s (.advance i due)) : (s.advance peer i due).Kept fd m := by
  cases hr : s.running[i]? with
  | none =>
    have hsame : s.advance peer i due = s := by simp only [Pool.advance, hr]
    rw [hsame]
    exact h
  | some r =>
    have hready : s.Ready fd i r r.progress := hcalm r hr
    have hin : r ∈ s.running := List.mem_of_getElem? hr
    cases hprogress : r.progress with
    | fresh =>
      rw [hprogress] at hready
      obtain ⟨hpeer, hroom, hanswerable⟩ := hready
      obtain ⟨outcome, host, hcall, hserves, hok⟩ :=
        Handler.enter_spec peer h.serves hpeer hroom r.job.fd
      exact h.worked hr (by simp [hprogress, Replies]) (by rw [work, hprogress]; exact hcall)
        (by rw [hprogress]; rfl) hserves fun hfd => hok (hanswerable hfd)
    | push w =>
      rw [hprogress] at hready
      obtain ⟨outcome, server, hcall, hserves, hok⟩ := h.serves.push_spec w due
      refine h.worked hr (by simp [hprogress, Replies])
        (by rw [work, hprogress, call_onServer, hcall]) (by rw [hprogress]; rfl) hserves
        fun hfd => ⟨.log w, hok (hready hfd).1 (hready hfd).2, ?_⟩
      have hfits := h.fits r hin hfd
      rwa [hprogress] at hfits
    | log w =>
      rw [hprogress] at hready
      obtain ⟨outcome, server, hcall, hserves, hok⟩ := h.serves.log_spec w due
      refine h.worked hr (by simp [hprogress, Replies])
        (by rw [work, hprogress, call_onServer, hcall]) (by rw [hprogress]; rfl) hserves
        fun hfd => ⟨.store w, hok (hready hfd), ?_⟩
      have hfits := h.fits r hin hfd
      rwa [hprogress] at hfits
    | store w =>
      rw [hprogress] at hready
      obtain ⟨hroom, hready⟩ := hready
      obtain ⟨text, server, hcall, htext, hserves⟩ := h.serves.store_spec w due hroom
      have hwork : (work peer r due).call s.host
          = (.ok (.reply text), { s.host with server }) := by
        rw [work, hprogress, call_onServer, hcall]
      rw [advance_work hr (by simp [hprogress, Replies]), hwork, hprogress]
      exact h.store hr hprogress hready hserves htext
    | reply text =>
      rw [hprogress] at hready
      have hreply : s.advance peer i due = s.reply i r.job text := by
        simp only [Pool.advance, hr, hprogress]
      rw [hreply]
      exact h.reply hr hprogress hready

theorem kept_new {host : Host} {threads : Nat} (h : host.server.Serves fd m) :
    Kept fd m { host, threads } where
  serves := h
  line := rfl
  fits := by simp
  behind := by simp
  past := by simp
  writes := List.Pairwise.nil

theorem kept_exec {peer : RespValue → Int → HostM Bytes} {host : Host} {threads : Nat}
    (h : host.server.Serves fd m) {es : List Event}
    (hcalm : Along (step peer) (Calm fd) { host, threads } es) {pre : List Event}
    (hpre : pre <+: es) : (exec (step peer) { host, threads } pre).Kept fd m := by
  obtain ⟨post, rfl⟩ := hpre
  refine Along.invariant (I := Kept fd m) (fun s e hcond hs => ?_) hcalm.append.1 (kept_new h)
  cases e with
  | receive fd' request => exact hs.receive fd' request
  | take => exact hs.take
  | advance i due => exact hs.advance hcond

/-- **Pipelined commands.** On a server with any number of workers, for a connection that is not
to another node, in every run in which no command for nodes is handled, the store has room, the
commands of the connection are such as are answered, and its workers keep out of each other's way:
at every moment the messages queued for the connection are one reply for each of its first
commands, in the order in which they were sent, and its writes of one key have been stored in the
order in which they were sent.

Each reply and each write of the connection comes from a worker that has taken its command off the
queue, in the order in which they were sent. That they come in this order rests on the workers: of
two that have commands of the connection the earlier one is the further one in every step that can
be seen (`Kept`). With nobody to wait for, there is nothing to see to: a pool of one worker is
enough, and so is a client that waits for each reply (`one_worker_in_order`, `patient_in_order`). -/
theorem pipelined (peer : RespValue → Int → HostM Bytes) (host : Host) (threads : Nat) (fd : Int)
    (m : Bytes → Option RespValue) (h : host.server.Serves fd m) (es : List Event)
    (hcalm : Along (step peer) (Calm fd) { host, threads } es) :
    ∀ pre, pre <+: es → (exec (step peer) { host, threads } pre).InOrder fd m := by
  exact fun pre hpre => (kept_exec h hcalm hpre).inOrder

/-! ## Where nobody has to wait

Two conditions that a user can see to, without a look at the steps of the workers: one worker, or
one command at a time. -/

/-- Every command that is handled is one that is answered, and the store has room: the worker would
be ready if it were the only one. -/
def Served (fd : Int) (s : Pool) : Event → Prop
  | .advance i _ => ∀ r ∈ s.running[i]?, ({ s with running := [] } : Pool).Ready fd i r r.progress
  | .receive _ _ | .take => True

/-- No two workers have commands of the connection. -/
def Unshared (fd : Int) (s : Pool) : Prop := (on fd (s.running.map Worker.job)).length ≤ 1

theorem calm_of_unshared (h : Unshared fd s) {e : Event} (hserved : Served fd s e) :
    Calm fd s e := by
  cases e with
  | receive _ _ | take => trivial
  | advance i due =>
    intro r hr
    have hfit := hserved r hr
    have hfirst : r.job.fd = fd → ∀ r' ∈ s.running.take i, r'.job.fd ≠ fd := by
      intro hfd r' hr' hfd'
      have hsplit := (running_split hr).1
      have hone : on fd [r.job] = [r.job] := on_singleton hfd
      have hpos : 0 < (on fd ((s.running.take i).map Worker.job)).length :=
        List.length_pos_iff.mpr fun hnil =>
          on_eq_nil.mp hnil r'.job (List.mem_map_of_mem hr') hfd'
      unfold Unshared at h
      rw [hsplit, List.map_append, List.map_cons, ← List.singleton_append, on_append, on_append,
        hone, List.length_append, List.length_append] at h
      simp only [List.length_singleton] at h
      omega
    cases hprogress : r.progress with
    | fresh | push w | log w =>
      rw [hprogress] at hfit
      exact hfit
    | store w =>
      rw [hprogress] at hfit
      exact ⟨hfit.1, fun hfd r' hr' hfd' => absurd hfd' (hfirst hfd r' hr')⟩
    | reply text => exact hfirst

/-- A step of a worker gives nobody a command. -/
theorem running_advance (peer : RespValue → Int → HostM Bytes) (s : Pool) (i : Nat) (due : Bool) :
    (s.advance peer i due).tasks = s.tasks ∧ (s.advance peer i due).threads = s.threads ∧
      ((s.advance peer i due).running.map Worker.job).Sublist (s.running.map Worker.job) := by
  unfold advance
  cases hr : s.running[i]? with
  | none => exact ⟨rfl, rfl, List.Sublist.refl _⟩
  | some r =>
    have herase : ((s.running.eraseIdx i).map Worker.job).Sublist (s.running.map Worker.job) :=
      (List.eraseIdx_sublist _ _).map _
    dsimp only
    split
    · exact ⟨rfl, rfl, herase⟩
    · split
      · refine ⟨rfl, rfl, ?_⟩
        rw [map_job_set hr]
      · exact ⟨rfl, rfl, herase⟩

/-- A client that waits for each reply before it sends its next command. -/
def Patient (fd : Int) (s : Pool) : Event → Prop
  | .receive fd' _ => fd' = fd → on fd (s.running.map Worker.job ++ s.tasks) = []
  | .take | .advance _ _ => True

/-- Of the connection there is no more than one command under way. -/
def Single (fd : Int) (s : Pool) : Prop :=
  (on fd (s.running.map Worker.job ++ s.tasks)).length ≤ 1

theorem Single.unshared (h : Single fd s) : Unshared fd s := by
  unfold Single at h
  rw [on_append, List.length_append] at h
  exact Nat.le_trans (Nat.le_add_right _ _) h

theorem Single.step {peer : RespValue → Int → HostM Bytes} (h : Single fd s) {e : Event}
    (hpatient : Patient fd s e) : Single fd (step peer s e) := by
  cases e with
  | receive fd' request =>
    show (on fd (s.running.map Worker.job ++ (s.tasks ++ [_]))).length ≤ 1
    rw [← List.append_assoc, on_append]
    by_cases hfd : fd' = fd
    · rw [hpatient hfd, List.nil_append]
      exact List.length_filter_le _ _
    · rw [on_singleton_ne hfd, List.append_nil]
      exact h
  | take =>
    show Single fd s.take
    unfold Pool.take
    cases htasks : s.tasks with
    | nil => exact h
    | cons job tasks =>
      dsimp only
      split
      · unfold Single at h ⊢
        rw [htasks] at h
        rw [List.map_append, List.append_assoc]
        exact h
      · exact h
  | advance i due =>
    obtain ⟨htasks, -, hrunning⟩ := running_advance peer s i due
    show (on fd ((s.advance peer i due).running.map Worker.job ++ (s.advance peer i due).tasks)
      ).length ≤ 1
    rw [htasks]
    exact (((hrunning.append_right s.tasks).filter _).length_le).trans h

/-- The pool has one worker, which has one command at most. -/
structure Lonely (s : Pool) : Prop where
  threads : s.threads = 1
  running : s.running.length ≤ 1

theorem Lonely.unshared (h : s.Lonely) (fd : Int) : Unshared fd s := by
  refine (List.length_filter_le _ _).trans ?_
  rw [List.length_map]
  exact h.running

theorem Lonely.step {peer : RespValue → Int → HostM Bytes} (h : s.Lonely) (e : Event) :
    (step peer s e).Lonely := by
  cases e with
  | receive fd' request => exact ⟨h.threads, h.running⟩
  | take =>
    show s.take.Lonely
    unfold Pool.take
    split
    · exact h
    · split
      · rename_i hroom
        rw [h.threads] at hroom
        refine ⟨h.threads, ?_⟩
        rw [List.length_append]
        exact Nat.succ_le_of_lt hroom
      · exact h
  | advance i due =>
    obtain ⟨-, hthreads, hrunning⟩ := running_advance peer s i due
    refine ⟨hthreads.trans h.threads, ?_⟩
    have hlength := hrunning.length_le
    rw [List.length_map, List.length_map] at hlength
    exact hlength.trans h.running

/-- **A pool of one worker** answers in order whatever a client pipelines, for the worker has nobody
to overtake. -/
theorem one_worker_in_order (peer : RespValue → Int → HostM Bytes) (host : Host) (fd : Int)
    (m : Bytes → Option RespValue) (h : host.server.Serves fd m) (es : List Event)
    (hserved : Along (step peer) (Served fd) { host, threads := 1 } es) :
    ∀ pre, pre <+: es → (exec (step peer) { host, threads := 1 } pre).InOrder fd m := by
  have hlonely : Along (step peer) (fun s e => Served fd s e ∧ s.Lonely) { host, threads := 1 } es :=
    hserved.keeping (fun s e _ hs => hs.step e) ⟨rfl, Nat.zero_le _⟩
  have hcalm := hlonely.imp fun s e hboth => calm_of_unshared (hboth.2.unshared fd) hboth.1
  exact fun pre hpre => (kept_exec h hcalm hpre).inOrder

/-- **A client that does not pipeline** is answered in order by any number of workers: the only
command of its connection that is under way has none to overtake it. -/
theorem patient_in_order (peer : RespValue → Int → HostM Bytes) (host : Host) (threads : Nat)
    (fd : Int) (m : Bytes → Option RespValue) (h : host.server.Serves fd m) (es : List Event)
    (hserved : Along (step peer) (Served fd) { host, threads } es)
    (hpatient : Along (step peer) (Patient fd) { host, threads } es) :
    ∀ pre, pre <+: es → (exec (step peer) { host, threads } pre).InOrder fd m := by
  have hsingle := (hserved.and hpatient).keeping (I := Single fd)
    (fun s e hboth hs => hs.step hboth.2) (Nat.zero_le 1)
  have hcalm := hsingle.imp fun s e hall => calm_of_unshared hall.2.unshared hall.1.1
  exact fun pre hpre => (kept_exec h hcalm hpre).inOrder

/-! ## On a server of its own -/

def existRequest (key : Bytes) : RespValue :=
  .array (some [.simpleString (ascii "EXIST"), .simpleString key])

/-- Connection 5 sends `SET k 1` and `EXIST k`, connection 6 sends `GET k`; three workers take
them, and the one with `EXIST` waits for the one with `SET`. -/
def waiting : List Event :=
  [.receive 5 (Write.set [107] (.integer 1)).request, .receive 6 (getRequest [107]),
    .receive 5 (existRequest [107]), .take, .take, .take, .advance 0 false, .advance 2 false,
    .advance 0 false, .advance 1 false, .advance 1 false, .advance 0 false, .advance 0 false,
    .advance 0 false, .advance 0 false]

/-- There is no other node. -/
def noPeer : RespValue → Int → HostM Bytes := fun _ _ => pure []

theorem serves_alone (fd : Int) : alone.Serves fd fun _ => none where
  contents := KVStore.contents_new
  stranger := by simp [alone, Cluster.addNodeToHash]
  silent := by simp [alone]

theorem waiting_pipelined :
    (exec (step noPeer) { host := { server := alone }, threads := 3 } waiting).InOrder 5
      fun _ => none := by
  refine pipelined noPeer { server := alone } 3 5 (fun _ => none) (serves_alone 5)
    waiting ?_ waiting (List.prefix_refl _)
  decide +kernel

/-- A connection sends `SET k 1` and `SET k 2`. Two workers take them, and the second one is
faster. -/
def overtaking : List Event :=
  [.receive 5 (Write.set [107] (.integer 1)).request,
    .receive 5 (Write.set [107] (.integer 2)).request, .take, .take, .advance 1 false,
    .advance 1 false, .advance 1 false, .advance 1 false, .advance 1 false, .advance 0 false,
    .advance 0 false, .advance 0 false, .advance 0 false, .advance 0 false]

/-- A connection sends a `GET` without a key. -/
def malformed : List Event :=
  [.receive 5 (.array (some [.simpleString (ascii "GET")])), .take, .advance 0 false]

/-- The replies are in the wrong order, and so are the writes; to a `GET` without a key there is no
reply. -/
theorem overtaking_replies :
    ((exec (step noPeer) { host := { server := alone } } overtaking).answered.map
        (fun e => (e.1.fd, e.1.number)) = [(5, 1), (5, 0)] ∧
      (exec (step noPeer) { host := { server := alone } } overtaking).stored.map
        (fun e => (e.1.number, e.2.key)) = [(1, [107]), (0, [107])] ∧
      ¬ (exec (step noPeer) { host := { server := alone } } overtaking).InOrder 5 fun _ => none) ∧
    ((exec (step noPeer) { host := { server := alone } } malformed).received.map Job.fd = [5] ∧
      (exec (step noPeer) { host := { server := alone } } malformed).tasks.length = 0 ∧
      (exec (step noPeer) { host := { server := alone } } malformed).running.length = 0 ∧
      (exec (step noPeer) { host := { server := alone } } malformed).answered.length = 0 ∧
      ¬ (exec (step noPeer) { host := { server := alone } } malformed).InOrder 5 fun _ => none) := by
  have hrun : (exec (step noPeer) { host := { server := alone } } overtaking).answered.map
        (fun e => (e.1.fd, e.1.number)) = [(5, 1), (5, 0)] ∧
      (exec (step noPeer) { host := { server := alone } } overtaking).stored.map
        (fun e => (e.1.number, e.2.key)) = [(1, [107]), (0, [107])] ∧
      (on 5 ((exec (step noPeer) { host := { server := alone } } overtaking).answered.map
        Prod.fst)).map Job.number = [1, 0] := by
    decide +kernel
  have hmalformed :
      (exec (step noPeer) { host := { server := alone } } malformed).received.map Job.fd = [5] ∧
      (exec (step noPeer) { host := { server := alone } } malformed).tasks.length = 0 ∧
      (exec (step noPeer) { host := { server := alone } } malformed).running.length = 0 ∧
      (exec (step noPeer) { host := { server := alone } } malformed).answered.length = 0 := by
    decide +kernel
  obtain ⟨hanswered, hstored, hnumbers⟩ := hrun
  obtain ⟨hreceived, htasks, hrunning, hnone⟩ := hmalformed
  refine ⟨⟨hanswered, hstored, fun h => ?_⟩, hreceived, htasks, hrunning, hnone, fun h => ?_⟩
  · have hreplies := h.replies
    rw [hnumbers] at hreplies
    have hhead := congrArg List.head? hreplies
    cases hlen : (on 5 ((exec (step noPeer) { host := { server := alone } } overtaking).answered.map
        Prod.fst)).length with
    | zero =>
      rw [hlen] at hhead
      exact absurd hhead (by simp)
    | succ n =>
      rw [hlen, List.range_succ_eq_map] at hhead
      exact absurd hhead (by simp)
  · have hrest := h.rest
    rw [List.length_eq_zero_iff] at htasks hrunning hnone
    obtain ⟨job, hjob, hfd⟩ := List.map_eq_singleton_iff.mp hreceived
    rw [htasks, hrunning, hnone, hjob, on_singleton hfd] at hrest
    exact absurd hrest (by simp [on])

end Pool
end Server
end KvJet
