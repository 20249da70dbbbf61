import KvJet.Server.Pool
import KvJet.Server.ThreadPool

/-!
# Commands on the threads of the pool

`Pool` is the queue of commands as its users see it: a command is put at the end, and where a
thread is idle the next one may start. The threads of `ThreadPool` sleep, are woken and check, and
they may be shut down. Here they run the commands, and the two are the same: whatever happens with
the threads is a run of `Pool`, and every run of `Pool` can happen (`same_commands`). So what is
true of `Pool` is true of the threads, under every order of their locks and wakeups.
-/

namespace KvJet
namespace Server

open Resp Store Run

structure Threaded where
  host : Host
  pool : ThreadPool Job
  /-- How far thread `i` is with its command. -/
  progress : Nat → Progress := fun _ => .fresh
  answered : List (Job × Bytes) := []
  stored : List (Job × Write) := []

namespace Threaded

inductive Event where
  /-- The main loop has read a command and calls `enqueue`. -/
  | receive (fd : Int) (request : RespValue)
  /-- What the pool does with its threads. -/
  | pool (e : ThreadPool.Event Job)
  /-- The command on thread `i` takes its next step. -/
  | advance (i : Nat) (due : Bool)

def new (host : Host) (threadCount : Nat) : Threaded := { host, pool := .new threadCount }

def receive (s : Threaded) (fd : Int) (request : RespValue) : Threaded :=
  let job : Job := { fd, number := (Pool.on fd s.pool.accepted).length, request }
  { s with pool := s.pool.step (.enqueue job) }

/-- A task is put on the queue and ends in the two other kinds of steps. -/
def schedule (s : Threaded) : ThreadPool.Event Job → Threaded
  | .enqueue _ | .finish _ => s
  | .check i =>
    match s.pool.check i with
    | some pool => { s with pool, progress := Function.update s.progress i .fresh }
    | none => s
  | e => { s with pool := s.pool.step e }

/-- The command that thread `i` is at. -/
def worker (s : Threaded) (i : Nat) : Option Worker :=
  (s.pool.taskOf i).map fun job => { job, progress := s.progress i }

def finish (s : Threaded) (i : Nat) : Threaded := { s with pool := s.pool.step (.finish i) }

def advance (peer : RespValue → Int → HostM Bytes) (s : Threaded) (i : Nat) (due : Bool) :
    Threaded :=
  match s.worker i with
  | none => s
  | some r =>
    match r.progress with
    | .reply text =>
      { s.finish i with
        answered := if text.isEmpty then s.answered else s.answered ++ [(r.job, text)] }
    | p =>
      match (Pool.work peer r due).call s.host with
      | (.ok p', host) =>
        { s with host
                 progress := Function.update s.progress i p'
                 stored := s.stored ++ (Pool.storing p).map (r.job, ·) }
      | (.error _, host) => { s.finish i with host }

def step (peer : RespValue → Int → HostM Bytes) (s : Threaded) : Event → Threaded
  | .receive fd request => s.receive fd request
  | .pool e => s.schedule e
  | .advance i due => s.advance peer i due

/-! ## The two are the same -/

/-- The threads that are at a command, in the order in which they took it. -/
structure Ordered (s : Threaded) (running : List Worker) (order : List Nat) : Prop where
  nodup : order.Nodup
  running : running.map some = order.map s.worker
  all : ∀ i, (s.worker i).isSome = true → i ∈ order

/-- A state of the threads and one of `Pool` that look alike from outside. Which thread has which
command is not seen there, so the order of the workers is any one that fits (`Ordered`). -/
structure Follows (n : Nat) (s : Threaded) (p : Pool) : Prop where
  kept : s.pool.Kept n
  host : p.host = s.host
  threads : p.threads = n
  tasks : p.tasks = s.pool.dropped ++ s.pool.tasks
  running : ∃ order, s.Ordered p.running order
  answered : p.answered = s.answered
  received : p.received = s.pool.accepted
  stored : p.stored = s.stored

variable {s s' : Threaded} {p : Pool} {n : Nat} {running : List Worker} {order : List Nat}

theorem follows_new (host : Host) (n : Nat) : Follows n (new host n) { host, threads := n } where
  kept := ThreadPool.kept_new n
  host := rfl
  threads := rfl
  tasks := rfl
  running := by
    refine ⟨[], List.nodup_nil, rfl, fun i hi => ?_⟩
    have hnone : (new host n).worker i = none := by
      rw [worker, new, ThreadPool.taskOf, ThreadPool.new, List.getElem?_replicate]
      split <;> rfl
    rw [hnone] at hi
    cases hi
  answered := rfl
  received := rfl
  stored := rfl

/-- A step after which every thread is at what it was at. -/
theorem Ordered.same (h : s.Ordered running order) (hworker : s'.worker = s.worker) :
    s'.Ordered running order :=
  ⟨h.nodup, hworker ▸ h.running, hworker ▸ h.all⟩

/-- A thread takes a command. -/
theorem Ordered.takes (h : s.Ordered running order) {i : Nat} {r : Worker}
    (hi : s.worker i = none) (hworker : s'.worker = Function.update s.worker i (some r)) :
    s'.Ordered (running ++ [r]) (order ++ [i]) := by
  have hnew : i ∉ order := by
    intro hmem
    have hin : (none : Option Worker) ∈ running.map some := by
      rw [h.running, ← hi]
      exact List.mem_map_of_mem hmem
    simp at hin
  refine ⟨?_, ?_, fun j hj => ?_⟩
  · rw [List.nodup_append]
    refine ⟨h.nodup, List.nodup_singleton i, fun a ha b hb => ?_⟩
    rw [List.mem_singleton.mp hb]
    rintro rfl
    exact hnew ha
  · rw [List.map_append, List.map_append, h.running, hworker]
    congr 1
    · refine List.map_congr_left fun j hj => ?_
      rw [Function.update_of_ne]
      rintro rfl
      exact hnew hj
    · simp
  · rw [hworker] at hj
    rcases eq_or_ne j i with rfl | hne
    · simp
    · rw [Function.update_of_ne hne] at hj
      exact List.mem_append_left _ (h.all j hj)

/-- The place of a thread. -/
theorem Ordered.place (h : s.Ordered running order) {i : Nat} {r : Worker}
    (hi : s.worker i = some r) : ∃ j : Nat, order[j]? = some i ∧ running[j]? = some r := by
  obtain ⟨j, hj⟩ := List.getElem?_of_mem (h.all i (by rw [hi]; rfl))
  refine ⟨j, hj, ?_⟩
  have hplace := congrArg (fun l => l[j]?) h.running
  simp only [List.getElem?_map, hj, Option.map_some, hi] at hplace
  cases hr : running[j]? with
  | none => rw [hr] at hplace; cases hplace
  | some r' =>
    rw [hr] at hplace
    simpa using hplace

/-- A thread goes on with its command. -/
theorem Ordered.goes (h : s.Ordered running order) {i j : Nat} {r : Worker}
    (hj : order[j]? = some i) (hworker : s'.worker = Function.update s.worker i (some r)) :
    s'.Ordered (running.set j r) order := by
  refine ⟨h.nodup, ?_, fun k hk => ?_⟩
  · rw [List.map_set, h.running, hworker]
    refine List.ext_getElem? fun k => ?_
    rw [List.getElem?_set]
    split
    · rename_i hjk
      subst hjk
      obtain ⟨hlt, -⟩ := List.getElem?_eq_some_iff.mp hj
      rw [List.length_map, if_pos hlt, List.getElem?_map, hj]
      simp
    · rename_i hjk
      rw [List.getElem?_map, List.getElem?_map]
      cases hk : order[k]? with
      | none => rfl
      | some i' =>
        have hne : i' ≠ i := by
          rintro rfl
          obtain ⟨hlt, hget⟩ := List.getElem?_eq_some_iff.mp hj
          obtain ⟨hlt', hget'⟩ := List.getElem?_eq_some_iff.mp hk
          exact hjk ((h.nodup.getElem_inj_iff).mp (hget.trans hget'.symm))
        rw [Option.map_some, Option.map_some, Function.update_of_ne hne]
  · rw [hworker] at hk
    rcases eq_or_ne k i with rfl | hne
    · exact List.mem_of_getElem? hj
    · rw [Function.update_of_ne hne] at hk
      exact h.all k hk

/-- A thread is done with its command. -/
theorem Ordered.ends (h : s.Ordered running order) {i j : Nat} (hj : order[j]? = some i)
    (hworker : s'.worker = Function.update s.worker i none) :
    s'.Ordered (running.eraseIdx j) (order.eraseIdx j) := by
  obtain ⟨hlt, hget⟩ := List.getElem?_eq_some_iff.mp hj
  have herase : order.eraseIdx j = order.erase i := by
    rw [← hget, h.nodup.erase_getElem]
  refine ⟨h.nodup.sublist (List.eraseIdx_sublist order j), ?_, fun k hk => ?_⟩
  · rw [← List.eraseIdx_map, h.running, List.eraseIdx_map, hworker]
    refine List.map_congr_left fun k hk => ?_
    rw [herase, h.nodup.mem_erase_iff] at hk
    rw [Function.update_of_ne hk.1]
  · rw [hworker] at hk
    rcases eq_or_ne k i with rfl | hne
    · simp at hk
    · rw [Function.update_of_ne hne] at hk
      rw [herase, h.nodup.mem_erase_iff]
      exact ⟨hne, h.all k hk⟩

/-- There is a place for a thread that is not at a command. -/
theorem Ordered.length_lt (h : s.Ordered running order) {i n : Nat} (hi : s.worker i = none)
    (hin : i < n) (hall : ∀ k, (s.worker k).isSome = true → k < n) : running.length < n := by
  have hsome : ∀ k ∈ order, (s.worker k).isSome = true := by
    intro k hk
    have hmem : s.worker k ∈ running.map some := h.running ▸ List.mem_map_of_mem hk
    obtain ⟨r, -, hr⟩ := List.mem_map.mp hmem
    rw [← hr]
    rfl
  have hsub : (i :: order) ⊆ List.range n := by
    intro k hk
    rw [List.mem_range]
    rcases List.mem_cons.mp hk with rfl | hk
    · exact hin
    · exact hall k (hsome k hk)
  have hnodup : (i :: order).Nodup := by
    refine List.nodup_cons.mpr ⟨fun hk => ?_, h.nodup⟩
    have hi' := hsome i hk
    rw [hi] at hi'
    cases hi'
  have hlen := (List.subperm_of_subset hnodup hsub).length_le
  have hrunning := congrArg List.length h.running
  rw [List.length_map, List.length_map] at hrunning
  rw [List.length_cons, List.length_range] at hlen
  omega

/-! ## Every step of the threads is one of `Pool`, or none

Locks, waits and wakeups are not seen from outside. -/

theorem worker_same (htask : s'.pool.taskOf = s.pool.taskOf) (hprogress : s'.progress = s.progress) :
    s'.worker = s.worker := by
  funext i
  rw [worker, worker, htask, hprogress]

/-- A step that is no step of `Pool`. -/
theorem Follows.quiet (h : Follows n s p) {e : ThreadPool.Event Job} (he : e.Quiet) :
    Follows n { s with pool := s.pool.step e } p := by
  have hkept := h.kept.step e
  unfold ThreadPool.step at hkept ⊢
  cases hs : s.pool.next e with
  | none => exact h
  | some pool =>
    rw [hs] at hkept
    obtain ⟨htask, htasks, haccepted⟩ := h.kept.quiet he hs
    obtain ⟨order, hordered⟩ := h.running
    exact ⟨hkept, h.host, h.threads, h.tasks.trans htasks.symm,
      ⟨order, hordered.same (worker_same htask rfl)⟩, h.answered, h.received.trans haccepted.symm,
      h.stored⟩

theorem Follows.receive (h : Follows n s p) (hstop : s.pool.stop = false) (fd : Int)
    (request : RespValue) : Follows n (s.receive fd request) (p.receive fd request) := by
  obtain ⟨order, hordered⟩ := h.running
  have hkept := h.kept.step (.enqueue { fd, number := (Pool.on fd s.pool.accepted).length, request })
  have hstep : ∀ job, s.pool.step (.enqueue job) = { s.pool with
      tasks := s.pool.tasks ++ [job]
      notifying := s.pool.notifying + 1
      accepted := s.pool.accepted ++ [job] } := by
    intro job
    simp [ThreadPool.step, ThreadPool.next, ThreadPool.enqueue, hstop]
  rw [hstep] at hkept
  simp only [Threaded.receive, hstep]
  refine ⟨hkept, h.host, h.threads, ?_, ⟨order, hordered.same (worker_same rfl rfl)⟩, h.answered, ?_,
    h.stored⟩
  · simp only [Pool.receive, h.tasks, h.received, List.append_assoc]
  · simp only [Pool.receive, h.received]

/-- A stopped pool takes no command. -/
theorem receive_stopped (hstop : s.pool.stop = true) (fd : Int) (request : RespValue) :
    s.receive fd request = s := by
  simp [Threaded.receive, ThreadPool.step, ThreadPool.next, ThreadPool.enqueue, hstop]

/-- An idle thread finds a command. -/
theorem Follows.takes (h : Follows n s p) {i : Nat}
    {job : Job} {tasks : List Job} (hi : s.pool.workers[i]? = some .checking)
    (htasks : s.pool.tasks = job :: tasks) {pool : ThreadPool Job} (hkept : pool.Kept n)
    (hpool : pool = { s.pool with
      workers := s.pool.workers.set i (.running job)
      tasks
      started := s.pool.started ++ [job] }) :
    Follows n { s with pool, progress := Function.update s.progress i .fresh } p.take := by
  obtain ⟨order, hordered⟩ := h.running
  have hdropped : s.pool.dropped = [] := by
    by_contra hne
    exact absurd (h.kept.dropped hne).2 (by simp [htasks])
  have hidle : s.worker i = none := by rw [worker, ThreadPool.taskOf, hi]; rfl
  have hroom : p.running.length < p.threads := by
    rw [h.threads]
    refine hordered.length_lt hidle ?_ fun k hk => ?_
    · rw [← h.kept.threads]
      exact (List.getElem?_eq_some_iff.mp hi).1
    · rw [← h.kept.threads]
      by_contra hge
      rw [worker, ThreadPool.taskOf, List.getElem?_eq_none (Nat.not_lt.mp hge)] at hk
      cases hk
  have htake : p.take = { p with tasks, running := p.running ++ [{ job }] } := by
    have hp : p.tasks = job :: tasks := by rw [h.tasks, hdropped, htasks, List.nil_append]
    simp only [Pool.take, hp, if_pos hroom]
  have hworker : ∀ j, ({ s with pool, progress := Function.update s.progress i .fresh } :
      Threaded).worker j = Function.update s.worker i (some { job }) j := by
    intro j
    rw [worker, ThreadPool.taskOf, hpool, ThreadPool.current_set hi]
    rcases eq_or_ne j i with rfl | hne
    · simp [Runner.current]
    · simp only [if_neg hne, Function.update_of_ne hne, worker, ThreadPool.taskOf]
  rw [htake]
  refine ⟨hkept, h.host, h.threads, ?_, ⟨order ++ [i], hordered.takes hidle (funext hworker)⟩,
    h.answered, ?_, h.stored⟩
  · simp [hpool, hdropped]
  · rw [hpool]
    exact h.received

theorem Follows.check (peer : RespValue → Int → HostM Bytes) (h : Follows n s p) (i : Nat) :
    ∃ es, Follows n (s.schedule (.check i)) (exec (Pool.step peer) p es) := by
  simp only [schedule]
  cases hs : s.pool.check i with
  | none => exact ⟨[], h⟩
  | some pool =>
    have hkept := h.kept.check hs
    obtain ⟨hi, hcases⟩ := ThreadPool.check_cases hs
    have hidle : s.worker i = none := by rw [worker, ThreadPool.taskOf, hi]; rfl
    -- a thread that goes to sleep or returns was not at a command, and is not
    have hquiet : ∀ b : Runner Job, b.current = none → pool.workers = s.pool.workers.set i b →
        ({ s with pool, progress := Function.update s.progress i .fresh } : Threaded).worker
          = s.worker := by
      intro b hb hworkers
      have htask := ThreadPool.taskOf_set hi hworkers hb.symm
      funext j
      simp only [worker, htask]
      rcases eq_or_ne j i with rfl | hne
      · rw [ThreadPool.taskOf, hi]
        rfl
      · rw [Function.update_of_ne hne]
    obtain ⟨order, hordered⟩ := h.running
    rcases hcases with ⟨-, -, rfl⟩ | ⟨-, -, rfl⟩ | ⟨job, tasks, htasks, rfl⟩
    · exact ⟨[], hkept, h.host, h.threads, h.tasks, ⟨order, hordered.same (hquiet _ rfl rfl)⟩,
        h.answered, h.received, h.stored⟩
    · exact ⟨[], hkept, h.host, h.threads, h.tasks, ⟨order, hordered.same (hquiet _ rfl rfl)⟩,
        h.answered, h.received, h.stored⟩
    · exact ⟨[.take], h.takes hi htasks hkept rfl⟩

theorem Follows.schedule (peer : RespValue → Int → HostM Bytes) (h : Follows n s p)
    (e : ThreadPool.Event Job) :
    ∃ es, Follows n (s.schedule e) (exec (Pool.step peer) p es) := by
  cases e with
  | enqueue job => exact ⟨[], h⟩
  | finish i => exact ⟨[], h⟩
  | check i => exact h.check peer i
  | notifyOne i => exact ⟨[], h.quiet (e := .notifyOne i) trivial⟩
  | wakeup i => exact ⟨[], h.quiet (e := .wakeup i) trivial⟩
  | shutdown now => exact ⟨[], h.quiet (e := .shutdown now) trivial⟩
  | notifyAll => exact ⟨[], h.quiet (e := .notifyAll) trivial⟩
  | join => exact ⟨[], h.quiet (e := .join) trivial⟩

/-- A thread is done with its command. -/
theorem Ordered.finish (h : s.Ordered running order) {i j : Nat} {r : Worker}
    (hi : s.worker i = some r) (hj : order[j]? = some i) :
    (s.finish i).Ordered (running.eraseIdx j) (order.eraseIdx j) ∧
      (s.finish i).pool.tasks = s.pool.tasks ∧ (s.finish i).pool.dropped = s.pool.dropped ∧
      (s.finish i).pool.accepted = s.pool.accepted := by
  obtain ⟨job, hjob, -⟩ := Option.map_eq_some_iff.mp hi
  have hthread : s.pool.workers[i]? = some (.running job) := by
    rw [ThreadPool.taskOf] at hjob
    obtain ⟨t, ht, hcurrent⟩ := Option.bind_eq_some_iff.mp hjob
    cases t <;> cases hcurrent
    exact ht
  have hfinish : s.finish i = { s with pool := { s.pool with
      workers := s.pool.workers.set i .checking
      finished := s.pool.finished ++ [job] } } := by
    simp only [Threaded.finish, ThreadPool.step, ThreadPool.next, ThreadPool.finish, hthread,
      Option.getD_some]
  rw [hfinish]
  refine ⟨h.ends hj (funext fun k => ?_), rfl, rfl, rfl⟩
  rw [worker, ThreadPool.taskOf, ThreadPool.current_set hthread]
  rcases eq_or_ne k i with rfl | hne
  · simp [Runner.current]
  · simp only [if_neg hne, Function.update_of_ne hne, worker, ThreadPool.taskOf]

theorem goes_worker {i : Nat} {r : Worker} (hi : s.worker i = some r) (p' : Progress) (k : Nat) :
    (s.pool.taskOf k).map (fun job : Job => ({ job, progress := Function.update s.progress i p' k } : Worker))
      = Function.update s.worker i (some { r with progress := p' }) k := by
  rcases eq_or_ne k i with rfl | hne
  · obtain ⟨job, hjob, rfl⟩ := Option.map_eq_some_iff.mp hi
    rw [hjob, Option.map_some, Function.update_self, Function.update_self]
  · rw [Function.update_of_ne hne, Function.update_of_ne hne]
    rfl

theorem Follows.advance (peer : RespValue → Int → HostM Bytes) (h : Follows n s p)
    (hordered : s.Ordered p.running order) {i j : Nat} {r : Worker} (hi : s.worker i = some r)
    (hj : order[j]? = some i) (hr : p.running[j]? = some r) (due : Bool) :
    Follows n (s.advance peer i due) (p.advance peer j due) := by
  obtain ⟨hends, htasks, hdropped, haccepted⟩ := hordered.finish hi hj
  have hkept : (s.finish i).pool.Kept n := h.kept.step (.finish i)
  simp only [Threaded.advance, Pool.advance, hi, hr]
  cases hprogress : r.progress with
  | reply text =>
    refine ⟨hkept, h.host, h.threads, ?_, ⟨_, hends.same rfl⟩, ?_, ?_, h.stored⟩
    · simp only [Pool.reply, htasks, hdropped, h.tasks]
    · simp only [Pool.reply, h.answered]
    · simp only [Pool.reply, haccepted, h.received]
  | fresh | push w | log w | store w =>
    cases hwork : (Pool.work peer r due).call s.host with
    | mk result host =>
      simp only [h.host, hwork]
      cases result with
      | ok p' =>
        refine ⟨h.kept, rfl, h.threads, h.tasks, ⟨order, hordered.goes hj (funext fun k => ?_)⟩,
          h.answered, h.received, by simp only [h.stored]⟩
        exact goes_worker hi p' k
      | error _ =>
        refine ⟨hkept, rfl, h.threads, ?_, ⟨_, hends.same rfl⟩, h.answered, ?_, h.stored⟩
        · simp only [htasks, hdropped, h.tasks]
        · simp only [haccepted, h.received]

/-- What happens with the threads is no step of `Pool`, or one. -/
theorem Follows.step (peer : RespValue → Int → HostM Bytes) (h : Follows n s p) (e : Event) :
    ∃ es, Follows n (s.step peer e) (exec (Pool.step peer) p es) := by
  cases e with
  | receive fd request =>
    cases hstop : s.pool.stop with
    | false => exact ⟨[.receive fd request], h.receive hstop fd request⟩
    | true =>
      refine ⟨[], ?_⟩
      rw [Threaded.step, receive_stopped hstop]
      exact h
  | pool e => exact h.schedule peer e
  | advance i due =>
    cases hi : s.worker i with
    | none =>
      refine ⟨[], ?_⟩
      simp only [Threaded.step, Threaded.advance, hi]
      exact h
    | some r =>
      obtain ⟨order, hordered⟩ := h.running
      obtain ⟨j, hj, hr⟩ := hordered.place hi
      exact ⟨[.advance j due], h.advance peer hordered hi hj hr due⟩

/-! ## Every step of `Pool` is one of the threads, or two

A thread that sleeps has to be woken before it can take a command. -/

/-- Where `Pool` may start a command, there is an idle thread. -/
theorem Ordered.idle (h : s.Ordered running order) (hlt : running.length < n) :
    ∃ i, i < n ∧ s.worker i = none := by
  have hlen := congrArg List.length h.running
  rw [List.length_map, List.length_map] at hlen
  by_contra hno
  have hsub : List.range n ⊆ order := by
    intro i hi
    refine h.all i (Option.isSome_iff_ne_none.mpr fun hnone => ?_)
    exact hno ⟨i, List.mem_range.mp hi, hnone⟩
  have hle := (List.subperm_of_subset List.nodup_range hsub).length_le
  rw [List.length_range] at hle
  omega

theorem Follows.take (peer : RespValue → Int → HostM Bytes) (h : Follows n s p)
    (hstop : s.pool.stop = false) :
    ∃ es, Follows n (exec (Threaded.step peer) s es) p.take ∧ (exec (Threaded.step peer) s es).pool.stop = false := by
  obtain ⟨order, hordered⟩ := h.running
  have hdropped : s.pool.dropped = [] := by
    by_contra hne
    exact absurd (h.kept.dropped hne).1 (by simp [hstop])
  cases htasks : p.tasks with
  | nil =>
    refine ⟨[], ?_, hstop⟩
    simp only [Pool.take, htasks]
    exact h
  | cons job tasks =>
    by_cases hroom : p.running.length < p.threads
    · rw [h.threads] at hroom
      obtain ⟨i, hin, hi⟩ := hordered.idle hroom
      have htasks' : s.pool.tasks = job :: tasks := by
        rw [← htasks, h.tasks, hdropped, List.nil_append]
      -- a thread that checks takes the command
      have hchecks : ∀ s' : Threaded, Follows n s' p → s'.pool.tasks = job :: tasks →
          s'.pool.workers[i]? = some .checking → s'.pool.stop = false →
          Follows n (s'.step peer (.pool (.check i))) p.take ∧
            (s'.step peer (.pool (.check i))).pool.stop = false := by
        intro s' h' htasks' hi' hstop'
        have hcheck : s'.pool.check i = some { s'.pool with
            workers := s'.pool.workers.set i (.running job)
            tasks
            started := s'.pool.started ++ [job] } := by
          simp only [ThreadPool.check, hi', htasks']
        have hkept := h'.kept.check hcheck
        simp only [Threaded.step, Threaded.schedule, hcheck]
        exact ⟨h'.takes hi' htasks' hkept rfl, hstop'⟩
      have hlt : i < s.pool.workers.length := by
        rw [h.kept.threads]
        exact hin
      cases hthread : s.pool.workers[i] with
      | checking =>
        have hget := List.getElem?_eq_some_iff.mpr ⟨hlt, hthread⟩
        exact ⟨[.pool (.check i)], hchecks s h htasks' hget hstop⟩
      | waiting =>
        have hget := List.getElem?_eq_some_iff.mpr ⟨hlt, hthread⟩
        have hwakeup : s.pool.step (.wakeup i) = { s.pool with
            workers := s.pool.workers.set i .checking } := by
          simp [ThreadPool.step, ThreadPool.next, ThreadPool.wakeup, ThreadPool.waits_iff.mpr hget]
        refine ⟨[.pool (.wakeup i), .pool (.check i)], ?_⟩
        have hwoken := h.quiet (e := .wakeup i) trivial
        rw [hwakeup] at hwoken
        have hstep : s.step peer (.pool (.wakeup i)) = { s with pool := { s.pool with
            workers := s.pool.workers.set i .checking } } := by
          simp only [Threaded.step, Threaded.schedule, hwakeup]
        rw [exec_cons, hstep]
        exact hchecks _ hwoken htasks' (List.getElem?_set_self hlt) hstop
      | running job' =>
        have hget := List.getElem?_eq_some_iff.mpr ⟨hlt, hthread⟩
        rw [worker, ThreadPool.taskOf, hget] at hi
        cases hi
      | returned =>
        have hmem : Runner.returned ∈ s.pool.workers := hthread ▸ List.getElem_mem hlt
        exact absurd (h.kept.returned hmem).1 (by simp [hstop])
    · refine ⟨[], ?_, hstop⟩
      simp only [Pool.take, htasks, if_neg hroom]
      exact h

/-- What the threads do stops nothing. -/
theorem stop_advance (peer : RespValue → Int → HostM Bytes) (i : Nat) (due : Bool) :
    (s.advance peer i due).pool.stop = s.pool.stop := by
  have hfinish : (s.finish i).pool.stop = s.pool.stop :=
    ThreadPool.stop_step (e := .finish i) (by simp)
  unfold Threaded.advance
  split
  · rfl
  · split
    · exact hfinish
    · split
      · rfl
      · exact hfinish

theorem Follows.back (peer : RespValue → Int → HostM Bytes) (h : Follows n s p)
    (hstop : s.pool.stop = false) (e : Pool.Event) :
    ∃ es, Follows n (exec (Threaded.step peer) s es) (p.step peer e) ∧
      (exec (Threaded.step peer) s es).pool.stop = false := by
  cases e with
  | receive fd request =>
    refine ⟨[.receive fd request], h.receive hstop fd request, ?_⟩
    exact (ThreadPool.stop_step (by simp)).trans hstop
  | take => exact h.take peer hstop
  | advance j due =>
    cases hr : p.running[j]? with
    | none =>
      refine ⟨[], ?_, hstop⟩
      simp only [Pool.step, Pool.advance, hr]
      exact h
    | some r =>
      obtain ⟨order, hordered⟩ := h.running
      have hplace := congrArg (fun l => l[j]?) hordered.running
      simp only [List.getElem?_map, hr, Option.map_some] at hplace
      obtain ⟨i, hj, hi⟩ := Option.map_eq_some_iff.mp hplace.symm
      exact ⟨[.advance i due], h.advance peer hordered hi hj hr due,
        (stop_advance peer i due).trans hstop⟩

/-- **The threads refine the queue of commands.** For every server and any number of threads: what
happens in a run with the threads, their locks, wakeups and a shutdown, also happens in a run of
`Pool`, and the other way round: with the same replies, writes and commands read, the same state of
the server, and the same commands under way and waiting.

Seen from outside a thread that sleeps, is woken or checks does nothing; it starts a command when it
takes one off the queue, and then goes through it like a worker of `Pool`. So each step of the
threads is one step of `Pool` or none (`Follows`). The other way round, a step of `Pool` is made up
of those of some thread, and one is always free to make them. -/
theorem same_commands (peer : RespValue → Int → HostM Bytes) (host : Host) (n : Nat) :
    (∀ es, ∃ ps, Follows n (exec (step peer) (new host n) es)
      (exec (Pool.step peer) { host, threads := n } ps)) ∧
    (∀ ps, ∃ es, Follows n (exec (step peer) (new host n) es)
      (exec (Pool.step peer) { host, threads := n } ps)) := by
  constructor
  · intro es
    exact exec_follows (fun _ _ e h => h.step peer e) es (follows_new host n)
  · intro ps
    obtain ⟨es, h, -⟩ := exec_follows
      (R := fun (p : Pool) (s : Threaded) => Follows n s p ∧ s.pool.stop = false)
      (fun _ _ e h => h.1.back peer h.2 e) ps ⟨follows_new host n, rfl⟩
    exact ⟨es, h⟩

end Threaded
end Server
end KvJet
