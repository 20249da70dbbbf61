import KvJet.Lib.Run
import Mathlib.Algebra.BigOperators.Group.List.Basic
import Mathlib.Algebra.Ring.Nat
import Mathlib.Data.List.Perm.Basic

/-!
# The thread pool

The threads of the pool look at the queue under `queueMutex` and wait on `cv` where it is empty;
`enqueue` puts a task on the queue and notifies one of them after it has let go of the mutex. A step
is one critical section, one notification or the end of a task, and which thread is woken, with or
without a reason, is the environment's choice.

No wakeup is lost (`Kept.watched`): while a thread waits, every task on the queue has a thread or a
notification that is on its way to it. So a pool where nothing moves any more has finished all its
tasks, and a call of `shutdown` or `shutdownnow` returns (`drains`).
-/

namespace KvJet
namespace Server

open Run

/-- Where a thread of the pool is. -/
inductive Runner (α : Type*) where
  /-- Before the critical section, at the beginning or since it has been woken. -/
  | checking
  /-- In `cv.wait`. -/
  | waiting
  | running (task : α)
  | returned

/-- How far the call of `shutdown` or `shutdownnow` is. The destructor makes one. -/
inductive Closing where
  | opened
  /-- Before `notify_all`. -/
  | stopped
  /-- At `workers[i].join()`. -/
  | joining (i : Nat)
  | closed
deriving DecidableEq, Repr

structure ThreadPool (α : Type*) where
  workers : List (Runner α)
  tasks : List α := []
  stop : Bool := false
  /-- The calls of `enqueue` that are between their critical section and `notify_one`. -/
  notifying : Nat := 0
  closing : Closing := .opened
  /-- What has been put on the queue. Nothing reads this or what follows. -/
  accepted : List α := []
  started : List α := []
  finished : List α := []
  /-- What `shutdownnow` has taken off the queue. -/
  dropped : List α := []

namespace Runner

variable {α : Type*}

def isWaiting : Runner α → Bool
  | .waiting => true
  | _ => false

/-- What a thread does when it is notified. -/
def wake : Runner α → Runner α
  | .waiting => .checking
  | t => t

def isChecking : Runner α → Bool
  | .checking => true
  | _ => false

/-- How many steps it takes, where there is no new task. -/
def weight : Runner α → Nat
  | .checking => 1
  | .waiting => 0
  | .running _ => 2
  | .returned => 0

/-- What it has taken and not finished. -/
def current : Runner α → Option α
  | .running task => some task
  | _ => none

def task (t : Runner α) : List α := t.current.toList

end Runner

namespace ThreadPool

variable {α : Type*}

inductive Event (α : Type*) where
  /-- The critical section of `enqueue`. -/
  | enqueue (task : α)
  /-- `cv.notify_one()` of one of these calls, which wakes thread `i`. -/
  | notifyOne (i : Option Nat)
  /-- A spurious wakeup. -/
  | wakeup (i : Nat)
  /-- The critical section of thread `i`. -/
  | check (i : Nat)
  /-- The task of thread `i` has returned or thrown. -/
  | finish (i : Nat)
  /-- The critical section of `shutdown`, or of `shutdownnow`. -/
  | shutdown (now : Bool)
  | notifyAll
  /-- The next `join` returns, or there is none left. -/
  | join

/-- `ThreadPool::ThreadPool`. -/
def new (threadCount : Nat) : ThreadPool α := { workers := List.replicate threadCount .checking }

/-- It throws when the pool is stopped. -/
def enqueue (s : ThreadPool α) (task : α) : Option (ThreadPool α) :=
  if s.stop then none
  else some { s with
    tasks := s.tasks ++ [task]
    notifying := s.notifying + 1
    accepted := s.accepted ++ [task] }

def waits (s : ThreadPool α) (i : Nat) : Bool := (s.workers[i]?).any Runner.isWaiting

/-- Where nobody waits, a notification does nothing. -/
def notifyOne (s : ThreadPool α) : Option Nat → Option (ThreadPool α)
  | some i =>
    if s.notifying ≠ 0 && s.waits i then
      some { s with notifying := s.notifying - 1, workers := s.workers.set i .checking }
    else none
  | none =>
    if s.notifying ≠ 0 && !s.workers.any Runner.isWaiting then
      some { s with notifying := s.notifying - 1 }
    else none

def wakeup (s : ThreadPool α) (i : Nat) : Option (ThreadPool α) :=
  if s.waits i then some { s with workers := s.workers.set i .checking } else none

/-- The predicate of `cv.wait`, and then either the return or the next task. -/
def check (s : ThreadPool α) (i : Nat) : Option (ThreadPool α) :=
  match s.workers[i]? with
  | some .checking =>
    match s.tasks with
    | [] => some { s with workers := s.workers.set i (if s.stop then .returned else .waiting) }
    | task :: tasks => some { s with
        workers := s.workers.set i (.running task)
        tasks
        started := s.started ++ [task] }
  | _ => none

def finish (s : ThreadPool α) (i : Nat) : Option (ThreadPool α) :=
  match s.workers[i]? with
  | some (.running task) => some { s with
      workers := s.workers.set i .checking
      finished := s.finished ++ [task] }
  | _ => none

def shutdown (s : ThreadPool α) (now : Bool) : Option (ThreadPool α) :=
  match s.closing with
  | .opened => some { s with
      stop := true
      closing := .stopped
      tasks := if now then [] else s.tasks
      dropped := if now then s.tasks else [] }
  | _ => none

def notifyAll (s : ThreadPool α) : Option (ThreadPool α) :=
  match s.closing with
  | .stopped => some { s with workers := s.workers.map Runner.wake, closing := .joining 0 }
  | _ => none

/-- After the last one comes `workers.clear()`, which no thread sees. -/
def join (s : ThreadPool α) : Option (ThreadPool α) :=
  match s.closing with
  | .joining i =>
    match s.workers[i]? with
    | none => some { s with closing := .closed }
    | some .returned => some { s with closing := .joining (i + 1) }
    | some _ => none
  | _ => none

/-- What happens in a step, if it can be taken. -/
def next (s : ThreadPool α) : Event α → Option (ThreadPool α)
  | .enqueue task => s.enqueue task
  | .notifyOne i => s.notifyOne i
  | .wakeup i => s.wakeup i
  | .check i => s.check i
  | .finish i => s.finish i
  | .shutdown now => s.shutdown now
  | .notifyAll => s.notifyAll
  | .join => s.join

def step (s : ThreadPool α) (e : Event α) : ThreadPool α := (s.next e).getD s

/-- The steps that the pool takes by itself, where tasks return and no thread is woken without a
reason. -/
def Event.Internal : Event α → Prop
  | .notifyOne _ | .check _ | .finish _ | .notifyAll | .join => True
  | .enqueue _ | .wakeup _ | .shutdown _ => False

instance : DecidablePred (Event.Internal (α := α))
  | .notifyOne _ | .check _ | .finish _ | .notifyAll | .join => inferInstanceAs (Decidable True)
  | .enqueue _ | .wakeup _ | .shutdown _ => inferInstanceAs (Decidable False)

/-- Nothing moves any more. -/
def Settled (s : ThreadPool α) : Prop := ∀ e : Event α, e.Internal → s.next e = none

/-- The task that thread `i` is at. -/
def taskOf (s : ThreadPool α) (i : Nat) : Option α := (s.workers[i]?).bind Runner.current

/-! ## What every step keeps -/

/-- What the threads are at. -/
def busy (s : ThreadPool α) : List α := s.workers.flatMap Runner.task

/-- What holds between any two steps. That no wakeup is lost is `watched`; the rest says that the
tasks go through the pool one after the other, and that a thread returns only when it is told to and
the queue is empty. -/
structure Kept (n : Nat) (s : ThreadPool α) : Prop where
  threads : s.workers.length = n
  stop : s.stop = false ↔ s.closing = .opened
  /-- While a thread waits, each task has a thread or a notification on its way. -/
  watched : s.closing = .opened → s.workers.any Runner.isWaiting = true →
    s.tasks.length ≤ s.notifying + s.workers.countP Runner.isChecking
  /-- After `notify_all` no thread waits. -/
  woken : s.closing ≠ .opened → s.closing ≠ .stopped → s.workers.any Runner.isWaiting = false
  returned : .returned ∈ s.workers → s.stop = true ∧ s.tasks = []
  joined : ∀ i, s.closing = .joining i → ∀ t ∈ s.workers.take i, t = .returned
  closed : s.closing = .closed → ∀ t ∈ s.workers, t = .returned
  dropped : s.dropped ≠ [] → s.stop = true ∧ s.tasks = []
  line : s.accepted = s.started ++ s.dropped ++ s.tasks
  once : s.started.Perm (s.finished ++ s.busy)

section Workers

variable {l : List (Runner α)} {i : Nat} {a : Runner α}

theorem split_set (h : l[i]? = some a) (b : Runner α) :
    ∃ l₁ l₂, l = l₁ ++ a :: l₂ ∧ l.set i b = l₁ ++ b :: l₂ := by
  obtain ⟨hi, rfl⟩ := List.getElem?_eq_some_iff.mp h
  obtain ⟨l₁, l₂, heq, -, hset⟩ := List.exists_of_set hi
  exact ⟨l₁, l₂, heq, hset⟩

theorem current_set (h : l[i]? = some a) (b : Runner α) (j : Nat) :
    ((l.set i b)[j]?).bind Runner.current = if j = i then b.current else (l[j]?).bind Runner.current := by
  obtain ⟨hi, -⟩ := List.getElem?_eq_some_iff.mp h
  split
  · rename_i hj
    rw [hj, List.getElem?_set_self hi, Option.bind_some]
  · rename_i hj
    rw [List.getElem?_set_ne (Ne.symm hj)]

/-- How many threads satisfy `p`, when one of them moves. -/
theorem countP_set (h : l[i]? = some a) (b : Runner α) (p : Runner α → Bool) :
    (l.set i b).countP p + (if p a then 1 else 0) = l.countP p + if p b then 1 else 0 := by
  obtain ⟨l₁, l₂, heq, hset⟩ := split_set h b
  rw [hset, heq, List.countP_append, List.countP_append, List.countP_cons, List.countP_cons]
  omega

theorem any_set (h : l[i]? = some a) {b : Runner α} {p : Runner α → Bool} (hb : p b = false)
    (hany : (l.set i b).any p = true) : l.any p = true := by
  obtain ⟨l₁, l₂, heq, hset⟩ := split_set h b
  rw [hset] at hany
  rw [heq]
  simp only [List.any_append, List.any_cons, hb, Bool.false_or, Bool.or_eq_true] at hany ⊢
  rcases hany with hfirst | hrest
  · exact Or.inl hfirst
  · exact Or.inr (Or.inr hrest)

theorem busy_set (h : l[i]? = some a) (b : Runner α) :
    (a.task ++ (l.set i b).flatMap Runner.task).Perm (b.task ++ l.flatMap Runner.task) := by
  obtain ⟨l₁, l₂, heq, hset⟩ := split_set h b
  rw [hset, heq]
  simp only [List.flatMap_append, List.flatMap_cons]
  rw [← List.append_assoc, ← List.append_assoc, ← List.append_assoc, ← List.append_assoc]
  refine List.Perm.append_right _ ?_
  have hfirst : (a.task ++ l₁.flatMap Runner.task ++ b.task).Perm
      (b.task ++ (a.task ++ l₁.flatMap Runner.task)) := List.perm_append_comm
  refine hfirst.trans ?_
  rw [List.append_assoc]
  exact List.Perm.append_left _ List.perm_append_comm

/-- A thread that has been joined does not move. -/
theorem take_set {k : Nat} (h : l[i]? = some a) (ha : a ≠ .returned)
    (hall : ∀ t ∈ l.take k, t = .returned) (b : Runner α) :
    ∀ t ∈ (l.set i b).take k, t = .returned := by
  have hki : k ≤ i := by
    by_contra hlt
    have hmem : a ∈ l.take k := by
      refine List.mem_of_getElem? (i := i) ?_
      rw [List.getElem?_take_of_lt (by omega), h]
    exact ha (hall a hmem)
  rw [List.take_set_of_le hki]
  exact hall

end Workers

variable {n : Nat} {s s' : ThreadPool α}

theorem kept_new (n : Nat) : Kept n (new n : ThreadPool α) where
  threads := by simp [new]
  stop := by simp [new]
  watched _ _ := Nat.zero_le _
  woken h _ := absurd rfl h
  returned h := by simp [new] at h
  joined i h := by simp [new] at h
  closed h := by simp [new] at h
  dropped h := absurd rfl h
  line := rfl
  once := by simp [new, busy, Runner.task, Runner.current]

theorem Kept.enqueue (h : s.Kept n) {task : α} (hs : s.enqueue task = some s') : s'.Kept n := by
  unfold ThreadPool.enqueue at hs
  split at hs
  · cases hs
  · rename_i hstop
    cases hs
    refine ⟨h.threads, h.stop, fun hopened hany => ?_, h.woken,
      fun hret => absurd (h.returned hret).1 hstop, h.joined, h.closed,
      fun hne => absurd (h.dropped hne).1 hstop, ?_, h.once⟩
    · have hwatched := h.watched hopened hany
      simp only [List.length_append, List.length_singleton]
      omega
    · have hline := h.line
      simp only [hline, List.append_assoc]

section Moving

variable {i : Nat} {a b : Runner α}

/-- A thread that moves has not returned, and so it has not been joined. -/
theorem Kept.moves (h : s.Kept n) (hi : s.workers[i]? = some a) (ha : a ≠ .returned) :
    s.closing ≠ .closed ∧ ∀ k, s.closing = .joining k →
      ∀ t ∈ (s.workers.set i b).take k, t = .returned := by
  refine ⟨fun hclosed => ha (h.closed hclosed a (List.mem_of_getElem? hi)), fun k hk => ?_⟩
  exact take_set hi ha (h.joined k hk) b

theorem Kept.woken_set (h : s.Kept n) (hi : s.workers[i]? = some a) (hb : b.isWaiting = false)
    (hne : s.closing ≠ .opened) (hne' : s.closing ≠ .stopped) :
    (s.workers.set i b).any Runner.isWaiting = false := by
  rw [Bool.eq_false_iff]
  intro hany
  exact absurd (any_set hi hb hany) (by simp [h.woken hne hne'])

theorem Kept.returned_set (h : s.Kept n) (hb : b ≠ .returned) (hret : .returned ∈ s.workers.set i b) :
    s.stop = true ∧ s.tasks = [] := by
  rcases List.mem_or_eq_of_mem_set hret with hold | hnew
  · exact h.returned hold
  · exact absurd hnew.symm hb

/-- A woken thread. -/
theorem Kept.woke (h : s.Kept n) (hi : s.workers[i]? = some .waiting) {m : Nat}
    (hm : s.notifying ≤ m + 1) :
    Kept n { s with notifying := m, workers := s.workers.set i .checking } := by
  obtain ⟨hclosed, hjoined⟩ := h.moves (b := .checking) hi (by simp)
  refine ⟨by simp [h.threads], h.stop, fun hopened hany => ?_, h.woken_set hi rfl,
    h.returned_set (by simp), hjoined, fun hc => absurd hc hclosed, h.dropped, h.line, ?_⟩
  · have hwatched := h.watched hopened (any_set hi rfl hany)
    have hcount := countP_set hi .checking Runner.isChecking
    simp only [Runner.isChecking, Bool.false_eq_true, if_false, if_true] at hcount
    simp only
    omega
  · exact h.once.trans (List.Perm.append_left _ (busy_set hi .checking).symm)

theorem waits_iff : s.waits i = true ↔ s.workers[i]? = some .waiting := by
  unfold waits
  cases s.workers[i]? with
  | none => simp
  | some t => cases t <;> simp [Runner.isWaiting]

theorem Kept.notifyOne (h : s.Kept n) {i : Option Nat} (hs : s.notifyOne i = some s') :
    s'.Kept n := by
  cases i with
  | some i =>
    simp only [ThreadPool.notifyOne, Option.ite_none_right_eq_some, Bool.and_eq_true] at hs
    obtain ⟨⟨hpending, hwaits⟩, hs⟩ := hs
    cases hs
    exact h.woke (waits_iff.mp hwaits) (by omega)
  | none =>
    simp only [ThreadPool.notifyOne, Option.ite_none_right_eq_some, Bool.and_eq_true,
      Bool.not_eq_true'] at hs
    obtain ⟨⟨hpending, hnone⟩, hs⟩ := hs
    cases hs
    refine ⟨h.threads, h.stop, fun _ hany => ?_, h.woken, h.returned, h.joined, h.closed, h.dropped,
      h.line, h.once⟩
    rw [hnone] at hany
    cases hany

theorem Kept.wakeup (h : s.Kept n) (hs : s.wakeup i = some s') : s'.Kept n := by
  simp only [ThreadPool.wakeup, Option.ite_none_right_eq_some] at hs
  obtain ⟨hwaits, hs⟩ := hs
  cases hs
  exact h.woke (waits_iff.mp hwaits) (Nat.le_succ _)

/-- All that a thread can find when it looks at the queue. -/
theorem check_cases (hs : s.check i = some s') :
    s.workers[i]? = some .checking ∧
    ((s.tasks = [] ∧ s.stop = true ∧ s' = { s with workers := s.workers.set i .returned }) ∨
      (s.tasks = [] ∧ s.stop = false ∧ s' = { s with workers := s.workers.set i .waiting }) ∨
      ∃ task tasks, s.tasks = task :: tasks ∧ s' = { s with
        workers := s.workers.set i (.running task)
        tasks
        started := s.started ++ [task] }) := by
  unfold ThreadPool.check at hs
  split at hs
  · rename_i hi
    refine ⟨hi, ?_⟩
    split at hs
    · rename_i htasks
      cases hstop : s.stop with
      | true =>
        rw [hstop] at hs
        exact Or.inl ⟨htasks, rfl, (Option.some.inj hs).symm⟩
      | false =>
        rw [hstop] at hs
        exact Or.inr (Or.inl ⟨htasks, rfl, (Option.some.inj hs).symm⟩)
    · rename_i task tasks htasks
      exact Or.inr (Or.inr ⟨task, tasks, htasks, (Option.some.inj hs).symm⟩)
  · cases hs

theorem Kept.check (h : s.Kept n) (hs : s.check i = some s') : s'.Kept n := by
  obtain ⟨hi, hcases⟩ := check_cases hs
  have hcount := fun b : Runner α => countP_set hi b Runner.isChecking
  simp only [Runner.isChecking, if_true] at hcount
  have hbusy : ∀ b : Runner α, ((s.workers.set i b).flatMap Runner.task).Perm (b.task ++ s.busy) :=
    fun b => busy_set hi b
  rcases hcases with ⟨htasks, hstop, rfl⟩ | ⟨htasks, hstop, rfl⟩ | ⟨task, tasks, htasks, rfl⟩
  · obtain ⟨hclosed, hjoined⟩ := h.moves (b := .returned) hi (by simp)
    have hopened : s.closing ≠ .opened := fun hopened => by simp [h.stop.mpr hopened] at hstop
    refine ⟨by simp [h.threads], h.stop, fun hc => absurd hc hopened, h.woken_set hi rfl,
      fun _ => ⟨hstop, htasks⟩, hjoined, fun hc => absurd hc hclosed, h.dropped, h.line, ?_⟩
    exact h.once.trans (List.Perm.append_left _ (hbusy .returned).symm)
  · obtain ⟨hclosed, hjoined⟩ := h.moves (b := .waiting) hi (by simp)
    have hopened : s.closing = .opened := h.stop.mp hstop
    refine ⟨by simp [h.threads], h.stop, fun _ _ => by simp [htasks], fun hne => absurd hopened hne,
      h.returned_set (by simp), hjoined, fun hc => absurd hc hclosed, h.dropped, h.line, ?_⟩
    exact h.once.trans (List.Perm.append_left _ (hbusy .waiting).symm)
  · obtain ⟨hclosed, hjoined⟩ := h.moves (b := .running task) hi (by simp)
    refine ⟨by simp [h.threads], h.stop, fun hopened hany => ?_, h.woken_set hi rfl, fun hret => ?_,
      hjoined, fun hc => absurd hc hclosed, fun hne => ?_, ?_, ?_⟩
    · have hwatched := h.watched hopened (any_set hi rfl hany)
      have hrunning := hcount (.running task)
      simp only [Bool.false_eq_true, if_false] at hrunning
      rw [htasks, List.length_cons] at hwatched
      simp only
      omega
    · exact absurd (h.returned_set (by simp) hret).2 (by simp [htasks])
    · exact absurd (h.dropped hne).2 (by simp [htasks])
    · -- nothing has been taken off the queue while there are tasks on it
      have hdropped : s.dropped = [] := by
        by_contra hne
        exact absurd (h.dropped hne).2 (by simp [htasks])
      have hline := h.line
      rw [htasks, hdropped] at hline
      simp only [hline, hdropped, List.append_nil, List.append_assoc, List.singleton_append]
    · have honce := (List.Perm.append_right [task] h.once).trans (List.Perm.of_eq (List.append_assoc ..))
      refine honce.trans (List.Perm.append_left _ ?_)
      exact List.perm_append_comm.trans (hbusy (.running task)).symm

theorem finish_cases (hs : s.finish i = some s') :
    ∃ task, s.workers[i]? = some (.running task) ∧ s' = { s with
      workers := s.workers.set i .checking
      finished := s.finished ++ [task] } := by
  unfold ThreadPool.finish at hs
  split at hs
  · rename_i task hi
    exact ⟨task, hi, (Option.some.inj hs).symm⟩
  · cases hs

theorem Kept.finish (h : s.Kept n) (hs : s.finish i = some s') : s'.Kept n := by
  obtain ⟨task, hi, rfl⟩ := finish_cases hs
  obtain ⟨hclosed, hjoined⟩ := h.moves (b := .checking) hi (by simp)
  refine ⟨by simp [h.threads], h.stop, fun hopened hany => ?_, h.woken_set hi rfl,
    h.returned_set (by simp), hjoined, fun hc => absurd hc hclosed, h.dropped, h.line, ?_⟩
  · have hwatched := h.watched hopened (any_set hi rfl hany)
    have hcount := countP_set hi .checking Runner.isChecking
    simp only [Runner.isChecking, Bool.false_eq_true, if_false, if_true] at hcount
    simp only
    omega
  · have hbusy := busy_set hi .checking
    rw [show Runner.task (.checking : Runner α) = [] from rfl, List.nil_append] at hbusy
    refine h.once.trans ?_
    simp only [List.append_assoc]
    exact List.Perm.append_left _ hbusy.symm

end Moving

theorem shutdown_cases {now : Bool} (hs : s.shutdown now = some s') :
    s.closing = .opened ∧ s' = { s with
      stop := true
      closing := .stopped
      tasks := if now then [] else s.tasks
      dropped := if now then s.tasks else [] } := by
  unfold ThreadPool.shutdown at hs
  split at hs
  · rename_i hopened
    exact ⟨hopened, (Option.some.inj hs).symm⟩
  · cases hs

theorem Kept.shutdown (h : s.Kept n) {now : Bool} (hs : s.shutdown now = some s') : s'.Kept n := by
  obtain ⟨hopened, rfl⟩ := shutdown_cases hs
  have hstop := h.stop.mpr hopened
  have hdropped : s.dropped = [] := by
    by_contra hne
    exact absurd (h.dropped hne).1 (by simp [hstop])
  refine ⟨h.threads, by simp, by simp, fun _ hne => absurd rfl hne, fun hret => ?_,
    by simp, by simp, fun hne => ?_, ?_, h.once⟩
  · exact absurd (h.returned hret).1 (by simp [hstop])
  · cases now with
    | true => exact ⟨rfl, rfl⟩
    | false => exact absurd rfl hne
  · have hline := h.line
    rw [hdropped] at hline
    cases now <;> simpa using hline

theorem notifyAll_cases (hs : s.notifyAll = some s') : s.closing = .stopped ∧
    s' = { s with workers := s.workers.map Runner.wake, closing := .joining 0 } := by
  unfold ThreadPool.notifyAll at hs
  split at hs
  · rename_i hstopped
    exact ⟨hstopped, (Option.some.inj hs).symm⟩
  · cases hs

theorem busy_wake (l : List (Runner α)) :
    (l.map Runner.wake).flatMap Runner.task = l.flatMap Runner.task := by
  rw [List.flatMap_map]
  congr 1
  funext t
  cases t <;> rfl

theorem Kept.notifyAll (h : s.Kept n) (hs : s.notifyAll = some s') : s'.Kept n := by
  obtain ⟨hstopped, rfl⟩ := notifyAll_cases hs
  have hstop : s.stop ≠ false := fun hstop => by simp [h.stop.mp hstop] at hstopped
  refine ⟨by simp [h.threads], by simp [hstop], by simp, fun _ _ => ?_, fun hret => ?_,
    fun k hk => ?_, by simp, h.dropped, h.line, ?_⟩
  · rw [List.any_eq_false]
    intro t ht
    obtain ⟨t', -, rfl⟩ := List.mem_map.mp ht
    cases t' <;> simp [Runner.wake, Runner.isWaiting]
  · obtain ⟨t, ht, hwake⟩ := List.mem_map.mp hret
    cases t <;> simp only [Runner.wake, reduceCtorEq] at hwake
    exact h.returned ht
  · cases hk
    simp
  · exact h.once.trans (List.Perm.of_eq (congrArg _ (busy_wake s.workers).symm))

/-- A join that returns, and the end of them. -/
theorem join_cases (hs : s.join = some s') : ∃ k, s.closing = .joining k ∧
    ((s.workers[k]? = none ∧ s' = { s with closing := .closed }) ∨
      (s.workers[k]? = some .returned ∧ s' = { s with closing := .joining (k + 1) })) := by
  unfold ThreadPool.join at hs
  split at hs
  · rename_i k hk
    refine ⟨k, hk, ?_⟩
    split at hs
    · rename_i hnone
      exact Or.inl ⟨hnone, (Option.some.inj hs).symm⟩
    · rename_i hret
      exact Or.inr ⟨hret, (Option.some.inj hs).symm⟩
    · cases hs
  · cases hs

theorem Kept.join (h : s.Kept n) (hs : s.join = some s') : s'.Kept n := by
  obtain ⟨k, hk, hcases⟩ := join_cases hs
  have hstop : s.stop ≠ false := fun hstop => by simp [h.stop.mp hstop] at hk
  have hwoken := h.woken (by simp [hk]) (by simp [hk])
  have hjoined := h.joined k hk
  rcases hcases with ⟨hnone, rfl⟩ | ⟨hret, rfl⟩
  · refine ⟨h.threads, by simp [hstop], by simp, fun _ _ => hwoken, h.returned,
      by simp, fun _ => ?_, h.dropped, h.line, h.once⟩
    rw [List.take_of_length_le (List.getElem?_eq_none_iff.mp hnone)] at hjoined
    exact hjoined
  · refine ⟨h.threads, by simp [hstop], by simp, fun _ _ => hwoken, h.returned,
      fun j hj => ?_, by simp, h.dropped, h.line, h.once⟩
    cases hj
    intro t ht
    rw [List.take_add_one, hret, List.mem_append] at ht
    rcases ht with hold | hnew
    · exact hjoined t hold
    · exact Option.mem_toList.mp hnew |> Option.some.inj |> Eq.symm

/-- A step that is taken, or nothing. -/
theorem Kept.step (h : s.Kept n) (e : Event α) : (s.step e).Kept n := by
  unfold ThreadPool.step
  cases hs : s.next e with
  | none => exact h
  | some s' =>
    cases e with
    | enqueue task => exact h.enqueue hs
    | notifyOne i => exact h.notifyOne hs
    | wakeup i => exact h.wakeup hs
    | check i => exact h.check hs
    | finish i => exact h.finish hs
    | shutdown now => exact h.shutdown hs
    | notifyAll => exact h.notifyAll hs
    | join => exact h.join hs

theorem kept_exec (n : Nat) (es : List (Event α)) : (exec step (new n) es).Kept n :=
  keeps_exec (fun _ e hkept => hkept.step e) es (kept_new n)

/-! ## What the threads are at

For each thread, the task it has, if any; they are as many as have been started and not finished. -/

theorem taskOf_set {i : Nat} {a b : Runner α} (hi : s.workers[i]? = some a)
    (hworkers : s'.workers = s.workers.set i b) (hidle : a.current = b.current) :
    s'.taskOf = s.taskOf := by
  funext j
  rw [taskOf, hworkers, current_set hi]
  split
  · rename_i hj
    rw [taskOf, hj, hi, Option.bind_some, hidle]
  · rfl

/-- The steps that put nothing on the queue, and start and finish nothing. -/
def Event.Quiet : Event α → Prop
  | .notifyOne _ | .wakeup _ | .shutdown _ | .notifyAll | .join => True
  | .enqueue _ | .check _ | .finish _ => False

theorem Kept.quiet (h : s.Kept n) {e : Event α} (he : e.Quiet) (hs : s.next e = some s') :
    s'.taskOf = s.taskOf ∧ s'.dropped ++ s'.tasks = s.dropped ++ s.tasks ∧
      s'.accepted = s.accepted := by
  cases e with
  | enqueue task => exact he.elim
  | check i => exact he.elim
  | finish i => exact he.elim
  | notifyOne i =>
    cases i with
    | some i =>
      simp only [next, ThreadPool.notifyOne, Option.ite_none_right_eq_some, Bool.and_eq_true] at hs
      obtain ⟨⟨-, hwaits⟩, hs⟩ := hs
      cases hs
      exact ⟨taskOf_set (waits_iff.mp hwaits) rfl rfl, rfl, rfl⟩
    | none =>
      simp only [next, ThreadPool.notifyOne, Option.ite_none_right_eq_some] at hs
      obtain ⟨-, hs⟩ := hs
      cases hs
      exact ⟨rfl, rfl, rfl⟩
  | wakeup i =>
    simp only [next, ThreadPool.wakeup, Option.ite_none_right_eq_some] at hs
    obtain ⟨hwaits, hs⟩ := hs
    cases hs
    exact ⟨taskOf_set (waits_iff.mp hwaits) rfl rfl, rfl, rfl⟩
  | shutdown now =>
    obtain ⟨hopened, rfl⟩ := shutdown_cases hs
    have hdropped : s.dropped = [] := by
      by_contra hne
      exact absurd (h.dropped hne).1 (by simp [h.stop.mpr hopened])
    refine ⟨rfl, ?_, rfl⟩
    cases now <;> simp [hdropped]
  | notifyAll =>
    obtain ⟨-, rfl⟩ := notifyAll_cases hs
    refine ⟨funext fun i => ?_, rfl, rfl⟩
    rw [taskOf, taskOf, List.getElem?_map]
    cases s.workers[i]? with
    | none => rfl
    | some t => cases t <;> rfl
  | join =>
    obtain ⟨k, -, ⟨-, rfl⟩ | ⟨-, rfl⟩⟩ := join_cases hs <;> exact ⟨rfl, rfl, rfl⟩

theorem stop_step {e : Event α} (he : ∀ now, e ≠ .shutdown now) : (s.step e).stop = s.stop := by
  unfold step
  cases hs : s.next e with
  | none => rfl
  | some s' =>
    rw [Option.getD_some]
    cases e with
    | enqueue task =>
      simp only [next, ThreadPool.enqueue, Option.ite_none_left_eq_some] at hs
      obtain ⟨-, hs⟩ := hs
      cases hs
      rfl
    | notifyOne i =>
      cases i <;> simp only [next, ThreadPool.notifyOne, Option.ite_none_right_eq_some] at hs <;>
        obtain ⟨-, hs⟩ := hs <;> cases hs <;> rfl
    | wakeup i =>
      simp only [next, ThreadPool.wakeup, Option.ite_none_right_eq_some] at hs
      obtain ⟨-, hs⟩ := hs
      cases hs
      rfl
    | check i =>
      rcases (check_cases hs).2 with ⟨-, -, rfl⟩ | ⟨-, -, rfl⟩ | ⟨task, tasks, -, rfl⟩ <;> rfl
    | finish i =>
      obtain ⟨task, -, rfl⟩ := finish_cases hs
      rfl
    | shutdown now => exact absurd rfl (he now)
    | notifyAll =>
      obtain ⟨-, rfl⟩ := notifyAll_cases hs
      rfl
    | join =>
      obtain ⟨k, -, ⟨-, rfl⟩ | ⟨-, rfl⟩⟩ := join_cases hs <;> rfl

/-! ## Where nothing moves any more

A state with no step left is taken apart: who could wait, and for what. -/

theorem exists_waits (h : s.workers.any Runner.isWaiting = true) : ∃ i, s.waits i = true := by
  obtain ⟨t, ht, hwaiting⟩ := List.any_eq_true.mp h
  obtain ⟨i, hi⟩ := List.getElem?_of_mem ht
  exact ⟨i, by simp [waits, hi, hwaiting]⟩

/-- A notification that has not been sent can be. -/
theorem Settled.notifying (h : s.Settled) : s.notifying = 0 := by
  by_contra hne
  cases hany : s.workers.any Runner.isWaiting with
  | true =>
    obtain ⟨i, hi⟩ := exists_waits hany
    exact absurd (h (.notifyOne (some i)) trivial) (by simp [next, ThreadPool.notifyOne, hne, hi])
  | false => exact absurd (h (.notifyOne none) trivial) (by simp [next, ThreadPool.notifyOne, hne, hany])

theorem Settled.thread (h : s.Settled) {t : Runner α} (ht : t ∈ s.workers) :
    t = .waiting ∨ t = .returned := by
  obtain ⟨i, hi⟩ := List.getElem?_of_mem ht
  cases t with
  | checking =>
    have hcheck := h (.check i) trivial
    simp only [next, ThreadPool.check, hi] at hcheck
    cases htasks : s.tasks <;> simp [htasks] at hcheck
  | waiting => exact Or.inl rfl
  | running task =>
    have hfinish := h (.finish i) trivial
    simp [next, ThreadPool.finish, hi] at hfinish
  | returned => exact Or.inr rfl

theorem Settled.busy (h : s.Settled) : s.busy = [] := by
  refine List.flatMap_eq_nil_iff.mpr fun t ht => ?_
  rcases h.thread ht with rfl | rfl <;> rfl

theorem Settled.closing (h : s.Settled) (hkept : s.Kept n) :
    s.closing = .opened ∨ s.closing = .closed := by
  cases hc : s.closing with
  | opened => exact Or.inl rfl
  | closed => exact Or.inr rfl
  | stopped =>
    have hnotify := h .notifyAll trivial
    simp [next, ThreadPool.notifyAll, hc] at hnotify
  | joining k =>
    -- the thread that is joined has been woken, and so it has returned
    have hjoin := h .join trivial
    simp only [next, ThreadPool.join, hc] at hjoin
    cases hk : s.workers[k]? with
    | none => simp [hk] at hjoin
    | some t =>
      have hmem := List.mem_of_getElem? hk
      rcases h.thread hmem with rfl | rfl
      · have hwoken := hkept.woken (by simp [hc]) (by simp [hc])
        rw [List.any_eq_false] at hwoken
        exact absurd rfl (hwoken _ hmem)
      · simp [hk] at hjoin

/-- The end of a pool that is not stopped: all threads wait, and the queue is empty. -/
theorem Settled.opened (h : s.Settled) (hkept : s.Kept n) (hn : 0 < n) (hc : s.closing = .opened) :
    (∀ t ∈ s.workers, t = .waiting) ∧ s.tasks = [] ∧ s.dropped = [] := by
  have hstop := hkept.stop.mpr hc
  have hall : ∀ t ∈ s.workers, t = .waiting := by
    intro t ht
    rcases h.thread ht with rfl | rfl
    · rfl
    · exact absurd (hkept.returned ht).1 (by simp [hstop])
  refine ⟨hall, ?_, ?_⟩
  · have hany : s.workers.any Runner.isWaiting = true := by
      have hlen := hkept.threads
      obtain ⟨t, ht⟩ := List.exists_mem_of_length_pos (hlen ▸ hn)
      exact List.any_eq_true.mpr ⟨t, ht, by rw [hall t ht]; rfl⟩
    have hchecking : s.workers.countP Runner.isChecking = 0 := by
      refine List.countP_eq_zero.mpr fun t ht => ?_
      rw [hall t ht]
      simp [Runner.isChecking]
    have hwatched := hkept.watched hc hany
    rw [h.notifying, hchecking] at hwatched
    exact List.length_eq_zero_iff.mp (Nat.le_zero.mp hwatched)
  · by_contra hne
    exact absurd (hkept.dropped hne).1 (by simp [hstop])

/-- The end of a stopped pool: all threads have returned. -/
theorem Settled.closed (hkept : s.Kept n) (hn : 0 < n) (hc : s.closing = .closed) :
    (∀ t ∈ s.workers, t = .returned) ∧ s.tasks = [] := by
  have hall := hkept.closed hc
  refine ⟨hall, ?_⟩
  have hlen := hkept.threads
  obtain ⟨t, ht⟩ := List.exists_mem_of_length_pos (hlen ▸ hn)
  exact (hkept.returned (hall t ht ▸ ht)).2

/-- There are no other ends. -/
theorem settled_iff (hkept : s.Kept n) : s.Settled ↔ s.notifying = 0 ∧
    (s.closing = .opened ∨ s.closing = .closed) ∧
      ∀ t ∈ s.workers, t = Runner.waiting ∨ t = Runner.returned := by
  refine ⟨fun h => ⟨h.notifying, h.closing hkept, fun t => h.thread⟩, ?_⟩
  rintro ⟨hnotifying, hclosing, hall⟩ e hinternal
  have hthread : ∀ (i : Nat) (t : Runner α), s.workers[i]? = some t → t = .waiting ∨ t = .returned :=
    fun i t hi => hall t (List.mem_of_getElem? hi)
  cases e with
  | enqueue task => exact hinternal.elim
  | wakeup i => exact hinternal.elim
  | shutdown now => exact hinternal.elim
  | notifyOne i => cases i <;> simp [next, ThreadPool.notifyOne, hnotifying]
  | check i =>
    simp only [next, ThreadPool.check]
    split
    · rename_i hi
      simpa using hthread i _ hi
    · rfl
  | finish i =>
    simp only [next, ThreadPool.finish]
    split
    · rename_i hi
      simpa using hthread i _ hi
    · rfl
  | notifyAll => rcases hclosing with hc | hc <;> simp [next, ThreadPool.notifyAll, hc]
  | join => rcases hclosing with hc | hc <;> simp [next, ThreadPool.join, hc]

/-! ## How long it takes

A wakeup without a reason is a step of the environment, so it does not count; everything else is
paid for once. -/

def weights (s : ThreadPool α) : Nat := (s.workers.map Runner.weight).sum

/-- What is left of `shutdown`. `notify_all` may wake every thread. -/
def rest (s : ThreadPool α) : Nat :=
  match s.closing with
  | .opened | .closed => 0
  | .stopped => 2 * s.workers.length + 2
  | .joining i => s.workers.length - i + 1

/-- A bound on the steps that the pool takes by itself. -/
def potential (s : ThreadPool α) : Nat :=
  2 * s.tasks.length + s.weights + 2 * s.notifying + s.rest

theorem weights_set {l : List (Runner α)} {i : Nat} {a : Runner α} (h : l[i]? = some a)
    (b : Runner α) :
    ((l.set i b).map Runner.weight).sum + a.weight = (l.map Runner.weight).sum + b.weight := by
  obtain ⟨l₁, l₂, heq, hset⟩ := split_set h b
  rw [hset, heq]
  simp only [List.map_append, List.map_cons, List.sum_append, List.sum_cons]
  omega

theorem weights_wake (l : List (Runner α)) :
    ((l.map Runner.wake).map Runner.weight).sum ≤ (l.map Runner.weight).sum + l.length := by
  induction l with
  | nil => simp
  | cons t l ih =>
    have hfirst : t.wake.weight ≤ t.weight + 1 := by
      cases t <;> simp [Runner.wake, Runner.weight]
    simp only [List.map_cons, List.sum_cons, List.length_cons]
    omega

theorem notifyOne_lt {i : Option Nat} (hs : s.notifyOne i = some s') :
    s'.potential < s.potential := by
  cases i with
  | some i =>
    simp only [ThreadPool.notifyOne, Option.ite_none_right_eq_some, Bool.and_eq_true,
      decide_eq_true_eq] at hs
    obtain ⟨⟨hpending, hwaits⟩, hs⟩ := hs
    cases hs
    have hweights := weights_set (waits_iff.mp hwaits) .checking
    simp only [potential, weights, rest, List.length_set, Runner.weight] at hweights ⊢
    omega
  | none =>
    simp only [ThreadPool.notifyOne, Option.ite_none_right_eq_some, Bool.and_eq_true,
      decide_eq_true_eq] at hs
    obtain ⟨⟨hpending, -⟩, hs⟩ := hs
    cases hs
    simp only [potential, weights, rest]
    omega

theorem check_lt {i : Nat} (hs : s.check i = some s') : s'.potential < s.potential := by
  obtain ⟨hi, hcases⟩ := check_cases hs
  have hweights := fun b : Runner α => weights_set hi b
  rcases hcases with ⟨htasks, -, rfl⟩ | ⟨htasks, -, rfl⟩ | ⟨task, tasks, htasks, rfl⟩
  · have hreturned := hweights .returned
    simp only [potential, weights, rest, List.length_set, Runner.weight] at hreturned ⊢
    omega
  · have hwaiting := hweights .waiting
    simp only [potential, weights, rest, List.length_set, Runner.weight] at hwaiting ⊢
    omega
  · have hrunning := hweights (.running task)
    simp only [potential, weights, rest, List.length_set, Runner.weight, htasks,
      List.length_cons] at hrunning ⊢
    omega

theorem finish_lt {i : Nat} (hs : s.finish i = some s') : s'.potential < s.potential := by
  obtain ⟨task, hi, rfl⟩ := finish_cases hs
  have hweights := weights_set hi .checking
  simp only [potential, weights, rest, List.length_set, Runner.weight] at hweights ⊢
  omega

theorem notifyAll_lt (hs : s.notifyAll = some s') : s'.potential < s.potential := by
  obtain ⟨hstopped, rfl⟩ := notifyAll_cases hs
  have hweights := weights_wake s.workers
  simp only [potential, weights, rest, hstopped, List.length_map]
  omega

theorem join_lt (hs : s.join = some s') : s'.potential < s.potential := by
  obtain ⟨k, hk, hcases⟩ := join_cases hs
  rcases hcases with ⟨hnone, rfl⟩ | ⟨hret, rfl⟩
  · simp only [potential, weights, rest, hk]
    omega
  · obtain ⟨hlt, -⟩ := List.getElem?_eq_some_iff.mp hret
    simp only [potential, weights, rest, hk]
    omega

/-- A step that the pool takes by itself. -/
def Moves (s : ThreadPool α) (e : Event α) : Prop := e.Internal ∧ (s.next e).isSome = true

theorem Moves.potential_lt {e : Event α} (h : s.Moves e) : (s.step e).potential < s.potential := by
  obtain ⟨hinternal, hsome⟩ := h
  obtain ⟨s', hs⟩ := Option.isSome_iff_exists.mp hsome
  rw [step, hs, Option.getD_some]
  cases e with
  | enqueue task => exact hinternal.elim
  | wakeup i => exact hinternal.elim
  | shutdown now => exact hinternal.elim
  | notifyOne i => exact notifyOne_lt hs
  | check i => exact check_lt hs
  | finish i => exact finish_lt hs
  | notifyAll => exact notifyAll_lt hs
  | join => exact join_lt hs

/-- Only `shutdownnow` takes a task off the queue. -/
theorem dropped_step {e : Event α} (he : e ≠ .shutdown true) (h : s.dropped = []) :
    (s.step e).dropped = [] := by
  unfold step
  cases hs : s.next e with
  | none => exact h
  | some s' =>
    rw [Option.getD_some]
    cases e with
    | enqueue task =>
      simp only [next, ThreadPool.enqueue, Option.ite_none_left_eq_some] at hs
      obtain ⟨-, hs⟩ := hs
      cases hs
      exact h
    | notifyOne i =>
      cases i <;> simp only [next, ThreadPool.notifyOne, Option.ite_none_right_eq_some] at hs <;>
        obtain ⟨-, hs⟩ := hs <;> cases hs <;> exact h
    | wakeup i =>
      simp only [next, ThreadPool.wakeup, Option.ite_none_right_eq_some] at hs
      obtain ⟨-, hs⟩ := hs
      cases hs
      exact h
    | check i =>
      rcases (check_cases hs).2 with ⟨-, -, rfl⟩ | ⟨-, -, rfl⟩ | ⟨task, tasks, -, rfl⟩ <;> exact h
    | finish i =>
      obtain ⟨task, -, rfl⟩ := finish_cases hs
      exact h
    | shutdown now =>
      obtain ⟨-, rfl⟩ := shutdown_cases hs
      cases now with
      | true => exact absurd rfl he
      | false => rfl
    | notifyAll =>
      obtain ⟨-, rfl⟩ := notifyAll_cases hs
      exact h
    | join =>
      obtain ⟨k, -, ⟨-, rfl⟩ | ⟨-, rfl⟩⟩ := join_cases hs <;> exact h

/-- **First in, first out, and once.** In every state of every run: the tasks have been started in
the order in which they were put on the queue, and what has not been started is still there, or was
taken off by `shutdownnow`; then the queue is empty for ever. Each started task is with one thread
or finished, once.

A task is put at the end of the queue and taken from its front, in one critical section each, and
whoever takes it is the only one to have it. So what was put on the queue is at any time what was
started, what was dropped, and what waits, in this order (`Kept.line`). -/
theorem fifo_once (n : Nat) (es : List (Event α)) :
    let s := exec step (new n) es
    s.accepted = s.started ++ s.dropped ++ s.tasks ∧ (s.dropped ≠ [] → s.tasks = []) ∧
      s.started.Perm (s.finished ++ s.busy) := by
  have hkept := kept_exec n es
  exact ⟨hkept.line, fun hne => (hkept.dropped hne).2, hkept.once⟩

/-- **Every task is done, and a shutdown returns.** However a pool of one thread or more has been
used, left to itself it takes at most `potential` further steps. Where it cannot take another one,
if it is not stopped, all threads wait and every task is finished, once; and if it is stopped, the
call has returned, all threads have returned, what has been started is finished, once, and the rest
is what `shutdownnow` has taken off the queue: nothing, where it was `shutdown`.

While somebody waits and a task is there, a notification is on its way or a thread is about to look
(`Kept.watched`): so a state where nothing can move has no such task. And each step that does not
come from outside takes something off `potential`, so such a state is reached. -/
theorem drains (n : Nat) (hn : 0 < n) (es fs : List (Event α))
    (hfs : Along step Moves (exec step (new n) es) fs) :
    let s := exec step (exec step (new n) es) fs
    fs.length ≤ (exec step (new n : ThreadPool α) es).potential ∧ (s.Settled →
      (s.stop = false ∧ (∀ t ∈ s.workers, t = .waiting) ∧ s.accepted.Perm s.finished) ∨
      (s.stop = true ∧ s.closing = .closed ∧ (∀ t ∈ s.workers, t = .returned) ∧
        s.accepted = s.started ++ s.dropped ∧ s.started.Perm s.finished ∧
        ((∀ e ∈ es, e ≠ .shutdown true) → s.dropped = []))) := by
  intro s
  have hkept : s.Kept n := keeps_exec (fun _ e hkept => hkept.step e) fs (kept_exec n es)
  refine ⟨?_, fun hsettled => ?_⟩
  · have hlen := Along.length_add_le (μ := potential) (fun _ _ hmoves => hmoves.potential_lt) hfs
    omega
  · have hline := hkept.line
    have honce := hkept.once
    rw [hsettled.busy, List.append_nil] at honce
    rcases hsettled.closing hkept with hc | hc
    · obtain ⟨hall, htasks, hdropped⟩ := hsettled.opened hkept hn hc
      rw [htasks, hdropped, List.append_nil, List.append_nil] at hline
      exact Or.inl ⟨hkept.stop.mpr hc, hall, hline ▸ honce⟩
    · obtain ⟨hall, htasks⟩ := Settled.closed hkept hn hc
      rw [htasks, List.append_nil] at hline
      have hstop : s.stop = true := by
        rw [← Bool.not_eq_false, hkept.stop, hc]
        simp
      refine Or.inr ⟨hstop, hc, hall, hline, honce, fun hnow => ?_⟩
      have hbefore : (exec step (new n : ThreadPool α) es).dropped = [] :=
        Along.invariant (I := fun s : ThreadPool α => s.dropped = [])
          (fun _ _ he hd => dropped_step he hd) (along_of_mem hnow) rfl
      refine Along.invariant (I := fun s : ThreadPool α => s.dropped = []) (fun _ e hmoves hd => ?_)
        hfs hbefore
      exact dropped_step (fun he => by rw [he] at hmoves; exact hmoves.1.elim) hd

instance (s : ThreadPool α) : DecidablePred s.Moves :=
  fun _ => inferInstanceAs (Decidable (_ ∧ _))

/-- Two threads; the second task comes while one of them is busy and the other one sleeps, and the
pool is shut down before that one is up. -/
def busyShutdown : List (Event Nat) :=
  [.enqueue 7, .notifyOne none, .check 0, .check 1, .enqueue 8, .notifyOne (some 1),
    .shutdown false]

def shutdownReturns : List (Event Nat) :=
  [.finish 0, .notifyAll, .check 0, .finish 0, .check 1, .check 0, .join, .join, .join]

theorem busyShutdown_drains :
    let s := exec step (exec step (new 2) busyShutdown) shutdownReturns
    s.Settled ∧ s.accepted = [7, 8] ∧ s.accepted.Perm s.finished ∧ ∀ t ∈ s.workers, t = .returned := by
  intro s
  have hkept : s.Kept 2 := keeps_exec (fun _ e hkept => hkept.step e) _ (kept_exec 2 busyShutdown)
  have hsettled : s.Settled := by
    rw [settled_iff hkept]
    refine ⟨rfl, Or.inr rfl, fun t ht => Or.inr ?_⟩
    have hworkers : s.workers = [.returned, .returned] := rfl
    rw [hworkers] at ht
    simpa using ht
  obtain ⟨-, hends⟩ := drains 2 (by decide) busyShutdown shutdownReturns (by decide)
  rcases hends hsettled with ⟨hopen, -⟩ | ⟨-, -, hall, hline, honce, hdropped⟩
  · exact absurd hopen (by decide)
  · rw [hdropped (by simp [busyShutdown]), List.append_nil] at hline
    exact ⟨hsettled, rfl, hline ▸ honce, hall⟩

end ThreadPool
end Server
end KvJet
