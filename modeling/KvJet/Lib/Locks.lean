import KvJet.Lib.Run
import Mathlib.Data.Set.Basic

/-!
# Locks and who waits for whom

Threads that acquire and release locks, shared or exclusively, in the order of their scripts. A
thread first makes a request and is granted it when no holder is in its way, so a state shows who
waits for whom. A script acquires what a scoped lock guard acquires (`locked`), and `Nests` says
which locks it asks for under which.

`acyclic_of_rank`: where whoever is waited for asks for a higher lock, nobody waits in a circle.
That is all it takes for threads that keep to one order of the locks. Thread 0 may break the order
(`Discipline`): it takes one lock first, the one which the others take last, and asks for the
others under it. `deadlock_free`: it is safe as long as those who are in its way leave without that
one lock (`Careful`).
-/

namespace Locks

/-! ## Relations without cycles

In a relation that goes up along some rank nothing can be followed for ever, and a cycle can. -/

section Acyclic

variable {α : Type*} {R : α → α → Prop}

/-- One can go on from `a` for ever. -/
def Endless (R : α → α → Prop) (a : α) : Prop := ∃ S : Set α, a ∈ S ∧ ∀ x ∈ S, ∃ y ∈ S, R x y

theorem Endless.next {a : α} (h : Endless R a) : ∃ b, R a b ∧ Endless R b := by
  obtain ⟨S, ha, hS⟩ := h
  obtain ⟨b, hb, hab⟩ := hS a ha
  exact ⟨b, hab, S, hb, hS⟩

open Relation in
/-- One can go round a cycle for ever. -/
theorem endless_of_cycle {a x : α} (hax : TransGen R a x) (hxa : TransGen R x a) : Endless R x := by
  refine ⟨{y | TransGen R a y ∧ TransGen R y a}, ⟨hax, hxa⟩, ?_⟩
  rintro y ⟨hay, hya⟩
  obtain ⟨z, hyz, hza⟩ := TransGen.head'_iff.mp hya
  refine ⟨z, ⟨hay.tail hyz, ?_⟩, hyz⟩
  rcases reflTransGen_iff_eq_or_transGen.mp hza with heq | hza
  · subst heq
    exact hay.tail hyz
  · exact hza

open Relation in
/-- **No cycle** where every step that can be followed for ever goes up. -/
theorem acyclic_of_rank (rank : α → Nat)
    (hrank : ∀ a b, R a b → Endless R a → Endless R b → rank a < rank b) (a : α) :
    ¬ TransGen R a a := by
  intro hcycle
  have hup : ∀ b, TransGen R a b → TransGen R b a → rank a < rank b := by
    intro b hab
    induction hab with
    | single hab =>
      intro hba
      exact hrank _ _ hab (endless_of_cycle hcycle hcycle)
        (endless_of_cycle (TransGen.single hab) hba)
    | tail hab hbc ih =>
      intro hca
      have hba := TransGen.head hbc hca
      exact Nat.lt_trans (ih hba) (hrank _ _ hbc (endless_of_cycle hab hba)
        (endless_of_cycle (hab.tail hbc) hca))
  exact Nat.lt_irrefl _ (hup a hcycle hcycle)

end Acyclic

/-! ## Threads -/

inductive Mode where
  | shared
  | exclusive
deriving DecidableEq, Repr

/-- The two cannot hold a lock at the same time. -/
def Mode.Conflicts (m m' : Mode) : Prop := m = .exclusive ∨ m' = .exclusive

instance (m m' : Mode) : Decidable (m.Conflicts m') := inferInstanceAs (Decidable (_ ∨ _))

inductive Op (L : Type) where
  | acquire (l : L) (m : Mode)
  | release (l : L)

structure Thread (L : Type) where
  held : List (L × Mode) := []
  requested : Option (L × Mode) := none
  todo : List (Op L) := []

variable {L : Type}

/-- The first is a lock in a mode that is in the way of the second. -/
def Bars (h r : L × Mode) : Prop := h.1 = r.1 ∧ h.2.Conflicts r.2

/-- Thread `i` has to wait for thread `j`. -/
def WaitsFor (s : List (Thread L)) (i j : Nat) : Prop :=
  ∃ th ∈ s[i]?, ∃ r ∈ th.requested, ∃ other ∈ s[j]?, ∃ h ∈ other.held, Bars h r

/-- A thread requests a lock that it holds. -/
def SelfRequest (s : List (Thread L)) : Prop :=
  ∃ th ∈ s, ∃ r ∈ th.requested, ∃ h ∈ th.held, h.1 = r.1

/-- What a thread has still to do, with the request that it is waiting with. -/
def Thread.ahead (th : Thread L) : List (Op L) :=
  match th.requested with
  | some r => .acquire r.1 r.2 :: th.todo
  | none => th.todo

theorem Thread.ahead_of_none {th : Thread L} (h : th.requested = none) : th.ahead = th.todo := by
  unfold Thread.ahead
  rw [h]

theorem Thread.ahead_of_some {th : Thread L} {r : L × Mode} (h : th.requested = some r) :
    th.ahead = .acquire r.1 r.2 :: th.todo := by
  unfold Thread.ahead
  rw [h]

section Steps

variable [DecidableEq L]

instance (h r : L × Mode) : Decidable (Bars h r) := inferInstanceAs (Decidable (_ ∧ _))

instance (s : List (Thread L)) (i j : Nat) : Decidable (WaitsFor s i j) :=
  inferInstanceAs (Decidable
    (∃ th ∈ s[i]?, ∃ r ∈ th.requested, ∃ other ∈ s[j]?, ∃ h ∈ other.held, Bars h r))

instance (s : List (Thread L)) : Decidable (SelfRequest s) :=
  inferInstanceAs (Decidable (∃ th ∈ s, ∃ r ∈ th.requested, ∃ h ∈ th.held, h.1 = r.1))

/-- Nobody is in the way of `r`. -/
def Free (s : List (Thread L)) (r : L × Mode) : Prop := ∀ th ∈ s, ∀ h ∈ th.held, ¬ Bars h r

instance (s : List (Thread L)) (r : L × Mode) : Decidable (Free s r) :=
  inferInstanceAs (Decidable (∀ th ∈ s, ∀ h ∈ th.held, ¬ Bars h r))

/-- The next step of a thread: it is granted what it has requested, or goes on in its script. -/
def Thread.advance (s : List (Thread L)) (th : Thread L) : Thread L :=
  match th.requested with
  | some r => if Free s r then { th with held := r :: th.held, requested := none } else th
  | none =>
    match th.todo with
    | [] => th
    | .acquire l m :: rest => { th with requested := some (l, m), todo := rest }
    | .release l :: rest => { th with held := th.held.filter (·.1 ≠ l), todo := rest }

/-- A thread that has nothing to do gets a script. -/
def Thread.start (ops : List (Op L)) (th : Thread L) : Thread L :=
  if th.held.isEmpty ∧ th.requested.isNone ∧ th.todo.isEmpty then { th with todo := ops } else th

/-- An exception, which is not thrown while waiting: every guard releases its lock. -/
def Thread.abort (th : Thread L) : Thread L :=
  if th.requested.isNone then {} else th

inductive Event (L : Type) where
  | start (i : Nat) (ops : List (Op L))
  | go (i : Nat)
  | abort (i : Nat)

def step (s : List (Thread L)) : Event L → List (Thread L)
  | .start i ops => s.modify i (Thread.start ops)
  | .go i => s.modify i (Thread.advance s)
  | .abort i => s.modify i Thread.abort

/-! ## Scripts

What a thread asks for depends on what it has by then, and a script says both. -/

/-- A scope with a lock guard. -/
def locked (l : L) (m : Mode) (body : List (Op L)) : List (Op L) :=
  .acquire l m :: body ++ [.release l]

/-- What is held after the script. -/
def after (held : List (L × Mode)) : List (Op L) → List (L × Mode)
  | [] => held
  | .acquire l m :: rest => after ((l, m) :: held) rest
  | .release l :: rest => after (held.filter (·.1 ≠ l)) rest

/-- What is requested under a lock `h` may be. -/
def Nests (may : L × Mode → L × Mode → Prop) (held : List (L × Mode)) : List (Op L) → Prop
  | [] => True
  | .acquire l m :: rest => (∀ h ∈ held, may h (l, m)) ∧ Nests may ((l, m) :: held) rest
  | .release l :: rest => Nests may (held.filter (·.1 ≠ l)) rest

/-- Lock `q` is requested before `l` is released. -/
def Takes (q l : L) : List (Op L) → Prop
  | [] => False
  | .acquire l' _ :: rest => l' = q ∨ Takes q l rest
  | .release l' :: rest => l' ≠ l ∧ Takes q l rest

instance Takes.decidable (q l : L) : DecidablePred (Takes q l)
  | [] => inferInstanceAs (Decidable False)
  | .acquire l' _ :: rest => @instDecidableOr (l' = q) _ _ (Takes.decidable q l rest)
  | .release l' :: rest => @instDecidableAnd (l' ≠ l) _ _ (Takes.decidable q l rest)

/-- A part of a script that asks only for what may be asked for, and leaves the locks as they
were. -/
structure Keeps (may : L × Mode → L × Mode → Prop) (held : List (L × Mode)) (ops : List (Op L)) :
    Prop where
  nests : Nests may held ops
  after_eq : after held ops = held

section Scripts

variable {may : L × Mode → L × Mode → Prop} {held : List (L × Mode)} {ops rest : List (Op L)}

theorem after_append : ∀ {ops : List (Op L)} {held : List (L × Mode)},
    after held (ops ++ rest) = after (after held ops) rest := by
  intro ops
  induction ops with
  | nil => intro held; rfl
  | cons op ops ih => intro held; cases op <;> exact ih

theorem nests_append : ∀ {ops : List (Op L)} {held : List (L × Mode)},
    Nests may held (ops ++ rest) ↔ Nests may held ops ∧ Nests may (after held ops) rest := by
  intro ops
  induction ops with
  | nil => intro held; exact (true_and _).symm.to_iff
  | cons op ops ih =>
    intro held
    cases op with
    | acquire l m => exact (and_congr_right' ih).trans and_assoc.symm
    | release l => exact ih

theorem keeps_nil : Keeps may held [] := ⟨trivial, rfl⟩

theorem Keeps.append (h : Keeps may held ops) (hrest : Keeps may held rest) :
    Keeps may held (ops ++ rest) where
  nests := nests_append.mpr ⟨h.nests, by rw [h.after_eq]; exact hrest.nests⟩
  after_eq := by rw [after_append, h.after_eq, hrest.after_eq]

theorem Keeps.flatMap {α : Type} {f : α → List (Op L)} : ∀ {xs : List α},
    (∀ x ∈ xs, Keeps may held (f x)) → Keeps may held (xs.flatMap f) := by
  intro xs
  induction xs with
  | nil => intro _; exact keeps_nil
  | cons x xs ih =>
    intro h
    rw [List.flatMap_cons]
    exact (h x List.mem_cons_self).append (ih fun y hy => h y (List.mem_cons_of_mem _ hy))

/-- A guard of a lock that is not held yet. -/
theorem Keeps.locked {l : L} {m : Mode} (hmay : ∀ h ∈ held, may h (l, m) ∧ h.1 ≠ l)
    (hbody : Keeps may ((l, m) :: held) ops) : Keeps may held (locked l m ops) := by
  have hback : ((l, m) :: held).filter (·.1 ≠ l) = held := by
    rw [List.filter_cons_of_neg (by simp), List.filter_eq_self]
    intro h hh
    exact decide_eq_true (hmay h hh).2
  constructor
  · refine ⟨fun h hh => (hmay h hh).1, nests_append.mpr ⟨hbody.nests, ?_⟩⟩
    trivial
  · show after ((l, m) :: held) (ops ++ [.release l]) = held
    rw [after_append, hbody.after_eq]
    exact hback

end Scripts

/-! ## What a thread has still to do -/

section Ahead

variable {may : L × Mode → L × Mode → Prop} {s : List (Thread L)} {th th' : Thread L} {q : L}
  {r : L × Mode}

/-- The thread keeps to `may` to the end of its script. -/
def Thread.Obeys (may : L × Mode → L × Mode → Prop) (th : Thread L) : Prop :=
  Nests may th.held th.ahead

/-- The thread is in the way of `r`, and wants `q` before it is out of it. -/
def Thread.Blocks (q : L) (r : L × Mode) (th : Thread L) : Prop :=
  (∃ h ∈ th.held, Bars h r) ∧ Takes q r.1 th.ahead

instance (q : L) (r : L × Mode) (th : Thread L) : Decidable (th.Blocks q r) :=
  inferInstanceAs (Decidable (_ ∧ _))

/-- The four things a thread can do. -/
inductive Thread.Advances (s : List (Thread L)) (th : Thread L) : Thread L → Prop
  | stays : th.Advances s th
  | requests {l : L} {m : Mode} {rest : List (Op L)} (hreq : th.requested = none)
      (htodo : th.todo = .acquire l m :: rest) :
      th.Advances s { th with requested := some (l, m), todo := rest }
  | releases {l : L} {rest : List (Op L)} (hreq : th.requested = none)
      (htodo : th.todo = .release l :: rest) :
      th.Advances s { held := th.held.filter (·.1 ≠ l), requested := none, todo := rest }
  | granted {r : L × Mode} (hreq : th.requested = some r) (hfree : Free s r) :
      th.Advances s { th with held := r :: th.held, requested := none }

theorem Thread.advances (s : List (Thread L)) (th : Thread L) : th.Advances s (th.advance s) := by
  unfold Thread.advance
  cases hreq : th.requested with
  | some r =>
    dsimp only
    split
    · rename_i hfree
      exact .granted hreq hfree
    · exact .stays
  | none =>
    cases htodo : th.todo with
    | nil => exact .stays
    | cons op rest =>
      cases op with
      | acquire l m => exact .requests hreq htodo
      | release l => exact .releases hreq htodo

theorem Thread.Obeys.advances (h : th.Obeys may) (hadv : th.Advances s th') : th'.Obeys may := by
  unfold Thread.Obeys at h
  cases hadv with
  | stays => exact h
  | requests hreq htodo =>
    rw [Thread.ahead_of_none hreq, htodo] at h
    exact h
  | releases hreq htodo =>
    rw [Thread.ahead_of_none hreq, htodo] at h
    exact h
  | granted hreq _ =>
    rw [Thread.ahead_of_some hreq] at h
    exact h.2

theorem Thread.Obeys.request (h : th.Obeys may) (hr : th.requested = some r) :
    ∀ x ∈ th.held, may x r := by
  unfold Thread.Obeys at h
  rw [Thread.ahead_of_some hr] at h
  exact h.1

theorem Thread.Obeys.start (h : th.Obeys may) {ops : List (Op L)} (hops : Nests may [] ops) :
    (th.start ops).Obeys may := by
  unfold Thread.start
  split
  · rename_i hidle
    obtain ⟨hheld, hreq, -⟩ := hidle
    have hnone : ({ th with todo := ops } : Thread L).requested = none :=
      Option.isNone_iff_eq_none.mp hreq
    rw [Thread.Obeys, Thread.ahead_of_none hnone, List.isEmpty_iff.mp hheld]
    exact hops
  · exact h

theorem Thread.Obeys.abort (h : th.Obeys may) : th.abort.Obeys may := by
  unfold Thread.abort
  split
  · trivial
  · exact h

/-- A thread gets in the way by what it is granted, and by nothing else. -/
theorem Thread.Blocks.of_advances (hadv : th.Advances s th') (h : th'.Blocks q r) :
    th.Blocks q r ∨ ∃ r' ∈ th.requested, Bars r' r ∧ Takes q r.1 th.todo := by
  obtain ⟨⟨x, hx, hbars⟩, htakes⟩ := h
  cases hadv with
  | stays => exact Or.inl ⟨⟨x, hx, hbars⟩, htakes⟩
  | requests hreq htodo =>
    refine Or.inl ⟨⟨x, hx, hbars⟩, ?_⟩
    rw [Thread.ahead_of_none hreq, htodo]
    exact htakes
  | releases hreq htodo =>
    obtain ⟨hx, hne⟩ := List.mem_filter.mp hx
    refine Or.inl ⟨⟨x, hx, hbars⟩, ?_⟩
    rw [Thread.ahead_of_none hreq, htodo]
    exact ⟨fun heq => of_decide_eq_true hne (hbars.1.trans heq.symm), htakes⟩
  | @granted r' hreq _ =>
    rcases List.mem_cons.mp hx with heq | hx
    · subst heq
      exact Or.inr ⟨x, hreq, hbars, htakes⟩
    · refine Or.inl ⟨⟨x, hx, hbars⟩, ?_⟩
      rw [Thread.ahead_of_some hreq]
      exact Or.inr htakes

omit [DecidableEq L] in
@[simp] theorem Thread.held_start (ops : List (Op L)) : (th.start ops).held = th.held := by
  unfold Thread.start
  split <;> rfl

omit [DecidableEq L] in
@[simp] theorem Thread.requested_start (ops : List (Op L)) :
    (th.start ops).requested = th.requested := by
  unfold Thread.start
  split <;> rfl

omit [DecidableEq L] in
theorem Thread.Blocks.of_start {ops : List (Op L)} (h : (th.start ops).Blocks q r) :
    th.Blocks q r := by
  obtain ⟨⟨x, hx, hbars⟩, htakes⟩ := h
  unfold Thread.start at hx htakes
  split at htakes
  · rename_i hidle
    rw [if_pos hidle, List.isEmpty_iff.mp hidle.1] at hx
    exact absurd hx List.not_mem_nil
  · rename_i hidle
    rw [if_neg hidle] at hx
    exact ⟨⟨x, hx, hbars⟩, htakes⟩

omit [DecidableEq L] in
theorem Thread.Blocks.of_abort (h : th.abort.Blocks q r) : th.Blocks q r := by
  unfold Thread.abort at h
  split at h
  · obtain ⟨⟨x, hx, -⟩, -⟩ := h
    exact absurd hx List.not_mem_nil
  · exact h

end Ahead

/-! ## One thread against the order

Thread 0 asks for other locks while it has the one that comes last. Those that are in its way there
do not ask for that one any more, so they wait for nobody who waits for thread 0. -/

/-- Threads that ask for what `may` allows, and thread 0, which asks for what `mayHub` does.
* Each asks for a higher lock than those it holds, but thread 0 for any other one under `q`.
* A lock that the others ask for under one of theirs, if it is not `q`, is kept from them only by
  those who ask for nothing under it. -/
structure Discipline (may mayHub : L × Mode → L × Mode → Prop) (rank : L → Nat) (q : L) : Prop where
  up : ∀ {h r}, may h r → rank h.1 < rank r.1
  hub_up : ∀ {h r}, mayHub h r → h.1 ≠ q → rank h.1 < rank r.1
  hub_under : ∀ {h r}, mayHub h r → h.1 = q → r.1 ≠ q
  leaf : ∀ {h r x r'}, may h r → r.1 ≠ q → Bars x r → ¬ may x r' ∧ ¬ mayHub x r'

def Thread.Holds (q : L) (th : Thread L) : Prop := ∃ h ∈ th.held, h.1 = q

instance (q : L) (th : Thread L) : Decidable (th.Holds q) :=
  inferInstanceAs (Decidable (∃ h ∈ th.held, h.1 = q))

/-- What a thread that does not wait is about to request. -/
def Thread.next (th : Thread L) : Option (L × Mode) :=
  match th.requested, th.todo with
  | none, .acquire l m :: _ => some (l, m)
  | _, _ => none

/-- Under `q`, thread 0 asks for a lock when whoever has it leaves without `q`, and while it waits,
nobody who will want `q` is granted that lock. -/
def Careful (q : L) (s : List (Thread L)) : Event L → Prop
  | .go 0 => ∀ hub ∈ s.head?, hub.Holds q → ∀ r ∈ hub.next, ∀ th ∈ s.tail, ¬ th.Blocks q r
  | .go (i + 1) => ∀ hub ∈ s.head?, hub.Holds q → ∀ r ∈ hub.requested, ∀ th ∈ s.tail[i]?,
      ∀ r' ∈ th.requested, ¬ (Bars r' r ∧ Takes q r.1 th.todo)
  | .start .. | .abort _ => True

instance (q : L) (s : List (Thread L)) : DecidablePred (Careful q s)
  | .go 0 => inferInstanceAs (Decidable
      (∀ hub ∈ s.head?, hub.Holds q → ∀ r ∈ hub.next, ∀ th ∈ s.tail, ¬ th.Blocks q r))
  | .go (i + 1) => inferInstanceAs (Decidable
      (∀ hub ∈ s.head?, hub.Holds q → ∀ r ∈ hub.requested, ∀ th ∈ s.tail[i]?,
        ∀ r' ∈ th.requested, ¬ (Bars r' r ∧ Takes q r.1 th.todo)))
  | .start .. | .abort _ => inferInstanceAs (Decidable True)

/-- The scripts keep to what may be asked for. -/
def Scripted (may mayHub : L × Mode → L × Mode → Prop) : Event L → Prop
  | .start 0 ops => Nests mayHub [] ops
  | .start (_ + 1) ops => Nests may [] ops
  | .go _ | .abort _ => True

/-- The invariant of runs that are careful. -/
structure Kept (may mayHub : L × Mode → L × Mode → Prop) (q : L) (s : List (Thread L)) : Prop where
  hub : ∀ hub ∈ s.head?, hub.Obeys mayHub
  others : ∀ th ∈ s.tail, th.Obeys may
  escapes : ∀ hub ∈ s.head?, hub.Holds q → ∀ r ∈ hub.requested, ∀ th ∈ s.tail, ¬ th.Blocks q r

section Hub

variable {may mayHub : L × Mode → L × Mode → Prop} {rank : L → Nat} {q : L}
  {s others : List (Thread L)} {hub hub' : Thread L}

theorem mem_modify {α : Type*} {x : α} {f : α → α} {i : Nat} {l : List α} (h : x ∈ l.modify i f) :
    x ∈ l ∨ ∃ y ∈ l[i]?, f y = x := by
  obtain ⟨j, hj⟩ := List.mem_iff_getElem?.mp h
  rw [List.getElem?_modify] at hj
  obtain ⟨y, hy, rfl⟩ := Option.map_eq_some_iff.mp hj
  split
  · rename_i heq
    exact Or.inr ⟨y, heq ▸ hy, rfl⟩
  · exact Or.inl (List.mem_of_getElem? hy)

theorem Kept.of_hub (h : Kept may mayHub q (hub :: others)) (hobeys : hub'.Obeys mayHub)
    (hescapes : hub'.Holds q → ∀ r ∈ hub'.requested, ∀ th ∈ others, ¬ th.Blocks q r) :
    Kept may mayHub q (hub' :: others) where
  hub := by
    rintro th ⟨⟩
    exact hobeys
  others := h.others
  escapes := by
    rintro th ⟨⟩
    exact hescapes

theorem Kept.of_other (h : Kept may mayHub q (hub :: others)) {i : Nat} {f : Thread L → Thread L}
    (hobeys : ∀ th ∈ others[i]?, th.Obeys may → (f th).Obeys may)
    (hblocks : hub.Holds q → ∀ r ∈ hub.requested, ∀ th ∈ others[i]?, (f th).Blocks q r →
      th.Blocks q r) :
    Kept may mayHub q (hub :: others.modify i f) where
  hub := h.hub
  others := by
    intro th hth
    rcases mem_modify hth with hold | ⟨old, hold, rfl⟩
    · exact h.others th hold
    · exact hobeys old hold (h.others old (List.mem_of_getElem? hold))
  escapes := by
    rintro hub ⟨⟩ hq r hr th hth
    rcases mem_modify hth with hold | ⟨old, hold, rfl⟩
    · exact h.escapes hub rfl hq r hr th hold
    · exact fun hnew => h.escapes hub rfl hq r hr old (List.mem_of_getElem? hold)
        (hblocks hq r hr old hold hnew)

theorem Kept.go_hub (h : Kept may mayHub q (hub :: others))
    (hcareful : Careful q (hub :: others) (.go 0)) :
    Kept may mayHub q (hub.advance (hub :: others) :: others) := by
  have hadv := hub.advances (hub :: others)
  refine h.of_hub ((h.hub hub rfl).advances hadv) ?_
  generalize hub.advance (hub :: others) = hub' at hadv
  cases hadv with
  | stays => exact h.escapes hub rfl
  | @requests l m rest hreq htodo =>
    rintro hq r ⟨⟩
    exact hcareful hub rfl hq (l, m) (by rw [Thread.next, hreq, htodo]; rfl)
  | releases _ _ => exact fun _ r hr => absurd hr (by simp)
  | granted _ _ => exact fun _ r hr => absurd hr (by simp)

theorem Kept.go_other (h : Kept may mayHub q (hub :: others)) {i : Nat} {s : List (Thread L)}
    (hcareful : Careful q (hub :: others) (.go (i + 1))) :
    Kept may mayHub q (hub :: others.modify i (Thread.advance s)) := by
  refine h.of_other (fun th _ hobeys => hobeys.advances (th.advances s)) ?_
  intro hq r hr th hth hblocks
  refine (hblocks.of_advances (th.advances s)).resolve_right ?_
  rintro ⟨r', hr', hgrant⟩
  exact hcareful hub rfl hq r hr th hth r' hr' hgrant

theorem Kept.start_hub (h : Kept may mayHub q (hub :: others)) {ops : List (Op L)}
    (hops : Nests mayHub [] ops) : Kept may mayHub q (hub.start ops :: others) := by
  refine h.of_hub ((h.hub hub rfl).start hops) ?_
  intro hq r hr
  rw [Thread.Holds, Thread.held_start] at hq
  rw [Thread.requested_start] at hr
  exact h.escapes hub rfl hq r hr

theorem Kept.abort_hub (h : Kept may mayHub q (hub :: others)) :
    Kept may mayHub q (hub.abort :: others) := by
  refine h.of_hub (h.hub hub rfl).abort ?_
  unfold Thread.abort
  split
  · exact fun _ r hr => absurd hr (by simp)
  · exact h.escapes hub rfl

theorem Kept.step (h : Kept may mayHub q s) {e : Event L} (hcareful : Careful q s e)
    (hscript : Scripted may mayHub e) : Kept may mayHub q (step s e) := by
  cases s with
  | nil =>
    have hnil : Locks.step ([] : List (Thread L)) e = [] := by cases e <;> exact List.modify_nil ..
    rw [hnil]
    exact h
  | cons hub others =>
    cases e with
    | start i ops =>
      cases i with
      | zero => exact h.start_hub hscript
      | succ i =>
        exact h.of_other (fun th _ hobeys => hobeys.start hscript)
          fun _ r _ th _ hblocks => hblocks.of_start
    | go i =>
      cases i with
      | zero => exact h.go_hub hcareful
      | succ i => exact h.go_other hcareful
    | abort i =>
      cases i with
      | zero => exact h.abort_hub
      | succ i =>
        exact h.of_other (fun th _ hobeys => hobeys.abort) fun _ r _ th _ hblocks => hblocks.of_abort

theorem Kept.obeys (h : Kept may mayHub q s) {i : Nat} {th : Thread L} (hth : s[i]? = some th)
    {r : L × Mode} (hr : th.requested = some r) {x : L × Mode} (hx : x ∈ th.held) :
    may x r ∨ i = 0 ∧ mayHub x r := by
  cases s with
  | nil => exact absurd hth (by simp)
  | cons hub others =>
    cases i with
    | zero =>
      obtain rfl : hub = th := Option.some.inj hth
      exact Or.inr ⟨rfl, (h.hub hub rfl).request hr x hx⟩
    | succ i => exact Or.inl ((h.others th (List.mem_of_getElem? hth)).request hr x hx)

theorem Kept.no_selfRequest (h : Kept may mayHub q s) (hd : Discipline may mayHub rank q) :
    ¬ SelfRequest s := by
  rintro ⟨th, hth, r, hr, x, hx, heq⟩
  obtain ⟨i, hi⟩ := List.mem_iff_getElem?.mp hth
  rcases h.obeys hi hr hx with hmay | ⟨-, hmay⟩
  · exact absurd (congrArg rank heq) (Nat.ne_of_lt (hd.up hmay))
  · by_cases hxq : x.1 = q
    · exact hd.hub_under hmay hxq (heq ▸ hxq)
    · exact absurd (congrArg rank heq) (Nat.ne_of_lt (hd.hub_up hmay hxq))

/-- Thread 0 is not kept waiting for ever under `q`: those it waits for wait at most for somebody
who waits for nobody. -/
theorem Kept.not_endless (h : Kept may mayHub q (hub :: others))
    (hd : Discipline may mayHub rank q) (hq : hub.Holds q) :
    ¬ Endless (WaitsFor (hub :: others)) 0 := by
  intro hendless
  obtain ⟨j, ⟨th, hth, r, hr, other, hother, y, hy, hbars⟩, hendless⟩ := hendless.next
  obtain rfl : hub = th := Option.some.inj hth
  cases j with
  | zero =>
    obtain rfl : hub = other := Option.some.inj hother
    exact h.no_selfRequest hd ⟨hub, List.mem_cons_self, r, hr, y, hy, hbars.1⟩
  | succ j =>
    obtain ⟨k, ⟨th, hth, r₁, hr₁, third, hthird, z, hz, hbars₁⟩, hendless⟩ := hendless.next
    obtain rfl : other = th := Option.some.inj (hother.symm.trans hth)
    have hmay : may y r₁ := (h.obeys hother hr₁ hy).resolve_right fun hzero => absurd hzero.1 (by simp)
    have hne : r₁.1 ≠ q := by
      intro heq
      refine h.escapes hub rfl hq r hr other (List.mem_of_getElem? hother) ⟨⟨y, hy, hbars⟩, ?_⟩
      rw [Thread.ahead_of_some hr₁]
      exact Or.inl heq
    obtain ⟨l, ⟨th, hth, r₂, hr₂, -⟩, -⟩ := hendless.next
    obtain rfl : third = th := Option.some.inj (hthird.symm.trans hth)
    rcases h.obeys hthird hr₂ hz with hmay₂ | ⟨-, hmay₂⟩
    · exact (hd.leaf hmay hne hbars₁).1 hmay₂
    · exact (hd.leaf hmay hne hbars₁).2 hmay₂

open Relation in
theorem Kept.acyclic (h : Kept may mayHub q s) (hd : Discipline may mayHub rank q) (i : Nat) :
    ¬ TransGen (WaitsFor s) i i := by
  cases s with
  | nil =>
    intro hcycle
    obtain ⟨j, ⟨th, hth, -⟩, -⟩ := TransGen.head'_iff.mp hcycle
    exact absurd hth (by simp)
  | cons hub others =>
    -- the rank of a thread is that of the lock it waits for
    refine acyclic_of_rank
      (fun i => ((hub :: others)[i]?.bind Thread.requested).elim 0 (rank ·.1)) ?_ i
    rintro i j ⟨th, hth, r, hr, other, hother, x, hx, hbars⟩ - hendless
    obtain ⟨k, ⟨th', hth', r', hr', -⟩, -⟩ := hendless.next
    obtain rfl : other = th' := Option.some.inj (hother.symm.trans hth')
    have hi : (hub :: others)[i]?.bind Thread.requested = some r := by
      rw [hth]
      exact hr
    have hj : (hub :: others)[j]?.bind Thread.requested = some r' := by
      rw [hother]
      exact hr'
    show ((hub :: others)[i]?.bind Thread.requested).elim 0 _
      < ((hub :: others)[j]?.bind Thread.requested).elim 0 _
    rw [hi, hj]
    show rank r.1 < rank r'.1
    rw [← hbars.1]
    rcases h.obeys hother hr' hx with hmay | ⟨rfl, hmay⟩
    · exact hd.up hmay
    · refine hd.hub_up hmay fun hxq => ?_
      obtain rfl : hub = other := Option.some.inj hother
      exact h.not_endless hd ⟨x, hx, hxq⟩ hendless

/-- Threads that have not begun. -/
theorem kept_idle (n : Nat) : Kept may mayHub q (List.replicate n ({} : Thread L)) where
  hub := by
    intro hub hhub
    rw [List.eq_of_mem_replicate (List.mem_of_mem_head? hhub)]
    trivial
  others := by
    intro th hth
    rw [List.eq_of_mem_replicate (List.mem_of_mem_tail hth)]
    trivial
  escapes := by
    intro hub hhub _ r hr
    rw [List.eq_of_mem_replicate (List.mem_of_mem_head? hhub)] at hr
    exact absurd hr (by simp)

open Relation in
/-- **No deadlock** after a careful run.

Whoever waits for a lock waits for a thread that has it. Everybody but thread 0 asks for locks above
those it has, so along a chain of waits the locks asked for go up, and the chain ends. Thread 0 has
one lock too early, but those it waits for then leave without that lock, so no chain leads back to
it. -/
theorem deadlock_free (hd : Discipline may mayHub rank q) {n : Nat} {es : List (Event L)}
    (h : Run.Along step (fun s e => Careful q s e ∧ Scripted may mayHub e)
      (List.replicate n ({} : Thread L)) es) :
    ¬ SelfRequest (Run.exec step (List.replicate n ({} : Thread L)) es) ∧
      ∀ i, ¬ TransGen (WaitsFor (Run.exec step (List.replicate n ({} : Thread L)) es)) i i := by
  have hkept : Kept may mayHub q (Run.exec step (List.replicate n ({} : Thread L)) es) :=
    h.invariant (fun _ _ hstep hs => hs.step hstep.1 hstep.2) (kept_idle n)
  exact ⟨hkept.no_selfRequest hd, hkept.acyclic hd⟩

end Hub

end Steps

end Locks
