import Mathlib.Data.List.Basic
import Mathlib.Logic.Relation

/-!
# Runs of a deterministic machine

A machine is a step function `σ → ε → σ`; the choices of its environment are the events. `exec`
is a whole run, `Along` says that a condition on the state and the event holds at every step of
it, and `Along.invariant` is the rule for invariants: what one allowed step keeps, an allowed
run keeps (`keeps_exec`, where every step is allowed). Where a step is a chain of smaller moves,
`keeps_chain` asks for the moves only.
-/

namespace Run

variable {σ ε : Type*} (step : σ → ε → σ)

def exec (s : σ) (es : List ε) : σ := es.foldl step s

@[simp] theorem exec_nil (s : σ) : exec step s [] = s := rfl

@[simp] theorem exec_cons (s : σ) (e : ε) (es : List ε) :
    exec step s (e :: es) = exec step (step s e) es := rfl

theorem exec_append (s : σ) (es fs : List ε) :
    exec step s (es ++ fs) = exec step (exec step s es) fs := List.foldl_append

/-- The condition `P` holds of every state of the run and the event taken in it. -/
def Along (P : σ → ε → Prop) : σ → List ε → Prop
  | _, [] => True
  | s, e :: es => P s e ∧ Along P (step s e) es

instance Along.decidable (P : σ → ε → Prop) [∀ s e, Decidable (P s e)] :
    ∀ (s : σ) (es : List ε), Decidable (Along step P s es)
  | _, [] => isTrue trivial
  | s, e :: es => @instDecidableAnd _ _ _ (Along.decidable P (step s e) es)

variable {step} {P : σ → ε → Prop}

theorem Along.append {s : σ} {es fs : List ε} (h : Along step P s (es ++ fs)) :
    Along step P s es ∧ Along step P (exec step s es) fs := by
  induction es generalizing s with
  | nil => exact ⟨trivial, h⟩
  | cons e es ih =>
    obtain ⟨hfirst, hrest⟩ := h
    obtain ⟨hes, hfs⟩ := ih hrest
    exact ⟨⟨hfirst, hes⟩, hfs⟩

theorem Along.trans {s : σ} {es fs : List ε} (h : Along step P s es)
    (h' : Along step P (exec step s es) fs) : Along step P s (es ++ fs) := by
  induction es generalizing s with
  | nil => exact h'
  | cons e es ih =>
    obtain ⟨hfirst, hrest⟩ := h
    exact ⟨hfirst, ih hrest h'⟩

theorem Along.imp {Q : σ → ε → Prop} (himp : ∀ s e, P s e → Q s e) :
    ∀ {es : List ε} {s : σ}, Along step P s es → Along step Q s es := by
  intro es
  induction es with
  | nil => intro s _; trivial
  | cons e es ih =>
    intro s ⟨hfirst, hrest⟩
    exact ⟨himp s e hfirst, ih hrest⟩

theorem along_of_forall (h : ∀ s e, P s e) : ∀ (es : List ε) (s : σ), Along step P s es := by
  intro es
  induction es with
  | nil => intro s; trivial
  | cons e es ih => intro s; exact ⟨h s e, ih _⟩

theorem Along.and {Q : σ → ε → Prop} : ∀ {es : List ε} {s : σ}, Along step P s es →
    Along step Q s es → Along step (fun s e => P s e ∧ Q s e) s es := by
  intro es
  induction es with
  | nil => intro s _ _; trivial
  | cons e es ih =>
    intro s ⟨hfirst, hrest⟩ ⟨hfirst', hrest'⟩
    exact ⟨⟨hfirst, hfirst'⟩, ih hrest hrest'⟩

/-- What holds of every event of a run holds along it. -/
theorem along_of_mem {Q : ε → Prop} : ∀ {es : List ε} {s : σ}, (∀ e ∈ es, Q e) →
    Along step (fun _ e => Q e) s es := by
  intro es
  induction es with
  | nil => intro s _; trivial
  | cons e es ih =>
    intro s hall
    exact ⟨hall e List.mem_cons_self, ih fun e' he' => hall e' (List.mem_cons_of_mem _ he')⟩

/-- A run of a machine that takes its events through `f`. -/
theorem exec_map {δ : Type*} (f : δ → ε) (s : σ) (ds : List δ) :
    exec step s (ds.map f) = exec (fun s d => step s (f d)) s ds := List.foldl_map

theorem Along.map {δ : Type*} {f : δ → ε} : ∀ {ds : List δ} {s : σ},
    Along (fun s d => step s (f d)) (fun s d => P s (f d)) s ds → Along step P s (ds.map f) := by
  intro ds
  induction ds with
  | nil => intro s _; trivial
  | cons d ds ih =>
    intro s ⟨hfirst, hrest⟩
    exact ⟨hfirst, ih hrest⟩

theorem Along.invariant {I : σ → Prop} (keeps : ∀ s e, P s e → I s → I (step s e)) :
    ∀ {es : List ε} {s : σ}, Along step P s es → I s → I (exec step s es) := by
  intro es
  induction es with
  | nil => intro s _ hi; exact hi
  | cons e es ih =>
    intro s ⟨hfirst, hrest⟩ hi
    exact ih hrest (keeps s e hfirst hi)

/-- What the allowed steps keep holds along the run. -/
theorem Along.keeping {I : σ → Prop} (keeps : ∀ s e, P s e → I s → I (step s e)) :
    ∀ {es : List ε} {s : σ}, Along step P s es → I s →
      Along step (fun s e => P s e ∧ I s) s es := by
  intro es
  induction es with
  | nil => intro s _ _; trivial
  | cons e es ih =>
    intro s ⟨hfirst, hrest⟩ hi
    exact ⟨⟨hfirst, hi⟩, ih hrest (keeps s e hfirst hi)⟩

/-- A run keeps what each step keeps. -/
theorem keeps_exec {I : σ → Prop} (keeps : ∀ s e, I s → I (step s e)) (es : List ε) {s : σ}
    (h : I s) : I (exec step s es) :=
  Along.invariant (P := fun _ _ => True) (fun s e _ => keeps s e)
    (along_of_forall (fun _ _ => trivial) es s) h

/-- What holds of every state of a run holds after every part of it. -/
theorem Along.of_prefix {I : σ → Prop} : ∀ {es : List ε} {s : σ}, Along step (fun s _ => I s) s es →
    I (exec step s es) → ∀ pre, pre <+: es → I (exec step s pre) := by
  intro es
  induction es with
  | nil =>
    intro s _ hend pre hpre
    rw [List.prefix_nil.mp hpre]
    exact hend
  | cons e es ih =>
    intro s ⟨hfirst, hrest⟩ hend pre hpre
    cases pre with
    | nil => exact hfirst
    | cons e' pre =>
      obtain ⟨rfl, htail⟩ := List.cons_prefix_cons.mp hpre
      exact ih hrest hend pre htail

/-- **Holding after every step.** Where a step from a good state comes to `I` only if `Q` holds of
it, and to a good state if it does, `I` holds all along an allowed run exactly if `Q` does. -/
theorem forall_prefix_iff_along {good I : σ → Prop} {Q : σ → ε → Prop}
    (hgood : ∀ s, good s → I s)
    (hstep : ∀ s e, P s e → good s → (I (step s e) → Q s e) ∧ (Q s e → good (step s e))) :
    ∀ {es : List ε} {s : σ}, Along step P s es → good s →
      ((∀ pre, pre <+: es → I (exec step s pre)) ↔ Along step Q s es) := by
  intro es
  induction es with
  | nil =>
    intro s _ hs
    refine ⟨fun _ => trivial, fun _ pre hpre => ?_⟩
    rw [List.prefix_nil.mp hpre]
    exact hgood s hs
  | cons e es ih =>
    intro s ⟨hfirst, hrest⟩ hs
    obtain ⟨honly, hnext⟩ := hstep s e hfirst hs
    constructor
    · intro hall
      have hq : Q s e := honly (hall [e] ⟨es, rfl⟩)
      refine ⟨hq, (ih hrest (hnext hq)).mp fun pre hpre => ?_⟩
      exact hall (e :: pre) (List.cons_prefix_cons.mpr ⟨rfl, hpre⟩)
    · rintro ⟨hq, hqs⟩ pre hpre
      cases pre with
      | nil => exact hgood s hs
      | cons e' pre =>
        obtain ⟨rfl, htail⟩ := List.cons_prefix_cons.mp hpre
        exact (ih hrest (hnext hq)).mpr hqs pre htail

/-- A run each of whose steps brings `μ` down is no longer than `μ`. -/
theorem Along.length_add_le {μ : σ → Nat} (hdown : ∀ s e, P s e → μ (step s e) < μ s) :
    ∀ {es : List ε} {s : σ}, Along step P s es → es.length + μ (exec step s es) ≤ μ s := by
  intro es
  induction es with
  | nil => intro s _; simp
  | cons e es ih =>
    intro s ⟨hfirst, hrest⟩
    have hstep := hdown s e hfirst
    have htail := ih hrest
    rw [exec_cons, List.length_cons]
    omega

/-- A machine follows another one, if each step of the other is a run of its own. -/
theorem exec_follows {τ δ : Type*} {step' : τ → δ → τ} {R : σ → τ → Prop}
    (hstep : ∀ s t e, R s t → ∃ ds, R (step s e) (exec step' t ds)) :
    ∀ (es : List ε) {s : σ} {t : τ}, R s t → ∃ ds, R (exec step s es) (exec step' t ds) := by
  intro es
  induction es with
  | nil => intro s t h; exact ⟨[], h⟩
  | cons e es ih =>
    intro s t h
    obtain ⟨first, hfirst⟩ := hstep s t e h
    obtain ⟨rest, hrest⟩ := ih hfirst
    refine ⟨first ++ rest, ?_⟩
    rw [exec_cons, exec_append]
    exact hrest

/-- Allowed steps lead from the one state to the other. -/
def CanReach (step : σ → ε → σ) (P : σ → ε → Prop) (s s' : σ) : Prop :=
  ∃ es, Along step P s es ∧ exec step s es = s'

namespace CanReach

variable {s s' s'' : σ}

theorem refl (s : σ) : CanReach step P s s := ⟨[], trivial, rfl⟩

theorem single {e : ε} (h : P s e) : CanReach step P s (step s e) := ⟨[e], ⟨h, trivial⟩, rfl⟩

theorem trans (h : CanReach step P s s') (h' : CanReach step P s' s'') :
    CanReach step P s s'' := by
  obtain ⟨es, hes, rfl⟩ := h
  obtain ⟨fs, hfs, rfl⟩ := h'
  exact ⟨es ++ fs, hes.trans hfs, exec_append ..⟩

end CanReach

/-- A chain of moves keeps what each move keeps. -/
theorem keeps_chain {M : σ → σ → Prop} {I : σ → Prop} (keeps : ∀ s s', M s s' → I s → I s')
    {s s' : σ} (h : Relation.ReflTransGen M s s') (hi : I s) : I s' := by
  induction h with
  | refl => exact hi
  | tail _ hm ih => exact keeps _ _ hm ih

end Run
