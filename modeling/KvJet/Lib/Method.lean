import Mathlib.Data.List.Basic

/-!
# Methods of a mutable object

A method may change its object and then throw, and the change stays. So the object comes out of
every call, whether the call returns or throws: the exception is inside and the state outside
(`ExceptT ε (StateM σ)`). With the two the other way round a throw would undo what was done
before it.

`call` runs a method on an object; `call_bind_ok` and `call_bind_error` are all that is needed
to go through the body of one. `part` calls a method of a part of the object.
-/

/-- A computation that returned went through its first part and then its second. -/
theorem Except.of_bind_eq_ok {ε α β : Type} {x : Except ε α} {f : α → Except ε β} {b : β}
    (h : x >>= f = .ok b) : ∃ a, x = .ok a ∧ f a = .ok b := by
  cases x with
  | error e => exact absurd h (by simp [bind, Except.bind])
  | ok a => exact ⟨a, rfl, h⟩

/-- A computation fails with what one of its parts fails with. -/
theorem Except.bind_ne_error {ε α β : Type} {x : Except ε α} {f : α → Except ε β} {e : ε}
    (hx : x ≠ .error e) (hf : ∀ a, f a ≠ .error e) : x >>= f ≠ .error e := by
  cases x with
  | error e' => exact fun h => hx (congrArg Except.error (Except.error.inj h))
  | ok a => exact hf a

theorem Except.exists_of_isOk {ε α : Type} {x : Except ε α} (h : x.isOk = true) :
    ∃ a, x = .ok a := by
  cases x with
  | error e => exact absurd h Bool.false_ne_true
  | ok a => exact ⟨a, rfl⟩

theorem Except.isOk_bind {ε α β : Type} {x : Except ε α} {f : α → Except ε β} :
    (x >>= f).isOk = true ↔ ∃ a, x = .ok a ∧ (f a).isOk = true := by
  cases x with
  | error e => exact ⟨fun h => absurd h Bool.false_ne_true, fun ⟨a, ha, _⟩ => nomatch ha⟩
  | ok a => exact ⟨fun h => ⟨a, rfl, h⟩, fun ⟨a', ha', h⟩ => Except.ok.inj ha' ▸ h⟩

theorem Except.isOk_mapM {ε α β : Type} {f : α → Except ε β} {as : List α} :
    (as.mapM f).isOk = true ↔ ∀ a ∈ as, (f a).isOk = true := by
  induction as with
  | nil => exact iff_of_true rfl fun a ha => absurd ha List.not_mem_nil
  | cons a as ih =>
    rw [List.mapM_cons, Except.isOk_bind, List.forall_mem_cons, ← ih]
    constructor
    · rintro ⟨b, hb, hrest⟩
      obtain ⟨bs, hbs, -⟩ := Except.isOk_bind.mp hrest
      rw [hb, hbs]
      exact ⟨rfl, rfl⟩
    · rintro ⟨hb, hbs⟩
      obtain ⟨b, hb⟩ := Except.exists_of_isOk hb
      obtain ⟨bs, hbs⟩ := Except.exists_of_isOk hbs
      exact ⟨b, hb, Except.isOk_bind.mpr ⟨bs, hbs, rfl⟩⟩

/-- The error of a computation, if there is one, is none of the `bad` ones. -/
def Except.Avoids {ε α : Type} (bad : ε → Prop) (x : Except ε α) : Prop :=
  ∀ e, x = .error e → ¬ bad e

namespace Except

variable {ε α β : Type} {bad : ε → Prop}

theorem avoids_ok (a : α) : (Except.ok a : Except ε α).Avoids bad := nofun

theorem avoids_error_iff {e : ε} : (Except.error e : Except ε α).Avoids bad ↔ ¬ bad e :=
  ⟨fun h => h e rfl, fun h _ he => Except.error.inj he ▸ h⟩

theorem avoids_bind_iff {x : Except ε α} {f : α → Except ε β} :
    (x >>= f).Avoids bad ↔ x.Avoids bad ∧ ∀ a, x = .ok a → (f a).Avoids bad := by
  cases x with
  | error e =>
    refine avoids_error_iff.trans ⟨fun h => ⟨avoids_error_iff.mpr h, nofun⟩, fun h => ?_⟩
    exact avoids_error_iff.mp h.1
  | ok a => exact ⟨fun h => ⟨avoids_ok a, fun a' ha => Except.ok.inj ha ▸ h⟩, fun h => h.2 a rfl⟩

theorem avoids_mapM {f : α → Except ε β} {as : List α} (h : ∀ a ∈ as, (f a).Avoids bad) :
    (as.mapM f).Avoids bad := by
  induction as with
  | nil => exact avoids_ok []
  | cons a as ih =>
    rw [List.mapM_cons]
    refine avoids_bind_iff.mpr ⟨h a List.mem_cons_self, fun b _ => ?_⟩
    refine avoids_bind_iff.mpr ⟨ih fun a' ha => h a' (List.mem_cons_of_mem _ ha), fun bs _ => ?_⟩
    exact avoids_ok (b :: bs)

end Except

/-- A method of objects of type `σ` that returns an `α` or throws an `ε`. -/
abbrev Method (ε σ α : Type) := ExceptT ε (StateM σ) α

namespace Method

variable {ε σ τ α β : Type}

/-- The outcome of a method on an object, and the object afterwards. -/
def call (m : Method ε σ α) (s : σ) : Except ε α × σ := m s

/-- A call that leaves the object alone. -/
def lift (x : Except ε α) : Method ε σ α := (fun s => (x, s) : σ → Except ε α × σ)

/-- A method of a part of the object: `get` reads the part and `put` writes it back. -/
def part (get : σ → τ) (put : τ → σ → σ) (m : Method ε τ α) : Method ε σ α :=
  (fun s => ((m.call (get s)).1, put (m.call (get s)).2 s) : σ → Except ε α × σ)

@[simp] theorem call_pure (a : α) (s : σ) : call (pure a : Method ε σ α) s = (.ok a, s) := rfl

@[simp] theorem call_throw (e : ε) (s : σ) : call (throw e : Method ε σ α) s = (.error e, s) := rfl

@[simp] theorem call_lift (x : Except ε α) (s : σ) : call (lift x) s = (x, s) := rfl

@[simp] theorem call_get (s : σ) : call (get : Method ε σ σ) s = (.ok s, s) := rfl

@[simp] theorem call_modify (f : σ → σ) (s : σ) :
    call (modify f : Method ε σ PUnit) s = (.ok ⟨⟩, f s) := rfl

theorem call_part (get : σ → τ) (put : τ → σ → σ) (m : Method ε τ α) (s : σ) :
    call (part get put m) s = ((m.call (get s)).1, put (m.call (get s)).2 s) := rfl

theorem call_bind_ok {m : Method ε σ α} {s s' : σ} {a : α} (h : m.call s = (.ok a, s'))
    (f : α → Method ε σ β) : call (m >>= f) s = call (f a) s' := by
  show (match m.call s with | (x, t) => ExceptT.bindCont f x t) = _
  rw [h]
  rfl

theorem call_bind_error {m : Method ε σ α} {s s' : σ} {e : ε} (h : m.call s = (.error e, s'))
    (f : α → Method ε σ β) : call (m >>= f) s = (.error e, s') := by
  show (match m.call s with | (x, t) => ExceptT.bindCont f x t) = _
  rw [h]
  rfl

theorem lift_ok_bind (a : α) (f : α → Method ε σ β) : lift (.ok a) >>= f = f a := rfl

/-- To show something of a method that starts with a call that leaves the object alone. -/
theorem call_bind_lift {x : Except ε α} {f : α → Method ε σ β} {s : σ} {Q : Except ε β × σ → Prop}
    (herror : ∀ e, x = .error e → Q (.error e, s)) (hok : ∀ a, x = .ok a → Q (call (f a) s)) :
    Q (call (lift x >>= f) s) := by
  cases hx : x with
  | error e =>
    rw [call_bind_error (call_lift _ s)]
    exact herror e hx
  | ok a =>
    rw [call_bind_ok (call_lift _ s)]
    exact hok a hx

@[simp] theorem call_set (t s : σ) : call (set t : Method ε σ PUnit) s = (.ok ⟨⟩, t) := rfl

/-- A method that returned went through its first part and then its second. -/
theorem bind_eq_ok {m : Method ε σ α} {f : α → Method ε σ β} {s s' : σ} {b : β}
    (h : call (m >>= f) s = (.ok b, s')) :
    ∃ a s₁, m.call s = (.ok a, s₁) ∧ call (f a) s₁ = (.ok b, s') := by
  cases hm : m.call s with
  | mk r s₁ =>
    cases r with
    | ok a => exact ⟨a, s₁, rfl, by rw [← call_bind_ok hm f]; exact h⟩
    | error e =>
      rw [call_bind_error hm f] at h
      exact absurd h (by simp)

/-! ## Methods of a part -/

section Part

variable {get : σ → τ} {put : τ → σ → σ}

/-- Two calls on the same part are one. -/
theorem part_bind (hget : ∀ t s, get (put t s) = t) (hput : ∀ t t' s, put t' (put t s) = put t' s)
    (m : Method ε τ α) (f : α → Method ε τ β) :
    (part get put m >>= fun a => part get put (f a)) = part get put (m >>= f) := by
  funext s
  show call _ s = call (part get put (m >>= f)) s
  have hfirst := call_part get put m s
  rw [call_part]
  cases hm : m.call (get s) with
  | mk r t =>
    rw [hm] at hfirst
    cases r with
    | ok a => rw [call_bind_ok hfirst, call_bind_ok hm, call_part, hget, hput]
    | error e => rw [call_bind_error hfirst, call_bind_error hm]

theorem part_lift (hsame : ∀ s, put (get s) s = s) (x : Except ε α) :
    part get put (lift x) = lift x := by
  funext s
  show (x, put (get s) s) = (x, s)
  rw [hsame]

end Part

/-! ## Whatever comes of a call -/

/-- `I` goes on holding, also where the method throws. -/
def Keeps (I : σ → Prop) (m : Method ε σ α) : Prop := ∀ s, I s → I (m.call s).2

namespace Keeps

variable {I : σ → Prop}

theorem pure (a : α) : Keeps I (pure a : Method ε σ α) := fun _ h => h

theorem throw (e : ε) : Keeps I (throw e : Method ε σ α) := fun _ h => h

theorem lift (x : Except ε α) : Keeps I (Method.lift x) := fun _ h => h

theorem get : Keeps I (get : Method ε σ σ) := fun _ h => h

theorem modify {f : σ → σ} (hf : ∀ s, I s → I (f s)) : Keeps I (modify f : Method ε σ PUnit) := hf

theorem bind {m : Method ε σ α} {f : α → Method ε σ β} (hm : Keeps I m) (hf : ∀ a, Keeps I (f a)) :
    Keeps I (m >>= f) := by
  intro s h
  have hfirst := hm s h
  cases hcall : m.call s with
  | mk r s₁ =>
    rw [hcall] at hfirst
    cases r with
    | ok a =>
      rw [call_bind_ok hcall]
      exact hf a s₁ hfirst
    | error e =>
      rw [call_bind_error hcall]
      exact hfirst

theorem ite {p : Prop} [Decidable p] {m m' : Method ε σ α} (h : Keeps I m) (h' : Keeps I m') :
    Keeps I (if p then m else m') := by
  split
  · exact h
  · exact h'

theorem forM {f : α → Method ε σ PUnit} (hf : ∀ a, Keeps I (f a)) (as : List α) :
    Keeps I (forM as f) := by
  induction as with
  | nil => exact .pure _
  | cons a as ih =>
    rw [List.forM_cons]
    exact .bind (hf a) fun _ => ih

end Keeps

/-! ## What a call does not throw -/

theorem avoids_bind_iff {bad : ε → Prop} {m : Method ε σ α} {f : α → Method ε σ β} {s : σ} :
    ((m >>= f).call s).1.Avoids bad ↔
      (m.call s).1.Avoids bad ∧ ∀ a s', m.call s = (.ok a, s') → ((f a).call s').1.Avoids bad := by
  cases hcall : m.call s with
  | mk x s₁ =>
    cases x with
    | error e =>
      rw [call_bind_error hcall, Except.avoids_error_iff, Except.avoids_error_iff]
      exact ⟨fun h => ⟨h, nofun⟩, fun h => h.1⟩
    | ok a =>
      rw [call_bind_ok hcall]
      refine ⟨fun h => ⟨Except.avoids_ok a, ?_⟩, fun h => h.2 a s₁ rfl⟩
      rintro a' s' ⟨rfl, rfl⟩
      exact h

/-! ## Methods of related objects

Two objects that are related, a method of each, and the claim that the outcomes are the same and the
objects are related again. It is closed under everything a method is written with, so a simulation
follows the text of the method. -/

/-- From related objects the methods come to the same outcome, and to related objects. -/
def Simulates (R : σ → τ → Prop) (m : Method ε σ α) (m' : Method ε τ α) : Prop :=
  ∀ s t, R s t → (m.call s).1 = (m'.call t).1 ∧ R (m.call s).2 (m'.call t).2

namespace Simulates

variable {R : σ → τ → Prop}

theorem pure (a : α) : Simulates R (pure a : Method ε σ α) (pure a) := fun _ _ h => ⟨rfl, h⟩

theorem throw (e : ε) : Simulates R (throw e : Method ε σ α) (throw e) := fun _ _ h => ⟨rfl, h⟩

theorem lift (x : Except ε α) : Simulates R (Method.lift x) (Method.lift x) :=
  fun _ _ h => ⟨rfl, h⟩

theorem modify {f : σ → σ} {f' : τ → τ} (hf : ∀ s t, R s t → R (f s) (f' t)) :
    Simulates R (modify f : Method ε σ PUnit) (modify f') := fun s t h => ⟨rfl, hf s t h⟩

theorem bind {m : Method ε σ α} {m' : Method ε τ α} {f : α → Method ε σ β}
    {f' : α → Method ε τ β} (hm : Simulates R m m') (hf : ∀ a, Simulates R (f a) (f' a)) :
    Simulates R (m >>= f) (m' >>= f') := by
  intro s t h
  obtain ⟨houtcome, hrelated⟩ := hm s t h
  cases hcall : m.call s with
  | mk r s₁ =>
    cases hcall' : m'.call t with
    | mk r' t₁ =>
      rw [hcall, hcall'] at houtcome hrelated
      obtain rfl : r = r' := houtcome
      cases r with
      | ok a =>
        rw [call_bind_ok hcall, call_bind_ok hcall']
        exact hf a s₁ t₁ hrelated
      | error e =>
        rw [call_bind_error hcall, call_bind_error hcall']
        exact ⟨rfl, hrelated⟩

/-- Methods that look at the object first. -/
theorem get_bind {f : σ → Method ε σ β} {f' : τ → Method ε τ β}
    (hf : ∀ s t, R s t → Simulates R (f s) (f' t)) :
    Simulates R (get >>= f : Method ε σ β) (get >>= f') := by
  intro s t h
  rw [call_bind_ok (call_get s), call_bind_ok (call_get t)]
  exact hf s t h s t h

theorem ite {p : Prop} [Decidable p] {m n : Method ε σ α} {m' n' : Method ε τ α}
    (h : Simulates R m m') (h' : Simulates R n n') :
    Simulates R (if p then m else n) (if p then m' else n') := by
  split
  · exact h
  · exact h'

end Simulates

end Method
