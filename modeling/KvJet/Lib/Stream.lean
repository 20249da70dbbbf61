import Mathlib.Data.List.Basic

/-!
# Machines fed one symbol at a time

A machine is a step `feed : σ → β → Except ε σ` that takes one input symbol and may fail, and
`out : σ → List ο` reads the outputs it has queued. `run` feeds a whole string.

The point of the module is the shape of a *self-delimiting* encoding. `Emits s bs s'` says the
machine goes from `s` to `s'` on `bs` and queues nothing before the last symbol. If the
machine emits every value of a list from a resting state, then cutting the concatenated
encodings anywhere leaves exactly the values that are complete (`run_take`): that one
induction over the values is all a stream parser needs once its encodings are known to emit.
-/

namespace Stream

variable {σ β ε ο ν : Type*} (feed : σ → β → Except ε σ) (out : σ → List ο)

/-- Feed the symbols in order; the first failure ends the run. -/
def run (s : σ) (bs : List β) : Except ε σ := bs.foldlM feed s

@[simp] theorem run_nil (s : σ) : run feed s [] = .ok s := rfl

theorem run_cons (s : σ) (b : β) (bs : List β) :
    run feed s (b :: bs) = feed s b >>= fun s' => run feed s' bs := by
  simp only [run, List.foldlM_cons]

@[simp] theorem run_singleton (s : σ) (b : β) : run feed s [b] = feed s b := by
  rw [run_cons]
  cases feed s b <;> rfl

theorem run_append (s : σ) (as bs : List β) :
    run feed s (as ++ bs) = run feed s as >>= fun s' => run feed s' bs := by
  simp only [run, List.foldlM_append]

theorem run_append_ok {s s' : σ} {as : List β} (h : run feed s as = .ok s') (bs : List β) :
    run feed s (as ++ bs) = run feed s' bs := by
  rw [run_append, h]
  rfl

/-- Feed a list of chunks one after another. -/
def runChunks (s : σ) (chunks : List (List β)) : Except ε σ := chunks.foldlM (run feed) s

/-- How the input was cut makes no difference. -/
theorem runChunks_eq_run (s : σ) (chunks : List (List β)) :
    runChunks feed s chunks = run feed s chunks.flatten := by
  induction chunks generalizing s with
  | nil => rfl
  | cons c cs ih =>
    rw [List.flatten_cons, run_append]
    show (run feed s c >>= fun s' => runChunks feed s' cs) = _
    congr 1
    funext s'
    exact ih s'

/-- A change of the state that one symbol does not notice, a whole input does not notice. -/
theorem run_frame {frame : σ → σ} (h : ∀ s b, feed (frame s) b = (feed s b).map frame)
    (s : σ) (bs : List β) : run feed (frame s) bs = (run feed s bs).map frame := by
  induction bs generalizing s with
  | nil => rfl
  | cons b bs ih =>
    rw [run_cons, run_cons, h]
    cases feed s b with
    | error e => rfl
    | ok s' => exact ih s'

theorem runChunks_frame {frame : σ → σ} (h : ∀ s b, feed (frame s) b = (feed s b).map frame)
    (s : σ) (chunks : List (List β)) :
    runChunks feed (frame s) chunks = (runChunks feed s chunks).map frame := by
  rw [runChunks_eq_run, runChunks_eq_run, run_frame feed h]

/-- Two machines that do the same on the states and symbols of a run have the same run. -/
theorem run_congr {feed feed' : σ → β → Except ε σ} {I : σ → Prop} {P : β → Prop}
    (same : ∀ s b, I s → P b → feed' s b = feed s b)
    (keeps : ∀ s b s', I s → P b → feed s b = .ok s' → I s') (bs : List β) :
    ∀ s, I s → (∀ b ∈ bs, P b) → run feed' s bs = run feed s bs := by
  induction bs with
  | nil => exact fun _ _ _ => rfl
  | cons b bs ih =>
    intro s hs hbs
    have hb := hbs b List.mem_cons_self
    rw [run_cons, run_cons, same s b hs hb]
    cases hfeed : feed s b with
    | error e => rfl
    | ok s' => exact ih s' (keeps s b s' hs hb hfeed) fun b' h => hbs b' (List.mem_cons_of_mem b h)

/-! ## Silent runs

Between two outputs the machine is fed symbols at which it says nothing, so an encoding is a silent
run with one output at its end. -/

/-- `Silent s bs s'`: the machine reads `bs` from `s` to `s'` and no step queues an output. -/
inductive Silent : σ → List β → σ → Prop
  | nil (s : σ) : Silent s [] s
  | cons {s m s' : σ} {b : β} {bs : List β} (hf : feed s b = .ok m) (ho : out m = out s)
      (hs : Silent m bs s') : Silent s (b :: bs) s'

variable {feed out}

theorem Silent.single {s s' : σ} {b : β} (hf : feed s b = .ok s') (ho : out s' = out s) :
    Silent feed out s [b] s' := .cons hf ho (.nil s')

theorem Silent.trans {s s₁ s' : σ} {as bs : List β} (h₁ : Silent feed out s as s₁)
    (h₂ : Silent feed out s₁ bs s') : Silent feed out s (as ++ bs) s' := by
  induction h₁ with
  | nil => exact h₂
  | cons hf ho _ ih => exact .cons hf ho (ih h₂)

theorem Silent.run {s s' : σ} {bs : List β} (h : Silent feed out s bs s') :
    run feed s bs = .ok s' := by
  induction h with
  | nil => rfl
  | cons hf _ _ ih => rw [run_cons, hf]; exact ih

theorem Silent.out_eq {s s' : σ} {bs : List β} (h : Silent feed out s bs s') :
    out s' = out s := by
  induction h with
  | nil => rfl
  | cons _ ho _ ih => exact ih.trans ho

/-- Every initial part of a silent run succeeds with the same outputs. -/
theorem Silent.take {s s' : σ} {bs : List β} (h : Silent feed out s bs s') (n : Nat) :
    ∃ s₁, Stream.run feed s (bs.take n) = .ok s₁ ∧ out s₁ = out s := by
  induction h generalizing n with
  | nil s => exact ⟨s, by simp, rfl⟩
  | cons hf ho _ ih =>
    cases n with
    | zero => exact ⟨_, by simp, rfl⟩
    | succ n =>
      obtain ⟨s₂, hr, ho₂⟩ := ih n
      refine ⟨s₂, ?_, ho₂.trans ho⟩
      rw [List.take_succ_cons, run_cons, hf]
      exact hr

/-- A proper initial part of a text that is silent up to its last symbol. -/
theorem Silent.part {s s' : σ} {body part : List β} {last : β} (h : Silent feed out s body s')
    (hpre : part <+: body ++ [last]) (hne : part ≠ body ++ [last]) :
    ∃ s₁, Stream.run feed s part = .ok s₁ ∧ out s₁ = out s := by
  have hlen : part.length ≤ body.length := by
    by_contra hlong
    refine hne (hpre.eq_of_length_le ?_)
    rw [List.length_append, List.length_singleton]
    omega
  have htake : part = body.take part.length :=
    List.prefix_iff_eq_take.mp
      (List.prefix_of_prefix_length_le hpre (List.prefix_append body [last]) hlen)
  rw [htake]
  exact h.take part.length

/-! ## Encodings that emit -/

/-- `bs` leads from `s` to `s'`, silently up to its last symbol. -/
def Emits (feed : σ → β → Except ε σ) (out : σ → List ο) (s : σ) (bs : List β) (s' : σ) : Prop :=
  ∃ body last s₁, bs = body ++ [last] ∧ Silent feed out s body s₁ ∧ feed s₁ last = .ok s'

theorem Emits.run {s s' : σ} {bs : List β} (h : Emits feed out s bs s') :
    run feed s bs = .ok s' := by
  obtain ⟨body, last, s₁, rfl, hs, hf⟩ := h
  rw [run_append_ok feed hs.run, run_singleton, hf]

/-- A proper initial part of an emitting string queues nothing. -/
theorem Emits.take {s s' : σ} {bs : List β} (h : Emits feed out s bs s') {n : Nat}
    (hn : n < bs.length) : ∃ s₁, Stream.run feed s (bs.take n) = .ok s₁ ∧ out s₁ = out s := by
  obtain ⟨body, last, s₁, rfl, hs, -⟩ := h
  have hle : n ≤ body.length := Nat.lt_succ_iff.mp (by simpa using hn)
  rw [List.take_append_of_le_length hle]
  exact hs.take n

section Values

variable {enc : ν → List β} (rest : List ν → σ)

/-- Values emitted one after another from a resting state leave the machine at rest. -/
theorem run_values {vs : List ν} (q : List ν)
    (h : ∀ v ∈ vs, ∀ q, Emits feed out (rest q) (enc v) (rest (q ++ [v]))) :
    run feed (rest q) (vs.flatMap enc) = .ok (rest (q ++ vs)) := by
  induction vs generalizing q with
  | nil => simp
  | cons v vs ih =>
    rw [List.flatMap_cons, run_append_ok feed (h v (by simp) q).run,
      ih (q ++ [v]) fun w hw => h w (by simp [hw]), List.append_assoc, List.singleton_append]

/-- **Cutting a stream anywhere keeps exactly the complete values.** After the first `n`
symbols of the encodings of `vs` the outputs are those of the first `j` values, where the
first `i` encodings fit into `n` symbols exactly when `i ≤ j`. -/
theorem run_take {vs : List ν} (q : List ν)
    (h : ∀ v ∈ vs, ∀ q, Emits feed out (rest q) (enc v) (rest (q ++ [v]))) (n : Nat) :
    ∃ j s, j ≤ vs.length ∧ run feed (rest q) ((vs.flatMap enc).take n) = .ok s ∧
      out s = out (rest (q ++ vs.take j)) ∧
      ∀ i ≤ vs.length, ((vs.take i).flatMap enc).length ≤ n ↔ i ≤ j := by
  induction vs generalizing q n with
  | nil => exact ⟨0, rest q, by simp, by simp, by simp, by simp⟩
  | cons v vs ih =>
    have hv := h v (by simp) q
    by_cases hn : n < (enc v).length
    · -- the cut falls inside the first encoding
      obtain ⟨s, hr, ho⟩ := hv.take hn
      refine ⟨0, s, by simp, ?_, by simpa using ho, ?_⟩
      · rw [List.flatMap_cons, List.take_append_of_le_length (Nat.le_of_lt hn)]
        exact hr
      · intro i _
        cases i with
        | zero => simp
        | succ i =>
          simp only [List.take_succ_cons, List.flatMap_cons, List.length_append]
          omega
    · -- the first value is complete, and the cut falls in the others
      obtain ⟨j, s, hj, hr, ho, hi⟩ :=
        ih (q ++ [v]) (fun w hw => h w (by simp [hw])) (n - (enc v).length)
      refine ⟨j + 1, s, by simpa using hj, ?_, ?_, ?_⟩
      · rw [List.flatMap_cons, List.take_append, List.take_of_length_le (by omega),
          run_append_ok feed hv.run]
        exact hr
      · rw [ho, List.take_succ_cons, List.append_assoc, List.singleton_append]
      · intro i hle
        cases i with
        | zero => simp
        | succ i =>
          have := hi i (by simpa using hle)
          simp only [List.take_succ_cons, List.flatMap_cons, List.length_append]
          omega

end Values

end Stream
