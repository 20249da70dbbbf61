import KvJet.Raft.Node

/-!
# Logs and their agreement

What `handleAppendEntries` does to the log, as a function of logs (`splice`) in closed form
(`splice_spec`): from the first covered entry on whose term is not the message's, everything is
cut off and replaced by the rest of the message's commands, stamped with the message's term; if
there is no such entry, nothing changes.

Two logs agree up to an index when their *commands* are the same up to there. The terms may
differ: a follower stamps what it receives with the term of the leader that sends it.
-/

namespace KvJet
namespace Raft

def cmdAt (l : List LogEntry) (i : Nat) : Option Bytes := l[i]?.map LogEntry.command

def stampAt (l : List LogEntry) (i : Nat) : Option Nat := l[i]?.map LogEntry.term

/-- `lastLogTerm` of a node with this log. -/
def lastStamp (l : List LogEntry) : Nat :=
  if l.length ≤ 1 then 0 else (l.getLast?.map LogEntry.term).getD 0

theorem RaftNode.lastLogTerm_eq (n : RaftNode) : n.lastLogTerm = lastStamp n.log := rfl

theorem stampAt_eq_some {l : List LogEntry} {i s : Nat} :
    stampAt l i = some s ↔ ∃ e, l[i]? = some e ∧ e.term = s := by
  simp [stampAt]

theorem stampAt_isSome {l : List LogEntry} {i : Nat} (h : i < l.length) :
    ∃ s, stampAt l i = some s := ⟨l[i].term, by simp [stampAt, h]⟩

theorem lt_length_of_stampAt {l : List LogEntry} {i s : Nat} (h : stampAt l i = some s) :
    i < l.length := by
  obtain ⟨e, he, -⟩ := stampAt_eq_some.mp h
  exact (List.getElem?_eq_some_iff.mp he).1

theorem lastStamp_eq {l : List LogEntry} {s : Nat} (h1 : 1 < l.length)
    (h : stampAt l (l.length - 1) = some s) : lastStamp l = s := by
  unfold lastStamp stampAt at *
  rw [if_neg (by omega), List.getLast?_eq_getElem?, h]
  rfl

theorem stampAt_last {l : List LogEntry} (h1 : 1 < l.length) :
    stampAt l (l.length - 1) = some (lastStamp l) := by
  obtain ⟨s, hs⟩ := stampAt_isSome (l := l) (i := l.length - 1) (by omega)
  rw [hs, lastStamp_eq h1 hs]

theorem stampAt_append_left {l : List LogEntry} {i : Nat} (h : i < l.length) (l' : List LogEntry) :
    stampAt (l ++ l') i = stampAt l i := by
  simp [stampAt, List.getElem?_append_left h]

theorem cmdAt_append_left {l : List LogEntry} {i : Nat} (h : i < l.length) (l' : List LogEntry) :
    cmdAt (l ++ l') i = cmdAt l i := by
  simp [cmdAt, List.getElem?_append_left h]

theorem cmdAt_of_extends {l l' : List LogEntry} {i : Nat} (h : l <+: l') (hi : i < l.length) :
    cmdAt l' i = cmdAt l i := by
  obtain ⟨t, rfl⟩ := h
  exact cmdAt_append_left hi t

theorem stampAt_of_extends {l l' : List LogEntry} {i : Nat} (h : l <+: l') (hi : i < l.length) :
    stampAt l' i = stampAt l i := by
  obtain ⟨t, rfl⟩ := h
  exact stampAt_append_left hi t

/-- The stamps never go down along the log. -/
def Sorted (l : List LogEntry) : Prop :=
  ∀ i j s s', i ≤ j → stampAt l i = some s → stampAt l j = some s' → s ≤ s'

theorem Sorted.le_lastStamp {l : List LogEntry} (h : Sorted l) {i s : Nat} (hi : 1 ≤ i)
    (hs : stampAt l i = some s) : s ≤ lastStamp l := by
  have hlt := lt_length_of_stampAt hs
  exact h i (l.length - 1) s _ (by omega) hs (stampAt_last (by omega))

/-! ## Agreement -/

def Agree (l l' : List LogEntry) (i : Nat) : Prop :=
  i < l.length ∧ i < l'.length ∧ ∀ j ≤ i, cmdAt l j = cmdAt l' j

namespace Agree

variable {l l' l'' : List LogEntry} {i j : Nat}

theorem refl (h : i < l.length) : Agree l l i := ⟨h, h, fun _ _ => rfl⟩

theorem symm (h : Agree l l' i) : Agree l' l i := ⟨h.2.1, h.1, fun j hj => (h.2.2 j hj).symm⟩

theorem trans (h : Agree l l' i) (h' : Agree l' l'' i) : Agree l l'' i :=
  ⟨h.1, h'.2.1, fun j hj => (h.2.2 j hj).trans (h'.2.2 j hj)⟩

theorem mono (h : Agree l l' i) (hj : j ≤ i) : Agree l l' j :=
  ⟨Nat.lt_of_le_of_lt hj h.1, Nat.lt_of_le_of_lt hj h.2.1,
    fun a ha => h.2.2 a (Nat.le_trans ha hj)⟩

theorem of_extends (h : l <+: l') (hi : i < l.length) : Agree l l' i := by
  refine ⟨hi, Nat.lt_of_lt_of_le hi h.length_le, fun j hj => ?_⟩
  exact (cmdAt_of_extends h (Nat.lt_of_le_of_lt hj hi)).symm

/-- Agreement with a log is agreement with what it grows into. -/
theorem grow (h : Agree l l' i) (hp : l' <+: l'') : Agree l l'' i :=
  h.trans (of_extends hp h.2.1)

/-- Logs with the same first entries agree with the same logs there. -/
theorem congr (h : Agree l l'' i) (hi : i < l'.length) (heq : ∀ j ≤ i, l'[j]? = l[j]?) :
    Agree l' l'' i := by
  refine ⟨hi, h.2.1, fun j hj => ?_⟩
  unfold cmdAt
  rw [heq j hj]
  exact h.2.2 j hj

end Agree

/-! ## The splice -/

def splice (term : Nat) : Nat → List Bytes → List LogEntry → List LogEntry
  | _, [], l => l
  | idx, cmd :: cmds, l =>
    let l := if (l[idx]?.map fun e => decide (e.term ≠ term)).getD false then l.take idx else l
    let l := if idx ≥ l.length then l ++ [⟨term, cmd⟩] else l
    splice term (idx + 1) cmds l

/-- Past the end, everything is appended. -/
theorem splice_end (term : Nat) : ∀ (cmds : List Bytes) (l : List LogEntry),
    splice term l.length cmds l = l ++ cmds.map (LogEntry.mk term) := by
  intro cmds
  induction cmds with
  | nil => intro l; simp [splice]
  | cons cmd cmds ih =>
    intro l
    have h := ih (l ++ [⟨term, cmd⟩])
    rw [List.length_append, List.length_singleton] at h
    simp [splice, h]

theorem splice_keep {term idx : Nat} {cmd : Bytes} {cmds : List Bytes} {l : List LogEntry}
    (h : stampAt l idx = some term) :
    splice term idx (cmd :: cmds) l = splice term (idx + 1) cmds l := by
  obtain ⟨e, he, hs⟩ := stampAt_eq_some.mp h
  have hlt := lt_length_of_stampAt h
  simp [splice, he, hs, Nat.not_le.mpr hlt]

theorem splice_cut {term idx : Nat} {cmd : Bytes} {cmds : List Bytes} {l : List LogEntry}
    (hidx : idx ≤ l.length) (h : stampAt l idx ≠ some term) :
    splice term idx (cmd :: cmds) l = l.take idx ++ (cmd :: cmds).map (LogEntry.mk term) := by
  have hcut : splice term idx (cmd :: cmds) l
      = splice term (idx + 1) cmds (l.take idx ++ [⟨term, cmd⟩]) := by
    cases he : l[idx]? with
    | none =>
      have hlen : l.length ≤ idx := List.getElem?_eq_none_iff.mp he
      simp [splice, hlen, List.take_of_length_le hlen]
    | some e =>
      have hs : e.term ≠ term := fun hs => h (stampAt_eq_some.mpr ⟨e, he, hs⟩)
      simp [splice, he, hs]
  have hend := splice_end term cmds (l.take idx ++ [⟨term, cmd⟩])
  rw [List.length_append, List.length_take, Nat.min_eq_left hidx, List.length_singleton] at hend
  rw [hcut, hend]
  simp

/-- **What the splice does.** `k` is how many of the covered entries carry the message's term
before the first that does not. -/
theorem splice_spec (term : Nat) : ∀ (cmds : List Bytes) (idx : Nat) (l : List LogEntry),
    idx ≤ l.length → ∃ k ≤ cmds.length, (∀ j < k, stampAt l (idx + j) = some term) ∧
      ((k = cmds.length ∧ splice term idx cmds l = l) ∨
       (k < cmds.length ∧ idx + k ≤ l.length ∧ stampAt l (idx + k) ≠ some term ∧
        splice term idx cmds l = l.take (idx + k) ++ (cmds.drop k).map (LogEntry.mk term))) := by
  intro cmds
  induction cmds with
  | nil =>
    intro idx l _
    exact ⟨0, Nat.le_refl _, by simp, Or.inl ⟨rfl, rfl⟩⟩
  | cons cmd cmds ih =>
    intro idx l hidx
    by_cases hst : stampAt l idx = some term
    · have hlt := lt_length_of_stampAt hst
      obtain ⟨k, hk, hkeep, hcase⟩ := ih (idx + 1) l hlt
      refine ⟨k + 1, by simpa using hk, ?_, ?_⟩
      · intro j hj
        cases j with
        | zero => exact hst
        | succ j =>
          have := hkeep j (by omega)
          rwa [Nat.add_assoc, Nat.add_comm 1 j] at this
      · rw [splice_keep hst, Nat.add_comm k 1, ← Nat.add_assoc]
        rcases hcase with ⟨hkl, heq⟩ | ⟨hkl, hle, hne, heq⟩
        · exact Or.inl ⟨by rw [List.length_cons, hkl]; omega, heq⟩
        · refine Or.inr ⟨by rw [List.length_cons]; omega, hle, hne, ?_⟩
          rw [heq, Nat.add_comm 1 k]
          rfl
    · refine ⟨0, Nat.zero_le _, by simp, Or.inr ⟨by simp, hidx, hst, ?_⟩⟩
      rw [splice_cut hidx hst]
      rfl

/-- The same, index by index, for a message that covers `prevIdx + 1, …, prevIdx + cmds.length`:
either nothing changes and all of these carry the message's term, or the log is the old one up
to the first of them that does not and then the message. -/
theorem splice_cases (term : Nat) (cmds : List Bytes) {prevIdx : Nat} {l : List LogEntry}
    (hprev : prevIdx < l.length) :
    (splice term (prevIdx + 1) cmds l = l ∧
      ∀ i, prevIdx < i → i ≤ prevIdx + cmds.length → stampAt l i = some term) ∨
    ∃ c, prevIdx < c ∧ c ≤ prevIdx + cmds.length ∧ c ≤ l.length ∧
      (∀ i, prevIdx < i → i < c → stampAt l i = some term) ∧ stampAt l c ≠ some term ∧
      (splice term (prevIdx + 1) cmds l).length = prevIdx + 1 + cmds.length ∧
      (∀ i < c, (splice term (prevIdx + 1) cmds l)[i]? = l[i]?) ∧
      ∀ i, c ≤ i → i ≤ prevIdx + cmds.length →
        (splice term (prevIdx + 1) cmds l)[i]?
          = cmds[i - prevIdx - 1]?.map (LogEntry.mk term) := by
  obtain ⟨k, hk, hkeep, ⟨hkl, heq⟩ | ⟨hkl, hle, hne, heq⟩⟩ :=
    splice_spec term cmds (prevIdx + 1) l hprev
  · refine Or.inl ⟨heq, fun i hi hi' => ?_⟩
    have := hkeep (i - prevIdx - 1) (by omega)
    rwa [show prevIdx + 1 + (i - prevIdx - 1) = i by omega] at this
  · have hlen : (l.take (prevIdx + 1 + k)).length = prevIdx + 1 + k := by
      rw [List.length_take, Nat.min_eq_left hle]
    refine Or.inr ⟨prevIdx + 1 + k, by omega, by omega, hle, ?_, hne, ?_, ?_, ?_⟩
    · intro i hi hi'
      have := hkeep (i - prevIdx - 1) (by omega)
      rwa [show prevIdx + 1 + (i - prevIdx - 1) = i by omega] at this
    · rw [heq, List.length_append, hlen, List.length_map, List.length_drop]
      omega
    · intro i hi
      rw [heq, List.getElem?_append_left (by omega), List.getElem?_take_of_lt hi]
    · intro i hi hi'
      rw [heq, List.getElem?_append_right (by omega), hlen, List.getElem?_map,
        List.getElem?_drop]
      congr 2
      omega

/-- A log that is changed ends in the message's term, where the message ends. -/
theorem splice_lastStamp (term : Nat) (cmds : List Bytes) {prevIdx : Nat} {l : List LogEntry}
    (hprev : prevIdx < l.length) :
    (splice term (prevIdx + 1) cmds l = l ∧
      (cmds ≠ [] → stampAt l (prevIdx + cmds.length) = some term)) ∨
    ((splice term (prevIdx + 1) cmds l).length = prevIdx + 1 + cmds.length ∧
      lastStamp (splice term (prevIdx + 1) cmds l) = term) := by
  rcases splice_cases term cmds hprev with ⟨heq, hstamps⟩ |
    ⟨c, hpc, hcle, -, -, -, hlen, -, hnew⟩
  · refine Or.inl ⟨heq, fun hcmds => ?_⟩
    have := List.length_pos_iff.mpr hcmds
    exact hstamps _ (by omega) (Nat.le_refl _)
  · refine Or.inr ⟨hlen, lastStamp_eq (by omega) ?_⟩
    unfold stampAt
    rw [hlen, hnew _ (by omega) (by omega), List.getElem?_eq_getElem (by omega)]
    rfl

/-- Up to some entry the log stays, and behind it there are only new entries. -/
theorem stampAt_splice (term : Nat) (cmds : List Bytes) {prevIdx : Nat} {l : List LogEntry}
    (hprev : prevIdx < l.length) :
    ∃ c, prevIdx < c ∧ (∀ i < c, (splice term (prevIdx + 1) cmds l)[i]? = l[i]?) ∧
      ∀ i s, stampAt (splice term (prevIdx + 1) cmds l) i = some s →
        (i < c ∧ stampAt l i = some s) ∨ (c ≤ i ∧ i ≤ prevIdx + cmds.length ∧ s = term) := by
  rcases splice_cases term cmds hprev with ⟨heq, -⟩ | ⟨c, hpc, -, -, -, -, hlen, hold, hnew⟩
  · rw [heq]
    exact ⟨l.length, hprev, fun _ _ => rfl, fun i s hs => Or.inl ⟨lt_length_of_stampAt hs, hs⟩⟩
  · refine ⟨c, hpc, hold, fun i s hs => ?_⟩
    have hi := lt_length_of_stampAt hs
    unfold stampAt at hs ⊢
    rcases Nat.lt_or_ge i c with hic | hic
    · rw [hold i hic] at hs
      exact Or.inl ⟨hic, hs⟩
    · rw [hnew i hic (by omega), List.getElem?_eq_getElem (by omega)] at hs
      exact Or.inr ⟨hic, by omega, (Option.some.inj hs).symm⟩

/-! ## Logs in order -/

/-- A log as a node of term `t` keeps it. -/
structure Ordered (t : Nat) (l : List LogEntry) : Prop where
  root : l[0]? = some sentinel
  sorted : Sorted l
  bound : ∀ i s, stampAt l i = some s → s ≤ t

namespace Ordered

variable {t t' : Nat} {l : List LogEntry}

theorem mono (h : Ordered t l) (hle : t ≤ t') : Ordered t' l :=
  ⟨h.root, h.sorted, fun i s hs => Nat.le_trans (h.bound i s hs) hle⟩

theorem pos (h : Ordered t l) : 0 < l.length := (List.getElem?_eq_some_iff.mp h.root).1

theorem push (h : Ordered t l) (cmd : Bytes) : Ordered t (l ++ [⟨t, cmd⟩]) := by
  have hcases : ∀ i s, stampAt (l ++ [⟨t, cmd⟩]) i = some s →
      (i < l.length ∧ stampAt l i = some s) ∨ (i = l.length ∧ s = t) := by
    intro i s hs
    have hi := lt_length_of_stampAt hs
    rw [List.length_append, List.length_singleton] at hi
    rcases Nat.lt_or_ge i l.length with hil | hil
    · rw [stampAt_append_left hil] at hs
      exact Or.inl ⟨hil, hs⟩
    · have hi' : i = l.length := by omega
      subst hi'
      exact Or.inr ⟨rfl, by simpa [stampAt, eq_comm] using hs⟩
  have hbound : ∀ i s, stampAt (l ++ [⟨t, cmd⟩]) i = some s → s ≤ t := by
    intro i s hs
    rcases hcases i s hs with ⟨-, hs'⟩ | ⟨-, rfl⟩
    · exact h.bound i s hs'
    · exact Nat.le_refl _
  refine ⟨?_, fun i j s s' hij hs hs' => ?_, hbound⟩
  · rw [List.getElem?_append_left h.pos]
    exact h.root
  · rcases hcases j s' hs' with ⟨hj, hs'⟩ | ⟨-, rfl⟩
    · rcases hcases i s hs with ⟨-, hs⟩ | ⟨hi, -⟩
      · exact h.sorted i j s s' hij hs hs'
      · omega
    · exact hbound i s hs

theorem splice (h : Ordered t l) (cmds : List Bytes) {prevIdx : Nat} (hprev : prevIdx < l.length) :
    Ordered t (Raft.splice t (prevIdx + 1) cmds l) := by
  obtain ⟨c, hpc, hold, hcases⟩ := stampAt_splice t cmds hprev
  have hbound : ∀ i s, stampAt (Raft.splice t (prevIdx + 1) cmds l) i = some s → s ≤ t := by
    intro i s hs
    rcases hcases i s hs with ⟨-, hs'⟩ | ⟨-, -, rfl⟩
    · exact h.bound i s hs'
    · exact Nat.le_refl _
  refine ⟨?_, fun i j s s' hij hs hs' => ?_, hbound⟩
  · rw [hold 0 (by omega)]
    exact h.root
  · rcases hcases j s' hs' with ⟨hjc, hs''⟩ | ⟨-, -, rfl⟩
    · rcases hcases i s hs with ⟨-, hsi⟩ | ⟨hci, -, -⟩
      · exact h.sorted i j s s' hij hsi hs''
      · omega
    · exact hbound i s hs

end Ordered

/-! ## Handing out -/

theorem filterMap_range' (l : List LogEntry) : ∀ (n s : Nat), s + n ≤ l.length →
    (List.range' s n).filterMap (l[·]?) = (l.drop s).take n := by
  intro n
  induction n with
  | zero => intro s _; simp
  | succ n ih =>
    intro s hs
    have hlt : s < l.length := by omega
    rw [List.range'_succ, List.filterMap_cons_some (List.getElem?_eq_getElem hlt),
      ih (s + 1) (by omega), List.drop_eq_getElem_cons hlt, List.take_succ_cons]

/-- What `takePendingApply` hands out of a log that reaches `commitIndex`. -/
theorem RaftNode.takePendingApply_snd {n : RaftNode} (h : n.commitIndex < n.log.length)
    (hle : n.lastApplied ≤ n.commitIndex) : n.takePendingApply.2
      = (n.log.drop (n.lastApplied + 1)).take (n.commitIndex - n.lastApplied) := by
  unfold RaftNode.takePendingApply
  exact filterMap_range' _ _ _ (by omega)

end Raft
end KvJet
