import KvJet.Lib.Method
import KvJet.Raft.Disk
import Mathlib.Data.List.DropRight

/-!
# What a log file says

`loadFromDisk` cuts the file at its newlines and takes what stands behind the first space of a line
for a command (`fileCommands`). Nothing in a line says where its command was to end. So a command
with a newline in it is cut there, a line that a crash has left unfinished counts as it stands
(`Torn`), and what is appended behind such a line goes on with it (`lastLine`).
-/

namespace KvJet
namespace Raft

/-! ## The commands

A line is read in two parts, and only the second one is ever handed out. So two lines with different
terms and the same command are the same to whoever applies them. -/

/-- What stands behind the first space of each line that has one. -/
def fileCommands (file : Bytes) : List Bytes :=
  ((file.splitOn lf).filter (space ∈ ·)).map fun l => (l.dropWhile (· ≠ space)).drop 1

theorem dropWhile_space {l : Bytes} : l.dropWhile (· ≠ space) = [] ↔ space ∉ l := by
  rw [List.dropWhile_eq_nil_iff]
  constructor
  · intro h hmem
    exact of_decide_eq_true (h _ hmem) rfl
  · exact fun hno b hb => decide_eq_true fun hbs => hno (hbs ▸ hb)

theorem loadLine_commands {l : Bytes} {es : List LogEntry} (h : loadLine l = .ok es) :
    es.map LogEntry.command
      = if space ∈ l then [(l.dropWhile (· ≠ space)).drop 1] else [] := by
  unfold loadLine at h
  cases hdrop : l.dropWhile (· ≠ space) with
  | nil =>
    rw [hdrop] at h
    cases h
    rw [if_neg (dropWhile_space.mp hdrop)]
    rfl
  | cons b command =>
    have hmem : space ∈ l := by
      by_contra hno
      rw [dropWhile_space.mpr hno] at hdrop
      exact absurd hdrop (by simp)
    rw [hdrop] at h
    obtain ⟨term, -, hes⟩ := Except.of_bind_eq_ok h
    cases hes
    rw [if_pos hmem]
    rfl

/-- `loadFromDisk` keeps every one of them, whatever the terms are: a line is skipped or becomes an
entry for its space alone. -/
theorem loadFromDisk_commands {file : Bytes} {es : List LogEntry}
    (h : loadFromDisk file = .ok es) : es.map LogEntry.command = fileCommands file := by
  obtain ⟨parts, hparts, hes⟩ := Except.of_bind_eq_ok h
  cases hes
  clear h
  unfold fileCommands
  generalize file.splitOn lf = lines at hparts
  induction lines generalizing parts with
  | nil =>
    cases hparts
    rfl
  | cons l lines ih =>
    rw [List.mapM_cons] at hparts
    obtain ⟨first, hfirst, hrest⟩ := Except.of_bind_eq_ok hparts
    obtain ⟨others, hothers, hcons⟩ := Except.of_bind_eq_ok hrest
    cases hcons
    rw [List.flatten_cons, List.map_append, loadLine_commands hfirst, ih _ hothers]
    by_cases hmem : space ∈ l
    · rw [if_pos hmem, List.filter_cons, if_pos (decide_eq_true hmem)]
      rfl
    · rw [if_neg hmem, List.filter_cons, if_neg (by simpa using hmem)]
      rfl

/-- Each line with a space has a number before it. -/
def Readable (file : Bytes) : Prop :=
  ∀ l ∈ file.splitOn lf, space ∈ l → (stoull (l.takeWhile (· ≠ space))).isOk = true

theorem loadFromDisk_isOk {file : Bytes} :
    (loadFromDisk file).isOk = true ↔ Readable file := by
  have hline : ∀ l, (loadLine l).isOk = true ↔
      (space ∈ l → (stoull (l.takeWhile (· ≠ space))).isOk = true) := by
    intro l
    unfold loadLine
    cases hdrop : l.dropWhile (· ≠ space) with
    | nil =>
      exact iff_of_true rfl fun hmem => absurd hmem (dropWhile_space.mp hdrop)
    | cons b command =>
      have hmem : space ∈ l := by
        by_contra hno
        rw [dropWhile_space.mpr hno] at hdrop
        exact absurd hdrop (by simp)
      rw [imp_iff_right hmem]
      cases stoull (l.takeWhile (· ≠ space)) with
      | error e => rfl
      | ok term => rfl
  unfold loadFromDisk Readable
  rw [Except.isOk_bind]
  refine Iff.trans ?_ (Except.isOk_mapM.trans (forall₂_congr fun l _ => hline l))
  constructor
  · rintro ⟨parts, hparts, -⟩
    rw [hparts]
    rfl
  · intro h
    obtain ⟨parts, hparts⟩ := Except.exists_of_isOk h
    exact ⟨parts, hparts, rfl⟩

/-- What comes up has every entry of the file, and takes all of them for committed. -/
theorem RaftNode.restore_eq_ok {groupId : Nat} {selfId : Uuid} {peers : List Uuid} {file : Bytes}
    {rand : Nat} {n : RaftNode}
    (h : RaftNode.restore groupId selfId peers file rand = .ok n) :
    ∃ entries, loadFromDisk file = .ok entries ∧ n.log = sentinel :: entries ∧
      n.commitIndex = entries.length ∧ n.lastApplied = 0 := by
  obtain ⟨entries, hload, hn⟩ := Except.of_bind_eq_ok h
  cases hn
  refine ⟨entries, hload, ?_⟩
  split <;> exact ⟨rfl, rfl, rfl⟩

/-! ## Line by line

A newline ends a line whatever comes behind it, so a file can be taken apart at any of its newlines.
-/

theorem fileCommands_nil : fileCommands [] = [] := rfl

theorem fileCommands_append_newline (file rest : Bytes) :
    fileCommands (file ++ lf :: rest) = fileCommands file ++ fileCommands rest := by
  unfold fileCommands
  rw [List.splitOn_append_cons_self, List.filter_append, List.map_append]

/-- A line that has a space. -/
theorem fileCommands_of_space {l : Bytes} (h : lf ∉ l) (hspace : space ∈ l) :
    fileCommands l = [(l.dropWhile (· ≠ space)).drop 1] := by
  unfold fileCommands
  rw [List.splitOn_eq_singleton h, List.filter_cons, if_pos (decide_eq_true hspace)]
  rfl

theorem fileCommands_of_no_space {l : Bytes} (h : lf ∉ l) (hspace : space ∉ l) :
    fileCommands l = [] := by
  unfold fileCommands
  rw [List.splitOn_eq_singleton h, List.filter_cons, if_neg (by simpa using hspace)]
  rfl

/-- The line of an entry is read as its command, also where digits stand before it. -/
theorem fileCommands_behind {l : Bytes} (hlf : lf ∉ l) (hspace : space ∉ l) {e : LogEntry}
    (h : lf ∉ e.command) (rest : Bytes) :
    fileCommands (l ++ line e ++ rest) = e.command :: fileCommands rest := by
  have hline : l ++ line e ++ rest
      = (l ++ (toString e.term ++ space :: e.command)) ++ lf :: rest := by
    simp [line]
  have hbody : lf ∉ l ++ (toString e.term ++ space :: e.command) := fun hmem =>
    (List.mem_append.mp hmem).elim hlf (lf_not_mem_entry h)
  have hbefore : ∀ b ∈ l, decide (b ≠ space) = true := fun b hb =>
    decide_eq_true fun hbs => hspace (hbs ▸ hb)
  rw [hline, fileCommands_append_newline, fileCommands_of_space hbody (by simp),
    List.dropWhile_append_of_pos hbefore, dropWhile_entry]
  rfl

/-! ## The last line

A crash cuts the file anywhere, so its end may be a part of a line. It is read like a line, and
stands for another command where the cut goes through the command. -/

/-- What stands behind the last newline. -/
def lastLine (file : Bytes) : Bytes := file.rtakeWhile (· ≠ lf)

theorem lf_not_mem_lastLine (file : Bytes) : lf ∉ lastLine file := fun h =>
  absurd (List.mem_rtakeWhile_imp h) (by simp)

theorem lastLine_append_line (file : Bytes) (e : LogEntry) : lastLine (file ++ line e) = [] := by
  rw [line, ← List.append_assoc]
  exact List.rtakeWhile_concat_neg _ _ _ (by simp)

/-- A file is its last line, or has a newline before it. -/
theorem lastLine_cases (file : Bytes) :
    file = lastLine file ∨ ∃ whole, file = whole ++ lf :: lastLine file := by
  induction file using List.reverseRecOn with
  | nil => exact Or.inl rfl
  | append_singleton file b ih =>
    unfold lastLine at ih ⊢
    by_cases hb : b = lf
    · subst hb
      rw [List.rtakeWhile_concat_neg _ _ _ (by simp)]
      exact Or.inr ⟨file, rfl⟩
    · rw [List.rtakeWhile_concat_pos _ _ _ (by simpa using hb)]
      rcases ih with hsame | ⟨whole, hwhole⟩
      · exact Or.inl (congrArg (· ++ [b]) hsame)
      · refine Or.inr ⟨whole, ?_⟩
        rw [← List.cons_append, ← List.append_assoc, ← hwhole]

/-- What is appended behind a last line without a space is not changed by it. -/
theorem fileCommands_append_line {file : Bytes} (hopen : space ∉ lastLine file) {e : LogEntry}
    (h : lf ∉ e.command) : fileCommands (file ++ line e) = fileCommands file ++ [e.command] := by
  have hlast := fileCommands_of_no_space (lf_not_mem_lastLine file) hopen
  have hbehind := fileCommands_behind (lf_not_mem_lastLine file) hopen h []
  rw [List.append_nil, fileCommands_nil] at hbehind
  rcases lastLine_cases file with hsame | ⟨whole, hwhole⟩
  · rw [hsame, hlast, List.nil_append]
    exact hbehind
  · have hcut : fileCommands file = fileCommands whole := by
      rw [hwhole, fileCommands_append_newline, hlast, List.append_nil]
    rw [hcut, hwhole, List.append_assoc, List.cons_append, fileCommands_append_newline, hbehind]

/-- The file ends in the middle of a command: `rest` is missing, and goes on with its last line. -/
def Torn (file rest : Bytes) : Prop := space ∈ lastLine file ∧ ∃ b ∈ rest.head?, b ≠ lf

instance : DecidableRel Torn := fun _ _ => inferInstanceAs (Decidable (_ ∧ _))

/-- A file that lacks its end, but is not torn, has the first of the commands. -/
theorem fileCommands_prefix {file rest : Bytes} (h : ¬ Torn file rest) :
    fileCommands file <+: fileCommands (file ++ rest) := by
  by_cases hspace : space ∈ lastLine file
  · -- the last line is whole, so nothing is missing or its newline comes next
    cases rest with
    | nil =>
      rw [List.append_nil]
    | cons b rest =>
      have hb : b = lf := by
        by_contra hne
        exact h ⟨hspace, b, rfl, hne⟩
      rw [hb, fileCommands_append_newline]
      exact List.prefix_append _ _
  · have hlast := fileCommands_of_no_space (lf_not_mem_lastLine file) hspace
    rcases lastLine_cases file with hsame | ⟨whole, hwhole⟩
    · rw [hsame, hlast]
      exact List.nil_prefix
    · rw [hwhole, List.append_assoc, List.cons_append, fileCommands_append_newline,
        fileCommands_append_newline, hlast, List.append_nil]
      exact List.prefix_append _ _

/-! ## The calls

What the calls of a life bring into the file, behind what was there. -/

/-- What a call appends. -/
def DiskOp.entry? : DiskOp → Option LogEntry
  | .append e => some e
  | .flush | .rewrite _ => none

namespace Disk

/-- Appending and flushing, the disk holds the file it began with and what was appended, wherever it
is by now. -/
theorem onto_contents (spill : Nat → Nat) (file : Bytes) {ops : List DiskOp}
    (h : ∀ log, .rewrite log ∉ ops) :
    (onto spill file ops).contents = file ++ (ops.filterMap DiskOp.entry?).flatMap line := by
  unfold onto
  generalize hd : ({ file } : Disk) = d
  have hfile : file = d.contents := by
    rw [← hd]
    simp [contents]
  rw [hfile]
  generalize 0 = k
  clear hd hfile
  induction ops generalizing d k with
  | nil => simp
  | cons op ops ih =>
    have hops : ∀ log, .rewrite log ∉ ops := fun log hmem => h log (List.mem_cons_of_mem _ hmem)
    rw [List.zipIdx_cons, Run.exec_cons, ih hops]
    cases op with
    | append e =>
      show (appendToDisk d e _).contents ++ _ = _
      rw [appendToDisk_contents, List.filterMap_cons]
      simp [DiskOp.entry?]
    | flush =>
      show (flushDisk d).contents ++ _ = _
      rw [flushDisk_contents, List.filterMap_cons]
      simp [DiskOp.entry?]
    | rewrite log => exact absurd List.mem_cons_self (h log)

end Disk

end Raft
end KvJet
